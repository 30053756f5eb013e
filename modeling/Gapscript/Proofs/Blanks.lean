import Gapscript.Proofs.Atoms
import Gapscript.Proofs.Lines
import Gapscript.Proofs.Placeless

/-! # Which blanks and how many

Blanks matter only by being there. After a text that may end, one blank settles what is being read and further ones
change nothing but places, so that the same text is read alike after any blanks. Where a blank or a newline comes next
anyway, or the end of the text, there need not be any.
-/
namespace Gapscript

/-- The same failure, apart from where it is. -/
inductive ScanError.Alike : ScanError → ScanError → Prop where
  | unterminated {quote : Quote} {pos line pos' line' : Nat} :
      Alike (.unterminated quote pos line) (.unterminated quote pos' line')
  | unknownChar {c : Char} {pos line pos' line' : Nat} : Alike (.unknownChar c pos line) (.unknownChar c pos' line')

/-- The same failure at the same stage, apart from where it is. -/
inductive Error.Alike : Error → Error → Prop where
  | scan {e e' : ScanError} (h : e.Alike e') : Alike (.scan e) (.scan e')
  | parse {e e' : ParseError} (h : e.Alike e') : Alike (.parse e) (.parse e')
  | lower (e : LowerError) : Alike (.lower e) (.lower e)

namespace Scan

variable {s t : State} {us vs : List Token} {ls : List Lexeme} {cs ds : List Char} {c : Char}

/-- Both fail alike, or both give the same lexemes. -/
inductive SameLexemes : Except ScanError (List Token) → Except ScanError (List Token) → Prop where
  | ok {us vs : List Token} (h : us.map Token.lexeme = vs.map Token.lexeme) : SameLexemes (.ok us) (.ok vs)
  | error {e e' : ScanError} (h : e.Alike e') : SameLexemes (.error e) (.error e')

/-- The tokens of a text whose rest is still to be read. -/
def State.scanRest (s : State) (cs : List Char) : Except ScanError (List Token) :=
  match s.run cs with
  | .ok s' => s'.finish
  | .error e => .error e

theorem scan_append (u v : String) (h : State.initial.run u.toList = .ok s) :
    Token.scan (u ++ v) = s.scanRest v.toList := by
  rw [Token.scan, String.toList_append, run_after h]
  rfl

theorem State.scanRest_append (h : s.run cs = .ok t) (ds : List Char) : s.scanRest (cs ++ ds) = t.scanRest ds := by
  rw [scanRest, run_after h, scanRest]

/-! ## Two runs -/

theorem Pending.Alike.of_common {p q r : Pending} (h : p.Alike q) (h' : p.Alike r) : q.Alike r := by
  cases h with
  | gap =>
    cases h'
    exact .gap
  | symbol =>
    cases h'
    exact .symbol
  | point =>
    cases h'
    exact .point
  | operator =>
    cases h'
    exact .operator
  | string =>
    cases h'
    exact .string

theorem Echoes.of_common {before : List Lexeme} {r : State} (h : Echoes before r s) (h' : Echoes before r t) :
    Echoes [] s t := by
  refine ⟨?_,h.pending.of_common h'.pending⟩
  rw [h'.tokens, h.tokens, List.append_nil]

theorem At.echoes {p : Pending} (hs : At ls p s) (ht : At ls p t) : Echoes [] s t := by
  refine ⟨?_,hs.2.of_common ht.2⟩
  rw [hs.1, ht.1, List.append_nil]

theorem Echoes.finish_sameLexemes (h : Echoes [] s t) : SameLexemes s.finish t.finish := by
  rcases finish_cases s with ⟨s',_,_,_,_,hfinish⟩ | ⟨quote,start,chars,escaped,hpending,hfinish⟩
  · obtain ⟨vs,hvs,hlexemes⟩ := h.finish hfinish
    rw [hfinish, hvs]
    exact .ok hlexemes.symm
  · have halike := h.pending
    rw [hpending] at halike
    obtain ⟨pos,line,tokens,pending⟩ := t
    cases halike
    rw [hfinish]
    exact .error .unterminated

/-- States that read the same after the same lexemes make the same of the rest of the text. -/
theorem Echoes.scanRest (h : Echoes [] s t) (cs : List Char) : SameLexemes (s.scanRest cs) (t.scanRest cs) := by
  have hagree := h.run cs
  unfold State.scanRest
  generalize s.run cs = x at hagree
  generalize t.run cs = y at hagree
  cases hagree with
  | ok h => exact h.finish_sameLexemes
  | unknown => exact .error .unknownChar

/-! ## Blanks after a text that may end -/

/-- A blank settles what is being read. -/
theorem step_blank (h : s.finish = .ok us) (hc : isBlank c) :
    ∃ s', s.step c = .ok s' ∧ At (us.map Token.lexeme).reverse (.gap false []) s' := by
  have hmem := isBlank_iff.mp hc
  simp only [List.mem_cons, List.not_mem_nil, or_false] at hmem
  obtain ⟨pos,line,tokens,pending⟩ := s
  cases pending with
  | gap | symbol | operator | point =>
    cases h
    rcases hmem with rfl | rfl | rfl
    all_goals
      refine ⟨_,rfl,?_,.gap⟩
      rw [List.map_reverse, List.reverse_reverse]
      rfl
  | string => cases h

theorem leads_blanks (h : Blank cs) : Leads (At ls (.gap false [])) cs (At ls (.gap false [])) := by
  induction cs with
  | nil => exact leads_nil
  | cons c cs ih =>
    obtain ⟨hc,hcs⟩ := List.forall_mem_cons.mp h
    have hfirst : Leads (At ls (.gap false [])) [c] (At ls (.gap false [])) := by
      refine leads_step ?_
      rintro ⟨pos,line,tokens,pending⟩ ⟨hls,hp⟩
      cases hp
      exact ⟨_,if_pos hc,hls,.gap⟩
    exact hfirst.append (ih hcs)

theorem run_blanks (h : s.finish = .ok us) (hcs : Blank cs) (hne : cs ≠ []) :
    ∃ s', s.run cs = .ok s' ∧ At (us.map Token.lexeme).reverse (.gap false []) s' := by
  obtain ⟨c,cs,rfl⟩ := List.exists_cons_of_ne_nil hne
  obtain ⟨hc,hcs⟩ := List.forall_mem_cons.mp hcs
  obtain ⟨s',hstep,hs'⟩ := step_blank h hc
  obtain ⟨s'',hrun,hs''⟩ := leads_blanks hcs s' hs'
  exact ⟨s'',by simp only [State.run, hstep, hrun],hs''⟩

/-- Any blanks may follow a text that may end, and it may end after them. -/
theorem finish_blanks (h : s.finish = .ok us) (hcs : Blank cs) :
    ∃ s' vs, s.run cs = .ok s' ∧ s'.finish = .ok vs ∧ vs.map Token.lexeme = us.map Token.lexeme := by
  by_cases hne : cs = []
  · subst hne
    exact ⟨s,us,rfl,h,rfl⟩
  · obtain ⟨⟨pos,line,tokens,pending⟩,hrun,hls,hp⟩ := run_blanks h hcs hne
    cases hp
    refine ⟨_,_,hrun,rfl,?_⟩
    rw [List.map_reverse]
    exact List.reverse_eq_iff.mpr hls

theorem sameLexemes_gap (h : s.finish = .ok us) (hcs : Blank cs) (hds : Blank ds) (hcs' : cs ≠ []) (hds' : ds ≠ [])
    (rest : List Char) : SameLexemes (s.scanRest (cs ++ rest)) (s.scanRest (ds ++ rest)) := by
  obtain ⟨t,ht,hat⟩ := run_blanks h hcs hcs'
  obtain ⟨t',ht',hat'⟩ := run_blanks h hds hds'
  rw [State.scanRest_append ht, State.scanRest_append ht']
  exact (hat.echoes hat').scanRest rest

theorem sameLexemes_line (h : s.finish = .ok us) (h' : t.finish = .ok vs)
    (hlexemes : us.map Token.lexeme = vs.map Token.lexeme) (rest : List Char) :
    SameLexemes (s.scanRest ('\n' :: rest)) (t.scanRest ('\n' :: rest)) := by
  obtain ⟨s',hs,hechoes⟩ := step_newline h
  obtain ⟨t',ht,hechoes'⟩ := step_newline h'
  rw [← hlexemes] at hechoes'
  simp only [State.scanRest, State.run, hs, ht]
  exact (hechoes.of_common hechoes').scanRest rest

/-- After a text that may end, `cs` and `ds` are the same gap before the rest: both hold a blank, or the rest begins with
a gap itself. -/
theorem sameLexemes_blanks (h : s.finish = .ok us) (hcs : Blank cs) (hds : Blank ds) {rest : List Char}
    (hgap : cs ≠ [] ∧ ds ≠ [] ∨ ∀ c, rest.head? = some c → isBlank c ∨ c = '\n') :
    SameLexemes (s.scanRest (cs ++ rest)) (s.scanRest (ds ++ rest)) := by
  rcases hgap with ⟨hcs',hds'⟩ | hrest
  · exact sameLexemes_gap h hcs hds hcs' hds' rest
  obtain ⟨t,ts,ht,hts,htl⟩ := finish_blanks h hcs
  obtain ⟨t',ts',ht',hts',htl'⟩ := finish_blanks h hds
  have hlexemes : ts.map Token.lexeme = ts'.map Token.lexeme := htl.trans htl'.symm
  cases rest with
  | nil =>
    rw [List.append_nil, List.append_nil]
    simp only [State.scanRest, ht, ht', hts, hts']
    exact .ok hlexemes
  | cons c rest =>
    rcases hrest c rfl with hblank | rfl
    · -- The blank that comes first in the rest makes both gaps longer.
      have hboth {cs : List Char} (hcs : Blank cs) : Blank (cs ++ [c]) ∧ cs ++ [c] ≠ [] := by
        refine ⟨?_,List.append_ne_nil_of_right_ne_nil _ (List.cons_ne_nil _ _)⟩
        intro d hd
        rcases List.mem_append.mp hd with hd | hd
        · exact hcs d hd
        · exact List.mem_singleton.mp hd ▸ hblank
      have hgap := sameLexemes_gap h (hboth hcs).1 (hboth hds).1 (hboth hcs).2 (hboth hds).2 rest
      simpa using hgap
    · rw [State.scanRest_append ht, State.scanRest_append ht']
      exact sameLexemes_line hts hts' hlexemes rest

end Scan

/-- Sources that are scanned alike compile alike. -/
theorem compile_alike_of_scan {x y : String} (h : Scan.SameLexemes (Token.scan x) (Token.scan y)) :
    (∃ t, compile x = .ok t ∧ compile y = .ok t) ∨
      ∃ e e', compile x = .error e ∧ compile y = .error e' ∧ e.Alike e' := by
  unfold compile
  generalize Token.scan x = us at h
  generalize Token.scan y = vs at h
  cases h with
  | error h => exact .inr ⟨_,_,rfl,rfl,.scan h⟩
  | ok h =>
    rcases Tree.parse_alike h with ⟨t,u,ht,hu,hbare⟩ | ⟨e,e',ht,hu,halike⟩
    · simp only [ht, hu, Term.ofTree_eq_of_bare hbare]
      cases Term.ofTree u with
      | ok term => exact .inl ⟨term,rfl,rfl⟩
      | error e => exact .inr ⟨_,_,rfl,rfl,.lower e⟩
    · simp only [ht, hu]
      exact .inr ⟨_,_,rfl,rfl,.parse halike⟩

/-- Only the presence of blanks matters. After a text `u` that can be scanned, blanks may be replaced by other blanks,
or left out where a gap follows anyway: the program stays the same, or its failure does. -/
theorem compile_blanks_alike {u v w w' : String} (hu : ∃ tokens, Token.scan u = .ok tokens) (hw : Scan.Blank w.toList)
    (hw' : Scan.Blank w'.toList)
    (hgap : w ≠ "" ∧ w' ≠ "" ∨ ∀ c, v.toList.head? = some c → Scan.isBlank c ∨ c = '\n') :
    (∃ t, compile (u ++ w ++ v) = .ok t ∧ compile (u ++ w' ++ v) = .ok t) ∨
      ∃ e e', compile (u ++ w ++ v) = .error e ∧ compile (u ++ w' ++ v) = .error e' ∧ e.Alike e' := by
  obtain ⟨tokens,htokens⟩ := hu
  obtain ⟨s,hs,hfinish⟩ := Scan.scan_eq_ok_iff.mp htokens
  have hgap' : w.toList ≠ [] ∧ w'.toList ≠ [] ∨ ∀ c, v.toList.head? = some c → Scan.isBlank c ∨ c = '\n' := by
    simpa only [Ne, String.toList_eq_nil_iff] using hgap
  have hscan := Scan.sameLexemes_blanks hfinish hw hw' hgap'
  rw [← String.toList_append, ← String.toList_append, ← Scan.scan_append u _ hs, ← Scan.scan_append u _ hs,
    ← String.append_assoc, ← String.append_assoc] at hscan
  exact compile_alike_of_scan hscan

/-- The sign in `a -b` belongs to `b` after any blanks, unlike in `a-b`; and at the end of a line blanks change nothing but
the place of what fails on the next one. -/
theorem compile_blanks_alike_sign :
    (∃ t, compile ("a" ++ " " ++ "-b") = .ok t ∧ compile ("a" ++ "\r\t " ++ "-b") = .ok t ∧ compile "a-b" ≠ .ok t) ∧
    ∃ e e', compile ("x = 1." ++ "" ++ "\n'") = .error e ∧ compile ("x = 1." ++ " " ++ "\n'") = .error e' ∧
      e.Alike e' ∧ e ≠ e' := by
  have hblank {w : String} (h : w.toList.all Scan.isBlank = true) : Scan.Blank w.toList := List.all_eq_true.mp h
  have hsign := @compile_blanks_alike "a" "-b" " " "\r\t " ⟨_,rfl⟩ (hblank rfl) (hblank rfl)
    (.inl ⟨by decide,by decide⟩)
  have hnewline : ∀ c, "\n'".toList.head? = some c → Scan.isBlank c ∨ c = '\n' := by
    intro c hc
    exact .inr (Option.some.inj hc).symm
  have hquote := @compile_blanks_alike "x = 1." "\n'" "" " " ⟨_,rfl⟩ (hblank rfl) (hblank rfl) (.inr hnewline)
  have hcall : compile ("a" ++ " " ++ "-b") =
      .ok (.block .top [.apply (.symbol "a") [.apply (.ref ⟨.preop, "-"⟩) [.symbol "b"]]]) := rfl
  have hminus : compile "a-b" = .ok (.block .top [.apply (.ref ⟨.inop2, "-"⟩) [.symbol "a", .symbol "b"]]) := rfl
  have hopen : compile ("x = 1." ++ "" ++ "\n'") = .error (.scan (.unterminated .single 7 2)) := rfl
  have hopen' : compile ("x = 1." ++ " " ++ "\n'") = .error (.scan (.unterminated .single 8 2)) := rfl
  constructor
  · rcases hsign with ⟨t,ht,ht'⟩ | ⟨e,_,he,_⟩
    · refine ⟨t,ht,ht',?_⟩
      rw [← ht, hcall, hminus]
      intro h
      cases h
    · rw [hcall] at he
      cases he
  · rcases hquote with ⟨t,ht,_⟩ | ⟨e,e',he,he',halike⟩
    · rw [hopen] at ht
      cases ht
    · refine ⟨e,e',he,he',halike,?_⟩
      rw [hopen] at he
      rw [hopen'] at he'
      cases he
      cases he'
      decide

end Gapscript
