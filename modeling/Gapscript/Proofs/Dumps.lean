import Gapscript.Proofs.Mentions
import Gapscript.Proofs.WellFormed

/-! # Dumps can be read back

A dump escapes nothing: the lines of a literal stand in it as they are and may look like any other lines. Even so a
compiled program is the only one with its dump. A word has no quote in it, so that it ends with the quote after it; a
literal ends where the scanner ended it; and the parts of a construct end with the first line that is indented less than
they are.
-/
namespace Gapscript

/-! ## Characters of words -/

namespace Scan

def isWord (c : Char) : Bool := isSymbol c || isOperator c

theorem ne_quote_of_isWord {c : Char} (hc : isWord c) : c ≠ '\'' := by
  rintro rfl
  cases hc

/-- If the token is a word, it has no characters but those of symbols and operators. -/
def Spelled (t : Token) : Prop := ∀ context, t.kind = .word context → ∀ c ∈ t.text.toList, isWord c

/-- A word that is being read has no other characters so far. -/
def Pending.Spelled : Pending → Prop
  | .symbol _ chars _ | .point _ chars | .operator _ chars _ => ∀ c ∈ chars, isWord c
  | .gap _ _ | .string _ _ _ _ => True

structure State.Spelling (s : State) : Prop where
  tokens : ∀ t ∈ s.tokens, Spelled t
  pending : s.pending.Spelled

namespace State.Spelling

variable {s s' : State} {c : Char} {start : Start} {chars : List Char} {p : Pending}

theorem initial : State.initial.Spelling := by
  refine ⟨?_,trivial⟩
  intro t ht context hcontext
  cases List.mem_singleton.mp ht
  cases hcontext

theorem emitWord (h : s.Spelling) {context : Context} (hchars : ∀ c ∈ chars, isWord c) (hp : p.Spelled) :
    (s.emit (.word context) start chars p).Spelling := by
  refine ⟨List.forall_mem_cons.mpr ⟨?_,h.tokens⟩,hp⟩
  intro _ _ c hc
  rw [String.toList_ofList, List.mem_reverse] at hc
  exact hchars c hc

theorem emit (h : s.Spelling) {kind : Token.Kind} (hkind : ∀ context, kind ≠ .word context) (hp : p.Spelled) :
    (s.emit kind start chars p).Spelling := by
  refine ⟨List.forall_mem_cons.mpr ⟨?_,h.tokens⟩,hp⟩
  intro context hcontext
  exact absurd hcontext (hkind context)

theorem advance (h : s.Spelling) (c : Char) : (s.advance c).Spelling := ⟨h.tokens,h.pending⟩

theorem settles {next : Option Char} (h : s.Spelling) (hs : Settles next s s') : s'.Spelling := by
  induction hs with
  | keep => exact h
  | symbol hp _ | operator hp _ =>
    have hchars := h.pending
    rw [hp] at hchars
    exact h.emitWord hchars trivial
  | release hp _ _ ih =>
    have hchars := h.pending
    rw [hp] at hchars
    exact ih (h.emitWord hchars (List.forall_mem_singleton.mpr rfl))

theorem grows (h : s.Spelling) (hs : Grows c s s') : s'.Spelling := by
  have hspelled := h.pending
  cases hs with
  | symbol hp hc =>
    rw [hp] at hspelled
    exact ⟨h.tokens,List.forall_mem_cons.mpr ⟨by rw [isWord, hc, Bool.true_or],hspelled⟩⟩
  | point hp _ =>
    rw [hp] at hspelled
    exact ⟨h.tokens,hspelled⟩
  | decimal hp hc =>
    rw [hp] at hspelled
    refine ⟨h.tokens,List.forall_mem_cons.mpr ⟨?_,List.forall_mem_cons.mpr ⟨rfl,hspelled⟩⟩⟩
    rw [isWord, isSymbol_of_isDigit hc, Bool.true_or]
  | operator hp hc =>
    rw [hp] at hspelled
    exact ⟨h.tokens,List.forall_mem_cons.mpr ⟨by rw [isWord, hc, Bool.or_true],hspelled⟩⟩
  | string => exact ⟨h.tokens,trivial⟩
  | close => exact (h.emit (by simp) (by trivial)).advance c

theorem begins {operand : Bool} {space : List Char} (h : s.Spelling) (hs : Begins c operand space s s') :
    s'.Spelling := by
  cases hs with
  | blank | string => exact ⟨h.tokens,trivial⟩
  | newline | opening | closing => exact (h.emit (by simp) (by trivial)).advance c
  | symbol hc => exact ⟨h.tokens,List.forall_mem_singleton.mpr (by rw [isWord, hc, Bool.true_or])⟩
  | operator hc => exact ⟨h.tokens,List.forall_mem_singleton.mpr (by rw [isWord, hc, Bool.or_true])⟩

theorem of_run {cs : List Char} (h : State.initial.run cs = .ok s) : s.Spelling :=
  @run_invariant (fun _ s => s.Spelling) settles grows (fun h _ hs => begins h hs) [] cs _ s initial h

end State.Spelling

theorem spelled_of_scan {text : String} {tokens : List Token} (h : Token.scan text = .ok tokens) :
    ∀ t ∈ tokens, Spelled t := by
  obtain ⟨s,s',_,_,hrun,hs',_,rfl⟩ := exists_settled_of_scan h
  intro t ht
  exact ((State.Spelling.of_run hrun).settles hs').tokens t (List.mem_reverse.mp ht)

end Scan

/-! ## Terms whose words and literals end -/

/-- The quote after the text is the first one. -/
def Ref.Legible (r : Ref) : Prop := '\'' ∉ r.text.toList

namespace Term

inductive Legible : Term → Prop where
  | block {kind : BlockKind} {stmts : List Term} (hstmts : ∀ t ∈ stmts, Legible t) : Legible (.block kind stmts)
  | assign {targets : List Ref} {value : Term} (htargets : ∀ r ∈ targets, r.Legible) (hvalue : Legible value) :
      Legible (.assign targets value)
  | apply {operator : Term} {args : List Term} (hoperator : Legible operator) (hargs : ∀ t ∈ args, Legible t) :
      Legible (.apply operator args)
  | ref {r : Ref} (hr : r.Legible) : Legible (.ref r)
  | str {quote : Quote} {inside : List Char} (h : Scan.Enclosed quote inside) :
      Legible (.str (String.ofList (quote.char :: inside ++ [quote.char])))

theorem mentions_subset_mentionsAll {t : Term} {ts : List Term} (h : t ∈ ts) : t.mentions ⊆ mentionsAll ts := by
  induction ts with
  | nil => cases h
  | cons u ts ih =>
    rw [mentionsAll]
    rcases List.mem_cons.mp h with rfl | h
    · exact List.subset_append_left _ _
    · exact List.Subset.trans (ih h) (List.subset_append_right _ _)

/-- Only the comma of a list is mentioned without being an operand or an operator. -/
theorem WellFormed.legible {t : Term} (h : t.WellFormed)
    (hrefs : ∀ r, .ref r ∈ t.mentions → (Mention.ref r).isOperand ∨ (Mention.ref r).isOperator → r.Legible) :
    t.Legible := by
  induction h with
  | block _ ih =>
    refine .block fun t ht => ih t ht fun r hr => hrefs r ?_
    rw [mentions]
    exact mentions_subset_mentionsAll ht hr
  | assign _ htargets _ ih =>
    simp only [mentions, List.mem_append] at hrefs
    refine .assign (fun r hr => ?_) (ih fun r hr => hrefs r (.inr hr))
    exact hrefs r (.inl (List.mem_map_of_mem hr)) (.inl (by simp [Mention.isOperand, htargets r hr]))
  | @operation op args hop _ ih =>
    simp only [mentions, List.mem_append] at hrefs
    refine .apply (.ref ?_) fun t ht => ih t ht fun r hr => hrefs r (.inr (mentions_subset_mentionsAll ht hr))
    by_cases hcomma : op.text = ","
    · rw [Ref.Legible, hcomma]
      decide
    · refine hrefs op (.inl (List.mem_singleton.mpr rfl)) (.inr ?_)
      unfold Ref.Takes at hop
      cases hcontext : op.context <;> simp_all [Mention.isOperator]
  | call _ _ ihoperator ihargs =>
    simp only [mentions, List.mem_append] at hrefs
    exact .apply (ihoperator fun r hr => hrefs r (.inl hr))
      fun t ht => ihargs t ht fun r hr => hrefs r (.inr (mentions_subset_mentionsAll ht hr))
  | @ref r hr => exact .ref (hrefs r (by simp [mentions]) (.inl (by simp [Mention.isOperand, hr])))
  | str h => exact .str h

end Term

/-- What is an operand or an operator is mentioned on both sides or on neither. -/
theorem Rearranged.mem {ms ns : List Mention} {m : Mention} (h : Rearranged ms ns)
    (hm : m.isOperand ∨ m.isOperator) (hmem : m ∈ ms) : m ∈ ns := by
  rcases hm with hm | hm
  · exact List.mem_of_mem_filter (h.operands ▸ List.mem_filter.mpr ⟨hmem,hm⟩)
  · exact List.mem_of_mem_filter (h.operators.mem_iff.mp (List.mem_filter.mpr ⟨hmem,hm⟩))

theorem legible_of_compile {source : String} {t : Term} (h : compile source = .ok t) : t.Legible := by
  obtain ⟨tokens,stmts,hscan,hdenotes,rfl⟩ := compile_eq_ok_iff.mp h
  have hwellFormed : ∀ t ∈ stmts, t.WellFormed := by
    refine hdenotes.wellFormed fun l hl => ?_
    obtain ⟨token,htoken,rfl⟩ := List.mem_map.mp hl
    exact (Scan.closed_of_scan hscan token htoken).terminated
  refine .block fun t ht => (hwellFormed t ht).legible fun r hr hclass => ?_
  have hmention := hdenotes.rearranged.mem hclass (Term.mentions_subset_mentionsAll ht hr)
  obtain ⟨l,hl,hword⟩ := List.mem_filterMap.mp hmention
  obtain ⟨token,htoken,rfl⟩ := List.mem_map.mp hl
  unfold Lexeme.mention? at hword
  split at hword
  · next context hkind =>
    cases hword
    exact fun hquote => Scan.ne_quote_of_isWord (Scan.spelled_of_scan hscan token htoken context hkind _ hquote) rfl
  · cases hword
  · cases hword

/-! ## Where the parts of a dump end -/

/-- What comes before the first `c` and what comes after it. -/
theorem append_cons_inj {c : Char} {cs ds x y : List Char} (hcs : c ∉ cs) (hds : c ∉ ds)
    (h : cs ++ c :: x = ds ++ c :: y) : cs = ds ∧ x = y := by
  induction cs generalizing ds with
  | nil =>
    cases ds with
    | nil => exact ⟨rfl,(List.cons.inj h).2⟩
    | cons d ds => exact absurd (List.cons.inj h).1 (List.ne_of_not_mem_cons hds)
  | cons d cs ih =>
    cases ds with
    | nil => exact absurd (List.cons.inj h).1.symm (List.ne_of_not_mem_cons hcs)
    | cons e ds =>
      obtain ⟨rfl,hrest⟩ := List.cons.inj h
      obtain ⟨rfl,rfl⟩ := ih (List.not_mem_of_not_mem_cons hcs) (List.not_mem_of_not_mem_cons hds) hrest
      exact ⟨rfl,rfl⟩

/-- A literal ends with the first quote that has no backslash in front of it. -/
theorem Scan.Enclosed.append_inj {quote : Quote} {cs ds x y : List Char} (hcs : Enclosed quote cs)
    (hds : Enclosed quote ds) (h : cs ++ quote.char :: x = ds ++ quote.char :: y) : cs = ds ∧ x = y := by
  induction hcs generalizing ds with
  | nil =>
    cases hds with
    | nil => exact ⟨rfl,(List.cons.inj h).2⟩
    | plain hquote => exact absurd (List.cons.inj h).1.symm hquote
    | pair => exact absurd (List.cons.inj h).1 (Quote.char_ne_backslash quote)
  | plain hquote hback _ ih =>
    cases hds with
    | nil => exact absurd (List.cons.inj h).1 hquote
    | plain _ _ hds =>
      obtain ⟨rfl,hrest⟩ := List.cons.inj h
      obtain ⟨rfl,rfl⟩ := ih hds hrest
      exact ⟨rfl,rfl⟩
    | pair => exact absurd (List.cons.inj h).1 hback
  | pair c _ ih =>
    cases hds with
    | nil => exact absurd (List.cons.inj h).1.symm (Quote.char_ne_backslash quote)
    | plain _ hback => exact absurd (List.cons.inj h).1.symm hback
    | pair d hds =>
      obtain ⟨rfl,hrest⟩ := List.cons.inj (List.cons.inj h).2
      obtain ⟨rfl,rfl⟩ := ih hds hrest
      exact ⟨rfl,rfl⟩

theorem Context.name_inj {a b : Context} {x y : List Char}
    (h : a.name.toList ++ (" '".toList ++ x) = b.name.toList ++ (" '".toList ++ y)) : a = b ∧ x = y := by
  have hname (c : Context) : ' ' ∉ c.name.toList := by cases c <;> decide
  simp only [String.reduceToList, List.cons_append, List.nil_append] at h
  obtain ⟨hnames,hrest⟩ := append_cons_inj (hname a) (hname b) h
  refine ⟨?_,(List.cons.inj hrest).2⟩
  revert hnames
  cases a <;> cases b <;> decide

theorem BlockKind.name_inj {a b : BlockKind} {x y : List Char}
    (h : a.name.toList ++ (" \x7b\n".toList ++ x) = b.name.toList ++ (" \x7b\n".toList ++ y)) : a = b ∧ x = y := by
  have hname (k : BlockKind) : ' ' ∉ k.name.toList := by
    rcases k with _ | ⟨_ | _ | _⟩ <;> decide
  simp only [String.reduceToList, List.cons_append, List.nil_append] at h
  obtain ⟨hnames,hrest⟩ := append_cons_inj (hname a) (hname b) h
  refine ⟨?_,(List.cons.inj (List.cons.inj hrest).2).2⟩
  revert hnames
  rcases a with _ | ⟨_ | _ | _⟩ <;> rcases b with _ | ⟨_ | _ | _⟩ <;> decide

theorem Ref.describe_inj {r s : Ref} {x y : List Char} (hr : r.Legible) (hs : s.Legible)
    (h : r.describe.toList ++ x = s.describe.toList ++ y) : r = s ∧ x = y := by
  obtain ⟨context, text⟩ := r
  obtain ⟨context', text'⟩ := s
  simp only [describe, String.toList_append, List.append_assoc] at h
  obtain ⟨rfl,hquoted⟩ := Context.name_inj h
  obtain ⟨htext,rfl⟩ := append_cons_inj hr hs hquoted
  cases String.toList_injective htext
  exact ⟨rfl,rfl⟩

theorem Quote.char_injective : Function.Injective Quote.char := by
  intro quote quote'
  cases quote <;> cases quote' <;> decide

/-- A line that is not indented by as much again. -/
theorem not_indented {m n : Nat} {x : List Char} (hx : ¬List.replicate n ' ' <+: x) :
    ¬List.replicate (m + n) ' ' <+: (indentation m).toList ++ x := by
  rwa [indentation, String.toList_ofList, List.replicate_add, List.prefix_append_right_inj]

theorem not_indented_closing {m n : Nat} {x : List Char} :
    ¬List.replicate (m + n + 1) ' ' <+: (indentation m).toList ++ ("\x7d\n".toList ++ x) :=
  not_indented (n := n + 1) (by simp [List.replicate_succ])

namespace Term

variable {n : Nat} {t u : Term} {ts us : List Term} {x y : List Char}

/-- The characters that show `t` at some place in a text show no other term there, and end at one place. -/
def Delimited (t : Term) : Prop :=
  ∀ {n : Nat} {u : Term} {x y : List Char}, u.Legible →
    (t.dumpAt n).toList ++ x = (u.dumpAt n).toList ++ y → t = u ∧ x = y

theorem indentation_prefix_dumpAt (n : Nat) (t : Term) : List.replicate n ' ' <+: (t.dumpAt n).toList := by
  cases t <;> simp [dumpAt, indentation]

/-- Terms one after another end with the first line that is indented less than they are. -/
theorem dumpAllAt_inj (hts : ∀ t ∈ ts, t.Delimited) (hus : ∀ u ∈ us, u.Legible)
    (hx : ¬List.replicate n ' ' <+: x) (hy : ¬List.replicate n ' ' <+: y)
    (h : (dumpAllAt n ts).toList ++ x = (dumpAllAt n us).toList ++ y) : ts = us ∧ x = y := by
  have hnext {t : Term} {ts : List Term} {x : List Char} :
      List.replicate n ' ' <+: (dumpAllAt n (t :: ts)).toList ++ x := by
    rw [dumpAllAt, String.toList_append, List.append_assoc]
    exact (indentation_prefix_dumpAt n t).trans (List.prefix_append _ _)
  induction ts generalizing us with
  | nil =>
    cases us with
    | nil => exact ⟨rfl,h⟩
    | cons u us =>
      have hend : x = (dumpAllAt n (u :: us)).toList ++ y := h
      exact absurd (hend ▸ hnext) hx
  | cons t ts ih =>
    cases us with
    | nil =>
      have hend : (dumpAllAt n (t :: ts)).toList ++ x = y := h
      exact absurd (hend ▸ hnext) hy
    | cons u us =>
      obtain ⟨ht,hts'⟩ := List.forall_mem_cons.mp hts
      obtain ⟨hu,hus'⟩ := List.forall_mem_cons.mp hus
      simp only [dumpAllAt, String.toList_append, List.append_assoc] at h
      obtain ⟨rfl,hrest⟩ := ht hu h
      obtain ⟨rfl,rfl⟩ := ih hts' hus' hrest
      exact ⟨rfl,rfl⟩

theorem dumpRefsAt_eq (n : Nat) (refs : List Ref) : dumpRefsAt n refs = dumpAllAt n (refs.map .ref) := by
  induction refs with
  | nil => rfl
  | cons r refs ih => rw [dumpRefsAt, List.map_cons, dumpAllAt, dumpAt, ih]

theorem delimited_ref {r : Ref} (hr : r.Legible) : (Term.ref r).Delimited := by
  intro n u x y hu h
  cases hu with
  | ref hs =>
    simp only [dumpAt, String.toList_append, List.append_assoc, List.append_cancel_left_eq] at h
    obtain ⟨rfl,hrest⟩ := Ref.describe_inj hr hs h
    exact ⟨rfl,List.append_cancel_left hrest⟩
  | block | assign | apply | str => exact absurd h (by simp [dumpAt])

theorem delimited_str {quote : Quote} {inside : List Char} (hinside : Scan.Enclosed quote inside) :
    (Term.str (String.ofList (quote.char :: inside ++ [quote.char]))).Delimited := by
  intro n u x y hu h
  cases hu with
  | str hinside' =>
    simp only [dumpAt, String.toList_append, String.toList_ofList, List.append_assoc, List.append_cancel_left_eq] at h
    obtain ⟨hquote,hrest⟩ := List.cons.inj h
    cases Quote.char_injective hquote
    obtain ⟨rfl,hend⟩ := hinside.append_inj hinside' hrest
    exact ⟨rfl,List.append_cancel_left hend⟩
  | block | assign | apply | ref => exact absurd h (by simp [dumpAt])

theorem delimited_block {kind : BlockKind} (hts : ∀ t ∈ ts, t.Delimited) : (block kind ts).Delimited := by
  intro n u x y hu h
  cases hu with
  | block hus =>
    simp only [dumpAt, String.toList_append, List.append_assoc, List.append_cancel_left_eq] at h
    obtain ⟨rfl,hbody⟩ := BlockKind.name_inj h
    obtain ⟨rfl,hend⟩ := dumpAllAt_inj hts hus not_indented_closing not_indented_closing hbody
    simp only [List.append_cancel_left_eq] at hend
    exact ⟨rfl,hend⟩
  | ref | assign | apply | str => exact absurd h (by simp [dumpAt])

theorem delimited_assign {refs : List Ref} (hrefs : ∀ r ∈ refs, r.Legible) (ht : t.Delimited) :
    (assign refs t).Delimited := by
  intro n u x y hu h
  cases hu with
  | assign hrefs' hu =>
    simp only [dumpAt, dumpRefsAt_eq, String.toList_append, List.append_assoc, List.append_cancel_left_eq] at h
    have hlabel {z : List Char} :
        ¬List.replicate (n + 4) ' ' <+: (indentation n).toList ++ ("  value:\n".toList ++ z) :=
      not_indented (by simp [List.replicate])
    have hdelimited : ∀ v ∈ refs.map Term.ref, v.Delimited :=
      List.forall_mem_map.mpr fun r hr => delimited_ref (hrefs r hr)
    obtain ⟨htargets,hvalue⟩ :=
      dumpAllAt_inj hdelimited (List.forall_mem_map.mpr fun r hr => .ref (hrefs' r hr)) hlabel hlabel h
    simp only [List.append_cancel_left_eq] at hvalue
    obtain ⟨rfl,hend⟩ := ht hu hvalue
    simp only [List.append_cancel_left_eq] at hend
    cases List.map_injective_iff.mpr (fun _ _ => Term.ref.inj) htargets
    exact ⟨rfl,hend⟩
  | ref | block | apply | str => exact absurd h (by simp [dumpAt])

theorem delimited_apply (ht : t.Delimited) (hts : ∀ t ∈ ts, t.Delimited) : (apply t ts).Delimited := by
  intro n u x y hu h
  cases hu with
  | apply hu hus =>
    simp only [dumpAt, String.toList_append, List.append_assoc, List.append_cancel_left_eq] at h
    obtain ⟨rfl,hargs⟩ := ht hu h
    simp only [List.append_cancel_left_eq] at hargs
    obtain ⟨rfl,hend⟩ := dumpAllAt_inj hts hus not_indented_closing not_indented_closing hargs
    simp only [List.append_cancel_left_eq] at hend
    exact ⟨rfl,hend⟩
  | ref | block | assign | str => exact absurd h (by simp [dumpAt])

theorem Legible.delimited (ht : t.Legible) : t.Delimited := by
  induction ht with
  | ref hr => exact delimited_ref hr
  | str h => exact delimited_str h
  | block _ ih => exact delimited_block ih
  | assign hrefs _ ih => exact delimited_assign hrefs ih
  | apply _ _ ih ihs => exact delimited_apply ih ihs

end Term

/-- Programs with one dump are one program. -/
theorem dump_injective {source source' : String} {t u : Term} (ht : compile source = .ok t)
    (hu : compile source' = .ok u) (h : t.dump = u.dump) : t = u := by
  have hchars : t.dump.toList ++ [] = u.dump.toList ++ [] := by rw [h]
  exact ((legible_of_compile ht).delimited (legible_of_compile hu) hchars).1

/-- The second line of the literal looks like a reference and its third like the end of the program. -/
def lookalike : Term := .block .top [.apply (.symbol "f") [.str "\"a\n    Ref symbol 'b'\n\x7d\""]]

theorem dump_injective_lookalike : ∃ t u,
    compile "f \"a\n    Ref symbol 'b'\n\x7d\"" = .ok t ∧ compile "f\t\"a\n    Ref symbol 'b'\n\x7d\" " = .ok u ∧
      t.dump = u.dump ∧ t = u := by
  have ht : compile "f \"a\n    Ref symbol 'b'\n\x7d\"" = .ok lookalike := rfl
  have hu : compile "f\t\"a\n    Ref symbol 'b'\n\x7d\" " = .ok lookalike := rfl
  exact ⟨lookalike,lookalike,ht,hu,rfl,dump_injective ht hu rfl⟩

end Gapscript
