import Gapscript.Proofs.Scanning

/-! # Tokens cover the text

The finished tokens, each with the blanks in front of it, are the characters read so far up to what is still being read,
and every token has the place at which its own characters stand. Only the blanks at the end of a text belong to no
token.
-/
namespace Gapscript.Scan

/-- The number of bytes that characters have in UTF-8. -/
def bytes (cs : List Char) : Nat := (String.ofList cs).utf8ByteSize

@[simp] theorem bytes_nil : bytes [] = 0 := rfl

@[simp] theorem bytes_append (cs ds : List Char) : bytes (cs ++ ds) = bytes cs + bytes ds := by
  simp [bytes, String.ofList_append]

theorem bytes_toList (text : String) : bytes text.toList = text.utf8ByteSize := by
  rw [bytes, String.ofList_toList]

theorem bytes_singleton (c : Char) : bytes [c] = c.utf8Size := by
  rw [bytes, ← String.singleton_eq_ofList, String.utf8ByteSize_singleton]

theorem bytes_pos {cs : List Char} (h : cs ≠ []) : 0 < bytes cs := by
  obtain ⟨c,cs,rfl⟩ := List.exists_cons_of_ne_nil h
  have hc := c.utf8Size_pos
  rw [← List.singleton_append, bytes_append, bytes_singleton]
  omega

/-- The line that characters lead to. Lines count from one. -/
def lineAfter (cs : List Char) : Nat := cs.count '\n' + 1

theorem lineAfter_append (cs ds : List Char) : lineAfter (cs ++ ds) = lineAfter cs + ds.count '\n' := by
  rw [lineAfter, lineAfter, List.count_append]
  omega

theorem lineAfter_concat {c : Char} (h : c ≠ '\n') (cs : List Char) : lineAfter (cs ++ [c]) = lineAfter cs := by
  rw [lineAfter_append, List.count_eq_zero.mpr (by simpa using h.symm), Nat.add_zero]

/-- Nothing but blanks. -/
def Blank (cs : List Char) : Prop := ∀ c ∈ cs, isBlank c

/-- Finished tokens, latest first, are spelled by the characters `cs`. -/
inductive Covers : (tokens : List Token) → (cs : List Char) → Prop where
  | initial : Covers [⟨.bol, 0, 1, "", ""⟩] []
  | newline {tokens : List Token} {cs space : List Char} (h : Covers tokens cs) (hspace : Blank space) :
      Covers (⟨.bol, bytes (cs ++ space), lineAfter (cs ++ space) + 1, String.ofList (space ++ ['\n']), ""⟩ :: tokens)
        (cs ++ space ++ ['\n'])
  | token {tokens : List Token} {cs space : List Char} (kind : Token.Kind) (text : List Char) (h : Covers tokens cs)
      (hspace : Blank space) (hkind : kind ≠ .bol) (htext : text ≠ []) :
      Covers (⟨kind, bytes (cs ++ space), lineAfter (cs ++ space), String.ofList space, String.ofList text⟩ :: tokens)
        (cs ++ space ++ text)

/-! ## The scanner keeps its place -/

/-- A token that begins after `cs` and some blanks. -/
structure Start.Follows (start : Start) (cs : List Char) : Prop where
  pos : start.pos = bytes (cs ++ start.space)
  line : start.line = lineAfter (cs ++ start.space)
  blank : Blank start.space

/-- What is being read has taken the text from `done`, where the finished tokens end, up to `cs`. -/
def Pending.Reaches (done cs : List Char) : Pending → Prop
  | .gap _ space => cs = done ++ space ∧ Blank space
  | .point start chars => start.Follows done ∧ chars ≠ [] ∧ cs = done ++ start.space ++ chars.reverse ++ ['.']
  | .symbol start chars _ | .operator start chars _ | .string _ start chars _ =>
    start.Follows done ∧ chars ≠ [] ∧ cs = done ++ start.space ++ chars.reverse

/-- The state of the scanner after the characters `cs`. -/
structure State.Holds (cs : List Char) (s : State) : Prop where
  pos : s.pos = bytes cs
  line : s.line = lineAfter cs
  covers : ∃ done, Covers s.tokens done ∧ s.pending.Reaches done cs

namespace State.Holds

variable {cs done : List Char} {s s' : State}

theorem initial : State.initial.Holds [] := ⟨rfl,rfl,[],.initial,rfl,nofun⟩

/-- A token that is being read may be finished where it stands. -/
theorem emit {done : List Char} {start : Start} {chars : List Char} {kind : Token.Kind} (operand : Bool)
    (h : s.Holds cs) (hdone : Covers s.tokens done) (hstart : start.Follows done) (hchars : chars ≠ [])
    (hcs : cs = done ++ start.space ++ chars.reverse) (hkind : kind ≠ .bol) :
    (s.emit kind start chars (.gap operand [])).Holds cs := by
  have htoken := hdone.token kind chars.reverse hstart.blank hkind (List.reverse_ne_nil_iff.mpr hchars)
  rw [← hstart.pos, ← hstart.line, ← hcs] at htoken
  exact ⟨h.pos,h.line,cs,htoken,(List.append_nil cs).symm,nofun⟩

theorem releasePoint {start : Start} {chars : List Char} (h : s.Holds cs) (hp : s.pending = .point start chars) :
    (s.releasePoint start chars).Holds cs := by
  obtain ⟨done,hdone,hreaches⟩ := h.covers
  rw [hp] at hreaches
  obtain ⟨hstart,hchars,hcs⟩ := hreaches
  have htoken := hdone.token (.word .symbol) chars.reverse hstart.blank nofun (List.reverse_ne_nil_iff.mpr hchars)
  rw [← hstart.pos, ← hstart.line] at htoken
  have hpos : s.pos = bytes (done ++ start.space ++ chars.reverse) + 1 := by
    rw [h.pos, hcs, bytes_append _ ['.'], bytes_singleton]
    rfl
  have hline : s.line = lineAfter (done ++ start.space ++ chars.reverse) := by
    rw [h.line, hcs, lineAfter_concat (by decide)]
  refine ⟨h.pos,h.line,_,htoken,⟨?_,?_,nofun⟩,by simp,by simpa using hcs⟩
  · rw [List.append_nil]
    change s.pos - 1 = _
    omega
  · rw [List.append_nil]
    exact hline

theorem settles {next : Option Char} (h : s.Holds cs) (hs : Settles next s s') : s'.Holds cs := by
  induction hs with
  | keep => exact h
  | symbol hp _ | operator hp _ =>
    obtain ⟨done,hdone,hreaches⟩ := h.covers
    rw [hp] at hreaches
    obtain ⟨hstart,hchars,hcs⟩ := hreaches
    exact h.emit _ hdone hstart hchars hcs nofun
  | release hp _ _ ih => exact ih (h.releasePoint hp)

/-- Move over a character that has been taken care of. -/
theorem advance {done : List Char} {c : Char} {tokens : List Token} {p : Pending} (h : s.Holds cs)
    (hdone : Covers tokens done) (hp : p.Reaches done (cs ++ [c])) :
    (({ s with tokens, pending := p } : State).advance c).Holds (cs ++ [c]) := by
  refine ⟨?_,?_,done,hdone,hp⟩
  · change s.pos + c.utf8Size = _
    rw [bytes_append, bytes_singleton, h.pos]
  · change (if c = '\n' then s.line + 1 else s.line) = _
    rw [lineAfter_append, h.line]
    split
    · next hc => rw [hc]; rfl
    · next hc => rw [List.count_eq_zero.mpr (by simpa using Ne.symm hc), Nat.add_zero]

theorem grows {c : Char} (h : s.Holds cs) (hs : Grows c s s') : s'.Holds (cs ++ [c]) := by
  obtain ⟨done,hdone,hreaches⟩ := h.covers
  cases hs with
  | symbol hp _ | operator hp _ | string hp _ =>
    rw [hp] at hreaches
    obtain ⟨hstart,hchars,hcs⟩ := hreaches
    exact h.advance hdone ⟨hstart,by simp,by simp [hcs]⟩
  | point hp hc =>
    rw [hp] at hreaches
    obtain ⟨hstart,hchars,hcs⟩ := hreaches
    exact h.advance hdone ⟨hstart,hchars,by rw [hcs, hc]⟩
  | decimal hp _ =>
    rw [hp] at hreaches
    obtain ⟨hstart,hchars,hcs⟩ := hreaches
    exact h.advance hdone ⟨hstart,by simp,by simp [hcs]⟩
  | @close quote start chars hp hc =>
    rw [hp] at hreaches
    obtain ⟨hstart,hchars,hcs⟩ := hreaches
    have htoken := hdone.token (.string quote) (chars.reverse ++ [c]) hstart.blank nofun (by simp)
    rw [← hstart.pos, ← hstart.line, ← List.append_assoc, ← hcs, ← List.reverse_cons] at htoken
    exact h.advance htoken ⟨(List.append_nil _).symm,nofun⟩

theorem begins {c : Char} {operand : Bool} {space : List Char} (h : s.Holds cs) (hp : s.pending = .gap operand space)
    (hs : Begins c operand space s s') : s'.Holds (cs ++ [c]) := by
  obtain ⟨done,hdone,hreaches⟩ := h.covers
  rw [hp] at hreaches
  obtain ⟨hcs,hspace⟩ := hreaches
  have hstart : Start.Follows ⟨s.pos, s.line, space⟩ done := ⟨by rw [h.pos, hcs],by rw [h.line, hcs],hspace⟩
  have htoken {kind : Token.Kind} (hkind : kind ≠ .bol) :
      Covers (⟨kind, s.pos, s.line, String.ofList space, String.ofList [c].reverse⟩ :: s.tokens) (cs ++ [c]) := by
    have := hdone.token kind [c] hspace hkind (by simp)
    rwa [← hcs, ← h.pos, ← h.line] at this
  cases hs with
  | blank hc =>
    refine h.advance hdone ⟨by rw [hcs, List.append_assoc],?_⟩
    exact fun d hd => (List.mem_append.mp hd).elim (hspace d) fun hd => List.mem_singleton.mp hd ▸ hc
  | newline hc =>
    subst hc
    have hnewline := hdone.newline hspace
    rw [← hcs, ← h.pos, ← h.line] at hnewline
    exact h.advance hnewline ⟨(List.append_nil _).symm,nofun⟩
  | opening _ => exact h.advance (htoken nofun) ⟨(List.append_nil _).symm,nofun⟩
  | closing _ => exact h.advance (htoken nofun) ⟨(List.append_nil _).symm,nofun⟩
  | symbol _ | string _ | operator _ => exact h.advance hdone ⟨hstart,by simp,by rw [hcs]; rfl⟩

/-- Every run keeps its place. -/
theorem of_run (h : State.initial.run cs = .ok s) : s.Holds cs :=
  run_invariant (I := State.Holds) settles grows begins initial h

end State.Holds

/-! ## From the scanner to the whole text -/

/-- The finished tokens of a text end where its last blanks begin. -/
theorem covers_of_scan {text : String} {tokens : List Token} (h : Token.scan text = .ok tokens) :
    ∃ done space, Covers tokens.reverse done ∧ Blank space ∧ text.toList = done ++ space := by
  obtain ⟨s,s',operand,space,hrun,hs',hgap,rfl⟩ := exists_settled_of_scan h
  obtain ⟨done,hdone,hreaches⟩ := ((State.Holds.of_run hrun).settles hs').covers
  rw [hgap] at hreaches
  obtain ⟨htext,hblank⟩ := hreaches
  exact ⟨done,space,by rwa [List.reverse_reverse],hblank,htext⟩

end Gapscript.Scan

namespace Gapscript

/-- The characters that a token stands for, those skipped in front of it included. -/
def Token.source (t : Token) : String := t.space ++ t.text

namespace Scan

theorem Covers.join {tokens : List Token} {cs : List Char} (h : Covers tokens cs) :
    String.join (tokens.reverse.map Token.source) = String.ofList cs := by
  induction h with
  | initial => rfl
  | newline _ _ ih | token _ _ _ _ _ _ ih =>
    simp only [List.reverse_cons, List.map_append, String.join_append, ih]
    simp [Token.source, String.ofList_append]

/-- A token was added to those before it. The one at the very beginning was not. -/
theorem Covers.inversion {after before : List Token} {t : Token} {cs : List Char} (h : Covers (after ++ t :: before) cs)
    (hbefore : before ≠ []) :
    ∃ done space, Covers before done ∧ Blank space ∧
      (t = ⟨.bol, bytes (done ++ space), lineAfter (done ++ space) + 1, String.ofList (space ++ ['\n']), ""⟩ ∨
        ∃ kind text, kind ≠ .bol ∧ text ≠ [] ∧
          t = ⟨kind, bytes (done ++ space), lineAfter (done ++ space), String.ofList space, String.ofList text⟩) := by
  generalize htokens : after ++ t :: before = tokens at h
  induction h generalizing after with
  | initial =>
    cases after with
    | nil => exact absurd (List.cons.inj htokens).2 hbefore
    | cons u after => simp at htokens
  | newline h hspace ih =>
    cases after with
    | nil =>
      cases htokens
      exact ⟨_,_,h,hspace,.inl rfl⟩
    | cons u after => exact ih (List.cons.inj htokens).2
  | token kind text h hspace hkind htext ih =>
    cases after with
    | nil =>
      cases htokens
      exact ⟨_,_,h,hspace,.inr ⟨kind,text,hkind,htext,rfl⟩⟩
    | cons u after => exact ih (List.cons.inj htokens).2

/-- The tokens after the first have increasing positions, and all lie before the end of what is covered. -/
theorem Covers.increasing {tokens : List Token} {cs : List Char} (h : Covers tokens cs) :
    ∃ rest, tokens.reverse = ⟨.bol, 0, 1, "", ""⟩ :: rest ∧ rest.Pairwise (·.pos < ·.pos) ∧
      ∀ t ∈ rest, t.pos < bytes cs := by
  have hconcat {rest : List Token} {t : Token} {m n : Nat} (hpair : rest.Pairwise (·.pos < ·.pos))
      (hlt : ∀ u ∈ rest, u.pos < m) (hm : m ≤ t.pos) (hn : t.pos < n) :
      (rest ++ [t]).Pairwise (·.pos < ·.pos) ∧ ∀ u ∈ rest ++ [t], u.pos < n := by
    constructor
    · refine List.pairwise_append.mpr ⟨hpair,List.pairwise_singleton _ t,?_⟩
      intro u hu v hv
      have := hlt u hu
      rw [List.mem_singleton.mp hv]
      omega
    · intro u hu
      rcases List.mem_append.mp hu with hu | hu
      · have := hlt u hu
        omega
      · rwa [List.mem_singleton.mp hu]
  induction h with
  | initial => exact ⟨[],rfl,.nil,nofun⟩
  | newline _ _ ih =>
    obtain ⟨rest,hrest,hpair,hlt⟩ := ih
    have hend : 0 < bytes ['\n'] := bytes_pos (by simp)
    refine ⟨_,by rw [List.reverse_cons, hrest, List.cons_append],hconcat hpair hlt ?_ ?_⟩
    · simp
    · simp [hend]
  | token kind text _ _ _ htext ih =>
    obtain ⟨rest,hrest,hpair,hlt⟩ := ih
    have hend : 0 < bytes text := bytes_pos htext
    refine ⟨_,by rw [List.reverse_cons, hrest, List.cons_append],hconcat hpair hlt ?_ ?_⟩
    · simp
    · simp [hend]

/-- The token stands in `text` after `front` and some blanks. A line start stands for the newline there and any other
token for its own text; its position is the number of bytes before that. -/
def StandsAfter (text front : String) (t : Token) : Prop :=
  ∃ blanks back, Blank blanks.toList ∧ t.pos = (front ++ blanks).utf8ByteSize ∧
    (t.kind = .bol → t.space = blanks ++ "\n" ∧ t.text = "" ∧ text = front ++ blanks ++ "\n" ++ back) ∧
    (t.kind ≠ .bol → t.space = blanks ∧ t.text ≠ "" ∧ text = front ++ blanks ++ t.text ++ back)

/-- Tokens that cover the front of a text stand where they say. -/
theorem Covers.standsAfter {after before : List Token} {t : Token} {cs : List Char}
    (h : Covers (after ++ t :: before) cs) (hbefore : before ≠ []) (trailing : String) :
    StandsAfter (String.ofList cs ++ trailing) (String.join (before.reverse.map Token.source)) t := by
  obtain ⟨done,space,hdone,hspace,ht⟩ := h.inversion hbefore
  obtain ⟨back,hback⟩ : ∃ back, String.ofList cs ++ trailing = String.ofList done ++ t.source ++ back := by
    refine ⟨String.join (after.reverse.map Token.source) ++ trailing,?_⟩
    rw [← h.join, ← hdone.join]
    simp [String.append_assoc]
  rw [hdone.join]
  refine ⟨String.ofList space,back,by rwa [String.toList_ofList],?_,?_,?_⟩
  · rcases ht with rfl | ⟨kind,text,_,_,rfl⟩ <;> rw [← String.ofList_append] <;> rfl
  · intro hbol
    rcases ht with rfl | ⟨kind,text,hkind,_,rfl⟩
    · exact ⟨String.ofList_append,rfl,by simpa [Token.source, String.ofList_append, String.append_assoc] using hback⟩
    · exact absurd hbol hkind
  · intro hbol
    rcases ht with rfl | ⟨kind,text,_,htext,rfl⟩
    · exact absurd rfl hbol
    · refine ⟨rfl,?_,by simpa [Token.source, String.append_assoc] using hback⟩
      simpa [String.ofList_eq_empty_iff] using htext

end Scan

/-- Reading a text as tokens loses nothing: the tokens with what was skipped in front of them, and the blanks at the
end, are the text. The first token is a line start at the very beginning, and every other one stands where its position
says, each further on than the one before. -/
theorem scan_lossless {text : String} {tokens : List Token} (h : Token.scan text = .ok tokens) :
    (∃ trailing, Scan.Blank trailing.toList ∧ text = String.join (tokens.map Token.source) ++ trailing) ∧
    (∃ rest, tokens = ⟨.bol, 0, 1, "", ""⟩ :: rest ∧ rest.Pairwise (·.pos < ·.pos)) ∧
    ∀ before t after, tokens = before ++ t :: after → before ≠ [] →
      Scan.StandsAfter text (String.join (before.map Token.source)) t := by
  obtain ⟨done,space,hcovers,hspace,htext⟩ := Scan.covers_of_scan h
  have hsource : text = String.ofList done ++ String.ofList space := by
    rw [← String.ofList_append, ← htext, String.ofList_toList]
  refine ⟨⟨String.ofList space,by rwa [String.toList_ofList],?_⟩,?_,?_⟩
  · rw [hsource, ← hcovers.join, List.reverse_reverse]
  · obtain ⟨rest,hrest,hpair,_⟩ := hcovers.increasing
    exact ⟨rest,by rw [← hrest, List.reverse_reverse],hpair⟩
  · rintro before t after rfl hbefore
    have hsplit : Scan.Covers (after.reverse ++ t :: before.reverse) done := by simpa using hcovers
    rw [hsource]
    simpa using hsplit.standsAfter (List.reverse_ne_nil_iff.mpr hbefore) (String.ofList space)

/-- Tokens of a text in which a point is once an operator, once part of a number and once after one, and in which a
string has more bytes than characters. -/
def pointTokens : List Token :=
  [⟨.bol, 0, 1, "", ""⟩, ⟨.word .symbol, 0, 1, "", "f"⟩, ⟨.word .inop2, 1, 1, "", "."⟩, ⟨.word .symbol, 2, 1, "", "g"⟩,
    ⟨.string .single, 4, 1, " ", "'é\\''"⟩, ⟨.word .inop0, 11, 1, " ", "="⟩, ⟨.word .symbol, 13, 1, " ", "1.5"⟩,
    ⟨.word .postop, 16, 1, "", "."⟩, ⟨.bol, 18, 2, " \n", ""⟩, ⟨.word .preop, 20, 2, "\t", "-"⟩,
    ⟨.word .symbol, 21, 2, "", "x"⟩]

theorem scan_lossless_points :
    Token.scan "f.g 'é\\'' = 1.5. \n\t-x \t" = .ok pointTokens ∧
      (∃ trailing, Scan.Blank trailing.toList ∧
        "f.g 'é\\'' = 1.5. \n\t-x \t" = String.join (pointTokens.map Token.source) ++ trailing) ∧
      pointTokens.tail.Pairwise (·.pos < ·.pos) ∧
      Scan.StandsAfter "f.g 'é\\'' = 1.5. \n\t-x \t" "f.g 'é\\'' = 1.5." ⟨.bol, 18, 2, " \n", ""⟩ := by
  have hscan : Token.scan "f.g 'é\\'' = 1.5. \n\t-x \t" = .ok pointTokens := rfl
  obtain ⟨hjoin,⟨rest,hrest,hpair⟩,hstands⟩ := scan_lossless hscan
  refine ⟨hscan,hjoin,by rwa [hrest],?_⟩
  exact hstands (pointTokens.take 8) ⟨.bol, 18, 2, " \n", ""⟩ (pointTokens.drop 9) rfl nofun

end Gapscript
