import Gapscript.Proofs.Coverage

/-! # Where a text cannot be read

A text fails at the first character outside strings that no token begins with, or at the quote of a string that nothing
closes. Up to there it can be read, and a text in which neither happens can be read as a whole.
-/
namespace Gapscript.Scan

/-! ## Characters -/

/-- White space of a line, newlines, brackets, quotes, letters, digits, the underscore and the characters of
operators. -/
def Known (c : Char) : Prop :=
  c ∈ [' ', '\t', '\r', '\n', '{', '}', '[', ']', '(', ')', '"', '\'', '_'] ∨ c.isAlphanum ∨ isOperator c

theorem isBlank_iff {c : Char} : isBlank c ↔ c ∈ [' ', '\t', '\r'] := by
  simp [isBlank, or_assoc]

theorem isSymbol_iff {c : Char} : isSymbol c ↔ c.isAlphanum ∨ c = '_' := by
  delta Char.isAlphanum Char.isAlpha Char.isUpper Char.isLower
  simp only [isSymbol, isDigit, Char.isDigit, Char.le_def, Char.reduceVal, Bool.or_eq_true, Bool.and_eq_true,
    decide_eq_true_eq, beq_iff_eq, ge_iff_le, Bool.decide_and]
  grind

theorem opening?_eq_none {c : Char} : opening? c = none ↔ c ∉ ['{', '[', '('] := by
  unfold opening?
  split <;> simp_all

theorem closing?_eq_none {c : Char} : closing? c = none ↔ c ∉ ['}', ']', ')'] := by
  unfold closing?
  split <;> simp_all

theorem quote?_eq_none {c : Char} : quote? c = none ↔ c ∉ ['"', '\''] := by
  unfold quote?
  split <;> simp_all

theorem quote?_eq_some {c : Char} {quote : Quote} : quote? c = some quote ↔ c = quote.char := by
  unfold quote?
  split <;> cases quote <;> simp_all [Quote.char]

theorem unknown_iff {c : Char} : Unknown c ↔ ¬Known c := by
  have hunknown : Unknown c ↔ ¬isBlank c ∧ c ≠ '\n' ∧ opening? c = none ∧ closing? c = none ∧ ¬isSymbol c ∧
      quote? c = none ∧ ¬isOperator c := by
    constructor
    · rintro ⟨hblank,hnewline,hopening,hclosing,hsymbol,hquote,hoperator⟩
      simp [*]
    · rintro ⟨hblank,hnewline,hopening,hclosing,hsymbol,hquote,hoperator⟩
      exact ⟨by simpa using hblank,hnewline,hopening,hclosing,by simpa using hsymbol,hquote,by simpa using hoperator⟩
  rw [hunknown, isBlank_iff, opening?_eq_none, closing?_eq_none, isSymbol_iff, quote?_eq_none, Known]
  simp only [List.mem_cons, List.not_mem_nil, or_false]
  grind

/-! ## Strings -/

/-- Characters other than the backslash, and backslashes with one character after each. -/
inductive Escapes : List Char → Prop where
  | nil : Escapes []
  | plain {c : Char} {cs : List Char} (hc : c ≠ '\\') (h : Escapes cs) : Escapes (c :: cs)
  | pair (c : Char) {cs : List Char} (h : Escapes cs) : Escapes ('\\' :: c :: cs)

/-- Wherever the quote stands in `cs`, a backslash escapes it. -/
def Unclosed (quote : Quote) (cs : List Char) : Prop :=
  ∀ inside after, cs = inside ++ quote.char :: after → ¬Escapes inside

theorem Quote.char_ne_backslash (quote : Quote) : quote.char ≠ '\\' := by
  cases quote <;> decide

theorem Unclosed.nil (quote : Quote) : Unclosed quote [] := by
  intro inside after h
  simp at h

theorem Unclosed.backslash (quote : Quote) : Unclosed quote ['\\'] := by
  intro inside after h hinside
  cases inside with
  | nil => exact Quote.char_ne_backslash quote (List.cons.inj h).1.symm
  | cons c inside => simp at h

theorem Unclosed.plain {quote : Quote} {c : Char} {cs : List Char} (hc : c ≠ quote.char) (hback : c ≠ '\\')
    (h : Unclosed quote cs) : Unclosed quote (c :: cs) := by
  intro inside after hcs hinside
  cases hinside with
  | nil => exact hc (List.cons.inj hcs).1
  | plain _ hinside => exact h _ after (List.cons.inj hcs).2 hinside
  | pair d _ => exact hback (List.cons.inj hcs).1

theorem Unclosed.pair {quote : Quote} (c : Char) {cs : List Char} (h : Unclosed quote cs) :
    Unclosed quote ('\\' :: c :: cs) := by
  intro inside after hcs hinside
  cases hinside with
  | nil => exact Quote.char_ne_backslash quote (List.cons.inj hcs).1.symm
  | plain hback _ => exact hback (List.cons.inj hcs).1.symm
  | pair d hinside => exact h _ after (List.cons.inj (List.cons.inj hcs).2).2 hinside

theorem step_string {s : State} {quote : Quote} {start : Start} {chars : List Char} {escaped : Bool}
    (h : s.pending = .string quote start chars escaped) {c : Char} (hc : escaped ∨ c ≠ quote.char) :
    ∃ s', s.step c = .ok s' ∧ s'.tokens = s.tokens ∧
      s'.pending = .string quote start (c :: chars) (!escaped && c == '\\') := by
  have hstays : ¬(¬escaped ∧ c = quote.char) := by
    rintro ⟨hescaped,hquote⟩
    exact hc.elim hescaped fun hne => hne hquote
  simp only [State.step, h, if_neg hstays]
  exact ⟨_,rfl,rfl,rfl⟩

theorem step_close {s : State} {quote : Quote} {start : Start} {chars : List Char}
    (h : s.pending = .string quote start chars false) :
    ∃ s', s.step quote.char = .ok s' ∧ s'.pending = .gap true [] := by
  simp only [State.step, h, Bool.false_eq_true, not_false_eq_true, and_self, if_true]
  exact ⟨_,rfl,rfl⟩

theorem State.not_inString {s : State} {p : Pending} (h : s.pending = p)
    (hp : ∀ quote start chars escaped, p ≠ .string quote start chars escaped) : ¬s.InString := by
  rintro ⟨quote,start,chars,escaped,hstring⟩
  exact hp quote start chars escaped (h.symm.trans hstring)

/-- From inside a string the text either leads on without end or reaches the quote that ends it. -/
theorem run_string {s : State} {quote : Quote} {start : Start} {chars : List Char}
    (h : s.pending = .string quote start chars false) (cs : List Char) :
    (Unclosed quote cs ∧ ∃ s' chars' escaped, s.run cs = .ok s' ∧ s'.pending = .string quote start chars' escaped) ∨
      ∃ inside after s', cs = inside ++ quote.char :: after ∧ Escapes inside ∧
        s.run (inside ++ [quote.char]) = .ok s' ∧ ¬s'.InString := by
  match cs with
  | [] => exact .inl ⟨.nil quote,s,chars,false,rfl,h⟩
  | c :: cs =>
    by_cases hquote : c = quote.char
    · obtain ⟨s',hstep,hgap⟩ := step_close h
      exact .inr ⟨[],cs,s',by rw [hquote]; rfl,.nil,by simp [State.run, hstep],State.not_inString hgap nofun⟩
    obtain ⟨s₁,hstep₁,_,hs₁⟩ := step_string h (.inr hquote)
    by_cases hback : c = '\\'
    · -- The backslash takes the next character with it, whatever it is.
      subst hback
      match cs with
      | [] => exact .inl ⟨.backslash quote,s₁,_,_,by simp [State.run, hstep₁],hs₁⟩
      | d :: cs =>
        obtain ⟨s₂,hstep₂,_,hs₂⟩ := step_string (c := d) hs₁ (.inl rfl)
        have hrun (ds : List Char) : s.run ('\\' :: d :: ds) = s₂.run ds := by simp [State.run, hstep₁, hstep₂]
        rcases run_string hs₂ cs with ⟨hopen,s',chars',escaped,hrun',hs'⟩ | ⟨inside,after,s',rfl,hinside,hrun',hs'⟩
        · exact .inl ⟨hopen.pair d,s',chars',escaped,(hrun cs).trans hrun',hs'⟩
        · exact .inr ⟨'\\' :: d :: inside,after,s',rfl,.pair d hinside,(hrun _).trans hrun',hs'⟩
    · have hplain : s₁.pending = .string quote start (c :: chars) false := by
        rwa [beq_false_of_ne hback, Bool.and_false] at hs₁
      have hrun (ds : List Char) : s.run (c :: ds) = s₁.run ds := by simp [State.run, hstep₁]
      rcases run_string hplain cs with ⟨hopen,s',chars',escaped,hrun',hs'⟩ | ⟨inside,after,s',rfl,hinside,hrun',hs'⟩
      · exact .inl ⟨hopen.plain hquote hback,s',chars',escaped,(hrun cs).trans hrun',hs'⟩
      · exact .inr ⟨c :: inside,after,s',rfl,.plain hback hinside,(hrun _).trans hrun',hs'⟩
termination_by cs.length

/-! ## Outside strings -/

/-- A character that some token begins with, or that separates tokens, other than a quote. -/
structure Plain (c : Char) : Prop where
  known : ¬Unknown c
  quote : quote? c = none

namespace Plain

variable {c : Char}

theorem of {p : Char → Bool} (hp : ∀ quote : Quote, p quote.char = false) (hunknown : Unknown c → p c = false)
    (hc : p c) : Plain c := by
  refine ⟨fun h => Bool.false_ne_true ((hunknown h).symm.trans hc),?_⟩
  cases hquote : quote? c with
  | none => rfl
  | some quote =>
    rw [quote?_eq_some.mp hquote, hp quote] at hc
    cases hc

theorem blank (hc : isBlank c) : Plain c := of (by rintro ⟨⟩ <;> rfl) Unknown.blank hc

theorem newline (hc : c = '\n') : Plain c := ⟨fun h => h.newline hc,by rw [hc]; rfl⟩

theorem opening {b : Bracket} (hc : opening? c = some b) : Plain c :=
  of (p := fun c => (opening? c).isSome) (by rintro ⟨⟩ <;> rfl) (fun h => by rw [h.opening]; rfl) (by rw [hc]; rfl)

theorem closing {b : Bracket} (hc : closing? c = some b) : Plain c :=
  of (p := fun c => (closing? c).isSome) (by rintro ⟨⟩ <;> rfl) (fun h => by rw [h.closing]; rfl) (by rw [hc]; rfl)

theorem symbol (hc : isSymbol c) : Plain c := of (by rintro ⟨⟩ <;> rfl) Unknown.symbol hc

theorem digit (hc : isDigit c) : Plain c := symbol (by simp [isSymbol, hc])

theorem operator (hc : isOperator c) : Plain c := of (by rintro ⟨⟩ <;> rfl) Unknown.operator hc

end Plain

variable {s s' : State} {c : Char}

theorem Settles.outside {next : Option Char} (h : Settles next s s') (hs : ¬s.InString) : ¬s'.InString := by
  induction h with
  | keep => exact hs
  | symbol | operator => exact State.not_inString rfl nofun
  | release _ _ _ ih => exact ih (State.not_inString rfl nofun)

theorem Grows.outside (h : Grows c s s') (hs : ¬s.InString) : Plain c ∧ ¬s'.InString := by
  cases h with
  | symbol _ hc => exact ⟨.symbol hc,State.not_inString rfl nofun⟩
  | point _ hc => exact ⟨.operator (by rw [hc]; rfl),State.not_inString rfl nofun⟩
  | decimal _ hc => exact ⟨.digit hc,State.not_inString rfl nofun⟩
  | operator _ hc => exact ⟨.operator hc,State.not_inString rfl nofun⟩
  | string hp _ | close hp _ => exact absurd ⟨_,_,_,_,hp⟩ hs

theorem Begins.outside {operand : Bool} {space : List Char} (h : Begins c operand space s s') :
    (∃ quote, c = Quote.char quote ∧ s'.pending = .string quote ⟨s.pos, s.line, space⟩ [c] false) ∨
      Plain c ∧ ¬s'.InString := by
  cases h with
  | blank hc => exact .inr ⟨.blank hc,State.not_inString rfl nofun⟩
  | newline hc => exact .inr ⟨.newline hc,State.not_inString rfl nofun⟩
  | opening hc => exact .inr ⟨.opening hc,State.not_inString rfl nofun⟩
  | closing hc => exact .inr ⟨.closing hc,State.not_inString rfl nofun⟩
  | symbol hc => exact .inr ⟨.symbol hc,State.not_inString rfl nofun⟩
  | operator hc => exact .inr ⟨.operator hc,State.not_inString rfl nofun⟩
  | @string quote hc => exact .inl ⟨quote,quote?_eq_some.mp hc,rfl⟩

/-- What `c` does outside strings where `cs` stands before it. -/
inductive StepOutside (cs : List Char) (c : Char) (s : State) : Prop where
  | unknown (hc : Unknown c) (h : s.step c = .error (.unknownChar c (bytes cs) (lineAfter cs)))
  | quote {s' : State} {quote : Quote} {space : List Char} (hc : c = quote.char) (h : s.step c = .ok s')
      (hs' : s'.pending = .string quote ⟨bytes cs, lineAfter cs, space⟩ [c] false)
  | plain {s' : State} (hc : Plain c) (h : s.step c = .ok s') (hs' : ¬s'.InString)

theorem step_outside {cs : List Char} (hs : s.Holds cs) (hout : ¬s.InString) (c : Char) : StepOutside cs c s := by
  rcases step_cases s c with ⟨s₁,operand,space,hs₁,hgap,hstep⟩ | ⟨s₁,s₂,hs₁,hgrows,hstep⟩
  · have hholds := hs.settles hs₁
    rcases start_cases s₁ operand space c with ⟨s₂,hstart,hbegins⟩ | ⟨hunknown,hstart⟩
    · rcases hbegins.outside with ⟨quote,hquote,hs₂⟩ | ⟨hplain,hs₂⟩
      · rw [hholds.pos, hholds.line] at hs₂
        exact .quote hquote (hstep.trans hstart) hs₂
      · exact .plain hplain (hstep.trans hstart) hs₂
    · rw [hholds.pos, hholds.line] at hstart
      exact .unknown hunknown (hstep.trans hstart)
  · obtain ⟨hplain,hs₂⟩ := hgrows.outside (hs₁.outside hout)
    exact .plain hplain hstep hs₂

/-! ## Places where reading stops -/

/-- The scanner gets through `cs` and is not inside a string then. -/
def Readable (cs : List Char) : Prop := ∃ s, State.initial.run cs = .ok s ∧ ¬s.InString

theorem readable_nil : Readable [] := ⟨State.initial,rfl,State.not_inString rfl nofun⟩

theorem readable_iff {text : String} : Readable text.toList ↔ ∃ tokens, Token.scan text = .ok tokens := by
  unfold Readable Token.scan
  cases hrun : State.initial.run text.toList with
  | error e => simp
  | ok s =>
    rcases finish_cases s with ⟨s₁,operand,space,hs₁,hgap,hfinish⟩ | ⟨quote,start,chars,escaped,hstring,hfinish⟩
    · have hout : ¬s.InString := by
        rintro ⟨quote,start,chars,escaped,hstring⟩
        simp [State.finish, hstring] at hfinish
      simp [hout, hfinish]
    · have hin : s.InString := ⟨quote,start,chars,escaped,hstring⟩
      simp [hin, hfinish]

/-- After `front` reading cannot go on with `back`, which is reported as the error. -/
inductive Stuck (front : List Char) : (back : List Char) → ScanError → Prop where
  | unknown {c : Char} {rest : List Char} (hc : ¬Known c) :
      Stuck front (c :: rest) (.unknownChar c (bytes front) (lineAfter front))
  | unclosed {quote : Quote} {rest : List Char} (h : Unclosed quote rest) :
      Stuck front (quote.char :: rest) (.unterminated quote (bytes front) (lineAfter front))

namespace Readable

variable {cs : List Char} {text : String}

theorem unknownChar (hcs : Readable cs) (hc : Unknown c) {rest : List Char} (htext : text.toList = cs ++ c :: rest) :
    Token.scan text = .error (.unknownChar c (bytes cs) (lineAfter cs)) := by
  obtain ⟨s,hrun,hs⟩ := hcs
  rw [Token.scan, htext, run_after hrun, State.run]
  cases step_outside (.of_run hrun) hs c with
  | unknown _ hstep => rw [hstep]
  | quote hquote _ _ => cases hc.quote.symm.trans (quote?_eq_some.mpr hquote)
  | plain hplain _ _ => exact absurd hc hplain.known

theorem unterminated (hcs : Readable cs) {quote : Quote} {rest : List Char} (h : Unclosed quote rest)
    (htext : text.toList = cs ++ quote.char :: rest) :
    Token.scan text = .error (.unterminated quote (bytes cs) (lineAfter cs)) := by
  obtain ⟨s,hrun,hs⟩ := hcs
  have hquote : quote? quote.char = some quote := quote?_eq_some.mpr rfl
  rw [Token.scan, htext, run_after hrun, State.run]
  cases step_outside (.of_run hrun) hs quote.char with
  | unknown hunknown _ => cases hunknown.quote.symm.trans hquote
  | plain hplain _ _ => cases hplain.quote.symm.trans hquote
  | quote hsame hstep hs' =>
    cases hquote.symm.trans (quote?_eq_some.mpr hsame)
    rw [hstep]
    rcases run_string hs' rest with ⟨_,s₂,chars,escaped,hrun₂,hs₂⟩ | ⟨inside,after,_,hrest,hinside,_⟩
    · simp only [hrun₂, State.finish, hs₂]
    · exact absurd hinside (h inside after hrest)

/-- Reading goes on to the end or stops at a place up to which the text can be read. -/
theorem or_stuck {cs : List Char} (hcs : Readable cs) (rest : List Char) :
    Readable (cs ++ rest) ∨ ∃ front back, cs ++ rest = front ++ back ∧ Readable front ∧ ∃ e, Stuck front back e := by
  match rest with
  | [] => exact .inl (by rwa [List.append_nil])
  | c :: rest =>
    obtain ⟨s,hrun,hs⟩ := id hcs
    cases step_outside (.of_run hrun) hs c with
    | unknown hunknown _ => exact .inr ⟨cs,c :: rest,rfl,hcs,_,.unknown (unknown_iff.mp hunknown)⟩
    | plain _ hstep hs₁ =>
      have hnext : Readable (cs ++ [c]) := ⟨_,by rw [run_after hrun, State.run, hstep]; rfl,hs₁⟩
      simpa using hnext.or_stuck rest
    | @quote s₁ quote _ hquote hstep hs₁ =>
      subst hquote
      rcases run_string hs₁ rest with ⟨hopen,_⟩ | ⟨inside,after,s₂,hrest,_,hrun₂,hs₂⟩
      · exact .inr ⟨cs,_ :: rest,rfl,hcs,_,.unclosed hopen⟩
      · have hnext : Readable (cs ++ quote.char :: (inside ++ [quote.char])) :=
          ⟨s₂,by rw [run_after hrun, State.run, hstep]; exact hrun₂,hs₂⟩
        have hlt : after.length < rest.length + 1 := by
          rw [hrest, List.length_append, List.length_cons]
          omega
        simpa [hrest] using hnext.or_stuck after
termination_by rest.length

end Readable

/-- Two ways to cut a text at the same byte are the same. -/
theorem append_inj_of_bytes {cs ds cs' ds' : List Char} (h : cs ++ ds = cs' ++ ds') (hbytes : bytes cs = bytes cs') :
    cs = cs' ∧ ds = ds' := by
  have hnil (es : List Char) (hes : bytes es = 0) : es = [] := by
    refine Decidable.byContradiction fun hne => ?_
    have hpos := bytes_pos hne
    omega
  rcases List.append_eq_append_iff.mp h with ⟨es,rfl,rfl⟩ | ⟨es,rfl,rfl⟩
  · simp [hnil es (by simpa using hbytes)]
  · simp [hnil es (by simpa using hbytes)]

theorem stuck_unknownChar_iff {front back : List Char} {pos line : Nat} :
    Stuck front back (.unknownChar c pos line) ↔
      pos = bytes front ∧ line = lineAfter front ∧ ∃ rest, back = c :: rest ∧ ¬Known c := by
  constructor
  · intro h
    cases h with
    | unknown hc => exact ⟨rfl,rfl,_,rfl,hc⟩
  · rintro ⟨rfl,rfl,rest,rfl,hc⟩
    exact .unknown hc

theorem stuck_unterminated_iff {front back : List Char} {quote : Quote} {pos line : Nat} :
    Stuck front back (.unterminated quote pos line) ↔
      pos = bytes front ∧ line = lineAfter front ∧ ∃ rest, back = quote.char :: rest ∧ Unclosed quote rest := by
  constructor
  · intro h
    generalize he : ScanError.unterminated quote pos line = e at h
    cases h with
    | unknown => cases he
    | unclosed h =>
      cases he
      exact ⟨rfl,rfl,_,rfl,h⟩
  · rintro ⟨rfl,rfl,rest,rfl,h⟩
    exact .unclosed h

theorem exists_stuck_iff {front back : List Char} :
    (∃ e, Stuck front back e) ↔ (∃ c rest, back = c :: rest ∧ ¬Known c) ∨
      ∃ quote rest, back = Quote.char quote :: rest ∧ Unclosed quote rest := by
  constructor
  · rintro ⟨e,hstuck⟩
    cases hstuck with
    | unknown hc => exact .inl ⟨_,_,rfl,hc⟩
    | unclosed h => exact .inr ⟨_,_,rfl,h⟩
  · rintro (⟨c,rest,rfl,hc⟩ | ⟨quote,rest,rfl,h⟩)
    · exact ⟨_,.unknown hc⟩
    · exact ⟨_,.unclosed h⟩

theorem Stuck.pos_eq {front back : List Char} {e : ScanError} (h : Stuck front back e) : e.pos = bytes front := by
  cases h <;> rfl

theorem Stuck.line_eq {front back : List Char} {e : ScanError} (h : Stuck front back e) : e.line = lineAfter front := by
  cases h <;> rfl

theorem scan_of_stuck {text : String} {front back : List Char} {e : ScanError} (htext : text.toList = front ++ back)
    (hfront : Readable front) (h : Stuck front back e) : Token.scan text = .error e := by
  cases h with
  | unknown hc => exact hfront.unknownChar (unknown_iff.mpr hc) htext
  | unclosed h => exact hfront.unterminated h htext

/-- A text that fails does so where reading is stuck. -/
theorem stuck_of_scan {text : String} {e : ScanError} (h : Token.scan text = .error e) :
    ∃ front back, text.toList = front ++ back ∧ Readable front ∧ Stuck front back e := by
  rcases readable_nil.or_stuck text.toList with hreadable | ⟨front,back,htext,hfront,e',hstuck⟩
  · obtain ⟨tokens,hok⟩ := readable_iff.mp hreadable
    cases hok.symm.trans h
  · cases (scan_of_stuck htext hfront hstuck).symm.trans h
    exact ⟨front,back,htext,hfront,hstuck⟩

/-- A text fails where `front` ends if and only if `front` can be read and reading is stuck after it. -/
theorem scan_eq_error_iff {front back : String} {e : ScanError} (hpos : e.pos = front.utf8ByteSize) :
    Token.scan (front ++ back) = .error e ↔
      (∃ tokens, Token.scan front = .ok tokens) ∧ Stuck front.toList back.toList e := by
  rw [← readable_iff]
  constructor
  · intro h
    obtain ⟨front',back',htext,hfront',hstuck⟩ := stuck_of_scan h
    have hcut : front.toList = front' ∧ back.toList = back' := by
      refine append_inj_of_bytes (by rwa [← String.toList_append]) ?_
      rw [← hstuck.pos_eq, hpos, bytes_toList]
    rw [hcut.1, hcut.2]
    exact ⟨hfront',hstuck⟩
  · rintro ⟨hfront,hstuck⟩
    exact scan_of_stuck String.toList_append hfront hstuck

theorem scan_ok_iff {text : String} :
    (∃ tokens, Token.scan text = .ok tokens) ↔ ¬∃ front back, text = front ++ back ∧
      (∃ tokens, Token.scan front = .ok tokens) ∧ ∃ e, Stuck front.toList back.toList e := by
  constructor
  · rintro ⟨tokens,hok⟩ ⟨front,back,rfl,hfront,e,hstuck⟩
    have herror := scan_of_stuck String.toList_append (readable_iff.mpr hfront) hstuck
    cases hok.symm.trans herror
  · intro hnowhere
    rcases readable_nil.or_stuck text.toList with hreadable | ⟨front,back,htext,hfront,hstuck⟩
    · exact readable_iff.mp hreadable
    · refine absurd ⟨String.ofList front,String.ofList back,?_,?_,?_⟩ hnowhere
      · rw [← String.ofList_append, ← htext, List.nil_append, String.ofList_toList]
      · exact readable_iff.mp (by rwa [String.toList_ofList])
      · rwa [String.toList_ofList, String.toList_ofList]

end Gapscript.Scan

namespace Gapscript

open Scan

/-- A text fails at the first place where reading cannot go on and nowhere else. The text before that place can be read
on its own, and at it stands a character that no token begins with or a quote that is not closed. -/
theorem scan_error_iff :
    (∀ front back c line, Token.scan (front ++ back) = .error (.unknownChar c front.utf8ByteSize line) ↔
      (∃ tokens, Token.scan front = .ok tokens) ∧ line = lineAfter front.toList ∧
        ∃ rest, back.toList = c :: rest ∧ ¬Known c) ∧
    (∀ front back quote line, Token.scan (front ++ back) = .error (.unterminated quote front.utf8ByteSize line) ↔
      (∃ tokens, Token.scan front = .ok tokens) ∧ line = lineAfter front.toList ∧
        ∃ rest, back.toList = quote.char :: rest ∧ Unclosed quote rest) ∧
    ∀ text, (∃ tokens, Token.scan text = .ok tokens) ↔
      ¬∃ front back, text = front ++ back ∧ (∃ tokens, Token.scan front = .ok tokens) ∧
        ((∃ c rest, back.toList = c :: rest ∧ ¬Known c) ∨
          ∃ quote rest, back.toList = Quote.char quote :: rest ∧ Unclosed quote rest) := by
  refine ⟨?_,?_,?_⟩
  · intro front back c line
    rw [scan_eq_error_iff rfl, stuck_unknownChar_iff]
    simp only [bytes_toList, true_and]
  · intro front back quote line
    rw [scan_eq_error_iff rfl, stuck_unterminated_iff]
    simp only [bytes_toList, true_and]
  · intro text
    simpa only [exists_stuck_iff] using @scan_ok_iff text

end Gapscript
