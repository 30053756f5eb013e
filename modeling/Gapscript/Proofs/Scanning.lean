import Gapscript.Token.Scan

/-! # What one character does

A character first settles what cannot go on with it and then either goes on with what is being read or begins something
new. These three are stated as relations between states of the scanner, each with the conditions under which it happens,
and everything that holds of all states along a run is derived from them. The end of the text settles what is being read
as a character would.
-/
namespace Gapscript.Scan

/-- What is finished because `next`, or the end of the text, comes after it. -/
inductive Settles (next : Option Char) : State → State → Prop where
  | keep (s : State) : Settles next s s
  | symbol {s : State} {start : Start} {chars : List Char} {whole : Bool} (h : s.pending = .symbol start chars whole)
      (hnext : ∀ c ∈ next, isSymbol c = false ∧ ¬(c = '.' ∧ whole)) :
      Settles next s (s.emit (.word .symbol) start chars (.gap true []))
  | operator {s : State} {start : Start} {chars : List Char} {attached : Bool}
      (h : s.pending = .operator start chars attached) (hnext : ∀ c ∈ next, isOperator c = false) :
      Settles next s
        (s.emit (.word (operatorContext attached chars.reverse next)) start chars (.gap false []))
  | release {s s' : State} {start : Start} {chars : List Char} (h : s.pending = .point start chars)
      (hnext : ∀ c ∈ next, isDigit c = false) (after : Settles next (s.releasePoint start chars) s') :
      Settles next s s'

/-- What is being read goes on with `c`, or is a string that `c` ends. -/
inductive Grows (c : Char) : State → State → Prop where
  | symbol {s : State} {start : Start} {chars : List Char} {whole : Bool} (h : s.pending = .symbol start chars whole)
      (hc : isSymbol c) : Grows c s ({ s with pending := .symbol start (c :: chars) (whole && isDigit c) }.advance c)
  | point {s : State} {start : Start} {chars : List Char} (h : s.pending = .symbol start chars true) (hc : c = '.') :
      Grows c s ({ s with pending := .point start chars }.advance c)
  | decimal {s : State} {start : Start} {chars : List Char} (h : s.pending = .point start chars) (hc : isDigit c) :
      Grows c s ({ s with pending := .symbol start (c :: '.' :: chars) false }.advance c)
  | operator {s : State} {start : Start} {chars : List Char} {attached : Bool}
      (h : s.pending = .operator start chars attached) (hc : isOperator c) :
      Grows c s ({ s with pending := .operator start (c :: chars) attached }.advance c)
  | string {s : State} {quote : Quote} {start : Start} {chars : List Char} {escaped : Bool}
      (h : s.pending = .string quote start chars escaped) (hc : escaped ∨ c ≠ quote.char) :
      Grows c s ({ s with pending := .string quote start (c :: chars) (!escaped && c == '\\') }.advance c)
  | close {s : State} {quote : Quote} {start : Start} {chars : List Char}
      (h : s.pending = .string quote start chars false) (hc : c = quote.char) :
      Grows c s ((s.emit (.string quote) start (c :: chars) (.gap true [])).advance c)

/-- What begins with `c` after blanks since the last token. -/
inductive Begins (c : Char) (operand : Bool) (space : List Char) (s : State) : State → Prop where
  | blank (hc : isBlank c) : Begins c operand space s ({ s with pending := .gap false (space ++ [c]) }.advance c)
  | newline (hc : c = '\n') :
      Begins c operand space s ((s.emit .bol ⟨s.pos, s.line + 1, space ++ [c]⟩ [] (.gap false [])).advance c)
  | opening {b : Bracket} (hc : opening? c = some b) :
      Begins c operand space s ((s.emit (.opening b) ⟨s.pos, s.line, space⟩ [c] (.gap false [])).advance c)
  | closing {b : Bracket} (hc : closing? c = some b) :
      Begins c operand space s ((s.emit (.closing b) ⟨s.pos, s.line, space⟩ [c] (.gap true [])).advance c)
  | symbol (hc : isSymbol c) :
      Begins c operand space s ({ s with pending := .symbol ⟨s.pos, s.line, space⟩ [c] (isDigit c) }.advance c)
  | string {quote : Quote} (hc : quote? c = some quote) :
      Begins c operand space s ({ s with pending := .string quote ⟨s.pos, s.line, space⟩ [c] false }.advance c)
  | operator (hc : isOperator c) :
      Begins c operand space s ({ s with pending := .operator ⟨s.pos, s.line, space⟩ [c] operand }.advance c)

/-- A character that no token can begin with. -/
structure Unknown (c : Char) : Prop where
  blank : isBlank c = false
  newline : c ≠ '\n'
  opening : opening? c = none
  closing : closing? c = none
  symbol : isSymbol c = false
  quote : quote? c = none
  operator : isOperator c = false

theorem start_cases (s : State) (operand : Bool) (space : List Char) (c : Char) :
    (∃ s', s.start operand space c = .ok s' ∧ Begins c operand space s s') ∨
      Unknown c ∧ s.start operand space c = .error (.unknownChar c s.pos s.line) := by
  unfold State.start
  by_cases hblank : isBlank c
  · exact .inl ⟨_,if_pos hblank,.blank hblank⟩
  rw [if_neg hblank]
  by_cases hnewline : c = '\n'
  · exact .inl ⟨_,if_pos hnewline,.newline hnewline⟩
  rw [if_neg hnewline]
  cases hopening : opening? c with
  | some b => exact .inl ⟨_,rfl,.opening hopening⟩
  | none =>
  cases hclosing : closing? c with
  | some b => exact .inl ⟨_,rfl,.closing hclosing⟩
  | none =>
  by_cases hsymbol : isSymbol c
  · exact .inl ⟨_,if_pos hsymbol,.symbol hsymbol⟩
  simp only [if_neg hsymbol]
  cases hquote : quote? c with
  | some q => exact .inl ⟨_,rfl,.string hquote⟩
  | none =>
  by_cases hoperator : isOperator c
  · exact .inl ⟨_,if_pos hoperator,.operator hoperator⟩
  exact .inr ⟨⟨Bool.eq_false_iff.mpr hblank,hnewline,hopening,hclosing,Bool.eq_false_iff.mpr hsymbol,hquote,
    Bool.eq_false_iff.mpr hoperator⟩,if_neg hoperator⟩

/-- A step begins anew after what is being read has been settled. -/
def StartsAnew (s : State) (c : Char) : Prop :=
  ∃ s' operand space, Settles (some c) s s' ∧ s'.pending = .gap operand space ∧ s.step c = s'.start operand space c

/-- A step goes on with what is being read, of which a part may have been settled. -/
def GoesOn (s : State) (c : Char) : Prop :=
  ∃ s' s'', Settles (some c) s s' ∧ Grows c s' s'' ∧ s.step c = .ok s''

theorem operatorStep_cases {s : State} {start : Start} {chars : List Char} {attached : Bool}
    (h : s.pending = .operator start chars attached) (c : Char) :
    (∃ s' operand space, Settles (some c) s s' ∧ s'.pending = .gap operand space ∧
      s.operatorStep start chars attached c = s'.start operand space c) ∨
    ∃ s', Grows c s s' ∧ s.operatorStep start chars attached c = .ok s' := by
  unfold State.operatorStep
  by_cases hc : isOperator c
  · exact .inr ⟨_,.operator h hc,if_pos hc⟩
  · rw [if_neg hc, State.restart, State.settle, h]
    exact .inl ⟨_,false,[],.operator h (by simpa using hc),rfl,rfl⟩

theorem step_cases (s : State) (c : Char) : StartsAnew s c ∨ GoesOn s c := by
  unfold StartsAnew GoesOn
  cases h : s.pending with
  | gap operand space =>
    have hstep : s.step c = s.start operand space c := by simp only [State.step, State.restart, State.settle, h]
    exact .inl ⟨s,operand,space,.keep s,h,hstep⟩
  | symbol start chars whole =>
    simp only [State.step, h]
    by_cases hsymbol : isSymbol c
    · exact .inr ⟨s,_,.keep s,.symbol h hsymbol,if_pos hsymbol⟩
    rw [if_neg hsymbol]
    by_cases hpoint : c = '.' ∧ whole
    · obtain ⟨hc,rfl⟩ := hpoint
      exact .inr ⟨s,_,.keep s,.point h hc,if_pos ⟨hc,rfl⟩⟩
    · rw [if_neg hpoint, State.restart, State.settle, h]
      refine .inl ⟨_,true,[],.symbol h ?_,rfl,rfl⟩
      rintro _ ⟨⟩
      exact ⟨Bool.eq_false_iff.mpr hsymbol,hpoint⟩
  | point start chars =>
    simp only [State.step, h]
    by_cases hdigit : isDigit c
    · exact .inr ⟨s,_,.keep s,.decimal h hdigit,if_pos hdigit⟩
    rw [if_neg hdigit]
    have hnext : ∀ d ∈ some c, isDigit d = false := by simpa using hdigit
    have hreleased : (s.releasePoint start chars).pending = _ := rfl
    rcases operatorStep_cases hreleased c with ⟨s',operand,space,hs',hgap,hstep⟩ | ⟨s',hg,hstep⟩
    · exact .inl ⟨s',operand,space,.release h hnext hs',hgap,hstep⟩
    · exact .inr ⟨_,s',.release h hnext (.keep _),hg,hstep⟩
  | operator start chars attached =>
    simp only [State.step, h]
    rcases operatorStep_cases h c with hstart | ⟨s',hg,hstep⟩
    · exact .inl hstart
    · exact .inr ⟨s,s',.keep s,hg,hstep⟩
  | string quote start chars escaped =>
    simp only [State.step, h]
    by_cases hclose : ¬escaped ∧ c = quote.char
    · obtain ⟨hescaped,hc⟩ := hclose
      rw [Bool.not_eq_true] at hescaped
      subst hescaped
      exact .inr ⟨s,_,.keep s,.close h hc,if_pos ⟨Bool.false_ne_true,hc⟩⟩
    · have hstays : escaped ∨ c ≠ quote.char := by
        by_cases hescaped : escaped
        · exact .inl hescaped
        · exact .inr fun hc => hclose ⟨hescaped,hc⟩
      exact .inr ⟨s,_,.keep s,.string h hstays,if_neg hclose⟩

/-- Inside a string the text cannot end. -/
def State.InString (s : State) : Prop := ∃ quote start chars escaped, s.pending = .string quote start chars escaped

/-- Outside strings the end of the text settles what is being read. -/
theorem finish_cases (s : State) :
    (∃ s' operand space, Settles none s s' ∧ s'.pending = .gap operand space ∧ s.finish = .ok s'.tokens.reverse) ∨
      ∃ quote start chars escaped, s.pending = .string quote start chars escaped ∧
        s.finish = .error (.unterminated quote start.pos start.line) := by
  have hnone {P : Char → Prop} : ∀ c ∈ (none : Option Char), P c := nofun
  cases h : s.pending with
  | gap operand space => exact .inl ⟨s,operand,space,.keep s,h,by simp only [State.finish, State.settle, h]⟩
  | symbol start chars whole =>
    exact .inl ⟨_,true,[],.symbol h hnone,rfl,by simp only [State.finish, State.settle, h]⟩
  | point start chars =>
    exact .inl ⟨_,false,[],.release h hnone (.operator rfl hnone),rfl,by simp only [State.finish, State.settle, h]; rfl⟩
  | operator start chars attached =>
    exact .inl ⟨_,false,[],.operator h hnone,rfl,by simp only [State.finish, State.settle, h]⟩
  | string quote start chars escaped =>
    exact .inr ⟨quote,start,chars,escaped,rfl,by simp only [State.finish, h]⟩

/-! ## Runs -/

theorem scan_eq_ok_iff {text : String} {us : List Token} : Token.scan text = .ok us ↔
    ∃ s, State.initial.run text.toList = .ok s ∧ s.finish = .ok us := by
  unfold Token.scan
  split
  · next s hs => simp [hs]
  · next e he => simp [he]

/-- The tokens of a text are those of the state at its end, once that is settled. -/
theorem exists_settled_of_scan {text : String} {tokens : List Token} (h : Token.scan text = .ok tokens) :
    ∃ s s' operand space, State.initial.run text.toList = .ok s ∧ Settles none s s' ∧
      s'.pending = .gap operand space ∧ tokens = s'.tokens.reverse := by
  obtain ⟨s,hrun,hfinish⟩ := scan_eq_ok_iff.mp h
  rcases finish_cases s with ⟨s',operand,space,hs',hgap,htokens⟩ | ⟨_,_,_,_,_,herror⟩
  · cases htokens.symm.trans hfinish
    exact ⟨s,s',operand,space,hrun,hs',hgap,rfl⟩
  · cases herror.symm.trans hfinish

theorem run_append (s : State) (cs ds : List Char) :
    s.run (cs ++ ds) = match s.run cs with
      | .ok s' => s'.run ds
      | .error e => .error e := by
  induction cs generalizing s with
  | nil => rfl
  | cons c cs ih =>
    rw [List.cons_append, State.run, State.run]
    cases s.step c with
    | ok s' => exact ih s'
    | error e => rfl

theorem run_after {s s' : State} {cs : List Char} (h : s.run cs = .ok s') (ds : List Char) :
    s.run (cs ++ ds) = s'.run ds := by
  rw [run_append, h]

/-- What is kept when something is settled, goes on or begins is kept by every run. It may speak of the characters read
so far and of those ahead. -/
theorem run_invariant_ahead {I : (read ahead : List Char) → State → Prop}
    (hsettles : ∀ {cs c ds s s'}, I cs (c :: ds) s → Settles (some c) s s' → I cs (c :: ds) s')
    (hgrows : ∀ {cs c ds s s'}, I cs (c :: ds) s → Grows c s s' → I (cs ++ [c]) ds s')
    (hbegins : ∀ {cs c ds s s' operand space}, I cs (c :: ds) s → s.pending = .gap operand space →
      Begins c operand space s s' → I (cs ++ [c]) ds s')
    {cs ds : List Char} {s s' : State} (h : I cs ds s) (hrun : s.run ds = .ok s') : I (cs ++ ds) [] s' := by
  induction ds generalizing cs s with
  | nil =>
    cases hrun
    rwa [List.append_nil]
  | cons d ds ih =>
    rw [State.run] at hrun
    have hnext {t : State} (ht : s.step d = .ok t) (hinv : I (cs ++ [d]) ds t) : I (cs ++ d :: ds) [] s' := by
      rw [ht] at hrun
      simpa using ih hinv hrun
    rcases step_cases s d with ⟨s₁,operand,space,hs₁,hgap,hstep⟩ | ⟨s₁,s₂,hs₁,hs₂,hstep⟩
    · rcases start_cases s₁ operand space d with ⟨t,hstart,hbegins'⟩ | ⟨_,hstart⟩
      · exact hnext (hstep.trans hstart) (hbegins (hsettles h hs₁) hgap hbegins')
      · rw [hstep, hstart] at hrun
        cases hrun
    · exact hnext hstep (hgrows (hsettles h hs₁) hs₂)

/-- The same of what does not look ahead. -/
theorem run_invariant {I : List Char → State → Prop}
    (hsettles : ∀ {cs c s s'}, I cs s → Settles (some c) s s' → I cs s')
    (hgrows : ∀ {cs c s s'}, I cs s → Grows c s s' → I (cs ++ [c]) s')
    (hbegins : ∀ {cs c s s' operand space}, I cs s → s.pending = .gap operand space →
      Begins c operand space s s' → I (cs ++ [c]) s')
    {cs ds : List Char} {s s' : State} (h : I cs s) (hrun : s.run ds = .ok s') : I (cs ++ ds) s' :=
  @run_invariant_ahead (fun cs _ => I cs) hsettles hgrows hbegins cs ds s s' h hrun

end Gapscript.Scan
