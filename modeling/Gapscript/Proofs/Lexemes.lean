import Gapscript.Token.Scan

/-! # Tokens apart from their places

What the scanner makes of a character does not depend on where in the text it stands, on the tokens that are finished
already or on which blanks were skipped, but only on what is being read. So two runs over the same characters go on alike
once they read the same, and a text is read after another as it is read by itself.
-/
namespace Gapscript

/-- What a token is apart from its place. -/
structure Lexeme where
  kind : Token.Kind
  text : String
  deriving DecidableEq, Repr

namespace Token

def lexeme (t : Token) : Lexeme := ⟨t.kind, t.text⟩

theorem lexeme_of_kind {t : Token} {kind : Kind} (h : t.kind = kind) : t.lexeme = ⟨kind, t.text⟩ := by
  rw [lexeme, h]

theorem lexeme_eq_iff {t : Token} {l : Lexeme} : t.lexeme = l ↔ t.kind = l.kind ∧ t.text = l.text := by
  rw [lexeme, Lexeme.mk.injEq]

end Token

namespace Scan

/-- The same is being read, begun anywhere and after any blanks. -/
inductive Pending.Alike : Pending → Pending → Prop where
  | gap {operand : Bool} {space space' : List Char} : Alike (.gap operand space) (.gap operand space')
  | symbol {start start' : Start} {chars : List Char} {whole : Bool} :
      Alike (.symbol start chars whole) (.symbol start' chars whole)
  | point {start start' : Start} {chars : List Char} : Alike (.point start chars) (.point start' chars)
  | operator {start start' : Start} {chars : List Char} {attached : Bool} :
      Alike (.operator start chars attached) (.operator start' chars attached)
  | string {quote : Quote} {start start' : Start} {chars : List Char} {escaped : Bool} :
      Alike (.string quote start chars escaped) (.string quote start' chars escaped)

/-- In `t` the same is being read as in `s`, and the same tokens are finished after some that stand `before` them. The
tokens come last first. -/
structure Echoes (before : List Lexeme) (s t : State) : Prop where
  tokens : t.tokens.map Token.lexeme = s.tokens.map Token.lexeme ++ before
  pending : s.pending.Alike t.pending

/-- Both fail for the same character, or neither fails and the states go on alike. -/
inductive Agree (before : List Lexeme) : Except ScanError State → Except ScanError State → Prop where
  | ok {s t : State} (h : Echoes before s t) : Agree before (.ok s) (.ok t)
  | unknown {c : Char} {pos line pos' line' : Nat} :
      Agree before (.error (.unknownChar c pos line)) (.error (.unknownChar c pos' line'))

theorem Agree.exists_of_ok {before : List Lexeme} {s : State} {y : Except ScanError State}
    (h : Agree before (.ok s) y) : ∃ t, y = .ok t ∧ Echoes before s t := by
  cases h with
  | ok h => exact ⟨_,rfl,h⟩

namespace Echoes

variable {before : List Lexeme} {s t : State} {p p' : Pending} {here here' : Start} {chars : List Char}

theorem hold (h : Echoes before s t) (hp : p.Alike p') :
    Echoes before { s with pending := p } { t with pending := p' } :=
  ⟨h.tokens,hp⟩

theorem emit (h : Echoes before s t) (kind : Token.Kind) (hp : p.Alike p') :
    Echoes before (s.emit kind here chars p) (t.emit kind here' chars p') := by
  refine ⟨?_,hp⟩
  simp only [State.emit, List.map_cons, List.cons_append, h.tokens, Token.lexeme]

theorem advance (h : Echoes before s t) (c : Char) : Echoes before (s.advance c) (t.advance c) := ⟨h.tokens,h.pending⟩

theorem start (h : Echoes before s t) (operand : Bool) (space space' : List Char) (c : Char) :
    Agree before (s.start operand space c) (t.start operand space' c) := by
  unfold State.start
  by_cases hblank : isBlank c
  · rw [if_pos hblank, if_pos hblank]
    exact .ok ((h.hold .gap).advance c)
  rw [if_neg hblank, if_neg hblank]
  by_cases hnewline : c = '\n'
  · rw [if_pos hnewline, if_pos hnewline]
    exact .ok ((h.emit .bol .gap).advance c)
  rw [if_neg hnewline, if_neg hnewline]
  cases opening? c with
  | some b => exact .ok ((h.emit (.opening b) .gap).advance c)
  | none =>
  cases closing? c with
  | some b => exact .ok ((h.emit (.closing b) .gap).advance c)
  | none =>
  by_cases hsymbol : isSymbol c
  · simp only [if_pos hsymbol]
    exact .ok ((h.hold .symbol).advance c)
  simp only [if_neg hsymbol]
  cases quote? c with
  | some q => exact .ok ((h.hold .string).advance c)
  | none =>
  by_cases hoperator : isOperator c
  · simp only [if_pos hoperator]
    exact .ok ((h.hold .operator).advance c)
  · simp only [if_neg hoperator]
    exact .unknown

theorem settle (h : Echoes before s t) (next : Option Char) : Echoes before (s.settle next) (t.settle next) := by
  obtain ⟨pos,line,tokens,pending⟩ := s
  obtain ⟨pos',line',tokens',pending'⟩ := t
  cases h.pending with
  | symbol => exact h.emit (.word .symbol) .gap
  | operator => exact h.emit _ .gap
  | gap | point | string => exact h

theorem restart (h : Echoes before s t) (c : Char) : Agree before (s.restart c) (t.restart c) := by
  have hsettled := h.settle (some c)
  unfold State.restart
  generalize s.settle (some c) = u at hsettled
  generalize t.settle (some c) = v at hsettled
  obtain ⟨pos,line,tokens,pending⟩ := u
  obtain ⟨pos',line',tokens',pending'⟩ := v
  cases hsettled.pending with
  | gap => exact hsettled.start ..
  | symbol | point | operator | string => exact hsettled.start ..

theorem operatorStep (h : Echoes before s t) (chars : List Char) (attached : Bool) (c : Char) :
    Agree before (s.operatorStep here chars attached c) (t.operatorStep here' chars attached c) := by
  unfold State.operatorStep
  by_cases hoperator : isOperator c
  · rw [if_pos hoperator, if_pos hoperator]
    exact .ok ((h.hold .operator).advance c)
  · rw [if_neg hoperator, if_neg hoperator]
    exact h.restart c

theorem step (h : Echoes before s t) (c : Char) : Agree before (s.step c) (t.step c) := by
  obtain ⟨pos,line,tokens,pending⟩ := s
  obtain ⟨pos',line',tokens',pending'⟩ := t
  cases h.pending with
  | gap => exact h.restart c
  | @symbol start start' chars whole =>
    simp only [State.step]
    by_cases hsymbol : isSymbol c
    · simp only [if_pos hsymbol]
      exact .ok ((h.hold .symbol).advance c)
    simp only [if_neg hsymbol]
    by_cases hpoint : c = '.' ∧ whole
    · simp only [if_pos hpoint]
      exact .ok ((h.hold .point).advance c)
    · simp only [if_neg hpoint]
      exact h.restart c
  | point =>
    simp only [State.step]
    by_cases hdigit : isDigit c
    · simp only [if_pos hdigit]
      exact .ok ((h.hold .symbol).advance c)
    · simp only [if_neg hdigit]
      exact (h.emit (.word .symbol) .operator).operatorStep ..
  | operator => exact h.operatorStep ..
  | @string quote start start' chars escaped =>
    simp only [State.step]
    by_cases hclose : ¬escaped ∧ c = quote.char
    · simp only [if_pos hclose]
      exact .ok ((h.emit (.string quote) .gap).advance c)
    · simp only [if_neg hclose]
      exact .ok ((h.hold .string).advance c)

theorem run (h : Echoes before s t) (cs : List Char) : Agree before (s.run cs) (t.run cs) := by
  induction cs generalizing s t with
  | nil => exact .ok h
  | cons c cs ih =>
    have hstep := h.step c
    unfold State.run
    generalize s.step c = x at hstep
    generalize t.step c = y at hstep
    cases hstep with
    | ok h => exact ih h
    | unknown => exact .unknown

/-- Where one text may end, the other may too, with the same tokens after those before them. -/
theorem finish (h : Echoes before s t) {us : List Token} (hus : s.finish = .ok us) :
    ∃ vs, t.finish = .ok vs ∧ vs.map Token.lexeme = before.reverse ++ us.map Token.lexeme := by
  have htokens {u v : State} (huv : Echoes before u v) : v.tokens.reverse.map Token.lexeme =
      before.reverse ++ u.tokens.reverse.map Token.lexeme := by
    rw [List.map_reverse, huv.tokens, List.reverse_append, List.map_reverse]
  obtain ⟨pos,line,tokens,pending⟩ := s
  obtain ⟨pos',line',tokens',pending'⟩ := t
  cases h.pending with
  | gap | symbol | operator =>
    cases hus
    exact ⟨_,rfl,htokens (h.settle none)⟩
  | point =>
    cases hus
    exact ⟨_,rfl,htokens ((h.emit (.word .symbol) .operator).settle none)⟩
  | string => cases hus

end Echoes

end Scan

end Gapscript
