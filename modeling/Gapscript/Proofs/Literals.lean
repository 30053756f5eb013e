import Gapscript.Proofs.Approximation
import Gapscript.Proofs.Atoms
import Gapscript.Proofs.Meaning

/-! # What string literals denote

Between its quotes a literal consists of pieces: plain characters, and backslashes each with the character it escapes.
The scanner finishes a literal only where its pieces are complete, so that resolving the escapes goes from piece to piece
and never comes to a backslash at the end. Any text can be written in pieces, and the literal made of them is read as one
token and denotes the text.
-/
namespace Gapscript

variable {ν : Type} {quote : Quote}

/-- A character between quotes that stands for itself, or a backslash with the character after it. -/
inductive Piece (quote : Quote) where
  | plain (c : Char) (hquote : c ≠ quote.char) (hback : c ≠ '\\')
  | pair (c : Char)

namespace Piece

def chars : Piece quote → List Char
  | plain c _ _ => [c]
  | pair c => ['\\', c]

/-- The character that a piece stands for: some letters after a backslash stand for control characters. -/
def meaning : Piece quote → Char
  | plain c _ _ => c
  | pair c => ([('n', '\n'), ('t', '\t'), ('r', '\r'), ('0', '\x00')].lookup c).getD c

/-- The piece that a character is written as between double quotes. -/
def ofChar (c : Char) : Piece .double :=
  if h : c = '"' ∨ c = '\\' then pair c else plain c (fun hc => h (.inl hc)) fun hc => h (.inr hc)

theorem meaning_ofChar (c : Char) : (ofChar c).meaning = c := by
  unfold ofChar
  split
  · next h => rcases h with rfl | rfl <;> rfl
  · rfl

theorem chars_ofChar (c : Char) : (ofChar c).chars = if c = '"' ∨ c = '\\' then ['\\', c] else [c] := by
  unfold ofChar
  split
  · rfl
  · rfl

end Piece

/-! ## Pieces and characters -/

namespace Scan.Enclosed

variable {cs ds : List Char}

theorem append (h : Enclosed quote cs) (h' : Enclosed quote ds) : Enclosed quote (cs ++ ds) := by
  induction h with
  | nil => exact h'
  | plain hquote hback _ ih => exact .plain hquote hback ih
  | pair c _ ih => exact .pair c ih

theorem of_pieces (pieces : List (Piece quote)) : Enclosed quote (pieces.flatMap Piece.chars) := by
  induction pieces with
  | nil => exact .nil
  | cons p pieces ih =>
    cases p with
    | plain c hquote hback => exact .plain hquote hback ih
    | pair c => exact .pair c ih

theorem exists_pieces (h : Enclosed quote cs) : ∃ pieces : List (Piece quote), pieces.flatMap Piece.chars = cs := by
  induction h with
  | nil => exact ⟨[],rfl⟩
  | @plain c cs hquote hback _ ih =>
    obtain ⟨pieces,rfl⟩ := ih
    exact ⟨.plain c hquote hback :: pieces,rfl⟩
  | pair c _ ih =>
    obtain ⟨pieces,rfl⟩ := ih
    exact ⟨.pair c :: pieces,rfl⟩

end Scan.Enclosed

namespace Term

theorem escapeQuoted_eq (cs : List Char) : escapeQuoted cs = (cs.map Piece.ofChar).flatMap Piece.chars := by
  induction cs with
  | nil => rfl
  | cons c cs ih =>
    rw [List.map_cons, List.flatMap_cons, Piece.chars_ofChar, escapeQuoted, ih]
    split
    · rfl
    · rfl

theorem escaped_eq (c : Char) : escaped c = (Piece.pair c : Piece quote).meaning := by
  unfold escaped
  split
  · rfl
  · rfl
  · rfl
  · rfl
  · next hn ht hr h0 =>
    have hnone : [('n', '\n'), ('t', '\t'), ('r', '\r'), ('0', '\x00')].lookup c = none := by
      simp [List.lookup_cons, beq_false_of_ne hn, beq_false_of_ne ht, beq_false_of_ne hr, beq_false_of_ne h0]
    rw [Piece.meaning, hnone]
    rfl

theorem resolve_plain {c : Char} (hc : c ≠ '\\') (cs : List Char) : resolve (c :: cs) = c :: resolve cs := by
  rw [resolve]
  · intro h
    exact absurd h hc
  · intro d ds h
    exact absurd h hc

/-- Resolving escapes gives what the pieces stand for. -/
theorem resolve_pieces (pieces : List (Piece quote)) :
    resolve (pieces.flatMap Piece.chars) = pieces.map Piece.meaning := by
  induction pieces with
  | nil => rfl
  | cons p pieces ih =>
    rw [List.flatMap_cons, List.map_cons, ← ih]
    cases p with
    | plain c _ hback => exact resolve_plain hback _
    | pair c => rw [← escaped_eq]; rfl

theorem unescape_enclosed (inside : List Char) :
    unescape (String.ofList (quote.char :: inside ++ [quote.char])) = String.ofList (resolve inside) := by
  simp [unescape]

/-- Resolving the escapes of the first list comes to the second one. -/
inductive ResolvesTo : List Char → List Char → Prop where
  | here (cs : List Char) : ResolvesTo cs cs
  | plain {c : Char} {cs ds : List Char} (hc : c ≠ '\\') (h : ResolvesTo cs ds) : ResolvesTo (c :: cs) ds
  | pair (c : Char) {cs ds : List Char} (h : ResolvesTo cs ds) : ResolvesTo ('\\' :: c :: cs) ds

theorem ResolvesTo.not_dangling {cs : List Char} (h : Scan.Enclosed quote cs) : ¬ResolvesTo cs ['\\'] := by
  induction h with
  | nil => nofun
  | plain _ hback _ ih =>
    intro hto
    cases hto with
    | here => exact hback rfl
    | plain _ hto => exact ih hto
    | pair => exact hback rfl
  | pair c _ ih =>
    intro hto
    cases hto with
    | plain hc _ => exact hc rfl
    | pair _ hto => exact ih hto

end Term

/-! ## Literals that are read -/

namespace Scan

/-- If the token is a string, its text is complete between its quotes. -/
def Closed (t : Token) : Prop :=
  ∀ quote, t.kind = .string quote →
    ∃ inside, Enclosed quote inside ∧ t.text = String.ofList (quote.char :: inside ++ [quote.char])

/-- A string that is being read has complete pieces so far, and a backslash after them if the next character is
escaped. -/
def Pending.Opened : Pending → Prop
  | .string quote _ chars escaped =>
    ∃ inside, Enclosed quote inside ∧ chars.reverse = quote.char :: (inside ++ if escaped then ['\\'] else [])
  | _ => True

/-- All strings that are finished are closed, and the one that is being read was opened. -/
structure State.Quoting (s : State) : Prop where
  tokens : ∀ t ∈ s.tokens, Closed t
  pending : s.pending.Opened

namespace State.Quoting

variable {s s' : State} {c : Char}

theorem initial : State.initial.Quoting := by
  refine ⟨?_,trivial⟩
  intro t ht quote hquote
  cases List.mem_singleton.mp ht
  cases hquote

theorem emit (h : s.Quoting) {kind : Token.Kind} (hkind : kind.isString = false) (start : Start)
    (chars : List Char) {p : Pending} (hp : p.Opened) : (s.emit kind start chars p).Quoting := by
  refine ⟨List.forall_mem_cons.mpr ⟨?_,h.tokens⟩,hp⟩
  rintro quote rfl
  cases hkind

theorem advance (h : s.Quoting) (c : Char) : (s.advance c).Quoting := ⟨h.tokens,h.pending⟩

theorem settles {next : Option Char} (h : s.Quoting) (hs : Settles next s s') : s'.Quoting := by
  induction hs with
  | keep => exact h
  | symbol _ _ => exact h.emit rfl _ _ (by trivial)
  | operator _ _ => exact h.emit rfl _ _ (by trivial)
  | release _ _ _ ih => exact ih (h.emit rfl _ _ (by trivial))

theorem grows (h : s.Quoting) (hs : Grows c s s') : s'.Quoting := by
  have hopened := h.pending
  cases hs with
  | symbol | point | decimal | operator => exact ⟨h.tokens,trivial⟩
  | @string quote start chars escaped hp hc =>
    rw [hp] at hopened
    obtain ⟨inside,hinside,hchars⟩ := hopened
    refine ⟨h.tokens,?_⟩
    cases escaped with
    | true => exact ⟨inside ++ ['\\', c],hinside.append (.pair c .nil),by simp [hchars]⟩
    | false =>
      have hquote : c ≠ quote.char := hc.resolve_left Bool.false_ne_true
      by_cases hback : c = '\\'
      · exact ⟨inside,hinside,by simp [hchars, hback]⟩
      · exact ⟨inside ++ [c],hinside.append (.plain hquote hback .nil),by simp [hchars, hback]⟩
  | @close quote start chars hp hc =>
    rw [hp] at hopened
    obtain ⟨inside,hinside,hchars⟩ := hopened
    refine ⟨List.forall_mem_cons.mpr ⟨?_,h.tokens⟩,trivial⟩
    rintro _ ⟨⟩
    exact ⟨inside,hinside,by simp [hchars, hc]⟩

theorem begins {operand : Bool} {space : List Char} (h : s.Quoting) (hs : Begins c operand space s s') :
    s'.Quoting := by
  cases hs with
  | blank | symbol | operator => exact ⟨h.tokens,trivial⟩
  | newline => exact (h.emit rfl _ _ (by trivial)).advance c
  | opening => exact (h.emit rfl _ _ (by trivial)).advance c
  | closing => exact (h.emit rfl _ _ (by trivial)).advance c
  | string hc => exact ⟨h.tokens,[],.nil,by rw [quote?_eq_some.mp hc]; rfl⟩

theorem of_run {cs : List Char} (h : State.initial.run cs = .ok s) : s.Quoting :=
  @run_invariant (fun _ s => s.Quoting) settles grows (fun h _ hs => begins h hs) [] cs _ s initial h

end State.Quoting

/-- Every string among the tokens of a text is closed. -/
theorem closed_of_scan {text : String} {tokens : List Token} (h : Token.scan text = .ok tokens) :
    ∀ t ∈ tokens, Closed t := by
  obtain ⟨s,s',_,_,hrun,hs',_,rfl⟩ := exists_settled_of_scan h
  intro t ht
  exact ((State.Quoting.of_run hrun).settles hs').tokens t (List.mem_reverse.mp ht)

/-- What stands between the quotes goes on with the string and finishes no token. -/
theorem run_enclosed {s : State} {start : Start} {chars cs : List Char} (h : Enclosed quote cs)
    (hs : s.pending = .string quote start chars false) :
    ∃ s', s.run cs = .ok s' ∧ s'.tokens = s.tokens ∧ s'.pending = .string quote start (cs.reverse ++ chars) false := by
  induction h generalizing s chars with
  | nil => exact ⟨s,rfl,rfl,hs⟩
  | @plain c cs hquote hback _ ih =>
    obtain ⟨s₁,hstep,htokens₁,hs₁⟩ := step_string hs (.inr hquote)
    rw [beq_false_of_ne hback, Bool.and_false] at hs₁
    obtain ⟨s₂,hrun,htokens₂,hs₂⟩ := ih hs₁
    exact ⟨s₂,by simp only [State.run, hstep, hrun],htokens₂.trans htokens₁,by simpa using hs₂⟩
  | @pair c cs _ ih =>
    obtain ⟨s₁,hstep₁,htokens₁,hs₁⟩ := step_string hs (.inr (Quote.char_ne_backslash quote).symm)
    obtain ⟨s₂,hstep₂,htokens₂,hs₂⟩ := step_string (c := c) hs₁ (.inl rfl)
    obtain ⟨s₃,hrun,htokens₃,hs₃⟩ := ih hs₂
    refine ⟨s₃,by simp only [State.run, hstep₁, hstep₂, hrun],?_,by simpa using hs₃⟩
    rw [htokens₃, htokens₂, htokens₁]

/-- A literal by itself is read as one token. -/
theorem scan_enclosed {inside : List Char} (h : Enclosed quote inside) :
    Token.scan (String.ofList (quote.char :: inside ++ [quote.char])) =
      .ok [⟨.bol, 0, 1, "", ""⟩, ⟨.string quote, 0, 1, "", String.ofList (quote.char :: inside ++ [quote.char])⟩] := by
  obtain ⟨s₁,hstart,htokens₁,hs₁⟩ : ∃ s₁, State.initial.step quote.char = .ok s₁ ∧
      s₁.tokens = State.initial.tokens ∧ s₁.pending = .string quote ⟨0, 1, []⟩ [quote.char] false := by
    cases quote with
    | double | single => exact ⟨_,rfl,rfl,rfl⟩
  obtain ⟨s₂,hrun,htokens₂,hs₂⟩ := run_enclosed h hs₁
  have hclose : s₂.step quote.char = .ok ((s₂.emit (.string quote) ⟨0, 1, []⟩
      (quote.char :: (inside.reverse ++ [quote.char])) (.gap true [])).advance quote.char) := by
    simp only [State.step, hs₂, Bool.false_eq_true, not_false_eq_true, and_self, if_true]
  rw [Token.scan, String.toList_ofList, List.cons_append, State.run, hstart]
  simp only [run_after hrun, State.run, hclose]
  simp [State.finish, State.settle, State.emit, State.advance, htokens₂, htokens₁, State.initial]

end Scan

/-! ## Literals as programs -/

open Parse Grammar in
theorem compile_enclosed {inside : List Char} (h : Scan.Enclosed quote inside) :
    let raw := String.ofList (quote.char :: inside ++ [quote.char])
    compile raw = .ok (.block .top [.str raw]) := by
  intro raw
  refine compile_eq_ok_iff.mpr ⟨_,[.str raw],Scan.scan_enclosed h,?_,rfl⟩
  have hoperand : Denotes maxNesting .exprPre [⟨.string quote, raw⟩] (.term (.str raw)) :=
    .exprPreSingle (.exprPostSingle .string)
  have hexpr : Denotes maxNesting .expr0 [⟨.string quote, raw⟩] (.term (.str raw)) :=
    .expr0Single (.expr1Single (.exprApply (.expr2Single hoperand) .argsNil))
  exact .topCons (.stmtExpr hexpr) .topNil

/-- A literal needs two levels, one for the program and one for itself, and leaves no trace. -/
theorem eval_literal (host : Host ν) {limits : Limits} (raw : String) {env : Env ν}
    (h : env.depth + 2 ≤ limits.maxDepth) :
    eval host limits (.block .top [.str raw]) env = (.value (.text (Term.unescape raw)), env) := by
  have hinside : env.depth + 1 < limits.maxDepth := by omega
  rw [eval_eq_nested, Action.nested_of_lt _ (by omega)]
  simp only [Eval.node, Eval.block, Action.inBlock, Eval.statements, Bind.bind, Action.bind]
  rw [Eval.within_str (by decide) (by exact hinside)]
  rfl

theorem quotedRaw_eq (text : String) : Term.quotedRaw text = String.ofList
    (Quote.double.char :: (text.toList.map Piece.ofChar).flatMap Piece.chars ++ [Quote.double.char]) := by
  rw [Term.quotedRaw, Term.escapeQuoted_eq]
  rfl

theorem unescape_pieces (pieces : List (Piece quote)) :
    Term.unescape (String.ofList (quote.char :: pieces.flatMap Piece.chars ++ [quote.char])) =
      String.ofList (pieces.map Piece.meaning) := by
  rw [Term.unescape_enclosed, Term.resolve_pieces]

theorem unescape_quoted (text : String) : Term.unescape (Term.quotedRaw text) = text := by
  rw [quotedRaw_eq, unescape_pieces, List.map_map]
  have hmeaning : Piece.meaning ∘ Piece.ofChar = id := funext Piece.meaning_ofChar
  rw [hmeaning, List.map_id, String.ofList_toList]

/-- Every text survives as a literal: its escapes resolve to the text, it is read as one token, and as a program it gives
the text back. Every string that is read consists of complete pieces, and what it denotes is what they stand for one
after the other. -/
theorem literals_denote_pieces (host : Host ν) :
    (∀ text, Term.unescape (Term.quotedRaw text) = text ∧
      Token.scan (Term.quotedRaw text) =
        .ok [⟨.bol, 0, 1, "", ""⟩, ⟨.string .double, 0, 1, "", Term.quotedRaw text⟩] ∧
      ∀ i : Interpreter ν, i.env.depth + 2 ≤ i.limits.maxDepth →
        i.run host (Term.quotedRaw text) = (.value (.text text), i)) ∧
    ∀ source tokens, Token.scan source = .ok tokens → ∀ t ∈ tokens, ∀ quote, t.kind = .string quote →
      ∃ pieces : List (Piece quote),
        t.text = String.ofList (quote.char :: pieces.flatMap Piece.chars ++ [quote.char]) ∧
        Term.unescape t.text = String.ofList (pieces.map Piece.meaning) ∧
        ¬Term.ResolvesTo (pieces.flatMap Piece.chars) ['\\'] := by
  constructor
  · intro text
    have henclosed : Scan.Enclosed .double ((text.toList.map Piece.ofChar).flatMap Piece.chars) := .of_pieces _
    have hscan := Scan.scan_enclosed henclosed
    have hcompile := compile_enclosed henclosed
    simp only [← quotedRaw_eq] at hscan hcompile
    refine ⟨unescape_quoted text,hscan,?_⟩
    intro i hdepth
    have heval := eval_literal host (Term.quotedRaw text) hdepth
    rw [unescape_quoted] at heval
    rw [i.run_of_compile host hcompile, Interpreter.eval_of_eval heval]
    rfl
  · intro source tokens hscan t ht quote hquote
    obtain ⟨inside,hinside,htext⟩ := Scan.closed_of_scan hscan t ht quote hquote
    obtain ⟨pieces,rfl⟩ := hinside.exists_pieces
    have hdangling := Term.ResolvesTo.not_dangling hinside
    rw [htext]
    exact ⟨pieces,rfl,unescape_pieces pieces,hdangling⟩

/-- A text with quotes, backslashes, a letter after one and a character of more than one byte, and a literal in single
quotes that ends in an escaped quote. -/
theorem literals_denote_pieces_escapes :
    let host : Host Empty := fun code => nomatch code
    let i : Interpreter Empty := ⟨.withPrelude {}, ⟨2, 0⟩⟩
    i.run host "\"\\\\n \\\"é\\\\\"" = (.value (.text "\\n \"é\\"), i) ∧
      ∃ pieces : List (Piece .single), "'\\é\\n\\''" = String.ofList ('\'' :: pieces.flatMap Piece.chars ++ ['\'']) ∧
        Term.unescape "'\\é\\n\\''" = String.ofList (pieces.map Piece.meaning) := by
  intro host i
  obtain ⟨hquoted,hread⟩ := literals_denote_pieces host
  obtain ⟨_,_,hrun⟩ := hquoted "\\n \"é\\"
  have hscan : Token.scan "'\\é\\n\\''" =
      .ok [⟨.bol, 0, 1, "", ""⟩, ⟨.string .single, 0, 1, "", "'\\é\\n\\''"⟩] := rfl
  obtain ⟨pieces,htext,hmeaning,_⟩ := hread _ _ hscan _ (List.mem_cons_of_mem _ List.mem_cons_self) _ rfl
  exact ⟨hrun i (Nat.le_refl 2),pieces,htext,hmeaning⟩

end Gapscript
