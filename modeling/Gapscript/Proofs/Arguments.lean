import Gapscript.Proofs.Chains

/-! # Arguments of a call

The parentheses right after a symbol are a block, and what stands in them is a list if there are commas. A call takes the
items of the list as its arguments and not the list, so that the arguments are the ones that are written, as long as all
commas are of one kind.
-/
namespace Gapscript

/-- The text of a call whose arguments are separated by commas with `gap` after each. -/
def callSource (f : Symbol) (gap : List Char) (args : List Atom) : String :=
  String.ofList (f.chars ++ '(' :: ((',' :: gap).intercalate (args.map Atom.chars) ++ [')']))

/-- The comma that has `gap` after it. -/
def Comma.before (gap : List Char) : Comma := if gap = [] then .tight else .loose

def argumentLexemes (gap : List Char) : List Atom → List Lexeme
  | [] => []
  | x :: rest => commaLexemes x (rest.map (Comma.before gap, ·))

variable {f : Symbol} {x : Atom} {rest args : List Atom} {gap : List Char}

/-! ## Reading the text -/

namespace Scan

variable {P Q : State → Prop} {ls : List Lexeme} {operand : Bool} {space cs : List Char} {c : Char}

theorem leads_openParen :
    Leads (At ls (.gap operand space)) ['('] (At (⟨.opening .paren, "("⟩ :: ls) (.gap false [])) := by
  refine leads_step ?_
  rintro ⟨pos,line,tokens,pending⟩ ⟨hls,hp⟩
  cases hp
  exact ⟨_,rfl,congrArg _ hls,.gap⟩

theorem leads_closeParen : Leads (At ls (.gap operand space)) [')'] (AtOperand (⟨.closing .paren, ")"⟩ :: ls)) := by
  refine leads_step ?_
  rintro ⟨pos,line,tokens,pending⟩ ⟨hls,hp⟩
  cases hp
  exact ⟨_,rfl,congrArg _ hls,.gap⟩

/-- An operand is settled by a character that does not go on with it. -/
theorem leads_ended (hsymbol : isSymbol c = false) (hpoint : c ≠ '.') (h : Leads (At ls (.gap true [])) (c :: cs) Q) :
    Leads (AtOperand ls) (c :: cs) Q := by
  intro s hs
  obtain ⟨s',hrun,hs'⟩ := h _ hs
  refine ⟨s',?_,hs'⟩
  rw [← hrun, State.run, State.run]
  obtain ⟨pos,line,tokens,pending⟩ := s
  cases pending with
  | gap => rfl
  | symbol =>
    simp only [State.step, hsymbol, Bool.false_eq_true, if_false, hpoint, false_and]
    rfl
  | operator | point | string => cases hs.2

theorem leads_separator (hgap : Blank gap) : Leads (AtOperand ls) (',' :: gap) (AtComma ls (.before gap)) := by
  by_cases hne : gap = []
  · rw [Comma.before, if_pos hne, hne]
    exact leads_comma
  · rw [Comma.before, if_neg hne]
    have hcomma : Leads (AtOperand ls) [','] (At ls (.operator ⟨0, 1, []⟩ [','] true)) := leads_comma
    exact hcomma.append (leads_gap (fun s hs => hs.finish_operator) hgap hne)

theorem leads_arguments (hgap : Blank gap) (hx : Leads P x.chars (AtOperand (x.lexeme :: ls))) (rest : List Atom) :
    Leads P ((',' :: gap).intercalate ((x :: rest).map Atom.chars))
      (AtOperand ((argumentLexemes gap (x :: rest)).reverse ++ ls)) := by
  induction rest generalizing P ls x with
  | nil =>
    rw [List.map_singleton, List.intercalate_singleton]
    exact hx
  | cons y rest ih =>
    have hy : Leads (AtComma (x.lexeme :: ls) (.before gap)) y.source.toList
        (AtOperand (y.lexeme :: (Comma.before gap).lexeme :: x.lexeme :: ls)) := leads_operand _ y
    rw [Atom.source, String.toList_ofList] at hy
    have hrest := (hx.append (leads_separator hgap)).append (ih hy)
    rw [List.map_cons, List.map_cons, List.intercalate_cons_cons]
    simpa [argumentLexemes, commaLexemes] using hrest

theorem scan_callSource (f : Symbol) (hgap : Blank gap) (args : List Atom) :
    ∃ us, Token.scan (callSource f gap args) = .ok us ∧ us.map Token.lexeme =
      ⟨.bol, ""⟩ :: f.atom.lexeme :: (⟨.opening .paren, "("⟩ :: argumentLexemes gap args ++ [⟨.closing .paren, ")"⟩]) := by
  refine scan_line ?_
  rw [callSource, String.toList_ofList]
  have hopened : Leads (At [⟨.bol, ""⟩] (.gap false [])) (f.chars ++ ['('])
      (At [⟨.opening .paren, "("⟩, f.atom.lexeme, ⟨.bol, ""⟩] (.gap false [])) :=
    (leads_atom f.atom).append (leads_ended rfl (by decide) leads_openParen)
  cases args with
  | nil => simpa [argumentLexemes] using hopened.append leads_closeParen
  | cons x rest =>
    have hclosed := (hopened.append (leads_arguments hgap (leads_atom x) rest)).append
      (leads_ended rfl (by decide) leads_closeParen)
    simpa using hclosed

end Scan

/-! ## The meaning of the lexemes -/

/-- With commas of one kind only, no operand is a list of its own. -/
theorem commaItems_uniform {before comma : Comma} (h : before = .loose ∨ before = comma) :
    commaItems before x (rest.map (comma, ·)) = (x :: rest).map Atom.term := by
  induction rest generalizing before x with
  | nil => rfl
  | cons y rest ih =>
    have hsame : ¬(before = .tight ∧ comma = .loose) := by
      rintro ⟨rfl,rfl⟩
      rcases h with h | h <;> cases h
    rw [List.map_cons, commaItems, if_neg hsame, ih (.inr rfl)]
    rfl

namespace Parse
open Grammar

/-- A symbol and a block after it are a call. -/
theorem denotes_call (f : Symbol) {n : Nat} {ls : List Lexeme} {t : Term} (h : Denotes n .block ls (.term t)) :
    Denotes n .expr0 (f.atom.lexeme :: ls) (.term (.apply (.ref f.ref) t.asArguments)) := by
  have hblock : Denotes n .expr2 ls (.chain t []) := h.operandBlock.exprPostSingle.exprPreSingle.expr2Single
  have hcall := (denotes_joined f.atom n).expr2Single.exprApply (hblock.argsCons .argsNil)
  have happly : (Term.operateAll (.ref f.ref) []).applyTo [t] = .apply (.ref f.ref) (t.asArguments ++ []) := rfl
  rw [List.append_nil] at hcall happly
  exact happly ▸ hcall.expr1Single.expr0Single

theorem denotes_items (x : Atom) (rest : List (Comma × Atom)) {n : Nat} (hn : rest.length ≤ n) :
    ∃ t, Denotes n .expr0 (commaLexemes x rest) (.term t) ∧ t.items = commaItems .loose x rest := by
  by_cases hne : rest = []
  · subst hne
    exact ⟨x.term,(denotes_alone x n).expr1Single.expr0Single,x.items_term⟩
  · exact ⟨_,denotes_commaList hne hn,rfl⟩

theorem denotes_arguments (gap : List Char) (args : List Atom) {n : Nat} (hn : args.length ≤ n + 1) : ∃ stmts,
    Denotes (n + 1) .block (⟨.opening .paren, "("⟩ :: argumentLexemes gap args ++ [⟨.closing .paren, ")"⟩])
      (.term (.block (.enclosed .paren) stmts)) ∧ Term.asArguments (.block (.enclosed .paren) stmts) = args.map Atom.term := by
  cases args with
  | nil => exact ⟨[],.block .topNil,rfl⟩
  | cons x rest =>
    have hlength : (rest.map (Comma.before gap, ·)).length ≤ n := by
      rw [List.length_map]
      exact Nat.le_of_succ_le_succ hn
    obtain ⟨t,ht,hitems⟩ := denotes_items x (rest.map (Comma.before gap, ·)) hlength
    have hblock : Denotes (n + 1) .block
        (⟨.opening .paren, "("⟩ :: argumentLexemes gap (x :: rest) ++ [] ++ [⟨.closing .paren, ")"⟩])
        (.term (.block (.enclosed .paren) [t])) := ht.blockExpr .topNil
    rw [List.append_nil] at hblock
    exact ⟨[t],hblock,hitems.trans (commaItems_uniform (.inl rfl))⟩

end Parse

/-- A call passes the arguments that are written. The text of a symbol and of symbols and literals in parentheses, with blanks
after every comma or after none, compiles to one application of the symbol to as many arguments in their order. -/
theorem compile_call (f : Symbol) (args : List Atom) (hlength : args.length ≤ Parse.maxNesting) (hgap : Scan.Blank gap) :
    compile (callSource f gap args) = .ok (.block .top [.apply (.ref f.ref) (args.map Atom.term)]) := by
  have hlength' : args.length ≤ 999 + 1 := hlength
  obtain ⟨stmts,hblock,hargs⟩ := Parse.denotes_arguments gap args hlength'
  rw [← hargs]
  exact compile_line (Scan.scan_callSource f hgap args) (Parse.denotes_call f hblock)

/-- The same arguments with blanks and without, and none at all. -/
theorem compile_call_mixed :
    compile "f(a, 'b', 1.5)" = .ok (.block .top [.apply (.symbol "f") [.symbol "a", .str "'b'", .symbol "1.5"]]) ∧
    compile "f(a,'b',1.5)" = .ok (.block .top [.apply (.symbol "f") [.symbol "a", .str "'b'", .symbol "1.5"]]) ∧
    compile "f()" = .ok (.block .top [.apply (.symbol "f") []]) := by
  have hb : Scan.Enclosed .single ['b'] := .plain (by decide) (by decide) .nil
  have hc : Scan.IsSymbol (['1'] ++ ['.', '5']) := .decimal rfl (List.forall_mem_nil _) rfl (List.forall_mem_nil _)
  have hlength : 3 ≤ Parse.maxNesting := by decide
  have hblank : Scan.Blank [' '] := List.all_eq_true.mp rfl
  have hcall {gap : List Char} (hgap : Scan.Blank gap) := compile_call (.ofChar 'f' rfl)
    [(Symbol.ofChar 'a' rfl).atom, .literal .single _ hb, .symbol _ hc] hlength hgap
  exact ⟨hcall hblank,hcall (List.forall_mem_nil _),
    compile_call (.ofChar 'f' rfl) [] (Nat.zero_le _) (List.forall_mem_nil _)⟩

end Gapscript
