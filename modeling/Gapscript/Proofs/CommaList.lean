import Gapscript.Proofs.Atoms
import Gapscript.Proofs.Meaning
import Gapscript.Proofs.Scanning

/-! # Lists with commas

A comma with a blank after it closes its operand and one without joins the operands on both sides. Both make a list, and
they may be mixed, but the lists differ where a comma that joins is followed by one that closes: the operand between them
is closed first and becomes a list of its own inside the outer one.
-/
namespace Gapscript

/-- A comma between two operands, without or with a blank after it. -/
inductive Comma where
  | tight
  | loose
  deriving DecidableEq, Repr

namespace Comma

def source : Comma → String
  | tight => ","
  | loose => ", "

def lexeme : Comma → Lexeme
  | tight => ⟨.word .inop2, ","⟩
  | loose => ⟨.word .postop, ","⟩

end Comma

/-- The text of a list. -/
def commaSource (x : Atom) : List (Comma × Atom) → String
  | [] => x.source
  | (comma, y) :: rest => x.source ++ comma.source ++ commaSource y rest

def commaLexemes (x : Atom) : List (Comma × Atom) → List Lexeme
  | [] => [x.lexeme]
  | (comma, y) :: rest => x.lexeme :: comma.lexeme :: commaLexemes y rest

/-- The items of a list that goes on with `x` after the comma `before`. -/
def commaItems (before : Comma) (x : Atom) : List (Comma × Atom) → List Term
  | [] => [x.term]
  | (comma, y) :: rest =>
    (if before = .tight ∧ comma = .loose then .list [x.term] else x.term) :: commaItems comma y rest

variable {x y : Atom} {comma : Comma} {rest : List (Comma × Atom)}

/-! ## Reading the text -/

namespace Scan

variable {P : State → Prop} {ls : List Lexeme}

/-- The lexemes `ls`, last first, and a comma are read. A comma without a blank after it may still go on; where it stands
does not matter. -/
def AtComma (ls : List Lexeme) : Comma → State → Prop
  | .tight => At ls (.operator ⟨0, 1, []⟩ [','] true)
  | .loose => At (Comma.loose.lexeme :: ls) (.gap false [])

theorem leads_atComma (comma : Comma) : Leads (AtOperand ls) comma.source.toList (AtComma ls comma) := by
  cases comma with
  | tight => exact leads_comma
  | loose =>
    have hcomma : Leads (AtOperand ls) _ (At ls (.operator ⟨0, 1, []⟩ [','] true)) := leads_comma
    exact hcomma.append leads_blank

theorem leads_operand (comma : Comma) (y : Atom) :
    Leads (AtComma ls comma) y.source.toList (AtOperand (y.lexeme :: comma.lexeme :: ls)) := by
  rw [Atom.source, String.toList_ofList]
  cases comma with
  | tight => exact leads_tight_atom y
  | loose => exact leads_atom y

theorem leads_commaSource (hx : Leads P x.source.toList (AtOperand (x.lexeme :: ls))) :
    Leads P (commaSource x rest).toList (AtOperand ((commaLexemes x rest).reverse ++ ls)) := by
  induction rest generalizing P ls x with
  | nil => exact hx
  | cons link rest ih =>
    obtain ⟨comma,y⟩ := link
    have hcomma := hx.append (leads_atComma comma)
    have hrest := hcomma.append (ih (leads_operand comma y))
    rw [commaSource, String.toList_append, String.toList_append]
    simpa [commaLexemes] using hrest

theorem scan_commaSource (x : Atom) (rest : List (Comma × Atom)) : ∃ us, Token.scan (commaSource x rest) = .ok us ∧
    us.map Token.lexeme = ⟨.bol, ""⟩ :: commaLexemes x rest := by
  have hx : Leads (At [⟨.bol, ""⟩] (.gap false [])) x.source.toList (AtOperand [x.lexeme, ⟨.bol, ""⟩]) := by
    rw [Atom.source, String.toList_ofList]
    exact leads_atom x
  exact scan_line (leads_commaSource hx)

end Scan

/-! ## The items of a list -/

theorem Atom.items_term (x : Atom) : x.term.items = [x.term] := by
  cases x with
  | symbol | literal => rfl

namespace Term

theorem operateAll_commas {links : List (Ref × Term)} (h : ∀ link ∈ links, link.1.text = ",") (xs : List Term) :
    (list xs).operateAll links = list (xs ++ links.map Prod.snd) := by
  induction links generalizing xs with
  | nil => rw [List.map_nil, List.append_nil]; rfl
  | cons link links ih =>
    obtain ⟨hlink,hlinks⟩ := List.forall_mem_cons.mp h
    have hfirst : (list xs).operate link.1 link.2 = list (xs ++ [link.2]) := if_pos hlink
    have hrest := ih hlinks (xs ++ [link.2])
    rw [← hfirst, List.append_assoc] at hrest
    exact hrest

theorem applyTo_of_isList {t : Term} (h : t.isList) (args : List Term) :
    t.applyTo args = list (t.items ++ args.flatMap items) := by
  cases args with
  | nil => rw [List.flatMap_nil, List.append_nil, list_items h]; rfl
  | cons arg args => exact if_pos h

end Term

/-! ## The meaning of the lexemes -/

namespace Parse
open Grammar

theorem denotes_atom (x : Atom) (n : Nat) : Denotes n .operand [x.lexeme] (.term x.term) := by
  cases x with
  | symbol => exact .symbol
  | literal => exact .string

theorem denotes_joined (x : Atom) (n : Nat) : Denotes n .exprPre [x.lexeme] (.term x.term) :=
  .exprPreSingle (.exprPostSingle (denotes_atom x n))

theorem denotes_alone (x : Atom) (n : Nat) : Denotes n .exprApply [x.lexeme] (.term x.term) :=
  (denotes_joined x n).expr2Single.exprApply .argsNil

theorem denotes_closed (x : Atom) (n : Nat) :
    Denotes n .exprPre [x.lexeme, Comma.loose.lexeme] (.term (.list [x.term])) :=
  .exprPreSingle (denotes_atom x n).exprPostfixed

/-- The lexemes of a list are those of a first chain and of the arguments after it. The chain gives other items by itself
than it does when a comma in front joins it to more operands. -/
structure Splits (x : Atom) (rest : List (Comma × Atom)) (u v : List Lexeme) (t : Term) (links : List (Ref × Term))
    (ts : List Term) : Prop where
  lexemes : u ++ v = commaLexemes x rest
  chain {n : Nat} (hn : rest.length ≤ n) : Denotes n .expr2 u (.chain t links)
  args {n : Nat} (hn : rest.length ≤ n) : Denotes n .args v (.list ts)
  commas : ∀ link ∈ links, link.1.text = ","
  alone : (t.operateAll links).items ++ ts.flatMap Term.items = commaItems .loose x rest
  joined : t :: links.map Prod.snd ++ ts.flatMap Term.items = commaItems .tight x rest
  isList (hrest : rest ≠ []) : (t.operateAll links).isList

variable {u v : List Lexeme} {t : Term} {links : List (Ref × Term)} {ts : List Term}

theorem Splits.single (x : Atom) : Splits x [] [x.lexeme] [] x.term [] [] where
  lexemes := rfl
  chain _ := (denotes_joined x _).expr2Single
  args _ := .argsNil
  commas := nofun
  alone := by rw [List.flatMap_nil, List.append_nil]; exact x.items_term
  joined := rfl
  isList := nofun

/-- A comma with a blank after it ends the chain, and what comes next is the first argument. -/
theorem Splits.loose (h : Splits y rest u v t links ts) (x : Atom) : Splits x ((.loose, y) :: rest)
    [x.lexeme, Comma.loose.lexeme] (u ++ v) (.list [x.term]) [] (t.operateAll links :: ts) where
  lexemes := by rw [h.lexemes]; rfl
  chain _ := (denotes_closed x _).expr2Single
  args hn := (h.chain (Nat.le_of_succ_le hn)).argsCons (h.args (Nat.le_of_succ_le hn))
  commas := nofun
  alone := by rw [List.flatMap_cons, h.alone]; rfl
  joined := by rw [List.flatMap_cons, h.alone]; rfl
  isList _ := rfl

/-- A comma without a blank joins its operand to the chain. -/
theorem Splits.tight (h : Splits y rest u v t links ts) (x : Atom) : Splits x ((.tight, y) :: rest)
    (x.lexeme :: Comma.tight.lexeme :: u) v x.term ((⟨.inop2, ","⟩, t) :: links) ts := by
  have hvalue : x.term.operateAll ((⟨.inop2, ","⟩, t) :: links) = .list (x.term :: t :: links.map Prod.snd) := by
    have hfirst : x.term.operate ⟨.inop2, ","⟩ t = .list [x.term, t] := by
      rw [Term.operate, if_pos rfl, x.items_term]
      rfl
    have hrest := Term.operateAll_commas h.commas [x.term, t]
    rw [← hfirst] at hrest
    exact hrest
  have hitems : x.term :: t :: links.map Prod.snd ++ ts.flatMap Term.items = x.term :: commaItems .tight y rest := by
    rw [← h.joined]
    rfl
  constructor
  case lexemes =>
    rw [commaLexemes, ← h.lexemes]
    rfl
  case chain =>
    rintro (_ | n) hn
    · cases hn
    · exact (denotes_joined x _).expr2Infix (h.chain (Nat.le_of_succ_le_succ hn))
  case args =>
    intro n hn
    exact h.args (Nat.le_of_succ_le hn)
  case commas => exact List.forall_mem_cons.mpr ⟨rfl,h.commas⟩
  case alone =>
    rw [hvalue]
    exact hitems
  case joined => exact hitems
  case isList =>
    intro _
    rw [hvalue]
    rfl

theorem exists_splits (x : Atom) (rest : List (Comma × Atom)) :
    ∃ u v t links ts, Splits x rest u v t links ts := by
  induction rest generalizing x with
  | nil => exact ⟨_,_,_,_,_,.single x⟩
  | cons link rest ih =>
    obtain ⟨comma,y⟩ := link
    obtain ⟨u,v,t,links,ts,hy⟩ := ih y
    cases comma with
    | tight => exact ⟨_,_,_,_,_,hy.tight x⟩
    | loose => exact ⟨_,_,_,_,_,hy.loose x⟩

theorem denotes_commaList (hne : rest ≠ []) {n : Nat} (hn : rest.length ≤ n) :
    Denotes n .expr0 (commaLexemes x rest) (.term (.list (commaItems .loose x rest))) := by
  obtain ⟨u,v,t,links,ts,h⟩ := exists_splits x rest
  have happly := (h.chain hn).exprApply (h.args hn)
  rw [h.lexemes, Term.applyTo_of_isList (h.isList hne), h.alone] at happly
  exact happly.expr1Single.expr0Single

end Parse

/-! ## Lists without lists inside -/

theorem item_eq_iff {before : Comma} :
    (if before = .tight ∧ comma = .loose then .list [x.term] else x.term) = x.term ↔
      (before = .tight → comma = .tight) := by
  have hne : Term.list [x.term] ≠ x.term := by
    cases x with
    | symbol | literal => nofun
  cases before <;> cases comma <;> simp [hne]

/-- The operands are the items just if no comma without a blank is followed by one with a blank. -/
theorem commaItems_eq_iff {before : Comma} : commaItems before x rest = x.term :: rest.map (·.2.term) ↔
    (before :: rest.map Prod.fst).IsChain fun p q => p = .tight → q = .tight := by
  induction rest generalizing x before with
  | nil => simp [commaItems]
  | cons link rest ih =>
    obtain ⟨comma,y⟩ := link
    rw [commaItems, List.map_cons, List.map_cons, List.cons.injEq, item_eq_iff, ih, List.isChain_cons_cons]

/-- A list of symbols and literals compiles to one list. Its items are the operands just if no comma without a blank is
followed by one with a blank. -/
theorem compile_commaList (x : Atom) (rest : List (Comma × Atom)) (hne : rest ≠ [])
    (hlength : rest.length ≤ Parse.maxNesting) :
    compile (commaSource x rest) = .ok (.block .top [.list (commaItems .loose x rest)]) ∧
      (commaItems .loose x rest = x.term :: rest.map (·.2.term) ↔
        (rest.map Prod.fst).IsChain fun p q => p = .tight → q = .tight) := by
  constructor
  · obtain ⟨us,hscan,hus⟩ := Scan.scan_commaSource x rest
    refine compile_eq_ok_iff.mpr ⟨us,_,hscan,?_,rfl⟩
    rw [hus]
    exact (Parse.denotes_commaList hne hlength).line
  · rw [commaItems_eq_iff]
    cases rest with
    | nil => exact absurd rfl hne
    | cons link rest =>
      rw [List.map_cons, List.isChain_cons_cons]
      exact and_iff_right nofun

/-- A list with both commas whose items are its operands. -/
theorem compile_commaList_mixed :
    compile "a, 'b',1.5" = .ok (.block .top [.list [.symbol "a", .str "'b'", .symbol "1.5"]]) := by
  have ha : Scan.IsSymbol ['a'] := .word rfl nofun
  have hb : Scan.Enclosed .single ['b'] := .plain (by decide) (by decide) .nil
  have hc : Scan.IsSymbol (['1'] ++ ['.', '5']) := .decimal rfl nofun rfl nofun
  have hlength : 2 ≤ Parse.maxNesting := by decide
  have hlist := compile_commaList (.symbol _ ha) [(.loose, .literal .single _ hb), (.tight, .symbol _ hc)] nofun hlength
  have hflat := hlist.2.mpr (by simp)
  rw [hflat] at hlist
  exact hlist.1

/-- The operand between a comma without a blank and one with a blank is a list of its own. -/
theorem compile_commaList_nested :
    compile "a,b, c" = .ok (.block .top [.list [.symbol "a", .list [.symbol "b"], .symbol "c"]]) ∧
      compile "a,b, c" ≠ .ok (.block .top [.list [.symbol "a", .symbol "b", .symbol "c"]]) := by
  have hnested : compile "a,b, c" = .ok (.block .top [.list [.symbol "a", .list [.symbol "b"], .symbol "c"]]) := rfl
  refine ⟨hnested,?_⟩
  rw [hnested]
  nofun

end Gapscript
