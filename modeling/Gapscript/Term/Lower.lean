import Gapscript.Term

/-! # From syntax trees to terms

A tree from the parser fails only for what stands to the left of an assignment. A tree from elsewhere may have a rule
where it cannot stand, a wrong number of children, or a token that names nothing.
-/

namespace Gapscript

/-- Why a tree is no term. -/
inductive LowerError where
  | unexpectedNode (rule : Tree.Rule)
  | malformedNode (rule : Tree.Rule) (children : Nat)
  | unexpectedToken (kind : Token.Kind)
  | invalidTarget (found : String)
  deriving DecidableEq, Repr

def LowerError.message : LowerError → String
  | .unexpectedNode rule => "unknown node type: " ++ rule.name
  | .malformedNode rule children => "malformed " ++ rule.name ++ s!" node with {children} children"
  | .unexpectedToken kind => "unknown token context: " ++ kind.name
  | .invalidTarget found => "invalid assignment target: " ++ found

namespace Term

/-- What kind of term it is, in a word or two. -/
def kindName : Term → String
  | .block kind _ => kind.name
  | .assign _ _ => "assignment"
  | .apply _ _ => "application"
  | .ref r => r.describe
  | .str raw => "string " ++ raw

def asRef : Term → Except LowerError Ref
  | .ref r => .ok r
  | t => .error (.invalidTarget t.kindName)

/-- The references that can be assigned to: a single one or those of a comma list. -/
def targets : Term → Except LowerError (List Ref)
  | .ref r => .ok [r]
  | t => if t.isList then t.items.mapM asRef else .error (.invalidTarget t.kindName)

/-- What a parenthesised argument contributes: nothing if empty, the items of a single statement, and the block itself
if there are more statements. -/
def spread : Term → List Term
  | .block _ [] => []
  | .block _ [stmt] => stmt.items
  | t => [t]

def ofToken (t : Token) : Except LowerError Term :=
  match t.kind with
  | .word c => .ok (.ref ⟨c, t.text⟩)
  | .string _ => .ok (.str t.text)
  | kind => .error (.unexpectedToken kind)

/-- Whether the tree is a comma. -/
def isComma : Tree → Bool
  | .leaf t => t.text = ","
  | .branch _ _ => false

mutual

/-- The term of an expression. -/
def ofExpr : Tree → Except LowerError Term
  | .leaf t => ofToken t
  | .branch .infix0 [left, _, right] => do
    let targets ← (← ofExpr left).targets
    return .assign targets (← ofExpr right)
  | .branch .infix1 [left, op, right] => do
    if isComma op then
      return list ((← ofExpr left).items ++ [← ofExpr right])
    else
      return .apply (← ofExpr op) [← ofExpr left, ← ofExpr right]
  | .branch .infix2 [left, op, right] => do
    if isComma op then
      return list ((← ofExpr left).items ++ [← ofExpr right])
    else
      return .apply (← ofExpr op) [← ofExpr left, ← ofExpr right]
  | .branch .apply [callee, .branch .args args] => do
    let callee ← ofExpr callee
    if callee.isList then
      return list (callee.items ++ (← listArgs args))
    else
      return .apply callee (← callArgs args)
  | .branch .apply [_, .branch rule _] => .error (.unexpectedNode rule)
  | .branch .prefixed [op, operand] => do
    return .apply (← ofExpr op) [← ofExpr operand]
  | .branch .postfixed [operand, op] => do
    return .apply (← ofExpr op) [← ofExpr operand]
  | .branch (.block b) [_, .branch _ body, _] => do
    return .block (.enclosed b) (← ofStmts body)
  | .branch (.block b) [_, .leaf _, _] => .ok (.block (.enclosed b) [])
  | .branch .stmts _ => .error (.unexpectedNode .stmts)
  | .branch .stmt _ => .error (.unexpectedNode .stmt)
  | .branch .args _ => .error (.unexpectedNode .args)
  | .branch rule children => .error (.malformedNode rule children.length)

/-- The items that follow the first ones of a comma list. -/
def listArgs : List Tree → Except LowerError (List Term)
  | [] => .ok []
  | arg :: args => do
    let first := (← ofExpr arg).items
    return first ++ (← listArgs args)

/-- The arguments of a call. -/
def callArgs : List Tree → Except LowerError (List Term)
  | [] => .ok []
  | arg :: args => do
    let t ← ofExpr arg
    let first := if arg.rule? = some (.block .paren) then t.spread else [t]
    return first ++ (← callArgs args)

/-- The terms of statements. A line start with nothing after it is an empty line. -/
def ofStmts : List Tree → Except LowerError (List Term)
  | [] => .ok []
  | .branch .stmt (_ :: e :: _) :: rest => do
    let t ← ofExpr e
    return t :: (← ofStmts rest)
  | .branch .stmt _ :: rest => ofStmts rest
  | .branch rule _ :: _ => .error (.unexpectedNode rule)
  | .leaf t :: _ => .error (.unexpectedToken t.kind)

end

theorem ofExpr_word {t : Token} {c : Context} (h : t.kind = .word c) : ofExpr (.leaf t) = .ok (.ref ⟨c, t.text⟩) := by
  simp [ofExpr, ofToken, h]

theorem ofExpr_string {t : Token} {q : Quote} (h : t.kind = .string q) : ofExpr (.leaf t) = .ok (.str t.text) := by
  simp [ofExpr, ofToken, h]

/-- The term of a program. -/
def ofTree : Tree → Except LowerError Term
  | .branch .stmts children => do
    return .block .top (← ofStmts children)
  | .branch rule _ => .error (.unexpectedNode rule)
  | .leaf t => .error (.unexpectedToken t.kind)

end Term

end Gapscript
