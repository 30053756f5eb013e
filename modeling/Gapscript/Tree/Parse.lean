import Gapscript.Tree

/-! # Reading tokens as a syntax tree

A rule reads from the front of the remaining tokens. A rule that does not match leaves the tokens as they were, and
sequencing two rules keeps that: when the second fails, the tokens read by the first are given back.

Blocks and the right sides of infix operators are nested constructs, of which at most `maxNesting` may stand inside
one another. The rules for a given number of levels left are built from those for one level less, so the nesting
limit is also what makes the grammar's recursion end. The first construct refused for its depth is remembered, and
nothing nested is read after it.
-/

namespace Gapscript

/-- Why tokens are no program. -/
inductive ParseError where
  | trailingInput (token : Token)
  | tooDeep (max pos line : Nat)
  deriving DecidableEq, Repr

def ParseError.message : ParseError → String
  | .trailingInput t =>
    "unparsed input at " ++ t.kind.name ++ " '" ++ t.text ++ s!"' at pos={t.pos} (line={t.line})"
  | .tooDeep max pos line => s!"nesting deeper than {max} levels at pos={pos} (line={line})"

namespace Parse

/-- How many nested constructs may stand inside one another. -/
def maxNesting : Nat := 1000

/-- The tokens still to be read, and those that remained when a construct was first refused for its depth. -/
structure State where
  rest : List Token
  tooDeep : Option (List Token) := none
  deriving DecidableEq, Repr

end Parse

/-- A rule of the grammar: a result if it matches, and the state after it. -/
def Parse (α : Type) := Parse.State → Option α × Parse.State

namespace Parse

variable {α β : Type}

def pure (a : α) : Parse α := fun s => (some a, s)

/-- One rule after another. If the second does not match, what the first has read is given back. -/
def bind (p : Parse α) (f : α → Parse β) : Parse β := fun s =>
  match p s with
  | (none, s') => (none, s')
  | (some a, s') =>
    match f a s' with
    | (some b, s'') => (some b, s'')
    | (none, s'') => (none, { s'' with rest := s.rest })

instance : Monad Parse where
  pure := Parse.pure
  bind := Parse.bind

/-- The rule that matches anyway, with a result only if `p` does. -/
def optional (p : Parse α) : Parse (Option α) := fun s =>
  match p s with
  | (r, s') => (some r, s')

/-- At most one repetition of `p` for each token of `clock`. -/
def repeated (p : Parse α) : (clock : List Token) → State → List α × State
  | [], s => ([], s)
  | _ :: clock, s =>
    match p s with
    | (none, s') => ([], s')
    | (some a, s') =>
      match repeated p clock s' with
      | (as, s'') => (a :: as, s'')

/-- As many repetitions of `p` as match, for a rule that reads at least one token whenever it matches. -/
def many (p : Parse α) : Parse (List α) := fun s =>
  match repeated p s.rest s with
  | (as, s') => (some as, s')

/-- The next token, without reading it. -/
def peek : Parse Token := fun s => (s.rest.head?, s)

/-- Read the next token if it satisfies `p`. -/
def tokenIf (p : Token → Bool) : Parse Token := fun s =>
  match s.rest with
  | t :: rest => if p t then (some t, { s with rest }) else (none, s)
  | [] => (none, s)

def token (kind : Token.Kind) : Parse Token := tokenIf (·.kind = kind)

/-- The rule that never matches. -/
def fail : Parse α := fun s => (none, s)

/-- A nested construct with no level left for it. -/
def refused : Parse α := fun s => (none, { s with tooDeep := some s.rest })

/-- A nested construct, which is not tried once one was refused for its depth. -/
def nested (p : Parse α) : Parse α := fun s => if s.tooDeep.isSome then (none, s) else p s

/-- Operands of one tier with the operators between them. -/
structure Chain where
  first : Tree
  rest : List (Token × Tree)

namespace Chain

/-- The tree of a chain whose operators associate to the left. -/
def leftNested (rule : Tree.Rule) (c : Chain) : Tree :=
  c.rest.foldl (fun left (op, right) => .branch rule [left, .leaf op, right]) c.first

end Chain

/-- The nested constructs, for some number of levels left. -/
structure Inner where
  expr0 : Parse Tree
  chain1 : Parse Chain
  chain2 : Parse Chain
  delimited : Bracket → Parse Tree

/-- No level left. -/
def Inner.limit : Inner where
  expr0 := refused
  chain1 := refused
  chain2 := refused
  delimited _ := refused

section Rules

variable (inner : Inner)

def block : Parse Tree := do
  let t ← peek
  match t.kind with
  | .opening b => nested (inner.delimited b)
  | _ => fail

def literal : Parse Tree := do
  let t ← tokenIf fun t => t.kind = .word .symbol || t.kind.isString
  return .leaf t

def operand : Parse Tree := do
  match ← optional literal with
  | some t => return t
  | none => block inner

def exprPost : Parse Tree := do
  let x ← operand inner
  match ← optional (token (.word .postop)) with
  | some op => return .branch .postfixed [x, .leaf op]
  | none => return x

def exprPre : Parse Tree := do
  match ← optional (token (.word .preop)) with
  | some op => return .branch .prefixed [.leaf op, ← exprPost inner]
  | none => exprPost inner

/-- An operand and, after an operator of the tier, the rest of the chain. An operator with no operand to its right is
not part of the chain. -/
def chain (operand : Parse Tree) (context : Context) (more : Parse Chain) : Parse Chain := do
  let first ← operand
  let tail ← optional do
    let op ← token (.word context)
    let c ← nested more
    return (op, c)
  match tail with
  | some (op, c) => return ⟨first, (op, c.first) :: c.rest⟩
  | none => return ⟨first, []⟩

def chain2 : Parse Chain := chain (exprPre inner) .inop2 inner.chain2

def expr2 : Parse Tree := do
  let c ← chain2 inner
  return c.leftNested .infix2

def exprApply : Parse Tree := do
  let callee ← expr2 inner
  match ← many (expr2 inner) with
  | [] => return callee
  | args => return .branch .apply [callee, .branch .args args]

def chain1 : Parse Chain := chain (exprApply inner) .inop1 inner.chain1

def expr1 : Parse Tree := do
  let c ← chain1 inner
  return c.leftNested .infix1

def expr0 : Parse Tree := do
  let left ← expr1 inner
  let tail ← optional do
    let op ← token (.word .inop0)
    let right ← nested inner.expr0
    return (op, right)
  match tail with
  | some (op, right) => return .branch .infix0 [left, .leaf op, right]
  | none => return left

def stmt : Parse Tree := do
  let bol ← token .bol
  match ← optional (expr0 inner) with
  | some e => return .branch .stmt [.leaf bol, e]
  | none => return .branch .stmt [.leaf bol]

/-- The first statement of a block may follow the opening bracket directly. A line start with the place of its first
token is then put in front of it. -/
def implicitStmt : Parse Tree := do
  let first ← peek
  if first.kind = .bol then fail else
    let e ← expr0 inner
    return .branch .stmt [.leaf ⟨.bol, first.pos, first.line, "", ""⟩, e]

/-- The statements of a program or, with `inBlock`, of a block. There may be none, so this always matches. -/
def statements (inBlock : Bool) (s : State) : List Tree × State :=
  match (if inBlock then implicitStmt inner s else (none, s)) with
  | (first, s') =>
    match repeated (stmt inner) s'.rest s' with
    | (more, s'') => (first.toList ++ more, s'')

def stmts (inBlock : Bool) : Parse Tree := fun s =>
  match statements inner inBlock s with
  | (children, s') => (some (.branch .stmts children), s')

def delimited (b : Bracket) : Parse Tree := do
  let o ← token (.opening b)
  let body ← stmts inner true
  let c ← token (.closing b)
  return .branch (.block b) [.leaf o, body, .leaf c]

end Rules

/-- One level more. -/
def Inner.next (inner : Inner) : Inner where
  expr0 := Parse.expr0 inner
  chain1 := Parse.chain1 inner
  chain2 := Parse.chain2 inner
  delimited := Parse.delimited inner

/-- The nested constructs when `n` levels are left. -/
def Inner.upTo : Nat → Inner
  | 0 => .limit
  | n + 1 => (Inner.upTo n).next

/-- The place named by a nesting error: that of the construct refused, of the last token if none is left there, and
the start of the text if there are no tokens at all. -/
def refusalPlace (tokens rest : List Token) : Nat × Nat :=
  match rest.head? <|> tokens.getLast? with
  | some t => (t.pos, t.line)
  | none => (0, 1)

end Parse

/-- Read all of `tokens` as a program. A construct that was refused for its depth is reported before tokens that are
left over. -/
def Tree.parse (tokens : List Token) : Except ParseError Tree :=
  match Parse.statements (.upTo Parse.maxNesting) false ⟨tokens, none⟩ with
  | (_, ⟨_, some rest⟩) =>
    let (pos, line) := Parse.refusalPlace tokens rest
    .error (.tooDeep Parse.maxNesting pos line)
  | (_, ⟨t :: _, none⟩) => .error (.trailingInput t)
  | (children, ⟨[], none⟩) => .ok (.branch .stmts children)

end Gapscript
