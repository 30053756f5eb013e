import Gapscript.Token

/-! # Syntax trees

A syntax tree keeps every token of the source. A branch is labelled by the grammar rule it was read by; nothing in
the type says how many children a rule has, since trees may also be given from outside.
-/

namespace Gapscript

namespace Tree

inductive Rule where
  | stmts
  | stmt
  | infix0
  | infix1
  | infix2
  | apply
  | args
  | prefixed
  | postfixed
  | block (b : Bracket)
  deriving DecidableEq, Repr

def Rule.name : Rule → String
  | .stmts => "stmts"
  | .stmt => "stmt"
  | .infix0 => "infix0"
  | .infix1 => "infix1"
  | .infix2 => "infix2"
  | .apply => "apply"
  | .args => "args"
  | .prefixed => "prefix"
  | .postfixed => "postfix"
  | .block .brace => "braceBlock"
  | .block .bracket => "bracketBlock"
  | .block .paren => "parenBlock"

end Tree

inductive Tree where
  | leaf (token : Token)
  | branch (rule : Tree.Rule) (children : List Tree)

/-- White space in front of a line of a dump. -/
def indentation (n : Nat) : String := String.ofList (List.replicate n ' ')

namespace Tree

def rule? : Tree → Option Rule
  | .leaf _ => none
  | .branch rule _ => some rule

mutual

/-- One line for each leaf, and for each branch a line in front of its children and one after them. -/
def dumpAt (indent : Nat) : Tree → String
  | .leaf token => indentation indent ++ token.describe ++ "\n"
  | .branch rule children =>
    indentation indent ++ rule.name ++ " \x7b\n" ++ dumpAllAt (indent + 2) children ++
      indentation indent ++ "\x7d\n"

def dumpAllAt (indent : Nat) : List Tree → String
  | [] => ""
  | t :: ts => dumpAt indent t ++ dumpAllAt indent ts

end

def dump (t : Tree) : String := t.dumpAt 0

mutual

/-- The tokens of the tree from left to right. -/
def leaves : Tree → List Token
  | .leaf token => [token]
  | .branch _ children => leavesAll children

def leavesAll : List Tree → List Token
  | [] => []
  | t :: ts => leaves t ++ leavesAll ts

end

mutual

/-- The number of levels; a leaf has one. -/
def height : Tree → Nat
  | .leaf _ => 1
  | .branch _ children => heightAll children + 1

def heightAll : List Tree → Nat
  | [] => 0
  | t :: ts => max (height t) (heightAll ts)

end

mutual

def branchCount : Tree → Nat
  | .leaf _ => 0
  | .branch _ children => branchCountAll children + 1

def branchCountAll : List Tree → Nat
  | [] => 0
  | t :: ts => branchCount t + branchCountAll ts

end

mutual

def leafCount : Tree → Nat
  | .leaf _ => 1
  | .branch _ children => leafCountAll children

def leafCountAll : List Tree → Nat
  | [] => 0
  | t :: ts => leafCount t + leafCountAll ts

end

end Tree

end Gapscript
