import Gapscript.Tree

/-! # Terms

What a program means before it is run: references, string literals, applications, assignments and blocks. A comma
list is the application of the operator that builds one.
-/

namespace Gapscript

/-- The whole program or a part of it between brackets. -/
inductive BlockKind where
  | top
  | enclosed (b : Bracket)
  deriving DecidableEq, Repr

def BlockKind.name : BlockKind → String
  | .top => "topBlock"
  | .enclosed b => (Tree.Rule.block b).name

inductive Term where
  | block (kind : BlockKind) (stmts : List Term)
  | assign (targets : List Ref) (value : Term)
  | apply (operator : Term) (args : List Term)
  | ref (r : Ref)
  /-- A string literal as it stands in the source, quotes and escapes included. -/
  | str (raw : String)

namespace Term

def symbol (text : String) : Term := .ref (.symbol text)

/-- The reference that an application of builds a list. -/
def listOperator : Ref := ⟨.postop, ","⟩

def list (items : List Term) : Term := .apply (.ref listOperator) items

def isList : Term → Bool
  | .apply (.ref r) _ => r = listOperator
  | _ => false

/-- The items of a comma list; any other term is one item. -/
def items : Term → List Term
  | t@(.apply (.ref r) args) => if r = listOperator then args else [t]
  | t => [t]

/-- A quote or a backslash needs a backslash in front of it. -/
def escapeQuoted : List Char → List Char
  | [] => []
  | c :: cs => if c = '"' ∨ c = '\\' then '\\' :: c :: escapeQuoted cs else c :: escapeQuoted cs

/-- The source of a string literal that denotes `text`. -/
def quotedRaw (text : String) : String :=
  String.ofList ('"' :: (escapeQuoted text.toList ++ ['"']))

def quoted (text : String) : Term := .str (quotedRaw text)

mutual

def dumpAt (indent : Nat) : Term → String
  | .block kind stmts =>
    indentation indent ++ "Block " ++ kind.name ++ " \x7b\n" ++ dumpAllAt (indent + 2) stmts ++
      indentation indent ++ "\x7d\n"
  | .assign targets value =>
    indentation indent ++ "Assign \x7b\n" ++ indentation indent ++ "  targets:\n" ++
      dumpRefsAt (indent + 4) targets ++ indentation indent ++ "  value:\n" ++ dumpAt (indent + 4) value ++
      indentation indent ++ "\x7d\n"
  | .apply operator args =>
    indentation indent ++ "Apply \x7b\n" ++ indentation indent ++ "  operator:\n" ++
      dumpAt (indent + 4) operator ++ indentation indent ++ "  args:\n" ++ dumpAllAt (indent + 4) args ++
      indentation indent ++ "\x7d\n"
  | .ref r => indentation indent ++ "Ref " ++ r.describe ++ "\n"
  | .str raw => indentation indent ++ "Str " ++ raw ++ "\n"

def dumpAllAt (indent : Nat) : List Term → String
  | [] => ""
  | t :: ts => dumpAt indent t ++ dumpAllAt indent ts

def dumpRefsAt (indent : Nat) : List Ref → String
  | [] => ""
  | r :: rs => indentation indent ++ "Ref " ++ r.describe ++ "\n" ++ dumpRefsAt indent rs

end

/-- The term with one construct a line and its parts indented. -/
def dump (t : Term) : String := t.dumpAt 0

mutual

/-- The number of levels; a reference or a literal has one. The targets of an assignment are not parts of it. -/
def height : Term → Nat
  | .block _ stmts => heightAll stmts + 1
  | .assign _ value => height value + 1
  | .apply operator args => max (height operator) (heightAll args) + 1
  | .ref _ => 1
  | .str _ => 1

def heightAll : List Term → Nat
  | [] => 0
  | t :: ts => max (height t) (heightAll ts)

end

mutual

def nodeCount : Term → Nat
  | .block _ stmts => nodeCountAll stmts + 1
  | .assign _ value => nodeCount value + 1
  | .apply operator args => nodeCount operator + nodeCountAll args + 1
  | .ref _ => 1
  | .str _ => 1

def nodeCountAll : List Term → Nat
  | [] => 0
  | t :: ts => nodeCount t + nodeCountAll ts

end

end Term

end Gapscript
