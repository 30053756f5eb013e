/-! # Contexts and references

A name means nothing by itself: the same characters may be a symbol, an operator between two operands, an
operator before one or an operator after one. A reference is a text together with the context it stands in, and
the environment binds references, not texts.
-/

namespace Gapscript

/-- Where a name stands. The infix contexts are numbered by how tightly they bind. -/
inductive Context where
  | symbol
  | inop0
  | inop1
  | inop2
  | preop
  | postop
  deriving DecidableEq, Repr

def Context.name : Context → String
  | .symbol => "symbol"
  | .inop0 => "inop0"
  | .inop1 => "inop1"
  | .inop2 => "inop2"
  | .preop => "preop"
  | .postop => "postop"

structure Ref where
  context : Context
  text : String
  deriving DecidableEq, Repr

def Ref.symbol (text : String) : Ref := ⟨.symbol, text⟩

/-- The context, then the text between single quotes. -/
def Ref.describe (r : Ref) : String :=
  r.context.name ++ " '" ++ r.text ++ "'"

end Gapscript
