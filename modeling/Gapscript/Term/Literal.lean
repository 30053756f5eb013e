import Gapscript.Term
import Gapscript.Number.Text

/-! # What literals denote -/

namespace Gapscript

namespace Term

/-- The character that a backslash and `c` stand for. -/
def escaped : Char → Char
  | 'n' => '\n'
  | 't' => '\t'
  | 'r' => '\r'
  | '0' => '\x00'
  | c => c

/-- Resolve the escapes between the quotes. A backslash with nothing after it stands for itself. -/
def resolve : List Char → List Char
  | [] => []
  | ['\\'] => ['\\']
  | '\\' :: c :: cs => escaped c :: resolve cs
  | c :: cs => c :: resolve cs

/-- The text of a string literal: its first and last characters are dropped, whatever they are. -/
def unescape (raw : String) : String :=
  String.ofList (resolve (raw.toList.drop 1).dropLast)

end Term

/-- The number that a symbol is, if it begins with a digit and can be read as one. -/
def Ref.number? (r : Ref) : Option Float :=
  match r.context, r.text.toList with
  | .symbol, c :: _ => if Number.isDecimalDigit c then Number.read r.text else none
  | _, _ => none

end Gapscript
