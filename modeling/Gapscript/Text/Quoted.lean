import Gapscript.Text.Hidden

/-! # Texts as they are shown inside other values

Between double quotes, with an escape for the quote, the backslash, the usual control characters and every character
that a reader could not see.
-/

namespace Gapscript.Text

def escapeChar (c : Char) : String :=
  match c with
  | '\x00' => "\\0"
  | '\t' => "\\t"
  | '\n' => "\\n"
  | '\r' => "\\r"
  | '"' => "\\\""
  | '\\' => "\\\\"
  | _ =>
    if isHidden c then
      "\\u\x7b" ++ String.ofList (Nat.toDigits 16 c.toNat) ++ "\x7d"
    else
      String.singleton c

def quote (s : String) : String :=
  "\"" ++ (s.toList.map escapeChar).foldr (· ++ ·) "" ++ "\""

/-- Items between square brackets. -/
def bracketed (items : List String) : String :=
  "[" ++ ", ".intercalate items ++ "]"

end Gapscript.Text
