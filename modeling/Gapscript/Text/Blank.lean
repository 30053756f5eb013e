/-! # White space

The characters with the property White_Space of the Unicode standard, and the two operations on texts that depend on
them. The scanner has a narrower notion of blank of its own.
-/

namespace Gapscript.Text

def isWhite (c : Char) : Bool :=
  let n := c.toNat
  (0x9 ≤ n && n ≤ 0xd) || n == 0x20 || n == 0x85 || n == 0xa0 || n == 0x1680 || (0x2000 ≤ n && n ≤ 0x200a) ||
    n == 0x2028 || n == 0x2029 || n == 0x202f || n == 0x205f || n == 0x3000

/-- `s` without white space at either end. -/
def trim (s : String) : String :=
  String.ofList ((s.toList.dropWhile isWhite).reverse.dropWhile isWhite).reverse

/-- The runs of characters other than white space in `cs`; `run` is the run before `cs`, last character first. -/
def wordsAfter (run : List Char) : List Char → List (List Char)
  | [] => if run.isEmpty then [] else [run.reverse]
  | c :: cs =>
    if isWhite c then
      if run.isEmpty then wordsAfter [] cs else run.reverse :: wordsAfter [] cs
    else
      wordsAfter (c :: run) cs

/-- The maximal runs of characters other than white space, in order. -/
def words (s : String) : List String := (wordsAfter [] s.toList).map String.ofList

end Gapscript.Text
