/-! # Taking a text apart at a separator -/

namespace Gapscript.Text

/-- The pieces between the occurrences of `sep` in `cs`, found from left to right without overlap; `piece` is what
stands before `cs` in the first of them, last character first. An empty separator occurs nowhere. -/
def splitAfter (sep piece : List Char) : List Char → List (List Char)
  | [] => [piece.reverse]
  | c :: cs =>
    if sep.isPrefixOf (c :: cs) ∧ sep ≠ [] then
      piece.reverse :: splitAfter sep [] ((c :: cs).drop sep.length)
    else
      splitAfter sep (c :: piece) cs
termination_by cs => cs.length
decreasing_by
  · rename_i h
    have : 0 < sep.length := List.length_pos_iff.2 h.2
    simp only [List.length_drop, List.length_cons]
    omega
  · simp

/-- The pieces of `s` between the occurrences of `sep`. -/
def splitOn (s sep : String) : List String :=
  (splitAfter sep.toList [] s.toList).map String.ofList

/-- The pieces one after another with `sep` between them. -/
def join (sep : String) : List String → String
  | [] => ""
  | [p] => p
  | p :: ps => p ++ sep ++ join sep ps

end Gapscript.Text
