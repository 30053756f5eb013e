/-! # Maps that remember insertion order

A key keeps the place where it was first added: a later insertion of the same key only changes its value, and an
erasure closes the gap without moving the other keys.
-/

namespace Gapscript

abbrev OrderedMap (κ α : Type) := List (κ × α)

namespace OrderedMap

variable {κ α : Type} [DecidableEq κ]

def get? : OrderedMap κ α → κ → Option α
  | [], _ => none
  | (k, a) :: rest, key => if k = key then some a else get? rest key

def insert : OrderedMap κ α → κ → α → OrderedMap κ α
  | [], key, a => [(key, a)]
  | (k, b) :: rest, key, a => if k = key then (k, a) :: rest else (k, b) :: insert rest key a

def erase : OrderedMap κ α → κ → OrderedMap κ α
  | [], _ => []
  | (k, a) :: rest, key => if k = key then rest else (k, a) :: erase rest key

def contains (m : OrderedMap κ α) (key : κ) : Bool := (m.get? key).isSome

def keys {κ α : Type} (m : OrderedMap κ α) : List κ := m.map Prod.fst

end OrderedMap

end Gapscript
