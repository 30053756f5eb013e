import Gapscript.Value

/-! # Method tables

Each type has its methods by name. Types and names are held in the order of their first definition.
-/

namespace Gapscript

abbrev MethodTable (ν : Type) := OrderedMap String (OrderedMap String (Method ν))

namespace MethodTable

variable {ν : Type}

/-- Define a method under its own name. -/
def define (table : MethodTable ν) (type : String) (m : Method ν) : MethodTable ν :=
  table.insert type (OrderedMap.insert ((table.get? type).getD []) m.name m)

def find? (table : MethodTable ν) (type name : String) : Option (Method ν) :=
  (table.get? type).bind fun methods => OrderedMap.get? methods name

/-- The names of the methods of a type. -/
def names (table : MethodTable ν) (type : String) : List String :=
  OrderedMap.keys ((table.get? type).getD [])

/-- Quoted type names, each with the quoted names of its methods. -/
def describe (table : MethodTable ν) : String :=
  let entry := fun (p : String × OrderedMap String (Method ν)) =>
    Text.quote p.1 ++ ": " ++ Text.bracketed ((OrderedMap.keys p.2).map Text.quote)
  "\x7b" ++ ", ".intercalate (table.map entry) ++ "\x7d"

end MethodTable

end Gapscript
