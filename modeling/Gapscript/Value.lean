import Gapscript.OrderedMap
import Gapscript.Number.Text
import Gapscript.Text.Quoted

/-! # Values

Functions among the values are either built in or belong to the embedding of the language. Of the latter a value holds
only a code, from a type `ν` that the embedding chooses; what a code does is said where values are called.
-/

namespace Gapscript

/-- Built-in functions that call no other function. -/
inductive Primitive where
  | add
  | sub
  | mul
  | div
  | rem
  | neg
  | list
  | stdin
  | stdout
  | int
  | floor
  | debug
  | split
  | fieldOrMethod
  deriving DecidableEq, Repr

namespace Primitive

def name : Primitive → String
  | .add => "+"
  | .sub => "-"
  | .mul => "*"
  | .div => "/"
  | .rem => "%"
  | .neg => "-"
  | .list => ","
  | .stdin => "stdin"
  | .stdout => "stdout"
  | .int => "int"
  | .floor => "floor"
  | .debug => "debug"
  | .split => "split"
  | .fieldOrMethod => "field-or-method"

/-- How many arguments it takes; a negative arity means any number. -/
def arity : Primitive → Int
  | .add | .sub | .mul | .div | .rem => 2
  | .neg => 1
  | .list => -1
  | .stdin | .stdout => 0
  | .int | .floor | .debug => 1
  | .split | .fieldOrMethod => 2

end Primitive

/-- Built-in methods that call no function. -/
inductive PrimitiveMethod where
  | read
  | write
  | textSplit
  | trim
  | textLen
  | seqLen
  | get
  | join
  | floor
  | int
  deriving DecidableEq, Repr

namespace PrimitiveMethod

def name : PrimitiveMethod → String
  | .read => "read"
  | .write => "write"
  | .textSplit => "split"
  | .trim => "trim"
  | .textLen => "len"
  | .seqLen => "len"
  | .get => "get"
  | .join => "join"
  | .floor => "floor"
  | .int => "int"

/-- How many arguments it takes beside the receiver. -/
def arity : PrimitiveMethod → Int
  | .read | .trim | .textLen | .seqLen | .floor | .int => 0
  | .write | .textSplit | .get | .join => 1

end PrimitiveMethod

/-- A function that is not tied to a receiver. -/
inductive Builtin (ν : Type) where
  | primitive (p : Primitive)
  | map
  | external (name : String) (arity : Int) (code : ν)

/-- A function that takes a receiver in front of its arguments. -/
inductive Method (ν : Type) where
  | primitive (m : PrimitiveMethod)
  | map
  | external (name : String) (arity : Int) (code : ν)

inductive Value (ν : Type) where
  | undefined
  | number (x : Float)
  | text (s : String)
  | seq (items : List (Value ν))
  | record (type : String) (fields : List (String × Value ν))
  | builtin (b : Builtin ν)
  /-- A method found for the type `type`, with its receiver. -/
  | method (type : String) (m : Method ν) (receiver : Value ν)

variable {ν : Type}

namespace Builtin

def name : Builtin ν → String
  | .primitive p => p.name
  | .map => "map"
  | .external name _ _ => name

def arity : Builtin ν → Int
  | .primitive p => p.arity
  | .map => 2
  | .external _ arity _ => arity

end Builtin

namespace Method

def name : Method ν → String
  | .primitive m => m.name
  | .map => "map"
  | .external name _ _ => name

def arity : Method ν → Int
  | .primitive m => m.arity
  | .map => 1
  | .external _ arity _ => arity

end Method

namespace Value

def typeName : Value ν → String
  | .undefined => "undefined"
  | .number _ => "number"
  | .text _ => "text"
  | .seq _ => "seq"
  | .record type _ => type
  | .builtin _ => "builtin"
  | .method _ _ _ => "method"

def asNumber? : Value ν → Option Float
  | .number x => some x
  | _ => none

def asText? : Value ν → Option String
  | .text s => some s
  | _ => none

def asSeq? : Value ν → Option (List (Value ν))
  | .seq items => some items
  | _ => none

/-- Set a field of a record; a field that is there keeps its place. Other values are left as they are. -/
def withField (v : Value ν) (name : String) (field : Value ν) : Value ν :=
  match v with
  | .record type fields => .record type (OrderedMap.insert fields name field)
  | v => v

mutual

/-- Whether two values are equal. Functions are equal if their names are, records if they have the same type and the
same fields in whatever order. A number may differ from itself. -/
def eq : Value ν → Value ν → Bool
  | .undefined, .undefined => true
  | .number x, .number y => x == y
  | .text s, .text t => s == t
  | .seq xs, .seq ys => eqAll xs ys
  | .record t fs, .record u gs => t == u && fs.length == gs.length && eqFields fs gs
  | .builtin a, .builtin b => a.name == b.name
  | .method t m r, .method u n s => t == u && m.name == n.name && eq r s
  | _, _ => false

def eqAll : List (Value ν) → List (Value ν) → Bool
  | [], [] => true
  | x :: xs, y :: ys => eq x y && eqAll xs ys
  | _, _ => false

/-- Whether each field of the first list stands in the second with an equal value. -/
def eqFields : List (String × Value ν) → OrderedMap String (Value ν) → Bool
  | [], _ => true
  | (name, x) :: fields, others =>
    (match others.get? name with
      | some y => eq x y
      | none => false) && eqFields fields others

end

instance : BEq (Value ν) := ⟨eq⟩

mutual

/-- The value as it is shown inside other values: texts are quoted. -/
def inspect : Value ν → String
  | .undefined => "undefined"
  | .number x => Number.render x
  | .text s => Text.quote s
  | .seq items => Text.bracketed (inspectAll items)
  | .record type [] => type ++ " \x7b\x7d"
  | .record type fields => type ++ " \x7b " ++ ", ".intercalate (inspectFields fields) ++ " \x7d"
  | .builtin b => "<builtin " ++ b.name ++ ">"
  | .method type m _ => "<method " ++ type ++ "." ++ m.name ++ ">"

def inspectAll : List (Value ν) → List String
  | [] => []
  | x :: xs => inspect x :: inspectAll xs

def inspectFields : List (String × Value ν) → List String
  | [] => []
  | (name, x) :: fields => (name ++ ": " ++ inspect x) :: inspectFields fields

end

/-- The value as it is written out: a text stands for itself. -/
def display : Value ν → String
  | .text s => s
  | v => v.inspect

end Value

end Gapscript
