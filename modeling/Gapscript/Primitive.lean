import Gapscript.Action
import Gapscript.Text.Blank
import Gapscript.Text.Split

/-! # What the built-in functions do

Functions that call other functions are not among these. An argument of the wrong type is reported under the name of
the function, and arguments are looked at from left to right unless said otherwise.
-/

namespace Gapscript

variable {ν : Type}

namespace Value

/-- The complaint of the function `name` about an argument that is not what it expects. -/
def unexpected (name expected : String) (v : Value ν) : EvalError :=
  .typeError (name ++ " expects " ++ expected ++ ", got " ++ v.typeName)

def expectNumber (name : String) : Value ν → Except EvalError Float
  | .number x => .ok x
  | v => .error (v.unexpected name "a number")

def expectText (name : String) : Value ν → Except EvalError String
  | .text s => .ok s
  | v => .error (v.unexpected name "text")

def expectSeq (name : String) : Value ν → Except EvalError (List (Value ν))
  | .seq items => .ok items
  | v => .error (v.unexpected name "a seq")

/-- The sum of numbers, and texts or sequences one after the other. -/
def add : Value ν → Value ν → Except EvalError (Value ν)
  | .number x, .number y => .ok (.number (x + y))
  | .text s, .text t => .ok (.text (s ++ t))
  | .seq xs, .seq ys => .ok (.seq (xs ++ ys))
  | a, b => .error (.typeError ("cannot add " ++ a.typeName ++ " and " ++ b.typeName))

/-- An operation on two numbers. -/
def arith (name : String) (f : Float → Float → Float) (a b : Value ν) : Except EvalError (Value ν) := do
  let x ← a.expectNumber name
  let y ← b.expectNumber name
  return .number (f x y)

/-- An operation on two numbers of which the second must not be zero. -/
def divide (name : String) (f : Float → Float → Float) (a b : Value ν) : Except EvalError (Value ν) := do
  let x ← a.expectNumber name
  let y ← b.expectNumber name
  if y == 0.0 then throw (.failed name "division by zero") else return .number (f x y)

/-- The whole part of a number, or of the number that a text can be read as. -/
def toInt (name : String) : Value ν → Except EvalError (Value ν)
  | .number x => .ok (.number (Number.trunc x))
  | .text s =>
    match Number.read (Text.trim s) with
    | some x => .ok (.number (Number.trunc x))
    | none => .error (.failed name ("cannot convert " ++ Text.quote s ++ " to a number"))
  | v => .error (v.unexpected name "a number or text")

def floor (name : String) (v : Value ν) : Except EvalError (Value ν) := do
  return .number (Number.floor (← v.expectNumber name))

/-- The pieces of a text. An empty separator stands for runs of white space. -/
def split (name : String) (text sep : Value ν) : Except EvalError (Value ν) := do
  let text ← text.expectText name
  let sep ← sep.expectText name
  let pieces := if sep.isEmpty then Text.words text else Text.splitOn text sep
  return .seq (pieces.map .text)

def join (name : String) (seq sep : Value ν) : Except EvalError (Value ν) := do
  let items ← seq.expectSeq name
  let sep ← sep.expectText name
  return .text (Text.join sep (items.map display))

/-- The item at an index, which counts from zero. -/
def item (name : String) (seq index : Value ν) : Except EvalError (Value ν) := do
  let items ← seq.expectSeq name
  let index ← index.expectNumber name
  match (Number.toNat? index).bind (items[·]?) with
  | some v => return v
  | none =>
    throw (.failed name ("index " ++ Number.render index ++ s!" out of range for length {items.length}"))

end Value

/-- Find a member whose name is a value. -/
def Env.memberNamed (env : Env ν) (receiver name : Value ν) : Except EvalError (Value ν) :=
  match name with
  | .text name => env.member receiver name
  | v => .error (.typeError ("member name must be text, got " ++ v.typeName))

/-- Find the member named by the second of two arguments on the first. -/
def Env.fieldOrMethod (env : Env ν) (args : List (Value ν)) : Except EvalError (Value ν) :=
  match args with
  | [receiver, name] => env.memberNamed receiver name
  | _ => .error (.arityMismatch Primitive.fieldOrMethod.name 2 args.length)

namespace Primitive

def run (p : Primitive) (args : List (Value ν)) : Action ν (Value ν) :=
  match p, args with
  | .add, [a, b] => .lift (a.add b)
  | .sub, [a, b] => .lift (a.arith "-" (· - ·) b)
  | .mul, [a, b] => .lift (a.arith "*" (· * ·) b)
  | .div, [a, b] => .lift (a.divide "/" (· / ·) b)
  | .rem, [a, b] => .lift (a.divide "%" Number.remainder b)
  | .neg, [a] => .lift ((a.expectNumber "-").map fun x => .number (-x))
  | .list, items => pure (.seq items)
  | .stdin, [] => pure (.record "stdin" [])
  | .stdout, [] => pure (.record "stdout" [])
  | .int, [a] => .lift (a.toInt "int")
  | .floor, [a] => .lift (a.floor "floor")
  | .debug, [a] => do
    Action.writeDiagnostic "debug" ("[debug] " ++ a.inspect)
    return a
  | .split, [sep, text] => .lift (text.split "split" sep)
  | .fieldOrMethod, [receiver, name] => .reading (·.memberNamed receiver name)
  | p, args => .fail (.arityMismatch p.name p.arity.toNat args.length)

end Primitive

namespace PrimitiveMethod

def run (m : PrimitiveMethod) (receiver : Value ν) (args : List (Value ν)) : Action ν (Value ν) :=
  match m, args with
  | .read, [] => do
    return .text (← Action.readAll "stdin.read")
  | .write, [a] => do
    Action.write "stdout.write" a.display
    return .undefined
  | .textSplit, [sep] => .lift (receiver.split "text.split" sep)
  | .trim, [] => .lift ((receiver.expectText "text.trim").map fun s => .text (Text.trim s))
  | .textLen, [] => .lift ((receiver.expectText "text.len").map fun s => .number (Float.ofNat s.length))
  | .seqLen, [] => .lift ((receiver.expectSeq "seq.len").map fun items => .number (Float.ofNat items.length))
  | .get, [index] => .lift (receiver.item "seq.get" index)
  | .join, [sep] => .lift (receiver.join "seq.join" sep)
  | .floor, [] => .lift (receiver.floor "number.floor")
  | .int, [] => .lift (receiver.toInt "number.int")
  | m, args => .fail (.arityMismatch m.name m.arity.toNat args.length)

end PrimitiveMethod

end Gapscript
