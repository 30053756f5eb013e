import Gapscript.Primitive

/-! # Calling values

A number called with anything is itself, and so is every other value without arguments that is no function. The two
functions that call others, `map` and the method of that name, hand an item of a sequence to a function; what is
called then is smaller than what was called before, so calls end however functions and sequences are put into one
another.
-/

namespace Gapscript

/-- What the functions of the embedding do. A method finds its receiver in front of its arguments. -/
abbrev Host (ν : Type) := ν → List (Value ν) → Action ν (Value ν)

variable {ν : Type}

/-- Refuse a wrong number of arguments; a negative arity takes any number. -/
def checkArity (name : String) (arity : Int) (args : List (Value ν)) : Action ν Unit :=
  if 0 ≤ arity ∧ arity ≠ args.length then .fail (.arityMismatch name arity.toNat args.length) else pure ()

/-- Call `f` with arguments that are already evaluated. -/
def call (host : Host ν) (f : Value ν) (args : List (Value ν)) : Action ν (Value ν) :=
  match f with
  | .number x => pure (.number x)
  | .builtin .map =>
    match args with
    | [g, .seq items] => do
      return .seq (← Action.each (fun (x : { x // x ∈ items }) => call host g [x.val]) items.attach)
    | [_, v] => .fail (v.unexpected "map" "a seq")
    | _ => .fail (.arityMismatch "map" 2 args.length)
  | .builtin (.primitive p) => do
    checkArity p.name p.arity args
    p.run args
  | .builtin (.external name arity code) => do
    checkArity name arity args
    host code args
  | .method type .map (.seq items) =>
    match args with
    | [g] => do
      return .seq (← Action.each (fun (x : { x // x ∈ items }) => call host g [x.val]) items.attach)
    | _ => .fail (.arityMismatch (type ++ ".map") 1 args.length)
  | .method type .map v =>
    match args with
    | [_] => .fail (v.unexpected "seq.map" "a seq")
    | _ => .fail (.arityMismatch (type ++ ".map") 1 args.length)
  | .method type (.primitive m) receiver => do
    checkArity (type ++ "." ++ m.name) m.arity args
    m.run receiver args
  | .method type (.external name arity code) receiver => do
    checkArity (type ++ "." ++ name) arity args
    host code (receiver :: args)
  | v =>
    match args with
    | [] => pure v
    | _ => .fail (.notCallable v.typeName)
termination_by sizeOf f + sizeOf args
decreasing_by
  · have := List.sizeOf_lt_of_mem x.property
    simp
    omega
  · have := List.sizeOf_lt_of_mem x.property
    simp
    omega

end Gapscript
