import Gapscript.Error
import Gapscript.Methods
import Gapscript.Stream

/-! # Environments

All that evaluation reads and changes. Blocks that are being evaluated have a frame each, innermost first. A frame
holds the result of the block so far and remembers the macros that were pushed while it was innermost, which go when
the block ends.
-/

namespace Gapscript

/-- A block that is being evaluated: its result so far and the keys of the macros it has pushed, latest first. -/
structure Frame (ν : Type) where
  result : Value ν := .undefined
  pushed : List Ref := []

structure Env (ν : Type) where
  bindings : OrderedMap Ref (Value ν) := []
  macros : MacroTable := []
  methods : MethodTable ν := []
  frames : List (Frame ν) := []
  depth : Nat := 0
  streams : Streams := {}

namespace Env

variable {ν : Type}

/-! ## Bindings and methods -/

def define (env : Env ν) (key : Ref) (v : Value ν) : Env ν :=
  { env with bindings := env.bindings.insert key v }

def get? (env : Env ν) (key : Ref) : Option (Value ν) := env.bindings.get? key

/-- Bind a function under its own name. -/
def defineBuiltin (env : Env ν) (context : Context) (b : Builtin ν) : Env ν :=
  env.define ⟨context, b.name⟩ (.builtin b)

def defineMethod (env : Env ν) (type : String) (m : Method ν) : Env ν :=
  { env with methods := env.methods.define type m }

/-! ## Macros -/

/-- Push a macro, for as long as the innermost block lasts. -/
def pushMacro (env : Env ν) (m : Macro) : Env ν :=
  { env with
    macros := env.macros.push m
    frames := match env.frames with
      | [] => []
      | f :: rest => { f with pushed := m.key :: f.pushed } :: rest }

/-- Forget the latest push of `key` that a block remembers, looking from the innermost block outwards. -/
def forget (key : Ref) : List (Frame ν) → List (Frame ν)
  | [] => []
  | f :: rest =>
    if key ∈ f.pushed then { f with pushed := f.pushed.erase key } :: rest else f :: forget key rest

/-- Take the innermost macro of `key` away; false if there is none. -/
def popMacro (env : Env ν) (key : Ref) : Bool × Env ν :=
  match env.macros.pop key with
  | (none, _) => (false, env)
  | (some _, macros) => (true, { env with macros, frames := forget key env.frames })

/-! ## Blocks -/

def blockDepth (env : Env ν) : Nat := env.frames.length

def pushBlock (env : Env ν) : Env ν :=
  { env with frames := {} :: env.frames }

/-- End the innermost block: its result, and the environment without the macros it has pushed. -/
def popBlock (env : Env ν) : Option (Value ν) × Env ν :=
  match env.frames with
  | [] => (none, env)
  | f :: frames =>
    (some f.result, { env with frames, macros := f.pushed.foldl (fun table key => (table.pop key).2) env.macros })

/-- Let `v` be the result so far of the innermost block. -/
def record (env : Env ν) (v : Value ν) : Env ν :=
  match env.frames with
  | [] => env
  | f :: rest => { env with frames := { f with result := v } :: rest }

/-! ## Nesting -/

/-- Go one level deeper, if that stays within `max`. -/
def enter (env : Env ν) (max : Nat) : Except EvalError (Env ν) :=
  if max ≤ env.depth then .error (.depthExceeded (env.depth + 1) max)
  else .ok { env with depth := env.depth + 1 }

def exit (env : Env ν) : Env ν :=
  { env with depth := env.depth - 1 }

/-! ## Members -/

/-- What `member` means on `receiver`: a field of a record, or else a method of its type, bound to it. -/
def member (env : Env ν) (receiver : Value ν) (member : String) : Except EvalError (Value ν) :=
  let method : Except EvalError (Value ν) :=
    match env.methods.find? receiver.typeName member with
    | some m => .ok (.method receiver.typeName m receiver)
    | none => .error (.unknownMember receiver.typeName member)
  match receiver with
  | .record _ fields =>
    match OrderedMap.get? fields member with
    | some field => .ok field
    | none => method
  | _ => method

/-! ## Description -/

/-- The sizes and tables of the environment. -/
def describe (env : Env ν) : String :=
  s!"Environment \x7b bindings: {env.bindings.length}, macros: " ++ env.macros.describe ++ ", methods: " ++
    env.methods.describe ++ s!", blocks: {env.blockDepth}, depth: {env.depth} \x7d"

end Env

end Gapscript
