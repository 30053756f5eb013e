import Gapscript.Env

/-! # Operations on environments

All that an embedding can do to an environment, as data: whatever happens to one is a list of operations, and an
environment is built if it comes about by operations on a new one.
-/
namespace Gapscript

/-- The operations that an environment offers. -/
inductive Operation (ν : Type) where
  | pushMacro (m : Macro)
  | popMacro (key : Ref)
  | pushBlock
  | popBlock
  | record (v : Value ν)
  | define (key : Ref) (v : Value ν)
  | defineMethod (type : String) (m : Method ν)
  | enter (max : Nat)
  | exit
  | streams (s : Streams)

namespace Operation

variable {ν : Type}

/-- The environment after an operation, which is the one before it if entering a level was refused. -/
def apply : Operation ν → Env ν → Env ν
  | .pushMacro m, env => env.pushMacro m
  | .popMacro key, env => (env.popMacro key).2
  | .pushBlock, env => env.pushBlock
  | .popBlock, env => env.popBlock.2
  | .record v, env => env.record v
  | .define key v, env => env.define key v
  | .defineMethod type m, env => env.defineMethod type m
  | .enter max, env =>
    match env.enter max with
    | .ok inside => inside
    | .error _ => env
  | .exit, env => env.exit
  | .streams s, env => { env with streams := s }

theorem apply_enter_of_ok {env inside : Env ν} {max : Nat} (h : env.enter max = .ok inside) :
    (enter max).apply env = inside := by
  simp [apply, h]

theorem apply_enter_of_error {env : Env ν} {max : Nat} {e : EvalError} (h : env.enter max = .error e) :
    (enter max).apply env = env := by
  simp [apply, h]

end Operation

/-- The environment after operations from left to right. -/
def Env.after {ν : Type} (env : Env ν) (ops : List (Operation ν)) : Env ν :=
  ops.foldl (fun env op => op.apply env) env

namespace Env

variable {ν : Type}

@[simp] theorem after_nil (env : Env ν) : env.after [] = env := rfl

@[simp] theorem after_cons (env : Env ν) (op : Operation ν) (ops : List (Operation ν)) :
    env.after (op :: ops) = (op.apply env).after ops := rfl

@[simp] theorem after_append (env : Env ν) (ops ops' : List (Operation ν)) :
    env.after (ops ++ ops') = (env.after ops).after ops' := List.foldl_append

def Built (env : Env ν) : Prop := ∃ streams ops, env = ({ streams } : Env ν).after ops

theorem Built.after {env : Env ν} (h : env.Built) (ops : List (Operation ν)) : (env.after ops).Built := by
  obtain ⟨streams,setup,rfl⟩ := h
  exact ⟨streams,setup ++ ops,(after_append _ setup ops).symm⟩

end Env

end Gapscript
