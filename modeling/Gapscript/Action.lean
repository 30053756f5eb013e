import Gapscript.Env

/-! # Actions on an environment

An action ends in a value or an error and leaves an environment in either case. It may also be cut short before it
ends, which is neither a value nor an error of the language.
-/

namespace Gapscript

inductive Outcome (ε α : Type) where
  | value (a : α)
  | error (e : ε)
  | unfinished

namespace Outcome

variable {ε ε' α : Type}

def mapError (f : ε → ε') : Outcome ε α → Outcome ε' α
  | .value a => .value a
  | .error e => .error (f e)
  | .unfinished => .unfinished

def ofExcept : Except ε α → Outcome ε α
  | .ok a => .value a
  | .error e => .error e

end Outcome

def Action (ν α : Type) := Env ν → Outcome EvalError α × Env ν

namespace Action

variable {ν α β : Type}

def pure (a : α) : Action ν α := fun env => (.value a, env)

def bind (act : Action ν α) (f : α → Action ν β) : Action ν β := fun env =>
  match act env with
  | (.value a, env') => f a env'
  | (.error e, env') => (.error e, env')
  | (.unfinished, env') => (.unfinished, env')

instance : Monad (Action ν) where
  pure := Action.pure
  bind := Action.bind

def fail (e : EvalError) : Action ν α := fun env => (.error e, env)

/-- The action that is cut short. -/
def unfinished : Action ν α := fun env => (.unfinished, env)

def modify (f : Env ν → Env ν) : Action ν Unit := fun env => (.value (), f env)

/-- Compute something from the environment without changing it. -/
def reading (f : Env ν → Except EvalError α) : Action ν α := fun env => (.ofExcept (f env), env)

def lift (r : Except EvalError α) : Action ν α := fun env => (.ofExcept r, env)

/-- Do `f` for each item in turn. -/
def each (f : α → Action ν β) : List α → Action ν (List β)
  | [] => pure []
  | a :: as => bind (f a) fun b => bind (each f as) fun bs => pure (b :: bs)

/-- Read all of the input on behalf of `name`. -/
def readAll (name : String) : Action ν String := fun env =>
  match env.streams.input.readAll with
  | (.ok text, input) => (.value text, { env with streams := { env.streams with input } })
  | (.error e, input) => (.error (.stream name e), { env with streams := { env.streams with input } })

/-- Write to the output on behalf of `name`. -/
def write (name text : String) : Action ν Unit := fun env =>
  match env.streams.output.write text with
  | (.ok _, output) => (.value (), { env with streams := { env.streams with output } })
  | (.error e, output) => (.error (.stream name e), { env with streams := { env.streams with output } })

/-- Write a line to the diagnostics on behalf of `name`. -/
def writeDiagnostic (name line : String) : Action ν Unit := fun env =>
  match env.streams.diagnostics.write (line ++ "\n") with
  | (.ok _, diagnostics) => (.value (), { env with streams := { env.streams with diagnostics } })
  | (.error e, diagnostics) => (.error (.stream name e), { env with streams := { env.streams with diagnostics } })

/-- Do `act` one level deeper, if that stays within `max`, and come back whatever its outcome. -/
def nested (max : Nat) (act : Action ν α) : Action ν α := fun env =>
  match env.enter max with
  | .error e => (.error e, env)
  | .ok inside =>
    match act inside with
    | (r, env') => (r, env'.exit)

/-- Do `act` inside a block of its own, which ends with it whatever its outcome. The value is what the block has
recorded last. -/
def inBlock (act : Action ν Unit) : Action ν (Value ν) := fun env =>
  match act env.pushBlock with
  | (.value _, env') => (.value (env'.popBlock.1.getD .undefined), env'.popBlock.2)
  | (.error e, env') => (.error e, env'.popBlock.2)
  | (.unfinished, env') => (.unfinished, env'.popBlock.2)

end Action

end Gapscript
