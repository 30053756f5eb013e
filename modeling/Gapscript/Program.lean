import Gapscript.Eval
import Gapscript.Prelude

/-! # Programs

A program is compiled from its source in three stages and then evaluated. An interpreter runs one program after another
in the same environment.
-/

namespace Gapscript

def version : String := "0.0.1"

/-- The term that a source text stands for. -/
def compile (source : String) : Except Error Term :=
  match Token.scan source with
  | .error e => .error (.scan e)
  | .ok tokens =>
    match Tree.parse tokens with
    | .error e => .error (.parse e)
    | .ok tree =>
      match Term.ofTree tree with
      | .error e => .error (.lower e)
      | .ok term => .ok term

variable {ν : Type}

/-- Evaluate a term and report errors as those of a program. -/
def evalProgram (host : Host ν) (limits : Limits) (t : Term) (env : Env ν) : Outcome Error (Value ν) × Env ν :=
  match eval host limits t env with
  | (r, env') => (r.mapError .eval, env')

/-- Run a source text in an environment, which is left alone if the text does not compile. -/
def runSource (host : Host ν) (limits : Limits) (source : String) (env : Env ν) :
    Outcome Error (Value ν) × Env ν :=
  match compile source with
  | .error e => (.error e, env)
  | .ok t => evalProgram host limits t env

structure Interpreter (ν : Type) where
  env : Env ν
  limits : Limits := {}

namespace Interpreter

def eval (host : Host ν) (i : Interpreter ν) (t : Term) : Outcome Error (Value ν) × Interpreter ν :=
  match evalProgram host i.limits t i.env with
  | (r, env) => (r, { i with env })

def run (host : Host ν) (i : Interpreter ν) (source : String) : Outcome Error (Value ν) × Interpreter ν :=
  match runSource host i.limits source i.env with
  | (r, env) => (r, { i with env })

theorem run_of_compile (host : Host ν) (i : Interpreter ν) {source : String} {t : Term} (h : compile source = .ok t) :
    i.run host source = i.eval host t := by
  rw [run, runSource, h]
  rfl

theorem eval_of_eval {host : Host ν} {i : Interpreter ν} {t : Term} {r : Outcome EvalError (Value ν)} {env : Env ν}
    (h : Gapscript.eval host i.limits t i.env = (r, env)) : i.eval host t = (r.mapError .eval, { i with env }) := by
  rw [eval, evalProgram, h]

end Interpreter

end Gapscript
