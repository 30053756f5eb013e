import Gapscript.Eval.Call
import Gapscript.Macro.Expand
import Gapscript.Term.Literal

/-! # Evaluation

Evaluating a term goes one level deeper into the environment, and two limits apply: how many levels there are, and how
often one application may be expanded by macros. As long as the functions of the embedding leave the level as they
found it, the first of them bounds the recursion. An embedding may break that rule, so evaluation also has a budget of
nested evaluations, and what exceeds it is left unfinished.
-/

namespace Gapscript

structure Limits where
  maxDepth : Nat := 1000
  maxExpansions : Nat := 100
  deriving DecidableEq, Repr

variable {ν : Type}

namespace Eval

/-- The value of a reference: a number if it is written as one, or else what it is bound to. -/
def reference (r : Ref) (env : Env ν) : Except EvalError (Value ν) :=
  match r.number? with
  | some x => .ok (.number x)
  | none =>
    match env.get? r with
    | some v => .ok v
    | none => .error (.undefinedName r)

/-- Bind a value to the targets of an assignment: a single target takes all of it, several take the items of a sequence
one by one, and nothing is bound if there are too few. -/
def bindTargets (targets : List Ref) (v : Value ν) : Action ν Unit :=
  match targets with
  | [r] => .modify (·.define r v)
  | _ =>
    match v with
    | .seq items =>
      if items.length < targets.length then
        .fail (.tooFewItems items.length targets.length)
      else
        .modify fun env => (targets.zip items).foldl (fun env (r, item) => env.define r item) env
    | v => .fail (.notSequence v.typeName targets.length)

section

variable (host : Host ν) (limits : Limits) (sub : Term → Action ν (Value ν))

/-- Evaluate statements in order and record each value in the innermost block. -/
def statements : List Term → Action ν Unit
  | [] => pure ()
  | t :: ts => do
    let v ← sub t
    Action.modify (·.record v)
    statements ts

/-- Evaluate statements in a block of their own. Its value is that of the last one. -/
def block (stmts : List Term) : Action ν (Value ν) := Action.inBlock (statements sub stmts)

/-- Evaluate an application: the term that macros expand it into, or else a call of the operator's value with the
arguments' values, from left to right. -/
def application (operator : Term) (args : List Term) : Action ν (Value ν) := do
  let expanded ← Action.reading fun env =>
    (env.macros.expand limits.maxExpansions operator args).mapError .expansion
  match expanded with
  | some t => sub t
  | none =>
    let f ← sub operator
    let values ← Action.each sub args
    call host f values

/-- Evaluate a term whose parts are evaluated by `sub`. -/
def node : Term → Action ν (Value ν)
  | .block _ stmts => block sub stmts
  | .assign targets value => do
    let v ← sub value
    bindTargets targets v
    return v
  | .apply operator args => application host limits sub operator args
  | .ref r => .reading (reference r)
  | .str raw => pure (.text (Term.unescape raw))

end

/-- Evaluate a term with a budget of nested evaluations. -/
def within (host : Host ν) (limits : Limits) : (budget : Nat) → Term → Action ν (Value ν)
  | 0, _ => .unfinished
  | budget + 1, t => Action.nested limits.maxDepth (node host limits (within host limits budget) t)

end Eval

/-- A budget that only an embedding which breaks the rules on levels can exceed. -/
def Limits.budget (limits : Limits) : Nat := 4294967296 + limits.maxDepth

/-- Evaluate a term. -/
def eval (host : Host ν) (limits : Limits) (t : Term) : Action ν (Value ν) :=
  Eval.within host limits limits.budget t

/-- Evaluate statements in a block of their own, at the present level. -/
def evalBlock (host : Host ν) (limits : Limits) (stmts : List Term) : Action ν (Value ν) :=
  Eval.block (eval host limits) stmts

end Gapscript
