import Gapscript.Macro

/-! # Expanding an application

An expanded application may have an operator that names a macro again; expansion goes on until it does not, or until
the permitted number of steps is used up.
-/

namespace Gapscript

namespace MacroTable

/-- The macro and the arguments of a term that is to be expanded further. -/
def redex? (table : MacroTable) : Term → Option (Macro × List Term)
  | .apply operator args => (table.forOperator? operator).map fun m => (m, args)
  | _ => none

/-- Expand by `m` and then as often as needed, with `steps` steps left of `max`. -/
def expandBy (table : MacroTable) (max : Nat) : (steps : Nat) → Macro → List Term → Except ExpansionError Term
  | 0, _, _ => .error (.limitExceeded (max + 1) max)
  | steps + 1, m, args =>
    match m.expand args with
    | .error e => .error e
    | .ok t =>
      match table.redex? t with
      | some (next, args) => table.expandBy max steps next args
      | none => .ok t

/-- The term that the application of `operator` to `args` expands into; none if `operator` names no macro. -/
def expand (table : MacroTable) (max : Nat) (operator : Term) (args : List Term) :
    Except ExpansionError (Option Term) :=
  match table.forOperator? operator with
  | none => .ok none
  | some m =>
    match table.expandBy max max m args with
    | .ok t => .ok (some t)
    | .error e => .error e

end MacroTable

end Gapscript
