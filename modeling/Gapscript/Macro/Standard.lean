import Gapscript.Macro

/-! # The pipe and member access -/

namespace Gapscript

namespace Macro

/-- The symbol that member access expands into an application of. -/
def memberFunction : String := "field-or-method"

/-- Hand two operands to `f`. -/
def withTwo (args : List Term) (f : Term → Term → Except String Term) : Except String Term :=
  match args with
  | [left, right] => f left right
  | _ => .error s!"expected 2 operands, got {args.length}"

/-- `x | f(y)` is `f(y, x)`. -/
def pipe : Macro where
  key := ⟨.inop1, "|"⟩
  rule args := withTwo args fun left right =>
    match right with
    | .apply operator args => .ok (.apply operator (args ++ [left]))
    | _ => .error "right operand of '|' must be an application"

/-- `a.b` looks the member named `b` up in the value of `a()`; a member that is not a name is computed. -/
def memberAccess : Macro where
  key := ⟨.inop2, "."⟩
  rule args := withTwo args fun left right =>
    let member := match right with
      | .ref r => Term.quoted r.text
      | computed => computed
    .ok (.apply (.symbol memberFunction) [.apply left [], member])

end Macro

end Gapscript
