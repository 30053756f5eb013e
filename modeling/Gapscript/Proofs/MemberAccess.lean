import Gapscript.Proofs.Literals
import Gapscript.Proofs.Pipeline

/-! # Members

Member access expands into a call of the function that finds members. Its first argument is a call of the receiver, and
its second a literal that stands for the name of the member, whatever characters that has. So the receiver is forced first,
three levels further in, and the member is looked up where that has led.
-/
namespace Gapscript

variable {ν α β : Type}

/-- Evaluate a receiver and call its value without arguments. -/
def forced (host : Host ν) (limits : Limits) (receiver : Term) : Action ν (Value ν) := do
  let v ← eval host limits receiver
  call host v []

theorem Action.bind_reading_env (act : Action ν α) (f : α → Env ν → Except EvalError β) (env : Env ν) :
    ((act >>= fun a => reading (f a)) env).2 = (act env).2 := by
  simp only [Bind.bind, Action.bind]
  rcases act env with ⟨a | e | _, env'⟩ <;> rfl

namespace Eval

variable {host : Host ν} {limits : Limits} {a : Term} {env : Env ν} {spare : Nat}

theorem within_call_nil (ha : env.macros.forOperator? a = none) (hspare : spare < 4294967296)
    (h : Spares host limits (spare + 1) a { env with depth := env.depth + 1 }) :
    within host limits (limits.budget - spare) (.apply a []) env =
      Action.nested limits.maxDepth (forced host limits a) env := by
  rw [within_sub hspare]
  refine Action.nested_congr fun _ => (application_of_call (MacroTable.expand_of_none (by exact ha) _ _)).trans ?_
  simp only [forced, Bind.bind, Action.bind, h.within_eq]
  rfl

theorem call_fieldOrMethod (w : Value ν) (name : String) :
    call host (.builtin (.primitive .fieldOrMethod)) [w, .text name] env = (.ofExcept (env.member w name), env) := by
  rw [call]
  rfl

/-- What member access expands into. The literal has no effect, so the member is looked up where the forced receiver has
led. -/
theorem application_memberFunction (env : Env ν)
    (hfunction : env.macros.forOperator? (.symbol Macro.memberFunction) = none)
    (hbound : env.get? (.symbol Macro.memberFunction) = some (.builtin (.primitive .fieldOrMethod)))
    (ha : env.macros.forOperator? a = none) (hdepth : env.depth < limits.maxDepth) (hspare : spare < 4294967296)
    (h : Spares host limits (spare + 1) a { env with depth := env.depth + 1 })
    (hlevel : (forced host limits a { env with depth := env.depth + 1 }).2.depth = env.depth + 1) (name : String) :
    application host limits (within host limits (limits.budget - spare)) (.symbol Macro.memberFunction)
      [.apply a [], .quoted name] env =
      Action.nested limits.maxDepth (forced host limits a >>= fun w => .reading (·.member w name)) env := by
  have hname : Ref.number? (.symbol Macro.memberFunction) = none := by cbv
  have hoperator : within host limits (limits.budget - spare) (.symbol Macro.memberFunction) env =
      (.value (.builtin (.primitive .fieldOrMethod)), env) := within_ref hspare hdepth hname hbound
  have hreceiver := within_call_nil ha hspare h
  rw [Action.nested_of_lt _ hdepth] at hreceiver
  rw [application_of_call (MacroTable.expand_of_none hfunction _ _), Action.nested_of_lt _ hdepth]
  simp only [Bind.bind, Action.bind, Action.each, hoperator, hreceiver]
  rcases hforced : forced host limits a { env with depth := env.depth + 1 } with ⟨w | e | _, env'⟩
  · replace hlevel : env'.depth = env.depth + 1 := by rwa [hforced] at hlevel
    have hexit : env'.exit.depth < limits.maxDepth := by
      simp only [Env.exit, hlevel, Nat.add_sub_cancel]
      exact hdepth
    -- The literal is evaluated at the level from which the receiver was forced.
    have hliteral : within host limits (limits.budget - spare) (.quoted name) env'.exit =
        (.value (.text name), env'.exit) := by
      rw [Term.quoted, within_str hspare hexit, unescape_quoted]
    simp only [hliteral, Action.pure, call_fieldOrMethod]
    rfl
  · rfl
  · rfl

end Eval

/-- Member access means dispatch on the forced receiver. The receiver is evaluated three levels further in and its value
called without arguments, once each, and the member of that name is found on what comes out, in the environment that is
left. The reference that names the member is never evaluated. -/
theorem memberAccess_eq_dispatch (host : Host ν) (limits : Limits) {env : Env ν} {a : Term} (r : Ref)
    (haccess : env.macros.innermost? Macro.memberAccess.key = some Macro.memberAccess)
    (hfunction : env.macros.innermost? (.symbol Macro.memberFunction) = none)
    (hbound : env.get? (.symbol Macro.memberFunction) = some (.builtin (.primitive .fieldOrMethod)))
    (ha : env.macros.forOperator? a = none) (hdepth : env.depth + 3 ≤ limits.maxDepth) (hmax : 1 ≤ limits.maxExpansions)
    (hspares : Eval.Spares host limits 3 a { env with depth := env.depth + 3 })
    (hlevel : (forced host limits a { env with depth := env.depth + 3 }).2.depth = env.depth + 3) :
    let dispatched := (do
      let w ← forced host limits a
      Action.reading (·.member w r.text)) { env with depth := env.depth + 3 }
    eval host limits (.apply (.ref Macro.memberAccess.key) [a, .ref r]) env =
      (dispatched.1, { dispatched.2 with depth := env.depth }) := by
  intro dispatched
  have hoperator : env.macros.forOperator? (.symbol Macro.memberFunction) = none := hfunction
  have hexpand : env.macros.expand limits.maxExpansions (.ref Macro.memberAccess.key) [a, .ref r] =
      .ok (some (.apply (.symbol Macro.memberFunction) [.apply a [], .quoted r.text])) :=
    MacroTable.expand_once haccess hoperator hmax rfl
  have h₀ : env.depth < limits.maxDepth := by omega
  have h₁ : env.depth + 1 < limits.maxDepth := by omega
  have h₂ : env.depth + 2 < limits.maxDepth := by omega
  have hlevels : eval host limits (.apply (.ref Macro.memberAccess.key) [a, .ref r]) env =
      Action.nested limits.maxDepth (Action.nested limits.maxDepth (Action.nested limits.maxDepth
        (forced host limits a >>= fun w => .reading (·.member w r.text)))) env := by
    rw [eval_eq_nested]
    refine Action.nested_congr fun _ => ?_
    refine (Eval.application_of_expand (by exact hexpand)).trans ?_
    rw [Eval.within_sub (by decide)]
    refine Action.nested_congr fun _ => ?_
    exact Eval.application_memberFunction { env with depth := env.depth + 2 } hoperator hbound ha h₂ (by decide) hspares
      hlevel r.text
  have hleft : dispatched.2.depth = env.depth + 3 := by
    rw [Action.bind_reading_env, hlevel]
  rw [hlevels, Action.nested_of_lt _ h₀, Action.nested_of_lt _ (by exact h₁), Action.nested_of_lt _ (by exact h₂)]
  change (dispatched.1, dispatched.2.exit.exit.exit) = _
  simp only [Env.exit, hleft]
  rfl

/-- An embedding whose functions write that they are called and give a record. -/
def boxMaker : Host Unit := fun _ _ => do
  Action.write "make" "made"
  return .record "box" [("it's \\\"", .text "inside")]

/-- The receiver is a function of the embedding that is called once, and no name of a member is bound. -/
theorem memberAccess_eq_dispatch_quotes :
    let env : Env Unit := (Env.withPrelude {}).define (.symbol "make") (.builtin (.external "make" 0 ()))
    let made : Env Unit := { env with streams := { env.streams with output := (env.streams.output.write "made").2 } }
    let access (name : String) : Term := .apply (.ref Macro.memberAccess.key) [.symbol "make", .symbol name]
    eval boxMaker ⟨4, 1⟩ (access "it's \\\"") env = (.value (.text "inside"), made) ∧
      eval boxMaker ⟨4, 1⟩ (access "lid") env = (.error (.unknownMember "box" "lid"), made) := by
  intro env made access
  have hreceiver {spare : Nat} (hspare : spare < 4294967296) :
      Eval.within boxMaker ⟨4, 1⟩ (Limits.budget ⟨4, 1⟩ - spare) (.symbol "make") { env with depth := env.depth + 3 } =
        (.value (.builtin (.external "make" 0 ())), { env with depth := env.depth + 3 }) :=
    Eval.within_ref hspare (Nat.lt_succ_self 3) (by cbv) rfl
  have hspares : Eval.Spares boxMaker ⟨4, 1⟩ 3 (.symbol "make") { env with depth := env.depth + 3 } := by
    rw [Eval.Spares, hreceiver (by decide)]
    rintro ⟨⟩
  have hforced : forced boxMaker ⟨4, 1⟩ (.symbol "make") { env with depth := env.depth + 3 } =
      (.value (.record "box" [("it's \\\"", .text "inside")]), { made with depth := 3 }) := by
    simp only [forced, Bind.bind, Action.bind, ← hspares.within_eq, hreceiver (show 3 < 4294967296 by decide)]
    rw [call]
    rfl
  have hdispatch (name : String) : eval boxMaker ⟨4, 1⟩ (access name) env =
      (.ofExcept (made.member (.record "box" [("it's \\\"", .text "inside")]) name), made) := by
    have haccess : env.macros.innermost? Macro.memberAccess.key = some Macro.memberAccess := rfl
    refine (memberAccess_eq_dispatch boxMaker ⟨4, 1⟩ (.symbol name) haccess rfl rfl rfl (by decide) (by decide) hspares
      (congrArg (·.2.depth) hforced)).trans ?_
    simp only [Bind.bind, Action.bind, hforced]
    rfl
  exact ⟨hdispatch _,hdispatch _⟩

end Gapscript
