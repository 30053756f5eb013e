import Gapscript.Eval

/-! # Runs that are cut short and runs that are not

A run may be cut short for want of budget, and an error may be taken to mean the same. One action approximates another
if the two do the same from wherever the first is not cut short. Whatever is put together from approximations
approximates what is put together from the actions themselves, so that a larger budget changes no run that had ended
within the smaller one.
-/
namespace Gapscript

variable {ν α β : Type}

/-- Neither unfinished nor an error among `stops`. -/
def Outcome.Final (stops : EvalError → Prop) : Outcome EvalError α → Prop
  | .value _ => True
  | .error e => ¬stops e
  | .unfinished => False

theorem Outcome.final_of_ne {r : Outcome EvalError α} (h : r ≠ .unfinished) : r.Final fun _ => False := by
  cases r with
  | value a => trivial
  | error e => exact id
  | unfinished => exact h rfl

namespace Action

theorem nested_of_lt {max : Nat} (act : Action ν α) {env : Env ν} (h : env.depth < max) :
    nested max act env = ((act { env with depth := env.depth + 1 }).1, (act { env with depth := env.depth + 1 }).2.exit) := by
  simp only [nested, Env.enter, if_neg (Nat.not_le.mpr h)]

theorem nested_of_le {max : Nat} (act : Action ν α) {env : Env ν} (h : max ≤ env.depth) :
    nested max act env = (.error (.depthExceeded (env.depth + 1) max), env) := by
  simp only [nested, Env.enter, if_pos h]

theorem nested_congr {max : Nat} {act act' : Action ν α} {env : Env ν}
    (h : env.depth < max → act { env with depth := env.depth + 1 } = act' { env with depth := env.depth + 1 }) :
    nested max act env = nested max act' env := by
  by_cases hlt : env.depth < max
  · rw [nested_of_lt _ hlt, nested_of_lt _ hlt, h hlt]
  · have hle := Nat.le_of_not_lt hlt
    rw [nested_of_le _ hle, nested_of_le _ hle]

/-- Wherever `act` is not cut short, `act'` has the same outcome and leaves the same environment. -/
def Approximates (stops : EvalError → Prop) (act act' : Action ν α) : Prop :=
  ∀ env, (act env).1.Final stops → act' env = act env

namespace Approximates

variable {stops : EvalError → Prop} {act act' : Action ν α}

theorem refl (act : Action ν α) : Approximates stops act act := fun _ _ => rfl

theorem unfinished (act : Action ν α) : Approximates stops .unfinished act := fun _ h => h.elim

theorem bind {f f' : α → Action ν β} (h : Approximates stops act act') (hf : ∀ a, Approximates stops (f a) (f' a)) :
    Approximates stops (act >>= f) (act' >>= f') := by
  intro env hfinal
  simp only [Bind.bind, Action.bind] at hfinal ⊢
  rcases hact : act env with ⟨a | e | _, env'⟩
  · rw [h env (by rw [hact]; trivial), hact]
    rw [hact] at hfinal
    exact hf a env' hfinal
  · rw [hact] at hfinal
    rw [h env (by rw [hact]; exact hfinal), hact]
  · rw [hact] at hfinal
    exact hfinal.elim

theorem each {f f' : α → Action ν β} (h : ∀ a, Approximates stops (f a) (f' a)) (as : List α) :
    Approximates stops (Action.each f as) (Action.each f' as) := by
  induction as with
  | nil => exact refl _
  | cons a as ih => exact bind (h a) fun b => bind ih fun bs => refl _

theorem nested (max : Nat) (h : Approximates stops act act') :
    Approximates stops (Action.nested max act) (Action.nested max act') := by
  intro env hfinal
  simp only [Action.nested] at hfinal ⊢
  cases henter : env.enter max with
  | error e => rfl
  | ok inside =>
    simp only [henter] at hfinal
    simp only
    rw [h inside hfinal]

theorem inBlock {act act' : Action ν Unit} (h : Approximates stops act act') :
    Approximates stops (Action.inBlock act) (Action.inBlock act') := by
  intro env hfinal
  simp only [Action.inBlock] at hfinal ⊢
  have hinside : (act env.pushBlock).1.Final stops := by
    rcases hact : act env.pushBlock with ⟨_ | _ | _, env'⟩ <;> rw [hact] at hfinal <;> exact hfinal
  rw [h env.pushBlock hinside]

end Approximates

end Action

/-- Under `limits'` the same is done as under `limits`, wherever running into a limit does not cut a run short. -/
structure Limits.Approximates (stops : EvalError → Prop) (ν : Type) (limits limits' : Limits) : Prop where
  nested {act act' : Action ν (Value ν)} (h : Action.Approximates stops act act') :
    Action.Approximates stops (.nested limits.maxDepth act) (.nested limits'.maxDepth act')
  expansion (operator : Term) (args : List Term) :
    Action.Approximates (ν := ν) stops
      (.reading fun env => (env.macros.expand limits.maxExpansions operator args).mapError .expansion)
      (.reading fun env => (env.macros.expand limits'.maxExpansions operator args).mapError .expansion)

theorem Limits.Approximates.refl {stops : EvalError → Prop} (limits : Limits) : limits.Approximates stops ν limits where
  nested h := h.nested limits.maxDepth
  expansion _ _ := .refl _

namespace Eval
open Gapscript.Action

section

variable {stops : EvalError → Prop} (host : Host ν) {limits limits' : Limits} {sub sub' : Term → Action ν (Value ν)}
  (hlimits : limits.Approximates stops ν limits') (hsub : ∀ t, Approximates stops (sub t) (sub' t))

include hsub

theorem approximates_statements (ts : List Term) : Approximates stops (statements sub ts) (statements sub' ts) := by
  induction ts with
  | nil => exact .refl _
  | cons t ts ih => exact .bind (hsub t) fun v => .bind (.refl _) fun _ => ih

include hlimits

theorem approximates_application (operator : Term) (args : List Term) :
    Approximates stops (application host limits sub operator args) (application host limits' sub' operator args) := by
  refine .bind (hlimits.expansion operator args) fun expanded => ?_
  cases expanded with
  | some t => exact hsub t
  | none => exact .bind (hsub operator) fun f => .bind (.each hsub args) fun values => .refl _

theorem approximates_node (t : Term) : Approximates stops (node host limits sub t) (node host limits' sub' t) := by
  cases t with
  | block kind stmts => exact .inBlock (approximates_statements hsub stmts)
  | assign targets value => exact .bind (hsub value) fun v => .refl _
  | apply operator args => exact approximates_application host hlimits hsub operator args
  | ref r => exact .refl _
  | str raw => exact .refl _

end

/-- Neither a larger budget nor wider limits change an evaluation that was not cut short. -/
theorem approximates_of_limits {stops : EvalError → Prop} (host : Host ν) {limits limits' : Limits}
    (hlimits : limits.Approximates stops ν limits') {budget budget' : Nat} (hle : budget ≤ budget') (t : Term) :
    Approximates stops (within host limits budget t) (within host limits' budget' t) := by
  induction budget generalizing budget' t with
  | zero => exact .unfinished _
  | succ budget ih =>
    obtain ⟨budget',rfl⟩ : ∃ n, budget' = n + 1 := Nat.exists_eq_add_of_le' (Nat.le_of_add_left_le hle)
    exact hlimits.nested (approximates_node host hlimits (fun t => ih (Nat.le_of_succ_le_succ hle) t) t)

/-- A larger budget changes no evaluation that ends within the smaller one. -/
theorem approximates_within {stops : EvalError → Prop} (host : Host ν) (limits : Limits) {budget budget' : Nat}
    (hle : budget ≤ budget') (t : Term) :
    Approximates stops (within host limits budget t) (within host limits budget' t) :=
  approximates_of_limits host (.refl limits) hle t

/-! ## What is left of the budget -/

section

variable (host : Host ν) (limits : Limits) (spare : Nat) (t : Term)

/-- Evaluating `t` ends even if `spare` of the budget is used already. Without functions of the embedding it always does. -/
def Spares (env : Env ν) : Prop := (within host limits (limits.budget - spare) t env).1 ≠ .unfinished

variable {host limits spare t}

theorem Spares.within_eq {env : Env ν} (h : Spares host limits spare t env) :
    within host limits (limits.budget - spare) t env = eval host limits t env :=
  (approximates_within host limits (Nat.sub_le _ _) t env (Outcome.final_of_ne h)).symm

/-- A term is evaluated one level further in, and its parts with one less of the budget. -/
theorem within_sub (hspare : spare < 4294967296) : within host limits (limits.budget - spare) t =
    .nested limits.maxDepth (node host limits (within host limits (limits.budget - (spare + 1))) t) := by
  have hbudget : limits.budget - spare = limits.budget - (spare + 1) + 1 := by
    unfold Limits.budget
    omega
  rw [hbudget, within]

theorem within_str (hspare : spare < 4294967296) {env : Env ν} (hdepth : env.depth < limits.maxDepth) (raw : String) :
    within host limits (limits.budget - spare) (.str raw) env = (.value (.text (Term.unescape raw)), env) := by
  rw [within_sub hspare, nested_of_lt _ hdepth]
  rfl

theorem within_ref (hspare : spare < 4294967296) {env : Env ν} (hdepth : env.depth < limits.maxDepth) {r : Ref} {v : Value ν}
    (hr : r.number? = none) (h : env.get? r = some v) :
    within host limits (limits.budget - spare) (.ref r) env = (.value v, env) := by
  rw [within_sub hspare, nested_of_lt _ hdepth]
  have hreference : reference r { env with depth := env.depth + 1 } = .ok v := by
    rw [Env.get?] at h
    simp only [reference, hr, Env.get?, h]
  simp only [node, Action.reading, hreference]
  rfl

end

end Eval

theorem eval_eq_nested (host : Host ν) (limits : Limits) (t : Term) : eval host limits t =
    .nested limits.maxDepth (Eval.node host limits (Eval.within host limits (limits.budget - 1)) t) :=
  Eval.within_sub (Nat.zero_lt_succ _)

end Gapscript
