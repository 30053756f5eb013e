import Gapscript.Prelude
import Gapscript.Proofs.Approximation

/-! # Wider limits

The two limits are only ever compared with what a run has used, and a run that goes beyond one of them ends at once in
the error of that limit: nothing in the language catches an error and goes on. A run that ended in any other way is
therefore the same under wider limits, with the same environment after it. Nothing is assumed of the functions of the
embedding, which do not see the limits.
-/
namespace Gapscript

variable {ν : Type}

/-- The errors that report a limit. -/
def EvalError.OfLimit : EvalError → Prop
  | .depthExceeded _ _ => True
  | .expansion (.limitExceeded _ _) => True
  | _ => False

/-- Each of the limits is at least as wide. -/
structure Limits.Le (limits limits' : Limits) : Prop where
  depth : limits.maxDepth ≤ limits'.maxDepth
  expansions : limits.maxExpansions ≤ limits'.maxExpansions

namespace MacroTable

/-- With more steps left an expansion is the same, unless it was the steps that ran out. -/
theorem expandBy_of_le (table : MacroTable) (max max' : Nat) {steps steps' : Nat} (hle : steps ≤ steps') (m : Macro)
    (args : List Term) :
    table.expandBy max steps m args = .error (.limitExceeded (max + 1) max) ∨
      table.expandBy max' steps' m args = table.expandBy max steps m args := by
  induction steps generalizing steps' m args with
  | zero => exact .inl rfl
  | succ steps ih =>
    obtain ⟨steps',rfl⟩ : ∃ n, steps' = n + 1 := Nat.exists_eq_add_of_le' (Nat.le_of_add_left_le hle)
    have hrest : steps ≤ steps' := by omega
    simp only [expandBy]
    cases hexpand : m.expand args with
    | error e => exact .inr rfl
    | ok t =>
      simp only
      cases hredex : table.redex? t with
      | none => exact .inr rfl
      | some next =>
        obtain ⟨next, args⟩ := next
        exact ih hrest next args

/-- The same of whole expansions. -/
theorem expand_of_le (table : MacroTable) {max max' : Nat} (hle : max ≤ max') (operator : Term) (args : List Term) :
    table.expand max operator args = .error (.limitExceeded (max + 1) max) ∨
      table.expand max' operator args = table.expand max operator args := by
  simp only [expand]
  cases hmacro : table.forOperator? operator with
  | none => exact .inr rfl
  | some m =>
    rcases table.expandBy_of_le max max' hle m args with hlimit | hsame
    · exact .inl (by simp only [hlimit])
    · exact .inr (by simp only [hsame])

end MacroTable

namespace Action.Approximates

/-- Where the narrower limit lets a level be entered, so does the wider one. -/
theorem nested_of_le {α : Type} {act act' : Action ν α} {max max' : Nat} (hle : max ≤ max')
    (h : Approximates EvalError.OfLimit act act') :
    Approximates EvalError.OfLimit (Action.nested max act) (Action.nested max' act') := by
  intro env hfinal
  by_cases hdeep : max ≤ env.depth
  · have hrefused : Action.nested max act env = (.error (.depthExceeded (env.depth + 1) max), env) := by
      simp only [Action.nested, Env.enter, if_pos hdeep]
    rw [hrefused] at hfinal
    exact absurd trivial hfinal
  · have hdeep' : ¬max' ≤ env.depth := by omega
    simp only [Action.nested, Env.enter, if_neg hdeep, if_neg hdeep'] at hfinal ⊢
    rw [h _ hfinal]

theorem expansion_of_le {max max' : Nat} (hle : max ≤ max') (operator : Term) (args : List Term) :
    Approximates (ν := ν) EvalError.OfLimit
      (.reading fun env => (env.macros.expand max operator args).mapError .expansion)
      (.reading fun env => (env.macros.expand max' operator args).mapError .expansion) := by
  intro env hfinal
  rcases env.macros.expand_of_le hle operator args with hlimit | hsame
  · simp only [Action.reading, hlimit] at hfinal
    exact absurd trivial hfinal
  · simp only [Action.reading, hsame]

end Action.Approximates

theorem Limits.Le.approximates {limits limits' : Limits} (h : limits.Le limits') :
    limits.Approximates EvalError.OfLimit ν limits' where
  nested hact := .nested_of_le h.depth hact
  expansion := .expansion_of_le h.expansions

theorem Limits.Le.budget_le {limits limits' : Limits} (h : limits.Le limits') : limits.budget ≤ limits'.budget := by
  have hdepth := h.depth
  unfold Limits.budget
  omega

/-- An evaluation that ends in a value, or in an error other than those of the limits, is the same under all limits that
are at least as wide: it has the same outcome and leaves the same environment. -/
theorem eval_eq_of_wider_limits (host : Host ν) {limits limits' : Limits} (hle : limits.Le limits') (t : Term)
    (env : Env ν) (hfinal : (eval host limits t env).1.Final EvalError.OfLimit) :
    eval host limits' t env = eval host limits t env :=
  Eval.approximates_of_limits host hle.approximates hle.budget_le t env hfinal

/-- A function of the embedding that returns its arguments and leaves a block open. -/
def leaky : Host Unit := fun _ args env => (.value (.seq args), env.pushBlock)

def leakyEnv : Env Unit := (Env.withPrelude {}).define (.symbol "f") (.builtin (.external "f" 1 ()))

/-- The term of `'a' | f()`. -/
def pipedTerm : Term := .apply (.ref ⟨.inop1, "|"⟩) [.str "'a'", .apply (.symbol "f") []]

/-- Three levels and one expansion are just enough, and with more of both the block is left open all the same. -/
theorem eval_eq_of_wider_limits_pipe :
    eval leaky ⟨3, 1⟩ pipedTerm leakyEnv = (.value (.seq [.text "a"]), leakyEnv.pushBlock) ∧
      eval leaky {} pipedTerm leakyEnv = (.value (.seq [.text "a"]), leakyEnv.pushBlock) ∧
      (eval leaky ⟨2, 1⟩ pipedTerm leakyEnv).1 = .error (.depthExceeded 3 2) ∧
      (eval leaky ⟨3, 0⟩ pipedTerm leakyEnv).1 = .error (.expansion (.limitExceeded 1 0)) := by
  have hcalled : eval leaky ⟨3, 1⟩ pipedTerm leakyEnv =
      Action.nested 3 (Action.nested 3 (call leaky (.builtin (.external "f" 1 ())) [.text "a"])) leakyEnv := rfl
  have hpiped : eval leaky ⟨3, 1⟩ pipedTerm leakyEnv = (.value (.seq [.text "a"]), leakyEnv.pushBlock) := by
    rw [hcalled, call]
    rfl
  have hle : Limits.Le ⟨3, 1⟩ {} := ⟨by decide,by decide⟩
  have hfinal : (eval leaky ⟨3, 1⟩ pipedTerm leakyEnv).1.Final EvalError.OfLimit := by
    rw [hpiped]
    trivial
  exact ⟨hpiped,(eval_eq_of_wider_limits leaky hle pipedTerm leakyEnv hfinal).trans hpiped,rfl,rfl⟩

end Gapscript
