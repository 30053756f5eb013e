import Gapscript.Proofs.Runs

/-! # All targets or none

An assignment evaluates what stands to its right, looks whether there is a share for each target, and only then binds. So
a failure leaves what the evaluation has left. A target that occurs more than once keeps what it is given last, but a new
one takes its place among the bindings where it occurs first.
-/
namespace Gapscript

variable {ν : Type} {targets : List Ref} {v : Value ν} {shares : List (Value ν)}

/-- There are several targets, and the value is no sequence or one with fewer items. -/
def Short (targets : List Ref) (v : Value ν) : Prop :=
  1 < targets.length ∧ ∀ items, v = .seq items → items.length < targets.length

/-- What the targets are given: a single one the whole value, several the items of a sequence. -/
inductive Shares : List Ref → Value ν → List (Value ν) → Prop where
  | whole (r : Ref) (v : Value ν) : Shares [r] v [v]
  | items {targets : List Ref} {items : List (Value ν)} (hmany : 1 < targets.length)
      (hlength : targets.length ≤ items.length) : Shares targets (.seq items) items

theorem Shares.length_le (h : Shares targets v shares) : targets.length ≤ shares.length := by
  cases h with
  | whole => exact Nat.le_refl 1
  | items _ hlength => exact hlength

/-- A value that is not short has a share for each target. -/
theorem exists_shares (hne : targets ≠ []) (h : ¬Short targets v) : ∃ shares, Shares targets v shares := by
  obtain ⟨r,rest,rfl⟩ := List.exists_cons_of_ne_nil hne
  cases rest with
  | nil => exact ⟨[v],.whole r v⟩
  | cons r' rest =>
    have hmany : 1 < (r :: r' :: rest).length := by simp
    cases v with
    | seq items =>
      refine ⟨items,.items hmany (Nat.le_of_not_lt fun hlt => h ⟨hmany,?_⟩)⟩
      rintro _ ⟨⟩
      exact hlt
    | undefined | number | text | record | builtin | method =>
      refine absurd ⟨hmany,?_⟩ h
      rintro _ ⟨⟩

namespace Eval

theorem bindTargets_of_short (h : Short targets v) (env : Env ν) : ∃ e, bindTargets targets v env = (.error e, env) := by
  obtain ⟨hmany,hitems⟩ := h
  rcases targets with _ | ⟨r, _ | ⟨r', rest⟩⟩
  · cases hmany
  · exact absurd hmany (Nat.lt_irrefl 1)
  · cases v with
    | seq items => exact ⟨_,congrFun (if_pos (hitems items rfl)) env⟩
    | undefined | number | text | record | builtin | method => exact ⟨_,rfl⟩

theorem foldl_define (entries : List (Ref × Value ν)) (env : Env ν) :
    entries.foldl (fun env (r, item) => env.define r item) env =
      { env with bindings := env.bindings.insertAll entries } := by
  induction entries generalizing env with
  | nil => rfl
  | cons entry entries ih => exact ih (env.define entry.1 entry.2)

theorem bindTargets_of_shares (h : Shares targets v shares) (env : Env ν) :
    bindTargets targets v env = (.value (), { env with bindings := env.bindings.insertAll (targets.zip shares) }) := by
  cases h with
  | whole r v => rfl
  | items hmany hlength =>
    rcases targets with _ | ⟨r, _ | ⟨r', rest⟩⟩
    · cases hmany
    · exact absurd hmany (Nat.lt_irrefl 1)
    · have hbind : bindTargets (r :: r' :: rest) (.seq shares) = .modify _ := if_neg (Nat.not_lt.mpr hlength)
      rw [hbind, Action.modify, foldl_define]

end Eval

/-- An assignment binds all its targets or none. If the value fails, or is short of items for several targets, the
assignment fails and leaves the environment as evaluating the value has left it. Otherwise it has that value and changes
only bindings: each target has its share, and evaluates to it unless it is written as a number. -/
theorem assignment_all_or_nothing (host : Host ν) (limits : Limits) (hne : targets ≠ []) (value : Term) (env : Env ν)
    (hspares : Eval.Spares host limits 1 value { env with depth := env.depth + 1 }) :
    let assigned := eval host limits (.assign targets value) env
    let evaluated := eval host limits value { env with depth := env.depth + 1 }
    (limits.maxDepth ≤ env.depth → ∃ e, assigned = (.error e, env)) ∧
    (env.depth < limits.maxDepth →
      (∀ e env', evaluated = (.error e, env') → assigned = (.error e, env'.exit)) ∧
      ∀ v env', evaluated = (.value v, env') →
        (Short targets v → ∃ e, assigned = (.error e, env'.exit)) ∧
        (¬Short targets v → ∃ shares bindings, Shares targets v shares ∧
          assigned = (.value v, { env'.exit with bindings }) ∧ env'.bindings.Rebinds targets shares bindings ∧
          ∀ r ∈ targets, r.number? = none → env'.exit.depth < limits.maxDepth → ∀ w, bindings.get? r = some w →
            eval host limits (.ref r) { env'.exit with bindings } = (.value w, { env'.exit with bindings }))) := by
  intro assigned evaluated
  have hassigned : assigned = Action.nested limits.maxDepth _ env := congrFun (eval_eq_nested host limits _) env
  refine ⟨fun hle => ⟨_,hassigned.trans (Action.nested_of_le _ hle)⟩,fun hlt => ?_⟩
  rw [hassigned, Action.nested_of_lt _ hlt]
  simp only [Eval.node, Bind.bind, Action.bind, hspares.within_eq]
  constructor
  · intro e env' hvalue
    simp only [evaluated] at hvalue
    simp only [hvalue]
  intro v env' hvalue
  simp only [evaluated] at hvalue
  simp only [hvalue]
  constructor
  · intro hshort
    obtain ⟨e,he⟩ := Eval.bindTargets_of_short hshort env'
    refine ⟨e,?_⟩
    simp only [he]
  · intro hshort
    obtain ⟨shares,hshares⟩ := exists_shares hne hshort
    refine ⟨shares,_,hshares,?_,OrderedMap.rebinds_insertAll env'.bindings hshares.length_le,?_⟩
    · simp only [Eval.bindTargets_of_shares hshares]
      rfl
    · intro r _ hr hdepth w hw
      exact Eval.within_ref (Nat.zero_lt_succ _) (by exact hdepth) hr hw

/-- The first of the targets is new and occurs again, and evaluating the value binds something itself. One target more, and
only that is left. -/
theorem assignment_all_or_nothing_repeated :
    let host : Host Empty := fun code => nomatch code
    let a : Ref := .symbol "a"
    let b : Ref := .symbol "b"
    let items : List (Value Empty) := [.text "x", .text "y", .text "z"]
    let value : Term := .block (.enclosed .paren) [.assign [.symbol "q"] (.str "'new'"), .symbol "p"]
    let env : Env Empty := { bindings := [(.symbol "p", .seq items), (b, .text "old")] }
    let env' := env.define (.symbol "q") (.text "new")
    (∃ bindings, eval host ⟨4, 0⟩ (.assign [a, b, a] value) env = (.value (.seq items), { env' with bindings }) ∧
      bindings.keys = [.symbol "p", b, .symbol "q", a] ∧
      bindings.get? a = some (.text "z") ∧ bindings.get? b = some (.text "y") ∧
      eval host ⟨4, 0⟩ (.ref a) { env' with bindings } = (.value (.text "z"), { env' with bindings })) ∧
    ∃ e, eval host ⟨4, 0⟩ (.assign [a, b, a, b] value) env = (.error e, env') := by
  intro host a b items value env env'
  have hnative : ({ env with depth := env.depth + 1 } : Env Empty).Native :=
    ⟨List.all_eq_true.mp rfl,List.forall_mem_nil _,List.forall_mem_nil _⟩
  have hspares : Eval.Spares host ⟨4, 0⟩ 1 value { env with depth := env.depth + 1 } :=
    hnative.spares host ⟨4, 0⟩ (by decide) value
  have hvalue : eval host ⟨4, 0⟩ value { env with depth := env.depth + 1 } =
      (.value (.seq items), { env' with depth := 1 }) := by
    rw [eval_eq_within host ⟨4, 0⟩ value hnative (show 4 - 1 < 4 by decide)]
    rfl
  constructor
  · obtain ⟨_,hbound⟩ := assignment_all_or_nothing host ⟨4, 0⟩ (List.cons_ne_nil a [b, a]) value env hspares
    have hlong : ¬Short [a, b, a] (.seq items) := fun h => absurd (h.2 items rfl) (Nat.lt_irrefl 3)
    obtain ⟨shares,bindings,hshares,hassigned,hrebinds,hrefs⟩ := ((hbound (by decide)).2 _ _ hvalue).2 hlong
    cases hshares
    have ha : bindings.get? a = some (.text "z") := by
      obtain ⟨i,w,hi,hlast,hw,hget⟩ := hrebinds.last a List.mem_cons_self
      rcases i with _ | _ | _ | i
      · exact absurd (by decide) hlast
      · exact absurd hi (by decide)
      · rw [hget, ← hw]
        rfl
      · cases hi
    have hb : bindings.get? b = some (.text "y") := by
      obtain ⟨i,w,hi,hlast,hw,hget⟩ := hrebinds.last b (List.mem_cons_of_mem _ List.mem_cons_self)
      rcases i with _ | _ | _ | i
      · exact absurd hi (by decide)
      · rw [hget, ← hw]
        rfl
      · exact absurd hi (by decide)
      · cases hi
    exact ⟨bindings,hassigned,hrebinds.order,ha,hb,hrefs a List.mem_cons_self (by cbv) (by decide) _ ha⟩
  · obtain ⟨_,hbound⟩ := assignment_all_or_nothing host ⟨4, 0⟩ (List.cons_ne_nil a [b, a, b]) value env hspares
    refine ((hbound (by decide)).2 _ _ hvalue).1 ⟨by decide,?_⟩
    rintro _ ⟨⟩
    decide

end Gapscript
