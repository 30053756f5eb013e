import Gapscript.Proofs.Runs

/-! # Pipelines

A pipeline hands a value from call to call. The macro of the pipe takes the last stage first and leaves the stages before
it as an argument that is not evaluated yet, so that the calls end up inside one another, each two levels further in than
the one that takes its value. Written as nested calls they are one level apart. Step by step the nested calls do the same
further out.
-/
namespace Gapscript

variable {ν : Type}

namespace Term

/-- Hand `x` to the calls of `stages` one after the other by pipes. -/
def piped (x : Term) (stages : List (Term × List Term)) : Term :=
  stages.foldl (fun t stage => .apply (.ref Macro.pipe.key) [t, .apply stage.1 stage.2]) x

/-- Give `x` to the first of the calls as its last argument, and the value of each call to the next. -/
def nestedCalls (x : Term) (stages : List (Term × List Term)) : Term :=
  stages.foldl (fun t stage => .apply stage.1 (stage.2 ++ [t])) x

end Term

/-! ## Applications that a macro expands and those that none does -/

/-- One step is enough if no macro expands what it has led to. -/
theorem MacroTable.expand_once {table : MacroTable} {m : Macro} (hm : table.innermost? m.key = some m) {g : Term}
    (hg : table.forOperator? g = none) {max : Nat} (hmax : 1 ≤ max) {operands args : List Term}
    (hexpand : m.expand operands = .ok (.apply g args)) :
    table.expand max (.ref m.key) operands = .ok (some (.apply g args)) := by
  obtain ⟨steps,rfl⟩ : ∃ steps, max = steps + 1 := ⟨max - 1,by omega⟩
  have hoperator : table.forOperator? (.ref m.key) = some m := hm
  simp only [expand, hoperator, expandBy, hexpand, redex?, hg, Option.map_none]

theorem MacroTable.expand_of_none {table : MacroTable} {g : Term} (hg : table.forOperator? g = none) (max : Nat)
    (args : List Term) : table.expand max g args = .ok none := by
  simp only [expand, hg]

namespace Eval

variable {host : Host ν} {limits : Limits} {sub : Term → Action ν (Value ν)} {operator : Term} {args : List Term}
  {env : Env ν}

theorem application_of_expand {t : Term}
    (h : env.macros.expand limits.maxExpansions operator args = .ok (some t)) :
    application host limits sub operator args env = sub t env := by
  simp only [application, Bind.bind, Action.bind, Action.reading, h, Except.mapError, Outcome.ofExcept]

theorem application_of_call (h : env.macros.expand limits.maxExpansions operator args = .ok none) :
    application host limits sub operator args env =
      (do let f ← sub operator; let values ← Action.each sub args; call host f values) env := by
  simp only [application, Bind.bind, Action.bind, Action.reading, h, Except.mapError, Outcome.ofExcept]

end Eval

theorem Action.Carries.congr {α : Type} {stops : EvalError → Prop} {table : MacroTable} {d d' : Nat} {P : α → Prop}
    {act act' first second : Action ν α} (h : Carries stops table d d' P first second) (hends : Ends d P act)
    (hfirst : ∀ env : Env ν, env.macros = table → act env = first env)
    (hsecond : ∀ env : Env ν, env.macros = table → act' env = second env) : Carries stops table d d' P act act' where
  ends := hends
  moves env henv hmacros hd hfinal := by
    rw [hfirst env hmacros] at hfinal ⊢
    obtain ⟨hkept,hmoved⟩ := h.moves env henv hmacros hd hfinal
    refine ⟨hkept,fun frames => ?_⟩
    have hmacros' : (env.moved d' frames).macros = table := hmacros
    rw [hsecond _ hmacros', hmoved]

/-! ## Stage by stage -/

section

variable (host : Host ν) (limits : Limits) (stops : EvalError → Prop) (table : MacroTable)

/-- With the macros of `table`, evaluating `t'` does the same as evaluating `t`, at the same level and further out. -/
def Exchangeable (t t' : Term) : Prop :=
  ∀ d d' budget budget', Action.Outwards stops d d' → limits.maxDepth - d < budget → limits.maxDepth - d' < budget' →
    Action.Carries stops table d d' (Value.native ·) (Eval.within host limits budget t) (Eval.within host limits budget' t')

variable {host limits stops table}

namespace Exchangeable

theorem refl (t : Term) : Exchangeable host limits stops table t t := by
  intro d d' budget budget' hout h h'
  exact .within host limits hout h h' t

/-- The last argument of a call may be exchanged. -/
theorem call {t t' g : Term} (h : Exchangeable host limits stops table t t') (hg : table.forOperator? g = none)
    (args : List Term) : Exchangeable host limits stops table (.apply g (args ++ [t])) (.apply g (args ++ [t'])) := by
  intro d d' budget budget' hout hbudget hbudget'
  obtain ⟨budget,rfl⟩ : ∃ n, budget = n + 1 := ⟨budget - 1,by omega⟩
  obtain ⟨budget',rfl⟩ : ∃ n, budget' = n + 1 := ⟨budget' - 1,by omega⟩
  have hle := hout.le
  refine .nested hout fun hlt => ?_
  have hinside {u u' : Term} (hu : Exchangeable host limits stops table u u') :
      Action.Carries stops table (d + 1) (d' + 1) (Value.native ·) (Eval.within host limits budget u)
        (Eval.within host limits budget' u') := by
    refine hu _ _ _ _ hout.succ ?_ ?_
    · omega
    · omega
  have hargs : List.Forall₂ (fun u u' => Action.Carries stops table (d + 1) (d' + 1) (Value.native ·)
      (Eval.within host limits budget u) (Eval.within host limits budget' u')) (args ++ [t]) (args ++ [t']) :=
    List.rel_append (List.forall₂_same.mpr fun u _ => hinside (.refl u)) (.cons (hinside h) .nil)
  refine (Action.Carries.invocation host (hinside (.refl g)) hargs).congr ?_ ?_ ?_
  · exact .node host limits (fun u => (hinside (.refl u)).ends) _
  · rintro env rfl
    exact Eval.application_of_call (MacroTable.expand_of_none hg _ _)
  · rintro env rfl
    exact Eval.application_of_call (MacroTable.expand_of_none hg _ _)

variable (hstops : ∀ depth max, stops (.depthExceeded depth max))
  (hpipe : table.innermost? Macro.pipe.key = some Macro.pipe) (hmax : 1 ≤ limits.maxExpansions)
include hstops hpipe hmax

/-- One stage of a pipeline is a call, one level further in than the call written as such. -/
theorem pipe {t t' g : Term} (h : Exchangeable host limits stops table t t') (hg : table.forOperator? g = none)
    (args : List Term) : Exchangeable host limits stops table (.apply (.ref Macro.pipe.key) [t, .apply g args])
      (.apply g (args ++ [t'])) := by
  intro d d' budget budget' hout hbudget hbudget'
  obtain ⟨budget,rfl⟩ : ∃ n, budget = n + 1 := ⟨budget - 1,by omega⟩
  have hle := hout.le
  refine .unnested hstops fun hlt => ?_
  have hout' : Action.Outwards stops (d + 1) d' := ⟨by omega,fun _ => hstops⟩
  have hcall := h.call hg args (d + 1) d' budget budget' hout' (by omega) hbudget'
  refine hcall.congr ?_ ?_ ?_
  · exact .node host limits (fun u => .within host limits (by omega) u) _
  · rintro env rfl
    exact Eval.application_of_expand (MacroTable.expand_once hpipe hg hmax rfl)
  · rintro env _
    rfl

theorem stages {t t' : Term} (h : Exchangeable host limits stops table t t') (stages : List (Term × List Term))
    (hstages : ∀ stage ∈ stages, table.forOperator? stage.1 = none) :
    Exchangeable host limits stops table (t.piped stages) (t'.nestedCalls stages) := by
  induction stages generalizing t t' with
  | nil => exact h
  | cons stage stages ih =>
    obtain ⟨hstage,hrest⟩ := List.forall_mem_cons.mp hstages
    exact ih (h.pipe hstops hpipe hmax hstage stage.2) hrest

end Exchangeable

end

/-- A pipeline is nested calls. Where programs from the prelude have led, and unless levels run out, a pipeline of calls
that no macro expands has the same outcome as the calls nested in one another and leaves the same environment and
output. -/
theorem eval_nestedCalls_eq_piped (host : Host ν) (limits : Limits) (hmax : 1 ≤ limits.maxExpansions) {env : Env ν}
    (henv : env.Reached host) (x : Term) (stages : List (Term × List Term))
    (hstages : ∀ stage ∈ stages, env.macros.forOperator? stage.1 = none)
    (hdepth : ∀ depth max, (eval host limits (x.piped stages) env).1 ≠ .error (.depthExceeded depth max)) :
    eval host limits (x.nestedCalls stages) env = eval host limits (x.piped stages) env := by
  obtain ⟨hnative,hmacros⟩ := henv.native_and_macros
  have hpipe : env.macros.innermost? Macro.pipe.key = some Macro.pipe := by
    rw [hmacros]
    rfl
  have hexchange : Exchangeable host limits (fun e => ∃ depth max, e = .depthExceeded depth max) env.macros
      (x.piped stages) (x.nestedCalls stages) :=
    (Exchangeable.refl x).stages (fun depth max => ⟨depth,max,rfl⟩) hpipe hmax stages hstages
  have hcarries := hexchange env.depth env.depth _ _ (.refl _ _) (limits.levels_lt_budget _) (limits.levels_lt_budget _)
  have hended := (hcarries.ends env hnative rfl).1
  refine hcarries.eq_of_final hnative ?_
  rw [eval] at hdepth
  cases hr : (Eval.within host limits limits.budget (x.piped stages) env).1 with
  | value v => trivial
  | error e =>
    rintro ⟨depth,max,rfl⟩
    exact hdepth depth max hr
  | unfinished =>
    rw [hr] at hended
    exact hended

/-- An embedding without functions. -/
def hostless : Host Empty := fun code => nomatch code

def preludeOnly : Env Empty := Env.withPrelude {}

/-- A call of the operator that makes lists, and one of the function that writes to the diagnostics. -/
def listingStages : List (Term × List Term) := [(.ref ⟨.postop, ","⟩, [.str "'b'"]), (.symbol "debug", [])]

/-- The pipeline uses five levels and the nested calls three, but both list and write the same. -/
theorem eval_nestedCalls_eq_piped_listing :
    (∀ stage ∈ listingStages, preludeOnly.macros.forOperator? stage.1 = none) ∧
    (eval hostless ⟨5, 1⟩ ((Term.str "'a'").piped listingStages) preludeOnly).1 = .value (.seq [.text "b", .text "a"]) ∧
    eval hostless ⟨5, 1⟩ ((Term.str "'a'").nestedCalls listingStages) preludeOnly =
      eval hostless ⟨5, 1⟩ ((Term.str "'a'").piped listingStages) preludeOnly ∧
    (eval hostless ⟨4, 1⟩ ((Term.str "'a'").piped listingStages) preludeOnly).1 = .error (.depthExceeded 5 4) := by
  have hstages : ∀ stage ∈ listingStages, preludeOnly.macros.forOperator? stage.1 = none := by
    intro stage hstage
    simp only [listingStages, List.mem_cons, List.not_mem_nil, or_false] at hstage
    rcases hstage with rfl | rfl
    · rfl
    · rfl
  have hreached : preludeOnly.Reached hostless := .prelude {}
  have hnative := hreached.native_and_macros.1
  -- The first stage is evaluated two levels further in, as the argument of the second.
  have hfirst : Eval.within hostless ⟨5, 1⟩ 4 ((Term.str "'a'").piped [(.ref ⟨.postop, ","⟩, [.str "'b'"])])
      { preludeOnly with depth := 2 } = (.value (.seq [.text "b", .text "a"]), { preludeOnly with depth := 2 }) := by
    have hcalled : Eval.within hostless ⟨5, 1⟩ 4 ((Term.str "'a'").piped [(.ref ⟨.postop, ","⟩, [.str "'b'"])])
        { preludeOnly with depth := 2 } = Action.nested 5 (Action.nested 5
          (call hostless (.builtin (.primitive .list)) [.text "b", .text "a"])) { preludeOnly with depth := 2 } := rfl
    rw [hcalled, call]
    rfl
  have hpiped : (eval hostless ⟨5, 1⟩ ((Term.str "'a'").piped listingStages) preludeOnly).1 =
      .value (.seq [.text "b", .text "a"]) := by
    have hcalled : Eval.within hostless ⟨5, 1⟩ 6 ((Term.str "'a'").piped listingStages) preludeOnly =
        Action.nested 5 (Action.nested 5 (Action.bind
          (Action.each (Eval.within hostless ⟨5, 1⟩ 4) [(Term.str "'a'").piped [(.ref ⟨.postop, ","⟩, [.str "'b'"])]])
          fun values => call hostless (.builtin (.primitive .debug)) values)) preludeOnly := rfl
    have hlevels {env : Env Empty} (h : env.depth = 0) (act : Action Empty (Value Empty)) :
        (Action.nested 5 (Action.nested 5 act) env).1 = (act { env with depth := 2 }).1 := by
      have hlt : env.depth < 5 := by omega
      have hlt' : ({ env with depth := env.depth + 1 } : Env Empty).depth < 5 := Nat.add_lt_of_lt_sub (by omega)
      rw [Action.nested_of_lt _ hlt, Action.nested_of_lt _ hlt']
      simp only [h]
    rw [eval_eq_within hostless ⟨5, 1⟩ _ hnative (show 5 - 0 < 6 by decide), hcalled, hlevels rfl]
    simp only [Action.each, Action.bind, hfirst, Action.pure]
    rw [call.eq_def]
    rfl
  have hrefused : (eval hostless ⟨4, 1⟩ ((Term.str "'a'").piped listingStages) preludeOnly).1 =
      .error (.depthExceeded 5 4) := by
    rw [eval_eq_within hostless ⟨4, 1⟩ _ hnative (show 4 - 0 < 5 by decide)]
    rfl
  refine ⟨hstages,hpiped,?_,hrefused⟩
  refine eval_nestedCalls_eq_piped hostless ⟨5, 1⟩ (by decide) hreached _ listingStages hstages ?_
  intro depth max h
  rw [hpiped] at h
  cases h

end Gapscript
