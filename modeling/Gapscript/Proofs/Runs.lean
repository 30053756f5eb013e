import Gapscript.Program
import Gapscript.Proofs.Lines
import Gapscript.Proofs.Relocation

/-! # One program after another

Between two programs an environment is at no level and inside no block. A program leaves nothing there but bindings and
what it has written, and the block that it opens makes no difference to its statements. So the statements of two programs
have the same effect in one program as they have in two.
-/
namespace Gapscript

variable {ν α β : Type}

/-! ## Statements in one block and in two -/

namespace Action

/-- How a block ends when its statements have ended. -/
def closed : Outcome EvalError Unit × Env ν → Outcome EvalError (Value ν) × Env ν
  | (.value _, env) => (.value (env.popBlock.1.getD .undefined), env.popBlock.2)
  | (.error e, env) => (.error e, env.popBlock.2)
  | (.unfinished, env) => (.unfinished, env.popBlock.2)

theorem inBlock_eq_closed (act : Action ν Unit) (env : Env ν) : inBlock act env = closed (act env.pushBlock) := by
  unfold inBlock closed
  rcases act env.pushBlock with ⟨_ | _ | _, env'⟩ <;> rfl

/-- One level may be left and entered again between two actions. -/
theorem nested_bind {max : Nat} {act : Action ν α} (f : α → Action ν β) {env : Env ν}
    (h : env.depth < max → (act { env with depth := env.depth + 1 }).2.depth = env.depth + 1) :
    nested max (act >>= f) env = (nested max act >>= fun a => nested max (f a)) env := by
  simp only [Bind.bind, Action.bind]
  by_cases hlt : env.depth < max
  · have hdepth := h hlt
    rw [nested_of_lt _ hlt, nested_of_lt _ hlt]
    rcases hact : act { env with depth := env.depth + 1 } with ⟨a | e | _, env'⟩
    · replace hdepth : env'.depth = env.depth + 1 := by rwa [hact] at hdepth
      have hexit : env'.exit.depth = env.depth := by
        simp only [Env.exit, hdepth, Nat.add_sub_cancel]
      have henter : { env'.exit with depth := env'.exit.depth + 1 } = env' := by
        rw [hexit, ← hdepth]
        rfl
      simp only [Action.bind, hact]
      rw [nested_of_lt _ (hexit ▸ hlt), henter]
    · simp only [Action.bind, hact]
    · simp only [Action.bind, hact]
  · have hle := Nat.le_of_not_lt hlt
    simp only [nested_of_le _ hle]

end Action

namespace Eval
open Gapscript.Action

variable {table : MacroTable} {d : Nat} {sub : Term → Action ν (Value ν)}

theorem statements_append (ss ts : List Term) (env : Env ν) :
    statements sub (ss ++ ts) env = (statements sub ss >>= fun _ => statements sub ts) env := by
  induction ss generalizing env with
  | nil => rfl
  | cons t ss ih =>
    simp only [List.cons_append, statements, Bind.bind, Action.bind]
    rcases sub t env with ⟨v | e | _, env'⟩
    · exact ih (env'.record v)
    · rfl
    · rfl

section

variable (hsub : ∀ t, Carries (fun _ => False) table d d (Value.native ·) (sub t) (sub t))
include hsub

/-- What a block has recorded before is forgotten with its next statement. -/
theorem closed_statements (t : Term) (ts : List Term) {env : Env ν} {v : Value ν} {frames : List (Frame ν)}
    (henv : env.Native) (hmacros : env.macros = table) (hd : env.depth = d)
    (hframes : env.frames = { result := v } :: frames) :
    closed (statements sub (t :: ts) env) = block sub (t :: ts) { env with frames } := by
  have hrest : ∀ f ∈ frames, f.result.native := fun f hf => henv.results f (hframes ▸ List.mem_cons_of_mem _ hf)
  obtain ⟨inside,hinside⟩ : ∃ inside, ({ env with frames } : Env ν).pushBlock = inside := ⟨_,rfl⟩
  have hnative : inside.Native := by
    rw [← hinside]
    exact Env.Native.pushBlock ⟨henv.bindings,henv.methods,hrest⟩
  have hstart : inside.moved d ({ result := v } :: frames) = env := by
    rw [← hinside, ← hframes, ← hd]
    rfl
  have hmacros' : inside.macros = table := by
    rw [← hinside]
    exact hmacros
  have hd' : inside.depth = d := by
    rw [← hinside]
    exact hd
  have hframes' : inside.frames = {} :: frames := by
    rw [← hinside]
    rfl
  obtain ⟨hended,_,hdepth⟩ := Ends.statements (fun t => (hsub t).ends) (t :: ts) inside hnative hd'
  obtain ⟨recorded,_,hrecorded,hsome,hall⟩ :=
    exists_recorded hsub (t :: ts) hnative hmacros' hd' hframes' hended.final
  have hone := hall { result := v } frames
  rw [hstart] at hone
  rw [hone, block, inBlock_eq_closed, hinside]
  rcases hact : statements sub (t :: ts) inside with ⟨_ | e | _, env'⟩ <;>
    rw [hact] at hrecorded hsome hended hdepth
  · obtain ⟨w,rfl⟩ := Option.isSome_iff_exists.mp (hsome (List.cons_ne_nil t ts) _ rfl)
    simp only [closed, Env.popBlock_of_frames hrecorded, ← hdepth]
    rfl
  · simp only [closed, Env.popBlock_of_frames hrecorded, ← hdepth]
    rfl
  · exact hended.elim

/-- Statements may be spread over two blocks, if the second has any. -/
theorem block_append (ss : List Term) (t : Term) (ts : List Term) {env : Env ν} (henv : env.Native)
    (hmacros : env.macros = table) (hd : env.depth = d) :
    block sub (ss ++ t :: ts) env = (block sub ss >>= fun _ => block sub (t :: ts)) env := by
  obtain ⟨hended,hnative,hdepth⟩ := Ends.statements (fun t => (hsub t).ends) ss env.pushBlock henv.pushBlock hd
  obtain ⟨recorded,hmacros',hrecorded,_⟩ :=
    exists_recorded hsub ss henv.pushBlock hmacros hd rfl hended.final
  simp only [Bind.bind, Action.bind, block, inBlock_eq_closed, statements_append]
  rcases hact : statements sub ss env.pushBlock with ⟨_ | e | _, env'⟩ <;>
    rw [hact] at hended hnative hdepth hmacros' hrecorded
  · have hfirst : closed (.value (), env') = (.value (recorded.getD .undefined), { env' with frames := env.frames }) := by
      simp only [closed, Env.popBlock_of_frames hrecorded]
      rfl
    have hsecond : closed (statements sub (t :: ts) env') = block sub (t :: ts) { env' with frames := env.frames } :=
      closed_statements hsub t ts hnative hmacros' hdepth hrecorded
    simp only [hfirst]
    rw [hsecond, block, inBlock_eq_closed]
  · rfl
  · exact hended.elim

end

end Eval

/-! ## Programs -/

section

variable (host : Host ν) (limits : Limits)

theorem Limits.levels_lt_budget (d : Nat) : limits.maxDepth - d < limits.budget := by
  unfold Limits.budget
  omega

theorem Action.Ends.eval {d : Nat} (t : Term) : Ends d (Value.native ·) (eval host limits t) :=
  within host limits (limits.levels_lt_budget d) t

theorem Action.Carries.eval {stops : EvalError → Prop} {table : MacroTable} {d d' : Nat} (hout : Outwards stops d d')
    (t : Term) : Carries stops table d d' (Value.native ·) (eval host limits t) (eval host limits t) :=
  within host limits hout (limits.levels_lt_budget d) (limits.levels_lt_budget d') t

/-- Evaluation adds no function of the embedding, no macro and no block. -/
theorem eval_kept (t : Term) {env : Env ν} (henv : env.Native) :
    (eval host limits t env).2.Native ∧ env.Kept (eval host limits t env).2 := by
  have hcarries : Action.Carries (fun _ => False) env.macros env.depth env.depth (Value.native ·) (eval host limits t)
    (eval host limits t) := .eval host limits (.refl _ _) t
  obtain ⟨hended,hnative,_⟩ := hcarries.ends env henv rfl
  exact ⟨hnative,(hcarries.moves env henv rfl rfl hended.final).1⟩

theorem eval_eq_within (t : Term) {env : Env ν} (henv : env.Native) {budget : Nat}
    (h : limits.maxDepth - env.depth < budget) : eval host limits t env = Eval.within host limits budget t env := by
  have hends := (Action.Ends.within host limits h t env henv rfl).1
  have hends' := (Action.Ends.eval host limits t env henv rfl).1
  rcases Nat.le_total budget limits.budget with hle | hle
  · exact Eval.approximates_within host limits hle t env hends.final
  · exact (Eval.approximates_within host limits hle t env hends'.final).symm

theorem Env.Native.spares {env : Env ν} (henv : env.Native) {spare : Nat} (h : spare < 4294967296) (t : Term) :
    Eval.Spares host limits spare t env := by
  have hlevels : limits.maxDepth - env.depth < limits.budget - spare := by
    unfold Limits.budget
    omega
  have hended := (Action.Ends.within host limits hlevels t env henv rfl).1
  intro hr
  rw [hr] at hended
  exact hended

/-- The statements of a program may be spread over two programs, if the second has any. -/
theorem eval_block_append (kind : BlockKind) (ss : List Term) (t : Term) (ts : List Term) {env : Env ν}
    (henv : env.Native) : eval host limits (.block kind (ss ++ t :: ts)) env =
      (eval host limits (.block kind ss) >>= fun _ => eval host limits (.block kind (t :: ts))) env := by
  have hsub (t : Term) : Action.Carries (fun _ => False) env.macros (env.depth + 1) (env.depth + 1) (Value.native ·)
      (Eval.within host limits (limits.budget - 1) t) (Eval.within host limits (limits.budget - 1) t) := by
    have hlevels : limits.maxDepth - (env.depth + 1) < limits.budget - 1 := by
      unfold Limits.budget
      omega
    exact .within host limits (.refl _ _) hlevels hlevels t
  have henv' : ({ env with depth := env.depth + 1 } : Env ν).Native := henv.withDepth _
  have hblock := Eval.block_append hsub ss t ts henv' rfl rfl
  have hdepth := (Action.Carries.block hsub ss).ends _ henv' rfl
  simp only [eval_eq_nested, Eval.node]
  rw [← Action.nested_bind _ fun _ => hdepth.2.2]
  exact Action.nested_congr fun _ => hblock

end

namespace Env

/-- Environments that programs lead to from the prelude, each of them run under limits of its own. -/
inductive Reached (host : Host ν) : Env ν → Prop where
  | prelude (streams : Streams) : Reached host (withPrelude streams)
  | run {env : Env ν} (h : Reached host env) (limits : Limits) (source : String) :
      Reached host (runSource host limits source env).2

def preludeMacros : MacroTable :=
  [(Macro.pipe.key, [Macro.pipe]), (Macro.memberAccess.key, [Macro.memberAccess])]

theorem native_withPrelude (streams : Streams) : (withPrelude streams : Env ν).Native := by
  have hbuiltins : ∀ p ∈ (preludeBuiltins : List (Context × Builtin ν)), p.2.native := List.all_eq_true.mp rfl
  have hmethods : ∀ p ∈ (preludeMethods : List (String × Method ν)), p.2.native := List.all_eq_true.mp rfl
  have hempty : ({ streams } : Env ν).Native := ⟨List.forall_mem_nil _,List.forall_mem_nil _,List.forall_mem_nil _⟩
  refine Native.pushMacro (Native.pushMacro ?_ _) _
  refine List.foldlRecOn preludeMethods _ ?_ fun env henv p hp => henv.defineMethod p.1 (hmethods p hp)
  exact List.foldlRecOn preludeBuiltins _ hempty fun env henv p hp => henv.define _ (hbuiltins p hp)

/-- No program adds a function that is not built in, or a macro. -/
theorem Reached.native_and_macros {host : Host ν} {env : Env ν} (h : env.Reached host) :
    env.Native ∧ env.macros = preludeMacros := by
  induction h with
  | prelude streams => exact ⟨native_withPrelude streams,rfl⟩
  | @run env _ limits source ih =>
    obtain ⟨hnative,hmacros⟩ := ih
    rw [runSource]
    cases compile source with
    | error e => exact ⟨hnative,hmacros⟩
    | ok t =>
      obtain ⟨hnative',hkept⟩ := eval_kept host limits t hnative
      rcases heval : eval host limits t env with ⟨r, env'⟩
      rw [heval] at hnative' hkept
      simp only [evalProgram, heval]
      exact ⟨hnative',hkept.macros.trans hmacros⟩

end Env

/-- A session is one program. Where programs from the prelude have led, running `a` and then `b` has the same result as
running the lines of both and leaves the same environment and output, if `a` does not fail; if it does, `b` makes no
difference. -/
theorem run_append_newline (host : Host ν) (i : Interpreter ν) (hi : i.env.Reached host) {a b : String}
    (ha : ∃ s, compile a = .ok s) (hb : ∃ t ts, compile b = .ok (.block .top (t :: ts))) :
    (∀ v i', i.run host a = (.value v, i') → i.run host (a ++ "\n" ++ b) = i'.run host b) ∧
    (∀ e i', i.run host a = (.error e, i') → i.run host (a ++ "\n" ++ b) = (.error e, i')) ∧
    (i.run host a).1 ≠ .unfinished := by
  obtain ⟨_,ha⟩ := ha
  obtain ⟨t,ts,hb⟩ := hb
  obtain ⟨us,ss,hus,hss,rfl⟩ := compile_eq_ok_iff.mp ha
  obtain ⟨vs,_,hvs,hts,⟨⟩⟩ := compile_eq_ok_iff.mp hb
  obtain ⟨ws,hws,hlexemes⟩ := Scan.scan_append_newline hus hvs
  have hboth : compile (a ++ "\n" ++ b) = .ok (.block .top (ss ++ t :: ts)) := by
    refine compile_eq_ok_iff.mpr ⟨ws,ss ++ t :: ts,hws,?_,rfl⟩
    rw [hlexemes]
    exact hss.append hts
  obtain ⟨hnative,_⟩ := hi.native_and_macros
  have heval := eval_block_append host i.limits .top ss t ts hnative
  have hended := (Action.Ends.eval host i.limits (.block .top ss) i.env hnative rfl).1
  rw [i.run_of_compile host ha, i.run_of_compile host hboth]
  simp only [Bind.bind, Action.bind] at heval
  rcases hfirst : eval host i.limits (.block .top ss) i.env with ⟨v | e | _, env⟩ <;> rw [hfirst] at heval hended
  · rw [Interpreter.eval_of_eval hfirst]
    refine ⟨?_,?_,?_⟩
    · rintro _ _ ⟨⟩
      rcases hsecond : eval host i.limits (.block .top (t :: ts)) env with ⟨r, env'⟩
      rw [Interpreter.run_of_compile host _ hb, Interpreter.eval_of_eval (heval.trans hsecond),
        Interpreter.eval_of_eval hsecond]
    · rintro _ _ ⟨⟩
    · rintro ⟨⟩
  · rw [Interpreter.eval_of_eval hfirst]
    refine ⟨?_,?_,?_⟩
    · rintro _ _ ⟨⟩
    · rintro _ _ ⟨⟩
      exact Interpreter.eval_of_eval heval
    · rintro ⟨⟩
  · exact hended.elim

/-- What has been bound before a program fails stays bound in both cases. -/
theorem run_append_newline_undefined :
    let host : Host Empty := fun code => nomatch code
    let i : Interpreter Empty := { env := Env.withPrelude {}, limits := ⟨4, 1⟩ }
    ∃ i', i.run host "x = 'hi'" = (.value (.text "hi"), i') ∧
      i.run host ("x = 'hi'" ++ "\n" ++ "y = x") = i'.run host "y = x" ∧
      (i'.run host "y = x").1 = .value (.text "hi") ∧
      i.run host ("x = 'hi'\nz" ++ "\n" ++ "y = x") = (.error (.eval (.undefinedName (.symbol "z"))), i') := by
  intro host i
  have hi : i.env.Reached host := .prelude {}
  have hnative := hi.native_and_macros.1
  -- The levels left are few, so a small budget is as good as the one that evaluation has.
  have hwithin (t : Term) {env : Env Empty} (henv : env.Native) (hdepth : env.depth = 0) :
      eval host i.limits t env = Eval.within host i.limits 5 t env :=
    eval_eq_within host i.limits t henv (by rw [hdepth]; decide)
  have hbind : eval host i.limits (.block .top [.assign [.symbol "x"] (.str "'hi'")]) i.env =
      (.value (.text "hi"), i.env.define (.symbol "x") (.text "hi")) := by
    rw [hwithin _ hnative rfl]
    rfl
  have hfail : eval host i.limits (.block .top [.assign [.symbol "x"] (.str "'hi'"), .symbol "z"]) i.env =
      (.error (.undefinedName (.symbol "z")), i.env.define (.symbol "x") (.text "hi")) := by
    rw [hwithin _ hnative rfl]
    rfl
  have hread : eval host i.limits (.block .top [.assign [.symbol "y"] (.symbol "x")])
      (i.env.define (.symbol "x") (.text "hi")) =
      (.value (.text "hi"), (i.env.define (.symbol "x") (.text "hi")).define (.symbol "y") (.text "hi")) := by
    rw [hwithin _ (hnative.define _ rfl) rfl]
    rfl
  have hbind' : i.run host "x = 'hi'" = _ := (i.run_of_compile host rfl).trans (Interpreter.eval_of_eval hbind)
  have hfail' : i.run host "x = 'hi'\nz" = _ := (i.run_of_compile host rfl).trans (Interpreter.eval_of_eval hfail)
  have hsame := @run_append_newline Empty host i hi "x = 'hi'" "y = x" ⟨_,rfl⟩ ⟨_,_,rfl⟩
  have hstop := @run_append_newline Empty host i hi "x = 'hi'\nz" "y = x" ⟨_,rfl⟩ ⟨_,_,rfl⟩
  refine ⟨_,hbind',hsame.1 _ _ hbind',?_,hstop.2.1 _ _ hfail'⟩
  rw [Interpreter.run_of_compile host _ rfl, Interpreter.eval_of_eval hread]
  rfl

end Gapscript
