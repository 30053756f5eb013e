import Gapscript.Proofs.Limits
import Gapscript.Proofs.Termination
import Mathlib.Data.List.Forall2

/-! # The same evaluation elsewhere

Without functions of the embedding, evaluation takes no notice of the blocks that are open around it, and of the level
only when there are no more levels to go. So it has the same outcome inside other blocks, and further out too unless it
was refused for its depth, and it changes the environment in the same way. This is proved for all that evaluation is
put together from.
-/
namespace Gapscript

variable {ν α β : Type}

namespace Env

/-- The environment at another level and inside other blocks. -/
def moved (env : Env ν) (depth : Nat) (frames : List (Frame ν)) : Env ν := { env with depth, frames }

/-- The macros and the open blocks are the same. -/
structure Kept (env env' : Env ν) : Prop where
  macros : env'.macros = env.macros
  frames : env'.frames = env.frames

theorem Kept.refl (env : Env ν) : env.Kept env := ⟨rfl,rfl⟩

theorem Kept.trans {env env' env'' : Env ν} (h : env.Kept env') (h' : env'.Kept env'') : env.Kept env'' :=
  ⟨h'.macros.trans h.macros,h'.frames.trans h.frames⟩

theorem popBlock_of_frames {env : Env ν} {v : Value ν} {frames : List (Frame ν)}
    (h : env.frames = { result := v } :: frames) : env.popBlock = (some v, { env with frames }) := by
  rw [popBlock, h]
  rfl

end Env

namespace Action

/-- A property of actions that the built-in functions have and that is kept where actions are put together. No call fails for
a limit. -/
structure Compositional (P : (α : Type) → Action ν α → Prop) : Prop where
  pure {α : Type} (a : α) : P α (Pure.pure a)
  fail {α : Type} {e : EvalError} (h : ¬e.OfLimit) : P α (Action.fail e)
  bind {α β : Type} {act : Action ν α} {f : α → Action ν β} (h : P α act) (hf : ∀ a, P β (f a)) : P β (act >>= f)
  primitive (p : Primitive) (args : List (Value ν)) : P (Value ν) (p.run args)
  primitiveMethod (m : PrimitiveMethod) (receiver : Value ν) (args : List (Value ν)) : P (Value ν) (m.run receiver args)

namespace Compositional

variable {P : (α : Type) → Action ν α → Prop}

theorem each (hP : Compositional P) {f : α → Action ν β} {as : List α} (h : ∀ a ∈ as, P β (f a)) :
    P (List β) (Action.each f as) := by
  induction as with
  | nil => exact hP.pure []
  | cons a as ih =>
    obtain ⟨ha,has⟩ := List.forall_mem_cons.mp h
    exact hP.bind ha fun b => hP.bind (ih has) fun bs => hP.pure (b :: bs)

theorem checkArity (hP : Compositional P) (name : String) (arity : Int) (args : List (Value ν)) :
    P Unit (Gapscript.checkArity name arity args) := by
  unfold Gapscript.checkArity
  split
  · exact hP.fail id
  · exact hP.pure ()

/-- A call of a native function is put together from built-in functions. -/
theorem call (hP : Compositional P) (host : Host ν) (f : Value ν) (args : List (Value ν)) (hf : f.native)
    (hargs : ∀ a ∈ args, a.native) : P (Value ν) (Gapscript.call host f args) := by
  fun_induction Gapscript.call host f args with
  | case1 => exact hP.pure _
  | case2 g items ih =>
    obtain ⟨hg,hitems⟩ : g.native ∧ ∀ x ∈ items, x.native := by simpa using hargs
    exact hP.bind (hP.each fun x _ => ih x hg (by simpa using hitems x.val x.property)) fun values => hP.pure _
  | case7 type items g ih =>
    have hg : g.native := hargs g (by simp)
    have hitems : ∀ x ∈ items, x.native := Value.native_seq.mp (Value.native_method.mp hf).2
    exact hP.bind (hP.each fun x _ => ih x hg (by simpa using hitems x.val x.property)) fun values => hP.pure _
  | case3 | case4 | case8 | case9 | case10 | case14 => exact hP.fail id
  | case5 => exact hP.bind (hP.checkArity _ _ _) fun _ => hP.primitive _ _
  | case11 => exact hP.bind (hP.checkArity _ _ _) fun _ => hP.primitiveMethod _ _ _
  | case6 => cases hf
  | case12 => cases (Value.native_method.mp hf).1
  | case13 => exact hP.pure _

end Compositional

/-! ## Actions that take no notice of level and blocks -/

/-- The action neither looks at the level and the blocks nor changes them, and it leaves the macros alone. -/
def Floats (act : Action ν α) : Prop :=
  ∀ env, env.Kept (act env).2 ∧
    ∀ depth frames, act (env.moved depth frames) = ((act env).1, (act env).2.moved depth frames)

namespace Floats

theorem pure (a : α) : Floats (Pure.pure a : Action ν α) := fun env => ⟨.refl env,fun _ _ => rfl⟩

theorem fail (e : EvalError) : Floats (Action.fail e : Action ν α) := fun env => ⟨.refl env,fun _ _ => rfl⟩

theorem lift (r : Except EvalError α) : Floats (Action.lift r : Action ν α) := fun env => ⟨.refl env,fun _ _ => rfl⟩

theorem reading {f : Env ν → Except EvalError α} (h : ∀ env depth frames, f (env.moved depth frames) = f env) :
    Floats (Action.reading f) := by
  intro env
  refine ⟨.refl env,fun depth frames => ?_⟩
  simp only [Action.reading, h]

theorem modify {f : Env ν → Env ν} (hkept : ∀ env : Env ν, env.Kept (f env))
    (hmoved : ∀ env depth frames, f (env.moved depth frames) = (f env).moved depth frames) :
    Floats (Action.modify f) := by
  intro env
  refine ⟨hkept env,fun depth frames => ?_⟩
  simp only [Action.modify, hmoved]

theorem bind {act : Action ν α} {f : α → Action ν β} (h : Floats act) (hf : ∀ a, Floats (f a)) :
    Floats (act >>= f) := by
  intro env
  obtain ⟨hkept,hmoved⟩ := h env
  simp only [Bind.bind, Action.bind, hmoved]
  rcases hact : act env with ⟨a | e | _, env'⟩ <;> rw [hact] at hkept
  · obtain ⟨hkept',hmoved'⟩ := hf a env'
    exact ⟨hkept.trans hkept',hmoved'⟩
  · exact ⟨hkept,fun _ _ => rfl⟩
  · exact ⟨hkept,fun _ _ => rfl⟩

theorem readAll (name : String) : Floats (Action.readAll name : Action ν String) := by
  intro env
  simp only [Action.readAll, Env.moved]
  rcases env.streams.input.readAll with ⟨_ | _, input⟩
  · exact ⟨⟨rfl,rfl⟩,fun _ _ => rfl⟩
  · exact ⟨⟨rfl,rfl⟩,fun _ _ => rfl⟩

theorem write (name text : String) : Floats (Action.write name text : Action ν Unit) := by
  intro env
  simp only [Action.write, Env.moved]
  rcases env.streams.output.write text with ⟨_ | _, output⟩
  · exact ⟨⟨rfl,rfl⟩,fun _ _ => rfl⟩
  · exact ⟨⟨rfl,rfl⟩,fun _ _ => rfl⟩

theorem writeDiagnostic (name line : String) : Floats (Action.writeDiagnostic name line : Action ν Unit) := by
  intro env
  simp only [Action.writeDiagnostic, Env.moved]
  rcases env.streams.diagnostics.write (line ++ "\n") with ⟨_ | _, diagnostics⟩
  · exact ⟨⟨rfl,rfl⟩,fun _ _ => rfl⟩
  · exact ⟨⟨rfl,rfl⟩,fun _ _ => rfl⟩

theorem primitive (p : Primitive) (args : List (Value ν)) : Floats (p.run args) := by
  unfold Primitive.run
  split
  case h_7 | h_8 | h_9 => exact pure _
  case h_12 => exact bind (writeDiagnostic _ _) fun _ => pure _
  case h_14 => exact reading fun _ _ _ => rfl
  case h_15 => exact fail _
  all_goals exact lift _

theorem primitiveMethod (m : PrimitiveMethod) (receiver : Value ν) (args : List (Value ν)) :
    Floats (m.run receiver args) := by
  unfold PrimitiveMethod.run
  split
  case h_1 => exact bind (readAll _) fun _ => pure _
  case h_2 => exact bind (write _ _) fun _ => pure _
  case h_11 => exact fail _
  all_goals exact lift _

theorem compositional : Compositional (@Floats ν) := ⟨pure,fun _ => fail _,bind,primitive,primitiveMethod⟩

/-- A call of a native function has to do with nothing but its arguments, the methods and the streams. -/
theorem call (host : Host ν) (f : Value ν) (args : List (Value ν)) (hf : f.native) (hargs : ∀ a ∈ args, a.native) :
    Floats (Gapscript.call host f args) :=
  compositional.call host f args hf hargs

theorem bindTargets (targets : List Ref) (v : Value ν) : Floats (Eval.bindTargets targets v) := by
  have hmany (pairs : List (Ref × Value ν)) :
      Floats (Action.modify fun env : Env ν => pairs.foldl (fun env p => env.define p.1 p.2) env) := by
    refine modify (fun env => ?_) (fun env depth frames => ?_)
    · induction pairs generalizing env with
      | nil => exact .refl env
      | cons p pairs ih =>
        have hfirst : env.Kept (env.define p.1 p.2) := ⟨rfl,rfl⟩
        exact hfirst.trans (ih (env.define p.1 p.2))
    · induction pairs generalizing env with
      | nil => rfl
      | cons p pairs ih => exact ih (env.define p.1 p.2)
  unfold Eval.bindTargets
  split
  · exact modify (fun _ => ⟨rfl,rfl⟩) fun _ _ _ => rfl
  · split
    · split
      · exact fail _
      · exact hmany _
    · exact fail _

end Floats

/-! ## Actions carried to another place -/

/-- From a native environment at level `d` with the macros of `table`, `act` ends, and if its outcome is final, `act'` has
the same one at level `d'` inside any blocks. Both change the environment in the same way, and neither changes macros or
blocks. -/
structure Carries (stops : EvalError → Prop) (table : MacroTable) (d d' : Nat) (P : α → Prop) (act act' : Action ν α) :
    Prop where
  ends : Ends d P act
  moves (env : Env ν) (henv : env.Native) (hmacros : env.macros = table) (hd : env.depth = d)
    (hfinal : (act env).1.Final stops) : env.Kept (act env).2 ∧
      ∀ frames, act' (env.moved d' frames) = ((act env).1, (act env).2.moved d' frames)

/-- Level `d'` is level `d`, or it is further out and running out of levels is no final outcome. -/
structure Outwards (stops : EvalError → Prop) (d d' : Nat) : Prop where
  le : d' ≤ d
  stops (h : d' ≠ d) (depth max : Nat) : stops (.depthExceeded depth max)

theorem Outwards.refl (stops : EvalError → Prop) (d : Nat) : Outwards stops d d := ⟨Nat.le_refl d,fun h => (h rfl).elim⟩

theorem Outwards.succ {stops : EvalError → Prop} {d d' : Nat} (h : Outwards stops d d') :
    Outwards stops (d + 1) (d' + 1) := by
  refine ⟨Nat.succ_le_succ h.le,fun hne => h.stops ?_⟩
  omega

namespace Carries

variable {stops : EvalError → Prop} {table : MacroTable} {d d' : Nat} {P : α → Prop} {Q : β → Prop}
  {act act' : Action ν α}

theorem of_floats (hends : Ends d P act) (h : Floats act) : Carries stops table d d' P act act where
  ends := hends
  moves env _ _ _ _ := ⟨(h env).1,(h env).2 d'⟩

/-- At one and the same place the two actions do the same. -/
theorem eq_of_final {env : Env ν} (h : Carries stops env.macros env.depth env.depth P act act') (henv : env.Native)
    (hfinal : (act env).1.Final stops) : act' env = act env := by
  obtain ⟨_,_,hdepth⟩ := h.ends env henv rfl
  obtain ⟨hkept,hmoved⟩ := h.moves env henv rfl rfl hfinal
  have hsame : (act env).2.moved env.depth env.frames = (act env).2 := by
    rw [← hdepth, ← hkept.frames]
    rfl
  have hhere := hmoved env.frames
  rw [hsame] at hhere
  exact hhere

theorem bind {f f' : α → Action ν β} (h : Carries stops table d d' P act act')
    (hf : ∀ a, P a → Carries stops table d d' Q (f a) (f' a)) :
    Carries stops table d d' Q (act >>= f) (act' >>= f') where
  ends := h.ends.bind fun a ha => (hf a ha).ends
  moves env henv hmacros hd hfinal := by
    obtain ⟨hended,hnative,hdepth⟩ := h.ends env henv hd
    have hmoves := h.moves env henv hmacros hd
    simp only [Bind.bind, Action.bind] at hfinal ⊢
    rcases hact : act env with ⟨a | e | _, env'⟩ <;> rw [hact] at hended hnative hdepth hmoves hfinal
    · obtain ⟨hkept,hmoved⟩ := hmoves trivial
      obtain ⟨hkept',hmoved'⟩ := (hf a hended).moves env' hnative (hkept.macros.trans hmacros) hdepth hfinal
      refine ⟨hkept.trans hkept',fun frames => ?_⟩
      rw [hmoved frames]
      exact hmoved' frames
    · obtain ⟨hkept,hmoved⟩ := hmoves hfinal
      refine ⟨hkept,fun frames => ?_⟩
      rw [hmoved frames]
    · exact hfinal.elim

theorem each {f f' : α → Action ν β} {as as' : List α}
    (h : List.Forall₂ (fun a a' => Carries stops table d d' Q (f a) (f' a')) as as') :
    Carries stops table d d' (fun bs => ∀ b ∈ bs, Q b) (Action.each f as) (Action.each f' as') := by
  have hpure {bs : List β} (hbs : ∀ b ∈ bs, Q b) :
      Carries stops table d d' (fun bs => ∀ b ∈ bs, Q b) (Pure.pure bs : Action ν (List β)) (Pure.pure bs) :=
    of_floats (.pure hbs) (.pure bs)
  induction h with
  | nil => exact hpure (List.forall_mem_nil Q)
  | cons hhead _ ih =>
    exact hhead.bind fun b hb => ih.bind fun bs hbs => hpure (List.forall_mem_cons.mpr ⟨hb,hbs⟩)

theorem nested {max : Nat} (hout : Outwards stops d d')
    (h : d < max → Carries stops table (d + 1) (d' + 1) P act act') :
    Carries stops table d d' P (Action.nested max act) (Action.nested max act') where
  ends := .nested fun hlt => (h hlt).ends
  moves env henv hmacros hd hfinal := by
    subst hd
    by_cases hlt : env.depth < max
    · rw [nested_of_lt act hlt] at hfinal ⊢
      obtain ⟨hkept,hmoved⟩ := (h hlt).moves _ (henv.withDepth (env.depth + 1)) hmacros rfl hfinal
      refine ⟨⟨hkept.macros,hkept.frames⟩,fun frames => ?_⟩
      have hlt' : (env.moved d' frames).depth < max := Nat.lt_of_le_of_lt hout.le hlt
      rw [nested_of_lt act' hlt']
      exact congrArg (fun r => (r.1, r.2.exit)) (hmoved frames)
    · rw [nested_of_le act (Nat.le_of_not_lt hlt)] at hfinal ⊢
      by_cases hsame : d' = env.depth
      · subst hsame
        exact ⟨.refl env,fun frames => nested_of_le act' (Nat.le_of_not_lt hlt)⟩
      · exact absurd (hout.stops hsame _ _) hfinal

/-- What is done one level further in may be done without going in. -/
theorem unnested {max : Nat} (hstops : ∀ depth max, stops (.depthExceeded depth max))
    (h : d < max → Carries stops table (d + 1) d' P act act') :
    Carries stops table d d' P (Action.nested max act) act' where
  ends := .nested fun hlt => (h hlt).ends
  moves env henv hmacros hd hfinal := by
    subst hd
    by_cases hlt : env.depth < max
    · rw [nested_of_lt act hlt] at hfinal ⊢
      obtain ⟨hkept,hmoved⟩ := (h hlt).moves _ (henv.withDepth (env.depth + 1)) hmacros rfl hfinal
      exact ⟨⟨hkept.macros,hkept.frames⟩,hmoved⟩
    · rw [nested_of_le act (Nat.le_of_not_lt hlt)] at hfinal
      exact absurd (hstops _ _) hfinal

end Carries

end Action

/-! ## Evaluation -/

namespace Eval
open Gapscript.Action

variable {stops : EvalError → Prop} {table : MacroTable} {d d' : Nat} {sub sub' : Term → Action ν (Value ν)}

/-- Statements touch the innermost block only by what they record there: nothing, or the value of the last one that had
a value. -/
theorem exists_recorded (hsub : ∀ t, Carries stops table d d' (Value.native ·) (sub t) (sub' t)) (ts : List Term)
    {env : Env ν} {f : Frame ν} {frames : List (Frame ν)} (henv : env.Native) (hmacros : env.macros = table)
    (hd : env.depth = d) (hframes : env.frames = f :: frames) (hfinal : (statements sub ts env).1.Final stops) :
    ∃ recorded : Option (Value ν),
      (statements sub ts env).2.macros = table ∧
      (statements sub ts env).2.frames = { f with result := recorded.getD f.result } :: frames ∧
      (ts ≠ [] → ∀ u, (statements sub ts env).1 = .value u → recorded.isSome) ∧
      ∀ g frames', statements sub' ts (env.moved d' (g :: frames')) = ((statements sub ts env).1,
        (statements sub ts env).2.moved d' ({ g with result := recorded.getD g.result } :: frames')) := by
  induction ts generalizing env f with
  | nil => exact ⟨none,hmacros,hframes,fun h => (h rfl).elim,fun g frames' => rfl⟩
  | cons t ts ih =>
    obtain ⟨hended,hnative,hdepth⟩ := (hsub t).ends env henv hd
    have hmoves := (hsub t).moves env henv hmacros hd
    simp only [statements, Bind.bind, Action.bind] at hfinal ⊢
    rcases hact : sub t env with ⟨v | e | _, env'⟩ <;> rw [hact] at hended hnative hdepth hmoves hfinal
    · obtain ⟨hkept,hmoved⟩ := hmoves trivial
      have hrecord : env'.record v = { env' with frames := { f with result := v } :: frames } := by
        rw [Env.record, hkept.frames, hframes]
      simp only [Action.modify, hrecord] at hfinal ⊢
      have hnative' := hnative.record hended
      rw [hrecord] at hnative'
      obtain ⟨recorded,hmacros',hframes',_,hall⟩ := ih hnative' (hkept.macros.trans hmacros) hdepth rfl hfinal
      refine ⟨some (recorded.getD v),hmacros',hframes',fun _ _ _ => rfl,fun g frames' => ?_⟩
      rw [hmoved]
      exact hall { g with result := v } frames'
    · obtain ⟨hkept,hmoved⟩ := hmoves hfinal
      refine ⟨none,hkept.macros.trans hmacros,hkept.frames.trans hframes,fun _ u hu => ?_,fun g frames' => ?_⟩
      · cases hu
      · rw [hmoved]
        rfl
    · exact hfinal.elim

end Eval

namespace Action.Carries
open Gapscript.Eval

variable {stops : EvalError → Prop} {table : MacroTable} {d d' : Nat} (host : Host ν) (limits : Limits)
  {sub sub' : Term → Action ν (Value ν)}

/-- A call of what the operator evaluates to. -/
theorem invocation {operator : Term} {args args' : List Term}
    (hoperator : Carries stops table d d' (Value.native ·) (sub operator) (sub' operator))
    (hargs : List.Forall₂ (fun t t' => Carries stops table d d' (Value.native ·) (sub t) (sub' t')) args args') :
    Carries stops table d d' (Value.native ·)
      (do let f ← sub operator; let values ← Action.each sub args; Gapscript.call host f values)
      (do let f ← sub' operator; let values ← Action.each sub' args'; Gapscript.call host f values) := by
  refine hoperator.bind fun f hf => (each hargs).bind fun values hvalues => ?_
  exact of_floats (.call host f values hf hvalues) (.call host f values hf hvalues)

section

variable (hsub : ∀ t, Carries stops table d d' (Value.native ·) (sub t) (sub' t))
include hsub

theorem block (stmts : List Term) : Carries stops table d d' (Value.native ·) (Eval.block sub stmts) (Eval.block sub' stmts) where
  ends := .inBlock (.statements (fun t => (hsub t).ends) stmts)
  moves env henv hmacros hd hfinal := by
    have hinside : (statements sub stmts env.pushBlock).1.Final stops := by
      simp only [Eval.block, Action.inBlock] at hfinal
      rcases hact : statements sub stmts env.pushBlock with ⟨_ | _ | _, env'⟩ <;> rw [hact] at hfinal <;> exact hfinal
    obtain ⟨recorded,hmacros',hframes,_,hall⟩ :=
      exists_recorded hsub stmts henv.pushBlock hmacros hd rfl hinside
    have hpushed (frames : List (Frame ν)) :
        (env.moved d' frames).pushBlock = env.pushBlock.moved d' ({} :: frames) := rfl
    simp only [Eval.block, Action.inBlock, hpushed, hall]
    rcases hact : statements sub stmts env.pushBlock with ⟨_ | _ | _, env'⟩ <;>
      rw [hact] at hmacros' hframes <;> simp only [Env.popBlock_of_frames hframes] <;>
      exact ⟨⟨hmacros'.trans hmacros.symm,rfl⟩,fun _ => rfl⟩

theorem application (operator : Term) (args : List Term) : Carries stops table d d' (Value.native ·)
    (Eval.application host limits sub operator args) (Eval.application host limits sub' operator args) := by
  have hexpanded : Ends d (fun _ => True) (Action.reading fun env : Env ν =>
      (env.macros.expand limits.maxExpansions operator args).mapError .expansion) :=
    .reading fun _ _ _ _ => trivial
  refine (of_floats hexpanded (.reading fun _ _ _ => rfl)).bind fun expanded _ => ?_
  cases expanded with
  | some t => exact hsub t
  | none => exact invocation host (hsub operator) (List.forall₂_same.mpr fun t _ => hsub t)

theorem node (t : Term) : Carries stops table d d' (Value.native ·)
    (Eval.node host limits sub t) (Eval.node host limits sub' t) := by
  cases t with
  | block kind stmts => exact block hsub stmts
  | assign targets value =>
    refine (hsub value).bind fun v hv => ?_
    refine (of_floats (.bindTargets targets hv) (.bindTargets targets v)).bind fun _ _ => ?_
    exact of_floats (.pure hv) (.pure v)
  | apply operator args => exact application host limits hsub operator args
  | ref r => exact of_floats (.reference r) (.reading fun _ _ _ => rfl)
  | str raw => exact of_floats (.pure rfl) (.pure _)

end

/-- A term has the same evaluation inside other blocks and, unless levels run out, further out. -/
theorem within (hout : Outwards stops d d') {budget budget' : Nat} (h : limits.maxDepth - d < budget)
    (h' : limits.maxDepth - d' < budget') (t : Term) :
    Carries stops table d d' (Value.native ·) (Eval.within host limits budget t) (Eval.within host limits budget' t) := by
  induction budget generalizing d d' budget' t with
  | zero => exact absurd h (Nat.not_lt_zero _)
  | succ budget ih =>
    obtain ⟨budget',rfl⟩ : ∃ n, budget' = n + 1 := ⟨budget' - 1,by omega⟩
    have hle := hout.le
    exact nested hout fun hlt => node host limits (fun t => ih hout.succ (by omega) (by omega) t) t

end Action.Carries

end Gapscript
