import Gapscript.Proofs.Assigned
import Gapscript.Proofs.Expansion

/-! # How many levels a term needs

A term needs a level for itself and then those of its parts, but an application may be expanded first, which takes a level
of its own, and member access also calls its receiver. So three levels for each level of nodes are always enough. Nothing
but evaluation looks at levels: no function that is built in fails for a limit.
-/
namespace Gapscript

variable {ν α β : Type}

/-- Running out of levels. -/
def EvalError.OfDepth (e : EvalError) : Prop := ∃ depth max, e = .depthExceeded depth max

/-! ## Built-in functions report no limit -/

/-- If it is an error, it is not one that reports a limit. -/
def NoLimit (r : Except EvalError α) : Prop := ∀ e, r = .error e → ¬e.OfLimit

namespace NoLimit

theorem ok (a : α) : NoLimit (.ok a) := by
  rintro _ ⟨⟩

theorem error {e : EvalError} (h : ¬e.OfLimit) : NoLimit (.error e : Except EvalError α) := by
  rintro _ ⟨⟩
  exact h

theorem bind {r : Except EvalError α} {f : α → Except EvalError β} (h : NoLimit r) (hf : ∀ a, NoLimit (f a)) :
    NoLimit (r >>= f) := by
  cases r with
  | ok a => exact hf a
  | error e => exact error (h e rfl)

theorem map {r : Except EvalError α} {f : α → β} (h : NoLimit r) : NoLimit (r.map f) := by
  cases r with
  | ok a => exact ok (f a)
  | error e => exact error (h e rfl)

end NoLimit

namespace Value

variable (name : String) (a b : Value ν)

theorem noLimit_expectNumber : NoLimit (a.expectNumber name) := by
  unfold expectNumber
  split
  · exact .ok _
  · exact .error id

theorem noLimit_expectText : NoLimit (a.expectText name) := by
  unfold expectText
  split
  · exact .ok _
  · exact .error id

theorem noLimit_expectSeq : NoLimit (a.expectSeq name) := by
  unfold expectSeq
  split
  · exact .ok _
  · exact .error id

theorem noLimit_add : NoLimit (a.add b) := by
  unfold add
  split
  case h_4 => exact .error id
  all_goals exact .ok _

theorem noLimit_arith (f : Float → Float → Float) : NoLimit (a.arith name f b) :=
  .bind (noLimit_expectNumber name a) fun _ => .bind (noLimit_expectNumber name b) fun _ => .ok _

theorem noLimit_divide (f : Float → Float → Float) : NoLimit (a.divide name f b) := by
  refine .bind (noLimit_expectNumber name a) fun _ => .bind (noLimit_expectNumber name b) fun _ => ?_
  split
  · exact .error id
  · exact .ok _

theorem noLimit_toInt : NoLimit (a.toInt name) := by
  unfold toInt
  split
  · exact .ok _
  · split
    · exact .ok _
    · exact .error id
  · exact .error id

theorem noLimit_floor : NoLimit (a.floor name) := .bind (noLimit_expectNumber name a) fun _ => .ok _

theorem noLimit_split : NoLimit (a.split name b) :=
  .bind (noLimit_expectText name a) fun _ => .bind (noLimit_expectText name b) fun _ => .ok _

theorem noLimit_join : NoLimit (a.join name b) :=
  .bind (noLimit_expectSeq name a) fun _ => .bind (noLimit_expectText name b) fun _ => .ok _

theorem noLimit_item : NoLimit (a.item name b) := by
  refine .bind (noLimit_expectSeq name a) fun _ => .bind (noLimit_expectNumber name b) fun _ => ?_
  split
  · exact .ok _
  · exact .error id

end Value

namespace Env

variable (env : Env ν) (receiver : Value ν)

theorem noLimit_member (name : String) : NoLimit (env.member receiver name) := by
  unfold member
  generalize env.methods.find? receiver.typeName name = found
  have hfound : NoLimit (found.elim (.error (.unknownMember receiver.typeName name)) fun m =>
      .ok (Value.method receiver.typeName m receiver)) := by
    cases found with
    | some m => exact .ok _
    | none => exact .error id
  cases found with
  | some | none =>
    cases receiver with
    | record type fields =>
      simp only
      split
      · exact .ok _
      · exact hfound
    | _ => exact hfound

theorem noLimit_memberNamed (name : Value ν) : NoLimit (env.memberNamed receiver name) := by
  unfold memberNamed
  split
  · exact noLimit_member env receiver _
  · exact .error id

end Env

namespace Action

/-- The action ends, and not for a limit. -/
def Unlimited (act : Action ν α) : Prop := ∀ env, (act env).1.Final EvalError.OfLimit

namespace Unlimited

theorem pure (a : α) : Unlimited (Pure.pure a : Action ν α) := fun _ => trivial

theorem fail {e : EvalError} (h : ¬e.OfLimit) : Unlimited (Action.fail e : Action ν α) := fun _ => h

theorem reading {f : Env ν → Except EvalError α} (h : ∀ env, NoLimit (f env)) : Unlimited (Action.reading f) := by
  intro env
  simp only [Action.reading]
  cases hr : f env with
  | ok a => trivial
  | error e => exact h env e hr

theorem lift {r : Except EvalError α} (h : NoLimit r) : Unlimited (Action.lift r : Action ν α) := reading fun _ => h

theorem bind {act : Action ν α} {f : α → Action ν β} (h : Unlimited act) (hf : ∀ a, Unlimited (f a)) :
    Unlimited (act >>= f) := by
  intro env
  have hact := h env
  simp only [Bind.bind, Action.bind]
  rcases hrun : act env with ⟨a | e | _, env'⟩ <;> rw [hrun] at hact
  · exact hf a env'
  · exact hact
  · exact hact

theorem readAll (name : String) : Unlimited (Action.readAll name : Action ν String) := by
  intro env
  simp only [Action.readAll]
  rcases env.streams.input.readAll with ⟨_ | _, input⟩
  · exact id
  · trivial

theorem write (name text : String) : Unlimited (Action.write name text : Action ν Unit) := by
  intro env
  simp only [Action.write]
  rcases env.streams.output.write text with ⟨_ | _, output⟩
  · exact id
  · trivial

theorem writeDiagnostic (name line : String) : Unlimited (Action.writeDiagnostic name line : Action ν Unit) := by
  intro env
  simp only [Action.writeDiagnostic]
  rcases env.streams.diagnostics.write (line ++ "\n") with ⟨_ | _, diagnostics⟩
  · exact id
  · trivial

theorem primitive (p : Primitive) (args : List (Value ν)) : Unlimited (p.run args) := by
  unfold Primitive.run
  split
  case h_1 => exact lift (Value.noLimit_add _ _)
  case h_2 | h_3 => exact lift (Value.noLimit_arith _ _ _ _)
  case h_4 | h_5 => exact lift (Value.noLimit_divide _ _ _ _)
  case h_6 => exact lift (.map (Value.noLimit_expectNumber _ _))
  case h_7 | h_8 | h_9 => exact pure _
  case h_10 => exact lift (Value.noLimit_toInt _ _)
  case h_11 => exact lift (Value.noLimit_floor _ _)
  case h_12 => exact bind (writeDiagnostic _ _) fun _ => pure _
  case h_13 => exact lift (Value.noLimit_split _ _ _)
  case h_14 => exact reading fun env => env.noLimit_memberNamed _ _
  case h_15 => exact fail id

theorem primitiveMethod (m : PrimitiveMethod) (receiver : Value ν) (args : List (Value ν)) :
    Unlimited (m.run receiver args) := by
  unfold PrimitiveMethod.run
  split
  case h_1 => exact bind (readAll _) fun _ => pure _
  case h_2 => exact bind (write _ _) fun _ => pure _
  case h_3 => exact lift (Value.noLimit_split _ _ _)
  case h_4 | h_5 => exact lift (.map (Value.noLimit_expectText _ _))
  case h_6 => exact lift (.map (Value.noLimit_expectSeq _ _))
  case h_7 => exact lift (Value.noLimit_item _ _ _)
  case h_8 => exact lift (Value.noLimit_join _ _ _)
  case h_9 => exact lift (Value.noLimit_floor _ _)
  case h_10 => exact lift (Value.noLimit_toInt _ _)
  case h_11 => exact fail id

theorem reference (r : Ref) : Unlimited (Action.reading (Eval.reference r) : Action ν (Value ν)) := by
  refine reading fun env => ?_
  unfold Eval.reference
  split
  · exact .ok _
  · split
    · exact .ok _
    · exact .error id

theorem bindTargets (targets : List Ref) (v : Value ν) : Unlimited (Eval.bindTargets targets v) := by
  have hmodify (f : Env ν → Env ν) : Unlimited (Action.modify f) := fun _ => trivial
  unfold Eval.bindTargets
  split
  · exact hmodify _
  · split
    · split
      · exact fail id
      · exact hmodify _
    · exact fail id

theorem compositional : Compositional (@Unlimited ν) := ⟨pure,fail,bind,primitive,primitiveMethod⟩

end Unlimited

/-! ## Evaluation that does not run out of levels -/

/-- From a native environment at level `d` with the macros of `table`, the action does not run out of levels. -/
def Shallow (table : MacroTable) (d : Nat) (act : Action ν α) : Prop :=
  ∀ env : Env ν, env.Native → env.macros = table → env.depth = d → (act env).1.Final EvalError.OfDepth

namespace Shallow

variable {table : MacroTable} {d : Nat} {P : α → Prop} {Q : β → Prop}

theorem of_unlimited {act : Action ν α} (h : Unlimited act) : Shallow table d act := by
  intro env _ _ _
  have hfinal := h env
  rcases hact : (act env).1 with a | e | _ <;> rw [hact] at hfinal
  · trivial
  · rintro ⟨depth,max,rfl⟩
    exact hfinal trivial
  · exact hfinal

theorem bind {act : Action ν α} {f : α → Action ν β} (hact : Carries (fun _ => False) table d d P act act)
    (h : Shallow table d act) (hf : ∀ a, P a → Shallow table d (f a)) : Shallow table d (act >>= f) := by
  intro env henv hmacros hd
  obtain ⟨hended,hnative,hmacros',hdepth⟩ := hact.after henv hmacros hd
  have hfinal := h env henv hmacros hd
  simp only [Bind.bind, Action.bind]
  rcases hrun : act env with ⟨a | e | _, env'⟩ <;> rw [hrun] at hended hnative hmacros' hdepth hfinal
  · exact hf a hended env' hnative hmacros' hdepth
  · exact hfinal
  · exact hfinal

theorem each {f : α → Action ν β} {as : List α} (hf : ∀ a ∈ as, Carries (fun _ => False) table d d Q (f a) (f a))
    (h : ∀ a ∈ as, Shallow table d (f a)) : Shallow table d (Action.each f as) := by
  induction as with
  | nil => exact of_unlimited (.pure [])
  | cons a as ih =>
    obtain ⟨hfa,hfas⟩ := List.forall_mem_cons.mp hf
    obtain ⟨ha,has⟩ := List.forall_mem_cons.mp h
    refine bind hfa ha fun b _ => bind (.each (List.forall₂_same.mpr hfas)) (ih hfas has) fun bs _ => ?_
    exact of_unlimited (.pure (b :: bs))

theorem nested {max : Nat} {act : Action ν α} (hlt : d < max) (h : Shallow table (d + 1) act) :
    Shallow table d (Action.nested max act) := by
  rintro env henv hmacros rfl
  rw [nested_of_lt act hlt]
  exact h _ (henv.withDepth (env.depth + 1)) hmacros rfl

theorem inBlock {act : Action ν Unit} (h : Shallow table d act) : Shallow table d (Action.inBlock act) := by
  intro env henv hmacros hd
  have hinside := h env.pushBlock henv.pushBlock hmacros hd
  rw [inBlock_eq_closed]
  rcases hrun : act env.pushBlock with ⟨_ | e | _, env'⟩ <;> rw [hrun] at hinside <;> exact hinside

section

variable {sub : Term → Action ν (Value ν)}
  (hcarries : ∀ t, Carries (fun _ => False) table d d (Value.native ·) (sub t) (sub t))
include hcarries

theorem statements {ts : List Term} (h : ∀ t ∈ ts, Shallow table d (sub t)) : Shallow table d (Eval.statements sub ts) := by
  induction ts with
  | nil => exact of_unlimited (.pure ())
  | cons t ts ih =>
    obtain ⟨ht,hts⟩ := List.forall_mem_cons.mp h
    intro env henv hmacros hd
    obtain ⟨hended,hnative,hmacros',hdepth⟩ := (hcarries t).after henv hmacros hd
    have hfinal := ht env henv hmacros hd
    simp only [Eval.statements, Bind.bind, Action.bind]
    rcases hrun : sub t env with ⟨v | e | _, env'⟩ <;> rw [hrun] at hended hnative hmacros' hdepth hfinal
    · -- What is recorded changes the innermost frame and nothing else.
      have hrecord := hnative.record hended
      obtain ⟨frames,hframes⟩ := env'.record_eq v
      simp only [Action.modify]
      rw [hframes] at hrecord ⊢
      exact ih hts _ hrecord hmacros' hdepth
    · exact hfinal
    · exact hfinal

theorem invocation (host : Host ν) {operator : Term} {args : List Term} (hoperator : Shallow table d (sub operator))
    (hargs : ∀ t ∈ args, Shallow table d (sub t)) : Shallow table d
      (do let f ← sub operator; let values ← Action.each sub args; Gapscript.call host f values) := by
  refine bind (hcarries operator) hoperator fun f hf => ?_
  have heach : Shallow table d (Action.each sub args) := each (fun t _ => hcarries t) hargs
  refine bind (.each (List.forall₂_same.mpr fun t _ => hcarries t)) heach fun values hvalues => ?_
  exact of_unlimited (Unlimited.compositional.call host f values hf hvalues)

end

end Shallow

end Action

/-- With the macros of `table`, evaluating the term from level `d` has levels enough, whatever values it meets. -/
inductive Fits (table : MacroTable) (limits : Limits) : (d : Nat) → Term → Prop where
  | block {d : Nat} {kind : BlockKind} {stmts : List Term} (hd : d < limits.maxDepth)
      (h : ∀ t ∈ stmts, Fits table limits (d + 1) t) : Fits table limits d (.block kind stmts)
  | assign {d : Nat} {targets : List Ref} {value : Term} (hd : d < limits.maxDepth)
      (h : Fits table limits (d + 1) value) : Fits table limits d (.assign targets value)
  | ref {d : Nat} (hd : d < limits.maxDepth) (r : Ref) : Fits table limits d (.ref r)
  | str {d : Nat} (hd : d < limits.maxDepth) (raw : String) : Fits table limits d (.str raw)
  | rejected {d : Nat} {operator : Term} {args : List Term} {e : ExpansionError} (hd : d < limits.maxDepth)
      (h : table.expand limits.maxExpansions operator args = .error e) : Fits table limits d (.apply operator args)
  | expanded {d : Nat} {operator t : Term} {args : List Term} (hd : d < limits.maxDepth)
      (hexpand : table.expand limits.maxExpansions operator args = .ok (some t)) (h : Fits table limits (d + 1) t) :
      Fits table limits d (.apply operator args)
  | call {d : Nat} {operator : Term} {args : List Term} (hd : d < limits.maxDepth)
      (hexpand : table.expand limits.maxExpansions operator args = .ok none)
      (hoperator : Fits table limits (d + 1) operator) (hargs : ∀ t ∈ args, Fits table limits (d + 1) t) :
      Fits table limits d (.apply operator args)

namespace Fits

variable {table : MacroTable} {limits : Limits} {d : Nat} {t : Term}

theorem lt (h : Fits table limits d t) : d < limits.maxDepth := by
  cases h with
  | block hd | assign hd | ref hd | str hd | rejected hd | expanded hd | call hd => exact hd

theorem node (host : Host ν) {sub : Term → Action ν (Value ν)}
    (hcarries : ∀ t, Action.Carries (fun _ => False) table (d + 1) (d + 1) (Value.native ·) (sub t) (sub t))
    (hsub : ∀ t, Fits table limits (d + 1) t → Action.Shallow table (d + 1) (sub t)) (h : Fits table limits d t) :
    Action.Shallow table (d + 1) (Eval.node host limits sub t) := by
  cases h with
  | block _ h => exact .inBlock (.statements hcarries fun t ht => hsub t (h t ht))
  | @assign _ targets value _ h =>
    refine .bind (hcarries value) (hsub value h) fun v hv => ?_
    refine .bind (.of_floats (.bindTargets targets hv) (.bindTargets targets v)) ?_ fun _ _ => .of_unlimited (.pure v)
    exact .of_unlimited (.bindTargets targets v)
  | ref _ r => exact .of_unlimited (.reference r)
  | str _ raw => exact .of_unlimited (.pure _)
  | rejected _ h =>
    intro env _ hmacros _
    rw [← hmacros] at h
    simp only [Eval.node, Eval.application, Bind.bind, Action.bind, Action.reading, h, Except.mapError, Outcome.ofExcept]
    rintro ⟨_,_,⟨⟩⟩
  | @expanded _ operator t args _ hexpand h =>
    intro env henv hmacros hd
    have happlication : Eval.node host limits sub (.apply operator args) env = sub t env :=
      Eval.application_of_expand (by rwa [hmacros])
    rw [happlication]
    exact hsub t h env henv hmacros hd
  | @call _ operator args _ hexpand hoperator hargs =>
    intro env henv hmacros hd
    have happlication : Eval.node host limits sub (.apply operator args) env = _ :=
      Eval.application_of_call (by rwa [hmacros])
    have hargs' : ∀ t ∈ args, Action.Shallow table (d + 1) (sub t) := fun t ht => hsub t (hargs t ht)
    rw [happlication]
    exact Action.Shallow.invocation hcarries host (hsub operator hoperator) hargs' env henv hmacros hd

theorem shallow (host : Host ν) (h : Fits table limits d t) {budget : Nat} (hbudget : limits.maxDepth - d < budget) :
    Action.Shallow table d (Eval.within host limits budget t) := by
  induction budget generalizing d t with
  | zero => exact absurd hbudget (Nat.not_lt_zero _)
  | succ budget ih =>
    have hlt := h.lt
    have hinside : limits.maxDepth - (d + 1) < budget := by omega
    refine .nested hlt (h.node host (fun t => ?_) fun t ht => ih ht hinside)
    exact .within host limits (.refl _ _) hinside hinside t

end Fits

/-! ## Three levels for each level of nodes -/

theorem Env.innermost?_preludeMacros {r : Ref} {m : Macro} (h : preludeMacros.innermost? r = some m) :
    m = Macro.pipe ∨ m = Macro.memberAccess := by
  obtain ⟨ms,hms,hhead⟩ := Option.bind_eq_some_iff.mp h
  have hmem := OrderedMap.mem_of_get? hms
  simp only [preludeMacros, List.mem_cons, Prod.mk.injEq, List.not_mem_nil, or_false] at hmem
  rcases hmem with ⟨_,rfl⟩ | ⟨_,rfl⟩ <;> cases hhead
  · exact .inl rfl
  · exact .inr rfl

namespace Term

theorem height_pos (t : Term) : 1 ≤ t.height := by
  cases t <;> simp only [height] <;> omega

theorem heightAll_le_iff {ts : List Term} {h : Nat} : heightAll ts ≤ h ↔ ∀ t ∈ ts, t.height ≤ h := by
  induction ts with
  | nil => simp [heightAll]
  | cons t ts ih => rw [heightAll, Nat.max_le, ih, List.forall_mem_cons]

theorem height_apply_le_iff {operator : Term} {args : List Term} {h : Nat} :
    (apply operator args).height ≤ h + 1 ↔ operator.height ≤ h ∧ ∀ t ∈ args, t.height ≤ h := by
  rw [height, Nat.add_le_add_iff_right, Nat.max_le, heightAll_le_iff]

/-- What an application of parts no higher than `h` is rewritten to by the macros of the prelude: such an application again,
or one that finds a member of a receiver that is called. -/
inductive Stage (h : Nat) : Term → Prop where
  | parts {operator : Term} {args : List Term} (hoperator : operator.height ≤ h) (hargs : ∀ t ∈ args, t.height ≤ h) :
      Stage h (.apply operator args)
  | member {receiver name : Term} (hreceiver : receiver.height ≤ h) (hname : name.height ≤ h) :
      Stage h (.apply (.symbol Macro.memberFunction) [.apply receiver [], name])

namespace Stage

variable {h : Nat} {t u : Term}

theorem rewrites (ht : Stage h t) (hstep : Env.preludeMacros.Rewrites t u) : Stage h u := by
  obtain ⟨m,args,⟨operator,rfl,r,rfl,hm⟩,hrule⟩ := hstep
  cases ht with
  | parts hoperator hargs =>
    rcases Env.innermost?_preludeMacros hm with rfl | rfl
    · obtain ⟨left,operator,rest,rfl,rfl⟩ := Macro.eq_of_rule_pipe hrule
      obtain ⟨hleft,hright⟩ : left.height ≤ h ∧ (Term.apply operator rest).height ≤ h := by simpa using hargs
      obtain ⟨hoperator,hrest⟩ := height_apply_le_iff.mp (Nat.le_succ_of_le hright)
      exact .parts hoperator (List.forall_mem_append.mpr ⟨hrest,List.forall_mem_singleton.mpr hleft⟩)
    · obtain ⟨left,right,name,rfl,rfl,hname⟩ := Macro.eq_of_rule_memberAccess hrule
      obtain ⟨hleft,hright⟩ : left.height ≤ h ∧ right.height ≤ h := by simpa using hargs
      refine .member hleft ?_
      rcases hname with rfl | ⟨text,rfl⟩
      · exact hright
      · exact Nat.le_trans (height_pos left) hleft
  | member =>
    -- The function that finds members has no macro in the prelude.
    cases hm

theorem rewritesIn {k : Nat} (ht : Stage h t) (hsteps : Env.preludeMacros.RewritesIn t k u) : Stage h u := by
  induction hsteps with
  | refl => exact ht
  | tail _ hstep ih => exact ih.rewrites hstep

end Stage

end Term

namespace Fits

variable {limits : Limits} {d h : Nat}

/-- Calling a term without arguments takes one level more, since no macro of the prelude makes anything of no arguments. -/
theorem call_nil {t : Term} (hd : d < limits.maxDepth) (ht : Fits Env.preludeMacros limits (d + 1) t) :
    Fits Env.preludeMacros limits d (.apply t []) := by
  rcases hexpand : Env.preludeMacros.expand limits.maxExpansions t [] with e | _ | u
  · exact .rejected hd hexpand
  · exact .call hd hexpand ht (List.forall_mem_nil _)
  · have hending := (MacroTable.expand_eq_map_iff (.ok u)).mp hexpand
    cases hending with
    | settled _ hsteps _ =>
      obtain ⟨v,m,args,⟨operator,⟨⟩,r,_,hm⟩,hrule⟩ := hsteps.exists_rewrites
      rcases Env.innermost?_preludeMacros hm with rfl | rfl
      · cases hrule
      · cases hrule

/-- An application that the macros of the prelude have settled. -/
theorem settled {t : Term} (hparts : ∀ d t, t.height ≤ h → d + 3 * h ≤ limits.maxDepth → Fits Env.preludeMacros limits d t)
    (ht : t.Stage h) (hsettled : Env.preludeMacros.Settled t) (hd : d + 3 * h + 2 ≤ limits.maxDepth) :
    Fits Env.preludeMacros limits d t := by
  have hlt : d < limits.maxDepth := by omega
  have hlt' : d + 1 < limits.maxDepth := by omega
  have hinside : d + 1 + 3 * h ≤ limits.maxDepth := by omega
  have hcalled : d + 1 + 1 + 3 * h ≤ limits.maxDepth := by omega
  cases ht with
  | @parts operator args hoperator hargs =>
    have hnone : Env.preludeMacros.expand limits.maxExpansions operator args = .ok none :=
      MacroTable.expand_eq_ok_none_iff.mpr fun m hm => hsettled m args ⟨operator,rfl,hm⟩
    exact .call hlt hnone (hparts _ _ hoperator hinside) fun t ht => hparts _ _ (hargs t ht) hinside
  | @member receiver name hreceiver hname =>
    have hargs : ∀ t ∈ [.apply receiver [], name], Fits Env.preludeMacros limits (d + 1) t := by
      refine List.forall_mem_cons.mpr ⟨?_,List.forall_mem_singleton.mpr (hparts _ _ hname hinside)⟩
      exact call_nil hlt' (hparts _ _ hreceiver hcalled)
    exact .call hlt rfl (.ref hlt' _) hargs

/-- Three levels for each level of nodes are enough. -/
theorem of_height {t : Term} (ht : t.height ≤ h) (hd : d + 3 * h ≤ limits.maxDepth) :
    Fits Env.preludeMacros limits d t := by
  induction h generalizing d t with
  | zero => exact absurd t.height_pos (Nat.not_le.mpr (Nat.lt_succ_of_le ht))
  | succ h ih =>
    have hlt : d < limits.maxDepth := by omega
    have hinside : d + 1 + 3 * h ≤ limits.maxDepth := by omega
    cases t with
    | block kind stmts =>
      have hstmts := Term.heightAll_le_iff.mp (Nat.le_of_succ_le_succ ht)
      exact .block hlt fun t ht => ih (hstmts t ht) hinside
    | assign targets value => exact .assign hlt (ih (Nat.le_of_succ_le_succ ht) hinside)
    | apply operator args =>
      obtain ⟨hoperator,hargs⟩ := Term.height_apply_le_iff.mp ht
      rcases hexpand : Env.preludeMacros.expand limits.maxExpansions operator args with e | _ | t
      · exact .rejected hlt hexpand
      · exact .call hlt hexpand (ih hoperator hinside) fun t ht => ih (hargs t ht) hinside
      · -- The expanded term is one level further in, and its parts are three levels in at most.
        have hending := (MacroTable.expand_eq_map_iff (.ok t)).mp hexpand
        cases hending with
        | settled _ hsteps hsettled =>
          have hstage := (Term.Stage.parts hoperator hargs).rewritesIn hsteps
          exact .expanded hlt hexpand (settled (fun _ _ => ih) hstage hsettled (by omega))
    | ref r => exact .ref hlt r
    | str raw => exact .str hlt raw

end Fits

/-- The limit on levels does not stop a program that is shallow enough. Where programs from the prelude have led, a term with
three levels for each of its levels of nodes never runs out of them, whatever is bound, read and written. -/
theorem depth_not_exceeded (host : Host ν) (limits : Limits) {env : Env ν} (henv : env.Reached host) (t : Term)
    (h : env.depth + 3 * t.height ≤ limits.maxDepth) (depth max : Nat) :
    (eval host limits t env).1 ≠ .error (.depthExceeded depth max) := by
  obtain ⟨hnative,hmacros⟩ := henv.native_and_macros
  have hfits : Fits Env.preludeMacros limits env.depth t := .of_height (Nat.le_refl _) h
  have hfinal := hfits.shallow host (limits.levels_lt_budget _) env hnative hmacros rfl
  intro herror
  rw [eval] at herror
  rw [herror] at hfinal
  exact hfinal ⟨depth,max,rfl⟩

/-- Member access on a literal has two levels of nodes and runs out of levels if there are only three, but not if there are
six. -/
theorem depth_not_exceeded_member :
    let t : Term := .apply (.ref Macro.memberAccess.key) [.str "'a'", .symbol "trim"]
    (∀ depth max, (eval hostless ⟨6, 1⟩ t preludeOnly).1 ≠ .error (.depthExceeded depth max)) ∧
      (eval hostless ⟨3, 1⟩ t preludeOnly).1 = .error (.depthExceeded 4 3) := by
  intro t
  have hreached : preludeOnly.Reached hostless := .prelude {}
  refine ⟨depth_not_exceeded hostless ⟨6, 1⟩ hreached t (by decide),?_⟩
  rw [eval_eq_within hostless ⟨3, 1⟩ t hreached.native_and_macros.1 (show 3 - 0 < 4 by decide)]
  rfl

end Gapscript
