import Gapscript.Proofs.Pipeline
import Gapscript.Proofs.Traced

/-! # A program changes only what it assigns

Built-in functions change the streams and nothing else, and the macros of the prelude put the operands of an application
together in another way without adding an assignment. So the bindings that evaluation can change are known from the term:
they are the targets of its assignments. A binding stays where it was defined, whether its value is changed or not.
-/
namespace Gapscript

variable {ν α β : Type}

namespace Term

mutual

/-- The targets of all assignments in a term. -/
def assigned : Term → List Ref
  | .block _ stmts => assignedAll stmts
  | .assign targets value => targets ++ assigned value
  | .apply operator args => assigned operator ++ assignedAll args
  | .ref _ => []
  | .str _ => []

def assignedAll : List Term → List Ref
  | [] => []
  | t :: ts => assigned t ++ assignedAll ts

end

theorem assignedAll_append (ts us : List Term) : assignedAll (ts ++ us) = assignedAll ts ++ assignedAll us := by
  induction ts with
  | nil => rfl
  | cons t ts ih => rw [List.cons_append, assignedAll, assignedAll, ih, List.append_assoc]

theorem assigned_subset_all {t : Term} {ts : List Term} (h : t ∈ ts) : t.assigned ⊆ assignedAll ts := by
  obtain ⟨us,vs,rfl⟩ := List.append_of_mem h
  rw [assignedAll_append, assignedAll]
  exact List.Subset.trans (List.subset_append_left _ _) (List.subset_append_right _ _)

end Term

/-! ## Macros that add no assignment -/

open Term (assignedAll)

namespace Macro

theorem eq_of_rule_pipe {args : List Term} {t : Term} (h : pipe.rule args = .ok t) :
    ∃ left operator rest, args = [left, .apply operator rest] ∧ t = .apply operator (rest ++ [left]) := by
  simp only [pipe, withTwo] at h
  split at h
  · split at h
    · cases h
      exact ⟨_,_,_,rfl,rfl⟩
    · cases h
  · cases h

theorem eq_of_rule_memberAccess {args : List Term} {t : Term} (h : memberAccess.rule args = .ok t) :
    ∃ left right name, args = [left, right] ∧ t = .apply (.symbol memberFunction) [.apply left [], name] ∧
      (name = right ∨ ∃ text, name = .quoted text) := by
  simp only [memberAccess, withTwo] at h
  split at h
  · cases h
    refine ⟨_,_,_,rfl,rfl,?_⟩
    split
    · exact .inr ⟨_,rfl⟩
    · exact .inl rfl
  · cases h

/-- What the macro makes of arguments assigns only what they assign. -/
def AddsNoTarget (m : Macro) : Prop := ∀ args t, m.rule args = .ok t → t.assigned ⊆ assignedAll args

theorem addsNoTarget_pipe : pipe.AddsNoTarget := by
  intro args t h
  obtain ⟨left,operator,rest,rfl,rfl⟩ := eq_of_rule_pipe h
  simp only [Term.assigned, assignedAll, Term.assignedAll_append]
  grind

theorem addsNoTarget_memberAccess : memberAccess.AddsNoTarget := by
  intro args t h
  obtain ⟨left,right,name,rfl,rfl,hname⟩ := eq_of_rule_memberAccess h
  simp only [Term.assigned, assignedAll, Term.symbol]
  rcases hname with rfl | ⟨text,rfl⟩
  · simp
  · simp [Term.quoted, Term.assigned]

end Macro

namespace MacroTable

variable {table : MacroTable}

def AddsNoTarget (table : MacroTable) : Prop := ∀ p ∈ table, ∀ m ∈ p.2, m.AddsNoTarget

theorem addsNoTarget_prelude : Env.preludeMacros.AddsNoTarget := by
  simp [AddsNoTarget, Env.preludeMacros, Macro.addsNoTarget_pipe, Macro.addsNoTarget_memberAccess]

namespace AddsNoTarget

theorem forOperator? (h : table.AddsNoTarget) {operator : Term} {m : Macro} (hm : table.forOperator? operator = some m) :
    m.AddsNoTarget := by
  unfold MacroTable.forOperator? at hm
  split at hm
  · next r =>
    obtain ⟨ms,hms,hhead⟩ := Option.bind_eq_some_iff.mp hm
    exact h _ (OrderedMap.mem_of_get? hms) m (List.mem_of_head? hhead)
  · cases hm

theorem expandBy (h : table.AddsNoTarget) {max steps : Nat} {m : Macro} (hm : m.AddsNoTarget) {args : List Term} {t : Term}
    (ht : table.expandBy max steps m args = .ok t) : t.assigned ⊆ assignedAll args := by
  induction steps generalizing m args with
  | zero => cases ht
  | succ steps ih =>
    rw [MacroTable.expandBy] at ht
    split at ht
    · cases ht
    · next t' hexpand =>
      have hstep : t'.assigned ⊆ assignedAll args := by
        unfold Macro.expand at hexpand
        split at hexpand
        · next hrule =>
          cases hexpand
          exact hm args _ hrule
        · cases hexpand
      split at ht
      · next next args' hredex =>
        unfold redex? at hredex
        split at hredex
        · next operator args'' =>
          obtain ⟨_,hnext,hpair⟩ := Option.map_eq_some_iff.mp hredex
          cases hpair
          have hargs : assignedAll args' ⊆ (Term.apply operator args').assigned := List.subset_append_right _ _
          exact List.Subset.trans (ih (h.forOperator? hnext) ht) (List.Subset.trans hargs hstep)
        · cases hredex
      · cases ht
        exact hstep

theorem expand (h : table.AddsNoTarget) {max : Nat} {operator t : Term} {args : List Term}
    (ht : table.expand max operator args = .ok (some t)) : t.assigned ⊆ assignedAll args := by
  unfold MacroTable.expand at ht
  split at ht
  · cases ht
  · next m hm =>
    split at ht
    · next hexpand =>
      cases ht
      exact h.expandBy (h.forOperator? hm) hexpand
    · cases ht

end AddsNoTarget

end MacroTable

/-! ## Environments that differ in some bindings -/

namespace Env

variable {keys : List Ref} {env env' env'' : Env ν}

/-- Only bindings of `keys` are changed or added, the others stay where they are, and so do the methods. -/
structure Changes (keys : List Ref) (env env' : Env ν) : Prop where
  others : ∀ key, key ∉ keys → env'.get? key = env.get? key
  order : env.bindings.keys <+: env'.bindings.keys
  methods : env'.methods = env.methods

namespace Changes

theorem of_eq (hbindings : env'.bindings = env.bindings) (hmethods : env'.methods = env.methods) :
    env.Changes keys env' where
  others _ _ := by rw [get?, hbindings, get?]
  order := hbindings ▸ List.prefix_refl _
  methods := hmethods

theorem refl (env : Env ν) : env.Changes keys env := of_eq rfl rfl

theorem trans (h : env.Changes keys env') (h' : env'.Changes keys env'') : env.Changes keys env'' where
  others key hkey := (h'.others key hkey).trans (h.others key hkey)
  order := h.order.trans h'.order
  methods := h'.methods.trans h.methods

theorem define (env : Env ν) {key : Ref} (hkey : key ∈ keys) (v : Value ν) : env.Changes keys (env.define key v) where
  others other hother := by
    refine OrderedMap.get?_insert_of_ne ?_ v
    rintro rfl
    exact hother hkey
  order := OrderedMap.keys_prefix_insert _ _ _
  methods := rfl

theorem popBlock (env : Env ν) : env.Changes keys env.popBlock.2 := by
  unfold Env.popBlock
  split <;> exact of_eq rfl rfl

end Changes

theorem record_eq (env : Env ν) (v : Value ν) : ∃ frames, env.record v = { env with frames } := by
  unfold record
  split
  · exact ⟨env.frames,rfl⟩
  · exact ⟨_,rfl⟩

end Env

/-! ## Actions confined to some bindings -/

namespace Action

/-- The action changes nothing but the streams. -/
def Streaming (act : Action ν α) : Prop := ∀ env, ∃ streams, (act env).2 = { env with streams }

theorem Streaming.bind {act : Action ν α} {f : α → Action ν β} (h : Streaming act) (hf : ∀ a, Streaming (f a)) :
    Streaming (act >>= f) := by
  intro env
  obtain ⟨streams,hact⟩ := h env
  simp only [Bind.bind, Action.bind]
  rcases hrun : act env with ⟨a | e | _, env'⟩ <;> rw [hrun] at hact <;> obtain rfl := hact
  · exact hf a _
  · exact ⟨streams,rfl⟩
  · exact ⟨streams,rfl⟩

theorem Streaming.compositional : Compositional (@Streaming ν) where
  pure _ env := ⟨env.streams,rfl⟩
  fail _ env := ⟨env.streams,rfl⟩
  bind := .bind
  primitive p args env := ⟨_,Traced.primitive_streams p args env⟩
  primitiveMethod m receiver args env := ⟨_,Traced.primitiveMethod_streams m receiver args env⟩

variable {keys : List Ref} {table : MacroTable} {d : Nat} {P : α → Prop} {Q : β → Prop}

theorem Carries.after {act act' : Action ν α} {d' : Nat} (h : Carries (fun _ => False) table d d' P act act') {env : Env ν}
    (henv : env.Native) (hmacros : env.macros = table) (hd : env.depth = d) :
    (act env).1.Ended P ∧ (act env).2.Native ∧ (act env).2.macros = table ∧ (act env).2.depth = d := by
  obtain ⟨hended,hnative,hdepth⟩ := h.ends env henv hd
  obtain ⟨hkept,_⟩ := h.moves env henv hmacros hd hended.final
  exact ⟨hended,hnative,hkept.macros.trans hmacros,hdepth⟩

/-- From a native environment at level `d` with the macros of `table`, the action changes bindings of `keys` only. -/
def Confined (keys : List Ref) (table : MacroTable) (d : Nat) (act : Action ν α) : Prop :=
  ∀ env : Env ν, env.Native → env.macros = table → env.depth = d → env.Changes keys (act env).2

namespace Confined

theorem of_streaming {act : Action ν α} (h : Streaming act) : Confined keys table d act := by
  intro env _ _ _
  obtain ⟨streams,hact⟩ := h env
  rw [hact]
  exact .of_eq rfl rfl

/-- What leaves the environment as it is. -/
theorem of_same {act : Action ν α} (h : ∀ env, (act env).2 = env) : Confined keys table d act :=
  of_streaming fun env => ⟨env.streams,h env⟩

theorem bind {act : Action ν α} {f : α → Action ν β} (hact : Carries (fun _ => False) table d d P act act)
    (h : Confined keys table d act) (hf : ∀ a, P a → Confined keys table d (f a)) : Confined keys table d (act >>= f) := by
  intro env henv hmacros hd
  obtain ⟨hended,hnative,hmacros',hdepth⟩ := hact.after henv hmacros hd
  have hchanges := h env henv hmacros hd
  simp only [Bind.bind, Action.bind]
  rcases hrun : act env with ⟨a | e | _, env'⟩ <;> rw [hrun] at hended hnative hmacros' hdepth hchanges
  · exact hchanges.trans (hf a hended env' hnative hmacros' hdepth)
  · exact hchanges
  · exact hchanges

theorem each {f : α → Action ν β} {as : List α} (hf : ∀ a ∈ as, Carries (fun _ => False) table d d Q (f a) (f a))
    (h : ∀ a ∈ as, Confined keys table d (f a)) : Confined keys table d (Action.each f as) := by
  induction as with
  | nil => exact of_same fun _ => rfl
  | cons a as ih =>
    obtain ⟨hfa,hfas⟩ := List.forall_mem_cons.mp hf
    obtain ⟨ha,has⟩ := List.forall_mem_cons.mp h
    refine bind hfa ha fun b _ => bind (.each (List.forall₂_same.mpr hfas)) (ih hfas has) fun bs _ => ?_
    exact of_same fun _ => rfl

theorem nested {max : Nat} {act : Action ν α} (h : d < max → Confined keys table (d + 1) act) :
    Confined keys table d (Action.nested max act) := by
  rintro env henv hmacros rfl
  by_cases hlt : env.depth < max
  · rw [nested_of_lt act hlt]
    have hinside := h hlt _ (henv.withDepth (env.depth + 1)) hmacros rfl
    exact ⟨hinside.others,hinside.order,hinside.methods⟩
  · rw [nested_of_le act (Nat.le_of_not_lt hlt)]
    exact .refl env

theorem inBlock {act : Action ν Unit} (h : Confined keys table d act) : Confined keys table d (Action.inBlock act) := by
  intro env henv hmacros hd
  have hpush : env.Changes keys env.pushBlock := .of_eq rfl rfl
  have hinside := hpush.trans (h env.pushBlock henv.pushBlock hmacros hd)
  rw [inBlock_eq_closed]
  rcases hrun : act env.pushBlock with ⟨_ | e | _, env'⟩ <;> rw [hrun] at hinside <;>
    exact hinside.trans (.popBlock env')

theorem bindTargets {targets : List Ref} (h : targets ⊆ keys) (v : Value ν) :
    Confined keys table d (Eval.bindTargets targets v) := by
  have hmany (pairs : List (Ref × Value ν)) (hpairs : ∀ p ∈ pairs, p.1 ∈ keys) (env : Env ν) :
      env.Changes keys (pairs.foldl (fun env p => env.define p.1 p.2) env) := by
    induction pairs generalizing env with
    | nil => exact .refl env
    | cons p pairs ih =>
      obtain ⟨hp,hpairs⟩ := List.forall_mem_cons.mp hpairs
      exact (Env.Changes.define env hp p.2).trans (ih hpairs _)
  unfold Eval.bindTargets
  split
  · exact fun env _ _ _ => .define env (h List.mem_cons_self) v
  · split
    · next items =>
      split
      · exact of_same fun _ => rfl
      · exact fun env _ _ _ => hmany _ (fun p hp => h (List.of_mem_zip hp).1) env
    · exact of_same fun _ => rfl

/-! ## Evaluation -/

section

variable (host : Host ν) (limits : Limits) {sub : Term → Action ν (Value ν)}
  (hcarries : ∀ t, Carries (fun _ => False) table d d (Value.native ·) (sub t) (sub t))
  (hsub : ∀ t, t.assigned ⊆ keys → Confined keys table d (sub t))
include hcarries hsub

theorem statements {ts : List Term} (hts : assignedAll ts ⊆ keys) : Confined keys table d (Eval.statements sub ts) := by
  induction ts with
  | nil => exact of_same fun _ => rfl
  | cons t ts ih =>
    obtain ⟨ht,hts⟩ := List.append_subset.mp hts
    intro env henv hmacros hd
    obtain ⟨hended,hnative,hmacros',hdepth⟩ := (hcarries t).after henv hmacros hd
    have hchanges := hsub t ht env henv hmacros hd
    simp only [Eval.statements, Bind.bind, Action.bind]
    rcases hrun : sub t env with ⟨v | e | _, env'⟩ <;> rw [hrun] at hended hnative hmacros' hdepth hchanges
    · have hrecord := hnative.record hended
      obtain ⟨frames,hframes⟩ := env'.record_eq v
      simp only [Action.modify]
      rw [hframes] at hrecord ⊢
      have hsame : env'.Changes keys { env' with frames } := .of_eq rfl rfl
      exact (hchanges.trans hsame).trans (ih hts _ hrecord hmacros' hdepth)
    · exact hchanges
    · exact hchanges

theorem application (htable : table.AddsNoTarget) {operator : Term} {args : List Term}
    (h : (Term.apply operator args).assigned ⊆ keys) :
    Confined keys table d (Eval.application host limits sub operator args) := by
  obtain ⟨hoperator,hargs⟩ := List.append_subset.mp h
  intro env henv hmacros hd
  rcases hexpand : env.macros.expand limits.maxExpansions operator args with e | _ | t
  · simp only [Eval.application, Bind.bind, Action.bind, Action.reading, hexpand, Except.mapError, Outcome.ofExcept]
    exact .refl env
  · rw [Eval.application_of_call hexpand]
    have hcall : Confined keys table d
        (do let f ← sub operator; let values ← Action.each sub args; Gapscript.call host f values) := by
      have heach : Confined keys table d (Action.each sub args) :=
        each (fun t _ => hcarries t) fun t ht => hsub t (List.Subset.trans (Term.assigned_subset_all ht) hargs)
      refine bind (hcarries operator) (hsub operator hoperator) fun f hf => ?_
      refine bind (.each (List.forall₂_same.mpr fun t _ => hcarries t)) heach fun values hvalues => ?_
      exact of_streaming (Streaming.compositional.call host f values hf hvalues)
    exact hcall env henv hmacros hd
  · rw [Eval.application_of_expand hexpand]
    rw [hmacros] at hexpand
    exact hsub t (List.Subset.trans (htable.expand hexpand) hargs) env henv hmacros hd

theorem node (htable : table.AddsNoTarget) {t : Term} (h : t.assigned ⊆ keys) :
    Confined keys table d (Eval.node host limits sub t) := by
  cases t with
  | block kind stmts => exact inBlock (statements hcarries hsub h)
  | assign targets value =>
    obtain ⟨htargets,hvalue⟩ := List.append_subset.mp h
    refine bind (hcarries value) (hsub value hvalue) fun v hv => ?_
    refine bind (.of_floats (.bindTargets targets hv) (.bindTargets targets v)) (bindTargets htargets v) fun _ _ => ?_
    exact of_same fun _ => rfl
  | apply operator args => exact application host limits hcarries hsub htable h
  | ref r => exact of_same fun _ => rfl
  | str raw => exact of_same fun _ => rfl

end

theorem within (host : Host ν) (limits : Limits) (htable : table.AddsNoTarget) {budget : Nat}
    (hbudget : limits.maxDepth - d < budget) {t : Term} (h : t.assigned ⊆ keys) :
    Confined keys table d (Eval.within host limits budget t) := by
  induction budget generalizing d t with
  | zero => exact absurd hbudget (Nat.not_lt_zero _)
  | succ budget ih =>
    refine nested fun hlt => ?_
    have hinside : limits.maxDepth - (d + 1) < budget := by omega
    exact node host limits (fun t => .within host limits (.refl _ _) hinside hinside t) (fun t ht => ih hinside ht)
      htable h

end Confined

end Action

/-- Where programs from the prelude have led, evaluation leaves all bindings alone but the targets of assignments in the
term, whatever its outcome. It moves no binding and removes none, and macros and methods stay as they are. -/
theorem eval_changes_only_assigned (host : Host ν) (limits : Limits) (t : Term) {env : Env ν} (henv : env.Reached host) :
    let env' := (eval host limits t env).2
    (∀ key, key ∉ t.assigned → env'.get? key = env.get? key) ∧ env.bindings.keys <+: env'.bindings.keys ∧
      env'.macros = env.macros ∧ env'.methods = env.methods := by
  intro env'
  obtain ⟨hnative,hmacros⟩ := henv.native_and_macros
  have hconfined : Action.Confined t.assigned Env.preludeMacros env.depth (eval host limits t) :=
    .within host limits MacroTable.addsNoTarget_prelude (limits.levels_lt_budget _) (List.Subset.refl _)
  have hchanges := hconfined env hnative hmacros rfl
  obtain ⟨_,hkept⟩ := eval_kept host limits t hnative
  exact ⟨hchanges.others,hchanges.order,hkept.macros,hchanges.methods⟩

/-- After `x = 'a'`, the program `z | debug (y = 'b')`: the pipe makes `z` the last argument, so that `y` is bound before the
evaluation fails for `z`. -/
theorem eval_changes_only_assigned_piped :
    let env : Env Empty := preludeOnly.define (.symbol "x") (.text "a")
    let env' := env.define (.symbol "y") (.text "b")
    let t : Term := .block .top [.apply (.ref Macro.pipe.key)
      [.symbol "z", .apply (.symbol "debug") [.assign [.symbol "y"] (.str "'b'")]]]
    env.Reached hostless ∧ eval hostless ⟨5, 1⟩ t env = (.error (.undefinedName (.symbol "z")), env') ∧
      (∀ key, key ≠ .symbol "y" → env'.get? key = env.get? key) ∧ env.bindings.keys <+: env'.bindings.keys ∧
      env'.macros = env.macros ∧ env'.methods = env.methods := by
  intro env env' t
  have hprelude : preludeOnly.Reached hostless := .prelude {}
  have hnative := hprelude.native_and_macros.1
  have hbind : eval hostless ⟨5, 1⟩ (.block .top [.assign [.symbol "x"] (.str "'a'")]) preludeOnly =
      (.value (.text "a"), env) := by
    rw [eval_eq_within hostless ⟨5, 1⟩ _ hnative (show 5 - 0 < 6 by decide)]
    rfl
  have hreached : env.Reached hostless := by
    have hrun : runSource hostless ⟨5, 1⟩ "x = 'a'" preludeOnly =
        evalProgram hostless ⟨5, 1⟩ (.block .top [.assign [.symbol "x"] (.str "'a'")]) preludeOnly := rfl
    have hafter := hprelude.run ⟨5, 1⟩ "x = 'a'"
    rw [hrun, evalProgram, hbind] at hafter
    exact hafter
  have heval : eval hostless ⟨5, 1⟩ t env = (.error (.undefinedName (.symbol "z")), env') := by
    rw [eval_eq_within hostless ⟨5, 1⟩ t (hnative.define _ rfl) (show 5 - 0 < 6 by decide)]
    rfl
  obtain ⟨hothers,horder,hmacros,hmethods⟩ := eval_changes_only_assigned hostless ⟨5, 1⟩ t hreached
  rw [heval] at hothers horder hmacros hmethods
  refine ⟨hreached,heval,fun key hkey => hothers key ?_,horder,hmacros,hmethods⟩
  exact fun hassigned => hkey (List.mem_singleton.mp hassigned)

end Gapscript
