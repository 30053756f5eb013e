import Gapscript.Prelude
import Gapscript.Proofs.Approximation
import Gapscript.Proofs.Native

/-! # Evaluation ends

Macros may let a term grow without end, but every nested evaluation is one level further in, so that the levels left
bound the budget that is needed. Calls are not counted in levels. A function that `map` calls comes from the data, and
so may the next one, but each call is made with less data than the one that makes it; the total size of the function and
its arguments bounds how many calls can be nested.
-/
namespace Gapscript

variable {ν α β : Type}

/-- A value that satisfies `P`, or an error. -/
def Outcome.Ended {ε : Type} (P : α → Prop) : Outcome ε α → Prop
  | .value a => P a
  | .error _ => True
  | .unfinished => False

theorem Outcome.Ended.final {P : α → Prop} {r : Outcome EvalError α} (h : r.Ended P) : r.Final fun _ => False := by
  cases r with
  | value a => trivial
  | error e => exact id
  | unfinished => exact h

/-- From a native environment at level `d` the action ends, with `P` of its value if it has one, and leaves such an
environment. -/
def Action.Ends (d : Nat) (P : α → Prop) (act : Action ν α) : Prop :=
  ∀ env, env.Native → env.depth = d → (act env).1.Ended P ∧ (act env).2.Native ∧ (act env).2.depth = d

namespace Action.Ends

variable {d : Nat} {P : α → Prop} {Q : β → Prop}

theorem pure {a : α} (h : P a) : Ends d P (Pure.pure a : Action ν α) := fun _ henv hd => ⟨h,henv,hd⟩

theorem fail (e : EvalError) : Ends d P (Action.fail e : Action ν α) := fun _ henv hd => ⟨trivial,henv,hd⟩

theorem reading {f : Env ν → Except EvalError α} (h : ∀ env, env.Native → Gives P (f env)) :
    Ends d P (Action.reading f) := by
  intro env henv hd
  refine ⟨?_,henv,hd⟩
  simp only [Action.reading]
  cases hr : f env with
  | ok a => exact h env henv a hr
  | error e => trivial

theorem lift {r : Except EvalError α} (h : Gives P r) : Ends d P (Action.lift r : Action ν α) :=
  reading fun _ _ => h

theorem modify {f : Env ν → Env ν} (h : ∀ env, env.Native → (f env).Native ∧ (f env).depth = env.depth) :
    Ends d (fun _ => True) (Action.modify f) := by
  intro env henv hd
  obtain ⟨hnative,hdepth⟩ := h env henv
  exact ⟨trivial,hnative,hdepth.trans hd⟩

theorem bind {act : Action ν α} {f : α → Action ν β} (h : Ends d P act) (hf : ∀ a, P a → Ends d Q (f a)) :
    Ends d Q (act >>= f) := by
  intro env henv hd
  obtain ⟨hended,hnative,hdepth⟩ := h env henv hd
  simp only [Bind.bind, Action.bind]
  rcases hact : act env with ⟨a | e | _, env'⟩ <;> rw [hact] at hended hnative hdepth
  · exact hf a hended env' hnative hdepth
  · exact ⟨trivial,hnative,hdepth⟩
  · exact hended.elim

theorem each {f : α → Action ν β} {as : List α} (h : ∀ a ∈ as, Ends d Q (f a)) :
    Ends d (fun bs => ∀ b ∈ bs, Q b) (Action.each f as) := by
  induction as with
  | nil => exact pure nofun
  | cons a as ih =>
    refine bind (h a List.mem_cons_self) fun b hb => ?_
    refine bind (ih fun a' ha' => h a' (List.mem_cons_of_mem a ha')) fun bs hbs => ?_
    exact pure (List.forall_mem_cons.mpr ⟨hb,hbs⟩)

/-- What is done one level further in has to end only if there is such a level. -/
theorem nested {max : Nat} {act : Action ν α} (h : d < max → Ends (d + 1) P act) :
    Ends d P (Action.nested max act) := by
  rintro env henv rfl
  simp only [Action.nested, Env.enter]
  split
  · next e he =>
    split at he
    · exact ⟨trivial,henv,rfl⟩
    · cases he
  · next inside hinside =>
    split at hinside
    · cases hinside
    · next hlt =>
      cases hinside
      obtain ⟨hended,hnative,hdepth⟩ := h (Nat.lt_of_not_le hlt) _ (henv.withDepth (env.depth + 1)) rfl
      exact ⟨hended,hnative.withDepth _,by simp only [Env.exit, hdepth, Nat.add_sub_cancel]⟩

theorem inBlock {act : Action ν Unit} (h : Ends d (fun _ => True) act) :
    Ends d (Value.native ·) (Action.inBlock act) := by
  intro env henv hd
  obtain ⟨hended,hnative,hdepth⟩ := h env.pushBlock henv.pushBlock hd
  have hpop (env' : Env ν) : env'.popBlock.2.depth = env'.depth := by
    unfold Env.popBlock
    split <;> rfl
  simp only [Action.inBlock]
  rcases hact : act env.pushBlock with ⟨_ | e | _, env'⟩ <;> rw [hact] at hended hnative hdepth
  · refine ⟨?_,hnative.popBlock.1,(hpop env').trans hdepth⟩
    change (env'.popBlock.1.getD .undefined).native
    cases hresult : env'.popBlock.1 with
    | none => rfl
    | some v => exact hnative.popBlock.2 v hresult
  · exact ⟨trivial,hnative.popBlock.1,(hpop env').trans hdepth⟩
  · exact hended.elim

/-! ## The built-in functions -/

theorem readAll (name : String) : Ends d (fun _ => True) (Action.readAll name : Action ν String) := by
  intro env henv hd
  simp only [Action.readAll]
  rcases env.streams.input.readAll with ⟨_ | _, input⟩
  · exact ⟨trivial,henv.withStreams _,hd⟩
  · exact ⟨trivial,henv.withStreams _,hd⟩

theorem write (name text : String) : Ends d (fun _ => True) (Action.write name text : Action ν Unit) := by
  intro env henv hd
  simp only [Action.write]
  rcases env.streams.output.write text with ⟨_ | _, output⟩
  · exact ⟨trivial,henv.withStreams _,hd⟩
  · exact ⟨trivial,henv.withStreams _,hd⟩

theorem writeDiagnostic (name line : String) :
    Ends d (fun _ => True) (Action.writeDiagnostic name line : Action ν Unit) := by
  intro env henv hd
  simp only [Action.writeDiagnostic]
  rcases env.streams.diagnostics.write (line ++ "\n") with ⟨_ | _, diagnostics⟩
  · exact ⟨trivial,henv.withStreams _,hd⟩
  · exact ⟨trivial,henv.withStreams _,hd⟩

theorem checkArity (name : String) (arity : Int) (args : List (Value ν)) :
    Ends d (fun _ => True) (Gapscript.checkArity name arity args) := by
  unfold Gapscript.checkArity
  split
  · exact fail _
  · exact pure trivial

theorem primitive (p : Primitive) {args : List (Value ν)} (h : ∀ a ∈ args, a.native) :
    Ends d (Value.native ·) (p.run args) := by
  unfold Primitive.run
  split
  case h_1 a b => exact lift (Value.gives_add (h a (by simp)) (h b (by simp)))
  case h_2 | h_3 => exact lift (Value.gives_arith _ _)
  case h_4 | h_5 => exact lift (Value.gives_divide _ _)
  case h_6 => exact lift (.map fun _ => rfl)
  case h_7 => exact pure (Value.native_seq.mpr h)
  case h_8 | h_9 => exact pure rfl
  case h_10 => exact lift (Value.gives_toInt _)
  case h_11 => exact lift (Value.gives_floor _)
  case h_12 a => exact bind (writeDiagnostic _ _) fun _ _ => pure (h a (by simp))
  case h_13 => exact lift (Value.gives_split _)
  case h_14 receiver name => exact reading fun env henv => henv.gives_memberNamed (h receiver (by simp)) name
  case h_15 => exact fail _

theorem primitiveMethod (m : PrimitiveMethod) {receiver : Value ν} (h : receiver.native) (args : List (Value ν)) :
    Ends d (Value.native ·) (m.run receiver args) := by
  unfold PrimitiveMethod.run
  split
  case h_1 => exact bind (readAll _) fun _ _ => pure rfl
  case h_2 => exact bind (write _ _) fun _ _ => pure rfl
  case h_3 => exact lift (Value.gives_split _)
  case h_4 | h_5 | h_6 => exact lift (.map fun _ => rfl)
  case h_7 => exact lift (Value.gives_item _ h)
  case h_8 => exact lift (Value.gives_join _)
  case h_9 => exact lift (Value.gives_floor _)
  case h_10 => exact lift (Value.gives_toInt _)
  case h_11 => exact fail _

/-- A call of a native function with native arguments ends. -/
theorem call (host : Host ν) (f : Value ν) (args : List (Value ν)) (hf : f.native) (hargs : ∀ a ∈ args, a.native) :
    Ends d (Value.native ·) (Gapscript.call host f args) := by
  fun_induction Gapscript.call host f args with
  | case1 => exact pure rfl
  | case2 g items ih =>
    obtain ⟨hg,hitems⟩ : g.native ∧ ∀ x ∈ items, x.native := by simpa using hargs
    refine bind (each fun x _ => ih x hg (by simpa using hitems x.val x.property)) fun values hvalues => ?_
    exact pure (Value.native_seq.mpr hvalues)
  | case7 type items g ih =>
    have hg : g.native := hargs g (by simp)
    have hitems : ∀ x ∈ items, x.native := Value.native_seq.mp (Value.native_method.mp hf).2
    refine bind (each fun x _ => ih x hg (by simpa using hitems x.val x.property)) fun values hvalues => ?_
    exact pure (Value.native_seq.mpr hvalues)
  | case3 | case4 | case8 | case9 | case10 | case14 => exact fail _
  | case5 => exact bind (checkArity _ _ _) fun _ _ => primitive _ hargs
  | case11 => exact bind (checkArity _ _ _) fun _ _ => primitiveMethod _ (Value.native_method.mp hf).2 _
  | case6 => cases hf
  | case12 => cases (Value.native_method.mp hf).1
  | case13 => exact pure hf

end Action.Ends

/-! ## Nested calls -/

namespace Value

mutual

/-- The number of values that a value is made of, itself included. -/
def size : Value ν → Nat
  | .seq items => sizeAll items + 1
  | .record _ fields => sizeFields fields + 1
  | .method _ _ receiver => size receiver + 1
  | _ => 1

def sizeAll : List (Value ν) → Nat
  | [] => 0
  | x :: xs => size x + sizeAll xs

def sizeFields : List (String × Value ν) → Nat
  | [] => 0
  | (_, x) :: fields => size x + sizeFields fields

end

theorem size_le_sizeAll {x : Value ν} {xs : List (Value ν)} (h : x ∈ xs) : x.size ≤ sizeAll xs := by
  induction xs with
  | nil => cases h
  | cons y ys ih =>
    rw [sizeAll]
    rcases List.mem_cons.mp h with rfl | h
    · exact Nat.le_add_right _ _
    · exact Nat.le_trans (ih h) (Nat.le_add_left _ _)

end Value

namespace Call
open Value (sizeAll size_le_sizeAll)

/-- A call whose own calls are made by `sub`. -/
def node (host : Host ν) (sub : Value ν → List (Value ν) → Action ν (Value ν)) (f : Value ν)
    (args : List (Value ν)) : Action ν (Value ν) :=
  match f with
  | .number x => pure (.number x)
  | .builtin .map =>
    match args with
    | [g, .seq items] => do
      return .seq (← Action.each (fun x => sub g [x]) items)
    | [_, v] => .fail (v.unexpected "map" "a seq")
    | _ => .fail (.arityMismatch "map" 2 args.length)
  | .builtin (.primitive p) => do
    checkArity p.name p.arity args
    p.run args
  | .builtin (.external name arity code) => do
    checkArity name arity args
    host code args
  | .method type .map (.seq items) =>
    match args with
    | [g] => do
      return .seq (← Action.each (fun x => sub g [x]) items)
    | _ => .fail (.arityMismatch (type ++ ".map") 1 args.length)
  | .method type .map v =>
    match args with
    | [_] => .fail (v.unexpected "seq.map" "a seq")
    | _ => .fail (.arityMismatch (type ++ ".map") 1 args.length)
  | .method type (.primitive m) receiver => do
    checkArity (type ++ "." ++ m.name) m.arity args
    m.run receiver args
  | .method type (.external name arity code) receiver => do
    checkArity (type ++ "." ++ name) arity args
    host code (receiver :: args)
  | v =>
    match args with
    | [] => pure v
    | _ => .fail (.notCallable v.typeName)

/-- Call with a budget of nested calls. -/
def within (host : Host ν) : (budget : Nat) → Value ν → List (Value ν) → Action ν (Value ν)
  | 0, _, _ => .unfinished
  | budget + 1, f, args => node host (within host budget) f args

theorem each_attach (f : α → Action ν β) {as : List α} (g : { a // a ∈ as } → Action ν β) (h : ∀ a, g a = f a.val) :
    Action.each g as.attach = Action.each f as := by
  have hmap (bs : List { a // a ∈ as }) : Action.each g bs = Action.each f (bs.map (·.val)) := by
    induction bs with
    | nil => rfl
    | cons b bs ih => rw [List.map_cons, Action.each, Action.each, ih, h]
  rw [hmap, List.attach_map_subtype_val]

/-- The calls that a call makes are made with less data than it has itself, so `sub` has to do what calling does only on
less data. -/
theorem node_eq_call {host : Host ν} {sub : Value ν → List (Value ν) → Action ν (Value ν)} {f : Value ν}
    {args : List (Value ν)}
    (h : ∀ g as, g.size + sizeAll as < f.size + sizeAll args → sub g as = call host g as) :
    node host sub f args = call host f args := by
  fun_cases call host f args with
  | case1 | case5 | case6 | case11 | case12 => rfl
  | case2 g items | case7 type items g =>
    rw [each_attach fun x => sub g [x]]
    · rfl
    · intro x
      have hx := size_le_sizeAll x.property
      refine (h g [x.val] ?_).symm
      simp only [Value.size, sizeAll]
      omega
  | case3 | case4 | case8 | case9 | case10 | case13 | case14 => simp_all [node]

/-- A budget beyond the size of the function and its arguments is never used up. -/
theorem within_eq_call (host : Host ν) {budget : Nat} {f : Value ν} {args : List (Value ν)}
    (h : f.size + sizeAll args < budget) : within host budget f args = call host f args := by
  induction budget generalizing f args with
  | zero => exact absurd h (Nat.not_lt_zero _)
  | succ budget ih =>
    rw [within]
    exact node_eq_call fun g as hlt => ih (Nat.lt_of_lt_of_le hlt (Nat.le_of_lt_succ h))

end Call

/-! ## Nested evaluation -/

namespace Action.Ends

variable {d : Nat}

theorem bindTargets (targets : List Ref) {v : Value ν} (hv : v.native) :
    Ends d (fun _ => True) (Eval.bindTargets targets v) := by
  have hmany (pairs : List (Ref × Value ν)) (h : ∀ p ∈ pairs, p.2.native) (env : Env ν) (henv : env.Native) :
      (pairs.foldl (fun env p => env.define p.1 p.2) env).Native ∧
        (pairs.foldl (fun env p => env.define p.1 p.2) env).depth = env.depth := by
    induction pairs generalizing env with
    | nil => exact ⟨henv,rfl⟩
    | cons p pairs ih =>
      obtain ⟨hp,hpairs⟩ := List.forall_mem_cons.mp h
      exact ih hpairs (env.define p.1 p.2) (henv.define p.1 hp)
  unfold Eval.bindTargets
  split
  · exact modify fun env henv => ⟨henv.define _ hv,rfl⟩
  · split
    · next items =>
      split
      · exact fail _
      · exact modify fun env henv => hmany _ (fun p hp => Value.native_seq.mp hv _ (List.of_mem_zip hp).2) env henv
    · exact fail _

theorem reference (r : Ref) : Ends d (Value.native ·) (Action.reading (Eval.reference r) : Action ν (Value ν)) := by
  refine reading fun env henv => ?_
  unfold Eval.reference
  split
  · exact .ok rfl
  · split
    · next v hv => exact .ok (henv.get? hv)
    · exact .error _

section

variable (host : Host ν) (limits : Limits) {sub : Term → Action ν (Value ν)}
  (hsub : ∀ t, Ends d (Value.native ·) (sub t))

include hsub

theorem statements (ts : List Term) : Ends d (fun _ => True) (Eval.statements sub ts) := by
  induction ts with
  | nil => exact pure trivial
  | cons t ts ih =>
    have hrecord (v : Value ν) (hv : v.native) : Ends d (fun _ => True) (Action.modify (·.record v)) := by
      refine modify fun env henv => ⟨henv.record hv,?_⟩
      unfold Env.record
      split <;> rfl
    exact bind (hsub t) fun v hv => bind (hrecord v hv) fun _ _ => ih

theorem application (operator : Term) (args : List Term) :
    Ends d (Value.native ·) (Eval.application host limits sub operator args) := by
  refine bind (reading (P := fun _ => True) fun env _ _ _ => trivial) fun expanded _ => ?_
  cases expanded with
  | some t => exact hsub t
  | none =>
    refine bind (hsub operator) fun f hf => bind (each fun t _ => hsub t) fun values hvalues => ?_
    exact call host f values hf hvalues

theorem node (t : Term) : Ends d (Value.native ·) (Eval.node host limits sub t) := by
  cases t with
  | block kind stmts => exact inBlock (statements hsub stmts)
  | assign targets value => exact bind (hsub value) fun v hv => bind (bindTargets targets hv) fun _ _ => pure hv
  | apply operator args => exact application host limits hsub operator args
  | ref r => exact reference r
  | str raw => exact pure rfl

end

/-- A budget beyond the number of levels left is never used up. -/
theorem within (host : Host ν) (limits : Limits) {budget : Nat} (h : limits.maxDepth - d < budget) (t : Term) :
    Ends d (Value.native ·) (Eval.within host limits budget t) := by
  induction budget generalizing d t with
  | zero => exact absurd h (Nat.not_lt_zero _)
  | succ budget ih => exact nested fun hlt => node host limits (fun t => ih (by omega) t) t

end Action.Ends

/-- Evaluation in an environment without functions of the embedding ends in a value or an error, whatever the macros,
and so does every call. No more levels are needed than the limit leaves, and no more nested calls than the function and
its arguments have parts, so that a larger budget of either changes nothing. -/
theorem eval_terminates (host : Host ν) (limits : Limits) (t : Term) {env : Env ν} (henv : env.Native) :
    (eval host limits t env).1.Ended (Value.native ·) ∧
    (∀ budget, limits.maxDepth - env.depth < budget →
      Eval.within host limits budget t env = eval host limits t env) ∧
    ∀ f args, f.native → (∀ a ∈ args, a.native) → (call host f args env).1.Ended (Value.native ·) ∧
      ∀ budget, f.size + Value.sizeAll args < budget → Call.within host budget f args env = call host f args env := by
  have hended {budget : Nat} (h : limits.maxDepth - env.depth < budget) :
      (Eval.within host limits budget t env).1.Ended (Value.native ·) :=
    (Action.Ends.within host limits h t env henv rfl).1
  have hbudget : limits.maxDepth - env.depth < limits.budget := by
    unfold Limits.budget
    omega
  refine ⟨hended hbudget,fun budget h => ?_,fun f args hf hargs => ?_⟩
  · rcases Nat.le_total budget limits.budget with hle | hle
    · exact (Eval.approximates_within host limits hle t env (hended h).final).symm
    · exact Eval.approximates_within host limits hle t env (hended hbudget).final
  · refine ⟨(Action.Ends.call host f args hf hargs env henv rfl).1,fun budget h => ?_⟩
    rw [Call.within_eq_call host h]

/-- A method bound to a sequence that holds another one of the kind. -/
def knot : Value Empty := .method "seq" .map (.seq [.method "seq" .map (.seq [.number 1])])

/-- A macro that makes a larger term of every term, inside a block so that expansion itself comes to an end. -/
def growing : Macro :=
  ⟨.symbol "grow", fun args => .ok (.block .top [.apply (.symbol "grow") (.symbol "knot" :: args)])⟩

def knotEnv : Env Empty := ((Env.withPrelude {}).define (.symbol "knot") knot).pushMacro growing

/-- The macro is stopped by the limit on levels, and the method called with itself by the size of the two. -/
theorem eval_terminates_knot :
    let host : Host Empty := fun code => nomatch code
    let limits : Limits := ⟨4, 100⟩
    let t : Term := .apply (.symbol "grow") []
    knotEnv.Native ∧ knot.native ∧ (eval host limits t knotEnv).1 = .error (.depthExceeded 5 4) ∧
      (call host knot [knot] knotEnv).1 = .value (.seq [.seq [.seq [.seq [.number 1]]]]) := by
  intro host limits t
  have henv : knotEnv.Native := ⟨by decide,by decide,by decide⟩
  have hknot : knot.native := rfl
  obtain ⟨_,hbudget,hcall⟩ := eval_terminates host limits t henv
  obtain ⟨_,hcalls⟩ := hcall knot [knot] hknot (by simpa using hknot)
  refine ⟨henv,hknot,?_,?_⟩
  · rw [← hbudget 5 (by decide)]
    rfl
  · rw [← hcalls 11 (by decide)]
    rfl

end Gapscript
