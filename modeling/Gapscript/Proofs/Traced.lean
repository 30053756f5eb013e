import Gapscript.Eval
import Gapscript.Proofs.Operation

/-! # Actions with the operations they perform

A traced action carries, beside what it does, the operations by which it does it. What the evaluator does is made of
the same steps when the functions of the embedding are traced, so that the operations of an evaluation can be spoken of:
leaving them out gives the evaluator itself.
-/
namespace Gapscript

/-- An action and, from each environment, the operations it performs there in order. -/
structure Traced (ν α : Type) where
  act : Action ν α
  ops : Env ν → List (Operation ν)
  follows : ∀ env, (act env).2 = env.after (ops env)

namespace Traced

variable {ν α β : Type}

/-- An action that leaves the environment as it is. -/
def quiet (act : Action ν α) (h : ∀ env, (act env).2 = env) : Traced ν α where
  act
  ops _ := []
  follows := h

/-- An action that changes only the streams. -/
def streaming (act : Action ν α) (h : ∀ env, (act env).2 = { env with streams := (act env).2.streams }) :
    Traced ν α where
  act
  ops env := [.streams (act env).2.streams]
  follows := h

def perform (ops : List (Operation ν)) : Traced ν Unit where
  act := .modify (·.after ops)
  ops _ := ops
  follows _ := rfl

def bind (t : Traced ν α) (f : α → Traced ν β) : Traced ν β where
  act := Action.bind t.act fun a => (f a).act
  ops env := t.ops env ++
    match t.act env with
    | (.value a, env') => (f a).ops env'
    | _ => []
  follows env := by
    have h := t.follows env
    rcases ht : t.act env with ⟨_ | _ | _, env'⟩ <;> simp only [ht] at h <;> subst h
    · simp [Action.bind, ht, (f _).follows]
    · simp [Action.bind, ht]
    · simp [Action.bind, ht]

instance : Monad (Traced ν) where
  pure a := quiet (Action.pure a) fun _ => rfl
  bind := bind

def fail (e : EvalError) : Traced ν α := quiet (.fail e) fun _ => rfl

def each (f : α → Traced ν β) : List α → Traced ν (List β)
  | [] => pure []
  | a :: as => do
    let b ← f a
    let bs ← each f as
    return b :: bs

def nested (max : Nat) (t : Traced ν α) : Traced ν α where
  act := .nested max t.act
  ops env := .enter max ::
    match env.enter max with
    | .ok inside => t.ops inside ++ [.exit]
    | .error _ => []
  follows env := by
    cases h : env.enter max with
    | error e => simp [Action.nested, Operation.apply, h]
    | ok inside => simp [Action.nested, Operation.apply, h, t.follows inside]

theorem ops_nested_of_ok {t : Traced ν α} {env inside : Env ν} {max : Nat} (h : env.enter max = .ok inside) :
    (nested max t).ops env = .enter max :: t.ops inside ++ [.exit] := by
  simp [nested, h]

theorem ops_nested_of_error {t : Traced ν α} {env : Env ν} {max : Nat} {e : EvalError}
    (h : env.enter max = .error e) : (nested max t).ops env = [.enter max] := by
  simp [nested, h]

def inBlock (t : Traced ν Unit) : Traced ν (Value ν) where
  act := .inBlock t.act
  ops env := .pushBlock :: t.ops env.pushBlock ++ [.popBlock]
  follows env := by
    have h := t.follows env.pushBlock
    rcases ht : t.act env.pushBlock with ⟨_ | _ | _, env'⟩ <;> simp only [ht] at h <;> subst h <;>
      simp [Action.inBlock, ht, Operation.apply]

/-! ## Calls -/

/-- What the functions of the embedding do, and by which operations. -/
abbrev Host (ν : Type) := ν → List (Value ν) → Traced ν (Value ν)

def Host.act (host : Host ν) : Gapscript.Host ν := fun code args => (host code args).act

theorem primitive_streams (p : Primitive) (args : List (Value ν)) (env : Env ν) :
    (p.run args env).2 = { env with streams := (p.run args env).2.streams } := by
  unfold Primitive.run
  split <;> try rfl
  next a =>
    simp only [Bind.bind, Action.bind, Action.writeDiagnostic]
    rcases env.streams.diagnostics.write ("[debug] " ++ a.inspect ++ "\n") with ⟨_ | _, _⟩ <;> rfl

theorem primitiveMethod_streams (m : PrimitiveMethod) (receiver : Value ν) (args : List (Value ν)) (env : Env ν) :
    (m.run receiver args env).2 = { env with streams := (m.run receiver args env).2.streams } := by
  unfold PrimitiveMethod.run
  split <;> try rfl
  · simp only [Bind.bind, Action.bind, Action.readAll]
    rcases env.streams.input.readAll with ⟨_ | _, _⟩ <;> rfl
  · next a =>
    simp only [Bind.bind, Action.bind, Action.write]
    rcases env.streams.output.write a.display with ⟨_ | _, _⟩ <;> rfl

def checkArity (name : String) (arity : Int) (args : List (Value ν)) : Traced ν Unit :=
  quiet (Gapscript.checkArity name arity args) fun env => by
    unfold Gapscript.checkArity
    split <;> rfl

def call (host : Host ν) (f : Value ν) (args : List (Value ν)) : Traced ν (Value ν) :=
  match f with
  | .number x => pure (.number x)
  | .builtin .map =>
    match args with
    | [g, .seq items] => do
      return .seq (← each (fun (x : { x // x ∈ items }) => call host g [x.val]) items.attach)
    | [_, v] => fail (v.unexpected "map" "a seq")
    | _ => fail (.arityMismatch "map" 2 args.length)
  | .builtin (.primitive p) => do
    checkArity p.name p.arity args
    streaming (p.run args) (primitive_streams p args)
  | .builtin (.external name arity code) => do
    checkArity name arity args
    host code args
  | .method type .map (.seq items) =>
    match args with
    | [g] => do
      return .seq (← each (fun (x : { x // x ∈ items }) => call host g [x.val]) items.attach)
    | _ => fail (.arityMismatch (type ++ ".map") 1 args.length)
  | .method type .map v =>
    match args with
    | [_] => fail (v.unexpected "seq.map" "a seq")
    | _ => fail (.arityMismatch (type ++ ".map") 1 args.length)
  | .method type (.primitive m) receiver => do
    checkArity (type ++ "." ++ m.name) m.arity args
    streaming (m.run receiver args) (primitiveMethod_streams m receiver args)
  | .method type (.external name arity code) receiver => do
    checkArity (type ++ "." ++ name) arity args
    host code (receiver :: args)
  | v =>
    match args with
    | [] => pure v
    | _ => fail (.notCallable v.typeName)
termination_by sizeOf f + sizeOf args
decreasing_by
  · have := List.sizeOf_lt_of_mem x.property
    simp
    omega
  · have := List.sizeOf_lt_of_mem x.property
    simp
    omega

theorem act_each {f : α → Traced ν β} {g : α → Action ν β} (h : ∀ a, (f a).act = g a) (as : List α) :
    (each f as).act = Action.each g as := by
  induction as with
  | nil => rfl
  | cons a as ih =>
    change Action.bind (f a).act (fun b => Action.bind (each f as).act fun bs => Action.pure (b :: bs)) = _
    rw [h, ih]
    rfl

theorem act_call (host : Host ν) (f : Value ν) (args : List (Value ν)) :
    (call host f args).act = Gapscript.call host.act f args := by
  fun_induction call host f args with
  | case1 | case5 | case6 | case11 | case12 =>
    rw [Gapscript.call]
    rfl
  | case2 g items ih | case7 type items g ih =>
    rw [Gapscript.call, ← act_each ih items.attach]
    rfl
  | case3 | case4 | case8 | case9 | case10 => simp_all [Gapscript.call, fail, quiet]
  | case13 => simp_all [Gapscript.call, Pure.pure, quiet]
  | case14 => simp_all [Gapscript.call, fail, quiet]

/-! ## Evaluation -/

def bindTargets (targets : List Ref) (v : Value ν) : Traced ν Unit :=
  match targets with
  | [r] => perform [.define r v]
  | _ =>
    match v with
    | .seq items =>
      if items.length < targets.length then
        fail (.tooFewItems items.length targets.length)
      else
        perform ((targets.zip items).map fun (r, item) => .define r item)
    | v => fail (.notSequence v.typeName targets.length)

section

variable (host : Host ν) (limits : Limits) (sub : Term → Traced ν (Value ν))

def statements : List Term → Traced ν Unit
  | [] => pure ()
  | t :: ts => do
    let v ← sub t
    perform [.record v]
    statements ts

def block (stmts : List Term) : Traced ν (Value ν) := inBlock (statements sub stmts)

def application (operator : Term) (args : List Term) : Traced ν (Value ν) := do
  let expanded ← quiet (.reading fun env =>
    (env.macros.expand limits.maxExpansions operator args).mapError .expansion) fun _ => rfl
  match expanded with
  | some t => sub t
  | none =>
    let f ← sub operator
    let values ← each sub args
    call host f values

def node : Term → Traced ν (Value ν)
  | .block _ stmts => block sub stmts
  | .assign targets value => do
    let v ← sub value
    bindTargets targets v
    return v
  | .apply operator args => application host limits sub operator args
  | .ref r => quiet (.reading (Eval.reference r)) fun _ => rfl
  | .str raw => pure (.text (Term.unescape raw))

end

def within (host : Host ν) (limits : Limits) : (budget : Nat) → Term → Traced ν (Value ν)
  | 0, _ => quiet .unfinished fun _ => rfl
  | budget + 1, t => nested limits.maxDepth (node host limits (within host limits budget) t)

/-- The evaluation of a term with the operations it performs. -/
def eval (host : Host ν) (limits : Limits) (t : Term) : Traced ν (Value ν) := within host limits limits.budget t

theorem act_bindTargets (targets : List Ref) (v : Value ν) :
    (bindTargets targets v).act = Eval.bindTargets targets v := by
  unfold bindTargets Eval.bindTargets
  rcases targets with _ | ⟨r, _ | ⟨r', rest⟩⟩
  case cons.nil => rfl
  all_goals
    cases v with
    | seq items =>
      simp only
      split
      · rfl
      · funext env
        simp [perform, Action.modify, Env.after, List.foldl_map, Operation.apply]
    | _ => rfl

section

variable (host : Host ν) (limits : Limits) {sub : Term → Traced ν (Value ν)} {sub' : Term → Action ν (Value ν)}

theorem act_statements (h : ∀ t, (sub t).act = sub' t) (ts : List Term) :
    (statements sub ts).act = Eval.statements sub' ts := by
  induction ts with
  | nil => rfl
  | cons t ts ih =>
    rw [Eval.statements, ← ih, ← h]
    rfl

theorem act_application (h : ∀ t, (sub t).act = sub' t) (operator : Term) (args : List Term) :
    (application host limits sub operator args).act = Eval.application host.act limits sub' operator args := by
  refine congrArg (Action.bind _) (funext fun expanded => ?_)
  cases expanded with
  | some t => exact h t
  | none =>
    simp only [← h, ← act_each h, ← act_call]
    rfl

theorem act_node (h : ∀ t, (sub t).act = sub' t) (t : Term) :
    (node host limits sub t).act = Eval.node host.act limits sub' t := by
  cases t with
  | block kind stmts =>
    rw [Eval.node, Eval.block, ← act_statements h]
    rfl
  | assign targets value =>
    rw [Eval.node, ← h]
    simp only [← act_bindTargets]
    rfl
  | apply operator args => exact act_application host limits h operator args
  | ref r => rfl
  | str raw => rfl

theorem act_within (budget : Nat) (t : Term) :
    (within host limits budget t).act = Eval.within host.act limits budget t := by
  induction budget generalizing t with
  | zero => rfl
  | succ budget ih =>
    rw [Eval.within, ← act_node host limits ih]
    rfl

/-- Without its operations a traced evaluation is evaluation. -/
theorem act_eval (t : Term) : (eval host limits t).act = Gapscript.eval host.act limits t :=
  act_within host limits limits.budget t

end

end Traced

end Gapscript
