import Gapscript.Primitive
import Gapscript.Proofs.OrderedMap

/-! # Values without functions of the embedding

A value is native if every function in it, however deep and as a receiver too, is one that is built in. The built-in
functions make native values of native values, and an environment is native if nothing else can be found in it.
-/
namespace Gapscript

variable {ν α β : Type}

def Builtin.native : Builtin ν → Bool
  | .external _ _ _ => false
  | _ => true

def Method.native : Method ν → Bool
  | .external _ _ _ => false
  | _ => true

namespace Value

mutual

/-- Whether all functions in the value are built in. -/
def native : Value ν → Bool
  | .seq items => nativeAll items
  | .record _ fields => nativeFields fields
  | .builtin b => b.native
  | .method _ m receiver => m.native && native receiver
  | _ => true

def nativeAll : List (Value ν) → Bool
  | [] => true
  | x :: xs => native x && nativeAll xs

def nativeFields : List (String × Value ν) → Bool
  | [] => true
  | (_, x) :: fields => native x && nativeFields fields

end

theorem nativeAll_iff {xs : List (Value ν)} : nativeAll xs ↔ ∀ x ∈ xs, x.native := by
  induction xs with
  | nil => simp [nativeAll]
  | cons x xs ih => simp [nativeAll, ih]

theorem nativeFields_iff {fields : List (String × Value ν)} : nativeFields fields ↔ ∀ p ∈ fields, p.2.native := by
  induction fields with
  | nil => simp [nativeFields]
  | cons p fields ih => simp [nativeFields, ih]

@[simp] theorem native_seq {xs : List (Value ν)} : (seq xs).native ↔ ∀ x ∈ xs, x.native := by
  rw [native, nativeAll_iff]

@[simp] theorem native_record {type : String} {fields : List (String × Value ν)} :
    (record type fields).native ↔ ∀ p ∈ fields, p.2.native := by
  rw [native, nativeFields_iff]

@[simp] theorem native_method {type : String} {m : Method ν} {receiver : Value ν} :
    (method type m receiver).native ↔ m.native ∧ receiver.native := by
  rw [native, Bool.and_eq_true]

end Value

/-! ## Environments -/

namespace Env

/-- All functions that can be found in the environment are built in. -/
structure Native (env : Env ν) : Prop where
  bindings : ∀ p ∈ env.bindings, p.2.native
  methods : ∀ p ∈ env.methods, ∀ q ∈ p.2, q.2.native
  results : ∀ f ∈ env.frames, f.result.native

namespace Native

variable {env : Env ν}

theorem get? (h : env.Native) {key : Ref} {v : Value ν} (hv : env.get? key = some v) : v.native :=
  h.bindings _ (OrderedMap.mem_of_get? hv)

theorem find? (h : env.Native) {type name : String} {m : Method ν} (hm : env.methods.find? type name = some m) :
    m.native := by
  obtain ⟨methods,htype,hname⟩ := Option.bind_eq_some_iff.mp hm
  exact h.methods _ (OrderedMap.mem_of_get? htype) _ (OrderedMap.mem_of_get? hname)

theorem define (h : env.Native) (key : Ref) {v : Value ν} (hv : v.native) : (env.define key v).Native where
  bindings := OrderedMap.forall_mem_insert (P := (Value.native ·)) h.bindings hv
  methods := h.methods
  results := h.results

theorem defineMethod (h : env.Native) (type : String) {m : Method ν} (hm : m.native) :
    (env.defineMethod type m).Native := by
  have hold : ∀ q ∈ (env.methods.get? type).getD [], q.2.native := by
    cases hget : env.methods.get? type with
    | none => exact List.forall_mem_nil _
    | some methods => exact h.methods _ (OrderedMap.mem_of_get? hget)
  have hnew : ∀ q ∈ OrderedMap.insert ((env.methods.get? type).getD []) m.name m, q.2.native :=
    OrderedMap.forall_mem_insert (P := (Method.native ·)) hold hm
  refine ⟨h.bindings,?_,h.results⟩
  exact OrderedMap.forall_mem_insert (P := fun methods : List (String × Method ν) => ∀ q ∈ methods, q.2.native)
    h.methods hnew

theorem pushMacro (h : env.Native) (m : Macro) : (env.pushMacro m).Native := by
  refine ⟨h.bindings,h.methods,?_⟩
  have hresults := h.results
  simp only [Env.pushMacro]
  cases hframes : env.frames with
  | nil => exact List.forall_mem_nil _
  | cons f rest =>
    rw [hframes] at hresults
    obtain ⟨hf,hrest⟩ := List.forall_mem_cons.mp hresults
    exact List.forall_mem_cons.mpr ⟨hf,hrest⟩

theorem record (h : env.Native) {v : Value ν} (hv : v.native) : (env.record v).Native := by
  unfold Env.record
  split
  · exact h
  · next f rest hframes =>
    have hrest : ∀ g ∈ rest, g.result.native := fun g hg => h.results g (hframes ▸ List.mem_cons_of_mem f hg)
    exact ⟨h.bindings,h.methods,List.forall_mem_cons.mpr ⟨hv,hrest⟩⟩

theorem pushBlock (h : env.Native) : env.pushBlock.Native :=
  ⟨h.bindings,h.methods,List.forall_mem_cons.mpr ⟨rfl,h.results⟩⟩

theorem popBlock (h : env.Native) : env.popBlock.2.Native ∧ ∀ v ∈ env.popBlock.1, v.native := by
  unfold Env.popBlock
  split
  · exact ⟨h,nofun⟩
  · next f rest hframes =>
    obtain ⟨hf,hrest⟩ := List.forall_mem_cons.mp (hframes ▸ h.results)
    refine ⟨⟨h.bindings,h.methods,hrest⟩,?_⟩
    rintro v ⟨⟩
    exact hf

theorem withStreams (h : env.Native) (streams : Streams) : { env with streams }.Native :=
  ⟨h.bindings,h.methods,h.results⟩

theorem withDepth (h : env.Native) (depth : Nat) : { env with depth }.Native :=
  ⟨h.bindings,h.methods,h.results⟩

end Native

end Env

/-! ## Results of the built-in functions -/

/-- If there is a result, it satisfies `P`. -/
def Gives (P : α → Prop) (r : Except EvalError α) : Prop := ∀ a, r = .ok a → P a

namespace Gives

variable {P : β → Prop}

theorem ok {b : β} (h : P b) : Gives P (.ok b) := by
  rintro _ ⟨⟩
  exact h

theorem error (e : EvalError) : Gives P (.error e) := nofun

theorem bind {r : Except EvalError α} {f : α → Except EvalError β} (h : ∀ a, r = .ok a → Gives P (f a)) :
    Gives P (r >>= f) := by
  cases r with
  | error e => exact error e
  | ok a => exact h a rfl

theorem map {r : Except EvalError α} {f : α → β} (h : ∀ a, P (f a)) : Gives P (r.map f) := by
  cases r with
  | error e => exact error e
  | ok a => exact ok (h a)

end Gives

namespace Value

variable {a b : Value ν}

theorem gives_add (ha : a.native) (hb : b.native) : Gives (native ·) (a.add b) := by
  unfold add
  split
  · exact .ok rfl
  · exact .ok rfl
  · next xs ys =>
    refine .ok (native_seq.mpr fun x hx => ?_)
    rcases List.mem_append.mp hx with hx | hx
    · exact native_seq.mp ha x hx
    · exact native_seq.mp hb x hx
  · exact .error _

theorem gives_arith (name : String) (f : Float → Float → Float) : Gives (native ·) (a.arith name f b) :=
  .bind fun _ _ => .bind fun _ _ => .ok rfl

theorem gives_divide (name : String) (f : Float → Float → Float) : Gives (native ·) (a.divide name f b) := by
  refine .bind fun _ _ => .bind fun y _ => ?_
  split
  · exact .error _
  · exact .ok rfl

theorem gives_toInt (name : String) : Gives (native ·) (a.toInt name) := by
  unfold toInt
  split
  · exact .ok rfl
  · split
    · exact .ok rfl
    · exact .error _
  · exact .error _

theorem gives_floor (name : String) : Gives (native ·) (a.floor name) := .bind fun _ _ => .ok rfl

theorem gives_split (name : String) : Gives (native ·) (a.split name b) := by
  refine .bind fun _ _ => .bind fun _ _ => .ok (native_seq.mpr fun x hx => ?_)
  obtain ⟨s,_,rfl⟩ := List.mem_map.mp hx
  rfl

theorem gives_join (name : String) : Gives (native ·) (a.join name b) := .bind fun _ _ => .bind fun _ _ => .ok rfl

theorem gives_item (name : String) (ha : a.native) : Gives (native ·) (a.item name b) := by
  refine .bind fun items hitems => .bind fun index _ => ?_
  split
  · next v hv =>
    obtain ⟨i,_,hi⟩ := Option.bind_eq_some_iff.mp hv
    cases a with
    | seq xs =>
      cases hitems
      exact .ok (native_seq.mp ha v (List.mem_of_getElem? hi))
    | _ => cases hitems
  · exact .error _

end Value

theorem Env.Native.gives_member {env : Env ν} (h : env.Native) {receiver : Value ν} (hr : receiver.native)
    (name : String) : Gives (Value.native ·) (env.member receiver name) := by
  have hmethod : ∀ m, env.methods.find? receiver.typeName name = some m →
      (Value.method receiver.typeName m receiver).native := by
    intro m hm
    exact Value.native_method.mpr ⟨h.find? hm,hr⟩
  unfold Env.member
  generalize env.methods.find? receiver.typeName name = found at hmethod ⊢
  have hfound : Gives (Value.native ·) (found.elim (.error (.unknownMember receiver.typeName name)) fun m =>
      .ok (.method receiver.typeName m receiver)) := by
    cases found with
    | some m => exact .ok (hmethod m rfl)
    | none => exact .error _
  cases found with
  | some | none =>
    cases receiver with
    | record type fields =>
      simp only
      split
      · next field hfield => exact .ok (Value.native_record.mp hr _ (OrderedMap.mem_of_get? hfield))
      · exact hfound
    | _ => exact hfound

theorem Env.Native.gives_memberNamed {env : Env ν} (h : env.Native) {receiver : Value ν} (hr : receiver.native)
    (name : Value ν) : Gives (Value.native ·) (env.memberNamed receiver name) := by
  unfold Env.memberNamed
  split
  · exact h.gives_member hr _
  · exact .error _

end Gapscript
