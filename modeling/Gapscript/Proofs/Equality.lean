import Gapscript.Proofs.OrderedMap
import Gapscript.Value
import Mathlib.Data.List.Forall2
import Mathlib.Data.List.Nodup
import Mathlib.Data.List.Perm.Subperm

/-! # Equality of values

Numbers are equal if they denote the same number, so that both zeros are equal and what is not a number differs from
itself. All else follows from that through items, fields and receivers. Fields are looked for in one direction only, each
one of the left record in the right one, which has as many. That equality is symmetric all the same rests on the names,
each of which a record has once.
-/
namespace Gapscript

/-! ## Numbers -/

namespace Number
open Float.Model UnpackedFloat

/-- The two denote the same number. -/
inductive Same : UnpackedFloat → UnpackedFloat → Prop where
  | infinity (s : Sign) : Same (.infinity s) (.infinity s)
  | zero (s t : Sign) : Same (.zero s) (.zero t)
  | finite {s : Sign} {m : Nat} {e : Int} (h h' : 0 < m) : Same (.finite s m e h) (.finite s m e h')

namespace Same

variable {a b c : UnpackedFloat}

theorem symm (h : Same a b) : Same b a := by
  cases h with
  | infinity s => exact .infinity s
  | zero s t => exact .zero t s
  | finite h h' => exact .finite h' h

theorem trans (h : Same a b) (h' : Same b c) : Same a c := by
  cases h with
  | infinity => exact h'
  | zero s =>
    cases h' with
    | zero _ t => exact .zero s t
  | finite h =>
    cases h' with
    | finite _ h' => exact .finite h h'

theorem self_iff : Same a a ↔ a.isNaN = false := by
  cases a with
  | notANumber => exact ⟨nofun,nofun⟩
  | infinity s => exact ⟨fun _ => rfl,fun _ => .infinity s⟩
  | zero s => exact ⟨fun _ => rfl,fun _ => .zero s s⟩
  | finite _ _ _ h => exact ⟨fun _ => rfl,fun _ => .finite h h⟩

theorem of_compare (h : a.compare b = some .eq) : Same a b := by
  cases a with
  | notANumber => cases h
  | infinity s =>
    cases b with
    | infinity t =>
      cases s <;> cases t
      · exact .infinity _
      · cases h
      · cases h
      · exact .infinity _
    | notANumber => cases h
    | zero | finite => cases s <;> cases h
  | zero s =>
    cases b with
    | zero t => exact .zero s t
    | notANumber => cases h
    | infinity t | finite t => cases t <;> cases h
  | finite s m e hm =>
    cases b with
    | finite t n f hn =>
      have hparts : s = t ∧ (Ord.compare e f).then (Ord.compare m n) = .eq := by
        cases s with
        | positive =>
          cases t with
          | positive => exact ⟨rfl,Option.some.inj h⟩
          | negative => cases h
        | negative =>
          cases t with
          | positive => cases h
          | negative => exact ⟨rfl,Ordering.swap_eq_eq.mp (Option.some.inj h)⟩
      obtain ⟨rfl,hthen⟩ := hparts
      obtain ⟨he,hm'⟩ := Ordering.then_eq_eq.mp hthen
      cases Std.compare_eq_iff_eq.mp he
      cases Std.compare_eq_iff_eq.mp hm'
      exact .finite hm hn
    | notANumber => cases h
    | infinity t => cases t <;> cases h
    | zero => cases s <;> cases h

theorem compare (h : Same a b) : a.compare b = some .eq := by
  cases h with
  | infinity s => cases s <;> rfl
  | zero => rfl
  | @finite s m e =>
    have hthen : (Ord.compare e e).then (Ord.compare m m) = .eq := by simp
    cases s with
    | positive => exact congrArg some hthen
    | negative => exact congrArg (some ·.swap) hthen

end Same

variable {x y z : Float}

theorem beq_iff_same : x == y ↔ Same x.toModel.unpack y.toModel.unpack := by
  change (x.toModel.unpack.compare y.toModel.unpack == some .eq) = true ↔ _
  rw [beq_iff_eq]
  exact ⟨Same.of_compare,Same.compare⟩

theorem beq_symm (h : x == y) : y == x := beq_iff_same.mpr (beq_iff_same.mp h).symm

theorem beq_trans (hxy : x == y) (hyz : y == z) : x == z :=
  beq_iff_same.mpr ((beq_iff_same.mp hxy).trans (beq_iff_same.mp hyz))

theorem beq_self_iff : x == x ↔ x.isNaN = false := beq_iff_same.trans Same.self_iff

end Number

/-! ## Maps in which the entries of another are found -/

namespace OrderedMap

variable {κ α β γ : Type} [DecidableEq κ] {m : OrderedMap κ α} {m' : OrderedMap κ β} {R : α → β → Prop}

/-- Each entry of the first map is found in the second with a related value. -/
def Finds (R : α → β → Prop) (m : OrderedMap κ α) (m' : OrderedMap κ β) : Prop :=
  ∀ p ∈ m, ∃ b, m'.get? p.1 = some b ∧ R p.2 b

theorem Finds.mono {S : α → β → Prop} (h : Finds R m m') (hS : ∀ p ∈ m, ∀ b, R p.2 b → S p.2 b) : Finds S m m' := by
  intro p hp
  obtain ⟨b,hb,hR⟩ := h p hp
  exact ⟨b,hb,hS p hp b hR⟩

theorem Finds.comp {m'' : OrderedMap κ γ} {S : β → γ → Prop} (h : Finds R m m') (h' : Finds S m' m'') :
    Finds (fun a c => ∃ b, R a b ∧ S b c) m m'' := by
  intro p hp
  obtain ⟨b,hb,hR⟩ := h p hp
  obtain ⟨c,hc,hS⟩ := h' (p.1, b) (mem_of_get? hb)
  exact ⟨c,hc,b,hR,hS⟩

/-- A map with as many entries has no others. -/
theorem Finds.keys_perm (h : Finds R m m') (hm : m.keys.Nodup) (hlength : m.length = m'.length) :
    m.keys.Perm m'.keys := by
  have hsubset : m.keys ⊆ m'.keys := by
    intro key hkey
    obtain ⟨p,hp,rfl⟩ := List.mem_map.mp hkey
    obtain ⟨b,hb,_⟩ := h p hp
    exact List.mem_map_of_mem (mem_of_get? hb)
  refine (hm.subperm hsubset).perm_of_length_le ?_
  simp [keys, hlength]

theorem Finds.swap (h : Finds R m m') (hm : m.keys.Nodup) (hlength : m.length = m'.length) :
    Finds (fun b a => R a b) m' m := by
  have hperm := h.keys_perm hm hlength
  intro q hq
  obtain ⟨p,hp,hkey⟩ := List.mem_map.mp (hperm.mem_iff.mpr (List.mem_map_of_mem hq))
  obtain ⟨b,hb,hR⟩ := h p hp
  rw [hkey, get?_of_mem (hperm.nodup_iff.mp hm) hq] at hb
  cases hb
  exact ⟨p.2,by rw [← hkey]; exact get?_of_mem hm hp,hR⟩

/-- Maps with as many entries, of which one finds all of its own in the other, have related values under all keys. -/
theorem finds_iff_rel (hm : m.keys.Nodup) (hm' : m'.keys.Nodup) :
    m.length = m'.length ∧ Finds R m m' ↔ ∀ key, Option.Rel R (m.get? key) (m'.get? key) := by
  constructor
  · rintro ⟨hlength,h⟩ key
    cases hget : m.get? key with
    | some a =>
      obtain ⟨b,hb,hR⟩ := h (key, a) (mem_of_get? hget)
      rw [hb]
      exact .some hR
    | none =>
      have hnone : m'.get? key = none := by
        rw [get?_eq_none_iff] at hget ⊢
        rwa [← (h.keys_perm hm hlength).mem_iff]
      rw [hnone]
      exact .none
  · intro h
    have hkeys (key : κ) : key ∈ m.keys ↔ key ∈ m'.keys := by
      have hrel := h key
      rw [← not_iff_not, ← get?_eq_none_iff, ← get?_eq_none_iff]
      generalize m.get? key = a, m'.get? key = b at hrel
      cases hrel with
      | some => exact ⟨nofun,nofun⟩
      | none => exact ⟨fun _ => rfl,fun _ => rfl⟩
    have hperm := (List.perm_ext_iff_of_nodup hm hm').mpr hkeys
    refine ⟨by simpa [keys] using hperm.length_eq,?_⟩
    rintro ⟨key, a⟩ hp
    have hrel := h key
    rw [get?_of_mem hm hp] at hrel
    change ∃ b, m'.get? key = some b ∧ R a b
    generalize m'.get? key = b at hrel
    cases hrel with
    | some hR => exact ⟨_,rfl,hR⟩

end OrderedMap

/-! ## Values in values -/

namespace Value

variable {ν : Type} {u v w : Value ν}

/-- What holds of a value if it holds of all that it is made of holds of every value. -/
@[elab_as_elim]
theorem induction {motive : Value ν → Prop} (undefined : motive .undefined) (number : ∀ x, motive (.number x))
    (text : ∀ s, motive (.text s)) (seq : ∀ items, (∀ v ∈ items, motive v) → motive (.seq items))
    (record : ∀ type fields, (∀ p ∈ fields, motive p.2) → motive (.record type fields))
    (builtin : ∀ b, motive (.builtin b))
    (method : ∀ type m receiver, motive receiver → motive (.method type m receiver)) : ∀ v, motive v
  | .undefined => undefined
  | .number x => number x
  | .text s => text s
  | .seq items => seq items fun v _ => induction undefined number text seq record builtin method v
  | .record type fields => record type fields fun p _ => induction undefined number text seq record builtin method p.2
  | .builtin b => builtin b
  | .method type m receiver =>
    method type m receiver (induction undefined number text seq record builtin method receiver)
termination_by v => sizeOf v
decreasing_by
  · have := List.sizeOf_lt_of_mem ‹v ∈ items›
    simp only [Value.seq.sizeOf_spec]
    omega
  · have := List.sizeOf_lt_of_mem ‹p ∈ fields›
    obtain ⟨name, v⟩ := p
    simp only [Value.record.sizeOf_spec, Prod.mk.sizeOf_spec] at this ⊢
    omega
  · simp only [Value.method.sizeOf_spec]
    omega

/-- The value `v` is a value itself, an item or a field in it, or the receiver of a method in it. -/
inductive Within (v : Value ν) : Value ν → Prop where
  | self : Within v v
  | item {w : Value ν} {items : List (Value ν)} (hw : w ∈ items) (h : Within v w) : Within v (.seq items)
  | field {type : String} {p : String × Value ν} {fields : List (String × Value ν)} (hp : p ∈ fields)
      (h : Within v p.2) : Within v (.record type fields)
  | receiver {type : String} {m : Method ν} {receiver : Value ν} (h : Within v receiver) :
      Within v (.method type m receiver)

def Throughout (P : Value ν → Prop) (v : Value ν) : Prop := ∀ w, Within w v → P w

/-- Whether there is no other value in the value. -/
def isAtom : Value ν → Bool
  | .seq _ | .record _ _ | .method _ _ _ => false
  | _ => true

namespace Throughout

variable {P : Value ν → Prop} {items : List (Value ν)} {type : String} {fields : List (String × Value ν)} {m : Method ν}

theorem atom_iff (hv : v.isAtom) : Throughout P v ↔ P v := by
  refine ⟨fun h => h _ .self,fun h w hin => ?_⟩
  cases hin with
  | self => exact h
  | item | field | receiver => cases hv

theorem seq_iff : Throughout P (.seq items) ↔ P (.seq items) ∧ ∀ w ∈ items, Throughout P w := by
  constructor
  · intro h
    exact ⟨h _ .self,fun w hw u hin => h u (.item hw hin)⟩
  · rintro ⟨hself,h⟩ u hin
    cases hin with
    | self => exact hself
    | item hw hin => exact h _ hw u hin

theorem record_iff :
    Throughout P (.record type fields) ↔ P (.record type fields) ∧ ∀ p ∈ fields, Throughout P p.2 := by
  constructor
  · intro h
    exact ⟨h _ .self,fun p hp u hin => h u (.field hp hin)⟩
  · rintro ⟨hself,h⟩ u hin
    cases hin with
    | self => exact hself
    | field hp hin => exact h _ hp u hin

theorem method_iff : Throughout P (.method type m v) ↔ P (.method type m v) ∧ Throughout P v := by
  constructor
  · intro h
    exact ⟨h _ .self,fun u hin => h u (.receiver hin)⟩
  · rintro ⟨hself,h⟩ u hin
    cases hin with
    | self => exact hself
    | receiver hin => exact h u hin

end Throughout

/-- If the value is a record, it has no field name twice. -/
def NamesOnce : Value ν → Prop
  | .record _ fields => (OrderedMap.keys fields).Nodup
  | _ => True

/-- If the value is a number, it is one. -/
def NotNaN : Value ν → Prop
  | .number x => x.isNaN = false
  | _ => True

/-! ## One level of a comparison -/

/-- The values are alike on the outside, and what they are made of is related by `R`. -/
inductive Matches (R : Value ν → Value ν → Prop) : Value ν → Value ν → Prop where
  | undefined : Matches R .undefined .undefined
  | number {x y : Float} (h : x == y) : Matches R (.number x) (.number y)
  | text (s : String) : Matches R (.text s) (.text s)
  | seq {xs ys : List (Value ν)} (h : List.Forall₂ R xs ys) : Matches R (.seq xs) (.seq ys)
  | record (type : String) {fs gs : OrderedMap String (Value ν)} (hlength : fs.length = gs.length)
      (h : OrderedMap.Finds R fs gs) : Matches R (.record type fs) (.record type gs)
  | builtin {a b : Builtin ν} (h : a.name = b.name) : Matches R (.builtin a) (.builtin b)
  | method (type : String) {m n : Method ν} {r s : Value ν} (hname : m.name = n.name) (h : R r s) :
      Matches R (.method type m r) (.method type n s)

theorem eqAll_iff {xs ys : List (Value ν)} : eqAll xs ys ↔ List.Forall₂ (fun v w => v == w) xs ys := by
  induction xs generalizing ys with
  | nil => cases ys <;> simp [eqAll]
  | cons x xs ih =>
    cases ys with
    | nil => simp [eqAll]
    | cons y ys =>
      rw [eqAll, Bool.and_eq_true, ih, List.forall₂_cons]
      rfl

theorem eqFields_iff {fs gs : OrderedMap String (Value ν)} : eqFields fs gs ↔ OrderedMap.Finds (fun v w => v == w) fs gs := by
  induction fs with
  | nil => simp [eqFields, OrderedMap.Finds]
  | cons p fs ih =>
    obtain ⟨name, x⟩ := p
    rw [eqFields, Bool.and_eq_true, ih, OrderedMap.Finds, OrderedMap.Finds, List.forall_mem_cons]
    refine and_congr_left fun _ => ?_
    cases gs.get? name with
    | some y => simp; rfl
    | none => simp

theorem beq_iff_matches : v == w ↔ Matches (fun v w => v == w) v w := by
  change eq v w ↔ _
  constructor
  · intro h
    unfold eq at h
    split at h
    · exact .undefined
    · exact .number h
    · cases eq_of_beq h
      exact .text _
    · exact .seq (eqAll_iff.mp h)
    · simp only [Bool.and_eq_true, beq_iff_eq] at h
      obtain ⟨⟨rfl,hlength⟩,hfields⟩ := h
      exact .record _ hlength (eqFields_iff.mp hfields)
    · exact .builtin (eq_of_beq h)
    · simp only [Bool.and_eq_true, beq_iff_eq] at h
      obtain ⟨⟨rfl,hname⟩,hreceiver⟩ := h
      exact .method _ hname hreceiver
    · cases h
  · intro h
    cases h with
    | undefined => rfl
    | number h => exact h
    | text s => simp [eq]
    | seq h => exact eqAll_iff.mpr h
    | record type hlength h => simpa [eq, hlength] using eqFields_iff.mpr h
    | builtin h => simpa [eq] using h
    | method type hname h =>
      have hreceiver : eq _ _ := h
      simp [eq, hname, hreceiver]

/-! ## The laws -/

theorem beq_symm (hv : v.Throughout NamesOnce) (h : v == w) : w == v := by
  induction v using Value.induction generalizing w with
  | undefined | text =>
    cases beq_iff_matches.mp h
    exact h
  | number x =>
    cases beq_iff_matches.mp h with
    | number hxy => exact beq_iff_matches.mpr (.number (Number.beq_symm hxy))
  | seq items ih =>
    cases beq_iff_matches.mp h with
    | seq hall =>
      have hback : ∀ x ∈ items, ∀ y, x == y → y == x := fun x hx y => ih x hx ((Throughout.seq_iff.mp hv).2 x hx)
      have hboth := (List.forall₂_and_left _ _).mpr ⟨hback,hall⟩
      exact beq_iff_matches.mpr (.seq (hboth.imp fun _ _ hxy => hxy.1 _ hxy.2).flip)
  | record type fields ih =>
    obtain ⟨hkeys,hfields⟩ := Throughout.record_iff.mp hv
    cases beq_iff_matches.mp h with
    | record _ hlength hfinds =>
      have hback : OrderedMap.Finds (fun v w => w == v) fields _ := hfinds.mono fun p hp _ => ih p hp (hfields p hp)
      exact beq_iff_matches.mpr (.record type hlength.symm (hback.swap hkeys hlength))
  | builtin b =>
    cases beq_iff_matches.mp h with
    | builtin hname => exact beq_iff_matches.mpr (.builtin hname.symm)
  | method type m receiver ih =>
    cases beq_iff_matches.mp h with
    | method _ hname hreceiver =>
      exact beq_iff_matches.mpr (.method type hname.symm (ih (Throughout.method_iff.mp hv).2 hreceiver))

theorem beq_trans (huv : u == v) (hvw : v == w) : u == w := by
  induction u using Value.induction generalizing v w with
  | undefined | text =>
    cases beq_iff_matches.mp huv
    exact hvw
  | number x =>
    cases beq_iff_matches.mp huv with
    | number hxy =>
    cases beq_iff_matches.mp hvw with
    | number hyz => exact beq_iff_matches.mpr (.number (Number.beq_trans hxy hyz))
  | seq items ih =>
    cases beq_iff_matches.mp huv with
    | seq hxy =>
    cases beq_iff_matches.mp hvw with
    | seq hyz =>
      obtain ⟨hlength,hxy⟩ := List.forall₂_iff_get.mp hxy
      obtain ⟨hlength',hyz⟩ := List.forall₂_iff_get.mp hyz
      refine beq_iff_matches.mpr (.seq (List.forall₂_iff_get.mpr ⟨hlength.trans hlength',fun i hi hk => ?_⟩))
      exact ih _ (List.get_mem _ _) (hxy i hi (hlength ▸ hi)) (hyz i (hlength ▸ hi) hk)
  | record type fields ih =>
    cases beq_iff_matches.mp huv with
    | record _ hlength hxy =>
    cases beq_iff_matches.mp hvw with
    | record _ hlength' hyz =>
      refine beq_iff_matches.mpr (.record type (hlength.trans hlength') ((hxy.comp hyz).mono ?_))
      rintro p hp c ⟨b,hab,hbc⟩
      exact ih p hp hab hbc
  | builtin b =>
    cases beq_iff_matches.mp huv with
    | builtin hxy =>
    cases beq_iff_matches.mp hvw with
    | builtin hyz => exact beq_iff_matches.mpr (.builtin (hxy.trans hyz))
  | method type m receiver ih =>
    cases beq_iff_matches.mp huv with
    | method _ hxy hreceiver =>
    cases beq_iff_matches.mp hvw with
    | method _ hyz hreceiver' =>
      exact beq_iff_matches.mpr (.method type (hxy.trans hyz) (ih hreceiver hreceiver'))

/-- Only what is not a number keeps a value from being equal to itself. -/
theorem beq_self_iff (hv : v.Throughout NamesOnce) : v == v ↔ v.Throughout NotNaN := by
  induction v using Value.induction with
  | undefined => exact iff_of_true rfl ((Throughout.atom_iff rfl).mpr trivial)
  | number x =>
    rw [Throughout.atom_iff rfl]
    exact Number.beq_self_iff
  | text s =>
    exact iff_of_true (beq_iff_matches.mpr (.text s)) ((Throughout.atom_iff rfl).mpr trivial)
  | builtin b =>
    exact iff_of_true (beq_iff_matches.mpr (.builtin rfl)) ((Throughout.atom_iff rfl).mpr trivial)
  | seq items ih =>
    obtain ⟨_,hitems⟩ := Throughout.seq_iff.mp hv
    rw [Throughout.seq_iff]
    constructor
    · intro h
      cases beq_iff_matches.mp h with
      | seq hall => exact ⟨trivial,fun x hx => (ih x hx (hitems x hx)).mp (List.forall₂_same.mp hall x hx)⟩
    · rintro ⟨_,h⟩
      exact beq_iff_matches.mpr (.seq (List.forall₂_same.mpr fun x hx => (ih x hx (hitems x hx)).mpr (h x hx)))
  | record type fields ih =>
    obtain ⟨hkeys,hfields⟩ := Throughout.record_iff.mp hv
    have hget (p) (hp : p ∈ fields) : OrderedMap.get? fields p.1 = some p.2 := OrderedMap.get?_of_mem hkeys hp
    rw [Throughout.record_iff]
    constructor
    · intro h
      refine ⟨trivial,fun p hp => ?_⟩
      cases beq_iff_matches.mp h with
      | record _ _ hfinds =>
        obtain ⟨b,hb,heq⟩ := hfinds p hp
        rw [hget p hp] at hb
        cases hb
        exact (ih p hp (hfields p hp)).mp heq
    · rintro ⟨_,h⟩
      refine beq_iff_matches.mpr (.record type rfl fun p hp => ?_)
      exact ⟨p.2,hget p hp,(ih p hp (hfields p hp)).mpr (h p hp)⟩
  | method type m receiver ih =>
    obtain ⟨_,hreceiver⟩ := Throughout.method_iff.mp hv
    rw [Throughout.method_iff, ← ih hreceiver]
    constructor
    · intro h
      cases beq_iff_matches.mp h with
      | method _ _ heq => exact ⟨trivial,heq⟩
    · rintro ⟨_,heq⟩
      exact beq_iff_matches.mpr (.method type rfl heq)

/-! ## Records field by field -/

/-- The record made by adding fields one after the other. -/
def ofFields (type : String) (entries : List (String × Value ν)) : Value ν :=
  entries.foldl (fun v p => v.withField p.1 p.2) (.record type [])

theorem ofFields_eq (type : String) (entries : List (String × Value ν)) :
    ofFields type entries = .record type (OrderedMap.insertAll [] entries) := by
  have hfold (fields : OrderedMap String (Value ν)) : entries.foldl (fun (v : Value ν) p => v.withField p.1 p.2)
      (.record type fields) = .record type (fields.insertAll entries) := by
    induction entries generalizing fields with
    | nil => rfl
    | cons p entries ih => exact ih (fields.insert p.1 p.2)
  exact hfold []

theorem namesOnce_ofFields (type : String) {entries : List (String × Value ν)}
    (h : ∀ p ∈ entries, p.2.Throughout NamesOnce) : (ofFields type entries).Throughout NamesOnce := by
  rw [ofFields_eq, Throughout.record_iff]
  exact ⟨OrderedMap.nodup_keys_insertAll (m := []) List.nodup_nil entries,
    OrderedMap.forall_mem_insertAll (List.forall_mem_nil _) h⟩

/-- Records made field by field are equal if what was added last under each name is. -/
theorem ofFields_beq_iff (type : String) (entries others : List (String × Value ν)) :
    ofFields type entries == ofFields type others ↔
      ∀ name, Option.Rel (fun v w => v == w) (entries.reverse.lookup name) (others.reverse.lookup name) := by
  have hget (entries : List (String × Value ν)) (name : String) :
      entries.reverse.lookup name = (OrderedMap.insertAll [] entries).get? name := by
    rw [OrderedMap.get?_insertAll]
    exact (Option.or_none).symm
  have hnodup (entries : List (String × Value ν)) : (OrderedMap.insertAll [] entries).keys.Nodup :=
    OrderedMap.nodup_keys_insertAll (m := []) List.nodup_nil entries
  simp only [hget, ofFields_eq]
  rw [← OrderedMap.finds_iff_rel (hnodup entries) (hnodup others), beq_iff_matches]
  constructor
  · intro h
    cases h with
    | record _ hlength hfinds => exact ⟨hlength,hfinds⟩
  · rintro ⟨hlength,hfinds⟩
    exact .record type hlength hfinds

/-- Equality is symmetric and transitive, and reflexive where nothing is amiss with the numbers. On records made by adding
fields one after the other, where no name occurs twice, it asks for equal values under the same names, whatever the order
and whatever was overwritten. -/
theorem equality_laws :
    (∀ v w : Value ν, v.Throughout NamesOnce → v == w → w == v) ∧
    (∀ u v w : Value ν, u == v → v == w → u == w) ∧
    (∀ v : Value ν, v.Throughout NamesOnce → (v == v ↔ v.Throughout NotNaN)) ∧
    ∀ type : String, (∀ entries : List (String × Value ν), (∀ p ∈ entries, p.2.Throughout NamesOnce) →
        (ofFields type entries).Throughout NamesOnce) ∧
      ∀ entries others : List (String × Value ν), ofFields type entries == ofFields type others ↔
        ∀ name, Option.Rel (fun v w => v == w) (entries.reverse.lookup name) (others.reverse.lookup name) :=
  ⟨fun _ _ => beq_symm,fun _ _ _ => beq_trans,fun _ => beq_self_iff,
    fun type => ⟨fun _ => namesOnce_ofFields type,ofFields_beq_iff type⟩⟩

/-- Fields in two orders, one of them overwritten, with a method whose receiver is a sequence and zeros of both signs. -/
theorem equality_laws_zeros :
    let receiver (x : Float) : Value Empty := .seq [.number x, .text "a"]
    let first := ofFields "box" [("k", .undefined), ("m", .method "seq" (.primitive .join) (receiver 0.0)), ("k", .number 1.5)]
    let second := ofFields "box" [("m", .method "seq" (.primitive .join) (receiver (-0.0))), ("k", .number 1.5)]
    first == second ∧ second == first ∧ first == first ∧ ¬(receiver (0.0 / 0.0) == receiver (0.0 / 0.0)) := by
  intro receiver first second
  obtain ⟨hsymm,htrans,hself,hfields⟩ := equality_laws (ν := Empty)
  have hatom (v : Value Empty) (hv : v.isAtom) (h : v.NamesOnce) : v.Throughout NamesOnce :=
    (Throughout.atom_iff hv).mpr h
  have hreceiver (x : Float) : (receiver x).Throughout NamesOnce := by
    refine Throughout.seq_iff.mpr ⟨trivial,?_⟩
    simpa using And.intro (hatom (.number x) rfl trivial) (hatom (.text "a") rfl trivial)
  have hfirst : first.Throughout NamesOnce := by
    have hmethod : (Value.method "seq" (.primitive .join) (receiver 0.0)).Throughout NamesOnce :=
      Throughout.method_iff.mpr ⟨trivial,hreceiver 0.0⟩
    refine (hfields "box").1 _ ?_
    simpa using And.intro (hatom .undefined rfl trivial) ⟨hmethod,hatom (.number 1.5) rfl trivial⟩
  have heq : first == second := by
    refine ((hfields "box").2 _ _).mpr fun name => ?_
    rcases eq_or_ne name "k" with rfl | hk
    · exact .some rfl
    rcases eq_or_ne name "m" with rfl | hm
    · exact .some rfl
    · simp only [List.reverse_cons, List.reverse_nil, List.nil_append, List.cons_append, List.lookup_cons,
        beq_false_of_ne hk, beq_false_of_ne hm, List.lookup_nil]
      exact .none
  have hnan : ¬(receiver (0.0 / 0.0)).Throughout NotNaN := by
    intro h
    have hnumber : (0.0 / 0.0 : Float).isNaN = false := h (.number _) (.item List.mem_cons_self .self)
    exact absurd hnumber (by decide)
  exact ⟨heq,hsymm _ _ hfirst heq,htrans _ _ _ heq (hsymm _ _ hfirst heq),mt (hself _ (hreceiver _)).mp hnan⟩

end Value

end Gapscript
