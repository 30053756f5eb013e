import Gapscript.OrderedMap

/-! # Ordered maps

A map whose keys are known in their order, each once, is described by a function of the key. Insertion and erasure act
on the two parts separately.
-/
namespace Gapscript.OrderedMap

variable {κ α : Type} [DecidableEq κ]

theorem mem_of_get? {m : OrderedMap κ α} {key : κ} {a : α} (h : m.get? key = some a) : (key, a) ∈ m := by
  induction m with
  | nil => cases h
  | cons p m ih =>
    obtain ⟨k, b⟩ := p
    rw [get?] at h
    split at h
    · next hk =>
      cases h
      exact hk ▸ List.mem_cons_self
    · exact List.mem_cons_of_mem _ (ih h)

theorem get?_of_mem {m : OrderedMap κ α} (hm : m.keys.Nodup) {key : κ} {a : α} (h : (key, a) ∈ m) :
    m.get? key = some a := by
  induction m with
  | nil => cases h
  | cons p m ih =>
    obtain ⟨k, b⟩ := p
    obtain ⟨hk,hm⟩ := List.nodup_cons.mp hm
    rcases List.mem_cons.mp h with h | h
    · cases h
      exact if_pos rfl
    · have hne : k ≠ key := by
        rintro rfl
        exact hk (List.mem_map.mpr ⟨_,h,rfl⟩)
      rw [get?, if_neg hne, ih hm h]

theorem get?_eq_none_iff {m : OrderedMap κ α} {key : κ} : m.get? key = none ↔ key ∉ m.keys := by
  induction m with
  | nil => exact ⟨fun _ => List.not_mem_nil,fun _ => rfl⟩
  | cons p m ih =>
    obtain ⟨k, b⟩ := p
    by_cases hk : k = key
    · simp [get?, keys, hk]
    · rw [get?, if_neg hk, ih]
      simp [keys, Ne.symm hk]

/-- What holds of all values and of a new one holds of all values after its insertion. -/
theorem forall_mem_insert {P : α → Prop} {m : OrderedMap κ α} {key : κ} {a : α} (h : ∀ p ∈ m, P p.2) (ha : P a) :
    ∀ p ∈ m.insert key a, P p.2 := by
  induction m with
  | nil => exact List.forall_mem_cons.mpr ⟨ha,nofun⟩
  | cons p m ih =>
    obtain ⟨k, b⟩ := p
    obtain ⟨hb,hm⟩ := List.forall_mem_cons.mp h
    rw [insert]
    split
    · exact List.forall_mem_cons.mpr ⟨ha,hm⟩
    · exact List.forall_mem_cons.mpr ⟨hb,ih hm⟩

theorem get?_insert_of_ne {m : OrderedMap κ α} {key other : κ} (h : other ≠ key) (a : α) :
    (m.insert key a).get? other = m.get? other := by
  induction m with
  | nil => exact if_neg h.symm
  | cons p m ih =>
    obtain ⟨k, b⟩ := p
    rw [insert]
    split
    · next hk =>
      have hother : k ≠ other := fun hk' => h (hk'.symm.trans hk)
      rw [get?, get?, if_neg hother, if_neg hother]
    · rw [get?, get?, ih]

theorem get?_insert_self (m : OrderedMap κ α) (key : κ) (a : α) : (m.insert key a).get? key = some a := by
  induction m with
  | nil => exact if_pos rfl
  | cons p m ih =>
    obtain ⟨k, b⟩ := p
    rw [insert]
    split
    · next hk => rw [get?, if_pos hk]
    · next hk => rw [get?, if_neg hk, ih]

/-- Insertion moves no key; a new one comes last. -/
theorem keys_insert (m : OrderedMap κ α) (key : κ) (a : α) :
    (m.insert key a).keys = if key ∈ m.keys then m.keys else m.keys ++ [key] := by
  induction m with
  | nil => rfl
  | cons p m ih =>
    obtain ⟨k, b⟩ := p
    rw [insert]
    by_cases hk : k = key
    · simp [keys, hk]
    · have hmem : key ∈ keys ((k, b) :: m) ↔ key ∈ keys m := by simp [keys, Ne.symm hk]
      rw [if_neg hk]
      simp only [hmem]
      change k :: keys (insert m key a) = if key ∈ keys m then k :: keys m else k :: (keys m ++ [key])
      rw [ih]
      split <;> rfl

theorem keys_prefix_insert (m : OrderedMap κ α) (key : κ) (a : α) : m.keys <+: (m.insert key a).keys := by
  rw [keys_insert]
  split
  · exact List.prefix_refl _
  · exact List.prefix_append _ _

theorem nodup_keys_insert {m : OrderedMap κ α} (hm : m.keys.Nodup) (key : κ) (a : α) : (m.insert key a).keys.Nodup := by
  rw [keys_insert]
  split
  · exact hm
  · next hkey => simpa [List.nodup_append] using ⟨hm,fun k hk heq => hkey (heq ▸ hk)⟩

/-! ## Many insertions -/

def insertAll (m : OrderedMap κ α) (entries : List (κ × α)) : OrderedMap κ α :=
  entries.foldl (fun m p => m.insert p.1 p.2) m

theorem nodup_keys_insertAll {m : OrderedMap κ α} (hm : m.keys.Nodup) (entries : List (κ × α)) :
    (m.insertAll entries).keys.Nodup := by
  induction entries generalizing m with
  | nil => exact hm
  | cons p entries ih => exact ih (nodup_keys_insert hm p.1 p.2)

/-- A key has the value inserted last, and the one it had before if none was. -/
theorem get?_insertAll (m : OrderedMap κ α) (entries : List (κ × α)) (key : κ) :
    (m.insertAll entries).get? key = (entries.reverse.lookup key).or (m.get? key) := by
  induction entries generalizing m with
  | nil => rfl
  | cons p entries ih =>
    obtain ⟨k, a⟩ := p
    change ((m.insert k a).insertAll entries).get? key = _
    rw [ih, List.reverse_cons, List.lookup_append, Option.or_assoc]
    congr 1
    by_cases hk : key = k
    · rw [hk, get?_insert_self, List.lookup_cons_self]
      rfl
    · rw [get?_insert_of_ne hk, List.lookup_cons, beq_false_of_ne hk]
      rfl

theorem forall_mem_insertAll {P : α → Prop} {m : OrderedMap κ α} {entries : List (κ × α)} (h : ∀ p ∈ m, P p.2)
    (hentries : ∀ p ∈ entries, P p.2) : ∀ p ∈ m.insertAll entries, P p.2 := by
  induction entries generalizing m with
  | nil => exact h
  | cons p entries ih =>
    obtain ⟨hp,hentries⟩ := List.forall_mem_cons.mp hentries
    exact ih (forall_mem_insert h hp) hentries

/-- In `m'` each of `names` has the value at the place of its last occurrence. Other keys have the values that they have in
`m`, and after the keys of `m` come the new ones in the order of their first occurrences. -/
structure Rebinds (names : List κ) (values : List α) (m m' : OrderedMap κ α) : Prop where
  last : ∀ key ∈ names, ∃ i a, names[i]? = some key ∧ key ∉ names.drop (i + 1) ∧ values[i]? = some a ∧
    m'.get? key = some a
  others : ∀ key, key ∉ names → m'.get? key = m.get? key
  order : m'.keys = m.keys ++ (names.filter (· ∉ m.keys)).eraseDups

theorem Rebinds.nil (values : List α) (m : OrderedMap κ α) : Rebinds [] values m m where
  last _ h := absurd h List.not_mem_nil
  others _ _ := rfl
  order := (List.append_nil _).symm

/-- One insertion before others. -/
theorem Rebinds.cons {names : List κ} {values : List α} {m m' : OrderedMap κ α} {key : κ} {a : α}
    (h : Rebinds names values (m.insert key a) m') : Rebinds (key :: names) (a :: values) m m' := by
  constructor
  case last =>
    intro k hk
    by_cases hmem : k ∈ names
    · obtain ⟨i,b,hi,hlast,hb,hget⟩ := h.last k hmem
      exact ⟨i + 1,b,hi,hlast,hb,hget⟩
    · obtain rfl : k = key := (List.mem_cons.mp hk).resolve_right hmem
      refine ⟨0,a,rfl,hmem,rfl,?_⟩
      rw [h.others k hmem, get?_insert_self]
  case others =>
    intro k hk
    obtain ⟨hne,hmem⟩ := not_or.mp (mt List.mem_cons.mpr hk)
    rw [h.others k hmem, get?_insert_of_ne hne]
  case order =>
    rw [h.order, keys_insert]
    by_cases hkey : key ∈ m.keys
    · simp [hkey]
    · -- The first of the new names is left out where it occurs again.
      have hagain : names.filter (· ∉ m.keys ++ [key]) = (names.filter (· ∉ m.keys)).filter (fun b => !b == key) := by
        rw [List.filter_filter]
        refine List.filter_congr fun b _ => ?_
        grind
      rw [if_neg hkey, hagain, List.filter_cons_of_pos (by simpa using hkey), List.eraseDups_cons, List.append_assoc]
      rfl

theorem rebinds_insertAll (m : OrderedMap κ α) {names : List κ} {values : List α} (h : names.length ≤ values.length) :
    Rebinds names values m (m.insertAll (names.zip values)) := by
  induction names generalizing m values with
  | nil => exact .nil values m
  | cons key names ih =>
    cases values with
    | nil => cases h
    | cons a values => exact (ih (m.insert key a) (Nat.le_of_succ_le_succ h)).cons

/-! ## Maps given by their keys and a function -/

def tabulate (ks : List κ) (f : κ → α) : OrderedMap κ α := ks.map fun k => (k, f k)

omit [DecidableEq κ] in
theorem tabulate_congr {ks : List κ} {f g : κ → α} (h : ∀ k ∈ ks, f k = g k) : tabulate ks f = tabulate ks g :=
  List.map_congr_left fun k hk => by rw [h k hk]

theorem get?_tabulate (ks : List κ) (f : κ → α) (key : κ) :
    (tabulate ks f).get? key = if key ∈ ks then some (f key) else none := by
  induction ks with
  | nil => rfl
  | cons k ks ih =>
    change (if k = key then some (f k) else (tabulate ks f).get? key) = _
    by_cases hk : k = key
    · subst k
      simp
    · simp [hk, ih, Ne.symm hk]

theorem insert_tabulate_of_mem {ks : List κ} (hks : ks.Nodup) (f : κ → α) {key : κ} (a : α) (hk : key ∈ ks) :
    (tabulate ks f).insert key a = tabulate ks fun k => if k = key then a else f k := by
  induction ks with
  | nil => cases hk
  | cons k ks ih =>
    obtain ⟨hnot,hks⟩ := List.nodup_cons.mp hks
    change (if k = key then (k, a) :: tabulate ks f else (k, f k) :: (tabulate ks f).insert key a) = _
    by_cases h : k = key
    · subst k
      have hrest : tabulate ks f = tabulate ks fun k => if k = key then a else f k := by
        apply tabulate_congr
        intro k hmem
        rw [if_neg]
        rintro rfl
        exact hnot hmem
      rw [if_pos rfl, hrest]
      simp [tabulate]
    · rw [if_neg h, ih hks ((List.mem_cons.mp hk).resolve_left (Ne.symm h))]
      simp [tabulate, h]

theorem insert_tabulate_of_not_mem {ks : List κ} (f : κ → α) {key : κ} (a : α) (hk : key ∉ ks) :
    (tabulate ks f).insert key a = tabulate (ks ++ [key]) fun k => if k = key then a else f k := by
  induction ks with
  | nil => simp [tabulate, insert]
  | cons k ks ih =>
    rw [List.mem_cons, not_or] at hk
    obtain ⟨hne,hnot⟩ := hk
    change (if k = key then (k, a) :: tabulate ks f else (k, f k) :: (tabulate ks f).insert key a) = _
    rw [if_neg (Ne.symm hne), ih hnot]
    simp [tabulate, Ne.symm hne]

theorem erase_tabulate (ks : List κ) (f : κ → α) (key : κ) :
    (tabulate ks f).erase key = tabulate (ks.erase key) f := by
  induction ks with
  | nil => rfl
  | cons k ks ih =>
    change (if k = key then tabulate ks f else (k, f k) :: (tabulate ks f).erase key) = _
    by_cases h : k = key
    · subst k
      simp
    · rw [if_neg h, ih, List.erase_cons_tail (by simpa using h)]
      rfl

end Gapscript.OrderedMap
