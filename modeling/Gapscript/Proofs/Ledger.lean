import Gapscript.Proofs.Operation
import Gapscript.Proofs.OrderedMap

/-! # Macros and the blocks they belong to

An environment keeps a stack of macros for each key, and in each frame only the keys that were pushed while it was
innermost. A ledger keeps every definition apart instead, with the frame it belongs to and the time of its push, and
says directly what each operation takes away. The two are shown to agree after any operations in any order: the
definitions of a ledger are always in the order of their frames, which is why the innermost frame that remembers a key
is the one its latest definition belongs to.
-/
namespace Gapscript

/-- A definition that was pushed: the macro, when it was, and the frame that was innermost then. -/
structure Definition where
  m : Macro
  time : Nat
  frame : Option Nat

def Definition.key (d : Definition) : Ref := d.m.key

/-- The live definitions, latest first, and the open frames, innermost first. A frame is named by the time at which it
was opened. -/
structure Ledger where
  live : List Definition := []
  frames : List Nat := []
  clock : Nat := 0

namespace Ledger

/-- The definition that is taken away when `key` is popped: the latest that is live. -/
def latest? (l : Ledger) (key : Ref) : Option Definition := l.live.find? (·.key = key)

/-- A pushed definition belongs to the innermost frame, popping a key takes its latest definition away, and closing a
block takes away what belongs to its frame. -/
def apply {ν : Type} (l : Ledger) : Operation ν → Ledger
  | .pushMacro m => { l with live := ⟨m, l.clock, l.frames.head?⟩ :: l.live, clock := l.clock + 1 }
  | .popMacro key => { l with live := l.live.eraseP (·.key = key) }
  | .pushBlock => { l with frames := l.clock :: l.frames, clock := l.clock + 1 }
  | .popBlock =>
    match l.frames with
    | [] => l
    | f :: frames => { l with frames, live := l.live.filter (·.frame ≠ some f) }
  | _ => l

def after {ν : Type} (l : Ledger) (ops : List (Operation ν)) : Ledger := ops.foldl apply l

@[simp] theorem after_cons {ν : Type} (l : Ledger) (op : Operation ν) (ops : List (Operation ν)) :
    l.after (op :: ops) = (l.apply op).after ops := rfl

@[simp] theorem after_append {ν : Type} (l : Ledger) (ops ops' : List (Operation ν)) :
    l.after (ops ++ ops') = (l.after ops).after ops' := List.foldl_append

/-- The keys of definitions that were pushed, latest first, in the order of the first push of each. -/
def keys : List Definition → List Ref
  | [] => []
  | d :: ds => if d.key ∈ keys ds then keys ds else keys ds ++ [d.key]

/-- The definitions of a key, latest first. -/
def stack (ds : List Definition) (key : Ref) : List Macro := (ds.filter (·.key = key)).map (·.m)

/-- The macro table of live definitions. -/
def table (ds : List Definition) : MacroTable := OrderedMap.tabulate (keys ds) (stack ds)

/-- The keys of the definitions that belong to a frame, latest first. -/
def pushedIn (ds : List Definition) (f : Nat) : List Ref := (ds.filter (·.frame = some f)).map (·.key)

/-! ## Tables of definitions -/

section Tables

variable {ds : List Definition} {key : Ref}

theorem mem_keys : key ∈ keys ds ↔ ∃ d ∈ ds, d.key = key := by
  induction ds with
  | nil => simp [keys]
  | cons d ds ih =>
    by_cases hd : d.key ∈ keys ds
    · rw [keys, if_pos hd, ih]
      constructor
      · rintro ⟨e,he,hk⟩
        exact ⟨e,List.mem_cons_of_mem d he,hk⟩
      · rintro ⟨e,he,rfl⟩
        rcases List.mem_cons.mp he with rfl | he
        · exact ih.mp hd
        · exact ⟨e,he,rfl⟩
    · rw [keys, if_neg hd, List.mem_append, List.mem_singleton, ih]
      constructor
      · rintro (⟨e,he,hk⟩ | rfl)
        · exact ⟨e,List.mem_cons_of_mem d he,hk⟩
        · exact ⟨d,List.mem_cons_self,rfl⟩
      · rintro ⟨e,he,rfl⟩
        rcases List.mem_cons.mp he with rfl | he
        · exact .inr rfl
        · exact .inl ⟨e,he,rfl⟩

theorem nodup_keys (ds : List Definition) : (keys ds).Nodup := by
  induction ds with
  | nil => exact List.nodup_nil
  | cons d ds ih =>
    by_cases hd : d.key ∈ keys ds
    · rwa [keys, if_pos hd]
    · rw [keys, if_neg hd]
      refine List.nodup_append.mpr ⟨ih,List.pairwise_singleton _ _,?_⟩
      intro a ha b hb
      rw [List.mem_singleton.mp hb]
      rintro rfl
      exact hd ha

theorem stack_cons_self (d : Definition) (ds : List Definition) : stack (d :: ds) d.key = d.m :: stack ds d.key := by
  simp [stack]

theorem stack_cons_of_ne {d : Definition} (ds : List Definition) (h : key ≠ d.key) :
    stack (d :: ds) key = stack ds key := by
  simp [stack, Ne.symm h]

theorem stack_eq_nil (h : key ∉ keys ds) : stack ds key = [] := by
  rw [stack, List.map_eq_nil_iff, List.filter_eq_nil_iff]
  intro d hd hk
  exact h (mem_keys.mpr ⟨d,hd,of_decide_eq_true hk⟩)

theorem stack_ne_nil (h : key ∈ keys ds) : stack ds key ≠ [] := by
  obtain ⟨d,hd,rfl⟩ := mem_keys.mp h
  exact List.ne_nil_of_mem (List.mem_map_of_mem (List.mem_filter.mpr ⟨hd,decide_eq_true rfl⟩))

/-- Pushing on the table is adding a definition. -/
theorem push_table (d : Definition) (ds : List Definition) : (table ds).push d.m = table (d :: ds) := by
  have hstack (k : Ref) : (if k = d.key then d.m :: stack ds d.key else stack ds k) = stack (d :: ds) k := by
    by_cases hk : k = d.key
    · rw [if_pos hk, hk, stack_cons_self]
    · rw [if_neg hk, stack_cons_of_ne ds hk]
  have hget : ((table ds).get? d.key).getD [] = stack ds d.key := by
    rw [table, OrderedMap.get?_tabulate]
    by_cases hd : d.key ∈ keys ds
    · rw [if_pos hd]; rfl
    · rw [if_neg hd, stack_eq_nil hd]; rfl
  change (table ds).insert d.key (d.m :: ((table ds).get? d.key).getD []) = _
  rw [hget]
  by_cases hd : d.key ∈ keys ds
  · rw [table, table, keys, if_pos hd, OrderedMap.insert_tabulate_of_mem (nodup_keys ds) _ _ hd]
    exact OrderedMap.tabulate_congr fun k _ => hstack k
  · rw [table, table, keys, if_neg hd, OrderedMap.insert_tabulate_of_not_mem _ _ hd]
    exact OrderedMap.tabulate_congr fun k _ => hstack k

theorem stack_eraseP_self (ds : List Definition) (key : Ref) :
    stack (ds.eraseP (·.key = key)) key = (stack ds key).tail := by
  induction ds with
  | nil => rfl
  | cons d ds ih =>
    by_cases hd : d.key = key
    · subst key
      rw [stack_cons_self, List.tail_cons, List.eraseP_cons_of_pos (by simp)]
    · rw [List.eraseP_cons_of_neg (by simpa using hd), stack_cons_of_ne _ (Ne.symm hd),
        stack_cons_of_ne _ (Ne.symm hd), ih]

theorem stack_eraseP_of_ne (ds : List Definition) {k : Ref} (hk : k ≠ key) :
    stack (ds.eraseP (·.key = key)) k = stack ds k := by
  induction ds with
  | nil => rfl
  | cons d ds ih =>
    by_cases hd : d.key = key
    · rw [List.eraseP_cons_of_pos (by simpa using hd), stack_cons_of_ne ds (by rw [hd]; exact hk)]
    · rw [List.eraseP_cons_of_neg (by simpa using hd)]
      by_cases hdk : k = d.key
      · rw [hdk, stack_cons_self, stack_cons_self, ← hdk, ih]
      · rw [stack_cons_of_ne _ hdk, stack_cons_of_ne _ hdk, ih]

/-- A key stays in its place until its last definition goes. -/
theorem keys_eraseP (ds : List Definition) (key : Ref) :
    keys (ds.eraseP (·.key = key)) = if (stack ds key).tail = [] then (keys ds).erase key else keys ds := by
  induction ds with
  | nil => rfl
  | cons d ds ih =>
    by_cases hd : d.key = key
    · subst key
      rw [List.eraseP_cons_of_pos (by simp), stack_cons_self, List.tail_cons, keys]
      by_cases hmem : d.key ∈ keys ds
      · rw [if_neg (stack_ne_nil hmem), if_pos hmem]
      · rw [if_pos (stack_eq_nil hmem), if_neg hmem, List.erase_append_right _ hmem]
        simp
    · rw [List.eraseP_cons_of_neg (by simpa using hd), stack_cons_of_ne _ (Ne.symm hd), keys, keys, ih]
      by_cases htail : (stack ds key).tail = []
      · simp only [if_pos htail, List.mem_erase_of_ne hd]
        by_cases hmem : d.key ∈ keys ds
        · rw [if_pos hmem, if_pos hmem]
        · rw [if_neg hmem, if_neg hmem]
          by_cases hkey : key ∈ keys ds
          · rw [List.erase_append_left _ hkey]
          · rw [List.erase_append_right _ hkey, List.erase_of_not_mem hkey,
              List.erase_of_not_mem (by simpa using Ne.symm hd)]
      · simp only [if_neg htail]

/-- Popping a key from the table is taking its latest definition away. -/
theorem pop_table (ds : List Definition) (key : Ref) :
    (table ds).pop key = ((stack ds key).head?, table (ds.eraseP (·.key = key))) := by
  have hstack (k : Ref) (hk : k ≠ key) : stack ds k = stack (ds.eraseP (·.key = key)) k :=
    (stack_eraseP_of_ne ds hk).symm
  have hget : (table ds).get? key = if key ∈ keys ds then some (stack ds key) else none := by
    rw [table, OrderedMap.get?_tabulate]
  by_cases hkey : key ∈ keys ds
  · rw [if_pos hkey] at hget
    rcases hs : stack ds key with _ | ⟨m, _ | ⟨m', rest⟩⟩
    · exact absurd hs (stack_ne_nil hkey)
    · have herase : (table ds).erase key = table (ds.eraseP (·.key = key)) := by
        rw [table, table, OrderedMap.erase_tabulate, keys_eraseP, hs, List.tail_cons, if_pos rfl]
        apply OrderedMap.tabulate_congr
        intro k hk
        exact hstack k fun h => (nodup_keys ds).not_mem_erase (h ▸ hk)
      rw [MacroTable.pop, hget, hs]
      exact congrArg (Prod.mk (some m)) herase
    · have hinsert : (table ds).insert key (m' :: rest) = table (ds.eraseP (·.key = key)) := by
        rw [table, table, OrderedMap.insert_tabulate_of_mem (nodup_keys ds) _ _ hkey, keys_eraseP, hs,
          List.tail_cons, if_neg (List.cons_ne_nil m' rest)]
        apply OrderedMap.tabulate_congr
        intro k _
        by_cases hk : k = key
        · rw [if_pos hk, hk, stack_eraseP_self, hs, List.tail_cons]
        · rw [if_neg hk, hstack k hk]
      rw [MacroTable.pop, hget, hs]
      exact congrArg (Prod.mk (some m)) hinsert
  · rw [if_neg hkey] at hget
    have hnone : ds.eraseP (·.key = key) = ds := by
      apply List.eraseP_of_forall_not
      intro d hd hk
      exact hkey (mem_keys.mpr ⟨d,hd,of_decide_eq_true hk⟩)
    rw [MacroTable.pop, hget, hnone, stack_eq_nil hkey]
    rfl

/-- Popping the keys of the latest definitions one after the other leaves the others. -/
theorem foldl_pop_table (ds es : List Definition) :
    (ds.map (·.key)).foldl (fun table key => (MacroTable.pop table key).2) (table (ds ++ es)) = table es := by
  induction ds with
  | nil => rfl
  | cons d ds ih =>
    rw [List.map_cons, List.foldl_cons, List.cons_append, pop_table, List.eraseP_cons_of_pos (by simp)]
    exact ih

end Tables

/-! ## The order of definitions -/

/-- Definitions of no frame come first, then those of the frames from the outermost on. -/
def rank (frame : Option Nat) : Nat := frame.elim 0 (· + 1)

/-- Frames are nested in the order of their opening, live definitions belong to open frames, and none was pushed after
one of a frame further in. -/
structure WellFormed (l : Ledger) : Prop where
  opened : ∀ f ∈ l.frames, f < l.clock
  nested : l.frames.Pairwise (· > ·)
  owned : ∀ d ∈ l.live, ∀ f ∈ d.frame, f ∈ l.frames
  ordered : l.live.Pairwise fun d e => rank e.frame ≤ rank d.frame

namespace WellFormed

variable {ν : Type} {l : Ledger}

/-- No live definition belongs to a frame inside the innermost. -/
theorem rank_le_head (h : l.WellFormed) {d : Definition} (hd : d ∈ l.live) : rank d.frame ≤ rank l.frames.head? := by
  cases hf : d.frame with
  | none => exact Nat.zero_le _
  | some f =>
    have hmem := h.owned d hd f hf
    have hnested := h.nested
    cases hframes : l.frames with
    | nil => rw [hframes] at hmem; cases hmem
    | cons g frames =>
      rw [hframes] at hmem hnested
      rcases List.mem_cons.mp hmem with rfl | hmem
      · exact Nat.le_refl _
      · exact Nat.succ_le_succ (Nat.le_of_lt (List.rel_of_pairwise_cons hnested hmem))

theorem lt_clock (h : l.WellFormed) {d : Definition} (hd : d ∈ l.live) {f : Nat} (hf : d.frame = some f) :
    f < l.clock :=
  h.opened f (h.owned d hd f hf)

theorem fresh : ({} : Ledger).WellFormed := ⟨nofun,.nil,nofun,.nil⟩

theorem pushMacro (h : l.WellFormed) (m : Macro) : (l.apply (.pushMacro m : Operation ν)).WellFormed where
  opened f hf := Nat.lt_succ_of_lt (h.opened f hf)
  nested := h.nested
  owned d hd f hf := by
    rcases List.mem_cons.mp hd with rfl | hd
    · exact List.mem_of_mem_head? hf
    · exact h.owned d hd f hf
  ordered := List.pairwise_cons.mpr ⟨fun _ => h.rank_le_head,h.ordered⟩

theorem popMacro (h : l.WellFormed) (key : Ref) : (l.apply (.popMacro key : Operation ν)).WellFormed where
  opened := h.opened
  nested := h.nested
  owned d hd := h.owned d (List.mem_of_mem_eraseP hd)
  ordered := h.ordered.sublist List.eraseP_sublist

theorem pushBlock (h : l.WellFormed) : (l.apply (.pushBlock : Operation ν)).WellFormed where
  opened f hf := by
    rcases List.mem_cons.mp hf with rfl | hf
    · exact Nat.lt_succ_self _
    · exact Nat.lt_succ_of_lt (h.opened f hf)
  nested := List.pairwise_cons.mpr ⟨h.opened,h.nested⟩
  owned d hd f hf := List.mem_cons_of_mem _ (h.owned d hd f hf)
  ordered := h.ordered

theorem popBlock (h : l.WellFormed) : (l.apply (.popBlock : Operation ν)).WellFormed := by
  obtain ⟨live, frames, clock⟩ := l
  cases frames with
  | nil => exact h
  | cons f frames =>
    exact
      { opened := fun g hg => h.opened g (List.mem_cons_of_mem f hg)
        nested := h.nested.of_cons
        owned := by
          intro d hd g hg
          obtain ⟨hd,hne⟩ := List.mem_filter.mp hd
          rcases List.mem_cons.mp (h.owned d hd g hg) with rfl | hmem
          · exact absurd hg (of_decide_eq_true hne)
          · exact hmem
        ordered := h.ordered.sublist List.filter_sublist }

theorem apply (h : l.WellFormed) (op : Operation ν) : (l.apply op).WellFormed := by
  cases op with
  | pushMacro m => exact h.pushMacro m
  | popMacro key => exact h.popMacro key
  | pushBlock => exact h.pushBlock
  | popBlock => exact h.popBlock
  | record | define | defineMethod | enter | exit | streams => exact h

theorem after (h : l.WellFormed) (ops : List (Operation ν)) : (l.after ops).WellFormed := by
  induction ops generalizing l with
  | nil => exact h
  | cons op ops ih => exact ih (h.apply op)

end WellFormed

/-! ## What frames remember -/

section Frames

variable {ds : List Definition} {d : Definition} {key : Ref} {f : Nat}

theorem pushedIn_cons_self (ds : List Definition) (h : d.frame = some f) :
    pushedIn (d :: ds) f = d.key :: pushedIn ds f := by
  simp [pushedIn, h]

theorem pushedIn_cons_of_ne (ds : List Definition) (h : d.frame ≠ some f) : pushedIn (d :: ds) f = pushedIn ds f := by
  simp [pushedIn, h]

theorem mem_pushedIn : key ∈ pushedIn ds f ↔ ∃ d ∈ ds, d.key = key ∧ d.frame = some f := by
  rw [pushedIn, List.mem_map]
  constructor
  · rintro ⟨d,hd,rfl⟩
    obtain ⟨hd,hf⟩ := List.mem_filter.mp hd
    exact ⟨d,hd,rfl,of_decide_eq_true hf⟩
  · rintro ⟨d,hd,rfl,hf⟩
    exact ⟨d,List.mem_filter.mpr ⟨hd,decide_eq_true hf⟩,rfl⟩

theorem count_pushedIn (ds : List Definition) (key : Ref) (f : Nat) :
    (pushedIn ds f).count key = ds.countP fun d => d.key = key ∧ d.frame = some f := by
  rw [pushedIn, List.count, List.countP_map, List.countP_filter]
  apply List.countP_congr
  intro d _
  simp

/-- Around the latest definition of a key: what is later has other keys, and only the definition goes when the key is
popped. -/
theorem split_latest (hd : ds.find? (·.key = key) = some d) :
    d.key = key ∧ ∃ later earlier, ds = later ++ d :: earlier ∧ ds.eraseP (·.key = key) = later ++ earlier ∧
      ∀ e ∈ later, e.key ≠ key := by
  obtain ⟨hkey,later,earlier,rfl,hlater⟩ := List.find?_eq_some_iff_append.mp hd
  have hne : ∀ e ∈ later, e.key ≠ key := fun e he => by simpa using hlater e he
  refine ⟨by simpa using hkey,later,earlier,rfl,?_,hne⟩
  rw [List.eraseP_append_right _ fun e he => by simpa using hne e he,
    List.eraseP_cons_of_pos (by simpa using hkey)]

theorem pushedIn_append (ds es : List Definition) (f : Nat) : pushedIn (ds ++ es) f = pushedIn ds f ++ pushedIn es f := by
  rw [pushedIn, List.filter_append, List.map_append]
  rfl

/-- The frame of the latest definition of a key forgets one push of it. -/
theorem pushedIn_eraseP_self (hd : ds.find? (·.key = key) = some d) (hf : d.frame = some f) :
    pushedIn (ds.eraseP (·.key = key)) f = (pushedIn ds f).erase key := by
  obtain ⟨hkey,later,earlier,rfl,herase,hlater⟩ := split_latest hd
  have hmem : key ∉ pushedIn later f := by
    intro h
    obtain ⟨e,he,hek,_⟩ := mem_pushedIn.mp h
    exact hlater e he hek
  rw [herase, pushedIn_append, pushedIn_append, pushedIn_cons_self earlier hf, hkey, List.erase_append_right _ hmem,
    List.erase_cons_head]

/-- The other frames forget nothing. -/
theorem pushedIn_eraseP_of_ne (hd : ds.find? (·.key = key) = some d) (hf : d.frame ≠ some f) :
    pushedIn (ds.eraseP (·.key = key)) f = pushedIn ds f := by
  obtain ⟨_,later,earlier,rfl,herase,_⟩ := split_latest hd
  rw [herase, pushedIn_append, pushedIn_append, pushedIn_cons_of_ne earlier hf]

/-- The latest definition of a key is of the innermost frame that has one. -/
theorem rank_le_latest (hord : ds.Pairwise fun d e => rank e.frame ≤ rank d.frame)
    (hd : ds.find? (·.key = key) = some d) {e : Definition} (he : e ∈ ds) (hk : e.key = key) :
    rank e.frame ≤ rank d.frame := by
  obtain ⟨_,later,earlier,rfl,_,hlater⟩ := split_latest hd
  obtain ⟨_,hord,_⟩ := List.pairwise_append.mp hord
  rcases List.mem_append.mp he with he | he
  · exact absurd hk (hlater e he)
  · rcases List.mem_cons.mp he with rfl | he
    · exact Nat.le_refl _
    · exact List.rel_of_pairwise_cons hord he

/-- Looking for a key from the innermost frame outwards finds the frame of its latest definition. -/
theorem map_pushed_forget {ν : Type} (hord : ds.Pairwise fun d e => rank e.frame ≤ rank d.frame)
    (hd : ds.find? (·.key = key) = some d) {frames : List (Frame ν)} {fs : List Nat} (hfs : fs.Pairwise (· > ·))
    (howned : ∀ e ∈ ds, e.key = key → ∀ f ∈ e.frame, f ∈ fs) (h : frames.map (·.pushed) = fs.map (pushedIn ds)) :
    (Env.forget key frames).map (·.pushed) = fs.map (pushedIn (ds.eraseP (·.key = key))) := by
  have hkey : d.key = key := by simpa using List.find?_some hd
  have hlive : d ∈ ds := List.mem_of_find?_eq_some hd
  -- On the frames from the innermost on: one that does not remember the key has no definition of it, so that all of
  -- them belong to the frames that are left.
  induction fs generalizing frames with
  | nil =>
    obtain rfl := List.map_eq_nil_iff.mp h
    rfl
  | cons f fs ih =>
    obtain ⟨frame,frames,rfl,hframe,hrest⟩ := List.map_eq_cons_iff.mp h
    obtain ⟨hlt,hfs⟩ := List.pairwise_cons.mp hfs
    by_cases hmem : key ∈ pushedIn ds f
    · have hdf : d.frame = some f := by
        obtain ⟨e,he,hek,hef⟩ := mem_pushedIn.mp hmem
        have hrank := rank_le_latest hord hd he hek
        rw [hef] at hrank
        cases hg : d.frame with
        | none => rw [hg] at hrank; exact absurd hrank (Nat.not_succ_le_zero f)
        | some g =>
          rw [hg] at hrank
          rcases List.mem_cons.mp (howned d hlive hkey g hg) with rfl | hg
          · rfl
          · exact absurd (Nat.le_of_succ_le_succ hrank) (Nat.not_le.mpr (hlt g hg))
      have hothers : fs.map (pushedIn (ds.eraseP (·.key = key))) = fs.map (pushedIn ds) := by
        apply List.map_congr_left
        intro g hg
        apply pushedIn_eraseP_of_ne hd
        rw [hdf]
        rintro ⟨⟩
        exact Nat.lt_irrefl _ (hlt _ hg)
      simp only [Env.forget, hframe, if_pos hmem, List.map_cons]
      rw [hrest, hothers, pushedIn_eraseP_self hd hdf]
    · have hdf : d.frame ≠ some f := by
        intro hdf
        exact hmem (mem_pushedIn.mpr ⟨d,hlive,hkey,hdf⟩)
      have howned' : ∀ e ∈ ds, e.key = key → ∀ g ∈ e.frame, g ∈ fs := by
        intro e he hek g hg
        rcases List.mem_cons.mp (howned e he hek g hg) with rfl | hgs
        · exact absurd (mem_pushedIn.mpr ⟨e,he,hek,hg⟩) hmem
        · exact hgs
      simp only [Env.forget, hframe, if_neg hmem, List.map_cons]
      rw [pushedIn_eraseP_of_ne hd hdf, ih hfs howned' hrest]

/-- The definitions of the innermost frame are the latest. -/
theorem filter_append_filter (hord : ds.Pairwise fun d e => rank e.frame ≤ rank d.frame)
    (hmax : ∀ d ∈ ds, rank d.frame ≤ rank (some f)) :
    ds.filter (·.frame = some f) ++ ds.filter (·.frame ≠ some f) = ds := by
  induction ds with
  | nil => rfl
  | cons d ds ih =>
    obtain ⟨hle,hord⟩ := List.pairwise_cons.mp hord
    by_cases hd : d.frame = some f
    · rw [List.filter_cons_of_pos (by simpa using hd), List.filter_cons_of_neg (by simpa using hd), List.cons_append,
        ih hord fun e he => hmax e (List.mem_cons_of_mem d he)]
    · have hlt : rank d.frame ≤ f := by
        have hd' := hmax d List.mem_cons_self
        cases hg : d.frame with
        | none => exact Nat.zero_le f
        | some g =>
          rw [hg] at hd hd'
          exact Nat.lt_of_le_of_ne (Nat.le_of_succ_le_succ hd') fun h => hd (h ▸ rfl)
      have hne : ∀ e ∈ d :: ds, e.frame ≠ some f := by
        intro e he h
        have hrank : rank e.frame ≤ rank d.frame := by
          rcases List.mem_cons.mp he with rfl | he
          · exact Nat.le_refl _
          · exact hle e he
        rw [h] at hrank
        exact Nat.not_succ_le_self f (Nat.le_trans hrank hlt)
      rw [List.filter_eq_nil_iff.mpr fun e he h => hne e he (of_decide_eq_true h), List.nil_append,
        List.filter_eq_self.mpr fun e he => decide_eq_true (hne e he)]

theorem pushedIn_filter_of_ne (ds : List Definition) {g : Nat} (h : g ≠ f) :
    pushedIn (ds.filter (·.frame ≠ some f)) g = pushedIn ds g := by
  rw [pushedIn, pushedIn, List.filter_filter]
  congr 1
  apply List.filter_congr
  intro d _
  by_cases hd : d.frame = some g
  · simp [hd, h]
  · simp [hd]

end Frames

/-! ## Environments and ledgers -/

/-- The environment has the macros of the ledger, and its frames remember what the ledger says of them. -/
structure Tracks {ν : Type} (l : Ledger) (env : Env ν) : Prop where
  macros : env.macros = table l.live
  frames : env.frames.map (·.pushed) = l.frames.map (pushedIn l.live)

namespace Tracks

variable {ν : Type} {l : Ledger} {env : Env ν}

theorem fresh (streams : Streams) : Tracks {} ({ streams } : Env ν) := ⟨rfl,rfl⟩

theorem pushMacro (h : Tracks l env) (hw : l.WellFormed) (m : Macro) :
    Tracks (l.apply (.pushMacro m : Operation ν)) (env.pushMacro m) where
  macros := by
    change env.macros.push m = table (⟨m, l.clock, l.frames.head?⟩ :: l.live)
    rw [h.macros, ← push_table]
  frames := by
    obtain ⟨live, fs, clock⟩ := l
    have hframes := h.frames
    cases fs with
    | nil =>
      simp only [Env.pushMacro, List.map_eq_nil_iff.mp hframes]
      rfl
    | cons f fs =>
      obtain ⟨frame,frames,hf,hframe,hrest⟩ := List.map_eq_cons_iff.mp hframes
      obtain ⟨hlt,_⟩ := List.pairwise_cons.mp hw.nested
      simp only [Env.pushMacro, hf, List.map_cons, Ledger.apply, List.head?_cons]
      rw [pushedIn_cons_self live rfl, hframe, hrest]
      congr 1
      apply List.map_congr_left
      intro g hg
      refine (pushedIn_cons_of_ne live ?_).symm
      rintro ⟨⟩
      exact Nat.lt_irrefl _ (hlt _ hg)

theorem popMacro (h : Tracks l env) (hw : l.WellFormed) (key : Ref) :
    Tracks (l.apply (.popMacro key : Operation ν)) (env.popMacro key).2 := by
  have hpop := pop_table l.live key
  rw [← h.macros] at hpop
  cases hd : l.live.find? (·.key = key) with
  | none =>
    have hnone : l.live.eraseP (·.key = key) = l.live :=
      List.eraseP_of_forall_not fun d hd' hk => by simpa using List.find?_eq_none.mp hd d hd' hk
    have hstack : stack l.live key = [] := by
      rw [stack, List.map_eq_nil_iff, List.filter_eq_nil_iff]
      exact fun d hd' hk => by simpa using List.find?_eq_none.mp hd d hd' hk
    rw [hnone, hstack] at hpop
    change Tracks { l with live := l.live.eraseP (·.key = key) } _
    rw [hnone]
    simp only [Env.popMacro, hpop]
    exact h
  | some d =>
    have hkey : d.key = key := by simpa using List.find?_some hd
    have hstack : stack l.live key ≠ [] := stack_ne_nil (mem_keys.mpr ⟨d,List.mem_of_find?_eq_some hd,hkey⟩)
    obtain ⟨m,ms,hm⟩ := List.exists_cons_of_ne_nil hstack
    rw [hm] at hpop
    simp only [Env.popMacro, hpop]
    exact ⟨rfl,map_pushed_forget hw.ordered hd hw.nested (fun e he _ => hw.owned e he) h.frames⟩

theorem pushBlock (h : Tracks l env) (hw : l.WellFormed) :
    Tracks (l.apply (.pushBlock : Operation ν)) env.pushBlock where
  macros := h.macros
  frames := by
    have hnew : pushedIn l.live l.clock = [] := by
      rw [pushedIn, List.map_eq_nil_iff, List.filter_eq_nil_iff]
      intro d hd hf
      exact Nat.lt_irrefl _ (hw.lt_clock hd (of_decide_eq_true hf))
    change [] :: env.frames.map (·.pushed) = pushedIn l.live l.clock :: l.frames.map (pushedIn l.live)
    rw [hnew, h.frames]

theorem popBlock (h : Tracks l env) (hw : l.WellFormed) :
    Tracks (l.apply (.popBlock : Operation ν)) env.popBlock.2 := by
  obtain ⟨live, fs, clock⟩ := l
  have hframes := h.frames
  cases fs with
  | nil =>
    have hnil : env.frames = [] := List.map_eq_nil_iff.mp hframes
    simp only [Env.popBlock, hnil]
    exact h
  | cons f fs =>
    obtain ⟨frame,frames,hf,hframe,hrest⟩ := List.map_eq_cons_iff.mp hframes
    obtain ⟨hlt,_⟩ := List.pairwise_cons.mp hw.nested
    simp only [Env.popBlock, hf]
    refine ⟨?_,?_⟩
    · have hmax : ∀ d ∈ live, rank d.frame ≤ rank (some f) := fun _ => hw.rank_le_head
      have hfold := foldl_pop_table (live.filter (·.frame = some f)) (live.filter (·.frame ≠ some f))
      rw [filter_append_filter hw.ordered hmax] at hfold
      change frame.pushed.foldl (fun table key => (table.pop key).2) env.macros = _
      rw [h.macros, hframe]
      exact hfold
    · change frames.map (·.pushed) = fs.map (pushedIn (live.filter (·.frame ≠ some f)))
      rw [hrest]
      apply List.map_congr_left
      intro g hg
      exact (pushedIn_filter_of_ne live (Nat.ne_of_lt (hlt g hg))).symm

theorem record (h : Tracks l env) (v : Value ν) : Tracks l (env.record v) := by
  have hframes := h.frames
  cases hf : env.frames with
  | nil =>
    simp only [Env.record, hf]
    exact h
  | cons f rest =>
    rw [hf] at hframes
    simp only [Env.record, hf]
    exact ⟨h.macros,hframes⟩

theorem enter (h : Tracks l env) (max : Nat) : Tracks l ((Operation.enter max).apply env) := by
  simp only [Operation.apply, Env.enter]
  by_cases hmax : max ≤ env.depth
  · simp only [if_pos hmax]
    exact h
  · simp only [if_neg hmax]
    exact ⟨h.macros,h.frames⟩

theorem apply (h : Tracks l env) (hw : l.WellFormed) (op : Operation ν) : Tracks (l.apply op) (op.apply env) := by
  cases op with
  | pushMacro m => exact h.pushMacro hw m
  | popMacro key => exact h.popMacro hw key
  | pushBlock => exact h.pushBlock hw
  | popBlock => exact h.popBlock hw
  | record v => exact h.record v
  | enter max => exact h.enter max
  | define | defineMethod | exit | streams => exact ⟨h.macros,h.frames⟩

theorem after (h : Tracks l env) (hw : l.WellFormed) (ops : List (Operation ν)) :
    Tracks (l.after ops) (env.after ops) := by
  induction ops generalizing l env with
  | nil => exact h
  | cons op ops ih => exact ih (h.apply hw op) (hw.apply op)

end Tracks

end Ledger

/-- Whatever is done to a new environment, its macro table is that of the ledger, and each of its frames remembers a key
as often as there are live definitions of it that belong to the frame. -/
theorem macros_eq_ledger {ν : Type} (streams : Streams) (ops : List (Operation ν)) :
    let env := ({ streams } : Env ν).after ops
    let l := ({} : Ledger).after ops
    env.macros = Ledger.table l.live ∧ ∀ key, env.frames.map (·.pushed.count key) =
      l.frames.map fun f => l.live.countP fun d => d.key = key ∧ d.frame = some f := by
  intro env l
  have htracks : l.Tracks env := (Ledger.Tracks.fresh streams).after Ledger.WellFormed.fresh ops
  refine ⟨htracks.macros,?_⟩
  intro key
  calc env.frames.map (·.pushed.count key) = (env.frames.map (·.pushed)).map (·.count key) := by
        rw [List.map_map]; rfl
    _ = (l.frames.map (Ledger.pushedIn l.live)).map (·.count key) := by rw [htracks.frames]
    _ = l.frames.map fun f => l.live.countP fun d => d.key = key ∧ d.frame = some f := by
        rw [List.map_map]
        exact List.map_congr_left fun f _ => Ledger.count_pushedIn l.live key f

end Gapscript
