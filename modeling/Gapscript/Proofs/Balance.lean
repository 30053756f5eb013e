import Gapscript.Proofs.Ledger
import Gapscript.Proofs.Traced

/-! # Evaluation ends where it began

Whatever the outcome of an evaluation, the level and the open blocks afterwards are those before it, as long as the
functions of the embedding keep to the same rule. It follows that a block takes away exactly the macros pushed inside
it, unless one that was there before it has been popped by hand.
-/
namespace Gapscript

variable {ν α β : Type}

/-- Operations that come back to the level they began at, close every block they open and close none that was open
before. -/
structure Balanced (env : Env ν) (ops : List (Operation ν)) : Prop where
  depth : (env.after ops).depth = env.depth
  blocks : (env.after ops).blockDepth = env.blockDepth
  keeps : ∀ pre, pre <+: ops → env.blockDepth ≤ (env.after pre).blockDepth

theorem Env.length_forget (key : Ref) (frames : List (Frame ν)) : (Env.forget key frames).length = frames.length := by
  induction frames with
  | nil => rfl
  | cons f rest ih =>
    unfold Env.forget
    split
    · rfl
    · rw [List.length_cons, List.length_cons, ih]

/-- Operations other than those on levels and blocks. -/
def Operation.Neutral : Operation ν → Prop
  | .pushBlock | .popBlock | .enter _ | .exit => False
  | _ => True

theorem Operation.Neutral.kept {op : Operation ν} (h : op.Neutral) (env : Env ν) :
    (op.apply env).depth = env.depth ∧ (op.apply env).blockDepth = env.blockDepth := by
  cases op with
  | pushBlock | popBlock | enter | exit => cases h
  | define | defineMethod | streams => exact ⟨rfl,rfl⟩
  | record v =>
    simp only [apply, Env.record]
    cases hf : env.frames with
    | nil => exact ⟨rfl,rfl⟩
    | cons f rest => exact ⟨rfl,by simp [Env.blockDepth, hf]⟩
  | pushMacro m =>
    refine ⟨rfl,?_⟩
    cases hf : env.frames <;> simp [apply, Env.pushMacro, Env.blockDepth, hf]
  | popMacro key =>
    simp only [apply, Env.popMacro]
    rcases env.macros.pop key with ⟨_ | m, macros⟩
    · exact ⟨rfl,rfl⟩
    · exact ⟨rfl,Env.length_forget key env.frames⟩

namespace Balanced

variable {env : Env ν} {ops ops' : List (Operation ν)}

theorem nil (env : Env ν) : Balanced env [] where
  depth := rfl
  blocks := rfl
  keeps pre h := by rw [List.prefix_nil.mp h]; exact Nat.le_refl _

theorem append (h : Balanced env ops) (h' : Balanced (env.after ops) ops') : Balanced env (ops ++ ops') where
  depth := by rw [Env.after_append, h'.depth, h.depth]
  blocks := by rw [Env.after_append, h'.blocks, h.blocks]
  keeps pre hpre := by
    rcases List.prefix_or_prefix_of_prefix hpre (List.prefix_append ops ops') with hpre' | ⟨rest,rfl⟩
    · exact h.keeps pre hpre'
    · rw [Env.after_append, ← h.blocks]
      exact h'.keeps rest ((List.prefix_append_right_inj ops).mp hpre)

theorem single {op : Operation ν}
    (h : (op.apply env).depth = env.depth ∧ (op.apply env).blockDepth = env.blockDepth) : Balanced env [op] where
  depth := h.1
  blocks := h.2
  keeps pre hpre := by
    rcases List.prefix_cons_iff.mp hpre with rfl | ⟨rest,rfl,hrest⟩
    · exact Nat.le_refl _
    · rw [List.prefix_nil.mp hrest]
      exact Nat.le_of_eq h.2.symm

theorem neutral (h : ∀ op ∈ ops, op.Neutral) : Balanced env ops := by
  induction ops generalizing env with
  | nil => exact nil env
  | cons op ops ih =>
    have hop : Balanced env [op] := single ((h op List.mem_cons_self).kept env)
    exact hop.append (ih fun o ho => h o (List.mem_cons_of_mem op ho))

theorem enclose {first last : Operation ν} {inside : Env ν} (hfirst : first.apply env = inside)
    (h : Balanced inside ops) (hopen : env.blockDepth ≤ inside.blockDepth)
    (hdepth : (last.apply (inside.after ops)).depth = env.depth)
    (hblocks : (last.apply (inside.after ops)).blockDepth = env.blockDepth) :
    Balanced env (first :: ops ++ [last]) := by
  subst hfirst
  have hafter : env.after (first :: ops ++ [last]) = last.apply ((first.apply env).after ops) := by simp
  refine ⟨by rw [hafter, hdepth],by rw [hafter, hblocks],?_⟩
  intro pre hpre
  rcases List.prefix_cons_iff.mp hpre with rfl | ⟨rest,rfl,hrest⟩
  · exact Nat.le_refl _
  · rcases List.prefix_concat_iff.mp hrest with rfl | hrest
    · exact Nat.le_of_eq (by rw [← List.cons_append, hafter, hblocks])
    · exact Nat.le_trans hopen (h.keeps rest hrest)

theorem inBlock (h : Balanced env.pushBlock ops) : Balanced env (.pushBlock :: ops ++ [.popBlock]) := by
  have hdepth : (env.pushBlock.after ops).depth = env.depth := h.depth
  have hframes : (env.pushBlock.after ops).frames.length = env.frames.length + 1 := h.blocks
  obtain ⟨f,frames,hf⟩ := List.exists_cons_of_length_eq_add_one hframes
  rw [hf, List.length_cons] at hframes
  refine h.enclose rfl (Nat.le_succ _) ?_ ?_
  · simpa [Operation.apply, Env.popBlock, hf] using hdepth
  · simpa [Operation.apply, Env.popBlock, Env.blockDepth, hf] using hframes

theorem nested {max : Nat} {inside : Env ν} (henter : env.enter max = .ok inside) (h : Balanced inside ops) :
    Balanced env (.enter max :: ops ++ [.exit]) := by
  have hinside : inside = { env with depth := env.depth + 1 } := by
    unfold Env.enter at henter
    split at henter
    · cases henter
    · cases henter; rfl
  refine h.enclose (Operation.apply_enter_of_ok henter) (Nat.le_of_eq (by rw [hinside]; rfl)) ?_ ?_
  · have hdepth := h.depth
    rw [hinside] at hdepth ⊢
    exact congrArg (· - 1) hdepth
  · have hblocks := h.blocks
    rw [hinside] at hblocks ⊢
    exact hblocks

end Balanced

namespace Traced

/-- An action whose operations are balanced wherever it is taken. -/
def Balanced (t : Traced ν α) : Prop := ∀ env : Env ν, env.Built → Gapscript.Balanced env (t.ops env)

def Host.Balanced (host : Host ν) : Prop := ∀ code args, (host code args).Balanced

namespace Balanced

theorem quiet {act : Action ν α} (h : ∀ env, (act env).2 = env) : (Traced.quiet act h).Balanced :=
  fun env _ => .nil env

theorem pure (a : α) : (Pure.pure a : Traced ν α).Balanced := quiet _

theorem fail (e : EvalError) : (Traced.fail e : Traced ν α).Balanced := quiet _

theorem streaming {act : Action ν α} (h : ∀ env, (act env).2 = { env with streams := (act env).2.streams }) :
    (Traced.streaming act h).Balanced :=
  fun _ _ => .single ⟨rfl,rfl⟩

theorem perform {ops : List (Operation ν)} (h : ∀ op ∈ ops, op.Neutral) : (Traced.perform ops).Balanced :=
  fun _ _ => .neutral h

theorem bind {t : Traced ν α} {f : α → Traced ν β} (h : t.Balanced) (hf : ∀ a, (f a).Balanced) :
    (t >>= f).Balanced := by
  intro env henv
  have hfollows := t.follows env
  refine (h env henv).append ?_
  rcases ht : t.act env with ⟨_ | _ | _, env'⟩ <;> simp only [ht] at hfollows <;> subst hfollows
  · exact hf _ _ (henv.after _)
  · exact .nil _
  · exact .nil _

theorem each {f : α → Traced ν β} (h : ∀ a, (f a).Balanced) (as : List α) : (Traced.each f as).Balanced := by
  induction as with
  | nil => exact pure []
  | cons a as ih => exact bind (h a) fun b => bind ih fun bs => pure (b :: bs)

theorem nested (max : Nat) {t : Traced ν α} (h : t.Balanced) : (Traced.nested max t).Balanced := by
  intro env henv
  cases henter : env.enter max with
  | error e =>
    rw [ops_nested_of_error henter]
    exact .single (by rw [Operation.apply_enter_of_error henter]; exact ⟨rfl,rfl⟩)
  | ok inside =>
    have hinside : inside.Built := Operation.apply_enter_of_ok henter ▸ henv.after [.enter max]
    rw [ops_nested_of_ok henter]
    exact (h inside hinside).nested henter

theorem inBlock {t : Traced ν Unit} (h : t.Balanced) : (Traced.inBlock t).Balanced :=
  fun env henv => (h env.pushBlock (henv.after [.pushBlock])).inBlock

theorem checkArity (name : String) (arity : Int) (args : List (Value ν)) :
    (Traced.checkArity name arity args).Balanced :=
  quiet _

theorem call {host : Host ν} (hhost : host.Balanced) (f : Value ν) (args : List (Value ν)) :
    (Traced.call host f args).Balanced := by
  fun_induction Traced.call host f args with
  | case1 | case13 => exact pure _
  | case2 g items ih | case7 type items g ih => exact bind (each ih items.attach) fun values => pure _
  | case3 | case4 | case8 | case9 | case10 | case14 => exact fail _
  | case5 | case11 => exact bind (checkArity _ _ _) fun _ => streaming _
  | case6 | case12 => exact bind (checkArity _ _ _) fun _ => hhost _ _

theorem bindTargets (targets : List Ref) (v : Value ν) : (Traced.bindTargets targets v).Balanced := by
  unfold Traced.bindTargets
  rcases targets with _ | ⟨r, _ | ⟨r', rest⟩⟩
  case cons.nil => exact perform (by simp [Operation.Neutral])
  all_goals
    cases v with
    | seq items =>
      simp only
      split
      · exact fail _
      · refine perform fun op hop => ?_
        obtain ⟨_,_,rfl⟩ := List.mem_map.mp hop
        trivial
    | _ => exact fail _

section

variable {host : Host ν} (hhost : host.Balanced) (limits : Limits) {sub : Term → Traced ν (Value ν)}
  (hsub : ∀ t, (sub t).Balanced)

include hsub in
theorem statements (ts : List Term) : (Traced.statements sub ts).Balanced := by
  induction ts with
  | nil => exact pure ()
  | cons t ts ih =>
    refine bind (hsub t) fun v => bind (perform ?_) fun _ => ih
    simp [Operation.Neutral]

include hhost hsub in
theorem application (operator : Term) (args : List Term) :
    (Traced.application host limits sub operator args).Balanced := by
  refine bind (quiet _) fun expanded => ?_
  cases expanded with
  | some t => exact hsub t
  | none => exact bind (hsub operator) fun f => bind (each hsub args) fun values => call hhost f values

include hhost hsub in
theorem node (t : Term) : (Traced.node host limits sub t).Balanced := by
  cases t with
  | block kind stmts => exact inBlock (statements hsub stmts)
  | assign targets value => exact bind (hsub value) fun v => bind (bindTargets targets v) fun _ => pure v
  | apply operator args => exact application hhost limits hsub operator args
  | ref r => exact quiet _
  | str raw => exact pure _

include hhost in
theorem within (budget : Nat) (t : Term) : (Traced.within host limits budget t).Balanced := by
  induction budget generalizing t with
  | zero => exact quiet _
  | succ budget ih => exact nested limits.maxDepth (node hhost limits ih t)

include hhost in
theorem eval (t : Term) : (Traced.eval host limits t).Balanced := within hhost limits limits.budget t

end

end Balanced

end Traced

/-! ## Definitions that outlive a block -/

namespace Ledger

/-- The definition that an operation pops by hand. -/
def popped? (l : Ledger) : Operation ν → Option Definition
  | .popMacro key => l.latest? key
  | _ => none

/-- The definitions that operations pop by hand, in order. What goes when a block is closed is not among them. -/
def popped (l : Ledger) : List (Operation ν) → List Definition
  | [] => []
  | op :: ops => (l.popped? op).toList ++ popped (l.apply op) ops

theorem popped_append (l : Ledger) (ops ops' : List (Operation ν)) :
    l.popped (ops ++ ops') = l.popped ops ++ (l.after ops).popped ops' := by
  induction ops generalizing l with
  | nil => rfl
  | cons op ops ih => rw [List.cons_append, popped, popped, ih, after_cons, List.append_assoc]

/-- What has become of a ledger inside a block that was opened there: the block is still open, all that was live still
is, and what is new belongs to the block or to one further in. -/
def Inside (l inside : Ledger) : Prop :=
  ∃ inner new, inside.frames = inner ++ l.clock :: l.frames ∧ inside.live = new ++ l.live ∧
    ∀ d ∈ new, ∃ f ∈ d.frame, l.clock ≤ f

/-- A frame that is opened later has none of the definitions. -/
theorem WellFormed.filter_live {l : Ledger} (h : l.WellFormed) {f : Nat} (hf : l.clock ≤ f) :
    l.live.filter (·.frame ≠ some f) = l.live := by
  rw [List.filter_eq_self]
  intro d hd
  apply decide_eq_true
  intro hdf
  exact Nat.not_lt.mpr hf (h.lt_clock hd hdf)

namespace Inside

variable {l inside : Ledger}

theorem opened (l : Ledger) : Inside l (l.apply (.pushBlock : Operation ν)) := ⟨[],[],rfl,rfl,nofun⟩

theorem pushMacro (h : Inside l inside) (hw : inside.WellFormed) (m : Macro) :
    Inside l (inside.apply (.pushMacro m : Operation ν)) := by
  obtain ⟨inner,new,hframes,hlive,hnew⟩ := h
  refine ⟨inner,⟨m, inside.clock, inside.frames.head?⟩ :: new,hframes,congrArg (List.cons _) hlive,?_⟩
  intro d hd
  rcases List.mem_cons.mp hd with rfl | hd
  · have hnested := hw.nested
    rw [hframes] at hnested ⊢
    cases inner with
    | nil => exact ⟨l.clock,rfl,Nat.le_refl _⟩
    | cons f inner => exact ⟨f,rfl,Nat.le_of_lt (List.rel_of_pairwise_cons hnested (by simp))⟩
  · exact hnew d hd

theorem popMacro (h : Inside l inside) (key : Ref) (hkeep : ∀ d ∈ inside.latest? key, d ∉ l.live) :
    Inside l (inside.apply (.popMacro key : Operation ν)) := by
  obtain ⟨inner,new,hframes,hlive,hnew⟩ := h
  cases hfind : new.find? (·.key = key) with
  | some d =>
    have hd : d ∈ new := List.mem_of_find?_eq_some hfind
    have hkey : decide (d.key = key) = true := by simpa using List.find?_some hfind
    refine ⟨inner,new.eraseP (·.key = key),hframes,?_,fun e he => hnew e (List.mem_of_mem_eraseP he)⟩
    change inside.live.eraseP (·.key = key) = _
    rw [hlive, List.eraseP_append_left (p := (·.key = key)) hkey _ hd]
  | none =>
    -- Nothing new has the key, so a definition that goes would have been live before.
    have hlatest : inside.latest? key = l.live.find? (·.key = key) := by
      rw [latest?, hlive, List.find?_append, hfind, Option.none_or]
    have hnone : inside.latest? key = none := by
      rw [Option.eq_none_iff_forall_not_mem]
      intro d hd
      refine hkeep d hd ?_
      rw [hlatest] at hd
      exact List.mem_of_find?_eq_some hd
    refine ⟨inner,new,hframes,?_,hnew⟩
    change inside.live.eraseP (·.key = key) = _
    rw [List.eraseP_of_forall_not fun d hd hk => List.find?_eq_none.mp hnone d hd hk, hlive]

theorem pushBlock (h : Inside l inside) : Inside l (inside.apply (.pushBlock : Operation ν)) := by
  obtain ⟨inner,new,hframes,hlive,hnew⟩ := h
  exact ⟨inside.clock :: inner,new,congrArg (List.cons _) hframes,hlive,hnew⟩

theorem popBlock (h : Inside l inside) (hl : l.WellFormed) (hw : inside.WellFormed)
    (hopen : l.frames.length < (inside.apply (.popBlock : Operation ν)).frames.length) :
    Inside l (inside.apply (.popBlock : Operation ν)) := by
  obtain ⟨inner,new,hframes,hlive,hnew⟩ := h
  obtain ⟨live, frames, clock⟩ := inside
  subst hframes hlive
  cases inner with
  | nil => exact absurd hopen (Nat.lt_irrefl _)
  | cons f inner =>
    have hlt : l.clock < f := List.rel_of_pairwise_cons hw.nested (by simp)
    refine ⟨inner,new.filter (·.frame ≠ some f),rfl,?_,?_⟩
    · change (new ++ l.live).filter (·.frame ≠ some f) = _
      rw [List.filter_append, hl.filter_live (Nat.le_of_lt hlt)]
    · intro d hd
      exact hnew d (List.mem_filter.mp hd).1

theorem apply (h : Inside l inside) (hl : l.WellFormed) (hw : inside.WellFormed) {op : Operation ν}
    (hopen : l.frames.length < (inside.apply op).frames.length) (hkeep : ∀ d ∈ inside.popped? op, d ∉ l.live) :
    Inside l (inside.apply op) := by
  cases op with
  | pushMacro m => exact h.pushMacro hw m
  | popMacro key => exact h.popMacro key hkeep
  | pushBlock => exact h.pushBlock
  | popBlock => exact h.popBlock hl hw hopen
  | record | define | defineMethod | enter | exit | streams => exact h

theorem after (h : Inside l inside) (hl : l.WellFormed) (hw : inside.WellFormed) {ops : List (Operation ν)}
    (hopen : ∀ pre, pre <+: ops → l.frames.length < (inside.after pre).frames.length)
    (hkeep : ∀ d ∈ inside.popped ops, d ∉ l.live) : Inside l (inside.after ops) := by
  induction ops generalizing inside with
  | nil => exact h
  | cons op ops ih =>
    have hstep : Inside l (inside.apply op) := by
      refine h.apply hl hw (hopen [op] (List.prefix_append [op] ops)) fun d hd => hkeep d ?_
      exact List.mem_append_left _ (Option.mem_toList.mpr hd)
    refine ih hstep (hw.apply op) (fun pre hpre => ?_) fun d hd => hkeep d (List.mem_append_right _ hd)
    exact hopen (op :: pre) (List.prefix_cons_inj op |>.mpr hpre)

/-- Closing the block leaves what was live before it was opened. -/
theorem closed (h : Inside l inside) (hl : l.WellFormed) (hw : inside.WellFormed)
    (hlast : inside.frames.length = l.frames.length + 1) :
    (inside.apply (.popBlock : Operation ν)).live = l.live := by
  obtain ⟨inner,new,hframes,hlive,hnew⟩ := h
  obtain ⟨live, frames, clock⟩ := inside
  subst hframes hlive
  obtain rfl : inner = [] := by
    rw [List.length_append, List.length_cons] at hlast
    exact List.length_eq_zero_iff.mp (by omega)
  change (new ++ l.live).filter (·.frame ≠ some l.clock) = l.live
  have hgone : new.filter (·.frame ≠ some l.clock) = [] := by
    rw [List.filter_eq_nil_iff]
    intro d hd hne
    obtain ⟨f,hf,hle⟩ := hnew d hd
    rcases List.mem_cons.mp (hw.owned d (List.mem_append_left _ hd) f hf) with rfl | hmem
    · exact of_decide_eq_true hne hf
    · exact absurd (hl.opened f hmem) (Nat.not_lt.mpr hle)
  rw [List.filter_append, hgone, hl.filter_live (Nat.le_refl _), List.nil_append]

end Inside

theorem Tracks.length_frames {l : Ledger} {env : Env ν} (h : Tracks l env) : l.frames.length = env.blockDepth := by
  simpa [Env.blockDepth] using (congrArg List.length h.frames).symm

/-- A block whose operations are balanced takes away what was pushed inside it and nothing else. -/
theorem live_after_block {l : Ledger} {env : Env ν} (htracks : l.Tracks env) (hl : l.WellFormed)
    {ops : List (Operation ν)} (hops : Balanced env.pushBlock ops)
    (hkeep : ∀ d ∈ l.popped (.pushBlock :: ops ++ [.popBlock]), d ∉ l.live) :
    (l.after (.pushBlock :: ops ++ [.popBlock])).live = l.live := by
  have htracks' : (l.apply (.pushBlock : Operation ν)).Tracks env.pushBlock := htracks.pushBlock hl
  have hw' : (l.apply (.pushBlock : Operation ν)).WellFormed := hl.pushBlock
  have hlength (pre : List (Operation ν)) :
      ((l.apply (.pushBlock : Operation ν)).after pre).frames.length = (env.pushBlock.after pre).blockDepth :=
    (htracks'.after hw' pre).length_frames
  have hbase : env.pushBlock.blockDepth = l.frames.length + 1 := htracks'.length_frames.symm
  have hinside : Inside l ((l.apply (.pushBlock : Operation ν)).after ops) := by
    refine (Inside.opened l).after hl hw' (fun pre hpre => ?_) fun d hd => hkeep d ?_
    · rw [hlength, ← Nat.succ_le_iff, ← Nat.add_one, ← hbase]
      exact hops.keeps pre hpre
    · rw [popped_append]
      exact List.mem_append_left _ hd
  rw [after_append]
  change (((l.apply .pushBlock).after ops).apply (.popBlock : Operation ν)).live = l.live
  exact hinside.closed hl (hw'.after ops) (by rw [hlength, hops.blocks, hbase])

end Ledger

namespace Traced

/-- The same for a block that is evaluated one level further in, or refused for want of a level. -/
theorem live_after_nested_inBlock {l : Ledger} {env : Env ν} (htracks : l.Tracks env) (hl : l.WellFormed)
    (henv : env.Built) (max : Nat) {t : Traced ν Unit} (ht : t.Balanced)
    (hkeep : ∀ d ∈ l.popped ((nested max (inBlock t)).ops env), d ∉ l.live) :
    (l.after ((nested max (inBlock t)).ops env)).live = l.live := by
  cases henter : env.enter max with
  | error e =>
    rw [ops_nested_of_error henter]
    rfl
  | ok inside =>
    have hinside : (Operation.enter max).apply env = inside := Operation.apply_enter_of_ok henter
    have htracks' : l.Tracks inside := hinside ▸ htracks.enter max
    have hbuilt : inside.pushBlock.Built := hinside ▸ henv.after [.enter max, .pushBlock]
    rw [ops_nested_of_ok henter, Ledger.popped_append] at hkeep
    rw [ops_nested_of_ok henter, Ledger.after_append]
    refine Ledger.live_after_block htracks' hl (ht inside.pushBlock hbuilt) fun d hd => ?_
    exact hkeep d (List.mem_append_left _ hd)

theorem eval_block (host : Host ν) (limits : Limits) (kind : BlockKind) (stmts : List Term) :
    ∃ budget, eval host limits (.block kind stmts) =
      nested limits.maxDepth (inBlock (statements (within host limits budget) stmts)) := by
  obtain ⟨budget,hbudget⟩ : ∃ budget, limits.budget = budget + 1 :=
    Nat.exists_eq_succ_of_ne_zero (by simp [Limits.budget])
  exact ⟨budget,by rw [eval, hbudget]; rfl⟩

end Traced

/-- However an evaluation ends, it leaves the level and the number of open blocks as they were. After a block the macros
are those from before it, if no definition from before it was popped by hand. -/
theorem eval_balanced (host : Traced.Host ν) (hhost : host.Balanced) (limits : Limits) (t : Term) (streams : Streams)
    (setup : List (Operation ν)) :
    let env := ({ streams } : Env ν).after setup
    let l := ({} : Ledger).after setup
    let ops := (Traced.eval host limits t).ops env
    let env' := (eval host.act limits t env).2
    env' = env.after ops ∧ env'.depth = env.depth ∧ env'.blockDepth = env.blockDepth ∧
      ∀ kind stmts, t = .block kind stmts → (∀ d ∈ l.popped ops, d ∉ l.live) → env'.macros = env.macros := by
  intro env l ops env'
  have henv : env.Built := ⟨streams,setup,rfl⟩
  have hw : l.WellFormed := Ledger.WellFormed.fresh.after setup
  have htracks : l.Tracks env := (Ledger.Tracks.fresh streams).after Ledger.WellFormed.fresh setup
  have hfollows : env' = env.after ops := by
    change (eval host.act limits t env).2 = _
    rw [← Traced.act_eval]
    exact (Traced.eval host limits t).follows env
  have hbalanced : Balanced env ops := Traced.Balanced.eval hhost limits t env henv
  refine ⟨hfollows,by rw [hfollows, hbalanced.depth],by rw [hfollows, hbalanced.blocks],?_⟩
  rintro kind stmts rfl hkeep
  obtain ⟨budget,heval⟩ := Traced.eval_block host limits kind stmts
  have hlive : (l.after ops).live = l.live := by
    change ∀ d ∈ l.popped ((Traced.eval host limits _).ops env), d ∉ l.live at hkeep
    change (l.after ((Traced.eval host limits _).ops env)).live = l.live
    rw [heval] at hkeep ⊢
    refine Traced.live_after_nested_inBlock htracks hw henv limits.maxDepth ?_ hkeep
    exact Traced.Balanced.statements (Traced.Balanced.within hhost limits budget) stmts
  rw [hfollows, (htracks.after hw ops).macros, hlive, htracks.macros]

def outerMacro : Macro := ⟨⟨.inop1, "|"⟩, fun _ => .ok (.symbol "outer")⟩

def innerMacro : Macro := ⟨⟨.inop1, "|"⟩, fun _ => .ok (.symbol "inner")⟩

/-- A function of the embedding that shadows a macro in a block of its own and outside of it, pops its own definition,
pushes it again and fails. -/
def shadowing : Traced.Host Unit := fun _ _ => do
  let _ ← Traced.inBlock (Traced.perform [.pushMacro innerMacro])
  Traced.perform [.pushMacro innerMacro, .popMacro innerMacro.key, .pushMacro innerMacro]
  Traced.fail (.notCallable "undefined")

def shadowingSetup : List (Operation Unit) :=
  [.define ⟨.preop, "!"⟩ (.builtin (.external "!" 0 ())), .pushMacro outerMacro]

def shadowingBlock : Term := .block .top [.apply (.ref ⟨.preop, "!"⟩) []]

theorem eval_balanced_shadowing :
    let env := ({ streams := {} } : Env Unit).after shadowingSetup
    let l := ({} : Ledger).after shadowingSetup
    let ops := (Traced.eval shadowing {} shadowingBlock).ops env
    let result := eval shadowing.act {} shadowingBlock env
    shadowing.Balanced ∧ l.live.length = 1 ∧ (l.popped ops).length = 1 ∧ (∀ d ∈ l.popped ops, d ∉ l.live) ∧
      result.1 = .error (.notCallable "undefined") ∧ result.2.depth = env.depth ∧
      result.2.blockDepth = env.blockDepth ∧ result.2.macros = env.macros := by
  intro env l ops result
  have hhost : shadowing.Balanced := by
    intro code args
    refine .bind (.inBlock (.perform ?_)) fun _ => .bind (.perform ?_) fun _ => .fail _
    · simp [Operation.Neutral]
    · simp [Operation.Neutral]
  have hlive : l.live = [⟨outerMacro, 0, none⟩] := rfl
  have hpopped : l.popped ops = [⟨innerMacro, 4, some 1⟩] := by with_unfolding_all rfl
  have hkeep : ∀ d ∈ l.popped ops, d ∉ l.live := by simp [hlive, hpopped]
  have herror : result.1 = .error (.notCallable "undefined") := by
    with_unfolding_all rfl
  obtain ⟨_,hdepth,hblocks,hmacros⟩ := eval_balanced shadowing hhost {} shadowingBlock {} shadowingSetup
  exact ⟨hhost,by rw [hlive]; rfl,by rw [hpopped]; rfl,hkeep,herror,hdepth,hblocks,hmacros _ _ rfl hkeep⟩

end Gapscript
