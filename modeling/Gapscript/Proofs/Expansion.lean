import Gapscript.Macro.Template
import Gapscript.Proofs.Limits

/-! # Expansion step by step

One step puts what a macro makes of its arguments in place of the application that invokes it. An expansion takes such
steps from the application on for as long as the term invokes a macro. It ends where the term invokes none, where a macro
rejects its arguments, or where the term still invokes a macro after the permitted number of steps.
-/
namespace Gapscript.MacroTable

/-- The operator is a reference and `m` is its innermost macro. -/
def Names (table : MacroTable) (operator : Term) (m : Macro) : Prop :=
  ∃ r, operator = .ref r ∧ table.innermost? r = some m

/-- The term is an application to `args` whose operator names the macro `m`. -/
def Invokes (table : MacroTable) (t : Term) (m : Macro) (args : List Term) : Prop :=
  ∃ operator, t = .apply operator args ∧ table.Names operator m

/-- No macro is invoked. -/
def Settled (table : MacroTable) (t : Term) : Prop := ∀ m args, ¬table.Invokes t m args

/-- The macro that `t` invokes makes `u` of it. -/
def Rewrites (table : MacroTable) (t u : Term) : Prop := ∃ m args, table.Invokes t m args ∧ m.rule args = .ok u

/-- As many steps, one after the other. -/
inductive RewritesIn (table : MacroTable) (t : Term) : (steps : Nat) → Term → Prop where
  | refl : RewritesIn table t 0 t
  | tail {steps : Nat} {u v : Term} (h : RewritesIn table t steps u) (hstep : table.Rewrites u v) :
      RewritesIn table t (steps + 1) v

variable {table : MacroTable} {m m' : Macro} {operator t u v : Term} {args args' : List Term} {max steps k : Nat}
  {message : String} {result : Except ExpansionError Term}

theorem forOperator?_eq_some_iff : table.forOperator? operator = some m ↔ table.Names operator m := by
  cases operator with
  | ref r =>
    constructor
    · intro h
      exact ⟨r,rfl,h⟩
    · rintro ⟨_,⟨⟩,h⟩
      exact h
  | block | assign | apply | str =>
    constructor
    · intro h
      cases h
    · rintro ⟨_,⟨⟩,_⟩

theorem redex?_eq_some_iff : table.redex? t = some (m, args) ↔ table.Invokes t m args := by
  cases t with
  | apply operator args' =>
    simp only [redex?, Invokes, Option.map_eq_some_iff, forOperator?_eq_some_iff]
    grind
  | block | assign | ref | str =>
    constructor
    · intro h
      cases h
    · rintro ⟨_,⟨⟩,_⟩

theorem redex?_eq_none_iff : table.redex? t = none ↔ table.Settled t := by
  simp only [Option.eq_none_iff_forall_ne_some, Prod.forall, Ne, redex?_eq_some_iff, Settled]

theorem Invokes.unique (h : table.Invokes t m args) (h' : table.Invokes t m' args') : m = m' ∧ args = args' := by
  rw [← redex?_eq_some_iff] at h h'
  exact Prod.mk.inj (Option.some.inj (h.symm.trans h'))

/-! ## One step -/

theorem expandBy_of_rejected (h : m.rule args = .error message) :
    table.expandBy max (steps + 1) m args = .error (.failed m.key message) := by
  simp only [expandBy, Macro.expand, h]

theorem expandBy_of_settled (h : m.rule args = .ok u) (hu : table.Settled u) :
    table.expandBy max (steps + 1) m args = .ok u := by
  simp only [expandBy, Macro.expand, h, redex?_eq_none_iff.mpr hu]

theorem expandBy_of_invokes (h : m.rule args = .ok u) (hu : table.Invokes u m' args') :
    table.expandBy max (steps + 1) m args = table.expandBy max steps m' args' := by
  simp only [expandBy, Macro.expand, h, redex?_eq_some_iff.mpr hu]

/-! ## Many steps -/

theorem RewritesIn.head (h : table.Rewrites t u) (hv : table.RewritesIn u k v) : table.RewritesIn t (k + 1) v := by
  induction hv with
  | refl => exact .tail .refl h
  | tail _ hstep ih => exact ih.tail hstep

/-- Steps that succeed are taken from those that are left, and the expansion goes on where they lead. -/
theorem expandBy_of_rewritesIn (h : table.RewritesIn t k u) (ht : table.Invokes t m args)
    (hu : table.Invokes u m' args') :
    table.expandBy max (steps + k) m args = table.expandBy max steps m' args' := by
  induction h generalizing steps m' args' with
  | refl =>
    obtain ⟨rfl,rfl⟩ := ht.unique hu
    rfl
  | @tail k v u _ hstep ih =>
    obtain ⟨mv,argsv,hv,hrule⟩ := hstep
    calc table.expandBy max (steps + (k + 1)) m args
      _ = table.expandBy max (steps + 1 + k) m args := by rw [Nat.add_right_comm, Nat.add_assoc]
      _ = table.expandBy max (steps + 1) mv argsv := ih hv
      _ = table.expandBy max steps m' args' := expandBy_of_invokes hrule hu

/-- How an expansion of `t` can end when `steps` steps are left of `max`. -/
inductive Ending (table : MacroTable) (max steps : Nat) (t : Term) : Except ExpansionError Term → Prop where
  | settled {k : Nat} {u : Term} (hk : k < steps) (h : table.RewritesIn t (k + 1) u) (hu : table.Settled u) :
      Ending table max steps t (.ok u)
  | rejected {k : Nat} {u : Term} {m : Macro} {args : List Term} {message : String} (hk : k < steps)
      (h : table.RewritesIn t k u) (hu : table.Invokes u m args) (hrule : m.rule args = .error message) :
      Ending table max steps t (.error (.failed m.key message))
  | limit {u : Term} {m : Macro} {args : List Term} (h : table.RewritesIn t steps u) (hu : table.Invokes u m args) :
      Ending table max steps t (.error (.limitExceeded (max + 1) max))

theorem Ending.head (h : table.Rewrites t u) (hu : table.Ending max steps u result) :
    table.Ending max (steps + 1) t result := by
  cases hu with
  | settled hk hsteps hsettled => exact .settled (Nat.succ_lt_succ hk) (hsteps.head h) hsettled
  | rejected hk hsteps hinvokes hrule => exact .rejected (Nat.succ_lt_succ hk) (hsteps.head h) hinvokes hrule
  | limit hsteps hinvokes => exact .limit (hsteps.head h) hinvokes

theorem ending_expandBy (ht : table.Invokes t m args) :
    table.Ending max steps t (table.expandBy max steps m args) := by
  induction steps generalizing t m args with
  | zero => exact .limit .refl ht
  | succ steps ih =>
    cases hrule : m.rule args with
    | error message =>
      rw [expandBy_of_rejected hrule]
      exact .rejected (Nat.succ_pos _) .refl ht hrule
    | ok u =>
      have hstep : table.Rewrites t u := ⟨m,args,ht,hrule⟩
      by_cases hu : table.Settled u
      · rw [expandBy_of_settled hrule hu]
        exact .settled (Nat.succ_pos _) (.tail .refl hstep) hu
      · obtain ⟨m',args',hu⟩ : ∃ m' args', table.Invokes u m' args' := by
          simpa [Settled] using hu
        rw [expandBy_of_invokes hrule hu]
        exact (ih hu).head hstep

/-- The result of an expansion is the one end that it can have. -/
theorem expandBy_eq_iff (ht : table.Invokes t m args) :
    table.expandBy max steps m args = result ↔ table.Ending max steps t result := by
  constructor
  · rintro rfl
    exact ending_expandBy ht
  intro h
  -- What is left of the steps when the last term that invokes a macro is reached.
  have hleft {k : Nat} (hk : k < steps) : ∃ left, steps = left + 1 + k := ⟨steps - k - 1,by omega⟩
  cases h with
  | settled hk h hu =>
    obtain ⟨left,rfl⟩ := hleft hk
    cases h with
    | tail h hstep =>
      obtain ⟨m',args',hv,hrule⟩ := hstep
      rw [expandBy_of_rewritesIn h ht hv]
      exact expandBy_of_settled hrule hu
  | rejected hk h hu hrule =>
    obtain ⟨left,rfl⟩ := hleft hk
    rw [expandBy_of_rewritesIn h ht hu]
    exact expandBy_of_rejected hrule
  | limit h hu =>
    have hall : table.expandBy max (0 + steps) m args = table.expandBy max 0 _ _ := expandBy_of_rewritesIn h ht hu
    rw [Nat.zero_add] at hall
    exact hall

/-! ## Whole expansions -/

theorem expand_of_names (h : table.Names operator m) :
    table.expand max operator args = (table.expandBy max max m args).map some := by
  simp only [expand, forOperator?_eq_some_iff.mpr h]
  cases table.expandBy max max m args with
  | ok | error => rfl

theorem expand_eq_ok_none_iff : table.expand max operator args = .ok none ↔ ∀ m, ¬table.Names operator m := by
  constructor
  · intro h m hm
    rw [expand_of_names hm] at h
    cases hresult : table.expandBy max max m args with
    | ok | error =>
      rw [hresult] at h
      cases h
  · intro h
    have hnone : table.forOperator? operator = none := by
      rw [Option.eq_none_iff_forall_ne_some]
      intro m hm
      exact h m (forOperator?_eq_some_iff.mp hm)
    simp only [expand, hnone]

theorem RewritesIn.exists_rewrites (h : table.RewritesIn t (k + 1) u) : ∃ v, table.Rewrites t v := by
  induction k generalizing u with
  | zero =>
    cases h with
    | tail h hstep =>
      cases h
      exact ⟨u,hstep⟩
  | succ k ih =>
    cases h with
    | tail h _ => exact ih h

theorem RewritesIn.exists_invokes (h : table.RewritesIn t k u) (hu : table.Invokes u m args) :
    ∃ m' args', table.Invokes t m' args' := by
  induction h generalizing m args with
  | refl => exact ⟨m,args,hu⟩
  | tail _ hstep ih =>
    obtain ⟨m',args',hv,_⟩ := hstep
    exact ih hv

theorem Ending.exists_invokes (h : table.Ending max steps t result) : ∃ m args, table.Invokes t m args := by
  cases h with
  | settled _ h _ =>
    cases h with
    | tail h hstep =>
      obtain ⟨m,args,hv,_⟩ := hstep
      exact h.exists_invokes hv
  | rejected _ h hu _ => exact h.exists_invokes hu
  | limit h hu => exact h.exists_invokes hu

/-- An application that invokes a macro expands to how its expansion ends. -/
theorem expand_eq_map_iff (result : Except ExpansionError Term) : table.expand max operator args = result.map some ↔
    table.Ending max max (.apply operator args) result := by
  by_cases hnames : ∃ m, table.Names operator m
  · obtain ⟨m,hm⟩ := hnames
    rw [← expandBy_eq_iff ⟨operator,rfl,hm⟩, expand_of_names hm]
    cases table.expandBy max max m args with
    | ok | error =>
      cases result with
      | ok | error => simp [Except.map]
  · have hnone : table.expand max operator args = .ok none := expand_eq_ok_none_iff.mpr (not_exists.mp hnames)
    rw [hnone]
    constructor
    · intro h
      cases result with
      | ok | error => cases h
    · intro h
      obtain ⟨m,_,_,⟨⟩,hm⟩ := h.exists_invokes
      exact absurd ⟨m,hm⟩ hnames

/-- What an application expands to is decided by the steps from it. It expands to nothing just if its operator names no
macro; to the first term that invokes none, if that is reached within the permitted steps; to the rejection of a macro, if
one comes up before the steps run out; and it exceeds the limit just if a macro is still invoked after all of them. With
more steps permitted the result is the same, unless it was the limit. -/
theorem expand_iff_rewrites (table : MacroTable) (max : Nat) (operator : Term) (args : List Term) :
    (table.expand max operator args = .ok none ↔ ∀ m, ¬table.Names operator m) ∧
    (∀ u, table.expand max operator args = .ok (some u) ↔
      ∃ k, 1 ≤ k ∧ k ≤ max ∧ table.RewritesIn (.apply operator args) k u ∧ table.Settled u) ∧
    (∀ key message, table.expand max operator args = .error (.failed key message) ↔
      ∃ k u m args', k < max ∧ table.RewritesIn (.apply operator args) k u ∧ table.Invokes u m args' ∧
        m.rule args' = .error message ∧ m.key = key) ∧
    (∀ depth bound, table.expand max operator args = .error (.limitExceeded depth bound) ↔
      depth = max + 1 ∧ bound = max ∧
        ∃ u m args', table.RewritesIn (.apply operator args) max u ∧ table.Invokes u m args') ∧
    ∀ max', max ≤ max' → (∀ depth bound, table.expand max operator args ≠ .error (.limitExceeded depth bound)) →
      table.expand max' operator args = table.expand max operator args := by
  refine ⟨expand_eq_ok_none_iff,?_,?_,?_,?_⟩
  · intro u
    refine (expand_eq_map_iff (.ok u)).trans ⟨?_,?_⟩
    · intro h
      cases h with
      | @settled k _ hk h hu => exact ⟨k + 1,Nat.succ_pos k,hk,h,hu⟩
    · rintro ⟨_ | k,hpos,hk,h,hu⟩
      · cases hpos
      · exact .settled hk h hu
  · intro key message
    refine (expand_eq_map_iff (.error (.failed key message))).trans ⟨?_,?_⟩
    · intro h
      cases h with
      | rejected hk h hu hrule => exact ⟨_,_,_,_,hk,h,hu,hrule,rfl⟩
    · rintro ⟨k,u,m,args',hk,h,hu,hrule,rfl⟩
      exact .rejected hk h hu hrule
  · intro depth bound
    refine (expand_eq_map_iff (.error (.limitExceeded depth bound))).trans ⟨?_,?_⟩
    · intro h
      cases h with
      | limit h hu => exact ⟨rfl,rfl,_,_,_,h,hu⟩
    · rintro ⟨rfl,rfl,u,m,args',h,hu⟩
      exact .limit h hu
  · intro max' hle hlimit
    exact (table.expand_of_le hle operator args).resolve_left (hlimit _ _)

/-- Two macros, of which the first expands `a(x, y)` into an application `b(y, x)` of the second, and that into
`f(y, x)`. -/
def swapping : MacroTable :=
  MacroTable.push (MacroTable.push [] (.ofTemplate (.symbol "a") (.apply (.ref (.symbol "b")) [.rest 1, .one (.arg 0)])))
    (.ofTemplate (.symbol "b") (.apply (.ref (.symbol "f")) [.one (.arg 0), .rest 1]))

/-- Two steps are needed and two are enough; the second has the arguments that the first one left. -/
theorem expand_iff_rewrites_swapping :
    swapping.expand 1 (.symbol "a") [.symbol "x", .symbol "y"] = .error (.limitExceeded 2 1) ∧
    swapping.expand 2 (.symbol "a") [.symbol "x", .symbol "y"] =
      .ok (some (.apply (.symbol "f") [.symbol "y", .symbol "x"])) ∧
    swapping.expand 9 (.symbol "a") [.symbol "x", .symbol "y"] =
      .ok (some (.apply (.symbol "f") [.symbol "y", .symbol "x"])) ∧
    swapping.expand 2 (.symbol "a") [] = .error (.failed (.symbol "a") "missing operand 0") := by
  have hfirst : swapping.Rewrites (.apply (.symbol "a") [.symbol "x", .symbol "y"])
      (.apply (.symbol "b") [.symbol "y", .symbol "x"]) := ⟨_,_,⟨_,rfl,_,rfl,rfl⟩,rfl⟩
  have hsecond : swapping.Rewrites (.apply (.symbol "b") [.symbol "y", .symbol "x"])
      (.apply (.symbol "f") [.symbol "y", .symbol "x"]) := ⟨_,_,⟨_,rfl,_,rfl,rfl⟩,rfl⟩
  have hsettled : swapping.Settled (.apply (.symbol "f") [.symbol "y", .symbol "x"]) := redex?_eq_none_iff.mp rfl
  obtain ⟨_,_,_,hlimit,_⟩ := expand_iff_rewrites swapping 1 (.symbol "a") [.symbol "x", .symbol "y"]
  obtain ⟨_,hvalue,_,_,hwider⟩ := expand_iff_rewrites swapping 2 (.symbol "a") [.symbol "x", .symbol "y"]
  obtain ⟨_,_,hrejected,_⟩ := expand_iff_rewrites swapping 2 (.symbol "a") []
  have htwo : swapping.expand 2 (.symbol "a") [.symbol "x", .symbol "y"] =
      .ok (some (.apply (.symbol "f") [.symbol "y", .symbol "x"])) :=
    (hvalue _).mpr ⟨2,by decide,by decide,(RewritesIn.tail .refl hfirst).tail hsecond,hsettled⟩
  refine ⟨?_,htwo,?_,?_⟩
  · exact (hlimit 2 1).mpr ⟨rfl,rfl,_,_,_,.tail .refl hfirst,⟨_,rfl,_,rfl,rfl⟩⟩
  · rw [hwider 9 (by decide) (by simp [htwo]), htwo]
  · exact (hrejected _ _).mpr ⟨0,_,_,_,by decide,.refl,⟨_,rfl,_,rfl,rfl⟩,rfl,rfl⟩

end Gapscript.MacroTable
