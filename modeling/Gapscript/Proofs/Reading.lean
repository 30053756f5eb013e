import Gapscript.Proofs.Grammar

/-! # What the rules read

Whatever a rule returns is tied to the tokens it has read by a derivation with levels: `Reads n a ts r` says that the
tokens `ts` are an `a` whose result is `r`, with at most `n` nested levels. That the rules return nothing else is
proved for each of them from the rules it is made of. A rule that does not match reads nothing, and a refusal for depth
is never forgotten; both are kept by every way of putting rules together.
-/
namespace Gapscript.Parse
open Grammar

/-- The tree of an application, which is the callee itself if there are no arguments. -/
def application (callee : Tree) : List Tree → Tree
  | [] => callee
  | args => .branch .apply [callee, .branch .args args]

/-- The line start put in front of the first statement of a block that has none. -/
def marker (first : Token) : Token := ⟨.bol, first.pos, first.line, "", ""⟩

/-- What a rule may return. -/
inductive Parsed where
  | tree (t : Tree)
  | chain (c : Chain)
  | list (ts : List Tree)

/-- The tokens `ts` are an instance of a phrase with result `r` and with at most `n` nested levels. -/
inductive Reads : (n : Nat) → Phrase → (ts : List Token) → (r : Parsed) → Prop where
  | topNil {n : Nat} : Reads n .top [] (.list [])
  | topCons {n : Nat} {us vs : List Token} {t : Tree} {ts : List Tree}
      (head : Reads n .stmt us (.tree t)) (tail : Reads n .top vs (.list ts)) :
      Reads n .top (us ++ vs) (.list (t :: ts))
  | stmtBlank {n : Nat} {bol : Token} (hbol : bol.kind = .bol) :
      Reads n .stmt [bol] (.tree (.branch .stmt [.leaf bol]))
  | stmtExpr {n : Nat} {bol : Token} {us : List Token} {e : Tree} (hbol : bol.kind = .bol)
      (expr : Reads n .expr0 us (.tree e)) :
      Reads n .stmt (bol :: us) (.tree (.branch .stmt [.leaf bol, e]))
  | expr0Single {n : Nat} {us : List Token} {c : Chain} (expr : Reads n .expr1 us (.chain c)) :
      Reads n .expr0 us (.tree (c.leftNested .infix1))
  | expr0Infix {n : Nat} {us vs : List Token} {c : Chain} {op : Token} {e : Tree}
      (left : Reads (n + 1) .expr1 us (.chain c)) (hop : op.kind = .word .inop0)
      (right : Reads n .expr0 vs (.tree e)) :
      Reads (n + 1) .expr0 (us ++ op :: vs) (.tree (.branch .infix0 [c.leftNested .infix1, .leaf op, e]))
  | expr1Single {n : Nat} {us : List Token} {t : Tree} (expr : Reads n .exprApply us (.tree t)) :
      Reads n .expr1 us (.chain ⟨t, []⟩)
  | expr1Infix {n : Nat} {us vs : List Token} {t : Tree} {op : Token} {c : Chain}
      (left : Reads (n + 1) .exprApply us (.tree t)) (hop : op.kind = .word .inop1)
      (right : Reads n .expr1 vs (.chain c)) :
      Reads (n + 1) .expr1 (us ++ op :: vs) (.chain ⟨t, (op, c.first) :: c.rest⟩)
  | exprApply {n : Nat} {us vs : List Token} {c : Chain} {ts : List Tree}
      (callee : Reads n .expr2 us (.chain c)) (args : Reads n .args vs (.list ts)) :
      Reads n .exprApply (us ++ vs) (.tree (application (c.leftNested .infix2) ts))
  | argsNil {n : Nat} : Reads n .args [] (.list [])
  | argsCons {n : Nat} {us vs : List Token} {c : Chain} {ts : List Tree}
      (head : Reads n .expr2 us (.chain c)) (tail : Reads n .args vs (.list ts)) :
      Reads n .args (us ++ vs) (.list (c.leftNested .infix2 :: ts))
  | expr2Single {n : Nat} {us : List Token} {t : Tree} (expr : Reads n .exprPre us (.tree t)) :
      Reads n .expr2 us (.chain ⟨t, []⟩)
  | expr2Infix {n : Nat} {us vs : List Token} {t : Tree} {op : Token} {c : Chain}
      (left : Reads (n + 1) .exprPre us (.tree t)) (hop : op.kind = .word .inop2)
      (right : Reads n .expr2 vs (.chain c)) :
      Reads (n + 1) .expr2 (us ++ op :: vs) (.chain ⟨t, (op, c.first) :: c.rest⟩)
  | exprPreSingle {n : Nat} {us : List Token} {t : Tree} (expr : Reads n .exprPost us (.tree t)) :
      Reads n .exprPre us (.tree t)
  | exprPrefixed {n : Nat} {us : List Token} {op : Token} {t : Tree} (hop : op.kind = .word .preop)
      (expr : Reads n .exprPost us (.tree t)) :
      Reads n .exprPre (op :: us) (.tree (.branch .prefixed [.leaf op, t]))
  | exprPostSingle {n : Nat} {us : List Token} {t : Tree} (expr : Reads n .operand us (.tree t)) :
      Reads n .exprPost us (.tree t)
  | exprPostfixed {n : Nat} {us : List Token} {op : Token} {t : Tree} (expr : Reads n .operand us (.tree t))
      (hop : op.kind = .word .postop) :
      Reads n .exprPost (us ++ [op]) (.tree (.branch .postfixed [t, .leaf op]))
  | symbol {n : Nat} {t : Token} (ht : t.kind = .word .symbol) : Reads n .operand [t] (.tree (.leaf t))
  | string {n : Nat} {t : Token} {q : Quote} (ht : t.kind = .string q) : Reads n .operand [t] (.tree (.leaf t))
  | operandBlock {n : Nat} {us : List Token} {t : Tree} (block : Reads n .block us (.tree t)) :
      Reads n .operand us (.tree t)
  | block {n : Nat} {b : Bracket} {o c : Token} {vs : List Token} {ts : List Tree} (ho : o.kind = .opening b)
      (body : Reads n .top vs (.list ts)) (hc : c.kind = .closing b) :
      Reads (n + 1) .block (o :: vs ++ [c]) (.tree (.branch (.block b) [.leaf o, .branch .stmts ts, .leaf c]))
  | blockExpr {n : Nat} {b : Bracket} {o c first : Token} {us vs : List Token} {e : Tree} {ts : List Tree}
      (ho : o.kind = .opening b) (hfirst : first.kind ≠ .bol) (expr : Reads n .expr0 (first :: us) (.tree e))
      (body : Reads n .top vs (.list ts)) (hc : c.kind = .closing b) :
      Reads (n + 1) .block (o :: (first :: us) ++ vs ++ [c])
        (.tree (.branch (.block b)
          [.leaf o, .branch .stmts (.branch .stmt [.leaf (marker first), e] :: ts), .leaf c]))

/-- A derivation with levels is one of the grammar whose nesting stays within them. -/
theorem Reads.derives {n : Nat} {a : Phrase} {ts : List Token} {r : Parsed} (h : Reads n a ts r) :
    ∃ k ≤ n, Derives a k (ts.map (·.kind)) := by
  induction h with
  | topNil => exact ⟨0,Nat.zero_le _,.topNil⟩
  | argsNil => exact ⟨0,Nat.zero_le _,.argsNil⟩
  | topCons _ _ ih₁ ih₂ =>
    obtain ⟨i,hi,d₁⟩ := ih₁
    obtain ⟨j,hj,d₂⟩ := ih₂
    exact ⟨max i j,Nat.max_le.mpr ⟨hi,hj⟩,by simpa using d₁.topCons d₂⟩
  | exprApply _ _ ih₁ ih₂ =>
    obtain ⟨i,hi,d₁⟩ := ih₁
    obtain ⟨j,hj,d₂⟩ := ih₂
    exact ⟨max i j,Nat.max_le.mpr ⟨hi,hj⟩,by simpa using d₁.exprApply d₂⟩
  | argsCons _ _ ih₁ ih₂ =>
    obtain ⟨i,hi,d₁⟩ := ih₁
    obtain ⟨j,hj,d₂⟩ := ih₂
    exact ⟨max i j,Nat.max_le.mpr ⟨hi,hj⟩,by simpa using d₁.argsCons d₂⟩
  | expr0Infix _ hop _ ih₁ ih₂ =>
    obtain ⟨i,hi,d₁⟩ := ih₁
    obtain ⟨j,hj,d₂⟩ := ih₂
    exact ⟨max i (j + 1),Nat.max_le.mpr ⟨hi,Nat.succ_le_succ hj⟩,by simpa [hop] using d₁.expr0Infix d₂⟩
  | expr1Infix _ hop _ ih₁ ih₂ =>
    obtain ⟨i,hi,d₁⟩ := ih₁
    obtain ⟨j,hj,d₂⟩ := ih₂
    exact ⟨max i (j + 1),Nat.max_le.mpr ⟨hi,Nat.succ_le_succ hj⟩,by simpa [hop] using d₁.expr1Infix d₂⟩
  | expr2Infix _ hop _ ih₁ ih₂ =>
    obtain ⟨i,hi,d₁⟩ := ih₁
    obtain ⟨j,hj,d₂⟩ := ih₂
    exact ⟨max i (j + 1),Nat.max_le.mpr ⟨hi,Nat.succ_le_succ hj⟩,by simpa [hop] using d₁.expr2Infix d₂⟩
  | stmtBlank hbol => exact ⟨0,Nat.zero_le _,by simpa [hbol] using Derives.stmtBlank⟩
  | stmtExpr hbol _ ih =>
    obtain ⟨i,hi,d⟩ := ih
    exact ⟨i,hi,by simpa [hbol] using d.stmtExpr⟩
  | expr0Single _ ih =>
    obtain ⟨i,hi,d⟩ := ih
    exact ⟨i,hi,d.expr0Single⟩
  | expr1Single _ ih =>
    obtain ⟨i,hi,d⟩ := ih
    exact ⟨i,hi,d.expr1Single⟩
  | expr2Single _ ih =>
    obtain ⟨i,hi,d⟩ := ih
    exact ⟨i,hi,d.expr2Single⟩
  | exprPreSingle _ ih =>
    obtain ⟨i,hi,d⟩ := ih
    exact ⟨i,hi,d.exprPreSingle⟩
  | exprPrefixed hop _ ih =>
    obtain ⟨i,hi,d⟩ := ih
    exact ⟨i,hi,by simpa [hop] using d.exprPrefixed⟩
  | exprPostSingle _ ih =>
    obtain ⟨i,hi,d⟩ := ih
    exact ⟨i,hi,d.exprPostSingle⟩
  | exprPostfixed _ hop ih =>
    obtain ⟨i,hi,d⟩ := ih
    exact ⟨i,hi,by simpa [hop] using d.exprPostfixed⟩
  | operandBlock _ ih =>
    obtain ⟨i,hi,d⟩ := ih
    exact ⟨i,hi,d.operandBlock⟩
  | symbol ht => exact ⟨0,Nat.zero_le _,by simpa [ht] using Derives.symbol⟩
  | string ht => exact ⟨0,Nat.zero_le _,by simpa [ht] using Derives.string _⟩
  | block ho _ hc ih =>
    obtain ⟨i,hi,d⟩ := ih
    exact ⟨i + 1,Nat.succ_le_succ hi,by simpa [ho, hc] using d.block _⟩
  | blockExpr ho _ _ _ hc ih₁ ih₂ =>
    obtain ⟨i,hi,d₁⟩ := ih₁
    obtain ⟨j,hj,d₂⟩ := ih₂
    exact ⟨max i j + 1,Nat.succ_le_succ (Nat.max_le.mpr ⟨hi,hj⟩),by simpa [ho, hc] using d₁.blockExpr _ d₂⟩

/-! ## Rules put together -/

/-- Whatever `p` returns is related by `Q` to what it has read. It reads nothing if it does not match, and keeps a
refusal that is remembered already. -/
structure Yields {α : Type} (p : Parse α) (Q : List Token → α → Prop) : Prop where
  matched {s s' : State} {a : α} (h : p s = (some a, s')) : ∃ ts, s.rest = ts ++ s'.rest ∧ Q ts a
  unmatched {s s' : State} (h : p s = (none, s')) : s'.rest = s.rest
  refusal (s : State) (h : s.tooDeep.isSome) : (p s).2.tooDeep = s.tooDeep

namespace Yields

variable {α β : Type} {p : Parse α} {Q : List Token → α → Prop}

theorem mono {R : List Token → α → Prop} (hp : Yields p Q) (h : ∀ ts a, Q ts a → R ts a) : Yields p R where
  matched hs := by
    obtain ⟨ts,hts,hq⟩ := hp.matched hs
    exact ⟨ts,hts,h ts _ hq⟩
  unmatched := hp.unmatched
  refusal := hp.refusal

theorem pure (a : α) : Yields (Pure.pure a : Parse α) fun ts b => ts = [] ∧ b = a where
  matched h := by
    cases h
    exact ⟨[],rfl,rfl,rfl⟩
  unmatched h := by cases h
  refusal _ _ := rfl

theorem fail : Yields (Parse.fail : Parse α) Q where
  matched h := by cases h
  unmatched h := by cases h; rfl
  refusal _ _ := rfl

theorem refused : Yields (nested Parse.refused : Parse α) Q where
  matched {s} := by
    cases h : s.tooDeep.isSome <;> simp [nested, Parse.refused, h]
  unmatched {s _} := by
    cases h : s.tooDeep.isSome
    · simp only [nested, Parse.refused, h]
      rintro ⟨⟩
      rfl
    · simp only [nested, h]
      rintro ⟨⟩
      rfl
  refusal s h := by simp [nested, h]

theorem nested (hp : Yields p Q) : Yields (Parse.nested p) Q where
  matched {s _ _} h := by
    simp only [Parse.nested] at h
    split at h
    · cases h
    · exact hp.matched h
  unmatched {s _} h := by
    simp only [Parse.nested] at h
    split at h
    · cases h; rfl
    · exact hp.unmatched h
  refusal s h := by simp [Parse.nested, h]

theorem bind {f : α → Parse β} {R : α → List Token → β → Prop} (hp : Yields p Q) (hf : ∀ a, Yields (f a) (R a)) :
    Yields (p >>= f) fun ts b => ∃ us vs a, ts = us ++ vs ∧ Q us a ∧ R a vs b where
  matched {s s'' b} h := by
    simp only [Bind.bind, Parse.bind] at h
    rcases hs : p s with ⟨_ | a, s'⟩
    · simp [hs] at h
    · obtain ⟨us,hus,hq⟩ := hp.matched hs
      rcases hfa : f a s' with ⟨_ | c, t⟩
      · simp [hs, hfa] at h
      · simp only [hs, hfa] at h
        cases h
        obtain ⟨vs,hvs,hr⟩ := (hf a).matched hfa
        exact ⟨us ++ vs,by rw [hus, hvs, List.append_assoc],us,vs,a,rfl,hq,hr⟩
  unmatched {s s''} h := by
    simp only [Bind.bind, Parse.bind] at h
    rcases hs : p s with ⟨_ | a, s'⟩
    · simp only [hs] at h
      cases h
      exact hp.unmatched hs
    · rcases hfa : f a s' with ⟨_ | c, t⟩
      · simp only [hs, hfa] at h
        cases h
        rfl
      · simp [hs, hfa] at h
  refusal s h := by
    have hk := hp.refusal s h
    rcases hs : p s with ⟨_ | a, s'⟩
    · simpa [Bind.bind, Parse.bind, hs] using hk
    · rw [hs] at hk
      have hka := ((hf a).refusal s' (hk ▸ h)).trans hk
      rcases hfa : f a s' with ⟨_ | c, t⟩ <;> simpa [Bind.bind, Parse.bind, hs, hfa] using hka

theorem optional (hp : Yields p Q) :
    Yields (Parse.optional p) fun ts r => r.elim (ts = []) (Q ts) where
  matched {s s' r} h := by
    simp only [Parse.optional] at h
    rcases hs : p s with ⟨_ | a, t⟩ <;> simp only [hs] at h <;> cases h
    · exact ⟨[],(hp.unmatched hs).symm,rfl⟩
    · exact hp.matched hs
  unmatched h := by simp [Parse.optional] at h
  refusal s h := hp.refusal s h

theorem peek : Yields Parse.peek fun ts _ => ts = [] where
  matched h := by
    cases (Prod.mk.inj h).2
    exact ⟨[],rfl,rfl⟩
  unmatched h := by rw [← (Prod.mk.inj h).2]
  refusal _ _ := rfl

/-- A token looked at is the first of those read afterwards. -/
theorem peekBind {f : Token → Parse β} {R : Token → List Token → β → Prop} (hf : ∀ t, Yields (f t) (R t)) :
    Yields (Parse.peek >>= f) fun ts b => ∃ t, (∀ u ∈ ts.head?, u = t) ∧ R t ts b where
  matched {s s' b} h := by
    simp only [Bind.bind, Parse.bind, Parse.peek] at h
    rcases ht : s.rest.head? with _ | t
    · simp [ht] at h
    · simp only [ht] at h
      rcases hft : f t s with ⟨_ | c, s''⟩
      · simp [hft] at h
      · simp only [hft] at h
        cases h
        obtain ⟨ts,hts,hr⟩ := (hf t).matched hft
        refine ⟨ts,hts,t,?_,hr⟩
        intro u hu
        rw [hts, List.head?_append, Option.mem_def.mp hu] at ht
        exact Option.some.inj ht
  unmatched h := (peek.bind hf).unmatched h
  refusal := (peek.bind hf).refusal

theorem tokenIf (c : Token → Bool) : Yields (Parse.tokenIf c) fun ts t => ts = [t] ∧ c t = true where
  matched {s s' t} h := by
    obtain ⟨rest, deep⟩ := s
    cases rest with
    | nil => simp [Parse.tokenIf] at h
    | cons u rest =>
      simp only [Parse.tokenIf] at h
      split at h
      · next hu =>
        cases h
        exact ⟨[t],rfl,rfl,hu⟩
      · cases h
  unmatched {s s'} h := by
    obtain ⟨rest, deep⟩ := s
    cases rest with
    | nil => cases h; rfl
    | cons u rest =>
      simp only [Parse.tokenIf] at h
      split at h <;> cases h
      rfl
  refusal s _ := by
    obtain ⟨rest, deep⟩ := s
    cases rest with
    | nil => rfl
    | cons u rest => simp only [Parse.tokenIf]; split <;> rfl

theorem token (k : Token.Kind) : Yields (Parse.token k) fun ts t => ts = [t] ∧ t.kind = k :=
  (tokenIf _).mono fun _ _ h => ⟨h.1,of_decide_eq_true h.2⟩

/-- Repetitions read what their parts read, one after the other. -/
theorem repeated {L : List Token → List α → Prop} (hp : Yields p Q) (hnil : L [] [])
    (hcons : ∀ us a vs as, Q us a → L vs as → L (us ++ vs) (a :: as)) (clock : List Token) (s : State) :
    (∃ ts, s.rest = ts ++ (Parse.repeated p clock s).2.rest ∧ L ts (Parse.repeated p clock s).1) ∧
      (s.tooDeep.isSome → (Parse.repeated p clock s).2.tooDeep = s.tooDeep) := by
  induction clock generalizing s with
  | nil => exact ⟨⟨[],rfl,hnil⟩,fun _ => rfl⟩
  | cons _ clock ih =>
    have hk := hp.refusal s
    rcases hs : p s with ⟨_ | a, s'⟩
    · rw [hs] at hk
      simp only [Parse.repeated, hs]
      exact ⟨⟨[],(hp.unmatched hs).symm,hnil⟩,hk⟩
    · rw [hs] at hk
      obtain ⟨us,hus,hq⟩ := hp.matched hs
      obtain ⟨⟨vs,hvs,hl⟩,hrest⟩ := ih s'
      simp only [Parse.repeated, hs]
      refine ⟨⟨us ++ vs,by rw [hus, hvs, List.append_assoc],hcons us a vs _ hq hl⟩,?_⟩
      intro h
      rw [hrest (hk h ▸ h), hk h]

theorem many {L : List Token → List α → Prop} (hp : Yields p Q) (hnil : L [] [])
    (hcons : ∀ us a vs as, Q us a → L vs as → L (us ++ vs) (a :: as)) : Yields (Parse.many p) L where
  matched {s s' as} h := by
    simp only [Parse.many] at h
    cases h
    exact (hp.repeated hnil hcons s.rest s).1
  unmatched h := by simp [Parse.many] at h
  refusal s h := (hp.repeated hnil hcons s.rest s).2 h

end Yields

/-! ## The rules -/

/-- The nested constructs read as they should when `n` levels are left for them and all inside them. -/
structure Inner.Reading (n : Nat) (inner : Inner) : Prop where
  expr0 : Yields (nested inner.expr0) fun ts t => ∃ m, n = m + 1 ∧ Reads m .expr0 ts (.tree t)
  chain1 : Yields (nested inner.chain1) fun ts c => ∃ m, n = m + 1 ∧ Reads m .expr1 ts (.chain c)
  chain2 : Yields (nested inner.chain2) fun ts c => ∃ m, n = m + 1 ∧ Reads m .expr2 ts (.chain c)
  delimited (b : Bracket) : Yields (nested (inner.delimited b)) fun ts t => Reads n .block ts (.tree t)

section Rules

variable {n : Nat} {inner : Inner}

theorem block_yields (h : inner.Reading n) : Yields (block inner) fun ts t => Reads n .block ts (.tree t) := by
  refine (Yields.peek.bind (R := fun _ ts t => Reads n .block ts (.tree t)) fun t => ?_).mono ?_
  · cases t.kind with
    | opening b => exact h.delimited b
    | _ => exact Yields.fail
  · rintro _ _ ⟨us,vs,_,rfl,rfl,hr⟩
    exact hr

theorem literal_yields : Yields literal fun ts t => Reads n .operand ts (.tree t) := by
  refine ((Yields.tokenIf _).bind fun t => Yields.pure (Tree.leaf t)).mono ?_
  rintro _ _ ⟨us,vs,t,rfl,⟨rfl,ht⟩,rfl,rfl⟩
  simp only [Bool.or_eq_true, decide_eq_true_eq] at ht
  rcases ht with ht | ht
  · exact .symbol ht
  · cases hk : t.kind with
    | string q => exact .string hk
    | _ => simp [hk, Token.Kind.isString] at ht

theorem operand_yields (h : inner.Reading n) : Yields (operand inner) fun ts t => Reads n .operand ts (.tree t) := by
  refine ((literal_yields (n := n)).optional.bind
    (R := fun r ts t => r.elim (Reads n .operand ts (.tree t)) fun x => ts = [] ∧ t = x) fun r => ?_).mono ?_
  · cases r with
    | some t => exact Yields.pure t
    | none => exact (block_yields h).mono fun _ _ => .operandBlock
  · rintro _ t ⟨us,vs,r,rfl,hr,hs⟩
    cases r with
    | some x =>
      obtain ⟨rfl,rfl⟩ := hs
      simpa using hr
    | none =>
      cases hr
      exact hs

theorem exprPost_yields (h : inner.Reading n) :
    Yields (exprPost inner) fun ts t => Reads n .exprPost ts (.tree t) := by
  refine ((operand_yields h).bind fun x => (Yields.token _).optional.bind
    (R := fun r ts t => ts = [] ∧ t = r.elim x fun op => Tree.branch .postfixed [x, .leaf op]) fun r => ?_).mono ?_
  · cases r with
    | some op => exact Yields.pure _
    | none => exact Yields.pure x
  · rintro _ _ ⟨us,_,x,rfl,hx,vs,_,r,rfl,hr,rfl,rfl⟩
    cases r with
    | some op =>
      obtain ⟨rfl,hop⟩ := hr
      exact .exprPostfixed hx hop
    | none =>
      cases hr
      simpa using Reads.exprPostSingle hx

theorem exprPre_yields (h : inner.Reading n) :
    Yields (exprPre inner) fun ts t => Reads n .exprPre ts (.tree t) := by
  refine ((Yields.token _).optional.bind (R := fun r ts t => ∃ x, Reads n .exprPost ts (.tree x) ∧
    t = r.elim x fun op => Tree.branch .prefixed [.leaf op, x]) fun r => ?_).mono ?_
  · cases r with
    | some op =>
      refine ((exprPost_yields h).bind fun x => Yields.pure (Tree.branch .prefixed [.leaf op, x])).mono ?_
      rintro _ _ ⟨us,_,x,rfl,hx,rfl,rfl⟩
      exact ⟨x,by simpa using hx,rfl⟩
    | none => exact (exprPost_yields h).mono fun _ t ht => ⟨t,ht,rfl⟩
  · rintro _ _ ⟨us,vs,r,rfl,hr,x,hx,rfl⟩
    cases r with
    | some op =>
      obtain ⟨rfl,hop⟩ := hr
      exact .exprPrefixed hop hx
    | none =>
      cases hr
      exact .exprPreSingle hx

/-- A chain is an operand, with an operator and the rest of the chain after it if they match. -/
theorem chain_yields {operand : Parse Tree} {context : Context} {more : Parse Chain} {Q : List Token → Tree → Prop}
    {R : List Token → Chain → Prop} (hfirst : Yields operand Q) (hmore : Yields (nested more) R) :
    Yields (chain operand context more) fun ts c => (Q ts c.first ∧ c.rest = []) ∨
      ∃ us op vs d, ts = us ++ op :: vs ∧ Q us c.first ∧ op.kind = .word context ∧ R vs d ∧
        c.rest = (op, d.first) :: d.rest := by
  refine (hfirst.bind fun x => ((Yields.token _).bind fun op => hmore.bind fun d =>
    Yields.pure (op, d)).optional.bind (R := fun r ts c => ts = [] ∧ c.first = x ∧
      c.rest = r.elim [] fun (op, d) => (op, d.first) :: d.rest) fun r => ?_).mono ?_
  · rcases r with _ | ⟨op, d⟩
    · exact (Yields.pure _).mono fun _ _ ⟨hts,hc⟩ => ⟨hts,by rw [hc],by rw [hc]; rfl⟩
    · exact (Yields.pure _).mono fun _ _ ⟨hts,hc⟩ => ⟨hts,by rw [hc],by rw [hc]; rfl⟩
  · rintro _ c ⟨us,_,x,rfl,hx,vs,_,r,rfl,hr,rfl,rfl,hc⟩
    rcases r with _ | ⟨op, d⟩
    · cases hr
      exact .inl ⟨by simpa using hx,hc⟩
    · obtain ⟨_,_,op',rfl,⟨rfl,hop⟩,ws,_,d',rfl,hd,rfl,hp⟩ := hr
      cases hp
      exact .inr ⟨us,op,ws,d,by simp,hx,hop,hd,hc⟩

theorem chain2_yields (h : inner.Reading n) : Yields (chain2 inner) fun ts c => Reads n .expr2 ts (.chain c) := by
  refine (chain_yields (exprPre_yields h) h.chain2).mono ?_
  rintro ts ⟨x, rest⟩ (⟨hx,hrest⟩ | ⟨us,op,vs,d,rfl,hx,hop,⟨m,rfl,hd⟩,hrest⟩)
  · cases hrest
    exact .expr2Single hx
  · cases hrest
    exact .expr2Infix hx hop hd

theorem expr2_yields (h : inner.Reading n) :
    Yields (expr2 inner) fun ts t => ∃ c : Chain, Reads n .expr2 ts (.chain c) ∧ t = c.leftNested .infix2 := by
  refine ((chain2_yields h).bind fun c => Yields.pure (c.leftNested .infix2)).mono ?_
  rintro _ _ ⟨us,_,c,rfl,hc,rfl,rfl⟩
  exact ⟨c,by simpa using hc,rfl⟩

theorem exprApply_yields (h : inner.Reading n) :
    Yields (exprApply inner) fun ts t => Reads n .exprApply ts (.tree t) := by
  refine ((expr2_yields h).bind fun x => ((expr2_yields h).many (L := fun ts as => Reads n .args ts (.list as))
    .argsNil ?_).bind (R := fun args ts t => ts = [] ∧ t = application x args) fun args => ?_).mono ?_
  · rintro us _ vs as ⟨c,hc,rfl⟩ has
    exact .argsCons hc has
  · cases args with
    | nil => exact Yields.pure x
    | cons => exact Yields.pure _
  · rintro _ _ ⟨us,_,_,rfl,⟨c,hc,rfl⟩,vs,_,args,rfl,hargs,rfl,rfl⟩
    simpa using Reads.exprApply hc hargs

theorem chain1_yields (h : inner.Reading n) : Yields (chain1 inner) fun ts c => Reads n .expr1 ts (.chain c) := by
  refine (chain_yields (exprApply_yields h) h.chain1).mono ?_
  rintro ts ⟨x, rest⟩ (⟨hx,hrest⟩ | ⟨us,op,vs,d,rfl,hx,hop,⟨m,rfl,hd⟩,hrest⟩)
  · cases hrest
    exact .expr1Single hx
  · cases hrest
    exact .expr1Infix hx hop hd

theorem expr1_yields (h : inner.Reading n) :
    Yields (expr1 inner) fun ts t => ∃ c : Chain, Reads n .expr1 ts (.chain c) ∧ t = c.leftNested .infix1 := by
  refine ((chain1_yields h).bind fun c => Yields.pure (c.leftNested .infix1)).mono ?_
  rintro _ _ ⟨us,_,c,rfl,hc,rfl,rfl⟩
  exact ⟨c,by simpa using hc,rfl⟩

theorem expr0_yields (h : inner.Reading n) : Yields (expr0 inner) fun ts t => Reads n .expr0 ts (.tree t) := by
  refine ((expr1_yields h).bind fun x => ((Yields.token _).bind fun op => h.expr0.bind fun e =>
    Yields.pure (op, e)).optional.bind (R := fun r ts t => ts = [] ∧
      t = r.elim x fun p => Tree.branch .infix0 [x, .leaf p.1, p.2]) fun r => ?_).mono ?_
  · cases r with
    | none => exact Yields.pure x
    | some => exact Yields.pure _
  · rintro _ _ ⟨us,_,_,rfl,⟨c,hc,rfl⟩,vs,_,r,rfl,hr,rfl,rfl⟩
    rcases r with _ | ⟨op, e⟩
    · cases hr
      simpa using Reads.expr0Single hc
    · obtain ⟨_,_,op',rfl,⟨rfl,hop⟩,ws,_,e',rfl,⟨m,rfl,he⟩,rfl,hp⟩ := hr
      cases hp
      simpa using Reads.expr0Infix hc hop he

theorem stmt_yields (h : inner.Reading n) : Yields (stmt inner) fun ts t => Reads n .stmt ts (.tree t) := by
  refine ((Yields.token _).bind fun bol => (expr0_yields h).optional.bind
    (R := fun r ts t => ts = [] ∧ t = Tree.branch .stmt (.leaf bol :: r.toList)) fun r => ?_).mono ?_
  · cases r with
    | none => exact Yields.pure _
    | some => exact Yields.pure _
  · rintro _ _ ⟨_,_,bol,rfl,⟨rfl,hbol⟩,us,_,r,rfl,hr,rfl,rfl⟩
    cases r with
    | none =>
      cases hr
      exact .stmtBlank hbol
    | some e => simpa using Reads.stmtExpr hbol hr

theorem implicitStmt_yields (h : inner.Reading n) : Yields (implicitStmt inner) fun ts t =>
    ∃ first us e, ts = first :: us ∧ first.kind ≠ .bol ∧ Reads n .expr0 (first :: us) (.tree e) ∧
      t = .branch .stmt [.leaf (marker first), e] := by
  refine (Yields.peekBind (R := fun t ts b => t.kind ≠ .bol ∧ ∃ e, Reads n .expr0 ts (.tree e) ∧
    b = Tree.branch .stmt [.leaf (marker t), e]) fun t => ?_).mono ?_
  · split
    · exact Yields.fail
    · next hk =>
      refine ((expr0_yields h).bind fun e => Yields.pure (Tree.branch .stmt [.leaf (marker t), e])).mono ?_
      rintro _ _ ⟨us,_,e,rfl,he,rfl,rfl⟩
      exact ⟨hk,e,by simpa using he,rfl⟩
  · rintro ts _ ⟨t,hhead,hk,e,he,rfl⟩
    obtain ⟨_,_,d⟩ := he.derives
    obtain ⟨_,hmem,_⟩ := d.headOf
    cases ts with
    | nil => cases hmem
    | cons first us =>
      cases hhead first rfl
      exact ⟨t,us,e,rfl,hk,he,rfl⟩

theorem repeated_stmt_reads (h : inner.Reading n) (s : State) :
    (∃ ts, s.rest = ts ++ (repeated (stmt inner) s.rest s).2.rest ∧
      Reads n .top ts (.list (repeated (stmt inner) s.rest s).1)) ∧
    (s.tooDeep.isSome → (repeated (stmt inner) s.rest s).2.tooDeep = s.tooDeep) :=
  (stmt_yields h).repeated (L := fun ts as => Reads n .top ts (.list as)) .topNil (fun _ _ _ _ => .topCons) s.rest s

/-- The inside of a block: statements, of which the first may lack its line start. -/
def BlockBody (n : Nat) (ts : List Token) (stmts : List Tree) : Prop :=
  Reads n .top ts (.list stmts) ∨
    ∃ first us e vs more, ts = (first :: us) ++ vs ∧ first.kind ≠ .bol ∧ Reads n .expr0 (first :: us) (.tree e) ∧
      Reads n .top vs (.list more) ∧ stmts = .branch .stmt [.leaf (marker first), e] :: more

theorem stmts_yields (h : inner.Reading n) : Yields (stmts inner true) fun ts t =>
    ∃ children, t = .branch .stmts children ∧ BlockBody n ts children where
  matched {s s' t} hs := by
    rcases hi : implicitStmt inner s with ⟨r, s₁⟩
    obtain ⟨vs,hvs,hread⟩ := (repeated_stmt_reads h s₁).1
    simp only [stmts, statements, if_true, hi] at hs
    cases hs
    cases r with
    | none =>
      rw [← (implicitStmt_yields h).unmatched hi]
      exact ⟨vs,hvs,_,rfl,.inl hread⟩
    | some x =>
      obtain ⟨us,hus,first,us',e,rfl,hk,he,rfl⟩ := (implicitStmt_yields h).matched hi
      exact ⟨(first :: us') ++ vs,by rw [hus, List.append_assoc, ← hvs],_,rfl,
        .inr ⟨first,us',e,vs,_,rfl,hk,he,hread,rfl⟩⟩
  unmatched hs := by simp [stmts] at hs
  refusal s hdeep := by
    have hk := (implicitStmt_yields h).refusal s hdeep
    rcases hi : implicitStmt inner s with ⟨r, s₁⟩
    rw [hi] at hk
    simp only [stmts, statements, if_true, hi]
    rw [(repeated_stmt_reads h s₁).2 (hk ▸ hdeep), hk]

theorem delimited_yields (h : inner.Reading n) (b : Bracket) :
    Yields (delimited inner b) fun ts t => Reads (n + 1) .block ts (.tree t) := by
  refine ((Yields.token _).bind fun o => (stmts_yields h).bind fun body => (Yields.token _).bind fun c =>
    Yields.pure (Tree.branch (.block b) [.leaf o, body, .leaf c])).mono ?_
  rintro _ _ ⟨_,_,o,rfl,⟨rfl,ho⟩,us,_,_,rfl,⟨children,rfl,hbody⟩,_,_,c,rfl,⟨rfl,hc⟩,rfl,rfl⟩
  rcases hbody with hbody | ⟨first,us,e,vs,more,rfl,hk,he,hmore,rfl⟩
  · simpa using Reads.block ho hbody hc
  · simpa using Reads.blockExpr ho hk he hmore hc

end Rules

/-- With any number of levels left the nested constructs read as they should. -/
theorem Inner.reading_upTo (n : Nat) : (Inner.upTo n).Reading n := by
  induction n with
  | zero =>
    exact ⟨Yields.refused,Yields.refused,Yields.refused,fun _ => Yields.refused⟩
  | succ n ih =>
    exact
      { expr0 := (expr0_yields ih).nested.mono fun _ _ h => ⟨n,rfl,h⟩
        chain1 := (chain1_yields ih).nested.mono fun _ _ h => ⟨n,rfl,h⟩
        chain2 := (chain2_yields ih).nested.mono fun _ _ h => ⟨n,rfl,h⟩
        delimited := fun b => (delimited_yields ih b).nested }

end Gapscript.Parse

namespace Gapscript
open Parse

/-- A program that is accepted has been read to its end. -/
theorem Tree.reads_of_parse {tokens : List Token} {tree : Tree} (h : Tree.parse tokens = .ok tree) :
    ∃ stmts, tree = .branch .stmts stmts ∧ Reads maxNesting .top tokens (.list stmts) := by
  obtain ⟨ts,hts,hread⟩ := (repeated_stmt_reads (Inner.reading_upTo maxNesting) ⟨tokens, none⟩).1
  rcases hr : repeated (stmt (.upTo maxNesting)) tokens ⟨tokens, none⟩ with ⟨stmts, ⟨rest, deep⟩⟩
  simp only [hr] at hts hread
  simp only [Tree.parse, statements, Bool.false_eq_true, if_false, Option.toList_none, List.nil_append, hr] at h
  rcases deep with _ | _
  · cases rest with
    | nil =>
      cases h
      refine ⟨stmts,rfl,?_⟩
      rw [hts, List.append_nil]
      exact hread
    | cons t rest => cases h
  · cases h

end Gapscript
