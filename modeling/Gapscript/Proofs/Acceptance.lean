import Gapscript.Proofs.Reading

/-! # The rules accept exactly the grammar

The rules choose by the next token alone, so what they have to be shown is that no choice of theirs loses a derivation.
A phrase is taken whole wherever the token after it is looser than the phrase: the levels of `Grammar.level` are what
makes every optional part stop in the right place. No construct is refused on the way when the levels left are at least
the nesting of the derivation. So a rule returns just what its phrase was read as, and tokens are read in one way only.
-/
namespace Gapscript.Parse
open Grammar

variable {α β : Type}

/-- The rule reads exactly `ts` if they stand in front of `rest`, with result `a`, and nothing is refused. -/
def Gives (p : Parse α) (ts rest : List Token) (a : α) : Prop := p ⟨ts ++ rest, none⟩ = (some a, ⟨rest, none⟩)

/-- The rule does not match in front of `rest`, and nothing is refused. -/
def Passes (p : Parse α) (rest : List Token) : Prop := p ⟨rest, none⟩ = (none, ⟨rest, none⟩)

/-- As many repetitions of the rule as there is time for read exactly `ts`, with results `as`. -/
def GivesAll (p : Parse α) (ts rest : List Token) (as : List α) : Prop := ∀ clock : List Token,
  ts.length ≤ clock.length → repeated p clock ⟨ts ++ rest, none⟩ = (as, ⟨rest, none⟩)

section Together

variable {p : Parse α} {f : α → Parse β} {us vs rest : List Token} {a : α} {b : β}

theorem gives_pure (a : α) : Gives (pure a : Parse α) [] rest a := rfl

theorem Gives.bind (hp : Gives p us (vs ++ rest) a) (hf : Gives (f a) vs rest b) :
    Gives (p >>= f) (us ++ vs) rest b := by
  unfold Gives at hp hf ⊢
  simp only [Bind.bind, Parse.bind]
  rw [List.append_assoc, hp]
  simp only [hf]

/-- A rule followed by one that reads nothing. -/
theorem Gives.andThen (hp : Gives p us rest a) (hf : Gives (f a) [] rest b) : Gives (p >>= f) us rest b := by
  have h : Gives (p >>= f) (us ++ []) rest b := hp.bind hf
  rwa [List.append_nil] at h

/-- A rule that reads nothing followed by another. -/
theorem Gives.after (hp : Gives p [] (us ++ rest) a) (hf : Gives (f a) us rest b) : Gives (p >>= f) us rest b :=
  hp.bind hf

theorem Gives.cons {t : Token} (hp : Gives p [t] (us ++ rest) a) (hf : Gives (f a) us rest b) :
    Gives (p >>= f) (t :: us) rest b :=
  hp.bind hf

theorem Gives.concat {t : Token} (hp : Gives p us (t :: rest) a) (hf : Gives (f a) [t] rest b) :
    Gives (p >>= f) (us ++ [t]) rest b :=
  hp.bind hf

theorem Passes.bind (hp : Passes p rest) : Passes (p >>= f) rest := by
  unfold Passes at hp ⊢
  simp only [Bind.bind, Parse.bind]
  rw [hp]

theorem Gives.optional (hp : Gives p us rest a) : Gives (Parse.optional p) us rest (some a) := by
  unfold Gives at hp ⊢
  simp only [Parse.optional]
  rw [hp]

theorem Passes.optional (hp : Passes p rest) : Gives (Parse.optional p) [] rest none := by
  unfold Passes at hp
  unfold Gives
  simp only [Parse.optional, List.nil_append]
  rw [hp]

theorem Gives.nested (hp : Gives p us rest a) : Gives (Parse.nested p) us rest a := by
  unfold Gives at hp ⊢
  simpa [Parse.nested] using hp

theorem gives_token {k : Token.Kind} {t : Token} (ht : t.kind = k) : Gives (token k) [t] rest t := by
  simp [Gives, token, tokenIf, ht]

theorem passes_token {k : Token.Kind} (h : ∀ t ∈ rest.head?, t.kind ≠ k) : Passes (token k) rest := by
  cases rest with
  | nil => rfl
  | cons t rest =>
    have ht := h t rfl
    simp [Passes, token, tokenIf, ht]

theorem Passes.givesAll (hp : Passes p rest) : GivesAll p [] rest [] := by
  intro clock _
  cases clock with
  | nil => rfl
  | cons _ clock =>
    simp only [repeated, List.nil_append]
    rw [show p ⟨rest, none⟩ = _ from hp]

theorem Gives.consAll {as : List α} (hp : Gives p us (vs ++ rest) a) (hus : us ≠ []) (hvs : GivesAll p vs rest as) :
    GivesAll p (us ++ vs) rest (a :: as) := by
  intro clock hclock
  have hlen : 0 < us.length := List.length_pos_iff.mpr hus
  rw [List.length_append] at hclock
  cases clock with
  | nil => rw [List.length_nil] at hclock; omega
  | cons _ clock =>
    have has := hvs clock (by rw [List.length_cons] at hclock; omega)
    unfold Gives at hp
    rw [List.append_assoc]
    simp only [repeated, hp, has]

theorem GivesAll.many {as : List α} (h : GivesAll p us rest as) : Gives (many p) us rest as := by
  have has := h (us ++ rest) (by simp)
  simp only [Gives, Parse.many, has]

end Together

/-- What the first token of a phrase can be. -/
theorem Reads.headOf {n : Nat} {a : Phrase} {ts : List Token} {r : Parsed} (h : Reads n a ts r) :
    a.HeadOf (ts.map (·.kind)).head? := by
  obtain ⟨k,_,d⟩ := h.derives
  exact d.headOf

/-- The next token, if any, is looser than `l`. -/
def Ends (l : Nat) (rest : List Token) : Prop := ∀ t ∈ rest.head?, l < level t.kind

section Ends

variable {l : Nat} {vs rest : List Token}

theorem ends_nil : Ends l [] := fun _ h => by cases h

theorem ends_cons {t : Token} (h : l < level t.kind) : Ends l (t :: rest) := by
  rintro _ ⟨⟩
  exact h

theorem Ends.mono {l' : Nat} (h : Ends l rest) (hl : l' ≤ l) : Ends l' rest :=
  fun t ht => Nat.lt_of_le_of_lt hl (h t ht)

theorem Ends.ne {k : Token.Kind} (h : Ends l rest) (hk : level k ≤ l) : ∀ t ∈ rest.head?, t.kind ≠ k := by
  rintro t ht rfl
  exact absurd (h t ht) (Nat.not_lt.mpr hk)

theorem Ends.not_starts (h : Ends l rest) (hl : 3 ≤ l) : ∀ t ∈ rest.head?, ¬ Starts t.kind := by
  intro t ht hs
  have hlt := h t ht
  rw [hs.level_eq] at hlt
  omega

/-- Statements and arguments may follow where what comes after them may. -/
theorem Ends.append {a : Phrase} {n : Nat} {r : Parsed} (hvs : Reads n a vs r)
    (ha : ∀ k, a.HeadOf (some k) → l < level k) (h : Ends l rest) : Ends l (vs ++ rest) := by
  cases vs with
  | nil => exact h
  | cons t vs => exact ends_cons (ha t.kind hvs.headOf)

end Ends

section Passing

variable (inner : Inner) {rest : List Token}

theorem passes_exprPre (h : ∀ t ∈ rest.head?, ¬ Starts t.kind) : Passes (exprPre inner) rest := by
  cases rest with
  | nil => rfl
  | cons t rest =>
    have ht := h t rfl
    cases hk : t.kind with
    | bol | closing =>
      simp [Passes, exprPre, exprPost, operand, literal, block, peek, fail, token, tokenIf, Parse.optional, Bind.bind,
        Parse.bind, hk, Token.Kind.isString]
    | opening | string => simp [hk, Starts] at ht
    | word c =>
      cases c with
      | symbol | preop => simp [hk, Starts] at ht
      | _ =>
        simp [Passes, exprPre, exprPost, operand, literal, block, peek, fail, token, tokenIf, Parse.optional,
          Bind.bind, Parse.bind, hk, Token.Kind.isString]

theorem passes_expr2 (h : ∀ t ∈ rest.head?, ¬ Starts t.kind) : Passes (expr2 inner) rest :=
  (passes_exprPre inner h).bind.bind

theorem passes_expr0 (h : ∀ t ∈ rest.head?, ¬ Starts t.kind) : Passes (expr0 inner) rest :=
  (passes_expr2 inner h).bind.bind.bind.bind

end Passing

section Giving

variable {inner : Inner} {us vs rest : List Token} {x : Tree}

theorem gives_literal {t : Token} (ht : t.kind = .word .symbol ∨ t.kind.isString = true) :
    Gives (operand inner) [t] rest (.leaf t) := by
  have hc : (decide (t.kind = .word .symbol) || t.kind.isString) = true := by simpa using ht
  simp [Gives, operand, literal, tokenIf, Parse.optional, Bind.bind, Parse.bind, Pure.pure, Parse.pure, hc]

theorem gives_operand {t : Token} {b : Bracket} (ht : t.kind = .opening b)
    (h : Gives (block inner) (t :: us) rest x) : Gives (operand inner) (t :: us) rest x := by
  have hpass : literal ⟨(t :: us) ++ rest, none⟩ = (none, ⟨(t :: us) ++ rest, none⟩) := by
    simp [literal, tokenIf, Bind.bind, Parse.bind, ht, Token.Kind.isString]
  unfold Gives at h ⊢
  simp only [operand, Parse.optional, Bind.bind, Parse.bind, hpass, h]

/-- The end of a chain: an operator of the tier with what stands to its right. -/
theorem gives_tail {γ : Type} {more : Parse γ} {c : γ} {context : Context} {op : Token} (hop : op.kind = .word context)
    (h : Gives more vs rest c) :
    Gives (Parse.optional do
      let op ← token (.word context)
      let c ← nested more
      return (op, c)) (op :: vs) rest (some (op, c)) :=
  ((gives_token hop).cons (h.nested.andThen (gives_pure (op, c)))).optional

theorem skips_tail {γ : Type} {more : Parse γ} {context : Context} {l : Nat} (hl : level (.word context) ≤ l)
    (h : Ends l rest) :
    Gives (Parse.optional do
      let op ← token (.word context)
      let c ← nested more
      return (op, c)) [] rest none :=
  (passes_token (h.ne hl)).bind.optional

theorem gives_chain_single {operand : Parse Tree} {context : Context} {more : Parse Chain} {l : Nat}
    (hl : level (.word context) ≤ l) (ho : Gives operand us rest x) (h : Ends l rest) :
    Gives (chain operand context more) us rest ⟨x, []⟩ :=
  ho.andThen ((skips_tail hl h).andThen (gives_pure _))

theorem gives_chain_infix {operand : Parse Tree} {context : Context} {more : Parse Chain} {op : Token} {c : Chain}
    (hop : op.kind = .word context) (ho : Gives operand us (op :: vs ++ rest) x) (hm : Gives more vs rest c) :
    Gives (chain operand context more) (us ++ op :: vs) rest ⟨x, (op, c.first) :: c.rest⟩ :=
  ho.bind ((gives_tail hop hm).andThen (gives_pure _))

theorem gives_expr1 {c : Chain} (h : Gives (chain1 inner) us rest c) :
    Gives (expr1 inner) us rest (c.leftNested .infix1) :=
  h.andThen (gives_pure _)

theorem gives_expr2 {c : Chain} (h : Gives (chain2 inner) us rest c) :
    Gives (expr2 inner) us rest (c.leftNested .infix2) :=
  h.andThen (gives_pure _)

theorem gives_expr0_single (h₁ : Gives (expr1 inner) us rest x) (h : Ends 5 rest) :
    Gives (expr0 inner) us rest x := by
  have hl : level (.word .inop0) ≤ 5 := Nat.le_refl 5
  exact h₁.andThen ((skips_tail hl h).andThen (gives_pure _))

theorem gives_expr0_infix {op : Token} {e : Tree} (hop : op.kind = .word .inop0)
    (h₁ : Gives (expr1 inner) us (op :: vs ++ rest) x) (h₂ : Gives inner.expr0 vs rest e) :
    Gives (expr0 inner) (us ++ op :: vs) rest (.branch .infix0 [x, .leaf op, e]) :=
  h₁.bind ((gives_tail hop h₂).andThen (gives_pure _))

theorem gives_exprApply {args : List Tree} (hcallee : Gives (expr2 inner) us (vs ++ rest) x)
    (hargs : GivesAll (expr2 inner) vs rest args) : Gives (exprApply inner) (us ++ vs) rest (application x args) := by
  refine hcallee.bind (hargs.many.andThen ?_)
  cases args <;> exact gives_pure _

theorem gives_exprPost_single (ho : Gives (operand inner) us rest x) (h : Ends 1 rest) :
    Gives (exprPost inner) us rest x := by
  have hl : level (.word .postop) ≤ 1 := Nat.le_refl 1
  exact ho.andThen ((passes_token (h.ne hl)).optional.andThen (gives_pure _))

theorem gives_exprPostfixed {op : Token} (hop : op.kind = .word .postop)
    (ho : Gives (operand inner) us (op :: rest) x) :
    Gives (exprPost inner) (us ++ [op]) rest (.branch .postfixed [x, .leaf op]) :=
  ho.concat ((gives_token hop).optional.andThen (gives_pure _))

theorem gives_exprPre_single {t : Token} (ht : t.kind ≠ .word .preop) (h : Gives (exprPost inner) (t :: us) rest x) :
    Gives (exprPre inner) (t :: us) rest x := by
  have hpass : Passes (token (.word .preop)) (t :: us ++ rest) := passes_token (by rintro _ ⟨⟩; exact ht)
  exact hpass.optional.after h

theorem gives_exprPrefixed {op : Token} (hop : op.kind = .word .preop) (h : Gives (exprPost inner) us rest x) :
    Gives (exprPre inner) (op :: us) rest (.branch .prefixed [.leaf op, x]) :=
  (gives_token hop).optional.cons (h.andThen (gives_pure _))

theorem gives_stmtBlank {bol : Token} (hbol : bol.kind = .bol) (h : Passes (expr0 inner) rest) :
    Gives (stmt inner) [bol] rest (.branch .stmt [.leaf bol]) :=
  (gives_token hbol).cons (h.optional.andThen (gives_pure _))

theorem gives_stmtExpr {bol : Token} (hbol : bol.kind = .bol) (h : Gives (expr0 inner) us rest x) :
    Gives (stmt inner) (bol :: us) rest (.branch .stmt [.leaf bol, x]) :=
  (gives_token hbol).cons (h.optional.andThen (gives_pure _))

/-- The inside of a block that begins with a line start, or is empty. -/
theorem gives_stmts {as : List Tree} (hhead : ∀ t ∈ (vs ++ rest).head?, t.kind = .bol ∨ ¬ Starts t.kind)
    (hvs : GivesAll (stmt inner) vs rest as) : Gives (stmts inner true) vs rest (.branch .stmts as) := by
  have hpass : implicitStmt inner ⟨vs ++ rest, none⟩ = (none, ⟨vs ++ rest, none⟩) := by
    cases hs : vs ++ rest with
    | nil => rfl
    | cons t us =>
      rw [hs] at hhead
      by_cases hk : t.kind = .bol
      · simp [implicitStmt, peek, fail, Bind.bind, Parse.bind, hk]
      · have hex : Passes (expr0 inner) (t :: us) := passes_expr0 inner fun u hu => by
          cases hu
          exact (hhead t rfl).resolve_left hk
        simp only [implicitStmt, peek, List.head?_cons, Bind.bind, Parse.bind, if_neg hk,
          show expr0 inner ⟨t :: us, none⟩ = _ from hex]
  have has := hvs (vs ++ rest) (by simp)
  simp only [Gives, stmts, statements, if_true, hpass, has, Option.toList_none, List.nil_append]

/-- The inside of a block whose first statement has no line start. -/
theorem gives_stmts_expr {t : Token} {e : Tree} {as : List Tree} (ht : t.kind ≠ .bol)
    (he : Gives (expr0 inner) (t :: us) (vs ++ rest) e) (hvs : GivesAll (stmt inner) vs rest as) :
    Gives (stmts inner true) ((t :: us) ++ vs) rest
      (.branch .stmts (.branch .stmt [.leaf (marker t), e] :: as)) := by
  have has := hvs (vs ++ rest) (by simp)
  have himp : implicitStmt inner ⟨(t :: us) ++ vs ++ rest, none⟩ =
      (some (.branch .stmt [.leaf (marker t), e]), ⟨vs ++ rest, none⟩) := by
    rw [List.append_assoc]
    simp only [implicitStmt, peek, List.cons_append, List.head?_cons, Bind.bind, Parse.bind, if_neg ht,
      show expr0 inner ⟨t :: (us ++ (vs ++ rest)), none⟩ = _ from he]
    rfl
  simp only [Gives, stmts, statements, if_true, himp, has, Option.toList_some, List.singleton_append]

theorem gives_block {b : Bracket} {o c : Token} (ho : o.kind = .opening b) (hc : c.kind = .closing b)
    (h : Gives (stmts inner true) us (c :: rest) x) :
    Gives (block inner.next) (o :: us ++ [c]) rest (.branch (.block b) [.leaf o, x, .leaf c]) := by
  have hd : Gives (inner.next.delimited b) ([o] ++ (us ++ [c])) rest (.branch (.block b) [.leaf o, x, .leaf c]) :=
    (gives_token ho).bind (h.concat ((gives_token hc).andThen (gives_pure _)))
  have hs : o :: us ++ [c] ++ rest = [o] ++ (us ++ [c]) ++ rest := rfl
  have hx := hd.nested
  unfold Gives at hx ⊢
  rw [hs]
  simp only [block, peek, Bind.bind, Parse.bind, List.cons_append, List.head?_cons, ho] at hx ⊢
  rw [hx]

end Giving

/-- The rule for a phrase, with `n` levels left, reads exactly `ts` in front of `rest` and returns `r`. -/
def Returns (n : Nat) (ts rest : List Token) : Phrase → Parsed → Prop
  | .top, .list as => GivesAll (stmt (.upTo n)) ts rest as
  | .stmt, .tree t => Gives (stmt (.upTo n)) ts rest t
  | .expr0, .tree t => Gives (expr0 (.upTo n)) ts rest t
  | .expr1, .chain c => Gives (chain1 (.upTo n)) ts rest c
  | .exprApply, .tree t => Gives (exprApply (.upTo n)) ts rest t
  | .args, .list as => GivesAll (expr2 (.upTo n)) ts rest as
  | .expr2, .chain c => Gives (chain2 (.upTo n)) ts rest c
  | .exprPre, .tree t => Gives (exprPre (.upTo n)) ts rest t
  | .exprPost, .tree t => Gives (exprPost (.upTo n)) ts rest t
  | .operand, .tree t => Gives (operand (.upTo n)) ts rest t
  | .block, .tree t => Gives (block (.upTo n)) ts rest t
  | _, _ => False

/-- Tokens of a phrase whose first kind must be there are not empty. -/
theorem exists_cons_of_head {ts : List Token} {k : Token.Kind} (h : k ∈ (ts.map (·.kind)).head?) :
    ∃ t us, ts = t :: us ∧ t.kind = k := by
  cases ts with
  | nil => cases h
  | cons t us => exact ⟨t,us,rfl,Option.some.inj h⟩

/-- An expression begins with a token that is no line start. -/
theorem Reads.exists_first {n : Nat} {us : List Token} {e : Tree} (h : Reads n .expr0 us (.tree e)) :
    ∃ first vs, us = first :: vs ∧ first.kind ≠ .bol := by
  obtain ⟨k,hk,hstarts⟩ := h.headOf
  obtain ⟨first,vs,rfl,rfl⟩ := exists_cons_of_head hk
  refine ⟨first,vs,rfl,?_⟩
  intro hbol
  rw [hbol] at hstarts
  exact hstarts

theorem Ends.args {n : Nat} {vs rest : List Token} {r : Parsed} (hr : Ends 3 rest) (h : Reads n .args vs r) :
    Ends 2 (vs ++ rest) := by
  refine (hr.mono (Nat.le_succ 2)).append h fun k hk => ?_
  rw [(hk k rfl).level_eq]
  exact Nat.lt_succ_self 2

theorem Ends.top {n : Nat} {vs rest : List Token} {r : Parsed} (hr : Ends 6 rest) (h : Reads n .top vs r) :
    Ends 5 (vs ++ rest) := by
  refine (hr.mono (Nat.le_succ 5)).append h fun k hk => ?_
  rw [hk k rfl]
  exact Nat.lt_succ_self 5

/-- No choice of the rules loses a reading: wherever a phrase stands in front of something looser, its rule reads exactly
that phrase and returns what it is read as. -/
theorem Reads.returns {n : Nat} {a : Phrase} {ts rest : List Token} {r : Parsed} (h : Reads n a ts r)
    (hr : Ends a.level rest) : Returns n ts rest a r := by
  induction h generalizing rest with
  | topNil =>
    have hl : level .bol ≤ 6 := Nat.le_refl 6
    exact Passes.givesAll (passes_token (hr.ne hl)).bind
  | @topCons n us vs t ts head tail ih₁ ih₂ =>
    have hne : us ≠ [] := by
      rintro rfl
      cases head.headOf
    exact (ih₁ (hr.top tail)).consAll hne (ih₂ hr)
  | stmtBlank hbol => exact gives_stmtBlank hbol (passes_expr0 _ (hr.not_starts (by decide)))
  | stmtExpr hbol expr ih => exact gives_stmtExpr hbol (ih hr)
  | expr0Single expr ih => exact gives_expr0_single (gives_expr1 (ih (hr.mono (Nat.le_succ 4)))) hr
  | @expr0Infix n us vs c op e left hop right ih₁ ih₂ =>
    have hend : Ends 4 (op :: vs ++ rest) := ends_cons (by rw [hop]; exact Nat.lt_succ_self 4)
    exact gives_expr0_infix hop (gives_expr1 (ih₁ hend)) (ih₂ hr)
  | expr1Single expr ih => exact gives_chain_single (Nat.le_refl 4) (ih (hr.mono (Nat.le_succ 3))) hr
  | @expr1Infix n us vs t op c left hop right ih₁ ih₂ =>
    have hend : Ends 3 (op :: vs ++ rest) := ends_cons (by rw [hop]; exact Nat.lt_succ_self 3)
    exact gives_chain_infix hop (ih₁ hend) (ih₂ hr)
  | exprApply callee args ih₁ ih₂ => exact gives_exprApply (gives_expr2 (ih₁ (hr.args args))) (ih₂ hr)
  | argsNil => exact (passes_expr2 _ (hr.not_starts (Nat.le_refl 3))).givesAll
  | @argsCons n us vs c ts head tail ih₁ ih₂ =>
    have hne : us ≠ [] := by
      rintro rfl
      obtain ⟨k,hk,_⟩ := head.headOf
      cases hk
    exact (gives_expr2 (ih₁ (hr.args tail))).consAll hne (ih₂ hr)
  | expr2Single expr ih => exact gives_chain_single (Nat.le_refl 2) (ih (hr.mono (Nat.le_succ 1))) hr
  | @expr2Infix n us vs t op c left hop right ih₁ ih₂ =>
    have hend : Ends 1 (op :: vs ++ rest) := ends_cons (by rw [hop]; exact Nat.lt_succ_self 1)
    exact gives_chain_infix hop (ih₁ hend) (ih₂ hr)
  | exprPreSingle expr ih =>
    obtain ⟨k,hk,_,hne⟩ := expr.headOf
    obtain ⟨t,us,rfl,rfl⟩ := exists_cons_of_head hk
    exact gives_exprPre_single hne (ih hr)
  | exprPrefixed hop expr ih => exact gives_exprPrefixed hop (ih hr)
  | exprPostSingle expr ih => exact gives_exprPost_single (ih (hr.mono (Nat.le_succ 0))) hr
  | @exprPostfixed n us op t expr hop ih =>
    have hend : Ends 0 (op :: rest) := ends_cons (by rw [hop]; exact Nat.zero_lt_one)
    exact gives_exprPostfixed hop (ih hend)
  | symbol ht => exact gives_literal (.inl ht)
  | string ht => exact gives_literal (.inr (by rw [ht]; rfl))
  | operandBlock expr ih =>
    obtain ⟨b,hb⟩ := expr.headOf
    obtain ⟨t,us,rfl,ht⟩ := exists_cons_of_head (Option.mem_def.mpr hb)
    exact gives_operand ht (ih hr)
  | @block n b o c vs ts ho body hc ih =>
    have hend : Ends 6 (c :: rest) := ends_cons (by rw [hc]; exact Nat.lt_succ_self 6)
    refine gives_block ho hc (gives_stmts ?_ (ih hend))
    intro t ht
    cases vs with
    | nil =>
      cases ht
      exact .inr (by rw [hc]; exact not_false)
    | cons u vs =>
      cases ht
      exact .inl (body.headOf t.kind rfl)
  | @blockExpr n b o c first us vs e ts ho hfirst expr body hc ih₁ ih₂ =>
    have hend : Ends 6 (c :: rest) := ends_cons (by rw [hc]; exact Nat.lt_succ_self 6)
    exact gives_block ho hc (gives_stmts_expr hfirst (ih₁ (hend.top body)) (ih₂ hend))

/-! ## From derivations to readings -/

/-- The rule reads exactly `ts` if they stand in front of `rest`, and nothing is refused. -/
def Takes (p : Parse α) (ts rest : List Token) : Prop := ∃ a, p ⟨ts ++ rest, none⟩ = (some a, ⟨rest, none⟩)

/-- As many repetitions of the rule as there is time for read exactly `ts`. -/
def TakesAll (p : Parse α) (ts rest : List Token) : Prop := ∀ clock : List Token, ts.length ≤ clock.length →
  ∃ as, repeated p clock ⟨ts ++ rest, none⟩ = (as, ⟨rest, none⟩)

/-- The rule for a phrase, with `m` levels left, reads exactly `ts` in front of `rest`. -/
def Accepts (m : Nat) : Phrase → (ts rest : List Token) → Prop
  | .top => TakesAll (stmt (.upTo m))
  | .stmt => Takes (stmt (.upTo m))
  | .expr0 => Takes (expr0 (.upTo m))
  | .expr1 => Takes (chain1 (.upTo m))
  | .exprApply => Takes (exprApply (.upTo m))
  | .args => TakesAll (expr2 (.upTo m))
  | .expr2 => Takes (chain2 (.upTo m))
  | .exprPre => Takes (exprPre (.upTo m))
  | .exprPost => Takes (exprPost (.upTo m))
  | .operand => Takes (operand (.upTo m))
  | .block => Takes (block (.upTo m))

theorem exists_infix {α : Type} {f : Token → α} {ts : List Token} {u v : List α} {k : α}
    (h : ts.map f = u ++ k :: v) : ∃ us op vs, ts = us ++ op :: vs ∧ us.map f = u ∧ f op = k ∧ vs.map f = v := by
  obtain ⟨us,ws,rfl,hus,hws⟩ := List.map_eq_append_iff.mp h
  obtain ⟨op,vs,rfl,hop,hvs⟩ := List.map_eq_cons_iff.mp hws
  exact ⟨us,op,vs,rfl,hus,hop,hvs⟩

theorem exists_enclosed {α : Type} {f : Token → α} {ts : List Token} {v : List α} {k k' : α}
    (h : ts.map f = k :: v ++ [k']) : ∃ o vs c, ts = o :: vs ++ [c] ∧ f o = k ∧ vs.map f = v ∧ f c = k' := by
  obtain ⟨o,ws,rfl,ho,hws⟩ := List.map_eq_cons_iff.mp h
  obtain ⟨vs,c,ws,rfl,hvs,hc,hnil⟩ := exists_infix hws
  obtain rfl := List.map_eq_nil_iff.mp hnil
  exact ⟨o,vs,c,rfl,ho,hvs,hc⟩

/-- A derivation with an infix operator leaves a level for what is to the right of it. -/
theorem exists_level {i j m : Nat} (h : max i (j + 1) ≤ m) : ∃ m', m = m' + 1 ∧ i ≤ m' + 1 ∧ j ≤ m' := by
  obtain ⟨hi,hj⟩ := Nat.max_le.mp h
  obtain ⟨m,rfl⟩ := Nat.exists_eq_add_of_le' (Nat.le_trans (Nat.le_add_left 1 j) hj)
  exact ⟨m,rfl,hi,Nat.le_of_succ_le_succ hj⟩

/-- The tokens can be read as a phrase when `m` levels are left. -/
def Readable (m : Nat) (ts : List Token) : Phrase → Prop
  | .top => ∃ as, Reads m .top ts (.list as)
  | .args => ∃ as, Reads m .args ts (.list as)
  | .expr1 => ∃ c, Reads m .expr1 ts (.chain c)
  | .expr2 => ∃ c, Reads m .expr2 ts (.chain c)
  | a => ∃ t, Reads m a ts (.tree t)

/-- A derivation tells how its tokens are read, if there are as many levels left as it is nested. -/
theorem readable_of_derives {a : Phrase} {n : Nat} {ks : List Token.Kind} (d : Derives a n ks) {m : Nat}
    {ts : List Token} (hm : n ≤ m) (hts : ts.map (·.kind) = ks) : Readable m ts a := by
  induction d generalizing m ts with
  | topNil =>
    obtain rfl := List.map_eq_nil_iff.mp hts
    exact ⟨[],.topNil⟩
  | @topCons i j u v head tail ih₁ ih₂ =>
    obtain ⟨us,vs,rfl,rfl,rfl⟩ := List.map_eq_append_iff.mp hts
    obtain ⟨t,ht⟩ := ih₁ (Nat.le_trans (Nat.le_max_left i j) hm) rfl
    obtain ⟨as,has⟩ := ih₂ (Nat.le_trans (Nat.le_max_right i j) hm) rfl
    exact ⟨_,ht.topCons has⟩
  | stmtBlank =>
    obtain ⟨bol,rfl,hbol⟩ := List.map_eq_singleton_iff.mp hts
    exact ⟨_,.stmtBlank hbol⟩
  | stmtExpr e ih =>
    obtain ⟨bol,us,rfl,hbol,rfl⟩ := List.map_eq_cons_iff.mp hts
    obtain ⟨t,ht⟩ := ih hm rfl
    exact ⟨_,.stmtExpr hbol ht⟩
  | expr0Single e ih =>
    obtain ⟨c,hc⟩ := ih hm hts
    exact ⟨_,.expr0Single hc⟩
  | @expr0Infix i j u v left right ih₁ ih₂ =>
    obtain ⟨us,op,vs,rfl,rfl,hop,rfl⟩ := exists_infix hts
    obtain ⟨m,rfl,hi,hj⟩ := exists_level hm
    obtain ⟨c,hc⟩ := ih₁ hi rfl
    obtain ⟨t,ht⟩ := ih₂ hj rfl
    exact ⟨_,.expr0Infix hc hop ht⟩
  | expr1Single e ih =>
    obtain ⟨t,ht⟩ := ih hm hts
    exact ⟨_,.expr1Single ht⟩
  | @expr1Infix i j u v left right ih₁ ih₂ =>
    obtain ⟨us,op,vs,rfl,rfl,hop,rfl⟩ := exists_infix hts
    obtain ⟨m,rfl,hi,hj⟩ := exists_level hm
    obtain ⟨t,ht⟩ := ih₁ hi rfl
    obtain ⟨c,hc⟩ := ih₂ hj rfl
    exact ⟨_,.expr1Infix ht hop hc⟩
  | @exprApply i j u v callee args ih₁ ih₂ =>
    obtain ⟨us,vs,rfl,rfl,rfl⟩ := List.map_eq_append_iff.mp hts
    obtain ⟨c,hc⟩ := ih₁ (Nat.le_trans (Nat.le_max_left i j) hm) rfl
    obtain ⟨as,has⟩ := ih₂ (Nat.le_trans (Nat.le_max_right i j) hm) rfl
    exact ⟨_,hc.exprApply has⟩
  | argsNil =>
    obtain rfl := List.map_eq_nil_iff.mp hts
    exact ⟨[],.argsNil⟩
  | @argsCons i j u v head tail ih₁ ih₂ =>
    obtain ⟨us,vs,rfl,rfl,rfl⟩ := List.map_eq_append_iff.mp hts
    obtain ⟨c,hc⟩ := ih₁ (Nat.le_trans (Nat.le_max_left i j) hm) rfl
    obtain ⟨as,has⟩ := ih₂ (Nat.le_trans (Nat.le_max_right i j) hm) rfl
    exact ⟨_,hc.argsCons has⟩
  | expr2Single e ih =>
    obtain ⟨t,ht⟩ := ih hm hts
    exact ⟨_,.expr2Single ht⟩
  | @expr2Infix i j u v left right ih₁ ih₂ =>
    obtain ⟨us,op,vs,rfl,rfl,hop,rfl⟩ := exists_infix hts
    obtain ⟨m,rfl,hi,hj⟩ := exists_level hm
    obtain ⟨t,ht⟩ := ih₁ hi rfl
    obtain ⟨c,hc⟩ := ih₂ hj rfl
    exact ⟨_,.expr2Infix ht hop hc⟩
  | exprPreSingle e ih =>
    obtain ⟨t,ht⟩ := ih hm hts
    exact ⟨t,.exprPreSingle ht⟩
  | exprPrefixed e ih =>
    obtain ⟨op,us,rfl,hop,rfl⟩ := List.map_eq_cons_iff.mp hts
    obtain ⟨t,ht⟩ := ih hm rfl
    exact ⟨_,.exprPrefixed hop ht⟩
  | exprPostSingle e ih =>
    obtain ⟨t,ht⟩ := ih hm hts
    exact ⟨t,.exprPostSingle ht⟩
  | exprPostfixed e ih =>
    obtain ⟨us,ws,rfl,rfl,hws⟩ := List.map_eq_append_iff.mp hts
    obtain ⟨op,rfl,hop⟩ := List.map_eq_singleton_iff.mp hws
    obtain ⟨t,ht⟩ := ih hm rfl
    exact ⟨_,.exprPostfixed ht hop⟩
  | symbol =>
    obtain ⟨t,rfl,ht⟩ := List.map_eq_singleton_iff.mp hts
    exact ⟨_,.symbol ht⟩
  | string q =>
    obtain ⟨t,rfl,ht⟩ := List.map_eq_singleton_iff.mp hts
    exact ⟨_,.string ht⟩
  | operandBlock e ih =>
    obtain ⟨t,ht⟩ := ih hm hts
    exact ⟨t,.operandBlock ht⟩
  | @block b i v body ih =>
    obtain ⟨o,vs,c,rfl,ho,rfl,hc⟩ := exists_enclosed hts
    obtain ⟨m,rfl⟩ := Nat.exists_eq_add_of_le' (Nat.le_trans (Nat.le_add_left 1 i) hm)
    obtain ⟨as,has⟩ := ih (Nat.le_of_succ_le_succ hm) rfl
    exact ⟨_,.block ho has hc⟩
  | @blockExpr b i j u v first body ih₁ ih₂ =>
    obtain ⟨o,ws,c,rfl,ho,hws,hc⟩ := exists_enclosed hts
    obtain ⟨us,vs,rfl,rfl,rfl⟩ := List.map_eq_append_iff.mp hws
    obtain ⟨m,rfl⟩ := Nat.exists_eq_add_of_le' (Nat.le_trans (Nat.le_add_left 1 (max i j)) hm)
    have hm' : max i j ≤ m := Nat.le_of_succ_le_succ hm
    obtain ⟨e,he⟩ := ih₁ (Nat.le_trans (Nat.le_max_left i j) hm') rfl
    obtain ⟨as,has⟩ := ih₂ (Nat.le_trans (Nat.le_max_right i j) hm') rfl
    obtain ⟨t,us,rfl,hne⟩ := he.exists_first
    exact ⟨_,.blockExpr ho hne he has hc⟩

/-- Wherever a phrase of the grammar stands in front of something looser, its rule reads exactly that phrase if there are
as many levels left as the derivation is nested. -/
theorem accepts_of_derives {a : Phrase} {n : Nat} {ks : List Token.Kind} (d : Derives a n ks) {m : Nat}
    {ts rest : List Token} (hm : n ≤ m) (hts : ts.map (·.kind) = ks) (hr : Ends a.level rest) :
    Accepts m a ts rest := by
  have hreadable := readable_of_derives d hm hts
  cases a with
  | top | args =>
    obtain ⟨as,has⟩ := hreadable
    exact fun clock hclock => ⟨as,has.returns hr clock hclock⟩
  | _ =>
    obtain ⟨x,hx⟩ := hreadable
    exact ⟨x,hx.returns hr⟩

end Gapscript.Parse

namespace Gapscript
open Parse Grammar

/-- Tokens that are read as statements are a program of just these statements. -/
theorem Tree.parse_of_reads {tokens : List Token} {stmts : List Tree} (h : Reads maxNesting .top tokens (.list stmts)) :
    Tree.parse tokens = .ok (.branch .stmts stmts) := by
  have hreturns : GivesAll (stmt (.upTo maxNesting)) tokens [] stmts := h.returns ends_nil
  have hstmts := hreturns tokens (Nat.le_refl _)
  rw [List.append_nil] at hstmts
  simp only [Tree.parse, statements, Bool.false_eq_true, if_false, hstmts, Option.toList_none, List.nil_append]

/-- Tokens are a program if and only if their kinds are derivable by a derivation that is nested at most as deep as
permitted. -/
theorem parse_ok_iff_derives (tokens : List Token) :
    (∃ tree, Tree.parse tokens = .ok tree) ↔
      ∃ n ≤ maxNesting, Derives .top n (tokens.map (·.kind)) := by
  constructor
  · rintro ⟨tree,h⟩
    obtain ⟨stmts,_,hread⟩ := Tree.reads_of_parse h
    exact hread.derives
  · rintro ⟨n,hn,d⟩
    have haccept : Accepts maxNesting .top tokens [] := accepts_of_derives d hn rfl ends_nil
    obtain ⟨stmts,hstmts⟩ := haccept tokens (Nat.le_refl _)
    rw [List.append_nil] at hstmts
    refine ⟨.branch .stmts stmts,?_⟩
    simp only [Tree.parse, statements, Bool.false_eq_true, if_false, hstmts, Option.toList_none, List.nil_append]

end Gapscript
