import Gapscript.Proofs.Acceptance

/-! # No rule stops short

What stands after a phrase may begin like more of it and turn out not to be: an operator without an operand, a block that
is never closed. A rule then gives back what it has read in vain, but nothing of the phrase itself. So whatever comes
after a phrase, its rule reads at least that phrase, unless something is refused for its depth. The token at which the
reading of a program stops is therefore the one after its longest beginning that is a program.
-/
namespace Gapscript.Parse
open Grammar

variable {α β : Type}

/-- The rule reads `ts`, and more if it can, where they stand in front of `rest` and nothing is refused. -/
def Reaches (p : Parse α) (ts rest : List Token) : Prop :=
  ∀ r left, p ⟨ts ++ rest, none⟩ = (r, ⟨left, none⟩) → r.isSome ∧ left <:+ rest

/-- Repetitions of the rule read `ts`, and more if they can, as long as there is time for it. -/
def ReachesAll (p : Parse α) (ts rest : List Token) : Prop := ∀ clock : List Token, ts.length ≤ clock.length →
  ∀ as left, repeated p clock ⟨ts ++ rest, none⟩ = (as, ⟨left, none⟩) → left <:+ rest

/-- The rule matches everywhere, if only by reading nothing. -/
structure Lenient (p : Parse α) : Prop where
  isSome (s : State) : (p s).1.isSome
  yields : Yields p fun _ _ => True

section Together

variable {p : Parse α} {f : α → Parse β} {Q : List Token → α → Prop} {us vs rest : List Token} {a : α}

/-! ## Rules that match everywhere -/

theorem Yields.suffix (h : Yields p Q) (s : State) : (p s).2.rest <:+ s.rest := by
  rcases hs : p s with ⟨_ | a, s'⟩
  · have hrest := h.unmatched hs
    exact hrest ▸ List.suffix_refl s'.rest
  · obtain ⟨ts,hts,_⟩ := h.matched hs
    exact ⟨ts,hts.symm⟩

theorem Yields.tooDeep_eq_none (h : Yields p Q) {s s' : State} {r : Option α} (hs : p s = (r, s'))
    (hnone : s'.tooDeep = none) : s.tooDeep = none := by
  cases hdeep : s.tooDeep with
  | none => rfl
  | some refusal =>
    have hkept := h.refusal s (by rw [hdeep]; rfl)
    rw [hs, hdeep, hnone] at hkept
    cases hkept

namespace Lenient

theorem pure (a : α) : Lenient (Pure.pure a : Parse α) := ⟨fun _ => rfl,(Yields.pure a).mono fun _ _ _ => trivial⟩

theorem optional (h : Yields p Q) : Lenient (Parse.optional p) := ⟨fun _ => rfl,h.optional.mono fun _ _ _ => trivial⟩

theorem many (h : Yields p Q) : Lenient (Parse.many p) :=
  ⟨fun _ => rfl,h.many (L := fun _ _ => True) trivial fun _ _ _ _ _ _ => trivial⟩

theorem bind (hp : Lenient p) (hf : ∀ a, Lenient (f a)) : Lenient (p >>= f) := by
  refine ⟨fun s => ?_,(hp.yields.bind fun a => (hf a).yields).mono fun _ _ _ => trivial⟩
  have hsome := hp.isSome s
  simp only [Bind.bind, Parse.bind]
  rcases hs : p s with ⟨_ | a, s'⟩
  · rw [hs] at hsome
    cases hsome
  · have hsome' := (hf a).isSome s'
    rcases hfa : f a s' with ⟨_ | b, s''⟩
    · rw [hfa] at hsome'
      cases hsome'
    · simp only [hfa, Option.isSome_some]

theorem reaches (h : Lenient p) (rest : List Token) : Reaches p [] rest := by
  intro r left hrun
  have hsome := h.isSome ⟨rest, none⟩
  have hsuffix := h.yields.suffix ⟨rest, none⟩
  rw [List.nil_append] at hrun
  rw [hrun] at hsome hsuffix
  exact ⟨hsome,hsuffix⟩

end Lenient

/-! ## Rules put together -/

theorem Gives.reaches (h : Gives p us rest a) : Reaches p us rest := by
  intro r left hrun
  rw [show p ⟨us ++ rest, none⟩ = _ from h] at hrun
  cases hrun
  exact ⟨rfl,List.suffix_refl rest⟩

theorem Gives.bindReaches (hp : Gives p us (vs ++ rest) a) (hf : Reaches (f a) vs rest) :
    Reaches (p >>= f) (us ++ vs) rest := by
  intro r left hrun
  simp only [Bind.bind, Parse.bind, List.append_assoc] at hrun
  rw [show p ⟨us ++ (vs ++ rest), none⟩ = _ from hp] at hrun
  rcases hfa : f a ⟨vs ++ rest, none⟩ with ⟨_ | b, ⟨left', deep⟩⟩
  · simp only [hfa] at hrun
    cases hrun
    cases (hf _ _ hfa).1
  · simp only [hfa] at hrun
    cases hrun
    exact hf _ _ hfa

theorem Reaches.andThen (hp : Reaches p us rest) (hf : ∀ a, Lenient (f a)) : Reaches (p >>= f) us rest := by
  intro r left hrun
  simp only [Bind.bind, Parse.bind] at hrun
  rcases hs : p ⟨us ++ rest, none⟩ with ⟨_ | a, ⟨left', deep⟩⟩
  · simp only [hs] at hrun
    cases hrun
    cases (hp _ _ hs).1
  · have hsome := (hf a).isSome ⟨left', deep⟩
    rcases hfa : f a ⟨left', deep⟩ with ⟨_ | b, s''⟩
    · rw [hfa] at hsome
      cases hsome
    · simp only [hs, hfa] at hrun
      cases hrun
      -- What was refused by the first rule would still be refused after the second.
      obtain rfl : deep = none := (hf a).yields.tooDeep_eq_none hfa rfl
      have hsuffix := (hf a).yields.suffix ⟨left', none⟩
      rw [hfa] at hsuffix
      exact ⟨rfl,hsuffix.trans (hp _ _ hs).2⟩

theorem Reaches.optional (hp : Reaches p us rest) : Reaches (Parse.optional p) us rest := by
  intro r left hrun
  simp only [Parse.optional] at hrun
  rcases hs : p ⟨us ++ rest, none⟩ with ⟨r', s'⟩
  rw [hs] at hrun
  cases hrun
  exact ⟨rfl,(hp _ _ hs).2⟩

theorem Reaches.nested (hp : Reaches p us rest) : Reaches (Parse.nested p) us rest := hp

theorem Yields.reachesAll (h : Yields p Q) (rest : List Token) : ReachesAll p [] rest := by
  intro clock _ as left hrun
  obtain ⟨ts,hts,_⟩ :=
    (h.repeated (L := fun _ _ => True) trivial (fun _ _ _ _ _ _ => trivial) clock ⟨[] ++ rest, none⟩).1
  rw [hrun] at hts
  exact ⟨ts,hts.symm⟩

/-- The last repetition that is known of may read more, and there may be others after it. -/
theorem Reaches.reachesAll (hp : Reaches p us rest) (h : Yields p Q) (hus : us ≠ []) : ReachesAll p us rest := by
  intro clock hclock as left hrun
  cases clock with
  | nil => exact absurd (List.length_eq_zero_iff.mp (Nat.le_zero.mp hclock)) hus
  | cons _ clock =>
    simp only [repeated] at hrun
    rcases hs : p ⟨us ++ rest, none⟩ with ⟨_ | a, ⟨left', deep⟩⟩
    · simp only [hs] at hrun
      cases hrun
      cases (hp _ _ hs).1
    · obtain ⟨⟨ts,hts,_⟩,hdeep⟩ :=
        h.repeated (L := fun _ _ => True) trivial (fun _ _ _ _ _ _ => trivial) clock ⟨left', deep⟩
      rcases hr : repeated p clock ⟨left', deep⟩ with ⟨as', s'⟩
      simp only [hs, hr] at hrun hts hdeep
      cases hrun
      have hnone : deep = none := by
        cases deep with
        | none => rfl
        | some refusal => cases hdeep rfl
      subst hnone
      have hsuffix : left <:+ left' := ⟨ts,hts.symm⟩
      exact hsuffix.trans (hp _ _ hs).2

theorem Gives.consReachesAll (hp : Gives p us (vs ++ rest) a) (hus : us ≠ []) (hvs : ReachesAll p vs rest) :
    ReachesAll p (us ++ vs) rest := by
  intro clock hclock as left hrun
  have hlen : 0 < us.length := List.length_pos_iff.mpr hus
  rw [List.length_append] at hclock
  cases clock with
  | nil => rw [List.length_nil] at hclock; omega
  | cons _ clock =>
    rw [List.length_cons] at hclock
    unfold Gives at hp
    rw [List.append_assoc] at hrun
    simp only [repeated, hp] at hrun
    rcases hr : repeated p clock ⟨vs ++ rest, none⟩ with ⟨as', s'⟩
    rw [hr] at hrun
    cases hrun
    exact hvs clock (by omega) as' left hr

theorem ReachesAll.many (h : ReachesAll p us rest) : Reaches (Parse.many p) us rest := by
  intro r left hrun
  simp only [Parse.many] at hrun
  rcases hr : repeated p (us ++ rest) ⟨us ++ rest, none⟩ with ⟨as, s'⟩
  rw [hr] at hrun
  cases hrun
  exact ⟨rfl,h (us ++ rest) (by simp) as left hr⟩

end Together

section Reaching

variable {inner : Inner} {us vs rest : List Token} {x : Tree}

/-! ## The rules -/

theorem lenient_tail {γ : Type} {more : Parse γ} {Q : List Token → γ → Prop} (context : Context)
    (h : Yields (nested more) Q) :
    Lenient (Parse.optional do
      let op ← token (.word context)
      let c ← nested more
      return (op, c)) :=
  .optional ((Yields.token _).bind fun _ => h.bind fun _ => .pure _)

theorem reaches_tail {γ : Type} {more : Parse γ} {context : Context} {op : Token} (hop : op.kind = .word context)
    (h : Reaches more vs rest) :
    Reaches (Parse.optional do
      let op ← token (.word context)
      let c ← nested more
      return (op, c)) (op :: vs) rest := by
  have hright : Reaches (do let c ← nested more; return (op, c)) vs rest := h.nested.andThen fun c => .pure (op, c)
  have hboth : Reaches (do let op ← token (.word context); let c ← nested more; return (op, c)) ([op] ++ vs) rest :=
    (gives_token hop).bindReaches hright
  exact hboth.optional

theorem lenient_link (first : Tree) (tail : Option (Token × Chain)) :
    Lenient (match tail with
      | some (op, c) => return ⟨first, (op, c.first) :: c.rest⟩
      | none => return ⟨first, []⟩ : Parse Chain) := by
  rcases tail with _ | ⟨op, c⟩
  · exact .pure _
  · exact .pure _

theorem reaches_chain_single {operand : Parse Tree} (context : Context) {more : Parse Chain}
    {Q : List Token → Chain → Prop} (ho : Reaches operand us rest) (h : Yields (nested more) Q) :
    Reaches (chain operand context more) us rest :=
  ho.andThen fun first => (lenient_tail context h).bind fun tail => lenient_link first tail

theorem reaches_chain_infix {operand : Parse Tree} {context : Context} {more : Parse Chain} {op : Token}
    (hop : op.kind = .word context) (ho : Gives operand us (op :: vs ++ rest) x) (hm : Reaches more vs rest) :
    Reaches (chain operand context more) (us ++ op :: vs) rest :=
  ho.bindReaches ((reaches_tail hop hm).andThen fun tail => lenient_link x tail)

theorem lenient_assignment (left : Tree) (tail : Option (Token × Tree)) :
    Lenient (match tail with
      | some (op, right) => return .branch .infix0 [left, .leaf op, right]
      | none => return left : Parse Tree) := by
  rcases tail with _ | ⟨op, right⟩
  · exact .pure _
  · exact .pure _

theorem reaches_expr0_single {Q : List Token → Tree → Prop} (h : Reaches (expr1 inner) us rest)
    (hright : Yields (nested inner.expr0) Q) : Reaches (expr0 inner) us rest :=
  h.andThen fun left => (lenient_tail .inop0 hright).bind fun tail => lenient_assignment left tail

theorem reaches_expr0_infix {op : Token} (hop : op.kind = .word .inop0)
    (hleft : Gives (expr1 inner) us (op :: vs ++ rest) x) (hright : Reaches inner.expr0 vs rest) :
    Reaches (expr0 inner) (us ++ op :: vs) rest :=
  hleft.bindReaches ((reaches_tail hop hright).andThen fun tail => lenient_assignment x tail)

theorem reaches_expr1 (h : Reaches (chain1 inner) us rest) : Reaches (expr1 inner) us rest :=
  h.andThen fun _ => .pure _

theorem reaches_expr2 (h : Reaches (chain2 inner) us rest) : Reaches (expr2 inner) us rest :=
  h.andThen fun _ => .pure _

theorem lenient_application (callee : Tree) (args : List Tree) :
    Lenient (match args with
      | [] => return callee
      | args => return .branch .apply [callee, .branch .args args] : Parse Tree) := by
  cases args with
  | nil => exact .pure _
  | cons => exact .pure _

theorem reaches_stmt {bol : Token} (hbol : bol.kind = .bol) (h : Reaches (Parse.optional (expr0 inner)) us rest) :
    Reaches (stmt inner) (bol :: us) rest := by
  have hboth : Reaches (stmt inner) ([bol] ++ us) rest := by
    refine (gives_token hbol).bindReaches (h.andThen fun r => ?_)
    cases r with
    | none => exact .pure _
    | some => exact .pure _
  exact hboth

theorem reaches_exprPost (h : Reaches (operand inner) us rest) : Reaches (exprPost inner) us rest := by
  refine h.andThen fun x => (Lenient.optional (Yields.token _)).bind fun r => ?_
  cases r with
  | none => exact .pure _
  | some => exact .pure _

theorem reaches_exprPre_single {t : Token} (ht : t.kind ≠ .word .preop) (h : Reaches (exprPost inner) (t :: us) rest) :
    Reaches (exprPre inner) (t :: us) rest := by
  have hpass : Passes (token (.word .preop)) (t :: us ++ rest) := passes_token (by rintro _ ⟨⟩; exact ht)
  exact hpass.optional.bindReaches h

theorem reaches_exprPrefixed {op : Token} (hop : op.kind = .word .preop) (h : Reaches (exprPost inner) us rest) :
    Reaches (exprPre inner) (op :: us) rest := by
  have hoperand : Reaches (do return Tree.branch .prefixed [.leaf op, ← exprPost inner]) us rest :=
    h.andThen fun _ => .pure _
  have hboth : Reaches (exprPre inner) ([op] ++ us) rest := (gives_token hop).optional.bindReaches hoperand
  exact hboth

end Reaching

/-- The rule for a phrase, with `n` levels left, reads at least `ts` in front of `rest`. -/
def Spans (n : Nat) (ts rest : List Token) : Phrase → Prop
  | .top => ReachesAll (stmt (.upTo n)) ts rest
  | .stmt => Reaches (stmt (.upTo n)) ts rest
  | .expr0 => Reaches (expr0 (.upTo n)) ts rest
  | .expr1 => Reaches (chain1 (.upTo n)) ts rest
  | .exprApply => Reaches (exprApply (.upTo n)) ts rest
  | .args => ReachesAll (expr2 (.upTo n)) ts rest
  | .expr2 => Reaches (chain2 (.upTo n)) ts rest
  | .exprPre => Reaches (exprPre (.upTo n)) ts rest
  | .exprPost => Reaches (exprPost (.upTo n)) ts rest
  | .operand => Reaches (operand (.upTo n)) ts rest
  | .block => Reaches (block (.upTo n)) ts rest

/-- Every token is looser than an operand, which ends by itself. -/
theorem ends_zero (rest : List Token) : Ends 0 rest := by
  intro t _
  cases t.kind with
  | word c => cases c <;> decide
  | _ => exact Nat.succ_pos _

/-- Whatever stands after a phrase, its rule does not stop before the end of the phrase. -/
theorem Reads.spans {n : Nat} {a : Phrase} {ts : List Token} {r : Parsed} (h : Reads n a ts r) (rest : List Token) :
    Spans n ts rest a := by
  have hinner (n : Nat) := Inner.reading_upTo n
  induction h generalizing rest with
  | topNil => exact (stmt_yields (hinner _)).reachesAll rest
  | @topCons n us vs t ts head tail ih₁ ih₂ =>
    have hne : us ≠ [] := by
      rintro rfl
      cases head.headOf
    cases vs with
    | nil =>
      rw [List.append_nil]
      exact (ih₁ rest).reachesAll (stmt_yields (hinner n)) hne
    | cons u vs =>
      have hend : Ends 5 (u :: vs ++ rest) := ends_cons (by rw [tail.headOf u.kind rfl]; exact Nat.lt_succ_self 5)
      exact (head.returns hend).consReachesAll hne (ih₂ rest)
  | stmtBlank hbol => exact reaches_stmt hbol ((Lenient.optional (expr0_yields (hinner _))).reaches rest)
  | stmtExpr hbol _ ih => exact reaches_stmt hbol (ih rest).optional
  | expr0Single _ ih => exact reaches_expr0_single (reaches_expr1 (ih rest)) (hinner _).expr0
  | @expr0Infix n us vs c op e left hop _ _ ih₂ =>
    have hend : Ends 4 (op :: vs ++ rest) := ends_cons (by rw [hop]; exact Nat.lt_succ_self 4)
    exact reaches_expr0_infix hop (gives_expr1 (left.returns hend)) (ih₂ rest)
  | expr1Single _ ih => exact reaches_chain_single .inop1 (ih rest) (hinner _).chain1
  | @expr1Infix n us vs t op c left hop _ _ ih₂ =>
    have hend : Ends 3 (op :: vs ++ rest) := ends_cons (by rw [hop]; exact Nat.lt_succ_self 3)
    exact reaches_chain_infix hop (left.returns hend) (ih₂ rest)
  | @exprApply n us vs c ts callee args ih₁ ih₂ =>
    cases vs with
    | nil =>
      rw [List.append_nil]
      exact (reaches_expr2 (ih₁ rest)).andThen fun x =>
        (Lenient.many (expr2_yields (hinner n))).bind fun ts => lenient_application x ts
    | cons u vs =>
      have hstarts : Starts u.kind := args.headOf u.kind rfl
      have hend : Ends 2 (u :: vs ++ rest) := ends_cons (by rw [hstarts.level_eq]; exact Nat.lt_succ_self 2)
      exact (gives_expr2 (callee.returns hend)).bindReaches
        ((ih₂ rest).many.andThen fun ts => lenient_application _ ts)
  | argsNil => exact (expr2_yields (hinner _)).reachesAll rest
  | @argsCons n us vs c ts head tail ih₁ ih₂ =>
    have hne : us ≠ [] := by
      rintro rfl
      obtain ⟨k,hk,_⟩ := head.headOf
      cases hk
    cases vs with
    | nil =>
      rw [List.append_nil]
      exact (reaches_expr2 (ih₁ rest)).reachesAll (expr2_yields (hinner n)) hne
    | cons u vs =>
      have hstarts : Starts u.kind := tail.headOf u.kind rfl
      have hend : Ends 2 (u :: vs ++ rest) := ends_cons (by rw [hstarts.level_eq]; exact Nat.lt_succ_self 2)
      exact (gives_expr2 (head.returns hend)).consReachesAll hne (ih₂ rest)
  | expr2Single _ ih => exact reaches_chain_single .inop2 (ih rest) (hinner _).chain2
  | @expr2Infix n us vs t op c left hop _ _ ih₂ =>
    have hend : Ends 1 (op :: vs ++ rest) := ends_cons (by rw [hop]; exact Nat.lt_succ_self 1)
    exact reaches_chain_infix hop (left.returns hend) (ih₂ rest)
  | exprPreSingle expr ih =>
    obtain ⟨k,hk,_,hne⟩ := expr.headOf
    obtain ⟨t,us,rfl,rfl⟩ := exists_cons_of_head hk
    exact reaches_exprPre_single hne (ih rest)
  | exprPrefixed hop _ ih => exact reaches_exprPrefixed hop (ih rest)
  | exprPostSingle _ ih => exact reaches_exprPost (ih rest)
  | exprPostfixed expr hop _ => exact (gives_exprPostfixed hop (expr.returns (ends_zero _))).reaches
  | symbol ht => exact (gives_literal (.inl ht)).reaches
  | string ht => exact (gives_literal (.inr (by rw [ht]; rfl))).reaches
  | operandBlock block _ =>
    have hgives := (Reads.operandBlock block).returns (ends_zero rest)
    exact hgives.reaches
  | block ho body hc _ =>
    have hgives := (Reads.block ho body hc).returns (ends_zero rest)
    exact hgives.reaches
  | blockExpr ho hfirst expr body hc _ _ =>
    have hgives := (Reads.blockExpr ho hfirst expr body hc).returns (ends_zero rest)
    exact hgives.reaches

end Gapscript.Parse

namespace Gapscript
open Parse Grammar

/-- Tokens that are left over begin right after the longest beginning of the program that is one: up to there it can be
read, and no longer beginning can. -/
theorem trailingInput_after_longest_program {tokens : List Token} {t : Token}
    (h : Tree.parse tokens = .error (.trailingInput t)) :
    ∃ i, tokens[i]? = some t ∧ (∃ tree, Tree.parse (tokens.take i) = .ok tree) ∧
      ∀ j > i, ¬∃ tree, Tree.parse (tokens.take j) = .ok tree := by
  obtain ⟨ts,hts,hread⟩ := (repeated_stmt_reads (Inner.reading_upTo maxNesting) ⟨tokens, none⟩).1
  rcases hr : repeated (stmt (.upTo maxNesting)) tokens ⟨tokens, none⟩ with ⟨stmts, ⟨left, deep⟩⟩
  simp only [hr] at hts hread
  simp only [Tree.parse, statements, Bool.false_eq_true, if_false, Option.toList_none, List.nil_append, hr] at h
  rcases deep with _ | _
  · cases left with
    | nil => cases h
    | cons u left =>
      cases h
      refine ⟨ts.length,by simp [hts],?_,?_⟩
      · rw [hts, List.take_left]
        exact ⟨_,Tree.parse_of_reads hread⟩
      · rintro j hj ⟨tree,hparse⟩
        obtain ⟨longer,_,hlonger⟩ := Tree.reads_of_parse hparse
        have hreached : ReachesAll (stmt (.upTo maxNesting)) (tokens.take j) (tokens.drop j) := hlonger.spans _
        have hsplit : repeated (stmt (.upTo maxNesting)) tokens ⟨tokens.take j ++ tokens.drop j, none⟩ =
            (stmts, ⟨t :: left, none⟩) := by
          rw [List.take_append_drop]
          exact hr
        have hle : (t :: left).length ≤ (tokens.drop j).length :=
          (hreached tokens (List.length_take_le' j tokens) _ _ hsplit).length_le
        have htotal := congrArg List.length hts
        rw [List.length_append] at htotal
        rw [List.length_drop, List.length_cons] at hle
        rw [List.length_cons] at htotal
        omega
  · cases h

/-- The tokens of `x - (a b] c`: the block is closed by the wrong bracket, so neither it nor the operator in front of it
belongs to a program. -/
def unclosedTokens : List Token :=
  [⟨.bol, 0, 1, "", ""⟩, ⟨.word .symbol, 0, 1, "", "x"⟩, ⟨.word .inop1, 2, 1, " ", "-"⟩,
    ⟨.opening .paren, 4, 1, " ", "("⟩, ⟨.word .symbol, 5, 1, "", "a"⟩, ⟨.word .symbol, 7, 1, " ", "b"⟩,
    ⟨.closing .bracket, 8, 1, "", "]"⟩, ⟨.word .symbol, 10, 1, " ", "c"⟩]

theorem trailingInput_after_longest_program_unclosed :
    Tree.parse unclosedTokens = .error (.trailingInput ⟨.word .inop1, 2, 1, " ", "-"⟩) ∧
      ∃ i, unclosedTokens[i]? = some ⟨.word .inop1, 2, 1, " ", "-"⟩ ∧
        (∃ tree, Tree.parse (unclosedTokens.take i) = .ok tree) ∧
        ∀ j > i, ¬∃ tree, Tree.parse (unclosedTokens.take j) = .ok tree :=
  ⟨rfl,trailingInput_after_longest_program rfl⟩

end Gapscript
