import Gapscript.Tree.Parse

/-! # The parser and its cursor

The rules take what is left of the tokens and how many levels are left. The same rules can be told of one cursor that
moves over all tokens: each rule puts the cursor back by itself, and a nested construct counts its level while it is read.
Told in this way, a rule that does not match leaves the cursor where it was and one that matches moves it on. So every run
comes to an end, and what it does to the cursor the rules do to the tokens that are left.
-/
namespace Gapscript.Parse

/-- The index of the next token, the number of nested constructs around it, and the index where one was first refused for
its depth. -/
structure Cursor where
  pos : Nat
  depth : Nat
  tooDeep : Option Nat

/-- The three rules for operands with an operator between them. -/
inductive Tier where
  | zero
  | one
  | two

def Tier.context : Tier → Context
  | zero => .inop0
  | one => .inop1
  | two => .inop2

/-- The rules as routines that move the cursor. -/
inductive Routine where
  | stmt
  | implicitStmt
  | infixed (tier : Tier)
  | exprApply
  | exprPre
  | exprPost
  | operand
  | block
  | delimited (b : Bracket)

/-- The operands of a tier. -/
def Tier.operand : Tier → Routine
  | zero => .infixed one
  | one => .exprApply
  | two => .exprPre

/-- What takes a level when it stands inside of something else. -/
inductive Construct where
  | infixed (tier : Tier)
  | delimited (b : Bracket)

def Construct.routine : Construct → Routine
  | infixed tier => .infixed tier
  | delimited b => .delimited b

inductive Call where
  /-- Read the next token if its kind is as expected. -/
  | expect (p : Token.Kind → Bool)
  | routine (r : Routine)
  | nested (k : Construct)
  /-- The rule again and again until it does not match. -/
  | loop (r : Routine)
  | stmts (inBlock : Bool)

/-- The kind is that of a symbol or a string. -/
def isLiteral (k : Token.Kind) : Bool := k = .word .symbol || k.isString

/-- How a call moves the cursor, and whether it matches. -/
inductive Runs (tokens : List Token) : Call → Cursor → (matched : Bool) → Cursor → Prop where
  | expect {p : Token.Kind → Bool} {c : Cursor} {t : Token} (ht : tokens[c.pos]? = some t) (hp : p t.kind) :
      Runs tokens (.expect p) c true { c with pos := c.pos + 1 }
  | unexpected {p : Token.Kind → Bool} {c : Cursor} (h : ∀ t, tokens[c.pos]? = some t → p t.kind = false) :
      Runs tokens (.expect p) c false c
  | passed {k : Construct} {c : Cursor} (h : c.tooDeep.isSome) : Runs tokens (.nested k) c false c
  | refused {k : Construct} {c : Cursor} (h : c.tooDeep = none) (hdepth : maxNesting ≤ c.depth) :
      Runs tokens (.nested k) c false { c with tooDeep := some c.pos }
  | nested {k : Construct} {c c' : Cursor} {m : Bool} (h : c.tooDeep = none) (hdepth : c.depth < maxNesting)
      (body : Runs tokens (.routine k.routine) { c with depth := c.depth + 1 } m c') :
      Runs tokens (.nested k) c m { c' with depth := c'.depth - 1 }
  | loopEnd {r : Routine} {c c' : Cursor} (last : Runs tokens (.routine r) c false c') : Runs tokens (.loop r) c true c'
  | loopNext {r : Routine} {c c₁ c₂ : Cursor} (head : Runs tokens (.routine r) c true c₁)
      (tail : Runs tokens (.loop r) c₁ true c₂) : Runs tokens (.loop r) c true c₂
  | stmtsTop {c c' : Cursor} (lines : Runs tokens (.loop .stmt) c true c') : Runs tokens (.stmts false) c true c'
  | stmtsBlock {c c₁ c₂ : Cursor} {m : Bool} (first : Runs tokens (.routine .implicitStmt) c m c₁)
      (lines : Runs tokens (.loop .stmt) c₁ true c₂) : Runs tokens (.stmts true) c true c₂
  | stmtNone {c c' : Cursor} (bol : Runs tokens (.expect (· = .bol)) c false c') : Runs tokens (.routine .stmt) c false c'
  | stmt {c c₁ c₂ : Cursor} {m : Bool} (bol : Runs tokens (.expect (· = .bol)) c true c₁)
      (expr : Runs tokens (.routine (.infixed .zero)) c₁ m c₂) : Runs tokens (.routine .stmt) c true c₂
  | implicitStmtNone {c : Cursor} (h : ∀ t, tokens[c.pos]? = some t → t.kind = .bol) :
      Runs tokens (.routine .implicitStmt) c false c
  | implicitStmt {c c' : Cursor} {t : Token} {m : Bool} (ht : tokens[c.pos]? = some t) (hbol : t.kind ≠ .bol)
      (expr : Runs tokens (.routine (.infixed .zero)) c m c') : Runs tokens (.routine .implicitStmt) c m c'
  | infixedNone {tier : Tier} {c c' : Cursor} (left : Runs tokens (.routine tier.operand) c false c') :
      Runs tokens (.routine (.infixed tier)) c false c'
  | infixedSingle {tier : Tier} {c c₁ c₂ : Cursor} (left : Runs tokens (.routine tier.operand) c true c₁)
      (op : Runs tokens (.expect (· = .word tier.context)) c₁ false c₂) :
      Runs tokens (.routine (.infixed tier)) c true c₂
  | infixedBack {tier : Tier} {c c₁ c₂ c₃ : Cursor} (left : Runs tokens (.routine tier.operand) c true c₁)
      (op : Runs tokens (.expect (· = .word tier.context)) c₁ true c₂)
      (right : Runs tokens (.nested (.infixed tier)) c₂ false c₃) :
      Runs tokens (.routine (.infixed tier)) c true { c₃ with pos := c₁.pos }
  | infixed {tier : Tier} {c c₁ c₂ c₃ : Cursor} (left : Runs tokens (.routine tier.operand) c true c₁)
      (op : Runs tokens (.expect (· = .word tier.context)) c₁ true c₂)
      (right : Runs tokens (.nested (.infixed tier)) c₂ true c₃) : Runs tokens (.routine (.infixed tier)) c true c₃
  | exprApplyNone {c c' : Cursor} (callee : Runs tokens (.routine (.infixed .two)) c false c') :
      Runs tokens (.routine .exprApply) c false c'
  | exprApply {c c₁ c₂ : Cursor} (callee : Runs tokens (.routine (.infixed .two)) c true c₁)
      (args : Runs tokens (.loop (.infixed .two)) c₁ true c₂) : Runs tokens (.routine .exprApply) c true c₂
  | exprPrefixed {c c₁ c₂ : Cursor} (op : Runs tokens (.expect (· = .word .preop)) c true c₁)
      (expr : Runs tokens (.routine .exprPost) c₁ true c₂) : Runs tokens (.routine .exprPre) c true c₂
  | exprPreBack {c c₁ c₂ : Cursor} (op : Runs tokens (.expect (· = .word .preop)) c true c₁)
      (expr : Runs tokens (.routine .exprPost) c₁ false c₂) :
      Runs tokens (.routine .exprPre) c false { c₂ with pos := c.pos }
  | exprPre {c c₁ c₂ : Cursor} {m : Bool} (op : Runs tokens (.expect (· = .word .preop)) c false c₁)
      (expr : Runs tokens (.routine .exprPost) c₁ m c₂) : Runs tokens (.routine .exprPre) c m c₂
  | exprPostNone {c c' : Cursor} (operand : Runs tokens (.routine .operand) c false c') :
      Runs tokens (.routine .exprPost) c false c'
  | exprPost {c c₁ c₂ : Cursor} {m : Bool} (operand : Runs tokens (.routine .operand) c true c₁)
      (op : Runs tokens (.expect (· = .word .postop)) c₁ m c₂) : Runs tokens (.routine .exprPost) c true c₂
  | literal {c c' : Cursor} (atom : Runs tokens (.expect isLiteral) c true c') : Runs tokens (.routine .operand) c true c'
  | operand {c c₁ c₂ : Cursor} {m : Bool} (atom : Runs tokens (.expect isLiteral) c false c₁)
      (block : Runs tokens (.routine .block) c₁ m c₂) : Runs tokens (.routine .operand) c m c₂
  | blockNone {c : Cursor} (h : ∀ t, tokens[c.pos]? = some t → ∀ b, t.kind ≠ .opening b) :
      Runs tokens (.routine .block) c false c
  | block {c c' : Cursor} {t : Token} {b : Bracket} {m : Bool} (ht : tokens[c.pos]? = some t)
      (hb : t.kind = .opening b) (body : Runs tokens (.nested (.delimited b)) c m c') : Runs tokens (.routine .block) c m c'
  | delimitedNone {b : Bracket} {c c' : Cursor} (o : Runs tokens (.expect (· = .opening b)) c false c') :
      Runs tokens (.routine (.delimited b)) c false c'
  | delimitedBack {b : Bracket} {c c₁ c₂ c₃ : Cursor} (o : Runs tokens (.expect (· = .opening b)) c true c₁)
      (body : Runs tokens (.stmts true) c₁ true c₂) (close : Runs tokens (.expect (· = .closing b)) c₂ false c₃) :
      Runs tokens (.routine (.delimited b)) c false { c₃ with pos := c.pos }
  | delimited {b : Bracket} {c c₁ c₂ c₃ : Cursor} (o : Runs tokens (.expect (· = .opening b)) c true c₁)
      (body : Runs tokens (.stmts true) c₁ true c₂) (close : Runs tokens (.expect (· = .closing b)) c₂ true c₃) :
      Runs tokens (.routine (.delimited b)) c true c₃

/-! ## Where the cursor is afterwards -/

/-- Loops match also if their rule does not match once. -/
def Call.reads : Call → Bool
  | .loop _ | .stmts _ => false
  | _ => true

/-- The cursor may have moved forward, inside of the tokens, and a refusal may have been noted. -/
structure Moves (tokens : List Token) (c c' : Cursor) : Prop where
  depth : c'.depth = c.depth
  refusal (i : Nat) (h : c.tooDeep = some i) : c'.tooDeep = some i
  forward : c.pos ≤ c'.pos
  within (h : c.pos < c'.pos) : c'.pos ≤ tokens.length

/-- The cursor is where it was if the call does not match and further on if it does. -/
structure Kept (tokens : List Token) (call : Call) (c : Cursor) (m : Bool) (c' : Cursor) : Prop
    extends Moves tokens c c' where
  unmatched (h : m = false) : c'.pos = c.pos
  progress (h : m = true) (hcall : call.reads) : c.pos < c'.pos

variable {tokens : List Token} {call first second : Call} {c c₁ c₂ c' : Cursor} {m : Bool}

namespace Moves

theorem refl (c : Cursor) : Moves tokens c c := ⟨rfl,fun _ => id,Nat.le_refl _,fun h => absurd h (Nat.lt_irrefl _)⟩

theorem trans (h : Moves tokens c c₁) (h' : Moves tokens c₁ c₂) : Moves tokens c c₂ where
  depth := h'.depth.trans h.depth
  refusal i hi := h'.refusal i (h.refusal i hi)
  forward := Nat.le_trans h.forward h'.forward
  within hpos := by
    have := h.within
    have := h'.within
    have := h'.forward
    omega

/-- The cursor is put back to where it was on the way. -/
theorem back (h : Moves tokens c c₁) (h' : Moves tokens c₁ c₂) : Moves tokens c { c₂ with pos := c₁.pos } where
  depth := h'.depth.trans h.depth
  refusal i hi := h'.refusal i (h.refusal i hi)
  forward := h.forward
  within := h.within

end Moves

namespace Kept

theorem stays (c : Cursor) : Kept tokens call c false c := ⟨.refl c,fun _ => rfl,fun h => Bool.noConfusion h⟩

/-- A call that matches even if it reads nothing. -/
theorem anyway (hcall : call.reads = false) (h : Moves tokens c c') : Kept tokens call c true c' where
  toMoves := h
  unmatched h := Bool.noConfusion h
  progress _ hreads := Bool.noConfusion (hcall.symm.trans hreads)

/-- A call that does not match as its first part does not. -/
theorem none (h : Kept tokens first c false c') : Kept tokens call c false c' :=
  ⟨h.toMoves,h.unmatched,fun h => Bool.noConfusion h⟩

/-- A call that matches once its first part has. -/
theorem andThen (h : Kept tokens first c true c₁) (hfirst : first.reads) (h' : Moves tokens c₁ c₂) :
    Kept tokens call c true c₂ where
  toMoves := h.toMoves.trans h'
  unmatched h := Bool.noConfusion h
  progress _ _ := Nat.lt_of_lt_of_le (h.progress rfl hfirst) h'.forward

/-- A call that matches if its second part does, as the first has not. -/
theorem orElse (h : Kept tokens first c false c₁) (h' : Kept tokens second c₁ m c₂) (hsecond : second.reads) :
    Kept tokens call c m c₂ where
  toMoves := h.toMoves.trans h'.toMoves
  unmatched hm := (h'.unmatched hm).trans (h.unmatched rfl)
  progress hm _ := Nat.lt_of_le_of_lt h.forward (h'.progress hm hsecond)

/-- A call that does not match although its first parts do. -/
theorem giveUp (h : Moves tokens c c₁) : Kept tokens call c false { c₁ with pos := c.pos } :=
  ⟨(Moves.refl c).back h,fun _ => rfl,fun h => Bool.noConfusion h⟩

end Kept

theorem Runs.kept (h : Runs tokens call c m c') : Kept tokens call c m c' := by
  induction h with
  | @expect p c t ht hp =>
    have hpos := (List.getElem?_eq_some_iff.mp ht).1
    exact ⟨⟨rfl,fun _ => id,Nat.le_succ _,fun _ => hpos⟩,fun h => Bool.noConfusion h,fun _ _ => Nat.lt_succ_self _⟩
  | unexpected | passed | implicitStmtNone | blockNone => exact .stays _
  | @refused k c h hdepth =>
    have hrefusal (i : Nat) (hi : c.tooDeep = some i) : some c.pos = some i := by cases h.symm.trans hi
    exact ⟨⟨rfl,hrefusal,Nat.le_refl _,fun hpos => absurd hpos (Nat.lt_irrefl _)⟩,fun _ => rfl,
      fun h => Bool.noConfusion h⟩
  | nested h hdepth body ih =>
    exact ⟨⟨by simp [ih.depth],ih.refusal,ih.forward,ih.within⟩,ih.unmatched,fun hm _ => ih.progress hm rfl⟩
  | loopEnd _ ih | stmtsTop _ ih => exact .anyway rfl ih.toMoves
  | loopNext _ _ ih₁ ih₂ => exact ih₁.andThen rfl ih₂.toMoves
  | stmtsBlock _ _ ih₁ ih₂ => exact .anyway rfl (ih₁.toMoves.trans ih₂.toMoves)
  | stmtNone _ ih | infixedNone _ ih | exprApplyNone _ ih | exprPostNone _ ih | delimitedNone _ ih => exact ih.none
  | stmt _ _ ih₁ ih₂ | infixedSingle _ _ ih₁ ih₂ | exprApply _ _ ih₁ ih₂ | exprPrefixed _ _ ih₁ ih₂
  | exprPost _ _ ih₁ ih₂ => exact ih₁.andThen rfl ih₂.toMoves
  | implicitStmt _ _ _ ih | block _ _ _ ih => exact ⟨ih.toMoves,ih.unmatched,fun hm _ => ih.progress hm rfl⟩
  | literal _ ih => exact ih.andThen rfl (.refl _)
  | infixedBack _ _ _ ih₁ ih₂ ih₃ =>
    exact ih₁.andThen rfl ((Moves.refl _).back (ih₂.toMoves.trans ih₃.toMoves))
  | infixed _ _ _ ih₁ ih₂ ih₃ | delimited _ _ _ ih₁ ih₂ ih₃ =>
    exact ih₁.andThen rfl (ih₂.toMoves.trans ih₃.toMoves)
  | exprPreBack _ _ ih₁ ih₂ => exact .giveUp (ih₁.toMoves.trans ih₂.toMoves)
  | delimitedBack _ _ _ ih₁ ih₂ ih₃ => exact .giveUp (ih₁.toMoves.trans (ih₂.toMoves.trans ih₃.toMoves))
  | exprPre _ _ ih₁ ih₂ | operand _ _ ih₁ ih₂ => exact ih₁.orElse ih₂ rfl

/-! ## Every run ends -/

theorem Runs.unique {n : Bool} {d : Cursor} (h : Runs tokens call c m c') (h' : Runs tokens call c n d) :
    n = m ∧ d = c' := by
  -- What the first parts of a call do decides between its branches, and in that the two runs agree by induction.
  induction h generalizing n d <;> cases h' <;> grind

theorem Runs.iff {n : Bool} {d : Cursor} (h : Runs tokens call c m c') : Runs tokens call c n d ↔ n = m ∧ d = c' := by
  constructor
  · exact h.unique
  · rintro ⟨rfl,rfl⟩
    exact h

def Halts (tokens : List Token) (call : Call) (c : Cursor) : Prop := ∃ m c', Runs tokens call c m c'

/-- Everything halts where fewer than `k` tokens are left. -/
def HaltsAhead (tokens : List Token) (k : Nat) : Prop :=
  ∀ (call : Call) (c : Cursor), tokens.length - c.pos < k → Halts tokens call c

theorem Runs.fewer (h : Runs tokens call c true c') (hcall : call.reads) :
    tokens.length - c'.pos < tokens.length - c.pos := by
  have hprogress := h.kept.progress rfl hcall
  have hwithin := h.kept.within hprogress
  omega

theorem Runs.matched (h : Runs tokens call c m c') (hcall : call.reads = false) : m = true := by
  cases h with
  | loopEnd | loopNext | stmtsTop | stmtsBlock => rfl
  | _ => cases hcall

theorem halts_expect (tokens : List Token) (p : Token.Kind → Bool) (c : Cursor) : Halts tokens (.expect p) c := by
  by_cases h : ∃ t, tokens[c.pos]? = some t ∧ p t.kind
  · obtain ⟨t,ht,hp⟩ := h
    exact ⟨_,_,.expect ht hp⟩
  · exact ⟨_,_,.unexpected fun t ht => Bool.eq_false_iff.mpr fun hp => h ⟨t,ht,hp⟩⟩

theorem halts_nested {k : Construct} (h : Halts tokens (.routine k.routine) { c with depth := c.depth + 1 }) :
    Halts tokens (.nested k) c := by
  cases hdeep : c.tooDeep with
  | some i => exact ⟨_,_,.passed (by rw [hdeep]; rfl)⟩
  | none =>
    by_cases hdepth : c.depth < maxNesting
    · obtain ⟨m,c',hbody⟩ := h
      exact ⟨_,_,.nested hdeep hdepth hbody⟩
    · exact ⟨_,_,.refused hdeep (Nat.le_of_not_lt hdepth)⟩

section Ahead

variable {k : Nat}

/-- Whatever follows a part that has read something. -/
theorem HaltsAhead.after (hk : HaltsAhead tokens k) (hc : tokens.length - c.pos ≤ k) (h : Runs tokens first c true c₁)
    (hfirst : first.reads) (call : Call) : Halts tokens call c₁ :=
  hk call c₁ (Nat.lt_of_lt_of_le (h.fewer hfirst) hc)

theorem halts_delimited (hk : HaltsAhead tokens k) (hc : tokens.length - c.pos ≤ k) (b : Bracket) :
    Halts tokens (.routine (.delimited b)) c := by
  obtain ⟨m,c₁,ho⟩ := halts_expect tokens (· = .opening b) c
  cases m with
  | false => exact ⟨_,_,.delimitedNone ho⟩
  | true =>
    obtain ⟨_,c₂,hbody⟩ := hk.after hc ho rfl (.stmts true)
    cases hbody.matched rfl
    obtain ⟨m,c₃,hclose⟩ := halts_expect tokens (· = .closing b) c₂
    cases m with
    | false => exact ⟨_,_,.delimitedBack ho hbody hclose⟩
    | true => exact ⟨_,_,.delimited ho hbody hclose⟩

theorem halts_block (hk : HaltsAhead tokens k) (hc : tokens.length - c.pos ≤ k) : Halts tokens (.routine .block) c := by
  by_cases h : ∃ t b, tokens[c.pos]? = some t ∧ t.kind = .opening b
  · obtain ⟨t,b,ht,hb⟩ := h
    have hinside := halts_delimited (c := { c with depth := c.depth + 1 }) hk hc b
    obtain ⟨m,c',hbody⟩ := halts_nested (k := .delimited b) hinside
    exact ⟨_,_,.block ht hb hbody⟩
  · exact ⟨_,_,.blockNone fun t ht b hb => h ⟨t,b,ht,hb⟩⟩

theorem halts_operand (hk : HaltsAhead tokens k) (hc : tokens.length - c.pos ≤ k) :
    Halts tokens (.routine .operand) c := by
  obtain ⟨m,c₁,hatom⟩ := halts_expect tokens isLiteral c
  cases m with
  | true => exact ⟨_,_,.literal hatom⟩
  | false =>
    obtain ⟨m,c₂,hblock⟩ := halts_block (c := c₁) hk (hatom.kept.unmatched rfl ▸ hc)
    exact ⟨_,_,.operand hatom hblock⟩

theorem halts_exprPost (hk : HaltsAhead tokens k) (hc : tokens.length - c.pos ≤ k) :
    Halts tokens (.routine .exprPost) c := by
  obtain ⟨m,c₁,hoperand⟩ := halts_operand hk hc
  cases m with
  | false => exact ⟨_,_,.exprPostNone hoperand⟩
  | true =>
    obtain ⟨m,c₂,hop⟩ := halts_expect tokens (· = .word .postop) c₁
    exact ⟨_,_,.exprPost hoperand hop⟩

theorem halts_exprPre (hk : HaltsAhead tokens k) (hc : tokens.length - c.pos ≤ k) :
    Halts tokens (.routine .exprPre) c := by
  obtain ⟨m,c₁,hop⟩ := halts_expect tokens (· = .word .preop) c
  cases m with
  | false =>
    obtain ⟨m,c₂,hexpr⟩ := halts_exprPost (c := c₁) hk (hop.kept.unmatched rfl ▸ hc)
    exact ⟨_,_,.exprPre hop hexpr⟩
  | true =>
    obtain ⟨m,c₂,hexpr⟩ := hk.after hc hop rfl (.routine .exprPost)
    cases m with
    | false => exact ⟨_,_,.exprPreBack hop hexpr⟩
    | true => exact ⟨_,_,.exprPrefixed hop hexpr⟩

theorem halts_infixed {tier : Tier} (hk : HaltsAhead tokens k) (hc : tokens.length - c.pos ≤ k)
    (h : Halts tokens (.routine tier.operand) c) : Halts tokens (.routine (.infixed tier)) c := by
  obtain ⟨m,c₁,hleft⟩ := h
  cases m with
  | false => exact ⟨_,_,.infixedNone hleft⟩
  | true =>
    obtain ⟨m,c₂,hop⟩ := halts_expect tokens (· = .word tier.context) c₁
    cases m with
    | false => exact ⟨_,_,.infixedSingle hleft hop⟩
    | true =>
      have hc₁ := Nat.le_trans (Nat.le_of_lt (hleft.fewer rfl)) hc
      obtain ⟨m,c₃,hright⟩ := hk.after hc₁ hop rfl (.nested (.infixed tier))
      cases m with
      | false => exact ⟨_,_,.infixedBack hleft hop hright⟩
      | true => exact ⟨_,_,.infixed hleft hop hright⟩

theorem halts_exprApply (hk : HaltsAhead tokens k) (hc : tokens.length - c.pos ≤ k) :
    Halts tokens (.routine .exprApply) c := by
  have hchain : Halts tokens (.routine (.infixed .two)) c := halts_infixed hk hc (halts_exprPre hk hc)
  obtain ⟨m,c₁,hcallee⟩ := hchain
  cases m with
  | false => exact ⟨_,_,.exprApplyNone hcallee⟩
  | true =>
    obtain ⟨_,c₂,hargs⟩ := hk.after hc hcallee rfl (.loop (.infixed .two))
    cases hargs.matched rfl
    exact ⟨_,_,.exprApply hcallee hargs⟩

theorem halts_routine (hk : HaltsAhead tokens k) (hc : tokens.length - c.pos ≤ k) (r : Routine) :
    Halts tokens (.routine r) c := by
  have hone : Halts tokens (.routine (.infixed .one)) c := halts_infixed hk hc (halts_exprApply hk hc)
  have hzero : Halts tokens (.routine (.infixed .zero)) c := halts_infixed hk hc hone
  cases r with
  | infixed tier =>
    cases tier with
    | zero => exact hzero
    | one => exact hone
    | two => exact halts_infixed hk hc (halts_exprPre hk hc)
  | exprApply => exact halts_exprApply hk hc
  | exprPre => exact halts_exprPre hk hc
  | exprPost => exact halts_exprPost hk hc
  | operand => exact halts_operand hk hc
  | block => exact halts_block hk hc
  | delimited b => exact halts_delimited hk hc b
  | implicitStmt =>
    by_cases h : ∃ t, tokens[c.pos]? = some t ∧ t.kind ≠ .bol
    · obtain ⟨t,ht,hbol⟩ := h
      obtain ⟨m,c',hexpr⟩ := hzero
      exact ⟨_,_,.implicitStmt ht hbol hexpr⟩
    · exact ⟨_,_,.implicitStmtNone fun t ht => Classical.byContradiction fun hbol => h ⟨t,ht,hbol⟩⟩
  | stmt =>
    obtain ⟨m,c₁,hbol⟩ := halts_expect tokens (· = .bol) c
    cases m with
    | false => exact ⟨_,_,.stmtNone hbol⟩
    | true =>
      obtain ⟨m,c₂,hexpr⟩ := hk.after hc hbol rfl (.routine (.infixed .zero))
      exact ⟨_,_,.stmt hbol hexpr⟩

theorem halts_loop (hk : HaltsAhead tokens k) (hc : tokens.length - c.pos ≤ k) (r : Routine) :
    Halts tokens (.loop r) c := by
  obtain ⟨m,c₁,hhead⟩ := halts_routine hk hc r
  cases m with
  | false => exact ⟨_,_,.loopEnd hhead⟩
  | true =>
    obtain ⟨_,c₂,htail⟩ := hk.after hc hhead rfl (.loop r)
    cases htail.matched rfl
    exact ⟨_,_,.loopNext hhead htail⟩

theorem halts_stmts (hk : HaltsAhead tokens k) (hc : tokens.length - c.pos ≤ k) (inBlock : Bool) :
    Halts tokens (.stmts inBlock) c := by
  cases inBlock with
  | false =>
    obtain ⟨_,c',hlines⟩ := halts_loop hk hc .stmt
    cases hlines.matched rfl
    exact ⟨_,_,.stmtsTop hlines⟩
  | true =>
    obtain ⟨m,c₁,hfirst⟩ := halts_routine hk hc .implicitStmt
    have hc₁ : tokens.length - c₁.pos ≤ k := Nat.le_trans (Nat.sub_le_sub_left hfirst.kept.forward _) hc
    obtain ⟨_,c₂,hlines⟩ := halts_loop hk hc₁ .stmt
    cases hlines.matched rfl
    exact ⟨_,_,.stmtsBlock hfirst hlines⟩

end Ahead

theorem haltsAhead (tokens : List Token) (k : Nat) : HaltsAhead tokens k := by
  induction k with
  | zero => exact fun _ _ h => absurd h (Nat.not_lt_zero _)
  | succ k hk =>
    intro call c h
    have hc := Nat.le_of_lt_succ h
    cases call with
    | expect p => exact halts_expect tokens p c
    | routine r => exact halts_routine hk hc r
    | nested k => exact halts_nested (halts_routine (c := { c with depth := c.depth + 1 }) hk hc k.routine)
    | loop r => exact halts_loop hk hc r
    | stmts inBlock => exact halts_stmts hk hc inBlock

theorem halts (tokens : List Token) (call : Call) (c : Cursor) : Halts tokens call c :=
  haltsAhead tokens (tokens.length - c.pos + 1) call c (Nat.lt_succ_self _)

/-! ## The rules as they are run -/

/-- What is left after the cursor, and after the place of the refusal. -/
def Cursor.state (tokens : List Token) (c : Cursor) : State := ⟨tokens.drop c.pos, c.tooDeep.map tokens.drop⟩

/-- Whether a rule matches, and the state after it. -/
def recognise {α : Type} (p : Parse α) (s : State) : Bool × State := ((p s).1.isSome, (p s).2)

def Routine.recognise (inner : Inner) : Routine → State → Bool × State
  | .stmt => Parse.recognise (Parse.stmt inner)
  | .implicitStmt => Parse.recognise (Parse.implicitStmt inner)
  | .infixed .zero => Parse.recognise (Parse.expr0 inner)
  | .infixed .one => Parse.recognise (Parse.chain1 inner)
  | .infixed .two => Parse.recognise (Parse.chain2 inner)
  | .exprApply => Parse.recognise (Parse.exprApply inner)
  | .exprPre => Parse.recognise (Parse.exprPre inner)
  | .exprPost => Parse.recognise (Parse.exprPost inner)
  | .operand => Parse.recognise (Parse.operand inner)
  | .block => Parse.recognise (Parse.block inner)
  | .delimited b => Parse.recognise (Parse.delimited inner b)

def Construct.recognise (inner : Inner) : Construct → State → Bool × State
  | .infixed .zero => Parse.recognise (Parse.nested inner.expr0)
  | .infixed .one => Parse.recognise (Parse.nested inner.chain1)
  | .infixed .two => Parse.recognise (Parse.nested inner.chain2)
  | .delimited b => Parse.recognise (Parse.nested (inner.delimited b))

/-- A rule again and again while it matches, at most once for each token of `clock`. -/
def whileMatches (f : State → Bool × State) : (clock : List Token) → State → State
  | [], s => s
  | _ :: clock, s =>
    match f s with
    | (false, s') => s'
    | (true, s') => whileMatches f clock s'

section Recognise

variable {α β : Type} {p : Parse α} {f : α → Parse β} {a : α} {q : Token → Bool} {s s' s'' : State}

theorem recognise_eq_true : recognise p s = (true, s') ↔ ∃ a, p s = (some a, s') := by
  rcases h : p s with ⟨_ | a, t⟩ <;> simp [recognise, h]

theorem recognise_eq_false : recognise p s = (false, s') ↔ p s = (none, s') := by
  rcases h : p s with ⟨_ | a, t⟩ <;> simp [recognise, h]

theorem recognise_bind_none (h : recognise p s = (false, s')) : recognise (p >>= f) s = (false, s') := by
  rw [recognise_eq_false] at h ⊢
  simp only [Bind.bind, Parse.bind, h]

theorem recognise_bind_of (h : p s = (some a, s')) (hf : recognise (f a) s' = (m, s'')) :
    recognise (p >>= f) s = (m, if m then s'' else { s'' with rest := s.rest }) := by
  rcases hb : f a s' with ⟨_ | b, t⟩ <;> simp only [recognise, hb] at hf <;> cases hf <;>
    simp [recognise, Bind.bind, Parse.bind, h, hb]

theorem recognise_bind (h : recognise p s = (true, s')) (hf : ∀ a, recognise (f a) s' = (true, s'')) :
    recognise (p >>= f) s = (true, s'') := by
  obtain ⟨a,ha⟩ := recognise_eq_true.mp h
  exact recognise_bind_of ha (hf a)

theorem recognise_bind_back (h : recognise p s = (true, s')) (hf : ∀ a, recognise (f a) s' = (false, s'')) :
    recognise (p >>= f) s = (false, { s'' with rest := s.rest }) := by
  obtain ⟨a,ha⟩ := recognise_eq_true.mp h
  exact recognise_bind_of ha (hf a)

/-- There is nothing to give back if the first part has read nothing. -/
theorem recognise_bind_same (h : p s = (some a, s')) (hf : recognise (f a) s' = (m, s''))
    (hrest : m = false → s''.rest = s.rest) : recognise (p >>= f) s = (m, s'') := by
  have hbind := recognise_bind_of h hf
  cases m with
  | true => exact hbind
  | false => rwa [← hrest rfl] at hbind

theorem recognise_map (h : recognise p s = (m, s')) (hf : ∀ a, recognise (f a) s' = (true, s')) :
    recognise (p >>= f) s = (m, s') := by
  cases m with
  | true => exact recognise_bind h hf
  | false => exact recognise_bind_none h

theorem recognise_optional (h : recognise p s = (m, s')) : recognise (optional p) s = (true, s') := by
  simp only [recognise, Prod.mk.injEq] at h
  simp [recognise, optional, h.2]

theorem optional_some (h : recognise p s = (true, s')) : ∃ a, optional p s = (some (some a), s') := by
  obtain ⟨a,ha⟩ := recognise_eq_true.mp h
  exact ⟨a,by simp only [optional, ha]⟩

theorem optional_none (h : recognise p s = (false, s')) : optional p s = (some none, s') := by
  simp only [optional, recognise_eq_false.mp h]

theorem recognise_tokenIf {t : Token} {rest : List Token} (hs : s.rest = t :: rest) (hq : q t) :
    recognise (tokenIf q) s = (true, { s with rest := rest }) := by
  simp [recognise, tokenIf, hs, hq]

theorem recognise_tokenIf_none (hq : ∀ t, s.rest.head? = some t → q t = false) :
    recognise (tokenIf q) s = (false, s) := by
  rcases hs : s.rest with _ | ⟨t, rest⟩
  · simp [recognise, tokenIf, hs]
  · simp [recognise, tokenIf, hs, hq t (by rw [hs]; rfl)]

theorem peek_of_head? {t : Token} (h : s.rest.head? = some t) : peek s = (some t, s) := by rw [peek, h]

theorem recognise_peek_none {f : Token → Parse β} (h : s.rest.head? = none) : recognise (peek >>= f) s = (false, s) :=
  recognise_bind_none (recognise_eq_false.mpr (by rw [peek, h]))

theorem repeated_eq_whileMatches (clock : List Token) (s : State) :
    (repeated p clock s).2 = whileMatches (recognise p) clock s := by
  induction clock generalizing s with
  | nil => rfl
  | cons _ clock ih => rcases h : p s with ⟨_ | a, t⟩ <;> simp [repeated, whileMatches, recognise, h, ih]

end Recognise

/-! ## Operators between operands -/

/-- An operator and what stands to the right of it. -/
def operatorAndRight {β : Type} (context : Context) (more : Parse β) : Parse (Token × β) := do
  let op ← token (.word context)
  let right ← nested more
  return (op, right)

/-- Whether an operator of the tier follows with something to the right of it. -/
def Tier.recogniseRight (inner : Inner) : Tier → State → Bool × State
  | zero => recognise (operatorAndRight .inop0 inner.expr0)
  | one => recognise (operatorAndRight .inop1 inner.chain1)
  | two => recognise (operatorAndRight .inop2 inner.chain2)

section Infixed

variable {inner : Inner} {tier : Tier} {s s₁ s₂ : State}

theorem recogniseRight_none (h : recognise (token (.word tier.context)) s = (false, s₁)) :
    tier.recogniseRight inner s = (false, s₁) := by
  cases tier <;> exact recognise_bind_none h

theorem recogniseRight_back (h : recognise (token (.word tier.context)) s = (true, s₁))
    (hright : (Construct.infixed tier).recognise inner s₁ = (false, s₂)) :
    tier.recogniseRight inner s = (false, { s₂ with rest := s.rest }) := by
  cases tier <;> exact recognise_bind_back h fun _ => recognise_bind_none hright

theorem recogniseRight_some (h : recognise (token (.word tier.context)) s = (true, s₁))
    (hright : (Construct.infixed tier).recognise inner s₁ = (true, s₂)) :
    tier.recogniseRight inner s = (true, s₂) := by
  cases tier <;> exact recognise_bind h fun _ => recognise_bind hright fun _ => rfl

theorem recognise_infixed_none (h : tier.operand.recognise inner s = (false, s₁)) :
    (Routine.infixed tier).recognise inner s = (false, s₁) := by
  cases tier with
  | zero => exact recognise_bind_none (recognise_bind_none h)
  | one | two => exact recognise_bind_none h

/-- The operand is enough, but an operator is read with what is to the right of it. -/
theorem recognise_infixed (h : tier.operand.recognise inner s = (true, s₁))
    (hright : tier.recogniseRight inner s₁ = (m, s₂)) : (Routine.infixed tier).recognise inner s = (true, s₂) := by
  cases tier with
  | zero =>
    have hleft : recognise (expr1 inner) s = (true, s₁) := recognise_bind h fun _ => rfl
    refine recognise_bind hleft fun _ => recognise_bind (recognise_optional hright) fun r => ?_
    cases r <;> rfl
  | one | two =>
    refine recognise_bind h fun _ => recognise_bind (recognise_optional hright) fun r => ?_
    cases r <;> rfl

end Infixed

/-! ## The other rules -/

section Agreement

variable {inner : Inner} {n : Nat} {s s' s'' : State} {r : Routine} {clock : List Token}

theorem recognise_nested_passed (k : Construct) (hs : s.tooDeep.isSome) : k.recognise inner s = (false, s) := by
  rcases k with (_ | _ | _) | b <;> simp [Construct.recognise, recognise, nested, hs]

theorem recognise_nested_limit (k : Construct) (hs : s.tooDeep = none) :
    k.recognise (.upTo 0) s = (false, { s with tooDeep := some s.rest }) := by
  rcases k with (_ | _ | _) | b <;> simp [Construct.recognise, recognise, nested, hs, Inner.upTo, Inner.limit, refused]

theorem recognise_nested (k : Construct) (hs : s.tooDeep = none) :
    k.recognise (.upTo (n + 1)) s = k.routine.recognise (.upTo n) s := by
  rcases k with (_ | _ | _) | b <;>
    simp [Construct.recognise, Construct.routine, Routine.recognise, recognise, nested, hs, Inner.upTo, Inner.next]

/-- Behind the last token no rule matches, and none is refused. -/
theorem recognise_of_rest_nil (hs : s.rest = []) : r.recognise inner s = (false, s) := by
  obtain ⟨rest, deep⟩ := s
  cases hs
  rcases r with _ | _ | (_ | _ | _) | _ | _ | _ | _ | _ | b <;> rfl

theorem whileMatches_end (h : r.recognise inner s = (false, s')) (hclock : s.rest.length ≤ clock.length) :
    whileMatches (r.recognise inner) clock s = s' := by
  cases clock with
  | nil =>
    have hs : s.rest = [] := List.length_eq_zero_iff.mp (Nat.le_zero.mp hclock)
    exact (Prod.mk.inj ((recognise_of_rest_nil hs).symm.trans h)).2
  | cons _ clock => simp only [whileMatches, h]

theorem whileMatches_next (h : r.recognise inner s = (true, s')) (hfewer : s'.rest.length < s.rest.length)
    (hclock : s.rest.length ≤ clock.length)
    (htail : ∀ clock : List Token, s'.rest.length ≤ clock.length → whileMatches (r.recognise inner) clock s' = s'') :
    whileMatches (r.recognise inner) clock s = s'' := by
  cases clock with
  | nil => exact absurd (Nat.lt_of_lt_of_le hfewer hclock) (Nat.not_lt_zero _)
  | cons _ clock =>
    simp only [whileMatches, h]
    exact htail clock (Nat.le_of_lt_succ (Nat.lt_of_lt_of_le hfewer hclock))

theorem recognise_implicitStmt {t : Token} (ht : s.rest.head? = some t) (hbol : t.kind ≠ .bol)
    (h : recognise (expr0 inner) s = (m, s')) (hrest : m = false → s'.rest = s.rest) :
    recognise (implicitStmt inner) s = (m, s') := by
  refine recognise_bind_same (peek_of_head? ht) ?_ hrest
  rw [if_neg hbol]
  exact recognise_map h fun _ => rfl

theorem recognise_implicitStmt_none (h : ∀ t, s.rest.head? = some t → t.kind = .bol) :
    recognise (implicitStmt inner) s = (false, s) := by
  cases ht : s.rest.head? with
  | none => exact recognise_peek_none ht
  | some t =>
    refine recognise_bind_same (peek_of_head? ht) ?_ fun _ => rfl
    rw [if_pos (h t ht)]
    rfl

theorem recognise_block {t : Token} {b : Bracket} (ht : s.rest.head? = some t) (hb : t.kind = .opening b)
    (h : recognise (nested (inner.delimited b)) s = (m, s')) (hrest : m = false → s'.rest = s.rest) :
    recognise (block inner) s = (m, s') := by
  refine recognise_bind_same (peek_of_head? ht) ?_ hrest
  rw [hb]
  exact h

theorem recognise_block_none (h : ∀ t, s.rest.head? = some t → ∀ b, t.kind ≠ .opening b) :
    recognise (block inner) s = (false, s) := by
  cases ht : s.rest.head? with
  | none => exact recognise_peek_none ht
  | some t =>
    refine recognise_bind_same (peek_of_head? ht) ?_ fun _ => rfl
    split
    · next b hb => exact absurd hb (h t ht b)
    · rfl

theorem recognise_prefixed (hop : recognise (token (.word .preop)) s = (true, s'))
    (h : recognise (exprPost inner) s' = (m, s'')) :
    recognise (exprPre inner) s = (m, if m then s'' else { s'' with rest := s.rest }) := by
  obtain ⟨t,ht⟩ := optional_some hop
  exact recognise_bind_of ht (recognise_map h fun _ => rfl)

/-- The arguments of an application are as many chains as match. -/
theorem recognise_exprApply (h : recognise (chain2 inner) s = (true, s'))
    (hargs : whileMatches (recognise (chain2 inner)) s'.rest s' = s'') :
    recognise (exprApply inner) s = (true, s'') := by
  have hexpr : recognise (expr2 inner) = recognise (chain2 inner) := by
    funext s
    exact recognise_map rfl fun _ => rfl
  have hmany : recognise (many (expr2 inner)) s' = (true, s'') := by
    rw [← hargs, ← hexpr, ← repeated_eq_whileMatches]
    rfl
  refine recognise_bind (hexpr ▸ h) fun _ => recognise_bind hmany fun args => ?_
  cases args <;> rfl

theorem recognise_stmts_top (h : whileMatches (recognise (stmt inner)) s.rest s = s') :
    recognise (stmts inner false) s = (true, s') := by
  rw [← h, ← repeated_eq_whileMatches]
  rfl

theorem recognise_stmts_block (hfirst : recognise (implicitStmt inner) s = (m, s'))
    (h : whileMatches (recognise (stmt inner)) s'.rest s' = s'') : recognise (stmts inner true) s = (true, s'') := by
  rw [← h, ← repeated_eq_whileMatches, ← (Prod.mk.inj hfirst).2]
  rfl

end Agreement

/-! ## The run of a cursor is the run of the rules -/

theorem Cursor.head?_rest (c : Cursor) : (c.state tokens).rest.head? = tokens[c.pos]? := List.head?_drop

theorem Cursor.length_rest (c : Cursor) : (c.state tokens).rest.length = tokens.length - c.pos := List.length_drop

/-- The call does to the state what the run does to the cursor. The loops of the rules have a clock, and any that has
a token for each of those left will do. -/
def Call.Agrees (n : Nat) : Call → State → Bool → State → Prop
  | .expect p, s, m, s' => recognise (tokenIf (p ·.kind)) s = (m, s')
  | .routine r, s, m, s' => r.recognise (.upTo n) s = (m, s')
  | .nested k, s, m, s' => k.recognise (.upTo n) s = (m, s')
  | .loop r, s, _, s' =>
    ∀ clock : List Token, s.rest.length ≤ clock.length → whileMatches (r.recognise (.upTo n)) clock s = s'
  | .stmts inBlock, s, m, s' => recognise (Parse.stmts (.upTo n) inBlock) s = (m, s')

theorem Runs.agrees {n : Nat} (h : Runs tokens call c m c') (hn : maxNesting - c.depth = n) :
    call.Agrees n (c.state tokens) m (c'.state tokens) := by
  induction h generalizing n with
  | expect ht hp =>
    obtain ⟨hpos,rfl⟩ := List.getElem?_eq_some_iff.mp ht
    exact recognise_tokenIf (List.drop_eq_getElem_cons hpos) hp
  | @unexpected p c h => exact recognise_tokenIf_none fun t ht => h t (c.head?_rest ▸ ht)
  | passed h => exact recognise_nested_passed _ (by simpa [Cursor.state] using h)
  | refused h hdepth =>
    rw [Nat.sub_eq_zero_of_le hdepth] at hn
    subst hn
    exact recognise_nested_limit _ (by simp [Cursor.state, h])
  | @nested k c c' m h hdepth body ih =>
    obtain ⟨j,rfl⟩ : ∃ j, n = j + 1 := ⟨maxNesting - (c.depth + 1),by omega⟩
    have hinside : maxNesting - (c.depth + 1) = j := by omega
    exact (recognise_nested k (by simp [Cursor.state, h])).trans (ih hinside)
  | loopEnd last ih => exact fun clock hclock => whileMatches_end (ih hn) hclock
  | loopNext head tail ih₁ ih₂ =>
    intro clock hclock
    refine whileMatches_next (ih₁ hn) ?_ hclock (ih₂ (head.kept.depth ▸ hn))
    rw [Cursor.length_rest, Cursor.length_rest]
    exact head.fewer rfl
  | stmtsTop lines ih => exact recognise_stmts_top (ih hn _ (Nat.le_refl _))
  | stmtsBlock first lines ih₁ ih₂ =>
    exact recognise_stmts_block (ih₁ hn) (ih₂ (first.kept.depth ▸ hn) _ (Nat.le_refl _))
  | stmtNone bol ih => exact recognise_bind_none (ih hn)
  | stmt bol expr ih₁ ih₂ =>
    have hexpr := recognise_optional (ih₂ (bol.kept.depth ▸ hn))
    refine recognise_bind (ih₁ hn) fun _ => recognise_bind hexpr fun r => ?_
    cases r <;> rfl
  | @implicitStmtNone c h => exact recognise_implicitStmt_none fun t ht => h t (c.head?_rest ▸ ht)
  | @implicitStmt c c' t m ht hbol expr ih =>
    exact recognise_implicitStmt (c.head?_rest ▸ ht) hbol (ih hn) fun hm => congrArg tokens.drop (expr.kept.unmatched hm)
  | infixedNone left ih => exact recognise_infixed_none (ih hn)
  | infixedSingle left op ih₁ ih₂ =>
    exact recognise_infixed (ih₁ hn) (recogniseRight_none (ih₂ (left.kept.depth ▸ hn)))
  | infixedBack left op right ih₁ ih₂ ih₃ =>
    have hop := ih₂ (left.kept.depth ▸ hn)
    have hright := ih₃ (op.kept.depth ▸ left.kept.depth ▸ hn)
    exact recognise_infixed (ih₁ hn) (recogniseRight_back hop hright)
  | infixed left op right ih₁ ih₂ ih₃ =>
    have hop := ih₂ (left.kept.depth ▸ hn)
    have hright := ih₃ (op.kept.depth ▸ left.kept.depth ▸ hn)
    exact recognise_infixed (ih₁ hn) (recogniseRight_some hop hright)
  | exprApplyNone callee ih => exact recognise_bind_none (recognise_bind_none (ih hn))
  | exprApply callee args ih₁ ih₂ =>
    exact recognise_exprApply (ih₁ hn) (ih₂ (callee.kept.depth ▸ hn) _ (Nat.le_refl _))
  | exprPrefixed op expr ih₁ ih₂ | exprPreBack op expr ih₁ ih₂ =>
    exact recognise_prefixed (ih₁ hn) (ih₂ (op.kept.depth ▸ hn))
  | exprPre op expr ih₁ ih₂ =>
    refine recognise_bind_same (optional_none (ih₁ hn)) (ih₂ (op.kept.depth ▸ hn)) fun hm => ?_
    exact congrArg tokens.drop ((expr.kept.unmatched hm).trans (op.kept.unmatched rfl))
  | exprPostNone operand ih => exact recognise_bind_none (ih hn)
  | exprPost operand op ih₁ ih₂ =>
    have hop := recognise_optional (ih₂ (operand.kept.depth ▸ hn))
    refine recognise_bind (ih₁ hn) fun _ => recognise_bind hop fun r => ?_
    cases r <;> rfl
  | literal atom ih =>
    have hatom := recognise_map (f := fun t => Pure.pure (Tree.leaf t)) (ih hn) fun _ => rfl
    obtain ⟨t,ht⟩ := optional_some hatom
    exact recognise_bind_of ht rfl
  | operand atom block ih₁ ih₂ =>
    have hatom := recognise_map (f := fun t => Pure.pure (Tree.leaf t)) (ih₁ hn) fun _ => rfl
    refine recognise_bind_same (optional_none hatom) (ih₂ (atom.kept.depth ▸ hn)) fun hm => ?_
    exact congrArg tokens.drop ((block.kept.unmatched hm).trans (atom.kept.unmatched rfl))
  | @blockNone c h => exact recognise_block_none fun t ht => h t (c.head?_rest ▸ ht)
  | @block c c' t b m ht hb body ih =>
    exact recognise_block (c.head?_rest ▸ ht) hb (ih hn) fun hm => congrArg tokens.drop (body.kept.unmatched hm)
  | delimitedNone o ih => exact recognise_bind_none (ih hn)
  | delimitedBack o body close ih₁ ih₂ ih₃ =>
    have hbody := ih₂ (o.kept.depth ▸ hn)
    have hclose := ih₃ (body.kept.depth ▸ o.kept.depth ▸ hn)
    exact recognise_bind_back (ih₁ hn) fun _ => recognise_bind_back hbody fun _ => recognise_bind_none hclose
  | delimited o body close ih₁ ih₂ ih₃ =>
    have hbody := ih₂ (o.kept.depth ▸ hn)
    have hclose := ih₃ (body.kept.depth ▸ o.kept.depth ▸ hn)
    exact recognise_bind (ih₁ hn) fun _ => recognise_bind hbody fun _ => recognise_bind hclose fun _ => rfl

/-- From any cursor every rule has one run, which is that of the rule as it stands. It comes to an end, leaves the depth as
it was and remembers a refusal. It stays where it is if it does not match and moves on if it does. -/
theorem cursor_kept (tokens : List Token) (c : Cursor) :
    (∀ r : Routine, ∃ matched c', (∀ m d, Runs tokens (.routine r) c m d ↔ m = matched ∧ d = c') ∧
      r.recognise (.upTo (maxNesting - c.depth)) (c.state tokens) = (matched, c'.state tokens) ∧
      c'.depth = c.depth ∧ (∀ i, c.tooDeep = some i → c'.tooDeep = some i) ∧
      (matched = false → c'.pos = c.pos) ∧ (matched = true → c.pos < c'.pos ∧ c'.pos ≤ tokens.length)) ∧
    ∀ inBlock : Bool, ∃ c', (∀ m d, Runs tokens (.stmts inBlock) c m d ↔ m = true ∧ d = c') ∧
      recognise (stmts (.upTo (maxNesting - c.depth)) inBlock) (c.state tokens) = (true, c'.state tokens) ∧
      c'.depth = c.depth ∧ (∀ i, c.tooDeep = some i → c'.tooDeep = some i) ∧ c.pos ≤ c'.pos := by
  constructor
  · intro r
    obtain ⟨matched,c',h⟩ := halts tokens (.routine r) c
    have hkept := h.kept
    have hmatched (hm : matched = true) : c.pos < c'.pos ∧ c'.pos ≤ tokens.length :=
      ⟨hkept.progress hm rfl,hkept.within (hkept.progress hm rfl)⟩
    exact ⟨matched,c',fun _ _ => h.iff,h.agrees rfl,hkept.depth,hkept.refusal,hkept.unmatched,hmatched⟩
  · intro inBlock
    obtain ⟨_,c',h⟩ := halts tokens (.stmts inBlock) c
    cases h.matched rfl
    exact ⟨c',fun _ _ => h.iff,h.agrees rfl,h.kept.depth,h.kept.refusal,h.kept.forward⟩

/-- The tokens of `a = b`. -/
def assignment : List Token :=
  [⟨.word .symbol, 0, 1, "", "a"⟩, ⟨.word .inop0, 2, 1, " ", "="⟩, ⟨.word .symbol, 4, 1, " ", "b"⟩]

/-- With no level left for the right side, the operator that was read is given back and the place behind it noted. -/
theorem cursor_kept_refused : ∃ c', Runs assignment (.routine (.infixed .zero)) ⟨0, maxNesting, none⟩ true c' ∧
    c'.state assignment = ⟨assignment.drop 1, some (assignment.drop 2)⟩ ∧ c'.depth = maxNesting ∧
      0 < c'.pos ∧ c'.pos ≤ 3 := by
  obtain ⟨matched,c',hruns,hrun,hdepth,_,_,hpos⟩ :=
    (cursor_kept assignment ⟨0, maxNesting, none⟩).1 (.infixed .zero)
  have hrecognised : (Routine.infixed .zero).recognise (.upTo (maxNesting - maxNesting)) ⟨assignment, none⟩ =
      (true, ⟨assignment.drop 1, some (assignment.drop 2)⟩) := rfl
  obtain ⟨rfl,hstate⟩ := Prod.mk.inj (hrun.symm.trans hrecognised)
  exact ⟨c',(hruns _ _).mpr ⟨rfl,rfl⟩,hstate,hdepth,hpos rfl⟩

end Gapscript.Parse
