import Mathlib.Data.List.Forall2
import Gapscript.Proofs.Acceptance
import Gapscript.Proofs.Lexemes
import Gapscript.Proofs.Lowering

/-! # What tokens mean

The term of a program depends on its tokens only through their kinds and texts. `Denotes n a ls m` derives the meaning of
a phrase from them directly, with no tree in between: a chain of operators means its operands and operators, statements
mean a list of terms, and everything else a term. Tokens have a meaning as a program exactly if they compile, and the term
is then that meaning.
-/
namespace Gapscript

namespace Term

/-- An operator between two terms. A comma adds to a list. -/
def operate (left : Term) (op : Ref) (right : Term) : Term :=
  if op.text = "," then list (left.items ++ [right]) else .apply (.ref op) [left, right]

/-- Operators between terms, from left to right. -/
def operateAll (first : Term) (rest : List (Ref × Term)) : Term :=
  rest.foldl (fun left (op, right) => left.operate op right) first

/-- What a term contributes to the arguments of a call. -/
def asArguments : Term → List Term
  | .block (.enclosed .paren) stmts => (Term.block (.enclosed .paren) stmts).spread
  | t => [t]

/-- A term with others after it: further items if it is a list, arguments if not. -/
def applyTo (callee : Term) : List Term → Term
  | [] => callee
  | args =>
    if callee.isList then list (callee.items ++ args.flatMap items) else .apply callee (args.flatMap asArguments)

/-! ## When a tree has a term -/

theorem bind_eq_ok_iff {α β : Type} {x : Except LowerError α} {f : α → Except LowerError β} {b : β} :
    x >>= f = .ok b ↔ ∃ a, x = .ok a ∧ f a = .ok b := by
  cases x with
  | error e => exact ⟨nofun,nofun⟩
  | ok a =>
    constructor
    · intro h
      exact ⟨a,rfl,h⟩
    · rintro ⟨_,⟨⟩,h⟩
      exact h

theorem pure_eq_ok_iff {α : Type} {a b : α} : (pure a : Except LowerError α) = .ok b ↔ a = b :=
  ⟨Except.ok.inj,congrArg _⟩

theorem list_items {t : Term} (h : t.isList) : list t.items = t := by
  unfold isList at h
  split at h
  · next r args =>
    obtain rfl := of_decide_eq_true h
    rfl
  · cases h

theorem mapM_asRef_eq_ok {ts : List Term} {refs : List Ref} (h : ts.mapM asRef = .ok refs) : ts = refs.map .ref := by
  induction ts generalizing refs with
  | nil =>
    obtain rfl := pure_eq_ok_iff.mp h
    rfl
  | cons t ts ih =>
    rw [List.mapM_cons] at h
    obtain ⟨r,hr,h⟩ := bind_eq_ok_iff.mp h
    obtain ⟨rs,hrs,h⟩ := bind_eq_ok_iff.mp h
    obtain rfl := pure_eq_ok_iff.mp h
    rw [List.map_cons, ih hrs]
    cases t with
    | ref r' =>
      cases hr
      rfl
    | _ => cases hr

/-- What is assigned to consists of its targets. -/
theorem items_of_targets {t : Term} {refs : List Ref} (h : t.targets = .ok refs) : t.items = refs.map .ref := by
  unfold targets at h
  split at h
  · cases h
    rfl
  · split at h
    · exact mapM_asRef_eq_ok h
    · cases h

variable {left right operand callee : Tree} {args body stmts : List Tree} {op bol o c : Token} {context : Context}
  {x : Term} {xs : List Term}

theorem ofExpr_assignment_iff : ofExpr (.branch .infix0 [left, .leaf op, right]) = .ok x ↔
    ∃ target refs value, ofExpr left = .ok target ∧ target.targets = .ok refs ∧ ofExpr right = .ok value ∧
      .assign refs value = x := by
  rw [ofExpr]
  simp only [bind_eq_ok_iff, pure_eq_ok_iff]
  grind

theorem ofExpr_operation_iff {rule : Tree.Rule} (hrule : rule = .infix1 ∨ rule = .infix2)
    (hop : op.kind = .word context) : ofExpr (.branch rule [left, .leaf op, right]) = .ok x ↔
      ∃ l r, ofExpr left = .ok l ∧ ofExpr right = .ok r ∧ l.operate ⟨context, op.text⟩ r = x := by
  have hbranch : ofExpr (.branch rule [left, .leaf op, right]) =
      if op.text = "," then do return list ((← ofExpr left).items ++ [← ofExpr right])
      else do return .apply (.ref ⟨context, op.text⟩) [← ofExpr left, ← ofExpr right] := by
    rcases hrule with rfl | rfl <;> rw [ofExpr, ofExpr_word hop] <;>
      simp only [isComma, decide_eq_true_eq] <;> rfl
  rw [hbranch]
  unfold operate
  split
  · simp only [bind_eq_ok_iff, pure_eq_ok_iff]
    grind
  · simp only [bind_eq_ok_iff, pure_eq_ok_iff]
    grind

theorem ofExpr_prefixed_iff (hop : op.kind = .word context) : ofExpr (.branch .prefixed [.leaf op, operand]) = .ok x ↔
    ∃ t, ofExpr operand = .ok t ∧ .apply (.ref ⟨context, op.text⟩) [t] = x := by
  rw [ofExpr, ofExpr_word hop]
  simp only [bind_eq_ok_iff, pure_eq_ok_iff]
  grind

theorem ofExpr_postfixed_iff (hop : op.kind = .word context) : ofExpr (.branch .postfixed [operand, .leaf op]) = .ok x ↔
    ∃ t, ofExpr operand = .ok t ∧ .apply (.ref ⟨context, op.text⟩) [t] = x := by
  rw [ofExpr, ofExpr_word hop]
  simp only [bind_eq_ok_iff, pure_eq_ok_iff]
  grind

theorem ofExpr_block_iff {b : Bracket} :
    ofExpr (.branch (.block b) [.leaf o, .branch .stmts body, .leaf c]) = .ok x ↔
      ∃ ts, ofStmts body = .ok ts ∧ .block (.enclosed b) ts = x := by
  rw [ofExpr]
  simp only [bind_eq_ok_iff, pure_eq_ok_iff]

theorem ofStmts_blank_iff : ofStmts (.branch .stmt [.leaf bol] :: stmts) = .ok xs ↔ ofStmts stmts = .ok xs := by
  rw [ofStmts]
  intro _ _ _ h
  cases h

theorem ofStmts_cons_iff : ofStmts (.branch .stmt [.leaf bol, operand] :: stmts) = .ok xs ↔
    ∃ t ts, ofExpr operand = .ok t ∧ ofStmts stmts = .ok ts ∧ t :: ts = xs := by
  rw [ofStmts]
  simp only [bind_eq_ok_iff, pure_eq_ok_iff]
  grind

/-- Statements have their terms one by one. -/
theorem ofStmts_eq_ok_iff {t : Tree} (ht : Statement t) : ofStmts (t :: stmts) = .ok xs ↔
    ∃ ys zs, ofStmts [t] = .ok ys ∧ ofStmts stmts = .ok zs ∧ ys ++ zs = xs := by
  obtain ⟨bol,rfl | ⟨e,rfl,_⟩⟩ := ht
  · rw [ofStmts_blank_iff]
    constructor
    · intro h
      exact ⟨[],xs,rfl,h,rfl⟩
    · rintro ⟨ys,zs,hys,hzs,rfl⟩
      cases ofStmts_blank_iff.mp hys
      exact hzs
  · rw [ofStmts_cons_iff]
    constructor
    · rintro ⟨x,zs,hx,hzs,rfl⟩
      exact ⟨[x],zs,ofStmts_cons_iff.mpr ⟨x,[],hx,rfl,rfl⟩,hzs,rfl⟩
    · rintro ⟨ys,zs,hys,hzs,rfl⟩
      obtain ⟨x,_,hx,⟨⟩,rfl⟩ := ofStmts_cons_iff.mp hys
      exact ⟨x,zs,hx,hzs,rfl⟩

/-- The trees of blocks, and no others, have blocks as their terms. -/
theorem rule?_eq_block_iff {t : Tree} {b : Bracket} (h : ofExpr t = .ok x) :
    t.rule? = some (.block b) ↔ ∃ stmts, x = .block (.enclosed b) stmts := by
  fun_cases ofExpr t <;> rw [ofExpr] at h <;> try assumption
  all_goals
    simp only [Tree.rule?, ofToken] at h ⊢
    grind [bind_eq_ok_iff, pure_eq_ok_iff, list]

theorem asArguments_of_ofExpr {t : Tree} (h : ofExpr t = .ok x) :
    x.asArguments = if t.rule? = some (.block .paren) then x.spread else [x] := by
  split
  · next hparen =>
    obtain ⟨stmts,rfl⟩ := (rule?_eq_block_iff h).mp hparen
    rfl
  · next hother =>
    unfold asArguments
    split
    · next stmts => exact absurd ((rule?_eq_block_iff h).mpr ⟨stmts,rfl⟩) hother
    · rfl

/-- Each of the trees has a term. -/
abbrev EachOf : List Tree → List Term → Prop := List.Forall₂ fun t x => ofExpr t = .ok x

/-- What is made of arguments one after the other. -/
theorem args_eq_ok_iff {g : List Tree → Except LowerError (List Term)} {f : Term → List Term} (hnil : g [] = .ok [])
    (hcons : ∀ {arg args xs}, g (arg :: args) = .ok xs ↔
      ∃ t ts, ofExpr arg = .ok t ∧ g args = .ok ts ∧ f t ++ ts = xs) :
    g args = .ok xs ↔ ∃ ts, EachOf args ts ∧ ts.flatMap f = xs := by
  induction args generalizing xs with
  | nil =>
    rw [hnil]
    constructor
    · rintro ⟨⟩
      exact ⟨[],.nil,rfl⟩
    · rintro ⟨_,⟨⟩,rfl⟩
      rfl
  | cons arg args ih =>
    rw [hcons]
    constructor
    · rintro ⟨t,ts,ht,hts,rfl⟩
      obtain ⟨ts,heach,rfl⟩ := ih.mp hts
      exact ⟨t :: ts,.cons ht heach,rfl⟩
    · rintro ⟨_,heach,rfl⟩
      obtain ⟨t,ts,ht,hts,rfl⟩ := List.forall₂_cons_left_iff.mp heach
      exact ⟨t,_,ht,ih.mpr ⟨ts,hts,rfl⟩,rfl⟩

theorem listArgs_eq_ok_iff : listArgs args = .ok xs ↔ ∃ ts, EachOf args ts ∧ ts.flatMap items = xs := by
  refine args_eq_ok_iff rfl ?_
  intro arg args xs
  rw [listArgs]
  simp only [bind_eq_ok_iff, pure_eq_ok_iff]
  grind

theorem callArgs_eq_ok_iff : callArgs args = .ok xs ↔ ∃ ts, EachOf args ts ∧ ts.flatMap asArguments = xs := by
  refine args_eq_ok_iff rfl ?_
  intro arg args xs
  rw [callArgs]
  simp only [bind_eq_ok_iff, pure_eq_ok_iff]
  constructor
  · rintro ⟨t,ht,ts,hts,rfl⟩
    exact ⟨t,ts,ht,hts,by rw [asArguments_of_ofExpr ht]⟩
  · rintro ⟨t,ts,ht,hts,rfl⟩
    exact ⟨t,ht,ts,hts,by rw [asArguments_of_ofExpr ht]⟩

theorem ofExpr_application_iff : ofExpr (Parse.application callee args) = .ok x ↔
    ∃ t ts, ofExpr callee = .ok t ∧ EachOf args ts ∧ t.applyTo ts = x := by
  cases args with
  | nil =>
    constructor
    · intro h
      exact ⟨x,[],h,.nil,rfl⟩
    · rintro ⟨_,_,h,⟨⟩,rfl⟩
      exact h
  | cons arg args =>
    have hbranch : ofExpr (Parse.application callee (arg :: args)) = do
        let t ← ofExpr callee
        if t.isList then return list (t.items ++ (← listArgs (arg :: args)))
        else return .apply t (← callArgs (arg :: args)) := by
      rw [Parse.application, ofExpr]
      intro h
      cases h
    rw [hbranch, bind_eq_ok_iff]
    refine exists_congr fun t => ?_
    have happly {ts : List Term} (h : EachOf (arg :: args) ts) : t.applyTo ts =
        if t.isList then list (t.items ++ ts.flatMap items) else .apply t (ts.flatMap asArguments) := by
      cases h
      rfl
    split
    · simp only [bind_eq_ok_iff, pure_eq_ok_iff, listArgs_eq_ok_iff]
      grind
    · simp only [bind_eq_ok_iff, pure_eq_ok_iff, callArgs_eq_ok_iff]
      grind

/-- An operator of a chain and the operand to its right. -/
structure Links (context : Context) (link : Token × Tree) (part : Ref × Term) : Prop where
  kind : link.1.kind = .word context
  ref : part.1 = ⟨context, link.1.text⟩
  operand : ofExpr link.2 = .ok part.2

theorem ofExpr_leftNested_iff {rule : Tree.Rule} (hrule : rule = .infix1 ∨ rule = .infix2) {chain : Parse.Chain}
    (hkind : ∀ link ∈ chain.rest, link.1.kind = .word context) : ofExpr (chain.leftNested rule) = .ok x ↔
      ∃ t rest, ofExpr chain.first = .ok t ∧ List.Forall₂ (Links context) chain.rest rest ∧
        t.operateAll rest = x := by
  obtain ⟨first, rest⟩ := chain
  induction rest generalizing first with
  | nil =>
    constructor
    · intro h
      exact ⟨x,[],h,.nil,rfl⟩
    · rintro ⟨_,_,h,⟨⟩,rfl⟩
      exact h
  | cons link rest ih =>
    obtain ⟨op, right⟩ := link
    obtain ⟨hop,hkind⟩ := List.forall_mem_cons.mp hkind
    refine (ih (.branch rule [first, .leaf op, right]) hkind).trans ?_
    constructor
    · rintro ⟨t,parts,ht,hparts,rfl⟩
      obtain ⟨l,r,hl,hr,rfl⟩ := (ofExpr_operation_iff hrule hop).mp ht
      exact ⟨l,(⟨context, op.text⟩, r) :: parts,hl,.cons ⟨hop,rfl,hr⟩ hparts,rfl⟩
    · rintro ⟨l,_,hl,hparts,rfl⟩
      obtain ⟨⟨ref, r⟩,parts,⟨_,hlink,hr⟩,hrest,rfl⟩ := List.forall₂_cons_left_iff.mp hparts
      obtain rfl : ref = ⟨context, op.text⟩ := hlink
      exact ⟨_,parts,(ofExpr_operation_iff hrule hop).mpr ⟨l,r,hl,hr,rfl⟩,hrest,rfl⟩

end Term

namespace Parse
open Grammar Term

/-! ## Meanings -/

/-- What a phrase means. -/
inductive Meaning where
  | term (t : Term)
  | chain (first : Term) (rest : List (Ref × Term))
  | list (ts : List Term)

/-- The lexemes are an instance of a phrase with meaning `m` and with at most `n` nested levels. -/
inductive Denotes : (n : Nat) → Phrase → List Lexeme → (m : Meaning) → Prop where
  | topNil {n : Nat} : Denotes n .top [] (.list [])
  | topCons {n : Nat} {u v : List Lexeme} {ts ts' : List Term} (head : Denotes n .stmt u (.list ts))
      (tail : Denotes n .top v (.list ts')) : Denotes n .top (u ++ v) (.list (ts ++ ts'))
  | stmtBlank {n : Nat} {bol : String} : Denotes n .stmt [⟨.bol, bol⟩] (.list [])
  | stmtExpr {n : Nat} {bol : String} {u : List Lexeme} {t : Term} (expr : Denotes n .expr0 u (.term t)) :
      Denotes n .stmt (⟨.bol, bol⟩ :: u) (.list [t])
  | expr0Single {n : Nat} {u : List Lexeme} {t : Term} {rest : List (Ref × Term)}
      (expr : Denotes n .expr1 u (.chain t rest)) : Denotes n .expr0 u (.term (t.operateAll rest))
  | expr0Infix {n : Nat} {u v : List Lexeme} {t value : Term} {rest : List (Ref × Term)} {op : String}
      {targets : List Ref} (left : Denotes (n + 1) .expr1 u (.chain t rest))
      (htargets : (t.operateAll rest).targets = .ok targets) (right : Denotes n .expr0 v (.term value)) :
      Denotes (n + 1) .expr0 (u ++ ⟨.word .inop0, op⟩ :: v) (.term (.assign targets value))
  | expr1Single {n : Nat} {u : List Lexeme} {t : Term} (expr : Denotes n .exprApply u (.term t)) :
      Denotes n .expr1 u (.chain t [])
  | expr1Infix {n : Nat} {u v : List Lexeme} {t t' : Term} {rest : List (Ref × Term)} {op : String}
      (left : Denotes (n + 1) .exprApply u (.term t)) (right : Denotes n .expr1 v (.chain t' rest)) :
      Denotes (n + 1) .expr1 (u ++ ⟨.word .inop1, op⟩ :: v) (.chain t ((⟨.inop1, op⟩, t') :: rest))
  | exprApply {n : Nat} {u v : List Lexeme} {t : Term} {rest : List (Ref × Term)} {ts : List Term}
      (callee : Denotes n .expr2 u (.chain t rest)) (args : Denotes n .args v (.list ts)) :
      Denotes n .exprApply (u ++ v) (.term ((t.operateAll rest).applyTo ts))
  | argsNil {n : Nat} : Denotes n .args [] (.list [])
  | argsCons {n : Nat} {u v : List Lexeme} {t : Term} {rest : List (Ref × Term)} {ts : List Term}
      (head : Denotes n .expr2 u (.chain t rest)) (tail : Denotes n .args v (.list ts)) :
      Denotes n .args (u ++ v) (.list (t.operateAll rest :: ts))
  | expr2Single {n : Nat} {u : List Lexeme} {t : Term} (expr : Denotes n .exprPre u (.term t)) :
      Denotes n .expr2 u (.chain t [])
  | expr2Infix {n : Nat} {u v : List Lexeme} {t t' : Term} {rest : List (Ref × Term)} {op : String}
      (left : Denotes (n + 1) .exprPre u (.term t)) (right : Denotes n .expr2 v (.chain t' rest)) :
      Denotes (n + 1) .expr2 (u ++ ⟨.word .inop2, op⟩ :: v) (.chain t ((⟨.inop2, op⟩, t') :: rest))
  | exprPreSingle {n : Nat} {u : List Lexeme} {t : Term} (expr : Denotes n .exprPost u (.term t)) :
      Denotes n .exprPre u (.term t)
  | exprPrefixed {n : Nat} {u : List Lexeme} {op : String} {t : Term} (expr : Denotes n .exprPost u (.term t)) :
      Denotes n .exprPre (⟨.word .preop, op⟩ :: u) (.term (.apply (.ref ⟨.preop, op⟩) [t]))
  | exprPostSingle {n : Nat} {u : List Lexeme} {t : Term} (expr : Denotes n .operand u (.term t)) :
      Denotes n .exprPost u (.term t)
  | exprPostfixed {n : Nat} {u : List Lexeme} {op : String} {t : Term} (expr : Denotes n .operand u (.term t)) :
      Denotes n .exprPost (u ++ [⟨.word .postop, op⟩]) (.term (.apply (.ref ⟨.postop, op⟩) [t]))
  | symbol {n : Nat} {text : String} : Denotes n .operand [⟨.word .symbol, text⟩] (.term (.symbol text))
  | string {n : Nat} {q : Quote} {text : String} : Denotes n .operand [⟨.string q, text⟩] (.term (.str text))
  | operandBlock {n : Nat} {u : List Lexeme} {t : Term} (block : Denotes n .block u (.term t)) :
      Denotes n .operand u (.term t)
  | block {n : Nat} {b : Bracket} {o c : String} {v : List Lexeme} {ts : List Term}
      (body : Denotes n .top v (.list ts)) :
      Denotes (n + 1) .block (⟨.opening b, o⟩ :: v ++ [⟨.closing b, c⟩]) (.term (.block (.enclosed b) ts))
  | blockExpr {n : Nat} {b : Bracket} {o c : String} {u v : List Lexeme} {t : Term} {ts : List Term}
      (expr : Denotes n .expr0 u (.term t)) (body : Denotes n .top v (.list ts)) :
      Denotes (n + 1) .block (⟨.opening b, o⟩ :: u ++ v ++ [⟨.closing b, c⟩])
        (.term (.block (.enclosed b) (t :: ts)))

/-- One line with one expression. -/
theorem Denotes.line {n : Nat} {bol : String} {ls : List Lexeme} {t : Term} (h : Denotes n .expr0 ls (.term t)) :
    Denotes n .top (⟨.bol, bol⟩ :: ls) (.list [t]) := by
  have hstmt : Denotes n .stmt (⟨.bol, bol⟩ :: ls) (.list [t]) := h.stmtExpr
  have htop := hstmt.topCons .topNil
  rwa [List.append_nil] at htop

/-- The operators of a chain stand between operands. -/
def Meaning.Linked : Meaning → Prop
  | .chain _ rest => ∀ link ∈ rest, link.1.context = .inop1 ∨ link.1.context = .inop2
  | _ => True

theorem Denotes.linked {n : Nat} {a : Phrase} {ls : List Lexeme} {m : Meaning} (h : Denotes n a ls m) : m.Linked := by
  induction h with
  | expr1Single | expr2Single => exact List.forall_mem_nil _
  | expr1Infix _ _ _ ih => exact List.forall_mem_cons.mpr ⟨.inl rfl,ih⟩
  | expr2Infix _ _ _ ih => exact List.forall_mem_cons.mpr ⟨.inr rfl,ih⟩
  | _ => trivial

/-- The meaning of what was read is what lowering makes of it. -/
inductive Parsed.Means : Phrase → Parsed → Meaning → Prop where
  | top {us : List Tree} {ts : List Term} (h : ofStmts us = .ok ts) : Means .top (.list us) (.list ts)
  | stmt {u : Tree} {ts : List Term} (h : ofStmts [u] = .ok ts) : Means .stmt (.tree u) (.list ts)
  | args {us : List Tree} {ts : List Term} (h : EachOf us ts) : Means .args (.list us) (.list ts)
  | expr1 {c : Chain} {t : Term} {rest : List (Ref × Term)} (hfirst : ofExpr c.first = .ok t)
      (hrest : List.Forall₂ (Links .inop1) c.rest rest) : Means .expr1 (.chain c) (.chain t rest)
  | expr2 {c : Chain} {t : Term} {rest : List (Ref × Term)} (hfirst : ofExpr c.first = .ok t)
      (hrest : List.Forall₂ (Links .inop2) c.rest rest) : Means .expr2 (.chain c) (.chain t rest)
  | term {a : Phrase} {u : Tree} {t : Term} (ha : a ≠ .stmt) (h : ofExpr u = .ok t) : Means a (.tree u) (.term t)

/-- The operators of a chain are those of its tier. -/
def Parsed.Linked : Phrase → Parsed → Prop
  | .expr1, .chain c => ∀ link ∈ c.rest, link.1.kind = .word .inop1
  | .expr2, .chain c => ∀ link ∈ c.rest, link.1.kind = .word .inop2
  | _, _ => True

theorem Reads.linked {n : Nat} {a : Phrase} {us : List Token} {r : Parsed} (h : Reads n a us r) : r.Linked a := by
  induction h with
  | expr1Single | expr2Single => nofun
  | expr1Infix _ hop _ _ ih | expr2Infix _ hop _ _ ih => exact List.forall_mem_cons.mpr ⟨hop,ih⟩
  | _ => trivial

/-- Whatever lowering makes of what was read is its meaning. -/
theorem Reads.denotes {n : Nat} {a : Phrase} {us : List Token} {r : Parsed} (h : Reads n a us r) {m : Meaning}
    (hm : r.Means a m) : Denotes n a (us.map Token.lexeme) m := by
  induction h generalizing m with
  | topNil =>
    obtain ⟨h⟩ := hm
    cases h
    exact .topNil
  | topCons head _ ih₁ ih₂ =>
    obtain ⟨h⟩ := hm
    obtain ⟨ys,zs,hys,hzs,rfl⟩ := (ofStmts_eq_ok_iff head.lowers).mp h
    rw [List.map_append]
    exact (ih₁ (.stmt hys)).topCons (ih₂ (.top hzs))
  | stmtBlank hbol =>
    rw [List.map_singleton, Token.lexeme_of_kind hbol]
    cases hm with
    | stmt h =>
      cases ofStmts_blank_iff.mp h
      exact .stmtBlank
    | term ha => exact absurd rfl ha
  | stmtExpr hbol _ ih =>
    rw [List.map_cons, Token.lexeme_of_kind hbol]
    cases hm with
    | stmt h =>
      obtain ⟨t,_,ht,⟨⟩,rfl⟩ := ofStmts_cons_iff.mp h
      exact (ih (.term nofun ht)).stmtExpr
    | term ha => exact absurd rfl ha
  | expr0Single expr ih =>
    cases hm with
    | term _ h =>
      obtain ⟨t,rest,ht,hrest,rfl⟩ := (ofExpr_leftNested_iff (.inl rfl) expr.linked).mp h
      exact (ih (.expr1 ht hrest)).expr0Single
  | expr0Infix left hop _ ih₁ ih₂ =>
    rw [List.map_append, List.map_cons, Token.lexeme_of_kind hop]
    cases hm with
    | term _ h =>
      obtain ⟨target,targets,value,htarget,htargets,hvalue,rfl⟩ := ofExpr_assignment_iff.mp h
      obtain ⟨t,rest,ht,hrest,rfl⟩ := (ofExpr_leftNested_iff (.inl rfl) left.linked).mp htarget
      exact (ih₁ (.expr1 ht hrest)).expr0Infix htargets (ih₂ (.term nofun hvalue))
  | expr1Single _ ih =>
    cases hm with
    | expr1 ht hrest =>
      cases hrest
      exact (ih (.term nofun ht)).expr1Single
  | expr1Infix _ hop _ ih₁ ih₂ =>
    rw [List.map_append, List.map_cons, Token.lexeme_of_kind hop]
    cases hm with
    | expr1 ht hrest =>
      obtain ⟨⟨ref, t⟩,rest,⟨_,hlink,ht'⟩,hrest',rfl⟩ := List.forall₂_cons_left_iff.mp hrest
      obtain rfl := hlink
      exact (ih₁ (.term nofun ht)).expr1Infix (ih₂ (.expr1 ht' hrest'))
  | exprApply callee _ ih₁ ih₂ =>
    rw [List.map_append]
    cases hm with
    | term _ h =>
      obtain ⟨f,ts,hf,hts,rfl⟩ := ofExpr_application_iff.mp h
      obtain ⟨t,rest,ht,hrest,rfl⟩ := (ofExpr_leftNested_iff (.inr rfl) callee.linked).mp hf
      exact (ih₁ (.expr2 ht hrest)).exprApply (ih₂ (.args hts))
  | argsNil =>
    cases hm with
    | args h =>
      cases h
      exact .argsNil
  | argsCons head _ ih₁ ih₂ =>
    rw [List.map_append]
    cases hm with
    | args h =>
      obtain ⟨x,ts,hx,hts,rfl⟩ := List.forall₂_cons_left_iff.mp h
      obtain ⟨t,rest,ht,hrest,rfl⟩ := (ofExpr_leftNested_iff (.inr rfl) head.linked).mp hx
      exact (ih₁ (.expr2 ht hrest)).argsCons (ih₂ (.args hts))
  | expr2Single _ ih =>
    cases hm with
    | expr2 ht hrest =>
      cases hrest
      exact (ih (.term nofun ht)).expr2Single
  | expr2Infix _ hop _ ih₁ ih₂ =>
    rw [List.map_append, List.map_cons, Token.lexeme_of_kind hop]
    cases hm with
    | expr2 ht hrest =>
      obtain ⟨⟨ref, t⟩,rest,⟨_,hlink,ht'⟩,hrest',rfl⟩ := List.forall₂_cons_left_iff.mp hrest
      obtain rfl := hlink
      exact (ih₁ (.term nofun ht)).expr2Infix (ih₂ (.expr2 ht' hrest'))
  | exprPreSingle _ ih =>
    cases hm with
    | term _ h => exact (ih (.term nofun h)).exprPreSingle
  | exprPrefixed hop _ ih =>
    rw [List.map_cons, Token.lexeme_of_kind hop]
    cases hm with
    | term _ h =>
      obtain ⟨t,ht,rfl⟩ := (ofExpr_prefixed_iff hop).mp h
      exact (ih (.term nofun ht)).exprPrefixed
  | exprPostSingle _ ih =>
    cases hm with
    | term _ h => exact (ih (.term nofun h)).exprPostSingle
  | exprPostfixed _ hop ih =>
    rw [List.map_append, List.map_singleton, Token.lexeme_of_kind hop]
    cases hm with
    | term _ h =>
      obtain ⟨t,ht,rfl⟩ := (ofExpr_postfixed_iff hop).mp h
      exact (ih (.term nofun ht)).exprPostfixed
  | symbol ht =>
    rw [List.map_singleton, Token.lexeme_of_kind ht]
    cases hm with
    | term _ h =>
      rw [ofExpr_word ht] at h
      cases h
      exact .symbol
  | string ht =>
    rw [List.map_singleton, Token.lexeme_of_kind ht]
    cases hm with
    | term _ h =>
      rw [ofExpr_string ht] at h
      cases h
      exact .string
  | operandBlock _ ih =>
    cases hm with
    | term _ h => exact (ih (.term nofun h)).operandBlock
  | block ho _ hc ih =>
    rw [List.map_append, List.map_cons, List.map_singleton, Token.lexeme_of_kind ho, Token.lexeme_of_kind hc]
    cases hm with
    | term _ h =>
      obtain ⟨ts,hts,rfl⟩ := ofExpr_block_iff.mp h
      exact (ih (.top hts)).block
  | blockExpr ho _ _ _ hc ih₁ ih₂ =>
    rw [List.map_append, List.map_append, List.map_cons, List.map_singleton, Token.lexeme_of_kind ho,
      Token.lexeme_of_kind hc]
    cases hm with
    | term _ h =>
      obtain ⟨_,hbody,rfl⟩ := ofExpr_block_iff.mp h
      obtain ⟨t,ts,ht,hts,rfl⟩ := ofStmts_cons_iff.mp hbody
      exact (ih₁ (.term nofun ht)).blockExpr (ih₂ (.top hts))

/-- The tokens are read, and lowering gives them the meaning `m`. -/
def ReadsAs (n : Nat) (a : Phrase) (us : List Token) (m : Meaning) : Prop := ∃ r, Reads n a us r ∧ r.Means a m

namespace ReadsAs

variable {n : Nat} {a : Phrase} {us : List Token} {t : Term} {ts : List Term} {rest : List (Ref × Term)}

theorem tree (h : ReadsAs n a us (.term t)) : ∃ u, Reads n a us (.tree u) ∧ ofExpr u = .ok t := by
  obtain ⟨_,hr,hm⟩ := h
  cases hm with
  | term _ ht => exact ⟨_,hr,ht⟩

theorem expr1 (h : ReadsAs n .expr1 us (.chain t rest)) :
    ∃ c, Reads n .expr1 us (.chain c) ∧ ofExpr c.first = .ok t ∧ List.Forall₂ (Links .inop1) c.rest rest := by
  obtain ⟨_,hr,hm⟩ := h
  cases hm with
  | expr1 ht hrest => exact ⟨_,hr,ht,hrest⟩

theorem expr2 (h : ReadsAs n .expr2 us (.chain t rest)) :
    ∃ c, Reads n .expr2 us (.chain c) ∧ ofExpr c.first = .ok t ∧ List.Forall₂ (Links .inop2) c.rest rest := by
  obtain ⟨_,hr,hm⟩ := h
  cases hm with
  | expr2 ht hrest => exact ⟨_,hr,ht,hrest⟩

theorem args (h : ReadsAs n .args us (.list ts)) : ∃ vs, Reads n .args us (.list vs) ∧ EachOf vs ts := by
  obtain ⟨_,hr,hm⟩ := h
  cases hm with
  | args hts => exact ⟨_,hr,hts⟩

theorem stmt (h : ReadsAs n .stmt us (.list ts)) : ∃ u, Reads n .stmt us (.tree u) ∧ ofStmts [u] = .ok ts := by
  obtain ⟨_,hr,hm⟩ := h
  cases hm with
  | stmt hts => exact ⟨_,hr,hts⟩

theorem top (h : ReadsAs n .top us (.list ts)) : ∃ vs, Reads n .top us (.list vs) ∧ ofStmts vs = .ok ts := by
  obtain ⟨_,hr,hm⟩ := h
  cases hm with
  | top hts => exact ⟨_,hr,hts⟩

end ReadsAs

/-- Tokens whose lexemes have a meaning are read, and lowering gives them that meaning. -/
theorem Denotes.readsAs {n : Nat} {a : Phrase} {ls : List Lexeme} {m : Meaning} (h : Denotes n a ls m)
    {us : List Token} (hls : us.map Token.lexeme = ls) : ReadsAs n a us m := by
  induction h generalizing us with
  | topNil =>
    obtain rfl := List.map_eq_nil_iff.mp hls
    exact ⟨_,.topNil,.top rfl⟩
  | topCons _ _ ih₁ ih₂ =>
    obtain ⟨us,vs,rfl,hus,hvs⟩ := List.map_eq_append_iff.mp hls
    obtain ⟨u,hr₁,h₁⟩ := (ih₁ hus).stmt
    obtain ⟨vs,hr₂,h₂⟩ := (ih₂ hvs).top
    exact ⟨_,hr₁.topCons hr₂,.top ((ofStmts_eq_ok_iff hr₁.lowers).mpr ⟨_,_,h₁,h₂,rfl⟩)⟩
  | stmtBlank =>
    obtain ⟨bol,rfl,hbol⟩ := List.map_eq_singleton_iff.mp hls
    obtain ⟨hbol,_⟩ := Token.lexeme_eq_iff.mp hbol
    exact ⟨_,.stmtBlank hbol,.stmt (ofStmts_blank_iff.mpr rfl)⟩
  | stmtExpr _ ih =>
    obtain ⟨bol,us,rfl,hbol,hus⟩ := List.map_eq_cons_iff.mp hls
    obtain ⟨hbol,_⟩ := Token.lexeme_eq_iff.mp hbol
    obtain ⟨u,hr,ht⟩ := (ih hus).tree
    exact ⟨_,.stmtExpr hbol hr,.stmt (ofStmts_cons_iff.mpr ⟨_,_,ht,rfl,rfl⟩)⟩
  | expr0Single _ ih =>
    obtain ⟨c,hr,ht,hrest⟩ := (ih hls).expr1
    exact ⟨_,hr.expr0Single,.term nofun ((ofExpr_leftNested_iff (.inl rfl) hr.linked).mpr ⟨_,_,ht,hrest,rfl⟩)⟩
  | expr0Infix _ htargets _ ih₁ ih₂ =>
    obtain ⟨us,op,vs,rfl,hus,hop,hvs⟩ := exists_infix hls
    obtain ⟨hop,_⟩ := Token.lexeme_eq_iff.mp hop
    obtain ⟨c,hr₁,ht,hrest⟩ := (ih₁ hus).expr1
    obtain ⟨e,hr₂,hvalue⟩ := (ih₂ hvs).tree
    have hleft := (ofExpr_leftNested_iff (.inl rfl) hr₁.linked).mpr ⟨_,_,ht,hrest,rfl⟩
    exact ⟨_,hr₁.expr0Infix hop hr₂,.term nofun (ofExpr_assignment_iff.mpr ⟨_,_,_,hleft,htargets,hvalue,rfl⟩)⟩
  | expr1Single _ ih =>
    obtain ⟨u,hr,ht⟩ := (ih hls).tree
    exact ⟨_,hr.expr1Single,.expr1 ht .nil⟩
  | expr1Infix _ _ ih₁ ih₂ =>
    obtain ⟨us,op,vs,rfl,hus,hop,hvs⟩ := exists_infix hls
    obtain ⟨hop,rfl⟩ := Token.lexeme_eq_iff.mp hop
    obtain ⟨u,hr₁,ht⟩ := (ih₁ hus).tree
    obtain ⟨c,hr₂,ht',hrest⟩ := (ih₂ hvs).expr1
    exact ⟨_,hr₁.expr1Infix hop hr₂,.expr1 ht (.cons ⟨hop,rfl,ht'⟩ hrest)⟩
  | exprApply _ _ ih₁ ih₂ =>
    obtain ⟨us,vs,rfl,hus,hvs⟩ := List.map_eq_append_iff.mp hls
    obtain ⟨c,hr₁,ht,hrest⟩ := (ih₁ hus).expr2
    obtain ⟨args,hr₂,hargs⟩ := (ih₂ hvs).args
    have hcallee := (ofExpr_leftNested_iff (.inr rfl) hr₁.linked).mpr ⟨_,_,ht,hrest,rfl⟩
    exact ⟨_,hr₁.exprApply hr₂,.term nofun (ofExpr_application_iff.mpr ⟨_,_,hcallee,hargs,rfl⟩)⟩
  | argsNil =>
    obtain rfl := List.map_eq_nil_iff.mp hls
    exact ⟨_,.argsNil,.args .nil⟩
  | argsCons _ _ ih₁ ih₂ =>
    obtain ⟨us,vs,rfl,hus,hvs⟩ := List.map_eq_append_iff.mp hls
    obtain ⟨c,hr₁,ht,hrest⟩ := (ih₁ hus).expr2
    obtain ⟨args,hr₂,hargs⟩ := (ih₂ hvs).args
    have hhead := (ofExpr_leftNested_iff (.inr rfl) hr₁.linked).mpr ⟨_,_,ht,hrest,rfl⟩
    exact ⟨_,hr₁.argsCons hr₂,.args (.cons hhead hargs)⟩
  | expr2Single _ ih =>
    obtain ⟨u,hr,ht⟩ := (ih hls).tree
    exact ⟨_,hr.expr2Single,.expr2 ht .nil⟩
  | expr2Infix _ _ ih₁ ih₂ =>
    obtain ⟨us,op,vs,rfl,hus,hop,hvs⟩ := exists_infix hls
    obtain ⟨hop,rfl⟩ := Token.lexeme_eq_iff.mp hop
    obtain ⟨u,hr₁,ht⟩ := (ih₁ hus).tree
    obtain ⟨c,hr₂,ht',hrest⟩ := (ih₂ hvs).expr2
    exact ⟨_,hr₁.expr2Infix hop hr₂,.expr2 ht (.cons ⟨hop,rfl,ht'⟩ hrest)⟩
  | exprPreSingle _ ih =>
    obtain ⟨u,hr,ht⟩ := (ih hls).tree
    exact ⟨_,hr.exprPreSingle,.term nofun ht⟩
  | exprPrefixed _ ih =>
    obtain ⟨op,us,rfl,hop,hus⟩ := List.map_eq_cons_iff.mp hls
    obtain ⟨hop,rfl⟩ := Token.lexeme_eq_iff.mp hop
    obtain ⟨u,hr,ht⟩ := (ih hus).tree
    exact ⟨_,.exprPrefixed hop hr,.term nofun ((ofExpr_prefixed_iff hop).mpr ⟨_,ht,rfl⟩)⟩
  | exprPostSingle _ ih =>
    obtain ⟨u,hr,ht⟩ := (ih hls).tree
    exact ⟨_,hr.exprPostSingle,.term nofun ht⟩
  | exprPostfixed _ ih =>
    obtain ⟨us,vs,rfl,hus,hvs⟩ := List.map_eq_append_iff.mp hls
    obtain ⟨op,rfl,hop⟩ := List.map_eq_singleton_iff.mp hvs
    obtain ⟨hop,rfl⟩ := Token.lexeme_eq_iff.mp hop
    obtain ⟨u,hr,ht⟩ := (ih hus).tree
    exact ⟨_,hr.exprPostfixed hop,.term nofun ((ofExpr_postfixed_iff hop).mpr ⟨_,ht,rfl⟩)⟩
  | symbol =>
    obtain ⟨u,rfl,hu⟩ := List.map_eq_singleton_iff.mp hls
    obtain ⟨hu,rfl⟩ := Token.lexeme_eq_iff.mp hu
    exact ⟨_,.symbol hu,.term nofun (ofExpr_word hu)⟩
  | string =>
    obtain ⟨u,rfl,hu⟩ := List.map_eq_singleton_iff.mp hls
    obtain ⟨hu,rfl⟩ := Token.lexeme_eq_iff.mp hu
    exact ⟨_,.string hu,.term nofun (ofExpr_string hu)⟩
  | operandBlock _ ih =>
    obtain ⟨u,hr,ht⟩ := (ih hls).tree
    exact ⟨_,hr.operandBlock,.term nofun ht⟩
  | block _ ih =>
    obtain ⟨o,vs,c,rfl,ho,hvs,hc⟩ := exists_enclosed hls
    obtain ⟨ho,_⟩ := Token.lexeme_eq_iff.mp ho
    obtain ⟨hc,_⟩ := Token.lexeme_eq_iff.mp hc
    obtain ⟨stmts,hr,hts⟩ := (ih hvs).top
    exact ⟨_,.block ho hr hc,.term nofun (ofExpr_block_iff.mpr ⟨_,hts,rfl⟩)⟩
  | blockExpr _ _ ih₁ ih₂ =>
    obtain ⟨o,ws,c,rfl,ho,hws,hc⟩ := exists_enclosed hls
    obtain ⟨us,vs,rfl,hus,hvs⟩ := List.map_eq_append_iff.mp hws
    obtain ⟨ho,_⟩ := Token.lexeme_eq_iff.mp ho
    obtain ⟨hc,_⟩ := Token.lexeme_eq_iff.mp hc
    obtain ⟨e,hr₁,ht⟩ := (ih₁ hus).tree
    obtain ⟨stmts,hr₂,hts⟩ := (ih₂ hvs).top
    obtain ⟨first,us,rfl,hfirst⟩ := hr₁.exists_first
    exact ⟨_,.blockExpr ho hfirst hr₁ hr₂ hc,
      .term nofun (ofExpr_block_iff.mpr ⟨_,ofStmts_cons_iff.mpr ⟨_,_,ht,hts,rfl⟩,rfl⟩)⟩

end Parse

open Parse Grammar in
/-- A source compiles to statements exactly if these are the meaning of its tokens. -/
theorem compile_eq_ok_iff {source : String} {t : Term} : compile source = .ok t ↔
    ∃ tokens ts, Token.scan source = .ok tokens ∧
      Denotes maxNesting .top (tokens.map Token.lexeme) (.list ts) ∧ .block .top ts = t := by
  constructor
  · intro h
    unfold compile at h
    split at h
    · cases h
    · next tokens hscan =>
      split at h
      · cases h
      · next tree hparse =>
        obtain ⟨stmts,rfl,hread⟩ := Tree.reads_of_parse hparse
        split at h
        · cases h
        · next term hterm =>
          cases h
          obtain ⟨ts,hts,hpure⟩ := Term.bind_eq_ok_iff.mp hterm
          exact ⟨tokens,ts,hscan,hread.denotes (.top hts),Term.pure_eq_ok_iff.mp hpure⟩
  · rintro ⟨tokens,ts,hscan,hdenotes,rfl⟩
    obtain ⟨stmts,hread,hts⟩ := (hdenotes.readsAs rfl).top
    have hterm : Term.ofTree (.branch .stmts stmts) = .ok (.block .top ts) :=
      Term.bind_eq_ok_iff.mpr ⟨ts,hts,rfl⟩
    simp only [compile, hscan, Tree.parse_of_reads hread, hterm]

end Gapscript
