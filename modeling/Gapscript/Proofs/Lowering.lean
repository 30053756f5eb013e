import Gapscript.Program
import Gapscript.Proofs.Reading

/-! # Programs without a term

A tree that was read from tokens has the shape that each rule of the grammar gives it, and for every such shape there is
a term. What can go wrong is an assignment to something that is neither a reference nor a comma list of references; the
error then tells what was found there.
-/
namespace Gapscript.Tree
open Term

/-- `part` is the tree `whole` or stands somewhere in it. -/
inductive Inside (part : Tree) : (whole : Tree) → Prop where
  | here : Inside part part
  | under {rule : Rule} {children : List Tree} {child : Tree} (hchild : child ∈ children) (h : Inside part child) :
      Inside part (.branch rule children)

/-- Somewhere in the tree `culprit`, which is no reference, is to be assigned to. -/
def Misassigns (whole : Tree) (culprit : Term) : Prop :=
  ∃ left op right target, Inside (.branch .infix0 [left, .leaf op, right]) whole ∧ op.kind = .word .inop0 ∧
    ofExpr left = .ok target ∧ culprit ∈ target.items ∧ ∀ r, culprit ≠ .ref r

theorem Misassigns.branch {rule : Rule} {children : List Tree} {child : Tree} {culprit : Term}
    (h : child.Misassigns culprit) (hchild : child ∈ children) : (Tree.branch rule children).Misassigns culprit := by
  obtain ⟨left,op,right,target,hin,hrest⟩ := h
  exact ⟨left,op,right,target,.under hchild hin,hrest⟩

end Gapscript.Tree

namespace Gapscript.Term
open Gapscript.Tree

variable {α β : Type}

/-- A failure can only be that of an assignment in one of the trees. -/
def Blames (trees : List Tree) (x : Except LowerError α) : Prop :=
  ∀ e, x = .error e → ∃ culprit, e = .invalidTarget culprit.kindName ∧ ∃ t ∈ trees, t.Misassigns culprit

namespace Blames

variable {trees trees' : List Tree} {x : Except LowerError α}

theorem ok (a : α) : Blames trees (.ok a) := nofun

theorem mono (h : Blames trees x) (hsub : trees ⊆ trees') : Blames trees' x := by
  intro e he
  obtain ⟨culprit,hculprit,t,ht,hmis⟩ := h e he
  exact ⟨culprit,hculprit,t,hsub ht,hmis⟩

theorem bind {f : α → Except LowerError β} (h : Blames trees x) (hf : ∀ a, x = .ok a → Blames trees (f a)) :
    Blames trees (x >>= f) := by
  cases x with
  | error e' =>
    intro e he
    cases he
    exact h e' rfl
  | ok a => exact hf a rfl

/-- What fails in a child fails in the branch. -/
theorem branch (rule : Rule) (h : Blames trees x) : Blames [.branch rule trees] x := by
  intro e he
  obtain ⟨culprit,hculprit,t,ht,hmis⟩ := h e he
  exact ⟨culprit,hculprit,_,List.mem_singleton_self _,hmis.branch ht⟩

end Blames

/-! ## Targets of an assignment -/

theorem asRef_error {t : Term} {e : LowerError} (h : t.asRef = .error e) :
    e = .invalidTarget t.kindName ∧ ∀ r, t ≠ .ref r := by
  cases t with
  | ref r => cases h
  | _ => cases h; exact ⟨rfl,nofun⟩

theorem mapM_asRef_error {ts : List Term} {e : LowerError} (h : ts.mapM asRef = .error e) :
    ∃ t ∈ ts, e = .invalidTarget t.kindName ∧ ∀ r, t ≠ .ref r := by
  induction ts with
  | nil => cases h
  | cons t ts ih =>
    rw [List.mapM_cons] at h
    cases ht : t.asRef with
    | error e' =>
      rw [ht] at h
      cases h
      exact ⟨t,List.mem_cons_self,asRef_error ht⟩
    | ok r =>
      cases hts : ts.mapM asRef with
      | error e' =>
        rw [ht, hts] at h
        cases h
        obtain ⟨u,hu,hfound⟩ := ih hts
        exact ⟨u,List.mem_cons_of_mem t hu,hfound⟩
      | ok rs =>
        rw [ht, hts] at h
        cases h

theorem items_of_not_isList {t : Term} (h : t.isList = false) : t.items = [t] := by
  unfold items
  split
  · next r args => exact if_neg (of_decide_eq_false h)
  · rfl

/-- Targets are missing only because one item of what is assigned to is no reference. -/
theorem targets_error {t : Term} {e : LowerError} (h : t.targets = .error e) :
    ∃ culprit ∈ t.items, e = .invalidTarget culprit.kindName ∧ ∀ r, culprit ≠ .ref r := by
  unfold targets at h
  split at h
  · cases h
  · next href =>
    split at h
    · exact mapM_asRef_error h
    · next hlist =>
      cases h
      rw [items_of_not_isList (Bool.eq_false_iff.mpr hlist)]
      exact ⟨t,List.mem_singleton_self t,rfl,href⟩

/-! ## Shapes that have a term -/

/-- An expression whose term can only be missing for an assignment in it. -/
def Lowers (t : Tree) : Prop := Blames [t] (ofExpr t)

/-- A line start and at most one expression. -/
def Statement (t : Tree) : Prop :=
  ∃ bol, t = .branch .stmt [.leaf bol] ∨ ∃ e, t = .branch .stmt [.leaf bol, e] ∧ Lowers e

theorem Lowers.word {t : Token} {c : Context} (h : t.kind = .word c) : Lowers (.leaf t) := by
  unfold Lowers
  rw [ofExpr_word h]
  exact .ok _

theorem Lowers.string {t : Token} {q : Quote} (h : t.kind = .string q) : Lowers (.leaf t) := by
  unfold Lowers
  rw [ofExpr_string h]
  exact .ok _

/-- A part that lowers is to blame for its own failures, whatever stands beside it. -/
theorem Lowers.among {t : Tree} {trees : List Tree} (h : Lowers t) (ht : t ∈ trees) : Blames trees (ofExpr t) :=
  h.mono fun _ hu => List.mem_singleton.mp hu ▸ ht

theorem Lowers.assignment {left right : Tree} {op : Token} (hleft : Lowers left) (hop : op.kind = .word .inop0)
    (hright : Lowers right) : Lowers (.branch .infix0 [left, .leaf op, right]) := by
  unfold Lowers
  rw [ofExpr]
  refine ((hleft.among (by simp)).branch .infix0).bind fun target htarget => Blames.bind ?_ fun targets _ =>
    ((hright.among (by simp)).branch .infix0).bind fun value _ => .ok _
  intro e he
  obtain ⟨culprit,hmem,hfound,href⟩ := targets_error he
  exact ⟨culprit,hfound,_,List.mem_singleton_self _,left,op,right,target,.here,hop,htarget,hmem,href⟩

/-- Operators of the two tighter tiers are alike: a comma adds to a list and any other is applied. -/
theorem Lowers.operation {rule : Rule} (hrule : rule = .infix1 ∨ rule = .infix2) {left right : Tree} {op : Token}
    {c : Context} (hleft : Lowers left) (hop : op.kind = .word c) (hright : Lowers right) :
    Lowers (.branch rule [left, .leaf op, right]) := by
  have hlist : Blames [left, .leaf op, right] (do
      let l ← ofExpr left
      let r ← ofExpr right
      return list (l.items ++ [r])) :=
    (hleft.among (by simp)).bind fun _ _ => (hright.among (by simp)).bind fun _ _ => .ok _
  have happly : Blames [left, .leaf op, right] (do
      let o ← ofExpr (.leaf op)
      let l ← ofExpr left
      let r ← ofExpr right
      return Term.apply o [l, r]) :=
    ((Lowers.word hop).among (by simp)).bind fun _ _ =>
      (hleft.among (by simp)).bind fun _ _ => (hright.among (by simp)).bind fun _ _ => .ok _
  unfold Lowers
  rcases hrule with rfl | rfl <;> rw [ofExpr] <;> split
  · exact hlist.branch _
  · exact happly.branch _
  · exact hlist.branch _
  · exact happly.branch _

theorem Lowers.prefixed {x : Tree} {op : Token} {c : Context} (hop : op.kind = .word c) (hx : Lowers x) :
    Lowers (.branch .prefixed [.leaf op, x]) := by
  unfold Lowers
  rw [ofExpr]
  exact ((Lowers.word hop).among (by simp) |>.bind fun _ _ => (hx.among (by simp)).bind fun _ _ => .ok _).branch _

theorem Lowers.postfixed {x : Tree} {op : Token} {c : Context} (hx : Lowers x) (hop : op.kind = .word c) :
    Lowers (.branch .postfixed [x, .leaf op]) := by
  unfold Lowers
  rw [ofExpr]
  exact ((Lowers.word hop).among (by simp) |>.bind fun _ _ => (hx.among (by simp)).bind fun _ _ => .ok _).branch _

/-- An argument and what is made of those after it. -/
theorem blames_cons {arg : Tree} {args : List Tree} {x : Except LowerError (List Term)} (harg : Lowers arg)
    (hargs : Blames args x) (f : Term → List Term → List Term) :
    Blames (arg :: args) (do
      let t ← ofExpr arg
      let ts ← x
      return f t ts) :=
  (harg.among List.mem_cons_self).bind fun _ _ =>
    (hargs.mono (List.subset_cons_self arg args)).bind fun _ _ => .ok _

theorem blames_listArgs {args : List Tree} (h : ∀ t ∈ args, Lowers t) : Blames args (listArgs args) := by
  induction args with
  | nil => exact .ok _
  | cons arg args ih =>
    rw [listArgs]
    exact blames_cons (h arg List.mem_cons_self) (ih fun t ht => h t (List.mem_cons_of_mem arg ht)) _

theorem blames_callArgs {args : List Tree} (h : ∀ t ∈ args, Lowers t) : Blames args (callArgs args) := by
  induction args with
  | nil => exact .ok _
  | cons arg args ih =>
    rw [callArgs]
    exact blames_cons (h arg List.mem_cons_self) (ih fun t ht => h t (List.mem_cons_of_mem arg ht)) _

theorem Lowers.application {callee : Tree} {args : List Tree} (hcallee : Lowers callee) (hargs : ∀ t ∈ args, Lowers t) :
    Lowers (Parse.application callee args) := by
  cases args with
  | nil => exact hcallee
  | cons arg args =>
    have hall {x : Except LowerError (List Term)} (h : Blames (arg :: args) x) :
        Blames [callee, .branch .args (arg :: args)] x :=
      (h.branch .args).mono (List.subset_cons_self _ _)
    unfold Lowers
    rw [Parse.application, ofExpr]
    · refine ((hcallee.among (by simp)).bind fun t _ => ?_).branch .apply
      split
      · exact (hall (blames_listArgs hargs)).bind fun _ _ => .ok _
      · exact (hall (blames_callArgs hargs)).bind fun _ _ => .ok _
    · intro h
      cases h

theorem blames_ofStmts {stmts : List Tree} (h : ∀ t ∈ stmts, Statement t) : Blames stmts (ofStmts stmts) := by
  induction stmts with
  | nil => exact .ok _
  | cons t stmts ih =>
    have hrest := (ih fun u hu => h u (List.mem_cons_of_mem t hu)).mono (List.subset_cons_self t stmts)
    obtain ⟨bol,rfl | ⟨e,rfl,he⟩⟩ := h t List.mem_cons_self
    · rw [ofStmts]
      · exact hrest
      · nofun
    · have hchild : Blames [.leaf bol, e] (ofExpr e) := he.among (by simp)
      have hexpr : Blames (.branch .stmt [.leaf bol, e] :: stmts) (ofExpr e) := (hchild.branch .stmt).mono (by simp)
      rw [ofStmts]
      exact hexpr.bind fun _ _ => hrest.bind fun _ _ => .ok _

theorem Lowers.block {b : Bracket} {o c : Token} {stmts : List Tree} (h : ∀ t ∈ stmts, Statement t) :
    Lowers (.branch (.block b) [.leaf o, .branch .stmts stmts, .leaf c]) := by
  have hbody : Blames [.leaf o, .branch .stmts stmts, .leaf c] (ofStmts stmts) :=
    ((blames_ofStmts h).branch .stmts).mono (by simp)
  unfold Lowers
  rw [ofExpr]
  exact (hbody.bind fun _ _ => .ok _).branch _

end Gapscript.Term

namespace Gapscript.Parse
open Grammar Gapscript.Tree Term

/-! ## Trees that were read -/

/-- What a phrase gives can be lowered: statements as statements and everything else as expressions. -/
def Parsed.Lowers : Phrase → Parsed → Prop
  | .stmt, .tree t => Statement t
  | .top, .list ts => ∀ t ∈ ts, Statement t
  | _, .tree t => Term.Lowers t
  | _, .list ts => ∀ t ∈ ts, Term.Lowers t
  | _, .chain c => Term.Lowers c.first ∧ ∀ p ∈ c.rest, (∃ context, p.1.kind = .word context) ∧ Term.Lowers p.2

theorem Chain.lowers_leftNested {rule : Rule} (hrule : rule = .infix1 ∨ rule = .infix2) {c : Chain}
    (hfirst : Term.Lowers c.first)
    (hrest : ∀ p ∈ c.rest, (∃ context, p.1.kind = .word context) ∧ Term.Lowers p.2) :
    Term.Lowers (c.leftNested rule) := by
  obtain ⟨first, rest⟩ := c
  induction rest generalizing first with
  | nil => exact hfirst
  | cons p rest ih =>
    obtain ⟨op, right⟩ := p
    obtain ⟨⟨context,hop⟩,hright⟩ := hrest (op, right) List.mem_cons_self
    exact ih (.branch rule [first, .leaf op, right]) (.operation hrule hfirst hop hright)
      fun p hp => hrest p (List.mem_cons_of_mem _ hp)

theorem Reads.lowers {n : Nat} {a : Phrase} {ts : List Token} {r : Parsed} (h : Reads n a ts r) : r.Lowers a := by
  induction h with
  | topNil | argsNil => exact nofun
  | topCons _ _ ih₁ ih₂ => exact List.forall_mem_cons.mpr ⟨ih₁,ih₂⟩
  | @stmtBlank n bol hbol => exact ⟨bol,.inl rfl⟩
  | @stmtExpr n bol us e hbol _ ih => exact ⟨bol,.inr ⟨e,rfl,ih⟩⟩
  | expr0Single _ ih => exact Chain.lowers_leftNested (.inl rfl) ih.1 ih.2
  | expr0Infix _ hop _ ih₁ ih₂ => exact .assignment (Chain.lowers_leftNested (.inl rfl) ih₁.1 ih₁.2) hop ih₂
  | expr1Single _ ih | expr2Single _ ih => exact ⟨ih,nofun⟩
  | expr1Infix _ hop _ ih₁ ih₂ | expr2Infix _ hop _ ih₁ ih₂ =>
    exact ⟨ih₁,List.forall_mem_cons.mpr ⟨⟨⟨_,hop⟩,ih₂.1⟩,ih₂.2⟩⟩
  | exprApply _ _ ih₁ ih₂ => exact .application (Chain.lowers_leftNested (.inr rfl) ih₁.1 ih₁.2) ih₂
  | argsCons _ _ ih₁ ih₂ =>
    exact List.forall_mem_cons.mpr ⟨Chain.lowers_leftNested (.inr rfl) ih₁.1 ih₁.2,ih₂⟩
  | exprPreSingle _ ih | exprPostSingle _ ih | operandBlock _ ih => exact ih
  | exprPrefixed hop _ ih => exact .prefixed hop ih
  | exprPostfixed _ hop ih => exact .postfixed ih hop
  | symbol ht => exact .word ht
  | string ht => exact .string ht
  | block _ _ _ ih => exact .block ih
  | blockExpr _ _ _ _ _ ih₁ ih₂ => exact .block (List.forall_mem_cons.mpr ⟨⟨_,.inr ⟨_,rfl,ih₁⟩⟩,ih₂⟩)

end Gapscript.Parse

namespace Gapscript
open Gapscript.Tree

/-- A program that was read has a term, unless something that is no reference is to be assigned to; the error then names
it. So a source whose tokens can be read fails to compile for no other reason. -/
theorem lowering_fails_only_at_targets {tokens : List Token} {tree : Tree} (h : Tree.parse tokens = .ok tree) :
    ((∃ t, Term.ofTree tree = .ok t) ∨
      ∃ culprit, tree.Misassigns culprit ∧ Term.ofTree tree = .error (.invalidTarget culprit.kindName)) ∧
    ∀ source, Token.scan source = .ok tokens → (∃ t, compile source = .ok t) ∨
      ∃ culprit, tree.Misassigns culprit ∧ compile source = .error (.lower (.invalidTarget culprit.kindName)) := by
  obtain ⟨stmts,rfl,hread⟩ := Tree.reads_of_parse h
  have hlower : (∃ t, Term.ofTree (.branch .stmts stmts) = .ok t) ∨ ∃ culprit,
      (Tree.branch .stmts stmts).Misassigns culprit ∧
        Term.ofTree (.branch .stmts stmts) = .error (.invalidTarget culprit.kindName) := by
    have hblames : Term.Blames [.branch .stmts stmts] (Term.ofTree (.branch .stmts stmts)) :=
      ((Term.blames_ofStmts hread.lowers).bind fun _ _ => .ok _).branch .stmts
    cases hterm : Term.ofTree (.branch .stmts stmts) with
    | ok t => exact .inl ⟨t,rfl⟩
    | error e =>
      obtain ⟨culprit,rfl,t,ht,hmis⟩ := hblames e hterm
      exact .inr ⟨culprit,List.mem_singleton.mp ht ▸ hmis,rfl⟩
  refine ⟨hlower,fun source hscan => ?_⟩
  rcases hlower with ⟨t,ht⟩ | ⟨culprit,hmis,herror⟩
  · exact .inl ⟨t,by simp [compile, hscan, h, ht]⟩
  · exact .inr ⟨culprit,hmis,by simp [compile, hscan, h, herror]⟩

/-- The tokens of `x = (a, 'b' = c)`: the inner assignment has a string among its targets. -/
def stringTargetTokens : List Token :=
  [⟨.bol, 0, 1, "", ""⟩, ⟨.word .symbol, 0, 1, "", "x"⟩, ⟨.word .inop0, 2, 1, " ", "="⟩,
    ⟨.opening .paren, 4, 1, " ", "("⟩, ⟨.word .symbol, 5, 1, "", "a"⟩, ⟨.word .postop, 6, 1, "", ","⟩,
    ⟨.string .single, 8, 1, " ", "'b'"⟩, ⟨.word .inop0, 12, 1, " ", "="⟩, ⟨.word .symbol, 14, 1, " ", "c"⟩,
    ⟨.closing .paren, 15, 1, "", ")"⟩]

theorem lowering_fails_only_at_targets_string : ∃ tree, Tree.parse stringTargetTokens = .ok tree ∧
    Term.ofTree tree = .error (.invalidTarget "string 'b'") ∧ Token.scan "x = (a, 'b' = c)" = .ok stringTargetTokens ∧
      ∃ culprit, tree.Misassigns culprit ∧
        compile "x = (a, 'b' = c)" = .error (.lower (.invalidTarget culprit.kindName)) := by
  have hscan : Token.scan "x = (a, 'b' = c)" = .ok stringTargetTokens := by rfl
  have herror : compile "x = (a, 'b' = c)" = .error (.lower (.invalidTarget "string 'b'")) := by rfl
  refine ⟨_,rfl,rfl,hscan,?_⟩
  rcases (@lowering_fails_only_at_targets stringTargetTokens _ rfl).2 _ hscan with ⟨t,ht⟩ | hfail
  · rw [ht] at herror
    cases herror
  · exact hfail

end Gapscript
