import Gapscript.Proofs.Meaning

/-! # Terms mention what their tokens do

Lowering takes lists and parentheses apart and puts their parts together anew, and an operator that stands between or
after its operands comes to stand in front of them. Through all of this the symbols and literals stay in the order of the
source, and every operator is mentioned as often as it is written. Only commas and the sign of an assignment go.
-/
namespace Gapscript

/-- A reference or a literal where it occurs in a term. -/
inductive Mention where
  | ref (r : Ref)
  | literal (raw : String)
  deriving DecidableEq, Repr

namespace Mention

/-- Symbols and literals. -/
def isOperand : Mention → Bool
  | .ref r => r.context = .symbol
  | .literal _ => true

/-- Operators other than a comma, in every context that takes operands. -/
def isOperator : Mention → Bool
  | .ref r => r.context ∈ [Context.inop1, .inop2, .preop, .postop] && r.text ≠ ","
  | .literal _ => false

end Mention

/-- What a token makes a term mention. -/
def Lexeme.mention? (l : Lexeme) : Option Mention :=
  match l.kind with
  | .word c => some (.ref ⟨c, l.text⟩)
  | .string _ => some (.literal l.text)
  | _ => none

namespace Term

mutual

/-- The references and literals of a term in order: targets before what is assigned to them, an operator before its
arguments. -/
def mentions : Term → List Mention
  | .block _ stmts => mentionsAll stmts
  | .assign targets value => targets.map .ref ++ mentions value
  | .apply operator args => mentions operator ++ mentionsAll args
  | .ref r => [.ref r]
  | .str raw => [.literal raw]

def mentionsAll : List Term → List Mention
  | [] => []
  | t :: ts => mentions t ++ mentionsAll ts

end

theorem mentionsAll_refs (refs : List Ref) : mentionsAll (refs.map .ref) = refs.map .ref := by
  induction refs with
  | nil => rfl
  | cons r refs ih => rw [List.map_cons, List.map_cons, mentionsAll, mentions, ih, List.singleton_append]

@[simp] theorem mentionsAll_append (ts us : List Term) :
    mentionsAll (ts ++ us) = mentionsAll ts ++ mentionsAll us := by
  induction ts with
  | nil => rfl
  | cons t ts ih => rw [List.cons_append, mentionsAll, mentionsAll, ih, List.append_assoc]

@[simp] theorem mentionsAll_singleton (t : Term) : mentionsAll [t] = t.mentions := by
  rw [mentionsAll, mentionsAll, List.append_nil]

theorem mentions_list (ts : List Term) : (list ts).mentions = .ref listOperator :: mentionsAll ts := by
  rw [list, mentions, mentions, List.singleton_append]

end Term

/-! ## Mentions in another order -/

/-- The same operands in the same order, and the same operators in any order. -/
structure Rearranged (ms ns : List Mention) : Prop where
  operands : ms.filter Mention.isOperand = ns.filter Mention.isOperand
  operators : (ms.filter Mention.isOperator).Perm (ns.filter Mention.isOperator)

namespace Rearranged

variable {ms ms' ns ns' ls : List Mention} {m : Mention}

theorem refl (ms : List Mention) : Rearranged ms ms := ⟨rfl,.refl _⟩

theorem symm (h : Rearranged ms ns) : Rearranged ns ms := ⟨h.operands.symm,h.operators.symm⟩

theorem trans (h : Rearranged ms ns) (h' : Rearranged ns ls) : Rearranged ms ls :=
  ⟨h.operands.trans h'.operands,h.operators.trans h'.operators⟩

theorem append (h : Rearranged ms ns) (h' : Rearranged ms' ns') : Rearranged (ms ++ ms') (ns ++ ns') := by
  constructor
  · rw [List.filter_append, List.filter_append, h.operands, h'.operands]
  · rw [List.filter_append, List.filter_append]
    exact h.operators.append h'.operators

theorem cons (m : Mention) (h : Rearranged ms ns) : Rearranged (m :: ms) (m :: ns) := (refl [m]).append h

/-- What is no operand may stand anywhere. -/
theorem middle (hm : m.isOperand = false) (ms ns : List Mention) : Rearranged (m :: (ms ++ ns)) (ms ++ m :: ns) := by
  constructor
  · simp [hm]
  · exact List.perm_middle.symm.filter _

/-- What is neither an operand nor an operator may be left out. -/
theorem skip (hm : m.isOperand = false) (hm' : m.isOperator = false) (ms : List Mention) : Rearranged (m :: ms) ms := by
  constructor
  · simp [hm]
  · simp [hm']

/-- A comma or a sign of assignment between others may be left out. -/
theorem skipMiddle (hm : m.isOperand = false) (hm' : m.isOperator = false) (ms ns : List Mention) :
    Rearranged (ms ++ ns) (ms ++ m :: ns) :=
  (skip hm hm' (ms ++ ns)).symm.trans (middle hm ms ns)

end Rearranged

/-! ## Terms put together -/

namespace Term

variable {t u : Term} {op : Ref} {rest : List (Ref × Term)}

theorem rearranged_list (ts : List Term) : Rearranged (list ts).mentions (mentionsAll ts) := by
  rw [mentions_list]
  exact .skip rfl rfl _

theorem rearranged_items (t : Term) : Rearranged (mentionsAll t.items) t.mentions := by
  cases hlist : t.isList with
  | false =>
    rw [items_of_not_isList hlist, mentionsAll_singleton]
    exact .refl _
  | true =>
    have hitems := rearranged_list t.items
    rw [list_items hlist] at hitems
    exact hitems.symm

theorem rearranged_operate (hop : op.context = .inop1 ∨ op.context = .inop2) :
    Rearranged (t.operate op u).mentions (t.mentions ++ .ref op :: u.mentions) := by
  have hoperand : (Mention.ref op).isOperand = false := by
    rcases hop with hop | hop <;> simp [Mention.isOperand, hop]
  unfold operate
  split
  · next hcomma =>
    have hsilent : (Mention.ref op).isOperator = false := by simp [Mention.isOperator, hcomma]
    have hitems : Rearranged (mentionsAll (t.items ++ [u])) (t.mentions ++ u.mentions) := by
      rw [mentionsAll_append, mentionsAll_singleton]
      exact (rearranged_items t).append (.refl _)
    exact ((rearranged_list _).trans hitems).trans (.skipMiddle hoperand hsilent _ _)
  · have happly : (Term.apply (.ref op) [t, u]).mentions = .ref op :: (t.mentions ++ u.mentions) := by
      simp [mentions, mentionsAll]
    rw [happly]
    exact .middle hoperand _ _

/-- The operators of a chain and the operands to their right. -/
def linkMentions (rest : List (Ref × Term)) : List Mention := rest.flatMap fun (op, t) => .ref op :: t.mentions

theorem rearranged_operateAll (hrest : ∀ link ∈ rest, link.1.context = .inop1 ∨ link.1.context = .inop2) :
    Rearranged (t.operateAll rest).mentions (t.mentions ++ linkMentions rest) := by
  induction rest generalizing t with
  | nil =>
    rw [linkMentions, List.flatMap_nil, List.append_nil]
    exact .refl _
  | cons link rest ih =>
    obtain ⟨op, u⟩ := link
    obtain ⟨hop,hrest⟩ := List.forall_mem_cons.mp hrest
    have hfirst : Rearranged ((t.operate op u).mentions ++ linkMentions rest)
        ((t.mentions ++ .ref op :: u.mentions) ++ linkMentions rest) :=
      (rearranged_operate hop).append (.refl _)
    rw [List.append_assoc] at hfirst
    exact (ih hrest).trans hfirst

theorem rearranged_asArguments (t : Term) : Rearranged (mentionsAll t.asArguments) t.mentions := by
  unfold asArguments
  split
  · next stmts =>
    rcases stmts with _ | ⟨stmt, _ | ⟨next, stmts⟩⟩
    · exact .refl _
    · rw [spread, mentions, mentionsAll_singleton]
      exact rearranged_items stmt
    · rw [spread, mentionsAll_singleton]
      · exact .refl _
      · nofun
      · nofun
  · rw [mentionsAll_singleton]
    exact .refl _

theorem rearranged_flatMap {f : Term → List Term} (hf : ∀ t, Rearranged (mentionsAll (f t)) t.mentions)
    (ts : List Term) : Rearranged (mentionsAll (ts.flatMap f)) (mentionsAll ts) := by
  induction ts with
  | nil => exact .refl _
  | cons t ts ih =>
    rw [List.flatMap_cons, mentionsAll_append, mentionsAll]
    exact (hf t).append ih

theorem rearranged_applyTo (args : List Term) : Rearranged (t.applyTo args).mentions (t.mentions ++ mentionsAll args) := by
  cases args with
  | nil =>
    rw [mentionsAll, List.append_nil]
    exact .refl _
  | cons arg args =>
    rw [applyTo]
    · split
      · have hitems := (rearranged_items t).append (rearranged_flatMap rearranged_items (arg :: args))
        rw [← mentionsAll_append] at hitems
        exact (rearranged_list _).trans hitems
      · rw [mentions]
        exact (Rearranged.refl _).append (rearranged_flatMap rearranged_asArguments (arg :: args))
    · nofun

/-- Targets are what is assigned to, without the comma of a list. -/
theorem rearranged_targets {refs : List Ref} (h : t.targets = .ok refs) : Rearranged (refs.map .ref) t.mentions := by
  rw [← mentionsAll_refs, ← items_of_targets h]
  exact rearranged_items t

end Term

/-! ## Meanings -/

namespace Parse
open Grammar Term

def Meaning.mentions : Meaning → List Mention
  | .term t => t.mentions
  | .chain first rest => first.mentions ++ linkMentions rest
  | .list ts => mentionsAll ts

theorem rearranged_link {left : List Mention} {u v : List Lexeme} {op : Ref} {right : List Mention}
    (hleft : Rearranged left (u.filterMap Lexeme.mention?)) (hright : Rearranged right (v.filterMap Lexeme.mention?)) :
    Rearranged (left ++ .ref op :: right) ((u ++ ⟨.word op.context, op.text⟩ :: v).filterMap Lexeme.mention?) := by
  rw [List.filterMap_append]
  exact hleft.append (.cons _ hright)

theorem rearranged_enclosed {ms : List Mention} {b : Bracket} {o c : String} {v : List Lexeme}
    (h : Rearranged ms (v.filterMap Lexeme.mention?)) :
    Rearranged ms ((⟨.opening b, o⟩ :: v ++ [⟨.closing b, c⟩] : List Lexeme).filterMap Lexeme.mention?) := by
  have hclosing : ([⟨.closing b, c⟩] : List Lexeme).filterMap Lexeme.mention? = [] := rfl
  rw [List.filterMap_append, hclosing, List.append_nil]
  exact h

theorem Denotes.rearranged {n : Nat} {a : Phrase} {ls : List Lexeme} {m : Meaning} (h : Denotes n a ls m) :
    Rearranged m.mentions (ls.filterMap Lexeme.mention?) := by
  -- A chain keeps its operators in place, and they move only once when its operands are put together.
  induction h with
  | topNil | argsNil | stmtBlank | symbol | string => exact .refl _
  | topCons _ _ ih₁ ih₂ =>
    rw [List.filterMap_append, Meaning.mentions, mentionsAll_append]
    exact ih₁.append ih₂
  | stmtExpr _ ih =>
    rw [Meaning.mentions, mentionsAll_singleton]
    exact ih
  | expr0Single expr ih => exact (rearranged_operateAll expr.linked).trans ih
  | expr0Infix left htargets _ ih₁ ih₂ =>
    have htarget := (rearranged_targets htargets).trans ((rearranged_operateAll left.linked).trans ih₁)
    rw [List.filterMap_append]
    exact (htarget.append ih₂).trans (.skipMiddle rfl rfl _ _)
  | expr1Single _ ih | expr2Single _ ih =>
    rw [Meaning.mentions, linkMentions, List.flatMap_nil, List.append_nil]
    exact ih
  | expr1Infix _ _ ih₁ ih₂ | expr2Infix _ _ ih₁ ih₂ => exact rearranged_link ih₁ ih₂
  | exprApply callee _ ih₁ ih₂ =>
    rw [List.filterMap_append]
    have hcallee := (rearranged_operateAll callee.linked).trans ih₁
    exact (rearranged_applyTo _).trans (hcallee.append ih₂)
  | argsCons head _ ih₁ ih₂ =>
    rw [List.filterMap_append]
    exact ((rearranged_operateAll head.linked).trans ih₁).append ih₂
  | exprPreSingle _ ih | exprPostSingle _ ih | operandBlock _ ih => exact ih
  | exprPrefixed _ ih =>
    rw [Meaning.mentions, mentions, mentions, mentionsAll_singleton]
    exact ih.cons _
  | @exprPostfixed _ u op t _ ih =>
    rw [Meaning.mentions, mentions, mentions, mentionsAll_singleton, List.filterMap_append]
    have hmoved : Rearranged (.ref ⟨.postop, op⟩ :: (t.mentions ++ [])) (t.mentions ++ [.ref ⟨.postop, op⟩]) :=
      .middle rfl _ _
    rw [List.append_nil] at hmoved
    exact hmoved.trans (ih.append (.refl _))
  | block _ ih => exact rearranged_enclosed ih
  | blockExpr _ _ ih₁ ih₂ =>
    rw [List.cons_append]
    refine rearranged_enclosed ?_
    rw [List.filterMap_append]
    exact ih₁.append ih₂

end Parse

open Parse Grammar in
/-- Lowering keeps the symbols and literals of the tokens in their order, and every operator but commas and the sign of an
assignment as often as it stands there. -/
theorem lowering_keeps_mentions {tokens : List Token} {tree : Tree} {t : Term} (hparse : Tree.parse tokens = .ok tree)
    (hterm : Term.ofTree tree = .ok t) :
    t.mentions.filter Mention.isOperand =
        ((tokens.map Token.lexeme).filterMap Lexeme.mention?).filter Mention.isOperand ∧
      (t.mentions.filter Mention.isOperator).Perm
        (((tokens.map Token.lexeme).filterMap Lexeme.mention?).filter Mention.isOperator) := by
  obtain ⟨stmts,rfl,hread⟩ := Tree.reads_of_parse hparse
  obtain ⟨ts,hts,hpure⟩ := Term.bind_eq_ok_iff.mp hterm
  obtain rfl := Term.pure_eq_ok_iff.mp hpure
  have hkept := (hread.denotes (.top hts)).rearranged
  exact ⟨hkept.operands,hkept.operators⟩

/-- The tokens of `x, y = f (p! 's', -q) - z,w`: both kinds of list, one of them spread over arguments, an assignment and
operators in four contexts. -/
def mixedTokens : List Token :=
  [⟨.bol, 0, 1, "", ""⟩, ⟨.word .symbol, 0, 1, "", "x"⟩, ⟨.word .postop, 1, 1, "", ","⟩,
    ⟨.word .symbol, 3, 1, " ", "y"⟩, ⟨.word .inop0, 5, 1, " ", "="⟩, ⟨.word .symbol, 7, 1, " ", "f"⟩,
    ⟨.opening .paren, 9, 1, " ", "("⟩, ⟨.word .symbol, 10, 1, "", "p"⟩, ⟨.word .postop, 11, 1, "", "!"⟩,
    ⟨.string .single, 13, 1, " ", "'s'"⟩, ⟨.word .postop, 16, 1, "", ","⟩, ⟨.word .preop, 18, 1, " ", "-"⟩,
    ⟨.word .symbol, 19, 1, "", "q"⟩, ⟨.closing .paren, 20, 1, "", ")"⟩, ⟨.word .inop1, 22, 1, " ", "-"⟩,
    ⟨.word .symbol, 24, 1, " ", "z"⟩, ⟨.word .inop2, 25, 1, "", ","⟩, ⟨.word .symbol, 26, 1, "", "w"⟩]

theorem lowering_keeps_mentions_mixed : ∃ tree t, Tree.parse mixedTokens = .ok tree ∧ Term.ofTree tree = .ok t ∧
    t.mentions.filter Mention.isOperand =
      [.ref ⟨.symbol, "x"⟩, .ref ⟨.symbol, "y"⟩, .ref ⟨.symbol, "f"⟩, .ref ⟨.symbol, "p"⟩, .literal "'s'",
        .ref ⟨.symbol, "q"⟩, .ref ⟨.symbol, "z"⟩, .ref ⟨.symbol, "w"⟩] ∧
    (t.mentions.filter Mention.isOperator).Perm [.ref ⟨.postop, "!"⟩, .ref ⟨.preop, "-"⟩, .ref ⟨.inop1, "-"⟩] := by
  have hkept := @lowering_keeps_mentions mixedTokens _ _ rfl rfl
  exact ⟨_,_,rfl,rfl,hkept.1.trans rfl,hkept.2⟩

end Gapscript
