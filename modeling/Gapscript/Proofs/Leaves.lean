import Gapscript.Proofs.Reading

/-! # Trees keep the tokens they were read from

From left to right the leaves of a tree are the tokens of its source. The only leaves that no token stands for are line
starts put in front of the first statement of a block which has none, so there is at most one in each block. They cannot
be told from the tree alone, since a token of the source may look just like one, and are therefore told from the way
in which the tree was read.
-/
namespace Gapscript.Tree
open Parse Grammar

/-! ## Leaves of trees in a row -/

@[simp] theorem leavesAll_append (xs ys : List Tree) : leavesAll (xs ++ ys) = leavesAll xs ++ leavesAll ys := by
  induction xs with
  | nil => rfl
  | cons x xs ih => rw [List.cons_append, leavesAll, leavesAll, ih, List.append_assoc]

/-- Trees in a row were read from tokens: each leaf from one token and each branch from the tokens of its children. A
block whose opening bracket is not followed by a line start may have one put in front of its first statement, with the
place of the next leaf and without text. -/
inductive ReadFrom : (trees : List Tree) → (tokens : List Token) → Prop where
  | nil : ReadFrom [] []
  | leaf (t : Token) {xs : List Tree} {ts : List Token} (after : ReadFrom xs ts) : ReadFrom (.leaf t :: xs) (t :: ts)
  | branch (rule : Rule) {children xs : List Tree} {us ts : List Token} (inside : ReadFrom children us)
      (after : ReadFrom xs ts) : ReadFrom (.branch rule children :: xs) (us ++ ts)
  | markedBlock {b : Bracket} {o first c : Token} {e : Tree} {stmts xs : List Tree} {us vs ts : List Token}
      (hopen : o.kind = .opening b) (hfirst : first.kind ≠ .bol) (hleaf : e.leaves.head? = some first)
      (expr : ReadFrom [e] (first :: us)) (body : ReadFrom stmts vs) (after : ReadFrom xs ts) :
      ReadFrom (.branch (.block b) [.leaf o,
        .branch .stmts (.branch .stmt [.leaf ⟨.bol, first.pos, first.line, "", ""⟩, e] :: stmts), .leaf c] :: xs)
        (o :: first :: us ++ vs ++ c :: ts)

namespace ReadFrom

variable {xs ys : List Tree} {us vs ts : List Token}

theorem append (hx : ReadFrom xs us) (hy : ReadFrom ys vs) : ReadFrom (xs ++ ys) (us ++ vs) := by
  induction hx with
  | nil => exact hy
  | leaf t _ ih => exact .leaf t ih
  | branch rule inside _ _ ih =>
    rw [List.append_assoc]
    exact .branch rule inside ih
  | markedBlock hopen hfirst hleaf expr body _ _ _ ih =>
    rw [List.append_assoc]
    exact .markedBlock hopen hfirst hleaf expr body ih

theorem split (h : ReadFrom (xs ++ ys) ts) : ∃ us vs, ts = us ++ vs ∧ ReadFrom xs us ∧ ReadFrom ys vs := by
  induction xs generalizing ts with
  | nil => exact ⟨[],ts,rfl,.nil,h⟩
  | cons x xs ih =>
    cases h with
    | leaf t after =>
      obtain ⟨us,vs,rfl,hx,hy⟩ := ih after
      exact ⟨t :: us,vs,rfl,.leaf t hx,hy⟩
    | branch rule inside after =>
      obtain ⟨us,vs,rfl,hx,hy⟩ := ih after
      exact ⟨_ ++ us,vs,(List.append_assoc ..).symm,.branch rule inside hx,hy⟩
    | markedBlock hopen hfirst hleaf expr body after =>
      obtain ⟨us,vs,rfl,hx,hy⟩ := ih after
      exact ⟨_ :: _ :: _ ++ _ ++ _ :: us,vs,by simp,.markedBlock hopen hfirst hleaf expr body hx,hy⟩

/-- Trees in a row may become the children of one branch. -/
theorem group (rule : Rule) (h : ReadFrom (xs ++ ys) ts) : ReadFrom (.branch rule xs :: ys) ts := by
  obtain ⟨us,vs,rfl,hx,hy⟩ := h.split
  exact .branch rule hx hy

theorem single (rule : Rule) (h : ReadFrom xs ts) : ReadFrom [.branch rule xs] ts := by
  rw [← List.append_nil xs] at h
  exact h.group rule

/-- A line start that was put in never comes first. -/
theorem head?_leaves (h : ReadFrom xs ts) : (leavesAll xs).head? = ts.head? := by
  induction h with
  | nil | leaf | markedBlock => rfl
  | branch rule _ _ ih₁ ih₂ => rw [leavesAll, leaves, List.head?_append, List.head?_append, ih₁, ih₂]

end ReadFrom

/-! ## Leaves against tokens -/

/-- The leaves are the tokens with line starts put in: at most one after each opening bracket, and only if the token
after the bracket is none, with the place of that token and without text. -/
inductive WithMarkers : (tokens leaves : List Token) → Prop where
  | nil : WithMarkers [] []
  | cons (t : Token) {ts ls : List Token} (rest : WithMarkers ts ls) : WithMarkers (t :: ts) (t :: ls)
  | marker {b : Bracket} {o t : Token} {ts ls : List Token} (hopen : o.kind = .opening b) (ht : t.kind ≠ .bol)
      (rest : WithMarkers (t :: ts) (t :: ls)) :
      WithMarkers (o :: t :: ts) (o :: ⟨.bol, t.pos, t.line, "", ""⟩ :: t :: ls)

theorem WithMarkers.append {ts ls us ks : List Token} (h : WithMarkers ts ls) (h' : WithMarkers us ks) :
    WithMarkers (ts ++ us) (ls ++ ks) := by
  induction h with
  | nil => exact h'
  | cons t _ ih => exact .cons t ih
  | marker hopen ht _ ih => exact .marker hopen ht ih

theorem ReadFrom.withMarkers {xs : List Tree} {ts : List Token} (h : ReadFrom xs ts) :
    WithMarkers ts (leavesAll xs) := by
  induction h with
  | nil => exact .nil
  | leaf t _ ih => exact .cons t ih
  | branch rule _ _ ih₁ ih₂ => exact ih₁.append ih₂
  | @markedBlock b o first c e stmts xs us vs ts hopen hfirst hleaf _ _ _ ih₁ ih₂ ih₃ =>
    obtain ⟨ls,hls⟩ : ∃ ls, e.leaves = first :: ls := List.head?_eq_some_iff.mp hleaf
    have hexpr : WithMarkers (first :: us) (first :: ls) := by simpa [leavesAll, hls] using ih₁
    have hall := (hexpr.append ih₂).append (ih₃.cons c)
    have hmarked := WithMarkers.marker hopen hfirst hall
    simpa [leavesAll, leaves, hls] using hmarked

end Gapscript.Tree

namespace Gapscript.Parse
open Grammar Gapscript.Tree

/-! ## What the rules build -/

/-- The operands and operators of a chain in a row. -/
def Chain.forest (c : Chain) : List Tree := c.first :: c.rest.flatMap fun (op, t) => [.leaf op, t]

/-- What was read, as trees in a row. -/
def Parsed.forest : Parsed → List Tree
  | .tree t => [t]
  | .chain c => c.forest
  | .list ts => ts

/-- Nesting a chain to the left keeps its operands and operators in order. -/
theorem Chain.readFrom_leftNested (rule : Rule) {c : Chain} {ts : List Token} (h : ReadFrom c.forest ts) :
    ReadFrom [c.leftNested rule] ts := by
  obtain ⟨first, rest⟩ := c
  induction rest generalizing first with
  | nil => exact h
  | cons p rest ih =>
    obtain ⟨op, t⟩ := p
    have hgroup : ReadFrom ([first, .leaf op, t] ++ rest.flatMap fun (op, t) => [.leaf op, t]) ts := h
    exact ih (.branch rule [first, .leaf op, t]) (hgroup.group rule)

theorem readFrom_application {callee : Tree} {args : List Tree} {ts : List Token} (h : ReadFrom (callee :: args) ts) :
    ReadFrom [application callee args] ts := by
  cases args with
  | nil => exact h
  | cons x xs =>
    have hsplit : ReadFrom ([callee] ++ (x :: xs)) ts := h
    obtain ⟨us,vs,rfl,hc,ha⟩ := hsplit.split
    exact (hc.append (ha.single .args)).single .apply

theorem Reads.readFrom {n : Nat} {a : Phrase} {ts : List Token} {r : Parsed} (h : Reads n a ts r) :
    ReadFrom r.forest ts := by
  induction h with
  | topNil | argsNil => exact .nil
  | topCons _ _ ih₁ ih₂ => exact ih₁.append ih₂
  | stmtBlank _ => exact (ReadFrom.leaf _ .nil).single .stmt
  | stmtExpr _ _ ih => exact (ReadFrom.leaf _ ih).single .stmt
  | expr0Single _ ih => exact Chain.readFrom_leftNested .infix1 ih
  | expr0Infix _ _ _ ih₁ ih₂ =>
    exact ((Chain.readFrom_leftNested .infix1 ih₁).append (ih₂.leaf _)).single .infix0
  | expr1Single _ ih | expr2Single _ ih => exact ih
  | expr1Infix _ _ _ ih₁ ih₂ | expr2Infix _ _ _ ih₁ ih₂ => exact ih₁.append (ih₂.leaf _)
  | exprApply _ _ ih₁ ih₂ => exact readFrom_application ((Chain.readFrom_leftNested .infix2 ih₁).append ih₂)
  | argsCons _ _ ih₁ ih₂ => exact (Chain.readFrom_leftNested .infix2 ih₁).append ih₂
  | exprPreSingle _ ih | exprPostSingle _ ih | operandBlock _ ih => exact ih
  | exprPrefixed _ _ ih => exact (ih.leaf _).single .prefixed
  | exprPostfixed _ _ ih => exact (ih.append (ReadFrom.leaf _ .nil)).single .postfixed
  | symbol _ | string _ => exact .leaf _ .nil
  | @block n b o c vs ts _ _ _ ih =>
    exact (((ih.single .stmts).append (.leaf c .nil)).leaf o).single (.block b)
  | @blockExpr n b o c first us vs e ts ho hfirst _ _ _ ih₁ ih₂ =>
    have hleaf : e.leaves.head? = some first := by simpa [Parsed.forest, leavesAll] using ih₁.head?_leaves
    exact .markedBlock ho hfirst hleaf ih₁ ih₂ .nil

end Gapscript.Parse

namespace Gapscript
open Gapscript.Tree

/-- Reading a program loses, repeats and reorders no token: its tree is read from exactly the tokens given, and its
leaves are those tokens with nothing but line starts put in. -/
theorem parse_keeps_tokens {tokens : List Token} {tree : Tree} (h : Tree.parse tokens = .ok tree) :
    ReadFrom [tree] tokens ∧ WithMarkers tokens tree.leaves := by
  obtain ⟨stmts,rfl,hread⟩ := Tree.reads_of_parse h
  have hfrom : ReadFrom [.branch .stmts stmts] tokens := hread.readFrom.single .stmts
  refine ⟨hfrom,?_⟩
  simpa [leavesAll] using hfrom.withMarkers

/-- The tokens of `(a [` and, on the next line, `b]) - c - d`: a block without and one with a line start of its own, in
a chain that is nested to the left. -/
def nestedBlockTokens : List Token :=
  [⟨.bol, 0, 1, "", ""⟩, ⟨.opening .paren, 0, 1, "", "("⟩, ⟨.word .symbol, 1, 1, "", "a"⟩,
    ⟨.opening .bracket, 3, 1, " ", "["⟩, ⟨.bol, 4, 2, "\n", ""⟩, ⟨.word .symbol, 5, 2, "", "b"⟩,
    ⟨.closing .bracket, 6, 2, "", "]"⟩, ⟨.closing .paren, 7, 2, "", ")"⟩, ⟨.word .inop1, 9, 2, " ", "-"⟩,
    ⟨.word .symbol, 11, 2, " ", "c"⟩, ⟨.word .inop1, 13, 2, " ", "-"⟩, ⟨.word .symbol, 15, 2, " ", "d"⟩]

theorem parse_keeps_tokens_nestedBlock : ∃ tree, Tree.parse nestedBlockTokens = .ok tree ∧
    ReadFrom [tree] nestedBlockTokens ∧ WithMarkers nestedBlockTokens tree.leaves ∧
      tree.leaves.length = nestedBlockTokens.length + 1 := by
  have h := @parse_keeps_tokens nestedBlockTokens _ rfl
  exact ⟨_,rfl,h.1,h.2,rfl⟩

end Gapscript
