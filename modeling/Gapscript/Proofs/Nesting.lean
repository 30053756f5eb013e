import Mathlib.Tactic.Ring
import Gapscript.Token.Scan
import Gapscript.Proofs.Acceptance

/-! # How deep a tree can be

The levels of the parser are counted while a chain is read, and what stands to the left of an operator is read before the
operator costs a level. In the tree of the chain it stands below all operators of that chain. A path from the root to a
leaf may therefore cross as many infix nodes as the chain has operators and then begin anew inside its first operand, with
only the level of a block gone: the limit bounds every path, but by a square. The bound is the best one.
-/
namespace Gapscript.Tree
open Parse

/-- Blocks and infix operations are the constructs that nest. -/
def Rule.nests : Rule → Bool
  | .block _ | .infix0 | .infix1 | .infix2 => true
  | _ => false

/-- Some path from the root to a leaf crosses `k` constructs that nest. -/
inductive Crosses : Tree → Nat → Prop where
  | leaf (t : Token) : Crosses (.leaf t) 0
  | branch {rule : Rule} {children : List Tree} {child : Tree} {k : Nat} (hchild : child ∈ children)
      (h : Crosses child k) : Crosses (.branch rule children) (k + rule.nests.toNat)

/-- No path crosses more than `b` constructs that nest. -/
def Within (b : Nat) (t : Tree) : Prop := ∀ k, t.Crosses k → k ≤ b

theorem within_leaf (b : Nat) (t : Token) : (leaf t).Within b := by
  intro k hk
  cases hk
  exact Nat.zero_le b

theorem Within.mono {b b' : Nat} {t : Tree} (h : t.Within b) (hle : b ≤ b') : t.Within b' := by
  intro k hk
  have hb := h k hk
  omega

theorem within_branch {b : Nat} (rule : Rule) {children : List Tree} (h : ∀ t ∈ children, t.Within b) :
    (branch rule children).Within (b + rule.nests.toNat) := by
  intro k hk
  cases hk with
  | branch hchild hk =>
    have hb := h _ hchild _ hk
    omega

theorem Crosses.nesting {rule : Rule} {children : List Tree} {child : Tree} {k : Nat} (h : child.Crosses k)
    (hrule : rule.nests = true) (hchild : child ∈ children) : (Tree.branch rule children).Crosses (k + 1) := by
  have hbranch : (Tree.branch rule children).Crosses (k + rule.nests.toNat) := .branch hchild h
  rwa [hrule] at hbranch

end Gapscript.Tree

namespace Gapscript.Parse
open Grammar Gapscript.Tree

/-! ## Chains -/

/-- The operands of a chain lie below all its operators. -/
theorem Chain.within_leftNested (rule : Rule) {c : Chain} {b : Nat} (hfirst : c.first.Within b)
    (hrest : ∀ p ∈ c.rest, p.2.Within b) : (c.leftNested rule).Within (b + c.rest.length) := by
  obtain ⟨first, rest⟩ := c
  induction rest generalizing first b with
  | nil => exact hfirst
  | cons p rest ih =>
    obtain ⟨op, right⟩ := p
    have hright : right.Within b := hrest (op, right) List.mem_cons_self
    have hnode : (Tree.branch rule [first, .leaf op, right]).Within (b + 1) := by
      have hone : rule.nests.toNat ≤ 1 := rule.nests.toNat_le
      have hbranch : (Tree.branch rule [first, .leaf op, right]).Within (b + rule.nests.toNat) :=
        within_branch rule (by simp [show first.Within b from hfirst, hright, within_leaf])
      exact hbranch.mono (by omega)
    have hchain := ih (.branch rule [first, .leaf op, right]) hnode fun q hq =>
      (hrest q (List.mem_cons_of_mem _ hq)).mono (Nat.le_succ b)
    have hlength : b + 1 + rest.length = b + ((op, right) :: rest).length := by
      simp only [List.length_cons]
      omega
    rwa [hlength] at hchain

/-- The first operand lies below all operators. -/
theorem Chain.crosses_leftNested {rule : Rule} (hrule : rule.nests = true) {c : Chain} {k : Nat}
    (h : c.first.Crosses k) : (c.leftNested rule).Crosses (k + c.rest.length) := by
  obtain ⟨first, rest⟩ := c
  induction rest generalizing first k with
  | nil => exact h
  | cons p rest ih =>
    obtain ⟨op, right⟩ := p
    have hnode : (Tree.branch rule [first, .leaf op, right]).Crosses (k + 1) :=
      Crosses.nesting h hrule List.mem_cons_self
    have hchain := ih (.branch rule [first, .leaf op, right]) hnode
    have hlength : k + 1 + rest.length = k + ((op, right) :: rest).length := by
      simp only [List.length_cons]
      omega
    rwa [hlength] at hchain

/-! ## No path is longer -/

/-- How many constructs that nest a path through an expression may cross when `n` levels are left. -/
def reach : Nat → Nat
  | 0 => 0
  | n + 1 => reach n + 2 * n + 4

theorem reach_eq (n : Nat) : reach n = n * (n + 3) := by
  induction n with
  | zero => rfl
  | succ n ih =>
    rw [reach, ih]
    ring

/-- The same for an operand: a block takes a level, and nothing else in an operand nests. -/
def operandReach : Nat → Nat
  | 0 => 0
  | n + 1 => reach n + 1

theorem operandReach_le_succ (n : Nat) : operandReach n ≤ operandReach (n + 1) := by
  cases n with
  | zero => exact Nat.zero_le _
  | succ n =>
    simp only [operandReach, reach]
    omega

/-- Both tiers of infix operators that lean to the left, one inside the other. -/
theorem operandReach_add_le (n : Nat) : operandReach n + n + n ≤ reach n := by
  cases n with
  | zero => exact Nat.le_refl 0
  | succ n =>
    simp only [operandReach, reach]
    omega

/-- The bound for the trees that a phrase is read as, and for the operands if it is read as a chain. -/
def reachOf (n : Nat) : Phrase → Nat
  | .operand | .block | .exprPost | .exprPre | .expr2 => operandReach n
  | .exprApply | .args | .expr1 => operandReach n + n
  | .expr0 | .stmt | .top => reach n

/-- All trees stay within `b`, and a chain has at most `n` operators. -/
def Parsed.Within (n b : Nat) : Parsed → Prop
  | .tree t => t.Within b
  | .list ts => ∀ t ∈ ts, t.Within b
  | .chain c => c.first.Within b ∧ (∀ p ∈ c.rest, p.2.Within b) ∧ c.rest.length ≤ n

theorem Parsed.Within.leftNested {n b : Nat} {c : Chain} (h : (Parsed.chain c).Within n b) (rule : Rule) :
    (c.leftNested rule).Within (b + n) := by
  obtain ⟨hfirst,hrest,hlength⟩ := h
  exact (Chain.within_leftNested rule hfirst hrest).mono (by omega)

/-- One operator more in front of a chain. -/
theorem Parsed.Within.cons {n b b' : Nat} {t : Tree} {op : Token} {c : Chain} (ht : t.Within b')
    (h : (Parsed.chain c).Within n b) (hle : b ≤ b') :
    (Parsed.chain ⟨t, (op, c.first) :: c.rest⟩).Within (n + 1) b' := by
  obtain ⟨hfirst,hrest,hlength⟩ := h
  refine ⟨ht,?_,by simpa using hlength⟩
  intro p hp
  rcases List.mem_cons.mp hp with rfl | hp
  · exact hfirst.mono hle
  · exact (hrest p hp).mono hle

theorem within_application {callee : Tree} {args : List Tree} {b : Nat} (hcallee : callee.Within b)
    (hargs : ∀ t ∈ args, t.Within b) : (application callee args).Within b := by
  cases args with
  | nil => exact hcallee
  | cons arg args =>
    have hbranch : (Tree.branch .args (arg :: args)).Within b := within_branch .args hargs
    exact within_branch .apply (by simp [hcallee, hbranch])

/-- A block whose statements stay within `n`. -/
theorem within_block {n : Nat} {b : Bracket} {o c : Token} {stmts : List Tree} (h : ∀ t ∈ stmts, t.Within n) :
    (Tree.branch (.block b) [.leaf o, .branch .stmts stmts, .leaf c]).Within (n + 1) := by
  have hstmts : (Tree.branch .stmts stmts).Within n := within_branch .stmts h
  exact within_branch (.block b) (by simp [hstmts, within_leaf])

/-- A branch that does not nest, of a leaf and another tree in either order. -/
theorem within_pair {b : Nat} {rule : Rule} (hrule : rule.nests = false) {x y : Tree} (hx : x.Within b)
    (hy : y.Within b) : (Tree.branch rule [x, y]).Within b := by
  have hbranch : (Tree.branch rule [x, y]).Within (b + rule.nests.toNat) := within_branch rule (by simp [hx, hy])
  rwa [hrule] at hbranch

/-- What is read with `n` levels left stays within the bound for these levels. -/
theorem Reads.within {n : Nat} {a : Phrase} {ts : List Token} {r : Parsed} (h : Reads n a ts r) :
    r.Within n (reachOf n a) := by
  induction h with
  | topNil | argsNil => exact nofun
  | topCons _ _ ih₁ ih₂ => exact List.forall_mem_cons.mpr ⟨ih₁,ih₂⟩
  | @stmtBlank n bol _ => exact within_branch .stmt (by simp [within_leaf])
  | @stmtExpr n bol us e _ _ ih => exact within_pair rfl (within_leaf _ bol) ih
  | @expr0Single n us c _ ih => exact (ih.leftNested .infix1).mono (operandReach_add_le n)
  | @expr0Infix n us vs c op e _ _ _ ih₁ ih₂ =>
    -- The left side has all levels still left to it, so the operator is one node more on top of the largest chain.
    have hleft : (c.leftNested .infix1).Within (reach n + 2 * n + 3) :=
      (ih₁.leftNested .infix1).mono (by simp only [reachOf, operandReach]; omega)
    have hright : e.Within (reach n + 2 * n + 3) := ih₂.mono (by simp only [reachOf]; omega)
    exact within_branch .infix0 (by simp [hleft, hright, within_leaf])
  | expr1Single _ ih | expr2Single _ ih => exact ⟨ih,nofun,Nat.zero_le _⟩
  | @expr1Infix n us vs t op c _ _ _ ih₁ ih₂ =>
    have hle := operandReach_le_succ n
    exact ih₂.cons ih₁ (by simp only [reachOf]; omega)
  | @expr2Infix n us vs t op c _ _ _ ih₁ ih₂ => exact ih₂.cons ih₁ (operandReach_le_succ n)
  | exprApply _ _ ih₁ ih₂ => exact within_application (ih₁.leftNested .infix2) ih₂
  | argsCons _ _ ih₁ ih₂ => exact List.forall_mem_cons.mpr ⟨ih₁.leftNested .infix2,ih₂⟩
  | exprPreSingle _ ih | exprPostSingle _ ih | operandBlock _ ih => exact ih
  | exprPrefixed _ _ ih => exact within_pair rfl (within_leaf _ _) ih
  | exprPostfixed _ _ ih => exact within_pair rfl ih (within_leaf _ _)
  | symbol _ | string _ => exact within_leaf _ _
  | block _ _ _ ih => exact within_block ih
  | blockExpr _ _ _ _ _ ih₁ ih₂ =>
    exact within_block (List.forall_mem_cons.mpr ⟨within_pair rfl (within_leaf _ _) ih₁,ih₂⟩)

theorem Reads.within_top {n : Nat} {us : List Token} {stmts : List Tree} (h : Reads n .top us (.list stmts)) :
    (Tree.branch .stmts stmts).Within (n * (n + 3)) := by
  rw [← reach_eq]
  exact within_branch .stmts h.within

/-! ## The longest path is there -/

section Attained

variable {n k : Nat} {us : List Token} {t : Tree}

theorem Reads.exprApply_of_operand (h : Reads n .operand us (.tree t)) : Reads n .exprApply us (.tree t) := by
  have happly := (Reads.expr2Single (.exprPreSingle (.exprPostSingle h))).exprApply .argsNil
  rwa [List.append_nil] at happly

theorem Reads.expr0_of_operand (h : Reads n .operand us (.tree t)) : Reads n .expr0 us (.tree t) :=
  .expr0Single (.expr1Single h.exprApply_of_operand)

/-- An expression between brackets has a path that is longer by the block. -/
theorem Reads.enclosed {b : Bracket} {o c : Token} (h : Reads n .expr0 us (.tree t)) (hk : t.Crosses k)
    (ho : o.kind = .opening b) (hc : c.kind = .closing b) :
    ∃ x, Reads (n + 1) .operand (o :: us ++ [c]) (.tree x) ∧ x.Crosses (k + 1) := by
  obtain ⟨first,us,rfl,hfirst⟩ := h.exists_first
  have hblock := Reads.blockExpr ho hfirst h .topNil hc
  rw [List.append_nil] at hblock
  have hstmt : (Tree.branch .stmt [.leaf (marker first), t]).Crosses k := .branch (by simp) hk
  have hstmts : (Tree.branch .stmts [.branch .stmt [.leaf (marker first), t]]).Crosses k := .branch (by simp) hstmt
  exact ⟨_,.operandBlock hblock,hstmts.nesting rfl (by simp)⟩

/-- A symbol in as many brackets as there are levels. -/
theorem reads_blocks {b : Bracket} {x : Token} (hx : x.kind = .word .symbol) {os cs : List Token}
    (hlength : os.length = cs.length) (ho : ∀ o ∈ os, o.kind = .opening b) (hc : ∀ c ∈ cs, c.kind = .closing b) :
    ∃ t, Reads os.length .operand (os ++ x :: cs) (.tree t) ∧ t.Crosses os.length := by
  induction os generalizing cs with
  | nil =>
    obtain rfl := List.length_eq_zero_iff.mp hlength.symm
    exact ⟨_,.symbol hx,.leaf x⟩
  | cons o os ih =>
    -- The outermost bracket is closed by the last of them.
    rcases List.eq_nil_or_concat cs with rfl | ⟨cs,c,rfl⟩
    · cases hlength
    · have hinner : os.length = cs.length := by simpa using hlength
      obtain ⟨t,ht,hcrosses⟩ := ih hinner (fun o ho' => ho o (List.mem_cons_of_mem _ ho'))
        fun c hc' => hc c (by simp [hc'])
      obtain ⟨y,hy,hblock⟩ := ht.expr0_of_operand.enclosed hcrosses (ho o List.mem_cons_self) (hc c (by simp))
      refine ⟨y,?_,hblock⟩
      simpa using hy

/-- `k` operators `op`, each with `x` to its right. -/
def links (op x : Token) : (k : Nat) → List Token
  | 0 => []
  | k + 1 => op :: x :: links op x k

/-- As many operators may follow an operand as there are levels left. The two tiers of chains are alike in this. -/
theorem reads_links {a a' : Phrase} (op x : Token)
    (hsingle : ∀ {n us t}, Reads n a us (.tree t) → Reads n a' us (.chain ⟨t, []⟩))
    (hlink : ∀ {n us vs t c}, Reads (n + 1) a us (.tree t) → Reads n a' vs (.chain c) →
      Reads (n + 1) a' (us ++ op :: vs) (.chain ⟨t, (op, c.first) :: c.rest⟩))
    (hx : ∀ n, Reads n a [x] (.tree (.leaf x))) (h : Reads n a us (.tree t)) (hle : k ≤ n) :
    Reads n a' (us ++ links op x k) (.chain ⟨t, List.replicate k (op, .leaf x)⟩) := by
  induction k generalizing n us t with
  | zero =>
    rw [links, List.append_nil]
    exact hsingle h
  | succ k ih =>
    obtain ⟨n,rfl⟩ : ∃ m, n = m + 1 := Nat.exists_eq_add_of_le' (Nat.le_of_add_left_le hle)
    exact hlink h (ih (hx n) (by omega))

theorem Chain.crosses_links (rule : Rule) (hrule : rule.nests = true) (h : t.Crosses n) (op x : Token) (k : Nat) :
    (Chain.leftNested rule ⟨t, List.replicate k (op, .leaf x)⟩).Crosses (n + k) := by
  have hchain := Chain.crosses_leftNested hrule (c := ⟨t, List.replicate k (op, .leaf x)⟩) h
  rwa [List.length_replicate] at hchain

/-- A token that stands nowhere. -/
def unplaced (kind : Token.Kind) (text : String) : Token := ⟨kind, 0, 1, "", text⟩

def operandToken : Token := unplaced (.word .symbol) "x"

def tightLinks (k : Nat) : List Token := links (unplaced (.word .inop2) "*") operandToken k

def looseLinks (k : Nat) : List Token := links (unplaced (.word .inop1) "+") operandToken k

/-- An expression with the longest path for `n` levels: a block, below as many operators of either tier as there are
levels and one assignment, and inside it the same for one level less. -/
def tower : (n : Nat) → List Token
  | 0 => [operandToken]
  | n + 1 =>
    unplaced (.opening .paren) "(" :: tower n ++ [unplaced (.closing .paren) ")"] ++ tightLinks (n + 1) ++
      looseLinks (n + 1) ++ [unplaced (.word .inop0) "=", operandToken]

theorem reads_operandToken (n : Nat) : Reads n .operand [operandToken] (.tree (.leaf operandToken)) := .symbol rfl

theorem tower_reaches (n : Nat) : ∃ t, Reads n .expr0 (tower n) (.tree t) ∧ t.Crosses (reach n) := by
  induction n with
  | zero => exact ⟨_,(reads_operandToken 0).expr0_of_operand,.leaf operandToken⟩
  | succ n ih =>
    obtain ⟨e,he,hcrosses⟩ := ih
    obtain ⟨x,hx,hblock⟩ := he.enclosed hcrosses (b := .paren) (o := unplaced (.opening .paren) "(")
      (c := unplaced (.closing .paren) ")") rfl rfl
    have htight := reads_links (unplaced (.word .inop2) "*") operandToken .expr2Single (fun h => h.expr2Infix rfl)
      (fun n => .exprPreSingle (.exprPostSingle (reads_operandToken n))) (.exprPreSingle (.exprPostSingle hx))
      (Nat.le_refl (n + 1))
    have happly := htight.exprApply .argsNil
    rw [List.append_nil] at happly
    have hloose := reads_links (unplaced (.word .inop1) "+") operandToken .expr1Single (fun h => h.expr1Infix rfl)
      (fun n => (reads_operandToken n).exprApply_of_operand) happly (Nat.le_refl (n + 1))
    have hassign : Reads (n + 1) .expr0 (tower (n + 1)) _ :=
      hloose.expr0Infix rfl (reads_operandToken n).expr0_of_operand
    refine ⟨_,hassign,?_⟩
    have hinner := Chain.crosses_links .infix2 rfl hblock (unplaced (.word .inop2) "*") operandToken (n + 1)
    have houter := Chain.crosses_links .infix1 rfl hinner (unplaced (.word .inop1) "+") operandToken (n + 1)
    have hlength : reach (n + 1) = reach n + 1 + (n + 1) + (n + 1) + 1 := by
      rw [reach]
      omega
    rw [hlength]
    exact houter.nesting rfl List.mem_cons_self

/-- One line with one expression. -/
theorem Reads.top_of_expr0 {bol : Token} (hbol : bol.kind = .bol) (h : Reads n .expr0 us (.tree t)) :
    Reads n .top (bol :: us) (.list [.branch .stmt [.leaf bol, t]]) := by
  have htop := (Reads.stmtExpr hbol h).topCons .topNil
  rwa [List.append_nil] at htop

theorem crosses_line (h : t.Crosses k) (bol : Token) :
    (Tree.branch .stmts [.branch .stmt [.leaf bol, t]]).Crosses k := by
  have hline : (Tree.branch .stmt [.leaf bol, t]).Crosses k := .branch (by simp) h
  exact .branch List.mem_cons_self hline

end Attained

/-! ## A path longer than the number of levels -/

/-- The tokens of `((a)) + x` with `n` pairs of brackets. -/
def deepSum (n : Nat) : List Token :=
  ⟨.bol, 0, 1, "", ""⟩ ::
    (((List.range n).map fun i => ⟨.opening .paren, i, 1, "", "("⟩) ++
      ⟨.word .symbol, n, 1, "", "a"⟩ :: ((List.range n).map fun i => ⟨.closing .paren, n + 1 + i, 1, "", ")"⟩) ++
      ⟨.word .inop1, 2 * n + 2, 1, " ", "+"⟩ :: [⟨.word .symbol, 2 * n + 4, 1, " ", "x"⟩])

example : Token.scan "((a)) + x" = .ok (deepSum 2) := rfl

/-- The brackets use up all levels, and the operator after them needs one only for what stands to its right. -/
theorem reads_deepSum (n : Nat) : ∃ stmts, Reads (n + 1) .top (deepSum (n + 1)) (.list stmts) ∧
    (Tree.branch .stmts stmts).Crosses (n + 2) := by
  have hlength : ∀ f g : Nat → Token, ((List.range (n + 1)).map f).length = ((List.range (n + 1)).map g).length := by
    intro f g
    rw [List.length_map, List.length_map]
  obtain ⟨t,ht,hcrosses⟩ := reads_blocks (b := .paren) (x := ⟨.word .symbol, n + 1, 1, "", "a"⟩) rfl
    (hlength (fun i => ⟨.opening .paren, i, 1, "", "("⟩) fun i => ⟨.closing .paren, n + 1 + 1 + i, 1, "", ")"⟩)
    (by simp) (by simp)
  rw [List.length_map, List.length_range] at ht hcrosses
  have hx : Reads n .expr1 [⟨.word .symbol, 2 * (n + 1) + 4, 1, " ", "x"⟩] _ :=
    .expr1Single (Reads.exprApply_of_operand (.symbol rfl))
  have hop : (⟨.word .inop1, 2 * (n + 1) + 2, 1, " ", "+"⟩ : Token).kind = .word .inop1 := rfl
  have hsum := Reads.expr0Single (ht.exprApply_of_operand.expr1Infix hop hx)
  refine ⟨_,hsum.top_of_expr0 rfl,crosses_line ?_ _⟩
  exact hcrosses.nesting rfl List.mem_cons_self

end Gapscript.Parse

namespace Gapscript
open Parse

/-- A path from the root of a tree to a leaf crosses no more constructs that nest than the square of the limit and three
times the limit together. -/
theorem nesting_bounds_paths {tokens : List Token} {tree : Tree} (h : Tree.parse tokens = .ok tree) :
    tree.Within (maxNesting * (maxNesting + 3)) := by
  obtain ⟨stmts,rfl,hread⟩ := Tree.reads_of_parse h
  exact hread.within_top

/-- There is a program with a path of just this length. -/
theorem nesting_bounds_paths_tower : ∃ tree, Tree.parse (unplaced .bol "" :: tower maxNesting) = .ok tree ∧
    tree.Crosses (maxNesting * (maxNesting + 3)) ∧ tree.Within (maxNesting * (maxNesting + 3)) := by
  obtain ⟨t,ht,hcrosses⟩ := tower_reaches maxNesting
  have hbol : (unplaced .bol "").kind = .bol := rfl
  have hparse := Tree.parse_of_reads (ht.top_of_expr0 hbol)
  have hpath := crosses_line hcrosses (unplaced .bol "")
  exact ⟨_,hparse,reach_eq maxNesting ▸ hpath,nesting_bounds_paths hparse⟩

/-- Brackets up to the limit and one operator after them already make a path that is longer than the limit. -/
theorem paths_exceed_maxNesting : ∃ tree, Tree.parse (deepSum maxNesting) = .ok tree ∧
    tree.Crosses (maxNesting + 1) := by
  obtain ⟨stmts,hread,hcrosses⟩ := reads_deepSum 999
  exact ⟨_,Tree.parse_of_reads hread,hcrosses⟩

end Gapscript
