import Gapscript.Tree.Parse

/-! # The grammar of token kinds

The grammar is stated apart from the rules that read tokens, over kinds only, and every derivation has a nesting. A
construct is nested once for each block around it, itself included if it is a block, and once for each infix operator
to whose right it stands in a chain; the nesting of a derivation is that of its deepest construct.
-/
namespace Gapscript.Grammar

/-- The phrases of the language. Repetitions have a phrase of their own: `top` is any number of statements, `args`
any number of tight expressions. -/
inductive Phrase where
  | top
  | stmt
  | expr0
  | expr1
  | exprApply
  | args
  | expr2
  | exprPre
  | exprPost
  | operand
  | block
  deriving DecidableEq, Repr

open Token (Kind)

/-- The kinds `ks` are derivable from a phrase by a derivation of nesting `n`. -/
inductive Derives : Phrase → (n : Nat) → (ks : List Kind) → Prop where
  | topNil : Derives .top 0 []
  | topCons {m n : Nat} {u v : List Kind} (head : Derives .stmt m u) (tail : Derives .top n v) :
      Derives .top (max m n) (u ++ v)
  | stmtBlank : Derives .stmt 0 [.bol]
  | stmtExpr {n : Nat} {u : List Kind} (e : Derives .expr0 n u) : Derives .stmt n (.bol :: u)
  | expr0Single {n : Nat} {u : List Kind} (e : Derives .expr1 n u) : Derives .expr0 n u
  | expr0Infix {m n : Nat} {u v : List Kind} (left : Derives .expr1 m u) (right : Derives .expr0 n v) :
      Derives .expr0 (max m (n + 1)) (u ++ .word .inop0 :: v)
  | expr1Single {n : Nat} {u : List Kind} (e : Derives .exprApply n u) : Derives .expr1 n u
  | expr1Infix {m n : Nat} {u v : List Kind} (left : Derives .exprApply m u) (right : Derives .expr1 n v) :
      Derives .expr1 (max m (n + 1)) (u ++ .word .inop1 :: v)
  | exprApply {m n : Nat} {u v : List Kind} (callee : Derives .expr2 m u) (args : Derives .args n v) :
      Derives .exprApply (max m n) (u ++ v)
  | argsNil : Derives .args 0 []
  | argsCons {m n : Nat} {u v : List Kind} (head : Derives .expr2 m u) (tail : Derives .args n v) :
      Derives .args (max m n) (u ++ v)
  | expr2Single {n : Nat} {u : List Kind} (e : Derives .exprPre n u) : Derives .expr2 n u
  | expr2Infix {m n : Nat} {u v : List Kind} (left : Derives .exprPre m u) (right : Derives .expr2 n v) :
      Derives .expr2 (max m (n + 1)) (u ++ .word .inop2 :: v)
  | exprPreSingle {n : Nat} {u : List Kind} (e : Derives .exprPost n u) : Derives .exprPre n u
  | exprPrefixed {n : Nat} {u : List Kind} (e : Derives .exprPost n u) : Derives .exprPre n (.word .preop :: u)
  | exprPostSingle {n : Nat} {u : List Kind} (e : Derives .operand n u) : Derives .exprPost n u
  | exprPostfixed {n : Nat} {u : List Kind} (e : Derives .operand n u) :
      Derives .exprPost n (u ++ [.word .postop])
  | symbol : Derives .operand 0 [.word .symbol]
  | string (q : Quote) : Derives .operand 0 [.string q]
  | operandBlock {n : Nat} {u : List Kind} (e : Derives .block n u) : Derives .operand n u
  | block (b : Bracket) {n : Nat} {v : List Kind} (body : Derives .top n v) :
      Derives .block (n + 1) (.opening b :: v ++ [.closing b])
  | blockExpr (b : Bracket) {m n : Nat} {u v : List Kind} (first : Derives .expr0 m u) (body : Derives .top n v) :
      Derives .block (max m n + 1) (.opening b :: u ++ v ++ [.closing b])

/-- The kinds that an expression can begin with. -/
def Starts : Kind → Prop
  | .opening _ | .string _ | .word .symbol | .word .preop => True
  | _ => False

/-- What the first kind of a phrase can be, and whether there has to be one. -/
def Phrase.HeadOf : Phrase → Option Kind → Prop
  | .top, head => ∀ k ∈ head, k = .bol
  | .stmt, head => head = some .bol
  | .args, head => ∀ k ∈ head, Starts k
  | .exprPost, head | .operand, head => ∃ k ∈ head, Starts k ∧ k ≠ .word .preop
  | .block, head => ∃ b, head = some (.opening b)
  | _, head => ∃ k ∈ head, Starts k

/-- A phrase is told apart by the kind it begins with. -/
theorem Derives.headOf {a : Phrase} {n : Nat} {ks : List Kind} (h : Derives a n ks) : a.HeadOf ks.head? := by
  induction h with
  | topNil | argsNil => intro k hk; cases hk
  | topCons _ _ ih _ =>
    intro k hk
    rw [List.head?_append, show _ = _ from ih] at hk
    exact (Option.some.inj hk).symm
  | argsCons _ _ ih _ =>
    obtain ⟨k,hk,hs⟩ := ih
    intro k' hk'
    rw [List.head?_append, Option.mem_def.mp hk] at hk'
    exact Option.some.inj hk' ▸ hs
  | stmtBlank | stmtExpr => rfl
  | expr0Single _ ih | expr1Single _ ih | expr2Single _ ih | exprPostSingle _ ih => exact ih
  | exprPreSingle _ ih =>
    obtain ⟨k,hk,hs,_⟩ := ih
    exact ⟨k,hk,hs⟩
  | operandBlock _ ih =>
    obtain ⟨b,hb⟩ := ih
    exact ⟨.opening b,hb,trivial,nofun⟩
  | expr0Infix _ _ ih _ | expr1Infix _ _ ih _ | expr2Infix _ _ ih _ | exprApply _ _ ih _ | exprPostfixed _ ih =>
    obtain ⟨k,hk,hs⟩ := ih
    exact ⟨k,by rw [List.head?_append, Option.mem_def.mp hk]; rfl,hs⟩
  | exprPrefixed => exact ⟨_,rfl,trivial⟩
  | symbol | string => exact ⟨_,rfl,trivial,nofun⟩
  | block b | blockExpr b => exact ⟨b,rfl⟩

/-- How loose a phrase is: the kinds that can go on with it, or with a tighter phrase at its end, are those up to its
own level. -/
def Phrase.level : Phrase → Nat
  | .operand | .block => 0
  | .exprPre | .exprPost => 1
  | .expr2 => 2
  | .exprApply | .args => 3
  | .expr1 => 4
  | .expr0 | .stmt => 5
  | .top => 6

/-- The level of the phrases that go on with a token of this kind. -/
def level : Kind → Nat
  | .word .postop => 1
  | .word .inop2 => 2
  | .opening _ | .string _ | .word .symbol | .word .preop => 3
  | .word .inop1 => 4
  | .word .inop0 => 5
  | .bol => 6
  | .closing _ => 7

theorem Starts.level_eq {k : Kind} (h : Starts k) : level k = 3 := by
  unfold Starts at h
  split at h
  · rfl
  · rfl
  · rfl
  · rfl
  · cases h

end Gapscript.Grammar
