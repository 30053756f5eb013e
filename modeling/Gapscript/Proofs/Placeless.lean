import Gapscript.Error
import Gapscript.Proofs.Lexemes

/-! # Reading without places

Neither the rules of the grammar nor the terms made of their trees look at where a token stands or what was skipped in
front of it. This is said by taking the places away: the tree of tokens without places is the tree of the tokens, without
places. So token lists with the same lexemes are read and lowered alike, failures included.
-/
namespace Gapscript

/-- The token with its place taken away. -/
def Token.bare (t : Token) : Token := { t with pos := 0, line := 1, space := "" }

theorem Token.bare_eq_iff {t u : Token} : t.bare = u.bare ↔ t.lexeme = u.lexeme := by
  simp [bare, lexeme]

theorem Token.map_bare_eq_iff {ts us : List Token} :
    ts.map bare = us.map bare ↔ ts.map lexeme = us.map lexeme := by
  induction ts generalizing us with
  | nil => simp
  | cons t ts ih =>
    cases us with
    | nil => simp
    | cons u us => simp only [List.map_cons, List.cons.injEq, ih, bare_eq_iff]

namespace Tree

mutual

/-- The tree with the places of its tokens taken away. -/
def bare : Tree → Tree
  | .leaf t => .leaf t.bare
  | .branch rule children => .branch rule (bareAll children)

def bareAll : List Tree → List Tree
  | [] => []
  | t :: ts => bare t :: bareAll ts

end

theorem bareAll_eq_map (ts : List Tree) : bareAll ts = ts.map bare := by
  induction ts with
  | nil => rfl
  | cons t ts ih => rw [bareAll, List.map_cons, ih]

theorem length_bareAll (ts : List Tree) : (bareAll ts).length = ts.length := by
  rw [bareAll_eq_map, List.length_map]

end Tree

namespace Parse

def State.bare (s : State) : State := ⟨s.rest.map Token.bare, s.tooDeep.map (·.map Token.bare)⟩

def Chain.bare (c : Chain) : Chain := ⟨c.first.bare, c.rest.map (Prod.map Token.bare Tree.bare)⟩

theorem Chain.bare_leftNested (rule : Tree.Rule) (c : Chain) :
    (c.leftNested rule).bare = c.bare.leftNested rule := by
  obtain ⟨first,rest⟩ := c
  induction rest generalizing first with
  | nil => rfl
  | cons p rest ih =>
    obtain ⟨op,right⟩ := p
    exact ih (.branch rule [first, .leaf op, right])

/-- What `p` does with tokens, `q` does with the same tokens without places; `f` takes the places out of a result. -/
def Parallel {α : Type} (f : α → α) (p q : Parse α) : Prop := ∀ s : State, q s.bare = ((p s).1.map f, (p s).2.bare)

namespace Parallel

variable {α β : Type} {f : α → α} {g : β → β} {p q : Parse α}

theorem pure {a b : α} (h : f a = b) : Parallel f (Pure.pure a) (Pure.pure b) := by
  intro s
  rw [← h]
  rfl

theorem fail : Parallel f Parse.fail Parse.fail := by
  intro s
  rfl

theorem refused : Parallel f Parse.refused Parse.refused := by
  intro s
  rfl

theorem bind {k l : α → Parse β} (hp : Parallel f p q) (hk : ∀ a, Parallel g (k a) (l (f a))) :
    Parallel g (p >>= k) (q >>= l) := by
  intro s
  simp only [Bind.bind, Parse.bind, hp s]
  rcases p s with ⟨_ | a, s'⟩
  · rfl
  · simp only [Option.map_some, hk a s']
    rcases k a s' with ⟨_ | b, s''⟩
    · rfl
    · rfl

theorem optional (hp : Parallel f p q) : Parallel (Option.map f) (Parse.optional p) (Parse.optional q) := by
  intro s
  simp only [Parse.optional, hp s]
  rfl

theorem nested (hp : Parallel f p q) : Parallel f (Parse.nested p) (Parse.nested q) := by
  intro s
  have hdeep : s.bare.tooDeep.isSome = s.tooDeep.isSome := Option.isSome_map
  simp only [Parse.nested, hdeep]
  cases s.tooDeep.isSome with
  | true => rfl
  | false => exact hp s

/-- Only the length of the clock counts. -/
theorem repeated (hp : Parallel f p q) (clock : List Token) (s : State) :
    Parse.repeated q (clock.map Token.bare) s.bare =
      ((Parse.repeated p clock s).1.map f, (Parse.repeated p clock s).2.bare) := by
  induction clock generalizing s with
  | nil => rfl
  | cons t clock ih =>
    simp only [List.map_cons, Parse.repeated, hp s]
    rcases p s with ⟨_ | a, s'⟩
    · rfl
    · simp only [Option.map_some, ih s', List.map_cons]

theorem many (hp : Parallel f p q) : Parallel (List.map f) (Parse.many p) (Parse.many q) := by
  intro s
  have hrepeated := hp.repeated s.rest s
  simp only [Parse.many]
  rw [show s.bare.rest = s.rest.map Token.bare from rfl, hrepeated]
  rfl

theorem peek : Parallel Token.bare Parse.peek Parse.peek := by
  intro s
  simp only [Parse.peek, State.bare, List.head?_map]

theorem tokenIf {c : Token → Bool} (hc : ∀ t : Token, c t.bare = c t) :
    Parallel Token.bare (Parse.tokenIf c) (Parse.tokenIf c) := by
  rintro ⟨rest,deep⟩
  cases rest with
  | nil => rfl
  | cons t rest =>
    simp only [Parse.tokenIf, State.bare, List.map_cons, hc]
    cases c t with
    | true => rfl
    | false => rfl

theorem token (kind : Token.Kind) : Parallel Token.bare (Parse.token kind) (Parse.token kind) :=
  tokenIf fun _ => rfl

/-- An operator and what stands to the right of it. -/
theorem tail (hp : Parallel f p q) (context : Context) :
    Parallel (Option.map (Prod.map Token.bare f))
      (Parse.optional do
        let op ← Parse.token (.word context)
        let right ← Parse.nested p
        return (op, right))
      (Parse.optional do
        let op ← Parse.token (.word context)
        let right ← Parse.nested q
        return (op, right)) := by
  refine optional ?_
  refine (token _).bind fun op => hp.nested.bind fun right => ?_
  exact pure rfl

end Parallel

/-- The nested constructs do not look at places. -/
structure Inner.Placeless (inner : Inner) : Prop where
  expr0 : Parallel Tree.bare inner.expr0 inner.expr0
  chain1 : Parallel Chain.bare inner.chain1 inner.chain1
  chain2 : Parallel Chain.bare inner.chain2 inner.chain2
  delimited (b : Bracket) : Parallel Tree.bare (inner.delimited b) (inner.delimited b)

section Rules

variable {inner : Inner} (h : inner.Placeless)
include h

theorem parallel_block : Parallel Tree.bare (block inner) (block inner) := by
  refine Parallel.peek.bind fun t => ?_
  rw [show t.bare.kind = t.kind from rfl]
  cases t.kind with
  | opening b => exact (h.delimited b).nested
  | bol | closing | string | word => exact .fail

theorem parallel_operand : Parallel Tree.bare (operand inner) (operand inner) := by
  have hliteral : Parallel Tree.bare literal literal :=
    (Parallel.tokenIf fun _ => rfl).bind fun t => .pure rfl
  refine hliteral.optional.bind fun r => ?_
  cases r with
  | none => exact parallel_block h
  | some t => exact .pure rfl

theorem parallel_exprPost : Parallel Tree.bare (exprPost inner) (exprPost inner) := by
  refine (parallel_operand h).bind fun x => (Parallel.token _).optional.bind fun r => ?_
  cases r with
  | none => exact .pure rfl
  | some op => exact .pure rfl

theorem parallel_exprPre : Parallel Tree.bare (exprPre inner) (exprPre inner) := by
  refine (Parallel.token _).optional.bind fun r => ?_
  cases r with
  | none => exact parallel_exprPost h
  | some op => exact (parallel_exprPost h).bind fun x => .pure rfl

omit h in
theorem parallel_chain {operand : Parse Tree} {more : Parse Chain} (context : Context)
    (hoperand : Parallel Tree.bare operand operand) (hmore : Parallel Chain.bare more more) :
    Parallel Chain.bare (chain operand context more) (chain operand context more) := by
  refine hoperand.bind fun first => ?_
  refine (hmore.tail context).bind fun r => ?_
  cases r with
  | none => exact .pure rfl
  | some tail => exact .pure rfl

theorem parallel_expr2 : Parallel Tree.bare (expr2 inner) (expr2 inner) :=
  (parallel_chain .inop2 (parallel_exprPre h) h.chain2).bind fun c => .pure (c.bare_leftNested .infix2)

theorem parallel_exprApply : Parallel Tree.bare (exprApply inner) (exprApply inner) := by
  refine (parallel_expr2 h).bind fun callee => (parallel_expr2 h).many.bind fun args => ?_
  cases args with
  | nil => exact .pure rfl
  | cons arg args =>
    refine .pure ?_
    simp only [Tree.bare, Tree.bareAll, Tree.bareAll_eq_map, List.map_cons]

theorem parallel_chain1 : Parallel Chain.bare (chain1 inner) (chain1 inner) :=
  parallel_chain .inop1 (parallel_exprApply h) h.chain1

theorem parallel_expr0 : Parallel Tree.bare (expr0 inner) (expr0 inner) := by
  have hleft : Parallel Tree.bare (expr1 inner) (expr1 inner) :=
    (parallel_chain1 h).bind fun c => .pure (c.bare_leftNested .infix1)
  refine hleft.bind fun left => ?_
  refine (h.expr0.tail .inop0).bind fun r => ?_
  cases r with
  | none => exact .pure rfl
  | some tail => exact .pure rfl

theorem parallel_stmt : Parallel Tree.bare (stmt inner) (stmt inner) := by
  refine (Parallel.token _).bind fun bol => (parallel_expr0 h).optional.bind fun r => ?_
  cases r with
  | none => exact .pure rfl
  | some e => exact .pure rfl

/-- The line start put in takes its place from a token, so it has none where that token has none. -/
theorem parallel_implicitStmt : Parallel Tree.bare (implicitStmt inner) (implicitStmt inner) := by
  refine Parallel.peek.bind fun first => ?_
  rw [show first.bare.kind = first.kind from rfl]
  by_cases hbol : first.kind = .bol
  · rw [if_pos hbol, if_pos hbol]
    exact .fail
  · rw [if_neg hbol, if_neg hbol]
    exact (parallel_expr0 h).bind fun e => .pure rfl

theorem statements_bare (inBlock : Bool) (s : State) : statements inner inBlock s.bare =
    ((statements inner inBlock s).1.map Tree.bare, (statements inner inBlock s).2.bare) := by
  have hfirst : (if inBlock then implicitStmt inner s.bare else (none, s.bare)) =
      ((if inBlock then implicitStmt inner s else (none, s)).1.map Tree.bare,
        (if inBlock then implicitStmt inner s else (none, s)).2.bare) := by
    cases inBlock with
    | false => rfl
    | true => exact parallel_implicitStmt h s
  simp only [statements, hfirst]
  generalize (if inBlock then implicitStmt inner s else (none, s)) = r
  obtain ⟨first,s'⟩ := r
  have hmore := (parallel_stmt h).repeated s'.rest s'
  simp only [show s'.bare.rest = s'.rest.map Token.bare from rfl, hmore, List.map_append, Prod.mk.injEq,
    List.append_cancel_right_eq, and_true]
  cases first with
  | none => rfl
  | some t => rfl

theorem parallel_delimited (b : Bracket) : Parallel Tree.bare (delimited inner b) (delimited inner b) := by
  have hbody : Parallel Tree.bare (stmts inner true) (stmts inner true) := by
    intro s
    simp only [stmts, statements_bare h true s, Option.map_some, Tree.bare, Tree.bareAll_eq_map]
  exact (Parallel.token _).bind fun o => hbody.bind fun body => (Parallel.token _).bind fun c => .pure rfl

theorem Inner.Placeless.next : inner.next.Placeless where
  expr0 := parallel_expr0 h
  chain1 := parallel_chain1 h
  chain2 := parallel_chain .inop2 (parallel_exprPre h) h.chain2
  delimited := parallel_delimited h

end Rules

theorem Inner.placeless_upTo (n : Nat) : (Inner.upTo n).Placeless := by
  induction n with
  | zero => exact ⟨.refused,.refused,.refused,fun _ => .refused⟩
  | succ n ih => exact ih.next

end Parse

/-- The same failure, apart from where it is. -/
inductive ParseError.Alike : ParseError → ParseError → Prop where
  | trailingInput {t u : Token} (h : t.lexeme = u.lexeme) : Alike (.trailingInput t) (.trailingInput u)
  | tooDeep {max pos line pos' line' : Nat} : Alike (.tooDeep max pos line) (.tooDeep max pos' line')

/-- Tokens with the same lexemes are read as the same tree but for the places, or fail alike. -/
theorem Tree.parse_alike {ts us : List Token} (h : ts.map Token.lexeme = us.map Token.lexeme) :
    (∃ t u, Tree.parse ts = .ok t ∧ Tree.parse us = .ok u ∧ t.bare = u.bare) ∨
      ∃ e e', Tree.parse ts = .error e ∧ Tree.parse us = .error e' ∧ e.Alike e' := by
  have hbare := Token.map_bare_eq_iff.mpr h
  have hinner := Parse.Inner.placeless_upTo Parse.maxNesting
  have hts := Parse.statements_bare hinner false ⟨ts, none⟩
  have hus := Parse.statements_bare hinner false ⟨us, none⟩
  have hstate : Parse.State.bare ⟨ts, none⟩ = Parse.State.bare ⟨us, none⟩ := by
    simp only [Parse.State.bare, hbare, Option.map_none]
  rw [hstate, hus] at hts
  unfold Tree.parse
  generalize Parse.statements (.upTo Parse.maxNesting) false ⟨ts, none⟩ = x at hts
  generalize Parse.statements (.upTo Parse.maxNesting) false ⟨us, none⟩ = y at hts
  obtain ⟨children,rest,deep⟩ := x
  obtain ⟨children',rest',deep'⟩ := y
  simp only [Parse.State.bare, Prod.mk.injEq, Parse.State.mk.injEq] at hts
  obtain ⟨hchildren,hrest,hdeep⟩ := hts
  cases deep with
  | some r =>
    cases deep' with
    | some r' => exact .inr ⟨_,_,rfl,rfl,.tooDeep⟩
    | none => cases hdeep
  | none =>
  cases deep' with
  | some r' => cases hdeep
  | none =>
  cases rest with
  | cons t rest =>
    cases rest' with
    | cons u rest' =>
      obtain ⟨hhead,_⟩ := List.cons.inj hrest
      exact .inr ⟨_,_,rfl,rfl,.trailingInput (Token.bare_eq_iff.mp hhead.symm)⟩
    | nil => cases hrest
  | nil =>
    cases rest' with
    | cons u rest' => cases hrest
    | nil =>
      refine .inl ⟨_,_,rfl,rfl,?_⟩
      simp only [Tree.bare, Tree.bareAll_eq_map, hchildren]

namespace Term
open Gapscript.Tree

theorem isComma_bare (t : Tree) : isComma t.bare = isComma t := by
  cases t with
  | leaf t => rfl
  | branch rule children => rfl

theorem rule?_bare (t : Tree) : t.bare.rule? = t.rule? := by
  cases t with
  | leaf t => rfl
  | branch rule children => rfl

theorem lowering_bare :
    (∀ t, ofExpr t.bare = ofExpr t) ∧ (∀ ts, ofStmts (bareAll ts) = ofStmts ts) ∧
      (∀ ts, listArgs (bareAll ts) = listArgs ts) ∧ ∀ ts, callArgs (bareAll ts) = callArgs ts := by
  apply ofExpr.mutual_induct
  case case1 => intro t; rfl
  case case2 =>
    intro left op right hleft hright
    simp only [bare, bareAll, ofExpr, hleft, hright]
  case case3 | case5 =>
    intro left op right hcomma hleft hright
    simp only [bare, bareAll, ofExpr, isComma_bare, hcomma, if_true, hleft, hright]
  case case4 | case6 =>
    intro left op right hcomma hop hleft hright
    simp only [bare, bareAll, ofExpr, isComma_bare, hcomma, hop, hleft, hright]
  case case7 =>
    intro callee args hcallee hcall hlist
    simp only [bare, bareAll, ofExpr, hcallee, hlist, hcall]
  case case8 =>
    intro callee rule children hrule
    simp only [bare, bareAll]
    rw [ofExpr, ofExpr]
    all_goals exact hrule
  case case9 =>
    intro op operand hop hoperand
    simp only [bare, bareAll, ofExpr, hop, hoperand]
  case case10 =>
    intro operand op hop hoperand
    simp only [bare, bareAll, ofExpr, hop, hoperand]
  case case11 =>
    intro b o rule body c hbody
    simp only [bare, bareAll, ofExpr, hbody]
  case case12 =>
    intro b o t c
    simp only [bare, bareAll, ofExpr]
  case case13 | case14 | case15 =>
    intro children
    simp only [bare, ofExpr]
  case case16 =>
    intro rule children h0 h1 h2 hargs happly hpre hpost hblock hleaf hstmts hstmt hargs'
    -- The children without places are as many and have the same rules as before, so no other case fits them.
    cases rule with
    | stmts => exact (hstmts rfl).elim
    | stmt => exact (hstmt rfl).elim
    | args => exact (hargs' rfl).elim
    | infix0 | infix1 | infix2 =>
      rcases children with _ | ⟨x, _ | ⟨y, _ | ⟨z, _ | ⟨w, more⟩⟩⟩⟩
      case cons.cons.cons.nil =>
        first
        | exact (h0 x y z rfl rfl).elim
        | exact (h1 x y z rfl rfl).elim
        | exact (h2 x y z rfl rfl).elim
      all_goals simp only [bare, bareAll, ofExpr, List.length_cons, length_bareAll]
    | apply =>
      rcases children with _ | ⟨x, _ | ⟨_ | ⟨r, cs⟩, _ | ⟨z, more⟩⟩⟩
      case cons.cons.branch.nil => exact (happly x r cs rfl rfl).elim
      all_goals simp only [bare, bareAll, ofExpr, List.length_cons, length_bareAll]
    | prefixed =>
      rcases children with _ | ⟨x, _ | ⟨y, _ | ⟨z, more⟩⟩⟩
      case cons.cons.nil => exact (hpre x y rfl rfl).elim
      all_goals simp only [bare, bareAll, ofExpr, List.length_cons, length_bareAll]
    | postfixed =>
      rcases children with _ | ⟨x, _ | ⟨y, _ | ⟨z, more⟩⟩⟩
      case cons.cons.nil => exact (hpost x y rfl rfl).elim
      all_goals simp only [bare, bareAll, ofExpr, List.length_cons, length_bareAll]
    | block b =>
      rcases children with _ | ⟨x, _ | ⟨_ | ⟨r, cs⟩, _ | ⟨z, _ | ⟨w, more⟩⟩⟩⟩
      case cons.cons.leaf.cons.nil t => exact (hleaf b x t z rfl rfl).elim
      case cons.cons.branch.cons.nil => exact (hblock b x r cs z rfl rfl).elim
      all_goals simp only [bare, bareAll, ofExpr, List.length_cons, length_bareAll]
  case case17 | case22 | case24 => rfl
  case case18 =>
    intro bol e more rest he hrest
    simp only [bare, bareAll, ofStmts, he, hrest]
  case case19 =>
    intro children rest h hrest
    rcases children with _ | ⟨bol, _ | ⟨e, more⟩⟩
    · simp only [bare, bareAll, ofStmts, hrest]
    · simp only [bare, bareAll, ofStmts, hrest]
    · exact (h bol e more rfl).elim
  case case20 =>
    intro rule children rest _ hrule
    rw [bareAll, bare, ofStmts, ofStmts]
    all_goals simp_all
  case case21 =>
    intro t rest
    rfl
  case case23 =>
    intro arg args harg hargs
    simp only [bareAll, listArgs, harg, hargs]
  case case25 =>
    intro arg args harg hargs
    simp only [bareAll, callArgs, harg, hargs, rule?_bare]

/-- Trees that differ in places only have the same term, or fail in the same way. -/
theorem ofTree_eq_of_bare {t u : Tree} (h : t.bare = u.bare) : ofTree t = ofTree u := by
  have hbare (t : Tree) : ofTree t.bare = ofTree t := by
    cases t with
    | leaf t => rfl
    | branch rule children =>
      cases rule with
      | stmts => simp only [bare, ofTree, lowering_bare.2.1]
      | _ => rfl
  rw [← hbare t, h, hbare u]

end Term

end Gapscript
