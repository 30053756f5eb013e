import Gapscript.Proofs.Literals

/-! # Compiled programs are well formed

Terms as such may have any reference anywhere, operators with any number of arguments and literals without quotes. Those
that come from a source may not: lowering makes a list only of what has items, an operator keeps the operands that the
grammar gave it, and the scanner ends every literal. So what evaluates or prints a program meets none of the other shapes.
-/
namespace Gapscript

/-- The number of operands that an operator stands between, before or after. A comma stands for a list in one context only,
and the list may have any number of items but none. -/
def Ref.Takes (op : Ref) (n : Nat) : Prop :=
  match op.context with
  | .symbol | .inop0 => False
  | .inop1 | .inop2 => op.text ≠ "," ∧ n = 2
  | .preop => n = 1
  | .postop => if op.text = "," then 1 ≤ n else n = 1

namespace Term

/-- A term as it stands inside of a program. -/
inductive WellFormed : Term → Prop where
  | block {b : Bracket} {stmts : List Term} (hstmts : ∀ t ∈ stmts, WellFormed t) :
      WellFormed (.block (.enclosed b) stmts)
  | assign {targets : List Ref} {value : Term} (hne : targets ≠ []) (htargets : ∀ r ∈ targets, r.context = .symbol)
      (hvalue : WellFormed value) : WellFormed (.assign targets value)
  | operation {op : Ref} {args : List Term} (hop : op.Takes args.length) (hargs : ∀ t ∈ args, WellFormed t) :
      WellFormed (.apply (.ref op) args)
  | call {operator : Term} {args : List Term} (hoperator : WellFormed operator) (hargs : ∀ t ∈ args, WellFormed t) :
      WellFormed (.apply operator args)
  | ref {r : Ref} (hr : r.context = .symbol) : WellFormed (.ref r)
  | str {quote : Quote} {inside : List Char} (h : Scan.Enclosed quote inside) :
      WellFormed (.str (String.ofList (quote.char :: inside ++ [quote.char])))

variable {t u : Term} {op : Ref} {args ts : List Term} {rest : List (Ref × Term)}

/-! ## Terms put together -/

theorem wellFormed_ref_iff {r : Ref} : (Term.ref r).WellFormed ↔ r.context = .symbol := by
  constructor
  · intro h
    cases h with
    | ref hr => exact hr
  · exact .ref

theorem wellFormed_list_iff : (list ts).WellFormed ↔ ts ≠ [] ∧ ∀ t ∈ ts, t.WellFormed := by
  rw [list]
  constructor
  · intro h
    cases h with
    | operation hop hargs => exact ⟨List.length_pos_iff.mp hop,hargs⟩
    | call hoperator => cases wellFormed_ref_iff.mp hoperator
  · rintro ⟨hne,hts⟩
    exact .operation (List.length_pos_iff.mpr hne) hts

namespace WellFormed

theorem items (h : t.WellFormed) : t.items ≠ [] ∧ ∀ s ∈ t.items, s.WellFormed := by
  cases hlist : t.isList with
  | false =>
    rw [items_of_not_isList hlist]
    exact ⟨List.cons_ne_nil _ _,List.forall_mem_singleton.mpr h⟩
  | true =>
    rw [← list_items hlist] at h
    exact wellFormed_list_iff.mp h

theorem operate (hop : op.context = .inop1 ∨ op.context = .inop2) (ht : t.WellFormed) (hu : u.WellFormed) :
    (t.operate op u).WellFormed := by
  unfold Term.operate
  split
  · have happend := List.forall_mem_append.mpr ⟨ht.items.2,List.forall_mem_singleton.mpr hu⟩
    exact wellFormed_list_iff.mpr ⟨List.append_ne_nil_of_right_ne_nil _ (List.cons_ne_nil u []),happend⟩
  · next hcomma =>
    have htakes : op.Takes [t, u].length := by
      unfold Ref.Takes
      rcases hop with hop | hop <;> rw [hop] <;> exact ⟨hcomma,rfl⟩
    exact .operation htakes (List.forall_mem_cons.mpr ⟨ht,List.forall_mem_singleton.mpr hu⟩)

theorem operateAll (hrest : ∀ link ∈ rest, link.1.context = .inop1 ∨ link.1.context = .inop2) (ht : t.WellFormed)
    (hlinks : ∀ link ∈ rest, link.2.WellFormed) : (t.operateAll rest).WellFormed := by
  induction rest generalizing t with
  | nil => exact ht
  | cons link rest ih =>
    obtain ⟨hop,hrest⟩ := List.forall_mem_cons.mp hrest
    obtain ⟨hlink,hlinks⟩ := List.forall_mem_cons.mp hlinks
    exact ih hrest (ht.operate hop hlink) hlinks

theorem asArguments (h : t.WellFormed) : ∀ s ∈ t.asArguments, s.WellFormed := by
  unfold Term.asArguments
  split
  · unfold spread
    split
    · exact List.forall_mem_nil _
    · next heq =>
      obtain ⟨_,rfl⟩ := Term.block.inj heq
      cases h with
      | block hstmts => exact (List.forall_mem_singleton.mp hstmts).items.2
    · exact List.forall_mem_singleton.mpr h
  · exact List.forall_mem_singleton.mpr h

theorem flatMap {f : Term → List Term} (hf : ∀ {t : Term}, t.WellFormed → ∀ s ∈ f t, s.WellFormed)
    (hts : ∀ t ∈ ts, t.WellFormed) : ∀ s ∈ ts.flatMap f, s.WellFormed := by
  intro s hs
  obtain ⟨t,ht,hs⟩ := List.mem_flatMap.mp hs
  exact hf (hts t ht) s hs

theorem applyTo (ht : t.WellFormed) (hargs : ∀ s ∈ args, s.WellFormed) : (t.applyTo args).WellFormed := by
  unfold Term.applyTo
  split
  · exact ht
  · split
    · have happend := List.forall_mem_append.mpr ⟨ht.items.2,flatMap (fun h => h.items.2) hargs⟩
      exact wellFormed_list_iff.mpr ⟨List.append_ne_nil_of_left_ne_nil ht.items.1 _,happend⟩
    · exact .call ht (flatMap asArguments hargs)

theorem targets {refs : List Ref} (ht : t.WellFormed) (h : t.targets = .ok refs) :
    refs ≠ [] ∧ ∀ r ∈ refs, r.context = .symbol := by
  obtain ⟨hne,hitems⟩ := ht.items
  rw [items_of_targets h] at hne hitems
  refine ⟨fun hnil => hne (congrArg _ hnil),fun r hr => ?_⟩
  exact wellFormed_ref_iff.mp (hitems _ (List.mem_map_of_mem hr))

end WellFormed

end Term

/-! ## Meanings -/

/-- If the lexeme is a string, it is a literal. -/
def Lexeme.Terminated (l : Lexeme) : Prop := ∀ quote, l.kind = .string quote → (Term.str l.text).WellFormed

theorem Scan.Closed.terminated {t : Token} (h : Scan.Closed t) : t.lexeme.Terminated := by
  intro quote hkind
  obtain ⟨inside,hinside,htext⟩ := h quote hkind
  have hstr : (Term.str t.text).WellFormed := htext ▸ .str hinside
  exact hstr

namespace Parse
open Grammar Term

def Meaning.WellFormed : Meaning → Prop
  | .term t => t.WellFormed
  | .chain first rest => first.WellFormed ∧ ∀ link ∈ rest, link.2.WellFormed
  | .list ts => ∀ t ∈ ts, t.WellFormed

theorem Denotes.wellFormed {n : Nat} {a : Phrase} {ls : List Lexeme} {m : Meaning} (h : Denotes n a ls m)
    (hls : ∀ l ∈ ls, l.Terminated) : m.WellFormed := by
  induction h with
  | topNil | argsNil | stmtBlank => exact List.forall_mem_nil _
  | topCons _ _ ih₁ ih₂ =>
    obtain ⟨hu,hv⟩ := List.forall_mem_append.mp hls
    exact List.forall_mem_append.mpr ⟨ih₁ hu,ih₂ hv⟩
  | stmtExpr _ ih => exact List.forall_mem_singleton.mpr (ih (List.forall_mem_cons.mp hls).2)
  | expr0Single expr ih => exact .operateAll expr.linked (ih hls).1 (ih hls).2
  | expr0Infix left htargets _ ih₁ ih₂ =>
    obtain ⟨hu,hv⟩ := List.forall_mem_append.mp hls
    obtain ⟨hfirst,hrest⟩ := ih₁ hu
    obtain ⟨hne,hsymbols⟩ := (WellFormed.operateAll left.linked hfirst hrest).targets htargets
    exact .assign hne hsymbols (ih₂ (List.forall_mem_cons.mp hv).2)
  | expr1Single _ ih | expr2Single _ ih => exact ⟨ih hls,List.forall_mem_nil _⟩
  | expr1Infix _ _ ih₁ ih₂ | expr2Infix _ _ ih₁ ih₂ =>
    obtain ⟨hu,hv⟩ := List.forall_mem_append.mp hls
    obtain ⟨hfirst,hrest⟩ := ih₂ (List.forall_mem_cons.mp hv).2
    exact ⟨ih₁ hu,List.forall_mem_cons.mpr ⟨hfirst,hrest⟩⟩
  | exprApply callee _ ih₁ ih₂ =>
    obtain ⟨hu,hv⟩ := List.forall_mem_append.mp hls
    obtain ⟨hfirst,hrest⟩ := ih₁ hu
    exact (WellFormed.operateAll callee.linked hfirst hrest).applyTo (ih₂ hv)
  | argsCons head _ ih₁ ih₂ =>
    obtain ⟨hu,hv⟩ := List.forall_mem_append.mp hls
    obtain ⟨hfirst,hrest⟩ := ih₁ hu
    exact List.forall_mem_cons.mpr ⟨.operateAll head.linked hfirst hrest,ih₂ hv⟩
  | exprPreSingle _ ih | exprPostSingle _ ih | operandBlock _ ih => exact ih hls
  | exprPrefixed _ ih => exact .operation rfl (List.forall_mem_singleton.mpr (ih (List.forall_mem_cons.mp hls).2))
  | @exprPostfixed _ _ op _ _ ih =>
    have htakes : Ref.Takes ⟨.postop, op⟩ 1 := by
      dsimp only [Ref.Takes]
      split <;> decide
    exact .operation htakes (List.forall_mem_singleton.mpr (ih (List.forall_mem_append.mp hls).1))
  | symbol => exact .ref rfl
  | string => exact List.forall_mem_singleton.mp hls _ rfl
  | block _ ih =>
    obtain ⟨hbody,_⟩ := List.forall_mem_append.mp hls
    exact .block (ih (List.forall_mem_cons.mp hbody).2)
  | blockExpr _ _ ih₁ ih₂ =>
    obtain ⟨hinner,_⟩ := List.forall_mem_append.mp hls
    obtain ⟨hu,hv⟩ := List.forall_mem_append.mp hinner
    exact .block (List.forall_mem_cons.mpr ⟨ih₁ (List.forall_mem_cons.mp hu).2,ih₂ hv⟩)

end Parse

/-- A source compiles to the block of a whole program, and all that stands in it is well formed. -/
theorem compile_wellFormed {source : String} {t : Term} (h : compile source = .ok t) :
    ∃ stmts, t = .block .top stmts ∧ ∀ s ∈ stmts, s.WellFormed := by
  obtain ⟨tokens,stmts,hscan,hdenotes,rfl⟩ := compile_eq_ok_iff.mp h
  refine ⟨stmts,rfl,hdenotes.wellFormed fun l hl => ?_⟩
  obtain ⟨token,htoken,rfl⟩ := List.mem_map.mp hl
  exact (Scan.closed_of_scan hscan token htoken).terminated

/-- What stands in `x, y = {p = -a!,b} 'it\'s' - q,`: a block that is called, operators in four contexts and a quote in a
literal. -/
def calledBlock : Term :=
  .assign [⟨.symbol, "x"⟩, ⟨.symbol, "y"⟩] (.apply (.ref ⟨.inop1, "-"⟩)
    [.apply (.block (.enclosed .brace) [.assign [⟨.symbol, "p"⟩] (.apply (.ref ⟨.inop2, "!,"⟩)
      [.apply (.ref ⟨.preop, "-"⟩) [.symbol "a"], .symbol "b"])]) [.str "'it\\'s'"], .list [.symbol "q"]])

theorem compile_wellFormed_calledBlock :
    compile "x, y = \x7bp = -a!,b\x7d 'it\\'s' - q," = .ok (.block .top [calledBlock]) ∧ calledBlock.WellFormed := by
  have hcompile : compile "x, y = \x7bp = -a!,b\x7d 'it\\'s' - q," = .ok (.block .top [calledBlock]) := rfl
  obtain ⟨stmts,hblock,hstmts⟩ := compile_wellFormed hcompile
  obtain ⟨_,rfl⟩ := Term.block.inj hblock
  exact ⟨hcompile,List.forall_mem_singleton.mp hstmts⟩

end Gapscript
