import Gapscript.Eval.Call
import Gapscript.Prelude

/-! # Texts taken apart and put together

A text is cut at the occurrences of a separator, from left to right and without overlap. The scan keeps to one invariant:
no occurrence begins in the piece that is being collected. So no piece has an occurrence in it, and since nothing but
separators is dropped, joining the pieces gives the text back. Without a separator the runs of characters other than white
space are collected instead.
-/
namespace Gapscript

namespace Text

/-! ## Pieces between separators -/

/-- The pieces of a text: each is what stands in front of the first occurrence of the separator, and the last has none. -/
inductive Splits (sep : List Char) : List Char → List (List Char) → Prop where
  | last {cs : List Char} (h : ¬sep <:+: cs) : Splits sep cs [cs]
  | next {p cs : List Char} {ps : List (List Char)} (hfirst : ∀ k < p.length, ¬sep <+: (p ++ (sep ++ cs)).drop k)
      (h : Splits sep cs ps) : Splits sep (p ++ (sep ++ cs)) (p :: ps)

variable {sep cs : List Char} {ps : List (List Char)}

/-- A separator that occurs in a text begins somewhere in it. -/
theorem exists_drop_of_infix (hsep : sep ≠ []) {p : List Char} (h : sep <:+: p) (rest : List Char) :
    ∃ k < p.length, sep <+: (p ++ rest).drop k := by
  obtain ⟨before,after,rfl⟩ := h
  refine ⟨before.length,?_,?_⟩
  · have := List.length_pos_iff.mpr hsep
    simp only [List.length_append]
    omega
  · simp

/-- The scan finds the pieces, if no occurrence begins in what has been collected. -/
theorem splits_splitAfter (hsep : sep ≠ []) (piece : List Char)
    (hpiece : ∀ k < piece.length, ¬sep <+: (piece.reverse ++ cs).drop k) :
    Splits sep (piece.reverse ++ cs) (splitAfter sep piece cs) := by
  fun_induction splitAfter sep piece cs with
  | case1 piece =>
    rw [List.append_nil]
    refine .last fun hinfix => ?_
    obtain ⟨k,hk,hbegins⟩ := exists_drop_of_infix hsep hinfix []
    exact hpiece k (by simpa using hk) hbegins
  | case2 piece c cs hfound ih =>
    obtain ⟨rest,hrest⟩ := List.isPrefixOf_iff_prefix.mp hfound.1
    have hdrop : (c :: cs).drop sep.length = rest := by rw [← hrest, List.drop_left]
    rw [hdrop] at ih ⊢
    rw [← hrest] at hpiece ⊢
    exact .next (by simpa using hpiece) (ih fun k hk => absurd hk (Nat.not_lt_zero k))
  | case3 piece c cs hfound ih =>
    have hstep : piece.reverse ++ c :: cs = (c :: piece).reverse ++ cs := by simp
    rw [hstep] at hpiece ⊢
    refine ih fun k hk => ?_
    rcases Nat.lt_succ_iff_lt_or_eq.mp hk with hk | rfl
    · exact hpiece k hk
    · rw [← hstep, List.drop_left' (by simp)]
      exact fun hbegins => hfound ⟨List.isPrefixOf_iff_prefix.mpr hbegins,hsep⟩

namespace Splits

theorem ne_nil (h : Splits sep cs ps) : ps ≠ [] := by
  cases h with
  | last | next => exact List.cons_ne_nil _ _

theorem intercalate (h : Splits sep cs ps) : sep.intercalate ps = cs := by
  induction h with
  | last => exact List.intercalate_singleton
  | @next p cs ps _ h ih => rw [List.intercalate_cons_of_ne_nil h.ne_nil, ih, List.append_assoc]

theorem not_infix (hsep : sep ≠ []) (h : Splits sep cs ps) : ∀ p ∈ ps, ¬sep <:+: p := by
  induction h with
  | last h => exact List.forall_mem_singleton.mpr h
  | next hfirst _ ih =>
    refine List.forall_mem_cons.mpr ⟨fun hinfix => ?_,ih⟩
    obtain ⟨k,hk,hbegins⟩ := exists_drop_of_infix hsep hinfix _
    exact hfirst k hk hbegins

end Splits

theorem join_eq_intercalate (sep : String) (ps : List String) : join sep ps = sep.intercalate ps := by
  fun_induction join sep ps with
  | case1 => exact String.intercalate_nil.symm
  | case2 p => exact String.intercalate_singleton.symm
  | case3 p ps hne ih => rw [ih, String.intercalate_cons_of_ne_nil hne]

theorem splits_splitOn (text : String) {sep : String} (hsep : sep ≠ "") :
    Splits sep.toList text.toList ((splitOn text sep).map String.toList) := by
  have hpieces : (splitOn text sep).map String.toList = splitAfter sep.toList [] text.toList := by
    simp [splitOn, Function.comp_def]
  rw [hpieces]
  exact splits_splitAfter (by simpa using hsep) [] fun k hk => absurd hk (Nat.not_lt_zero k)

theorem join_splitOn (text : String) {sep : String} (hsep : sep ≠ "") : join sep (splitOn text sep) = text := by
  rw [← String.toList_inj, join_eq_intercalate, String.toList_intercalate, (splits_splitOn text hsep).intercalate]

/-! ## Words -/

/-- The maximal runs of characters other than white space. -/
inductive Words : List Char → List (List Char) → Prop where
  | none {gap : List Char} (hgap : ∀ c ∈ gap, isWhite c) : Words gap []
  | word {gap run rest : List Char} {runs : List (List Char)} (hgap : ∀ c ∈ gap, isWhite c) (hne : run ≠ [])
      (hrun : ∀ c ∈ run, ¬isWhite c) (hend : ∀ c ∈ rest.head?, isWhite c) (h : Words rest runs) :
      Words (gap ++ (run ++ rest)) (run :: runs)

namespace Words

variable {runs : List (List Char)}

theorem white {c : Char} (hc : isWhite c) (h : Words cs runs) : Words (c :: cs) runs := by
  cases h with
  | none hgap => exact .none (List.forall_mem_cons.mpr ⟨hc,hgap⟩)
  | word hgap hne hrun hend h => exact .word (List.forall_mem_cons.mpr ⟨hc,hgap⟩) hne hrun hend h

theorem ne_nil (h : Words cs runs) : ∀ run ∈ runs, run ≠ [] ∧ ∀ c ∈ run, ¬isWhite c := by
  induction h with
  | none => exact List.forall_mem_nil _
  | word _ hne hrun _ _ ih => exact List.forall_mem_cons.mpr ⟨⟨hne,hrun⟩,ih⟩

theorem flatten (h : Words cs runs) : runs.flatten = cs.filter (!isWhite ·) := by
  have hwhite {gap : List Char} (hgap : ∀ c ∈ gap, isWhite c) : gap.filter (!isWhite ·) = [] :=
    List.filter_eq_nil_iff.mpr fun c hc => by simp [hgap c hc]
  induction h with
  | none hgap => exact (hwhite hgap).symm
  | word hgap _ hrun _ _ ih =>
    rw [List.flatten_cons, ih, List.filter_append, List.filter_append, hwhite hgap, List.nil_append]
    exact congrArg (· ++ _) (List.filter_eq_self.mpr fun c hc => by simpa using hrun c hc).symm

end Words

/-- The scan finds the words, if there is no white space in what has been collected. -/
theorem words_wordsAfter (run : List Char) (hrun : ∀ c ∈ run, ¬isWhite c) :
    Words (run.reverse ++ cs) (wordsAfter run cs) := by
  have hreverse {run : List Char} (hrun : ∀ c ∈ run, ¬isWhite c) : ∀ c ∈ run.reverse, ¬isWhite c := by simpa using hrun
  fun_induction wordsAfter run cs with
  | case1 run hempty =>
    obtain rfl := List.isEmpty_iff.mp hempty
    exact .none (List.forall_mem_nil _)
  | case2 run hempty =>
    have hne : run.reverse ≠ [] := by simpa using hempty
    exact .word (List.forall_mem_nil _) hne (hreverse hrun) (by simp) (.none (List.forall_mem_nil _))
  | case3 run c cs hc hempty ih =>
    obtain rfl := List.isEmpty_iff.mp hempty
    exact (ih (List.forall_mem_nil _)).white hc
  | case4 run c cs hc hempty ih =>
    have hne : run.reverse ≠ [] := by simpa using hempty
    exact .word (List.forall_mem_nil _) hne (hreverse hrun) (by simpa using hc) ((ih (List.forall_mem_nil _)).white hc)
  | case5 run c cs hc ih =>
    have hwords := ih (List.forall_mem_cons.mpr ⟨hc,hrun⟩)
    rwa [List.reverse_cons, List.append_assoc] at hwords

theorem words_words (text : String) : Words text.toList ((words text).map String.toList) := by
  have hwords : (words text).map String.toList = wordsAfter [] text.toList := by simp [words, Function.comp_def]
  rw [hwords]
  exact words_wordsAfter [] (List.forall_mem_nil _)

end Text

/-! ## The functions of the prelude -/

variable {ν : Type}

/-- Call what a name is bound to. -/
def callNamed (host : Host ν) (name : String) (args : List (Value ν)) : Action ν (Value ν) := do
  let f ← Action.reading fun env => match env.get? (.symbol name) with
    | some f => .ok f
    | none => .error (.undefinedName (.symbol name))
  call host f args

/-- Call a member of a value. -/
def callMember (host : Host ν) (receiver : Value ν) (name : String) (args : List (Value ν)) : Action ν (Value ν) := do
  let f ← Action.reading (·.member receiver name)
  call host f args

/-- The names of the prelude for splitting and joining mean what they mean there. -/
structure Env.Splitting (env : Env ν) : Prop where
  function : env.get? (.symbol "split") = some (.builtin (.primitive .split))
  method : env.methods.find? "text" "split" = some (.primitive .textSplit)
  join : env.methods.find? "seq" "join" = some (.primitive .join)

theorem Env.splitting_withPrelude (streams : Streams) : (Env.withPrelude streams : Env ν).Splitting where
  function := by cbv
  method := by cbv
  join := by cbv

namespace Text

/-- The pieces of a text: those between the separators, or its words if the separator is empty. -/
def pieces (text sep : String) : List String := if sep.isEmpty then words text else splitOn text sep

end Text

section Prelude

variable {env : Env ν} (h : env.Splitting) (host : Host ν)
include h

theorem callNamed_split (text sep : String) : callNamed host "split" [.text sep, .text text] env =
    (.value (.seq ((Text.pieces text sep).map .text)), env) := by
  simp only [callNamed, Bind.bind, Action.bind, Action.reading, h.function, Outcome.ofExcept]
  rw [call]
  rfl

theorem callMember_split (text sep : String) : callMember host (.text text) "split" [.text sep] env =
    (.value (.seq ((Text.pieces text sep).map .text)), env) := by
  have hmember : env.member (.text text) "split" = .ok (.method "text" (.primitive .textSplit) (.text text)) := by
    simp only [Env.member, Value.typeName, h.method]
  simp only [callMember, Bind.bind, Action.bind, Action.reading, hmember, Outcome.ofExcept]
  rw [call]
  rfl

theorem callMember_join (sep : String) (ps : List String) :
    callMember host (.seq (ps.map .text)) "join" [.text sep] env = (.value (.text (Text.join sep ps)), env) := by
  have hmember : env.member (.seq (ps.map .text)) "join" =
      .ok (.method "seq" (.primitive .join) (.seq (ps.map .text))) := by
    simp only [Env.member, Value.typeName, h.join]
  have hdisplay : (ps.map Value.text).map (Value.display (ν := ν)) = ps := by
    simp [Function.comp_def, Value.display]
  simp only [callMember, Bind.bind, Action.bind, Action.reading, hmember, Outcome.ofExcept]
  rw [call]
  change (Outcome.value (Value.text (Text.join sep ((ps.map Value.text).map Value.display))), env) = _
  rw [hdisplay]

end Prelude

/-- Splitting loses nothing but separators. The function and the method give the same pieces. For a separator that is not
empty they are those between its occurrences: there is at least one, none has the separator in it, and joining them with it
gives the text back. For an empty one the pieces are the words of the text, none of which is empty or has white space in
it, and together they are the text without its white space. -/
theorem split_lossless {env : Env ν} (h : env.Splitting) (host : Host ν) (text sep : String) :
    ∃ pieces : List String,
      callNamed host "split" [.text sep, .text text] env = (.value (.seq (pieces.map .text)), env) ∧
      callMember host (.text text) "split" [.text sep] env = (.value (.seq (pieces.map .text)), env) ∧
      (sep ≠ "" → Text.Splits sep.toList text.toList (pieces.map String.toList) ∧
        pieces ≠ [] ∧ (∀ p ∈ pieces, ¬sep.toList <:+: p.toList) ∧
        callMember host (.seq (pieces.map .text)) "join" [.text sep] env = (.value (.text text), env)) ∧
      (sep = "" → Text.Words text.toList (pieces.map String.toList) ∧
        (∀ p ∈ pieces, p ≠ "" ∧ ∀ c ∈ p.toList, ¬Text.isWhite c) ∧
        (pieces.map String.toList).flatten = text.toList.filter (!Text.isWhite ·)) := by
  refine ⟨Text.pieces text sep,callNamed_split h host text sep,callMember_split h host text sep,?_,?_⟩
  · intro hsep
    have hpieces : Text.pieces text sep = Text.splitOn text sep := if_neg (by simpa using hsep)
    have hsplits := Text.splits_splitOn text hsep
    rw [hpieces]
    refine ⟨hsplits,by simpa using hsplits.ne_nil,?_,?_⟩
    · intro p hp
      exact hsplits.not_infix (by simpa using hsep) _ (List.mem_map_of_mem hp)
    · rw [callMember_join h host, Text.join_splitOn text hsep]
  · rintro rfl
    have hwords := Text.words_words text
    refine ⟨hwords,?_,hwords.flatten⟩
    intro p hp
    simpa using hwords.ne_nil _ (List.mem_map_of_mem hp)

/-- A separator that overlaps itself, and an empty one with two kinds of white space. -/
theorem split_lossless_overlap :
    let host : Host Empty := fun code => nomatch code
    let env : Env Empty := .withPrelude {}
    callNamed host "split" [.text "aa", .text "aaaba"] env = (.value (.seq [.text "", .text "aba"]), env) ∧
      callMember host (.seq [.text "", .text "aba"]) "join" [.text "aa"] env = (.value (.text "aaaba"), env) ∧
      callMember host (.text " a\u00a0\nbc ") "split" [.text ""] env = (.value (.seq [.text "a", .text "bc"]), env) ∧
      Text.Words " a\u00a0\nbc ".toList [['a'], ['b', 'c']] := by
  intro host env
  have henv := Env.splitting_withPrelude (ν := Empty) {}
  have hsame {ps qs : List String} {r : Outcome EvalError (Value Empty) × Env Empty}
      (hps : r = (.value (.seq (ps.map .text)), env)) (hqs : r = (.value (.seq (qs.map .text)), env)) : ps = qs := by
    obtain ⟨hvalue,_⟩ := Prod.mk.inj (hps.symm.trans hqs)
    exact (List.map_inj_right fun _ _ => Value.text.inj).mp (Value.seq.inj (Outcome.value.inj hvalue))
  obtain ⟨pieces,hsplit,_,hjoin,_⟩ := split_lossless henv host "aaaba" "aa"
  obtain ⟨words,_,hmember,_,hwords⟩ := split_lossless henv host " a\u00a0\nbc " ""
  have hchars : Text.splitAfter ['a', 'a'] [] ['a', 'a', 'a', 'b', 'a'] = [[], ['a', 'b', 'a']] := by
    simp [Text.splitAfter]
  have hpieces : Text.pieces "aaaba" "aa" = ["", "aba"] := congrArg (List.map String.ofList) hchars
  have hwhite : Text.pieces " a\u00a0\nbc " "" = ["a", "bc"] := rfl
  obtain rfl : pieces = ["", "aba"] := (hsame hsplit (callNamed_split henv host _ _)).trans hpieces
  obtain rfl : words = ["a", "bc"] := (hsame hmember (callMember_split henv host _ _)).trans hwhite
  exact ⟨hsplit,(hjoin (by decide)).2.2.2,hmember,(hwords rfl).1⟩

end Gapscript
