import Gapscript.Term
import Gapscript.Proofs.Lexemes
import Gapscript.Proofs.Rejection

/-! # Reading symbols and string literals

A symbol or a literal is read as one token wherever something new may begin, and the operator in front of it is settled by
its first character. What a piece of text does to the scanner is stated between conditions on the state before and after
it, so that texts made of such pieces are read piece by piece.
-/
namespace Gapscript.Scan

/-- The characters of a symbol: letters, digits and underscores, among them whole numbers, or a number with a decimal
point. -/
inductive IsSymbol : List Char → Prop where
  | word {c : Char} {cs : List Char} (hc : isSymbol c) (hcs : ∀ d ∈ cs, isSymbol d) : IsSymbol (c :: cs)
  | decimal {c d : Char} {cs ds : List Char} (hc : isDigit c) (hcs : ∀ d ∈ cs, isDigit d) (hd : isDigit d)
      (hds : ∀ d ∈ ds, isSymbol d) : IsSymbol (c :: cs ++ '.' :: d :: ds)

/-- The characters between the quotes of a literal: a quote or a backslash stands there only after a backslash. -/
inductive Enclosed (quote : Quote) : List Char → Prop where
  | nil : Enclosed quote []
  | plain {c : Char} {cs : List Char} (hquote : c ≠ quote.char) (hback : c ≠ '\\') (h : Enclosed quote cs) :
      Enclosed quote (c :: cs)
  | pair (c : Char) {cs : List Char} (h : Enclosed quote cs) : Enclosed quote ('\\' :: c :: cs)

end Gapscript.Scan

namespace Gapscript
open Scan

/-- A symbol or a string literal. -/
inductive Atom where
  | symbol (chars : List Char) (h : IsSymbol chars)
  | literal (quote : Quote) (inside : List Char) (h : Enclosed quote inside)

namespace Atom

def chars : Atom → List Char
  | symbol chars _ => chars
  | literal quote inside _ => quote.char :: inside ++ [quote.char]

def source (a : Atom) : String := String.ofList a.chars

def lexeme : Atom → Lexeme
  | symbol chars _ => ⟨.word .symbol, String.ofList chars⟩
  | literal quote inside _ => ⟨.string quote, String.ofList (quote.char :: inside ++ [quote.char])⟩

def term : Atom → Term
  | symbol chars _ => .symbol (String.ofList chars)
  | literal quote inside _ => .str (String.ofList (quote.char :: inside ++ [quote.char]))

end Atom

namespace Scan

variable {ls : List Lexeme} {here : Start} {chars cs ds : List Char} {whole operand attached : Bool} {space : List Char}
  {c : Char} {quote : Quote} {P Q R : State → Prop}

/-- The lexemes `ls`, last first, are finished and `p` is being read. -/
def At (ls : List Lexeme) (p : Pending) (s : State) : Prop := s.tokens.map Token.lexeme = ls ∧ p.Alike s.pending

/-- From every state with `P` the characters can be read, to a state with `Q`. -/
def Leads (P : State → Prop) (cs : List Char) (Q : State → Prop) : Prop :=
  ∀ s, P s → ∃ s', s.run cs = .ok s' ∧ Q s'

theorem Leads.append (h : Leads P cs Q) (h' : Leads Q ds R) : Leads P (cs ++ ds) R := by
  intro s hs
  obtain ⟨s',hrun,hs'⟩ := h s hs
  obtain ⟨s'',hrun',hs''⟩ := h' s' hs'
  exact ⟨s'',(run_after hrun ds).trans hrun',hs''⟩

theorem leads_nil : Leads P [] P := by
  intro s hs
  exact ⟨s,rfl,hs⟩

/-- One step, and what it leads to. -/
theorem leads_step (h : ∀ s, P s → ∃ s', s.step c = .ok s' ∧ Q s') : Leads P [c] Q := by
  intro s hs
  obtain ⟨s',hstep,hs'⟩ := h s hs
  exact ⟨s',by simp only [State.run, hstep],hs'⟩

/-! ## Symbols -/

/-- Nothing else begins with a character of a symbol. -/
structure SymbolStart (c : Char) : Prop where
  blank : isBlank c = false
  newline : c ≠ '\n'
  opening : opening? c = none
  closing : closing? c = none
  operator : isOperator c = false

/-- A class of characters with no gap and no bracket in it. -/
theorem not_gap_of_class {p : Char → Bool}
    (hp : [' ', '\t', '\r', '\n', '{', '[', '(', '}', ']', ')'].any p = false) (hc : p c) :
    isBlank c = false ∧ c ≠ '\n' ∧ opening? c = none ∧ closing? c = none := by
  have hne : c ∉ [' ', '\t', '\r', '\n', '{', '[', '(', '}', ']', ')'] := by
    intro hmem
    exact List.any_eq_false.mp hp c hmem hc
  rw [Bool.eq_false_iff, Ne, isBlank_iff, opening?_eq_none, closing?_eq_none]
  simp only [List.mem_cons, List.not_mem_nil, or_false, not_or] at hne ⊢
  grind

theorem symbolStart_of_isSymbol (hc : isSymbol c) : SymbolStart c := by
  obtain ⟨hblank,hnewline,hopening,hclosing⟩ := not_gap_of_class rfl hc
  refine ⟨hblank,hnewline,hopening,hclosing,?_⟩
  rw [isOperator, Bool.eq_false_iff, Ne, List.contains_iff_mem]
  intro hmem
  have hnone : "=!#$%&*+,./:;<>?@^`~-|".toList.any isSymbol = false := rfl
  exact List.any_eq_false.mp hnone c hmem hc

theorem start_symbol (s : State) (hc : isSymbol c) : s.start operand space c =
    .ok ({ s with pending := .symbol ⟨s.pos, s.line, space⟩ [c] (isDigit c) }.advance c) := by
  obtain ⟨hblank,hnewline,hopening,hclosing,_⟩ := symbolStart_of_isSymbol hc
  simp only [State.start, hblank, Bool.false_eq_true, if_false, if_neg hnewline, hopening, hclosing, if_pos hc]

theorem leads_start_symbol (hc : isSymbol c) :
    Leads (At ls (.gap operand space)) [c] (At ls (.symbol here [c] (isDigit c))) := by
  refine leads_step ?_
  rintro ⟨pos,line,tokens,pending⟩ ⟨hls,hp⟩
  cases hp
  exact ⟨_,start_symbol _ hc,hls,.symbol⟩

theorem leads_symbol (hcs : ∀ c ∈ cs, isSymbol c) : Leads (At ls (.symbol here chars whole)) cs
    (At ls (.symbol here (cs.reverse ++ chars) (whole && cs.all isDigit))) := by
  induction cs generalizing chars whole with
  | nil =>
    rw [List.all_nil, Bool.and_true]
    exact leads_nil
  | cons c cs ih =>
    obtain ⟨hc,hcs⟩ := List.forall_mem_cons.mp hcs
    have hfirst : Leads (At ls (.symbol here chars whole)) [c]
        (At ls (.symbol here (c :: chars) (whole && isDigit c))) := by
      refine leads_step ?_
      rintro ⟨pos,line,tokens,pending⟩ ⟨hls,hp⟩
      cases hp
      exact ⟨_,if_pos hc,hls,.symbol⟩
    have hrest := hfirst.append (ih hcs)
    simpa [Bool.and_assoc] using hrest

theorem leads_point : Leads (At ls (.symbol here chars true)) ['.'] (At ls (.point here chars)) := by
  refine leads_step ?_
  rintro ⟨pos,line,tokens,pending⟩ ⟨hls,hp⟩
  cases hp
  exact ⟨_,rfl,hls,.point⟩

theorem leads_fraction (hc : isDigit c) :
    Leads (At ls (.point here chars)) [c] (At ls (.symbol here (c :: '.' :: chars) false)) := by
  refine leads_step ?_
  rintro ⟨pos,line,tokens,pending⟩ ⟨hls,hp⟩
  cases hp
  exact ⟨_,if_pos hc,hls,.symbol⟩

theorem isSymbol_of_isDigit (hc : isDigit c) : isSymbol c := by
  simp [isSymbol, hc]

theorem IsSymbol.exists_first (h : IsSymbol cs) : ∃ c ds, cs = c :: ds ∧ isSymbol c := by
  cases h with
  | word hc => exact ⟨_,_,rfl,hc⟩
  | decimal hc => exact ⟨_,_,rfl,isSymbol_of_isDigit hc⟩

/-- A symbol is read from where something new may begin. Whether it is a whole number shows in what is held of it. -/
theorem leads_isSymbol (here : Start) (h : IsSymbol cs) :
    Leads (At ls (.gap operand space)) cs (At ls (.symbol here cs.reverse (cs.all isDigit))) := by
  cases h with
  | @word c cs hc hcs =>
    rw [List.reverse_cons, List.all_cons]
    exact (leads_start_symbol hc).append (leads_symbol hcs)
  | @decimal c d cs ds hc hcs hd hds =>
    have hwhole : (isDigit c && cs.all isDigit) = true := by
      rw [hc, List.all_eq_true.mpr hcs]
      rfl
    have hdigits : Leads (At ls (.gap operand space)) (c :: cs) (At ls (.symbol here (cs.reverse ++ [c]) true)) :=
      hwhole ▸ (leads_start_symbol (isSymbol_of_isDigit hc)).append
        (leads_symbol fun e he => isSymbol_of_isDigit (hcs e he))
    have hfraction := ((hdigits.append leads_point).append (leads_fraction hd)).append (leads_symbol hds)
    have hpoint : (c :: cs ++ '.' :: d :: ds).all isDigit = (false && ds.all isDigit) := by
      simp [isDigit]
    rw [hpoint]
    simpa using hfraction

/-! ## String literals -/

theorem leads_quote (here : Start) :
    Leads (At ls (.gap operand space)) [quote.char] (At ls (.string quote here [quote.char] false)) := by
  refine leads_step ?_
  rintro ⟨pos,line,tokens,pending⟩ ⟨hls,hp⟩
  cases hp
  cases quote
  · exact ⟨_,rfl,hls,.string⟩
  · exact ⟨_,rfl,hls,.string⟩

theorem leads_string {escaped : Bool} (hc : escaped ∨ c ≠ quote.char) :
    Leads (At ls (.string quote here chars escaped)) [c]
      (At ls (.string quote here (c :: chars) (!escaped && c == '\\'))) := by
  have hstays : ¬(¬escaped ∧ c = quote.char) := by
    rintro ⟨hescaped,hquote⟩
    exact hc.elim hescaped fun hne => hne hquote
  refine leads_step ?_
  rintro ⟨pos,line,tokens,pending⟩ ⟨hls,hp⟩
  cases hp
  exact ⟨_,if_neg hstays,hls,.string⟩

theorem leads_enclosed (h : Enclosed quote cs) : Leads (At ls (.string quote here chars false)) cs
    (At ls (.string quote here (cs.reverse ++ chars) false)) := by
  induction h generalizing chars with
  | nil => exact leads_nil
  | @plain c cs hquote hback _ ih =>
    have hfirst : Leads (At ls (.string quote here chars false)) [c] (At ls (.string quote here (c :: chars) _)) :=
      leads_string (.inr hquote)
    rw [beq_false_of_ne hback] at hfirst
    simpa using hfirst.append ih
  | @pair c cs _ ih =>
    -- The backslash takes the next character with it, whatever it is.
    have hback : Leads (At ls (.string quote here chars false)) ['\\'] (At ls (.string quote here ('\\' :: chars) true)) :=
      leads_string (.inr (Quote.char_ne_backslash quote).symm)
    have hnext : Leads (At ls (.string quote here ('\\' :: chars) true)) [c]
        (At ls (.string quote here (c :: '\\' :: chars) false)) :=
      leads_string (.inl rfl)
    simpa using (hback.append hnext).append ih

theorem leads_close : Leads (At ls (.string quote here chars false)) [quote.char]
    (At (⟨.string quote, String.ofList (quote.char :: chars).reverse⟩ :: ls) (.gap true [])) := by
  refine leads_step ?_
  rintro ⟨pos,line,tokens,pending⟩ ⟨hls,hp⟩
  cases hp
  exact ⟨_,if_pos ⟨Bool.false_ne_true,rfl⟩,congrArg _ hls,.gap⟩

/-! ## Symbols and literals between operators -/

/-- The lexemes `ls`, last first, are read up to an operand, which may still go on. -/
def AtOperand (ls : List Lexeme) (s : State) : Prop := At ls (.gap true []) (s.settle none)

theorem At.atOperand {s : State} (h : At ls (.symbol here chars whole) s) :
    AtOperand (⟨.word .symbol, String.ofList chars.reverse⟩ :: ls) s := by
  obtain ⟨pos,line,tokens,pending⟩ := s
  obtain ⟨hls,hp⟩ := h
  cases hp
  exact ⟨congrArg _ hls,.gap⟩

theorem leads_atom (a : Atom) : Leads (At ls (.gap operand space)) a.chars (AtOperand (a.lexeme :: ls)) := by
  intro s hs
  cases a with
  | symbol cs h =>
    obtain ⟨s',hrun,hs'⟩ := leads_isSymbol ⟨s.pos, s.line, space⟩ h s hs
    have hoperand := hs'.atOperand
    rw [List.reverse_reverse] at hoperand
    exact ⟨s',hrun,hoperand⟩
  | literal quote inside h =>
    have hopened : Leads (At ls (.gap operand space)) _ _ :=
      (leads_quote ⟨s.pos, s.line, space⟩).append (leads_enclosed h)
    obtain ⟨⟨pos,line,tokens,pending⟩,hrun,hls,hp⟩ := (hopened.append leads_close) s hs
    refine ⟨_,hrun,?_⟩
    cases hp
    have hchars : (quote.char :: (inside.reverse ++ [quote.char])).reverse = quote.char :: inside ++ [quote.char] := by
      simp
    rw [hchars] at hls
    exact ⟨hls,.gap⟩

theorem step_settled {s : State} (hs : At ls (.operator here chars attached) s) (hc : isOperator c = false) :
    s.step c = (s.settle (some c)).step c := by
  obtain ⟨pos,line,tokens,pending⟩ := s
  cases hs.2
  simp only [State.step, State.operatorStep, if_neg (Bool.eq_false_iff.mp hc)]
  rfl

/-- An operator that comes right after an operand is settled by the first character of the next one. -/
theorem leads_tight (hblank : isBlank c = false) (hnewline : c ≠ '\n') (hoperator : isOperator c = false)
    (h : Leads (At (⟨.word .inop2, String.ofList chars.reverse⟩ :: ls) (.gap false [])) (c :: cs) Q) :
    Leads (At ls (.operator here chars true)) (c :: cs) Q := by
  have hcontext : operatorContext true chars.reverse (some c) = .inop2 := by
    simp only [operatorContext, hblank, beq_false_of_ne hnewline, Bool.or_false]
  have hsettled : ∀ s, At ls (.operator here chars true) s →
      At (⟨.word .inop2, String.ofList chars.reverse⟩ :: ls) (.gap false []) (s.settle (some c)) := by
    rintro ⟨pos,line,tokens,pending⟩ ⟨hls,hp⟩
    cases hp
    refine ⟨?_,.gap⟩
    simp only [State.settle, State.emit, hcontext, List.map_cons, hls, Token.lexeme]
  intro s hs
  obtain ⟨s',hrun,hs'⟩ := h _ (hsettled s hs)
  refine ⟨s',?_,hs'⟩
  rw [← hrun, State.run, State.run, step_settled hs hoperator]

/-- How an atom begins: not with a gap and not with an operator. -/
theorem exists_first_char (a : Atom) :
    ∃ c cs, a.chars = c :: cs ∧ isBlank c = false ∧ c ≠ '\n' ∧ isOperator c = false := by
  cases a with
  | symbol cs h =>
    obtain ⟨c,ds,rfl,hc⟩ := h.exists_first
    have hstart := symbolStart_of_isSymbol hc
    exact ⟨c,ds,rfl,hstart.blank,hstart.newline,hstart.operator⟩
  | literal quote inside h =>
    refine ⟨quote.char,inside ++ [quote.char],rfl,?_⟩
    cases quote <;> decide

theorem leads_tight_atom (a : Atom) : Leads (At ls (.operator here chars true)) a.chars
    (AtOperand (a.lexeme :: ⟨.word .inop2, String.ofList chars.reverse⟩ :: ls)) := by
  have hatom : Leads (At (⟨.word .inop2, String.ofList chars.reverse⟩ :: ls) (.gap false [])) a.chars _ := leads_atom a
  obtain ⟨c,cs,hchars,hblank,hnewline,hoperator⟩ := exists_first_char a
  rw [hchars] at hatom ⊢
  exact leads_tight hblank hnewline hoperator hatom

theorem leads_comma : Leads (AtOperand ls) [','] (At ls (.operator here [','] true)) := by
  refine leads_step ?_
  rintro ⟨pos,line,tokens,pending⟩ ⟨hls,hp⟩
  cases pending with
  | gap =>
    cases hp
    exact ⟨_,rfl,hls,.operator⟩
  | symbol => exact ⟨_,rfl,hls,.operator⟩
  | operator | point | string => cases hp

theorem leads_blank : Leads (At ls (.operator here chars true)) [' ']
    (At (⟨.word .postop, String.ofList chars.reverse⟩ :: ls) (.gap false [])) := by
  refine leads_step ?_
  rintro ⟨pos,line,tokens,pending⟩ ⟨hls,hp⟩
  cases hp
  exact ⟨_,rfl,congrArg _ hls,.gap⟩

theorem AtOperand.finish {s : State} (h : AtOperand ls s) :
    ∃ us, s.finish = .ok us ∧ us.map Token.lexeme = ls.reverse := by
  obtain ⟨hls,hp⟩ := h
  refine ⟨(s.settle none).tokens.reverse,?_,by rw [List.map_reverse, hls]⟩
  obtain ⟨pos,line,tokens,pending⟩ := s
  cases pending with
  | gap | symbol => rfl
  | operator | point | string => cases hp

/-- One line that ends with an operand. -/
theorem scan_line {text : String}
    (h : Leads (At [⟨.bol, ""⟩] (.gap false [])) text.toList (AtOperand (ls.reverse ++ [⟨.bol, ""⟩]))) :
    ∃ us, Token.scan text = .ok us ∧ us.map Token.lexeme = ⟨.bol, ""⟩ :: ls := by
  obtain ⟨s,hrun,hs⟩ := h State.initial ⟨rfl,.gap⟩
  obtain ⟨us,hfinish,hus⟩ := hs.finish
  refine ⟨us,scan_eq_ok_iff.mpr ⟨s,hrun,hfinish⟩,?_⟩
  rw [hus, List.reverse_append, List.reverse_reverse]
  rfl

end Scan

end Gapscript
