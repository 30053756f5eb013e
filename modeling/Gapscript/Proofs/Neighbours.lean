import Gapscript.Proofs.Atoms
import Gapscript.Proofs.Bytes

/-! # Operators and their neighbours

The scanner decides the class of an operator by what it has just finished and never looks back at the text. That this is
the same as looking at the characters on both sides is an invariant of its whole run: where an operator may begin, the
scanner takes it as attached just if the last character is neither white space nor an opening bracket, and that character
does not belong to an operator itself. The invariant looks ahead by one character, since an operator that was settled may
be followed by anything but another one.
-/
namespace Gapscript

namespace Scan

/-- The characters after which an operator is not attached. -/
def gapsBefore : List Char := [' ', '\t', '\r', '\n', '{', '[', '(']

/-- The characters before which an operator is not attached. -/
def gapsAfter : List Char := [' ', '\t', '\r', '\n']

/-- An operator may begin after `cs`, and is then taken as `attached` to what stands there. -/
structure Ready (cs : List Char) (attached : Bool) : Prop where
  attached : attached = true ↔ ∃ c, cs.getLast? = some c ∧ c ∉ gapsBefore
  apart : ∀ c, cs.getLast? = some c → isOperator c = false

/-- An operator has been read from where it began up to the end of `front ++ run`. -/
structure Began (front run : List Char) (pos : Nat) (attached : Bool) : Prop where
  pos : pos = bytes front
  nonempty : run ≠ []
  operators : ∀ c ∈ run, isOperator c
  ready : Ready front attached

/-- If the token is an operator, it stands in the text `cs` as a run that does not go on on either side, and its class is
the one of its neighbours. -/
def Classed (cs : List Char) (t : Token) : Prop :=
  ∀ context, t.kind = .word context → context ≠ .symbol → ∃ front run back attached, cs = front ++ run ++ back ∧
    t.text = String.ofList run ∧ Began front run t.pos attached ∧ (∀ c ∈ back.head?, isOperator c = false) ∧
    context = operatorContext attached run back.head?

/-- What is being read agrees with the characters read and with the next one ahead. -/
def Pending.Fits (cs ahead : List Char) : Pending → Prop
  | .gap operand _ => ∀ c ∈ ahead.head?, isOperator c → Ready cs operand
  | .symbol _ _ _ => Ready cs true
  | .point _ _ => ∃ front, cs = front ++ ['.'] ∧ Ready front true
  | .operator start chars attached => ∃ front, cs = front ++ chars.reverse ∧ Began front chars.reverse start.pos attached
  | .string _ _ _ _ => True

/-! ## Characters -/

variable {cs ds : List Char} {c : Char} {attached : Bool}

theorem ready_nil : Ready [] false where
  attached := by simp
  apart := by simp

theorem ready_gap (hc : c ∈ gapsBefore) : Ready (cs ++ [c]) false := by
  have hoperator : gapsBefore.all (fun d => !isOperator d) = true := rfl
  constructor
  · simp [hc]
  · simpa using List.all_eq_true.mp hoperator c hc

theorem ready_operand (hgap : c ∉ gapsBefore) (hoperator : isOperator c = false) : Ready (cs ++ [c]) true := by
  constructor
  · simp [hgap]
  · simpa using hoperator

theorem ready_blank (hc : isBlank c) : Ready (cs ++ [c]) false := by
  have hmem := isBlank_iff.mp hc
  refine ready_gap ?_
  simp only [List.mem_cons, List.not_mem_nil, or_false, gapsBefore] at hmem ⊢
  grind

theorem ready_opening {b : Bracket} (hc : opening? c = some b) : Ready (cs ++ [c]) false := by
  have hmem : c ∈ ['{', '[', '('] := by
    refine Decidable.byContradiction fun hnot => ?_
    rw [opening?_eq_none.mpr hnot] at hc
    cases hc
  exact ready_gap (List.mem_append_right [' ', '\t', '\r', '\n'] hmem)

theorem ready_closing {b : Bracket} (hc : closing? c = some b) : Ready (cs ++ [c]) true := by
  have hmem : c ∈ ['}', ']', ')'] := by
    refine Decidable.byContradiction fun hnot => ?_
    rw [closing?_eq_none.mpr hnot] at hc
    cases hc
  have hall : ['}', ']', ')'].all (fun d => !gapsBefore.contains d && !isOperator d) = true := rfl
  have hfacts := List.all_eq_true.mp hall c hmem
  rw [Bool.and_eq_true, Bool.not_eq_true', Bool.not_eq_true', Bool.eq_false_iff, Ne, List.contains_iff_mem] at hfacts
  exact ready_operand hfacts.1 hfacts.2

theorem ready_symbol (hc : isSymbol c) : Ready (cs ++ [c]) true := by
  have hany : gapsBefore.any isSymbol = false := rfl
  exact ready_operand (fun hmem => List.any_eq_false.mp hany c hmem hc) (symbolStart_of_isSymbol hc).operator

theorem ready_quote (quote : Quote) : Ready (cs ++ [quote.char]) true := by
  cases quote with
  | double | single => exact ready_operand (by decide) rfl

/-! ## The scanner -/

/-- All operators that are finished are classed by their neighbours, and what is being read goes on to be. -/
structure State.Classes (cs ahead : List Char) (s : State) : Prop where
  holds : s.Holds cs
  tokens : ∀ t ∈ s.tokens, Classed (cs ++ ahead) t
  pending : s.pending.Fits cs ahead

theorem classed_of_kind {t : Token} (h : ∀ context, t.kind = .word context → context = .symbol) : Classed cs t := by
  intro context hkind hne
  exact absurd (h context hkind) hne

namespace State.Classes

variable {s s' : State} {ahead : List Char}

theorem initial (text : List Char) : State.initial.Classes [] text where
  holds := .initial
  tokens := List.forall_mem_singleton.mpr (classed_of_kind fun _ h => by cases h)
  pending _ _ _ := ready_nil

/-- What is settled fits the characters that are still ahead. -/
theorem settles (h : s.Classes cs ahead) (hs : Settles ahead.head? s s') : s'.Classes cs ahead := by
  have hholds := h.holds.settles hs
  induction hs with
  | keep => exact h
  | symbol hp _ =>
    have hfits := h.pending
    rw [hp] at hfits
    refine ⟨hholds,List.forall_mem_cons.mpr ⟨classed_of_kind fun _ hkind => ?_,h.tokens⟩,fun _ _ _ => hfits⟩
    cases hkind
    rfl
  | @operator s start chars attached hp hnext =>
    have hfits := h.pending
    rw [hp] at hfits
    obtain ⟨front,hcs,hbegan⟩ := hfits
    refine ⟨hholds,List.forall_mem_cons.mpr ⟨?_,h.tokens⟩,?_⟩
    · rintro context ⟨⟩ _
      exact ⟨front,chars.reverse,ahead,attached,by rw [hcs],rfl,hbegan,hnext,rfl⟩
    · intro c hc hoperator
      rw [hnext c hc] at hoperator
      cases hoperator
  | @release s s' start chars hp hnext _ ih =>
    have hfits := h.pending
    rw [hp] at hfits
    obtain ⟨front,hcs,hready⟩ := hfits
    have hreleased := h.holds.releasePoint hp
    refine ih ⟨hreleased,List.forall_mem_cons.mpr ⟨classed_of_kind fun _ hkind => ?_,h.tokens⟩,?_⟩ hholds
    · cases hkind
      rfl
    · have hpos : s.pos = bytes front + 1 := by
        rw [h.holds.pos, hcs, bytes_append, bytes_singleton]
        rfl
      refine ⟨front,hcs,?_,by simp,by simp [isOperator],hready⟩
      change s.pos - 1 = bytes front
      omega

/-- The character that was ahead is read and finishes nothing. -/
theorem goOn {p : Pending} (h : s.Classes cs (c :: ahead)) (hholds : ({ s with pending := p }.advance c).Holds (cs ++ [c]))
    (hp : p.Fits (cs ++ [c]) ahead) : ({ s with pending := p }.advance c).Classes (cs ++ [c]) ahead := by
  refine ⟨hholds,?_,hp⟩
  rw [List.append_assoc]
  exact h.tokens

/-- The character that was ahead finishes a token that is no word. -/
theorem finishes {kind : Token.Kind} {start : Start} {chars : List Char} {p : Pending} (h : s.Classes cs (c :: ahead))
    (hholds : ((s.emit kind start chars p).advance c).Holds (cs ++ [c])) (hkind : kind.context? = none)
    (hp : p.Fits (cs ++ [c]) ahead) : ((s.emit kind start chars p).advance c).Classes (cs ++ [c]) ahead := by
  refine ⟨hholds,List.forall_mem_cons.mpr ⟨?_,?_⟩,hp⟩
  · rintro context rfl
    cases hkind
  · rw [List.append_assoc]
    exact h.tokens

theorem grows (h : s.Classes cs (c :: ahead)) (hs : Grows c s s') : s'.Classes (cs ++ [c]) ahead := by
  have hholds := h.holds.grows hs
  have hfits := h.pending
  cases hs with
  | symbol _ hc => exact h.goOn hholds (ready_symbol hc)
  | point hp hc =>
    rw [hp] at hfits
    exact h.goOn hholds ⟨cs,by rw [hc],hfits⟩
  | decimal _ hc => exact h.goOn hholds (ready_symbol (isSymbol_of_isDigit hc))
  | @operator start chars attached hp hc =>
    rw [hp] at hfits
    obtain ⟨front,hcs,hbegan⟩ := hfits
    refine h.goOn hholds ⟨front,by simp [hcs],hbegan.pos,by simp,?_,hbegan.ready⟩
    rw [List.reverse_cons]
    exact List.forall_mem_append.mpr ⟨hbegan.operators,List.forall_mem_singleton.mpr hc⟩
  | string => exact h.goOn hholds trivial
  | @close quote _ _ _ hc => exact h.finishes hholds rfl fun _ _ _ => hc ▸ ready_quote quote

theorem begins {operand : Bool} {space : List Char} (h : s.Classes cs (c :: ahead)) (hp : s.pending = .gap operand space)
    (hs : Begins c operand space s s') : s'.Classes (cs ++ [c]) ahead := by
  have hholds := h.holds.begins hp hs
  have hfits := h.pending
  rw [hp] at hfits
  cases hs with
  | blank hc => exact h.goOn hholds fun _ _ _ => ready_blank hc
  | newline hc => exact h.finishes hholds rfl fun _ _ _ => ready_gap (hc ▸ by decide)
  | opening hc => exact h.finishes hholds rfl fun _ _ _ => ready_opening hc
  | closing hc => exact h.finishes hholds rfl fun _ _ _ => ready_closing hc
  | symbol hc => exact h.goOn hholds (ready_symbol hc)
  | string => exact h.goOn hholds trivial
  | operator hc =>
    have hready : Ready cs operand := hfits c rfl hc
    exact h.goOn hholds ⟨cs,rfl,h.holds.pos,by simp,by simpa using hc,hready⟩

theorem of_run {text : List Char} (h : State.initial.run text = .ok s) : s.Classes text [] :=
  @run_invariant_ahead (fun cs ahead s => s.Classes cs ahead) settles grows begins [] text _ s (.initial text) h

end State.Classes

/-- Every operator among the tokens of a text is classed by its neighbours. -/
theorem classed_of_scan {text : String} {tokens : List Token} (h : Token.scan text = .ok tokens) :
    ∀ t ∈ tokens, Classed text.toList t := by
  obtain ⟨s,s',_,_,hrun,hs',_,rfl⟩ := exists_settled_of_scan h
  intro t ht
  have hclassed := ((State.Classes.of_run hrun).settles hs').tokens t (List.mem_reverse.mp ht)
  rwa [List.append_nil] at hclassed

/-! ## Bytes -/

theorem isOperator_iff_of_looks {d : Char} (h : Looks c d) : isOperator c ↔ isOperator d := by
  rw [isOperator, List.contains_iff_mem, isOperator, List.contains_iff_mem]
  exact h.mem_iff rfl

theorem gap_eq (c : Char) : (isBlank c || c == '\n') = decide (c ∈ gapsAfter) := by
  rw [Bool.eq_iff_iff]
  simp [isBlank, gapsAfter, or_assoc]

/-- The class of an operator by whether it is attached to something on its left and on its right. -/
theorem operatorContext_cases {next : Option Char} {left right : Prop} (hleft : attached = true ↔ left)
    (hright : (∃ c, next = some c ∧ c ∉ gapsAfter) ↔ right) (run : List Char) :
    (left ∧ right → operatorContext attached run next = .inop2) ∧
    (left ∧ ¬right → operatorContext attached run next = .postop) ∧
    (right ∧ ¬left → operatorContext attached run next = .preop) ∧
    (¬left ∧ ¬right → operatorContext attached run next = if run = ['='] then .inop0 else .inop1) := by
  rw [← hleft, ← hright]
  cases next with
  | none => cases attached <;> simp [operatorContext]
  | some c =>
    by_cases hc : c ∈ gapsAfter
    · cases attached <;> simp [operatorContext, gap_eq, hc]
    · cases attached <;> simp [operatorContext, gap_eq, hc]

end Scan

open Scan

/-- A byte stands right before the position, and it is neither white space nor an opening bracket. -/
def AttachedBefore (text : String) (pos : Nat) : Prop := ∃ c, byteBefore? text pos = some c ∧ c ∉ gapsBefore

/-- A byte stands at the position, and it is not white space. -/
def AttachedAfter (text : String) (pos : Nat) : Prop := ∃ c, byteAt? text pos = some c ∧ c ∉ gapsAfter

/-- The position at which a token ends. -/
def Token.stop (t : Token) : Nat := t.pos + t.text.utf8ByteSize

/-- The class of an operator is decided by the bytes next to it alone. An operator is a run of operator characters that
does not go on on either side. It stands between its operands without blanks if it is attached on both sides, belongs to
the operand on one side if it is attached there only, and is an assignment or stands between operands with blanks if it is
attached on neither side. -/
theorem operator_class_of_neighbours {text : String} {tokens : List Token} (h : Token.scan text = .ok tokens)
    {t : Token} (ht : t ∈ tokens) {context : Context} (hkind : t.kind = .word context) (hoperator : context ≠ .symbol) :
    (∃ front back, text = front ++ t.text ++ back ∧ front.utf8ByteSize = t.pos ∧ t.text ≠ "" ∧
      ∀ c ∈ t.text.toList, isOperator c) ∧
    (∀ c, byteBefore? text t.pos = some c → isOperator c = false) ∧
    (∀ c, byteAt? text t.stop = some c → isOperator c = false) ∧
    (AttachedBefore text t.pos ∧ AttachedAfter text t.stop → context = .inop2) ∧
    (AttachedBefore text t.pos ∧ ¬AttachedAfter text t.stop → context = .postop) ∧
    (AttachedAfter text t.stop ∧ ¬AttachedBefore text t.pos → context = .preop) ∧
    (¬AttachedBefore text t.pos ∧ ¬AttachedAfter text t.stop →
      context = if t.text = "=" then .inop0 else .inop1) := by
  obtain ⟨front,run,back,attached,htext,hrun,hbegan,hback,hcontext⟩ := classed_of_scan h t ht context hkind hoperator
  have hsource : text = String.ofList front ++ t.text ++ String.ofList back := by
    rw [hrun, ← String.ofList_append, ← String.ofList_append, ← htext, String.ofList_toList]
  have hbefore : Option.Rel Looks front.getLast? (byteBefore? text t.pos) := by
    rw [hsource, String.append_assoc, hbegan.pos]
    exact byteBefore?_looks front _
  have hafter : Option.Rel Looks back.head? (byteAt? text t.stop) := by
    have hstop : t.stop = (String.ofList front ++ t.text).utf8ByteSize := by
      rw [Token.stop, hbegan.pos, bytes, String.utf8ByteSize_append]
    rw [hsource, hstop]
    exact byteAt?_looks _ back
  have hapart {x y : Option Char} (hxy : Option.Rel Looks x y) (hx : ∀ c, x = some c → isOperator c = false) :
      ∀ d, y = some d → isOperator d = false := by
    intro d hd
    rw [Bool.eq_false_iff]
    intro hoperator
    obtain ⟨c,hc,hoperator⟩ := (exists_iff_of_looks isOperator_iff_of_looks hxy).mpr ⟨d,hd,hoperator⟩
    rw [hx c hc] at hoperator
    cases hoperator
  have hattached : attached = true ↔ AttachedBefore text t.pos :=
    hbegan.ready.attached.trans (exists_iff_of_looks (fun hlooks => not_congr (hlooks.mem_iff rfl)) hbefore)
  have hnext : (∃ c, back.head? = some c ∧ c ∉ gapsAfter) ↔ AttachedAfter text t.stop :=
    exists_iff_of_looks (fun hlooks => not_congr (hlooks.mem_iff rfl)) hafter
  have hequals : run = ['='] ↔ t.text = "=" := by
    rw [hrun, ← String.toList_inj, String.toList_ofList]
    rfl
  refine ⟨⟨_,_,hsource,hbegan.pos.symm,?_,?_⟩,hapart hbefore hbegan.ready.apart,hapart hafter hback,?_⟩
  · rw [hrun]
    simpa [String.ofList_eq_empty_iff] using hbegan.nonempty
  · rw [hrun, String.toList_ofList]
    exact hbegan.operators
  · rw [hcontext]
    simpa only [hequals] using operatorContext_cases hattached hnext run

/-- Tokens of a text with operators after a bracket, after a string with more bytes than characters, after a whole number
and between blanks. -/
def neighbourTokens : List Token :=
  [⟨.bol, 0, 1, "", ""⟩, ⟨.opening .paren, 0, 1, "", "("⟩, ⟨.word .preop, 1, 1, "", "-"⟩,
    ⟨.string .single, 2, 1, "", "'é'"⟩, ⟨.word .inop2, 6, 1, "", "."⟩, ⟨.word .symbol, 7, 1, "", "a"⟩,
    ⟨.word .symbol, 9, 1, " ", "1"⟩, ⟨.word .postop, 10, 1, "", "."⟩, ⟨.word .inop0, 12, 1, " ", "="⟩,
    ⟨.word .symbol, 14, 1, " ", "b"⟩]

/-- The classes of these operators tell to what they are attached. -/
theorem operator_class_of_neighbours_mixed :
    Token.scan "(-'é'.a 1. = b" = .ok neighbourTokens ∧
      (AttachedAfter "(-'é'.a 1. = b" 2 ∧ ¬AttachedBefore "(-'é'.a 1. = b" 1) ∧
      (AttachedBefore "(-'é'.a 1. = b" 6 ∧ AttachedAfter "(-'é'.a 1. = b" 7) ∧
      (AttachedBefore "(-'é'.a 1. = b" 10 ∧ ¬AttachedAfter "(-'é'.a 1. = b" 11) ∧
      ¬AttachedBefore "(-'é'.a 1. = b" 12 ∧ ¬AttachedAfter "(-'é'.a 1. = b" 13 := by
  have hscan : Token.scan "(-'é'.a 1. = b" = .ok neighbourTokens := rfl
  have hminus := operator_class_of_neighbours hscan (t := ⟨.word .preop, 1, 1, "", "-"⟩) (by decide) rfl (by decide)
  have hmember := operator_class_of_neighbours hscan (t := ⟨.word .inop2, 6, 1, "", "."⟩) (by decide) rfl (by decide)
  have hpoint := operator_class_of_neighbours hscan (t := ⟨.word .postop, 10, 1, "", "."⟩) (by decide) rfl (by decide)
  have hequals := operator_class_of_neighbours hscan (t := ⟨.word .inop0, 12, 1, " ", "="⟩) (by decide) rfl (by decide)
  have hminus' : Token.stop ⟨.word .preop, 1, 1, "", "-"⟩ = 2 := rfl
  have hmember' : Token.stop ⟨.word .inop2, 6, 1, "", "."⟩ = 7 := rfl
  have hpoint' : Token.stop ⟨.word .postop, 10, 1, "", "."⟩ = 11 := rfl
  have hequals' : Token.stop ⟨.word .inop0, 12, 1, " ", "="⟩ = 13 := rfl
  grind

end Gapscript
