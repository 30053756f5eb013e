import Gapscript.Proofs.Blanks
import Gapscript.Proofs.CommaList

/-! # Chains of operators

A chain is a symbol and then operators, each with a symbol to its right. With blanks around its operators, and without any,
a chain is nested to the left whatever the operators are, so that none binds tighter than another. Only assignments are
nested to the right. A point without blanks is an operator unless it makes a decimal of the digits on both sides.
-/
namespace Gapscript

structure Symbol where
  chars : List Char
  isSymbol : Scan.IsSymbol chars

namespace Symbol

def atom (x : Symbol) : Atom := .symbol x.chars x.isSymbol

def ref (x : Symbol) : Ref := .symbol (String.ofList x.chars)

def isWhole (x : Symbol) : Bool := x.chars.all Scan.isDigit

end Symbol

/-- A run of operator characters. -/
structure Operator where
  chars : List Char
  ne_nil : chars ≠ []
  isOperator : ∀ c ∈ chars, Scan.isOperator c

def Operator.text (op : Operator) : String := String.ofList op.chars

/-- An operator with the blanks around it and the symbol to its right. -/
structure Link where
  before : List Char
  op : Operator
  after : List Char
  operand : Symbol
  blank_before : Scan.Blank before
  blank_after : Scan.Blank after

namespace Link

def chars (l : Link) : List Char := l.before ++ l.op.chars ++ l.after ++ l.operand.chars

def Spaced (l : Link) : Prop := l.before ≠ [] ∧ l.after ≠ []

def Tight (l : Link) : Prop := l.before = [] ∧ l.after = []

/-- A point between the digits of `x` and a digit. -/
def IsPoint (x : Symbol) (l : Link) : Prop :=
  l.op.text = "." ∧ x.isWhole ∧ ∃ c, l.operand.chars.head? = some c ∧ Scan.isDigit c

end Link

/-- The text of a chain. -/
def chainSource (x : Symbol) (links : List Link) : String := String.ofList (x.chars ++ links.flatMap Link.chars)

def chainLexemes (context : Context) (x : Symbol) : List Link → List Lexeme
  | [] => [x.atom.lexeme]
  | l :: rest => x.atom.lexeme :: ⟨.word context, l.op.text⟩ :: chainLexemes context l.operand rest

/-- Each operator is applied to all that is to its left and to the symbol to its right. -/
def leftNested (context : Context) (first : Term) (links : List Link) : Term :=
  links.foldl (fun left l => .apply (.ref ⟨context, l.op.text⟩) [left, .ref l.operand.ref]) first

/-- Each symbol is assigned all that is to its right. -/
def rightAssigned (x : Symbol) : List Link → Term
  | [] => .ref x.ref
  | l :: rest => .assign [x.ref] (rightAssigned l.operand rest)

/-- `R` holds between each link and the symbol to its left. -/
def EachLink (R : Symbol → Link → Prop) (x : Symbol) : List Link → Prop
  | [] => True
  | l :: rest => R x l ∧ EachLink R l.operand rest

variable {x y : Symbol} {l : Link} {links : List Link} {context : Context}

theorem EachLink.imp {R S : Symbol → Link → Prop} (h : EachLink R x links) (himp : ∀ x, ∀ l ∈ links, R x l → S x l) :
    EachLink S x links := by
  induction links generalizing x with
  | nil => trivial
  | cons l rest ih =>
    have hrest := ih h.2 fun y l hl => himp y l (List.mem_cons_of_mem _ hl)
    exact ⟨himp x l List.mem_cons_self h.1,hrest⟩

theorem eachLink_of_forall_mem {R : Symbol → Link → Prop} (h : ∀ x, ∀ l ∈ links, R x l) (x : Symbol) :
    EachLink R x links := by
  induction links generalizing x with
  | nil => trivial
  | cons l rest ih =>
    have hrest := ih (fun y l hl => h y l (List.mem_cons_of_mem _ hl)) l.operand
    exact ⟨h x l List.mem_cons_self,hrest⟩

/-! ## Reading the text -/

namespace Scan

variable {ls : List Lexeme} {here start : Start} {chars cs : List Char} {whole operand attached : Bool}
  {space : List Char} {c : Char} {P Q : State → Prop}

theorem not_isSymbol_of_isOperator (hc : isOperator c) : isSymbol c = false := by
  rw [Bool.eq_false_iff]
  intro hsymbol
  have hoperator := (symbolStart_of_isSymbol hsymbol).operator
  rw [hc] at hoperator
  cases hoperator

theorem leads_start_operator (hc : isOperator c) :
    Leads (At ls (.gap operand space)) [c] (At ls (.operator here [c] operand)) := by
  obtain ⟨hblank,hnewline,hopening,hclosing⟩ := not_gap_of_class rfl hc
  have hsymbol := not_isSymbol_of_isOperator hc
  have hquote := (Plain.operator hc).quote
  refine leads_step ?_
  rintro ⟨pos,line,tokens,pending⟩ ⟨hls,hp⟩
  cases hp
  simp only [State.step, State.restart, State.settle, State.start, hblank, hnewline, hopening, hclosing, hsymbol, hquote,
    hc, Bool.false_eq_true, if_false, if_true]
  exact ⟨_,rfl,hls,.operator⟩

theorem leads_operator (hcs : ∀ c ∈ cs, isOperator c) :
    Leads (At ls (.operator here chars attached)) cs (At ls (.operator here (cs.reverse ++ chars) attached)) := by
  induction cs generalizing chars with
  | nil => exact leads_nil
  | cons c cs ih =>
    obtain ⟨hc,hcs⟩ := List.forall_mem_cons.mp hcs
    have hfirst : Leads (At ls (.operator here chars attached)) [c] (At ls (.operator here (c :: chars) attached)) := by
      refine leads_step ?_
      rintro ⟨pos,line,tokens,pending⟩ ⟨hls,hp⟩
      cases hp
      exact ⟨_,if_pos hc,hls,.operator⟩
    simpa using hfirst.append (ih hcs)

/-- Blanks settle what may end. -/
theorem leads_gap (h : ∀ s, P s → ∃ us, s.finish = .ok us ∧ us.map Token.lexeme = ls.reverse) (hcs : Blank cs)
    (hne : cs ≠ []) : Leads P cs (At ls (.gap false [])) := by
  intro s hs
  obtain ⟨us,hfinish,hus⟩ := h s hs
  obtain ⟨s',hrun,hs'⟩ := run_blanks hfinish hcs hne
  rw [hus, List.reverse_reverse] at hs'
  exact ⟨s',hrun,hs'⟩

theorem At.finish_operator {s : State} (h : At ls (.operator here chars attached) s) : ∃ us, s.finish = .ok us ∧
    us.map Token.lexeme =
      (⟨.word (operatorContext attached chars.reverse none), String.ofList chars.reverse⟩ :: ls).reverse := by
  obtain ⟨pos,line,tokens,pending⟩ := s
  obtain ⟨hls,hp⟩ := h
  cases hp
  refine ⟨_,rfl,?_⟩
  rw [List.map_reverse, ← hls]
  rfl

/-- A symbol is settled by a character that does not go on with it. -/
theorem leads_settled (hsymbol : isSymbol c = false) (hpoint : ¬(c = '.' ∧ whole))
    (h : Leads (At (⟨.word .symbol, String.ofList chars.reverse⟩ :: ls) (.gap true [])) (c :: cs) Q) :
    Leads (At ls (.symbol here chars whole)) (c :: cs) Q := by
  intro s hs
  obtain ⟨s',hrun,hs'⟩ := h _ hs.atOperand
  refine ⟨s',?_,hs'⟩
  rw [← hrun, State.run, State.run]
  obtain ⟨pos,line,tokens,pending⟩ := s
  cases hs.2
  simp only [State.step, hsymbol, Bool.false_eq_true, if_false, if_neg hpoint]
  rfl

/-- A point after digits is an operator unless a digit comes next. -/
theorem leads_released (hc : isDigit c = false)
    (h : Leads (At (⟨.word .symbol, String.ofList chars.reverse⟩ :: ls) (.operator start ['.'] true)) (c :: cs) Q) :
    Leads (At ls (.point here chars)) (c :: cs) Q := by
  intro s hs
  obtain ⟨pos,line,tokens,pending⟩ := s
  obtain ⟨hls,hp⟩ := hs
  cases hp with
  | @point _ start' =>
    obtain ⟨s',hrun,hs'⟩ := h ((⟨pos, line, tokens, .point start' chars⟩ : State).releasePoint start' chars)
      ⟨congrArg _ hls,.operator⟩
    refine ⟨s',?_,hs'⟩
    rw [← hrun, State.run, State.run]
    simp only [State.step, hc, Bool.false_eq_true, if_false]
    rfl

/-- The lexemes `ls`, last first, are finished and `x` is read, which may still go on; where it stands does not matter. -/
def AtSymbol (ls : List Lexeme) (x : Symbol) : State → Prop := At ls (.symbol ⟨0, 1, []⟩ x.chars.reverse x.isWhole)

theorem AtSymbol.atOperand {s : State} (h : AtSymbol ls x s) : AtOperand (x.atom.lexeme :: ls) s := by
  have hoperand := At.atOperand h
  rwa [List.reverse_reverse] at hoperand

/-- After `x` the link is read as an operator of the class `context` and a symbol. -/
def Extends (context : Context) (x : Symbol) (l : Link) : Prop := ∀ ls, Leads (AtSymbol ls x) l.chars
  (AtSymbol (⟨.word context, l.op.text⟩ :: x.atom.lexeme :: ls) l.operand)

theorem extends_spaced (h : l.Spaced) (x : Symbol) : Extends (operatorContext false l.op.chars none) x l := by
  intro ls
  have hbefore : Leads (AtSymbol ls x) l.before (At (x.atom.lexeme :: ls) (.gap false [])) :=
    leads_gap (fun s hs => hs.atOperand.finish) l.blank_before h.1
  obtain ⟨c,cs,hop⟩ := List.exists_cons_of_ne_nil l.op.ne_nil
  obtain ⟨hc,hcs⟩ := List.forall_mem_cons.mp (hop ▸ l.op.isOperator)
  have hrun : Leads (At (x.atom.lexeme :: ls) (.gap false [])) l.op.chars
      (At (x.atom.lexeme :: ls) (.operator ⟨0, 1, []⟩ l.op.chars.reverse false)) := by
    rw [hop, List.reverse_cons]
    exact (leads_start_operator hc).append (leads_operator hcs)
  have hafter : Leads (At (x.atom.lexeme :: ls) (.operator ⟨0, 1, []⟩ l.op.chars.reverse false)) l.after
      (At (⟨.word (operatorContext false l.op.chars none), l.op.text⟩ :: x.atom.lexeme :: ls) (.gap false [])) := by
    refine leads_gap (fun s hs => ?_) l.blank_after h.2
    have hfinish := hs.finish_operator
    rwa [List.reverse_reverse] at hfinish
  exact ((hbefore.append hrun).append hafter).append (leads_isSymbol _ l.operand.isSymbol)

/-- The rest of an operator that comes right after an operand, and the symbol right after it. -/
theorem leads_joined (hcs : ∀ c ∈ cs, isOperator c) (y : Symbol) : Leads (At ls (.operator here [c] true)) (cs ++ y.chars)
    (AtSymbol (⟨.word .inop2, String.ofList (c :: cs)⟩ :: ls) y) := by
  have hsymbol : Leads (At (⟨.word .inop2, String.ofList (c :: cs)⟩ :: ls) (.gap false [])) y.chars (AtSymbol _ y) :=
    leads_isSymbol _ y.isSymbol
  have hreverse : c :: cs = (cs.reverse ++ [c]).reverse := by simp
  obtain ⟨d,ds,hchars,hd⟩ := y.isSymbol.exists_first
  have hstart := symbolStart_of_isSymbol hd
  refine (leads_operator hcs).append ?_
  rw [hchars] at hsymbol ⊢
  rw [hreverse] at hsymbol ⊢
  exact leads_tight hstart.blank hstart.newline hstart.operator hsymbol

/-- A point after digits that is no decimal point is followed by something other than a digit. -/
theorem exists_next_of_not_isPoint (hop : l.op.chars = '.' :: cs) (hwhole : x.isWhole) (hpoint : ¬l.IsPoint x) :
    ∃ d ds, cs ++ l.operand.chars = d :: ds ∧ isDigit d = false := by
  cases cs with
  | nil =>
    obtain ⟨d,ds,hchars,_⟩ := l.operand.isSymbol.exists_first
    refine ⟨d,ds,hchars,?_⟩
    rw [Bool.eq_false_iff]
    intro hd
    exact hpoint ⟨by rw [Operator.text, hop],hwhole,d,by rw [hchars]; rfl,hd⟩
  | cons d ds =>
    refine ⟨d,_,rfl,?_⟩
    rw [Bool.eq_false_iff]
    intro hd
    have hsymbol := not_isSymbol_of_isOperator (l.op.isOperator d (by simp [hop]))
    rw [isSymbol_of_isDigit hd] at hsymbol
    cases hsymbol

theorem extends_tight (h : l.Tight) (hpoint : ¬l.IsPoint x) : Extends .inop2 x l := by
  intro ls
  obtain ⟨c,cs,hop⟩ := List.exists_cons_of_ne_nil l.op.ne_nil
  obtain ⟨hc,hcs⟩ := List.forall_mem_cons.mp (hop ▸ l.op.isOperator)
  have hchars : l.chars = c :: (cs ++ l.operand.chars) := by
    rw [Link.chars, h.1, h.2, hop]
    simp
  have hlexeme : x.atom.lexeme = ⟨.word .symbol, String.ofList x.chars.reverse.reverse⟩ := by
    rw [List.reverse_reverse]
    rfl
  have hjoined : Leads (At (x.atom.lexeme :: ls) (.operator ⟨0, 1, []⟩ [c] true)) (cs ++ l.operand.chars)
      (AtSymbol (⟨.word .inop2, l.op.text⟩ :: x.atom.lexeme :: ls) l.operand) := by
    rw [Operator.text, hop]
    exact leads_joined hcs l.operand
  rw [hchars]
  by_cases hwhole : c = '.' ∧ x.isWhole
  · -- The point is held back until the next character shows that it is no decimal point.
    obtain ⟨rfl,hwhole⟩ := hwhole
    obtain ⟨d,ds,hrest,hd⟩ := exists_next_of_not_isPoint hop hwhole hpoint
    have hheld : Leads (AtSymbol ls x) ['.'] (At ls (.point ⟨0, 1, []⟩ x.chars.reverse)) := by
      rw [AtSymbol, hwhole]
      exact leads_point
    rw [hrest, hlexeme] at hjoined
    rw [hrest, hlexeme]
    exact hheld.append (leads_released hd hjoined)
  · have hattached : Leads (At (x.atom.lexeme :: ls) (.gap true [])) _ _ := (leads_start_operator hc).append hjoined
    rw [hlexeme] at hattached ⊢
    exact leads_settled (not_isSymbol_of_isOperator hc) hwhole hattached

theorem leads_chain (h : EachLink (Extends context) x links) (ls : List Lexeme) :
    Leads (AtSymbol ls x) (links.flatMap Link.chars) (AtOperand ((chainLexemes context x links).reverse ++ ls)) := by
  induction links generalizing x ls with
  | nil =>
    intro s hs
    exact ⟨s,rfl,hs.atOperand⟩
  | cons l rest ih =>
    have hrest := (h.1 ls).append (ih h.2 _)
    simpa [chainLexemes] using hrest

theorem scan_chainSource (h : EachLink (Extends context) x links) :
    ∃ us, Token.scan (chainSource x links) = .ok us ∧
      us.map Token.lexeme = ⟨.bol, ""⟩ :: chainLexemes context x links := by
  refine scan_line ?_
  rw [chainSource, String.toList_ofList]
  exact (leads_isSymbol _ x.isSymbol).append (leads_chain h _)

end Scan

/-! ## The meaning of the lexemes -/

/-- The operators of a chain, each with the operand to its right. -/
def chainLinks (context : Context) (links : List Link) : List (Ref × Term) :=
  links.map fun l => (⟨context, l.op.text⟩, .ref l.operand.ref)

theorem operateAll_chainLinks (h : ∀ l ∈ links, l.op.text ≠ ",") (first : Term) :
    first.operateAll (chainLinks context links) = leftNested context first links := by
  induction links generalizing first with
  | nil => rfl
  | cons l rest ih =>
    obtain ⟨hl,hrest⟩ := List.forall_mem_cons.mp h
    have hfirst : first.operate ⟨context, l.op.text⟩ (.ref l.operand.ref) =
        .apply (.ref ⟨context, l.op.text⟩) [first, .ref l.operand.ref] := if_neg hl
    rw [leftNested, List.foldl_cons, ← hfirst]
    exact ih hrest _

namespace Parse
open Grammar

/-- A chain of one tier, whose phrase `a` is a symbol or a symbol, an operator and again a phrase `a`. -/
theorem denotes_chain {a : Phrase} (hlast : ∀ n (x : Symbol), Denotes n a [x.atom.lexeme] (.chain (.ref x.ref) []))
    (hlink : ∀ {n} (x : Symbol) (op : String) {v t rest}, Denotes n a v (.chain t rest) →
      Denotes (n + 1) a (x.atom.lexeme :: ⟨.word context, op⟩ :: v) (.chain (.ref x.ref) ((⟨context, op⟩, t) :: rest)))
    {n : Nat} (hn : links.length ≤ n) :
    Denotes n a (chainLexemes context x links) (.chain (.ref x.ref) (chainLinks context links)) := by
  induction links generalizing n x with
  | nil => exact hlast n x
  | cons l rest ih =>
    cases n with
    | zero => cases hn
    | succ n => exact hlink x l.op.text (ih (Nat.le_of_succ_le_succ hn))

theorem denotes_tight {n : Nat} (hn : links.length ≤ n) (h : ∀ l ∈ links, l.op.text ≠ ",") :
    Denotes n .expr0 (chainLexemes .inop2 x links) (.term (leftNested .inop2 (.ref x.ref) links)) := by
  have hchain : Denotes n .expr2 (chainLexemes .inop2 x links) (.chain (.ref x.ref) (chainLinks .inop2 links)) :=
    denotes_chain (fun n x => (denotes_joined x.atom n).expr2Single)
      (fun x _ _ _ _ h => (denotes_joined x.atom _).expr2Infix h) hn
  have hvalue := hchain.exprApply .argsNil
  rw [operateAll_chainLinks h, List.append_nil] at hvalue
  exact hvalue.expr1Single.expr0Single

theorem denotes_spaced {n : Nat} (hn : links.length ≤ n) (h : ∀ l ∈ links, l.op.text ≠ ",") :
    Denotes n .expr0 (chainLexemes .inop1 x links) (.term (leftNested .inop1 (.ref x.ref) links)) := by
  have hchain : Denotes n .expr1 (chainLexemes .inop1 x links) (.chain (.ref x.ref) (chainLinks .inop1 links)) :=
    denotes_chain (fun n x => (denotes_alone x.atom n).expr1Single) (fun x _ _ _ _ h => (denotes_alone x.atom _).expr1Infix h) hn
  rw [← operateAll_chainLinks h]
  exact hchain.expr0Single

theorem denotes_assigned {n : Nat} (hn : links.length ≤ n) :
    Denotes n .expr0 (chainLexemes .inop0 x links) (.term (rightAssigned x links)) := by
  induction links generalizing n x with
  | nil => exact (denotes_alone x.atom n).expr1Single.expr0Single
  | cons l rest ih =>
    cases n with
    | zero => cases hn
    | succ n => exact (denotes_alone x.atom _).expr1Single.expr0Infix rfl (ih (Nat.le_of_succ_le_succ hn))

end Parse

/-! ## Chains as programs -/

theorem compile_line {text : String} {ls : List Lexeme} {t : Term}
    (hscan : ∃ us, Token.scan text = .ok us ∧ us.map Token.lexeme = ⟨.bol, ""⟩ :: ls)
    (h : Parse.Denotes Parse.maxNesting .expr0 ls (.term t)) : compile text = .ok (.block .top [t]) := by
  obtain ⟨us,hus,hlexemes⟩ := hscan
  refine compile_eq_ok_iff.mpr ⟨us,[t],hus,?_,rfl⟩
  rw [hlexemes]
  exact h.line

/-- The class of an operator with blanks around it. -/
theorem operatorContext_spaced (op : Operator) :
    Scan.operatorContext false op.chars none = if op.text = "=" then .inop0 else .inop1 := by
  have hassign : op.text = "=" ↔ op.chars = ['='] := String.ofList_inj
  simp only [Scan.operatorContext, hassign]

theorem scan_spacedChain (h : ∀ l ∈ links, l.Spaced ∧ (if l.op.text = "=" then .inop0 else .inop1) = context)
    (x : Symbol) : ∃ us, Token.scan (chainSource x links) = .ok us ∧
      us.map Token.lexeme = ⟨.bol, ""⟩ :: chainLexemes context x links := by
  refine Scan.scan_chainSource (eachLink_of_forall_mem (fun y l hl => ?_) x)
  obtain ⟨hspaced,hcontext⟩ := h l hl
  rw [← hcontext, ← operatorContext_spaced]
  exact Scan.extends_spaced hspaced y

/-- A chain of operators is one statement. With blanks around them, and without blanks, operators of any kind are nested
to the left, and assignments are nested to the right. -/
theorem compile_chain (x : Symbol) (links : List Link) (hlength : links.length ≤ Parse.maxNesting) :
    ((∀ l ∈ links, l.Spaced ∧ l.op.text ≠ "=" ∧ l.op.text ≠ ",") →
      compile (chainSource x links) = .ok (.block .top [leftNested .inop1 (.ref x.ref) links])) ∧
    ((∀ l ∈ links, l.Tight ∧ l.op.text ≠ ",") → EachLink (fun y l => ¬l.IsPoint y) x links →
      compile (chainSource x links) = .ok (.block .top [leftNested .inop2 (.ref x.ref) links])) ∧
    ((∀ l ∈ links, l.Spaced ∧ l.op.text = "=") →
      compile (chainSource x links) = .ok (.block .top [rightAssigned x links])) := by
  refine ⟨?_,?_,?_⟩
  · intro h
    have hscan := scan_spacedChain (fun l hl => ⟨(h l hl).1,if_neg (h l hl).2.1⟩) x
    exact compile_line hscan (Parse.denotes_spaced hlength fun l hl => (h l hl).2.2)
  · intro h hpoint
    have hscan := Scan.scan_chainSource (hpoint.imp fun y l hl hl' => Scan.extends_tight (h l hl).1 hl')
    exact compile_line hscan (Parse.denotes_tight hlength fun l hl => (h l hl).2)
  · intro h
    have hscan := scan_spacedChain (fun l hl => ⟨(h l hl).1,if_pos (h l hl).2⟩) x
    exact compile_line hscan (Parse.denotes_assigned hlength)

def Symbol.ofChar (c : Char) (hc : Scan.isSymbol c) : Symbol := ⟨[c], .word hc (List.forall_mem_nil _)⟩

/-- The operator `cs` with `space` on both sides. -/
def Link.within (space cs : List Char) (y : Symbol) (hspace : space.all Scan.isBlank) (hne : cs ≠ [])
    (hcs : cs.all Scan.isOperator) : Link where
  before := space
  op := ⟨cs, hne, List.all_eq_true.mp hcs⟩
  after := space
  operand := y
  blank_before := List.all_eq_true.mp hspace
  blank_after := List.all_eq_true.mp hspace

/-- No operator binds tighter than another, and the points in `1.5.2..x` are a decimal point and two operators. -/
theorem compile_chain_mixed :
    compile "a + b * 2" = .ok (.block .top [.apply (.ref ⟨.inop1, "*"⟩)
      [.apply (.ref ⟨.inop1, "+"⟩) [.symbol "a", .symbol "b"], .symbol "2"]]) ∧
    compile "1.5.2..x" = .ok (.block .top [.apply (.ref ⟨.inop2, ".."⟩)
      [.apply (.ref ⟨.inop2, "."⟩) [.symbol "1.5", .symbol "2"], .symbol "x"]]) ∧
    compile "a\t=\tb\t=\t2" = .ok (.block .top [.assign [.symbol "a"] (.assign [.symbol "b"] (.symbol "2"))]) := by
  have hlength : 2 ≤ Parse.maxNesting := by decide
  have hdecimal : Scan.IsSymbol (['1'] ++ ['.', '5']) :=
    .decimal rfl (List.forall_mem_nil _) rfl (List.forall_mem_nil _)
  have hspaced := (compile_chain (.ofChar 'a' rfl)
    [.within [' '] ['+'] (.ofChar 'b' rfl) rfl (by decide) rfl, .within [' '] ['*'] (.ofChar '2' rfl) rfl (by decide) rfl]
    hlength).1
  have htight := (compile_chain ⟨_, hdecimal⟩
    [.within [] ['.'] (.ofChar '2' rfl) rfl (by decide) rfl, .within [] ['.', '.'] (.ofChar 'x' rfl) rfl (by decide) rfl]
    hlength).2.1
  have hassigned := (compile_chain (.ofChar 'a' rfl)
    [.within ['\t'] ['='] (.ofChar 'b' rfl) rfl (by decide) rfl, .within ['\t'] ['='] (.ofChar '2' rfl) rfl (by decide) rfl]
    hlength).2.2
  refine ⟨hspaced ?_,htight ?_ ?_,hassigned ?_⟩
  · simp [Link.within, Link.Spaced, Operator.text]
  · simp [Link.within, Link.Tight, Operator.text]
  · -- The decimal is no whole number, and two points are not a decimal point.
    simp [EachLink, Link.within, Link.IsPoint, Operator.text, Symbol.isWhole, Scan.isDigit]
  · simp [Link.within, Link.Spaced, Operator.text]

end Gapscript
