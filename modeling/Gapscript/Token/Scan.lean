import Gapscript.Token

/-! # Reading source text as tokens

The scanner is a fold over the characters of the text. Its state says what is being read and where it began; a
character either continues that or settles it and begins something new. The class of an operator depends on the
character in front of it, which is known when the operator begins, and on the one after it, which is known when it
is settled.
-/

namespace Gapscript

/-- Why a text is no sequence of tokens. -/
inductive ScanError where
  | unterminated (quote : Quote) (pos line : Nat)
  | unknownChar (c : Char) (pos line : Nat)
  deriving DecidableEq, Repr

namespace ScanError

def pos : ScanError → Nat
  | .unterminated _ pos _ => pos
  | .unknownChar _ pos _ => pos

def line : ScanError → Nat
  | .unterminated _ _ line => line
  | .unknownChar _ _ line => line

def message : ScanError → String
  | .unterminated quote pos line =>
    let style := match quote with
      | .double => "double"
      | .single => "single"
    s!"unexpected EOF in {style} quoted string started at pos={pos} (line={line})"
  | .unknownChar c pos line => s!"unknown char: '{c}' at pos={pos} (line={line})"

end ScanError

namespace Scan

/-- Blanks separate tokens without ending the line. -/
def isBlank (c : Char) : Bool := c == ' ' || c == '\t' || c == '\r'

def isDigit (c : Char) : Bool := '0' ≤ c && c ≤ '9'

def isSymbol (c : Char) : Bool :=
  isDigit c || ('a' ≤ c && c ≤ 'z') || ('A' ≤ c && c ≤ 'Z') || c == '_'

def isOperator (c : Char) : Bool := "=!#$%&*+,./:;<>?@^`~-|".toList.contains c

def opening? : Char → Option Bracket
  | '{' => some .brace
  | '[' => some .bracket
  | '(' => some .paren
  | _ => none

def closing? : Char → Option Bracket
  | '}' => some .brace
  | ']' => some .bracket
  | ')' => some .paren
  | _ => none

def quote? : Char → Option Quote
  | '"' => some .double
  | '\'' => some .single
  | _ => none

/-- The class of an operator. `attached` says that an operand ends right before it, `next` is the character after
it; a blank, a newline and the end of the text all count as a gap. -/
def operatorContext (attached : Bool) (text : List Char) (next : Option Char) : Context :=
  let gap := match next with
    | none => true
    | some c => isBlank c || c == '\n'
  match attached, gap with
  | true, true => .postop
  | true, false => .inop2
  | false, false => .preop
  | false, true => if text = ['='] then .inop0 else .inop1

/-- Where a token begins and the blanks in front of it. -/
structure Start where
  pos : Nat
  line : Nat
  space : List Char
  deriving DecidableEq, Repr

/-- What is being read. The characters of an unfinished token are held last first. -/
inductive Pending where
  /-- Nothing but blanks since the last token; `operand` says that there are none and that token was an operand. -/
  | gap (operand : Bool) (space : List Char)
  /-- A symbol; `whole` says that it has digits only, so that a decimal point may follow. -/
  | symbol (start : Start) (chars : List Char) (whole : Bool)
  /-- Digits and a point which is a decimal point if a digit follows and an operator if not. -/
  | point (start : Start) (chars : List Char)
  | operator (start : Start) (chars : List Char) (attached : Bool)
  | string (quote : Quote) (start : Start) (chars : List Char) (escaped : Bool)
  deriving DecidableEq, Repr

/-- The scanner between two characters: its place in the text, the finished tokens, last first, and what is being
read. -/
structure State where
  pos : Nat
  line : Nat
  tokens : List Token
  pending : Pending
  deriving DecidableEq, Repr

/-- Every text begins with a line start. -/
def State.initial : State where
  pos := 0
  line := 1
  tokens := [⟨.bol, 0, 1, "", ""⟩]
  pending := .gap false []

namespace State

/-- Finish a token. The characters come last first. -/
def emit (s : State) (kind : Token.Kind) (start : Start) (chars : List Char) (pending : Pending) : State :=
  let token := ⟨kind, start.pos, start.line, String.ofList start.space, String.ofList chars.reverse⟩
  { s with tokens := token :: s.tokens, pending }

/-- The point after a whole number turns out to be an operator attached to it. -/
def releasePoint (s : State) (start : Start) (chars : List Char) : State :=
  s.emit (.word .symbol) start chars (.operator ⟨s.pos - 1, s.line, []⟩ ['.'] true)

/-- Finish the symbol or operator that is being read; `next` is the character after it. -/
def settle (s : State) (next : Option Char) : State :=
  match s.pending with
  | .symbol start chars _ => s.emit (.word .symbol) start chars (.gap true [])
  | .operator start chars attached =>
    s.emit (.word (operatorContext attached chars.reverse next)) start chars (.gap false [])
  | _ => s

/-- Move over a character. -/
def advance (s : State) (c : Char) : State :=
  { s with pos := s.pos + c.utf8Size, line := if c = '\n' then s.line + 1 else s.line }

/-- Begin something new with `c`, after `space` blanks since the last token. -/
def start (s : State) (operand : Bool) (space : List Char) (c : Char) : Except ScanError State :=
  let here : Start := ⟨s.pos, s.line, space⟩
  if isBlank c then
    .ok ({ s with pending := .gap false (space ++ [c]) }.advance c)
  else if c = '\n' then
    .ok ((s.emit .bol ⟨s.pos, s.line + 1, space ++ [c]⟩ [] (.gap false [])).advance c)
  else if let some b := opening? c then
    .ok ((s.emit (.opening b) here [c] (.gap false [])).advance c)
  else if let some b := closing? c then
    .ok ((s.emit (.closing b) here [c] (.gap true [])).advance c)
  else if isSymbol c then
    .ok ({ s with pending := .symbol here [c] (isDigit c) }.advance c)
  else if let some q := quote? c then
    .ok ({ s with pending := .string q here [c] false }.advance c)
  else if isOperator c then
    .ok ({ s with pending := .operator here [c] operand }.advance c)
  else
    .error (.unknownChar c s.pos s.line)

/-- Settle what is being read and begin anew with `c`. -/
def restart (s : State) (c : Char) : Except ScanError State :=
  let settled := s.settle (some c)
  match settled.pending with
  | .gap operand space => settled.start operand space c
  | _ => settled.start false [] c

/-- Read `c` while an operator is being read. -/
def operatorStep (s : State) (start : Start) (chars : List Char) (attached : Bool) (c : Char) :
    Except ScanError State :=
  if isOperator c then
    .ok ({ s with pending := .operator start (c :: chars) attached }.advance c)
  else
    s.restart c

/-- Read one character. -/
def step (s : State) (c : Char) : Except ScanError State :=
  match s.pending with
  | .gap _ _ => s.restart c
  | .symbol start chars whole =>
    if isSymbol c then
      .ok ({ s with pending := .symbol start (c :: chars) (whole && isDigit c) }.advance c)
    else if c = '.' ∧ whole then
      .ok ({ s with pending := .point start chars }.advance c)
    else
      s.restart c
  | .point start chars =>
    if isDigit c then
      .ok ({ s with pending := .symbol start (c :: '.' :: chars) false }.advance c)
    else
      (s.releasePoint start chars).operatorStep ⟨s.pos - 1, s.line, []⟩ ['.'] true c
  | .operator start chars attached => s.operatorStep start chars attached c
  | .string quote start chars escaped =>
    if ¬escaped ∧ c = quote.char then
      .ok ((s.emit (.string quote) start (c :: chars) (.gap true [])).advance c)
    else
      .ok ({ s with pending := .string quote start (c :: chars) (!escaped && c == '\\') }.advance c)

/-- The tokens read when the text ends here. -/
def finish (s : State) : Except ScanError (List Token) :=
  match s.pending with
  | .string quote start _ _ => .error (.unterminated quote start.pos start.line)
  | .point start chars => .ok ((s.releasePoint start chars).settle none).tokens.reverse
  | _ => .ok (s.settle none).tokens.reverse

/-- Read characters from left to right up to the first failure. -/
def run (s : State) : List Char → Except ScanError State
  | [] => .ok s
  | c :: cs =>
    match s.step c with
    | .ok next => next.run cs
    | .error e => .error e

end State

end Scan

/-- Read a source text as tokens. Blanks at the end of the text belong to no token. -/
def Token.scan (text : String) : Except ScanError (List Token) :=
  match Scan.State.initial.run text.toList with
  | .ok s => s.finish
  | .error e => .error e

end Gapscript
