import Gapscript.Ref

/-! # Tokens -/

namespace Gapscript

inductive Bracket where
  | brace
  | bracket
  | paren
  deriving DecidableEq, Repr

inductive Quote where
  | double
  | single
  deriving DecidableEq, Repr

def Quote.char : Quote → Char
  | .double => '"'
  | .single => '\''

namespace Token

/-- A line start, a bracket, a quoted text, or a word: a symbol or an operator, which names something in its
context. -/
inductive Kind where
  | bol
  | opening (b : Bracket)
  | closing (b : Bracket)
  | string (q : Quote)
  | word (c : Context)
  deriving DecidableEq, Repr

namespace Kind

def name : Kind → String
  | .bol => "bol"
  | .opening .brace => "openBrace"
  | .opening .bracket => "openBracket"
  | .opening .paren => "openParen"
  | .closing .brace => "closeBrace"
  | .closing .bracket => "closeBracket"
  | .closing .paren => "closeParen"
  | .string .double => "dstring"
  | .string .single => "sstring"
  | .word c => c.name

/-- The context in which a token of this kind names something, if it does. -/
def context? : Kind → Option Context
  | .word c => some c
  | _ => none

def isString : Kind → Bool
  | .string _ => true
  | _ => false

end Kind

end Token

/-- A piece of source text with its place. The position counts UTF-8 bytes from zero, lines count from one, and
`space` is what was skipped in front of the text. -/
structure Token where
  kind : Token.Kind
  pos : Nat
  line : Nat
  space : String
  text : String
  deriving DecidableEq, Repr

/-- The kind, the position and the text between single quotes, in parentheses. -/
def Token.describe (t : Token) : String :=
  "(" ++ t.kind.name ++ " " ++ t.pos.repr ++ " '" ++ t.text ++ "')"

end Gapscript
