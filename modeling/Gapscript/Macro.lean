import Gapscript.OrderedMap
import Gapscript.Term
import Gapscript.Text.Quoted

/-! # Macros and the table that holds them

A macro makes a term of the arguments of an application, or rejects them with a message. Macros are found by the
reference they are written for. Each reference has a stack of them, of which only the innermost is used; references
are held in the order in which they got a macro, and one whose last macro goes is forgotten.
-/

namespace Gapscript

structure Macro where
  key : Ref
  rule : List Term → Except String Term

/-- Why an application could not be expanded. -/
inductive ExpansionError where
  | failed (key : Ref) (message : String)
  | limitExceeded (depth max : Nat)
  deriving DecidableEq, Repr

def ExpansionError.message : ExpansionError → String
  | .failed key message => "expansion of macro " ++ key.describe ++ " failed: " ++ message
  | .limitExceeded depth max => s!"macro expansion limit exceeded: depth {depth} > max {max}"

namespace Macro

def expand (m : Macro) (args : List Term) : Except ExpansionError Term :=
  match m.rule args with
  | .ok t => .ok t
  | .error message => .error (.failed m.key message)

def describe (m : Macro) : String :=
  "MacroDefinition \x7b key: " ++ m.key.describe ++ " \x7d"

end Macro

/-- The macros of each reference, innermost first. -/
abbrev MacroTable := OrderedMap Ref (List Macro)

namespace MacroTable

def innermost? (table : MacroTable) (key : Ref) : Option Macro :=
  (table.get? key).bind List.head?

/-- How many macros `key` has. -/
def depth (table : MacroTable) (key : Ref) : Nat :=
  ((table.get? key).getD []).length

def push (table : MacroTable) (m : Macro) : MacroTable :=
  table.insert m.key (m :: (table.get? m.key).getD [])

/-- Take the innermost macro of `key` away. -/
def pop (table : MacroTable) (key : Ref) : Option Macro × MacroTable :=
  match table.get? key with
  | none => (none, table)
  | some [] => (none, table.erase key)
  | some [m] => (some m, table.erase key)
  | some (m :: rest) => (some m, table.insert key rest)

/-- The macro that expands applications of `operator`, if it is a reference that has one. -/
def forOperator? (table : MacroTable) : Term → Option Macro
  | .ref r => table.innermost? r
  | _ => none

/-- The references that have macros, in quotes. -/
def describe (table : MacroTable) : String :=
  Text.bracketed (table.keys.map fun key => Text.quote key.describe)

end MacroTable

end Gapscript
