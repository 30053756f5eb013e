import Gapscript.Macro
import Gapscript.Term.Lower
import Gapscript.Token.Scan
import Gapscript.Tree.Parse

/-! # Errors -/

namespace Gapscript

/-- Why a term has no value. -/
inductive EvalError where
  | undefinedName (r : Ref)
  | unknownMember (type member : String)
  | notCallable (type : String)
  | arityMismatch (name : String) (expected got : Nat)
  | notSequence (type : String) (targets : Nat)
  | tooFewItems (length targets : Nat)
  | typeError (message : String)
  | failed (name message : String)
  | stream (name message : String)
  | expansion (e : ExpansionError)
  | depthExceeded (depth max : Nat)
  deriving DecidableEq, Repr

def EvalError.message : EvalError → String
  | .undefinedName r => "undefined name: '" ++ r.text ++ "' of type '" ++ r.context.name ++ "'"
  | .unknownMember type member => s!"no field or method '{member}' on type '{type}'"
  | .notCallable type => s!"value of type '{type}' is not callable"
  | .arityMismatch name expected got => s!"'{name}' expects {expected} arguments, got {got}"
  | .notSequence type targets => s!"cannot destructure value of type '{type}' into {targets} names"
  | .tooFewItems length targets => s!"cannot destructure {length} elements into {targets} names"
  | .typeError message => "type error: " ++ message
  | .failed name message => s!"builtin '{name}' failed: {message}"
  | .stream name message => s!"i/o error in '{name}': {message}"
  | .expansion e => e.message
  | .depthExceeded depth max => s!"nesting depth {depth} exceeds maximum {max}"

/-- Why a source text could not be run to a value, by the stage at which it failed. -/
inductive Error where
  | scan (e : ScanError)
  | parse (e : ParseError)
  | lower (e : LowerError)
  | eval (e : EvalError)
  deriving DecidableEq, Repr

def Error.message : Error → String
  | .scan e => "scan error: " ++ e.message
  | .parse e => "parse error: " ++ e.message
  | .lower e => "lower error: " ++ e.message
  | .eval e => "runtime error: " ++ e.message

end Gapscript
