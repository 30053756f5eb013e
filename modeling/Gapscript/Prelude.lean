import Gapscript.Env
import Gapscript.Macro.Standard

/-! # The prelude -/

namespace Gapscript

namespace Env

variable {ν : Type}

/-- Operators and functions of the prelude in the order of their definition. Operators between two operands are the same
with blanks around them and without. -/
def preludeBuiltins : List (Context × Builtin ν) :=
  [.inop1, .inop2].flatMap (fun context =>
    [.add, .sub, .mul, .div, .rem].map fun p => (context, .primitive p)) ++
  [(.preop, .primitive .neg), (.postop, .primitive .list), (.symbol, .primitive .stdin),
    (.symbol, .primitive .stdout), (.symbol, .primitive .int), (.symbol, .primitive .floor),
    (.symbol, .primitive .debug), (.symbol, .primitive .split), (.symbol, .map),
    (.symbol, .primitive .fieldOrMethod)]

/-- Methods of the prelude in the order of their definition. -/
def preludeMethods : List (String × Method ν) :=
  [("stdin", .primitive .read), ("stdout", .primitive .write), ("text", .primitive .textSplit),
    ("text", .primitive .trim), ("text", .primitive .textLen), ("seq", .map), ("seq", .primitive .seqLen),
    ("seq", .primitive .get), ("seq", .primitive .join), ("number", .primitive .floor),
    ("number", .primitive .int)]

/-- Add the prelude to an environment. Bindings and methods that are there are replaced, macros are pushed again. -/
def loadPrelude (env : Env ν) : Env ν :=
  let env := preludeBuiltins.foldl (fun env (context, b) => env.defineBuiltin context b) env
  let env := preludeMethods.foldl (fun env (type, m) => env.defineMethod type m) env
  (env.pushMacro Macro.pipe).pushMacro Macro.memberAccess

/-- An environment with the prelude and nothing else. -/
def withPrelude (streams : Streams) : Env ν := loadPrelude { streams }

end Env

end Gapscript
