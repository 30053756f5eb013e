import Gapscript.Macro.Template
import Gapscript.Program

/-! # Sessions

A session is a list of requests to an interpreter: to run a program, or to do a single operation on its environment. An
embedding made of such operations is a routine: the operations it performs when it is called, and how its result comes
about.

A routine may call itself in ways that no limit of the language bounds, so the meaning of routines is given for every
number of routines that may be active at a time.
-/

namespace Gapscript

mutual

/-- A value as a session describes it. -/
inductive Operand where
  | undefined
  | number (x : Float)
  | text (s : String)
  | seq (items : List Operand)
  | record (type : String) (fields : List (String × Operand))
  /-- What a reference is bound to. -/
  | bound (key : Ref)
  /-- A member of another value. -/
  | member (receiver : Operand) (name : String)
  | function (name : String) (arity : Int) (body : Routine)

/-- A function of the embedding. -/
inductive Routine where
  | mk (steps : List Command) (result : RoutineResult)

/-- How the result of a routine comes about. -/
inductive RoutineResult where
  | const (v : Operand)
  /-- The sequence of all arguments. -/
  | args
  /-- The arguments as they are written out, one after the other. -/
  | concat
  /-- One argument, undefined if there are fewer. -/
  | arg (index : Nat)
  /-- The first argument called with the others. -/
  | call
  | eval (t : Term)
  /-- The nesting depth and the number of open blocks. -/
  | depth
  | fail (name message : String)
  | typeFail (message : String)

/-- One operation on an environment. -/
inductive Command where
  | run (source : String)
  | evalBlock (stmts : List Term) (maxDepth : Nat)
  | prelude
  | define (key : Ref) (v : Operand)
  | builtin (context : Context) (name : String) (arity : Int) (body : Routine)
  | method (type name : String) (arity : Int) (body : Routine)
  | get (key : Ref)
  | bindings (skip : Nat)
  | pushMacro (m : Macro)
  | popMacro (key : Ref)
  | expand (operator : Term) (args : List Term) (max : Nat)
  | pushBlock
  | popBlock
  | record (v : Operand)
  /-- Commands in a block of their own, whose result is asked for or not. -/
  | inBlock (steps : List Command) (wanted : Bool)
  | enter (max : Nat)
  | exit
  | call (f : Operand) (args : List Operand)
  | member (receiver : Operand) (name : String)
  | fieldOrMethod (args : List Operand)
  | methods
  | methodArity (type name : String)
  | read
  | state
  | describe

end

/-- The answer to a command or a request. -/
inductive Reply where
  | program (r : Outcome Error (Value Routine))
  | value (r : Outcome EvalError (Value Routine))
  | size (n : Nat)
  | builtin (name : String) (size : Nat)
  | names (names : List String)
  | binding (key : Ref) (v : Option (Value Routine))
  | bindings (entries : List (Ref × Value Routine))
  | macros (heights : List (Ref × Nat))
  | popped (found : Bool) (heights : List (Ref × Nat))
  | expansion (r : Except ExpansionError (Option Term))
  | blocks (n : Nat)
  | blockEnded (result : Option (Value Routine)) (blocks : Nat) (heights : List (Ref × Nat))
  | inBlock (replies : List Reply) (result : Option (Value Routine)) (heights : List (Ref × Nat))
  | depth (r : Except EvalError Nat)
  | methods (types : List (String × List String))
  | arity (n : Option Int)
  | input (r : Except String String)
  | state (size depth blocks : Nat) (heights : List (Ref × Nat))
  | description (env streams : String)
  | limits (l : Limits)

/-- The references that have macros, each with the height of its stack. -/
def MacroTable.heights (table : MacroTable) : List (Ref × Nat) :=
  table.map fun (key, stack) => (key, stack.length)

/-- Streams show nothing of themselves. -/
def Streams.describe (_ : Streams) : String := "Stdio \x7b .. \x7d"

namespace Operand

mutual

/-- The value that an operand stands for in an environment. -/
def resolve (env : Env Routine) : Operand → Except EvalError (Value Routine)
  | .undefined => .ok .undefined
  | .number x => .ok (.number x)
  | .text s => .ok (.text s)
  | .seq items => do
    return .seq (← resolveAll env items)
  | .record type fields => resolveFields env (.record type []) fields
  | .bound key =>
    match env.get? key with
    | some v => .ok v
    | none => .error (.undefinedName key)
  | .member receiver name => do
    env.member (← resolve env receiver) name
  | .function name arity body => .ok (.builtin (.external name arity body))

def resolveAll (env : Env Routine) : List Operand → Except EvalError (List (Value Routine))
  | [] => .ok []
  | o :: os => do
    let v ← resolve env o
    return v :: (← resolveAll env os)

/-- Add fields to a record one after the other. -/
def resolveFields (env : Env Routine) (r : Value Routine) :
    List (String × Operand) → Except EvalError (Value Routine)
  | [] => .ok r
  | (name, o) :: fields => do
    let v ← resolve env o
    resolveFields env (r.withField name v) fields

end

end Operand

namespace Command

variable (host : Host Routine)

/-- Do `f` with the values of operands, or complain about the first that stands for none. -/
def withOperands (os : List Operand) (env : Env Routine) (f : List (Value Routine) → Reply × Env Routine) :
    Reply × Env Routine :=
  match Operand.resolveAll env os with
  | .ok vs => f vs
  | .error e => (.value (.error e), env)

mutual

def perform (env : Env Routine) : Command → Reply × Env Routine
  | .run source =>
    match runSource host {} source env with
    | (r, env) => (.program r, env)
  | .evalBlock stmts maxDepth =>
    match Gapscript.evalBlock host { maxDepth } stmts env with
    | (r, env) => (.value r, env)
  | .prelude =>
    let env := env.loadPrelude
    (.size env.bindings.length, env)
  | .define key o =>
    match o.resolve env with
    | .ok v =>
      let env := env.define key v
      (.size env.bindings.length, env)
    | .error e => (.value (.error e), env)
  | .builtin context name arity body =>
    let env := env.defineBuiltin context (.external name arity body)
    (.builtin name env.bindings.length, env)
  | .method type name arity body =>
    let env := env.defineMethod type (.external name arity body)
    (.names (env.methods.names type), env)
  | .get key => (.binding key (env.get? key), env)
  | .bindings skip => (.bindings (env.bindings.drop skip), env)
  | .pushMacro m =>
    let env := env.pushMacro m
    (.macros env.macros.heights, env)
  | .popMacro key =>
    match env.popMacro key with
    | (found, env) => (.popped found env.macros.heights, env)
  | .expand operator args max => (.expansion (env.macros.expand max operator args), env)
  | .pushBlock =>
    let env := env.pushBlock
    (.blocks env.blockDepth, env)
  | .popBlock =>
    match env.popBlock with
    | (result, env) => (.blockEnded result env.blockDepth env.macros.heights, env)
  | .record o =>
    match o.resolve env with
    | .ok v =>
      let env := env.record v
      (.blocks env.blockDepth, env)
    | .error e => (.value (.error e), env)
  | .inBlock steps wanted =>
    match performAll env.pushBlock steps with
    | (replies, env) =>
      match env.popBlock with
      | (result, env) =>
        (.inBlock replies (if wanted then some (result.getD .undefined) else none) env.macros.heights, env)
  | .enter max =>
    match env.enter max with
    | .ok env => (.depth (.ok env.depth), env)
    | .error e => (.depth (.error e), env)
  | .exit =>
    let env := env.exit
    (.depth (.ok env.depth), env)
  | .call f args =>
    withOperands (f :: args) env fun
      | f :: args =>
        match Gapscript.call host f args env with
        | (r, env) => (.value r, env)
      | [] => (.value (.value .undefined), env)
  | .member receiver name =>
    match receiver.resolve env with
    | .ok v => (.value (.ofExcept (env.member v name)), env)
    | .error e => (.value (.error e), env)
  | .fieldOrMethod args =>
    withOperands args env fun args => (.value (.ofExcept (env.fieldOrMethod args)), env)
  | .methods => (.methods (env.methods.map fun (type, table) => (type, OrderedMap.keys table)), env)
  | .methodArity type name => (.arity ((env.methods.find? type name).map Method.arity), env)
  | .read =>
    match env.streams.input.readAll with
    | (r, input) => (.input r, { env with streams := { env.streams with input } })
  | .state => (.state env.bindings.length env.depth env.blockDepth env.macros.heights, env)
  | .describe => (.description env.describe env.streams.describe, env)

def performAll (env : Env Routine) : List Command → List Reply × Env Routine
  | [] => ([], env)
  | c :: cs =>
    match perform env c with
    | (reply, env) =>
      match performAll env cs with
      | (replies, env) => (reply :: replies, env)

end

end Command

namespace Routine

/-- The result of a routine, after its steps. -/
def result (host : Host Routine) (args : List (Value Routine)) : RoutineResult → Action Routine (Value Routine)
  | .const o => .reading fun env => o.resolve env
  | .args => pure (.seq args)
  | .concat => pure (.text (Text.join "" (args.map Value.display)))
  | .arg i => pure (args[i]?.getD .undefined)
  | .call =>
    match args with
    | f :: rest => Gapscript.call host f rest
    | [] => pure .undefined
  | .eval t => Gapscript.eval host {} t
  | .depth => .reading fun env => .ok (.text s!"{env.depth} {env.blockDepth}")
  | .fail name message => .fail (.failed name message)
  | .typeFail message => .fail (.typeError message)

/-- Do the steps of a routine, whose own answers are of no interest, and then what gives its result. -/
def perform (host : Host Routine) : Routine → List (Value Routine) → Action Routine (Value Routine)
  | .mk steps how, args => fun env => result host args how (Command.performAll host env steps).2

/-- What routines do when at most `n` of them may be active at a time. -/
def host : Nat → Host Routine
  | 0, _, _ => .unfinished
  | n + 1, r, args => r.perform (host n) args

/-- What routines do. The bound is far beyond what a session could reach. -/
def hosted : Host Routine := host 4294967296

end Routine

/-- What a session asks of an interpreter. -/
inductive Request where
  | run (source : String)
  | eval (t : Term)
  | limits
  | command (c : Command)

namespace Request

def answer (i : Interpreter Routine) : Request → Reply × Interpreter Routine
  | .run source =>
    match i.run Routine.hosted source with
    | (r, i) => (.program r, i)
  | .eval t =>
    match i.eval Routine.hosted t with
    | (r, i) => (.program r, i)
  | .limits => (.limits i.limits, i)
  | .command c =>
    match c.perform Routine.hosted i.env with
    | (reply, env) => (reply, { i with env })

def answerAll (i : Interpreter Routine) : List Request → List Reply × Interpreter Routine
  | [] => ([], i)
  | r :: rs =>
    match r.answer i with
    | (reply, i) =>
      match answerAll i rs with
      | (replies, i) => (reply :: replies, i)

end Request

end Gapscript
