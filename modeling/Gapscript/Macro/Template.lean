import Gapscript.Macro

/-! # Macros written as templates

A template is a term with holes. A hole stands for one argument; among the parts of an application or a block it may
also stand for all arguments from some position on. Holes are filled from left to right, operators before arguments.
-/

namespace Gapscript

mutual

inductive Template where
  | arg (index : Nat)
  | block (kind : BlockKind) (stmts : List Template.Part)
  | assign (targets : List Ref) (value : Template)
  | apply (operator : Template) (args : List Template.Part)
  | ref (r : Ref)
  | str (raw : String)

inductive Template.Part where
  | one (t : Template)
  | rest (start : Nat)

end

namespace Template

mutual

def fill (args : List Term) : Template → Except String Term
  | .arg i =>
    match args[i]? with
    | some t => .ok t
    | none => .error s!"missing operand {i}"
  | .block kind stmts => do
    return .block kind (← fillParts args stmts)
  | .assign targets value => do
    return .assign targets (← fill args value)
  | .apply operator parts => do
    let operator ← fill args operator
    return .apply operator (← fillParts args parts)
  | .ref r => .ok (.ref r)
  | .str raw => .ok (.str raw)

def fillParts (args : List Term) : List Part → Except String (List Term)
  | [] => .ok []
  | .one t :: parts => do
    let t ← fill args t
    return t :: (← fillParts args parts)
  | .rest i :: parts => do
    return args.drop i ++ (← fillParts args parts)

end

end Template

namespace Macro

def ofTemplate (key : Ref) (template : Template) : Macro where
  key := key
  rule args := template.fill args

/-- A macro that rejects every application. -/
def rejecting (key : Ref) (message : String) : Macro where
  key := key
  rule _ := .error message

end Macro

end Gapscript
