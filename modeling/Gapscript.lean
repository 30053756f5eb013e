import Gapscript.Action
import Gapscript.Env
import Gapscript.Error
import Gapscript.Eval
import Gapscript.Eval.Call
import Gapscript.Macro
import Gapscript.Macro.Expand
import Gapscript.Macro.Standard
import Gapscript.Macro.Template
import Gapscript.Methods
import Gapscript.Number
import Gapscript.Number.Shortest
import Gapscript.Number.Text
import Gapscript.OrderedMap
import Gapscript.Prelude
import Gapscript.Primitive
import Gapscript.Program
import Gapscript.Proofs.Acceptance
import Gapscript.Proofs.Approximation
import Gapscript.Proofs.Arguments
import Gapscript.Proofs.Assigned
import Gapscript.Proofs.Assignment
import Gapscript.Proofs.Atoms
import Gapscript.Proofs.Balance
import Gapscript.Proofs.Blanks
import Gapscript.Proofs.Bytes
import Gapscript.Proofs.Chains
import Gapscript.Proofs.CommaList
import Gapscript.Proofs.Coverage
import Gapscript.Proofs.Cursor
import Gapscript.Proofs.Dumps
import Gapscript.Proofs.Equality
import Gapscript.Proofs.Expansion
import Gapscript.Proofs.Grammar
import Gapscript.Proofs.Leaves
import Gapscript.Proofs.Ledger
import Gapscript.Proofs.Levels
import Gapscript.Proofs.Lexemes
import Gapscript.Proofs.Limits
import Gapscript.Proofs.Lines
import Gapscript.Proofs.Literals
import Gapscript.Proofs.Longest
import Gapscript.Proofs.Lowering
import Gapscript.Proofs.Meaning
import Gapscript.Proofs.MemberAccess
import Gapscript.Proofs.Mentions
import Gapscript.Proofs.Native
import Gapscript.Proofs.Neighbours
import Gapscript.Proofs.Nesting
import Gapscript.Proofs.Operation
import Gapscript.Proofs.OrderedMap
import Gapscript.Proofs.Pipeline
import Gapscript.Proofs.Reading
import Gapscript.Proofs.Rejection
import Gapscript.Proofs.Relocation
import Gapscript.Proofs.Runs
import Gapscript.Proofs.Splitting
import Gapscript.Proofs.Termination
import Gapscript.Proofs.Traced
import Gapscript.Proofs.WellFormed
import Gapscript.Ref
import Gapscript.Session
import Gapscript.Stream
import Gapscript.Term
import Gapscript.Term.Literal
import Gapscript.Term.Lower
import Gapscript.Text.Blank
import Gapscript.Text.Hidden
import Gapscript.Text.Quoted
import Gapscript.Text.Split
import Gapscript.Token
import Gapscript.Token.Scan
import Gapscript.Tree
import Gapscript.Tree.Parse
import Gapscript.Value
