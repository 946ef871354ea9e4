import IntScript.Cli.Folder
import IntScript.Grammar.Laws
import IntScript.Main
import IntScript.Proofs.Grammar.Derivation
import IntScript.Proofs.Grammar.Words
import IntScript.Proofs.Text.Decimal
import IntScript.Proofs.Tree.Shape
import IntScript.Proofs.Grammar.Fragments
import IntScript.Proofs.Parse.Arena
import IntScript.Proofs.Parse.Shape
import IntScript.Proofs.Tree.Nodes
import IntScript.Proofs.Tree.Identity
import IntScript.Proofs.Tree.Numbering
import IntScript.Proofs.Resolve.Slots
import IntScript.Proofs.Eval.Reference
import IntScript.Proofs.Eval.Laws
import IntScript.Proofs.Eval.Refinement
import IntScript.Proofs.Eval.Statements
import IntScript.Proofs.Program
import IntScript.Proofs.Grammar.Spacing
import IntScript.Proofs.Grammar.Taking
import IntScript.Proofs.Tree.Tokens
import IntScript.Proofs.Parse.Printed
import IntScript.Proofs.Parse.RoundTrip
import IntScript.Proofs.Eval.Steps
import IntScript.Proofs.Eval.Coupling
import IntScript.Proofs.Resolve.FirstSeen
import IntScript.Proofs.Eval.Limits
import IntScript.Proofs.LaterInput
import IntScript.Proofs.Parse.Offences
import IntScript.Proofs.Parse.Strata
import IntScript.Proofs.Eval.Keeping
import IntScript.Proofs.Resolve.Coverage
import IntScript.Proofs.Grammar.Cuts
import IntScript.Proofs.Grammar.Tries
import IntScript.Proofs.Grammar.Completing
import IntScript.Proofs.Parse.Located
import IntScript.Proofs.Grammar.Places
import IntScript.Proofs.Parse.Spans
import IntScript.Proofs.Diagnostics
import IntScript.Proofs.Report.Lines
import IntScript.Proofs.Report.Header
import IntScript.Proofs.Grammar.Layout
import IntScript.Proofs.Parse.Nesting
import IntScript.Proofs.Parse.Earliest
import IntScript.Proofs.InputStream
import IntScript.Proofs.Tree.Visits
import IntScript.Proofs.Resolve.Tables
import IntScript.Proofs.Resolve.History
import IntScript.Proofs.Tree.Orders
import IntScript.Proofs.Resolve.Blocks
import IntScript.Proofs.Eval.Frame
import IntScript.Proofs.Eval.Evaluator
import IntScript.Proofs.Eval.Conduct
import IntScript.Proofs.Eval.Iterations
import IntScript.Proofs.Eval.Depth
import IntScript.Proofs.Tree.Drawing
import IntScript.Proofs.Tree.Graph
import IntScript.Proofs.Eval.Course
import IntScript.Proofs.Eval.Log
import IntScript.Proofs.Eval.Rules
import IntScript.Proofs.ProgramLog
import IntScript.Proofs.FullOutput
import IntScript.Proofs.Blame
import IntScript.Proofs.OutputNumbers
import IntScript.Proofs.Arithmetic
import IntScript.Proofs.Eval.Values
import IntScript.Proofs.Text.Codes
import IntScript.Proofs.Tree.Structure
import IntScript.Proofs.Tree.Reading
import IntScript.Proofs.Parse.Structure
import IntScript.Proofs.Tree.Captions
import IntScript.Proofs.Tree.Recovery
import IntScript.Proofs.Grammar.WordRules
import IntScript.Proofs.LineColumn
import IntScript.Proofs.Grammar.Entries
import IntScript.Proofs.Parse.Expected
