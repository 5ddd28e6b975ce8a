import ScriptSimplifier.Console.Session
import ScriptSimplifier.Edit
import ScriptSimplifier.Main
import ScriptSimplifier.Optimizer
import ScriptSimplifier.Proofs.Console.Lines
import ScriptSimplifier.Proofs.Edits
import ScriptSimplifier.Proofs.Meaning.Pieces
import ScriptSimplifier.Proofs.Meaning.Preservation
import ScriptSimplifier.Proofs.Meaning.Refinement
import ScriptSimplifier.Proofs.Meaning.Semantics
import ScriptSimplifier.Proofs.Meaning.Steps
import ScriptSimplifier.Proofs.Numeric.Numerals
import ScriptSimplifier.Proofs.Numeric.Rounding
import ScriptSimplifier.Proofs.Numeric.Shortest
import ScriptSimplifier.Proofs.Pass.Alteration
import ScriptSimplifier.Proofs.Pass.Coverage
import ScriptSimplifier.Proofs.Pass.FixedPoint
import ScriptSimplifier.Proofs.Pass.Innermost
import ScriptSimplifier.Proofs.Pass.OrderIndependence
import ScriptSimplifier.Proofs.Pass.Folding
import ScriptSimplifier.Proofs.Pass.Reoptimization
import ScriptSimplifier.Proofs.Pass.Rereading
import ScriptSimplifier.Proofs.Pass.Runs
import ScriptSimplifier.Proofs.Pass.Sessions
import ScriptSimplifier.Proofs.Pass.Termination
import ScriptSimplifier.Proofs.Pass.Unvisited
import ScriptSimplifier.Proofs.Pass.Validity
import ScriptSimplifier.Proofs.Places
import ScriptSimplifier.Proofs.Rule.Building
import ScriptSimplifier.Proofs.Rule.Effects
import ScriptSimplifier.Proofs.Rule.ListSteps
import ScriptSimplifier.Proofs.Rule.Locality
import ScriptSimplifier.Proofs.Rule.NormalForm
import ScriptSimplifier.Proofs.Rule.Normalization
import ScriptSimplifier.Proofs.Rule.Quiet
import ScriptSimplifier.Proofs.Rule.Fusion
import ScriptSimplifier.Proofs.Rule.Settled
import ScriptSimplifier.Proofs.Rule.Steps
import ScriptSimplifier.Proofs.SExpression.Reading
import ScriptSimplifier.Proofs.SExpression.RoundTrip
import ScriptSimplifier.Proofs.SExpression.Scanning
import ScriptSimplifier.Proofs.Store.Acyclic
import ScriptSimplifier.Proofs.Store.Census
import ScriptSimplifier.Proofs.Store.Constants
import ScriptSimplifier.Proofs.Store.Elements
import ScriptSimplifier.Proofs.Store.Fragments
import ScriptSimplifier.Proofs.Store.Growth
import ScriptSimplifier.Proofs.Store.Planting
import ScriptSimplifier.Proofs.Store.Typing
import ScriptSimplifier.Proofs.Syntax.WellFormed
import ScriptSimplifier.Proofs.Text.Quoting
import ScriptSimplifier.Rule.Catalog
import ScriptSimplifier.Rule.Scripted
import ScriptSimplifier.SExpression.Reader
import ScriptSimplifier.SExpression.Writer
import ScriptSimplifier.Syntax.Fingerprint
import ScriptSimplifier.Syntax.Listing
import ScriptSimplifier.Syntax.SourceDifference
import ScriptSimplifier.Syntax.Validity
import ScriptSimplifier.Value.Datum
import ScriptSimplifier.Value.Operator
import ScriptSimplifier.Walk
import ScriptSimplifier.Proofs.Pass.Attempts
import ScriptSimplifier.Proofs.Pass.SingleHolder
import ScriptSimplifier.Proofs.Rule.Additions
import ScriptSimplifier.Proofs.Pass.Truncation
import ScriptSimplifier.Proofs.Pass.Frozen
import ScriptSimplifier.Proofs.Pass.Scheduling
import ScriptSimplifier.Proofs.Rule.Handling
import ScriptSimplifier.Proofs.Pass.Worklist
import ScriptSimplifier.Proofs.SExpression.Gaps
import ScriptSimplifier.Proofs.Source.Alternates
import ScriptSimplifier.Proofs.Source.Grammar
import ScriptSimplifier.Proofs.Source.Lexing
import ScriptSimplifier.Proofs.Source.Parentheses
import ScriptSimplifier.Proofs.Source.Spelling
import ScriptSimplifier.Proofs.Source.Recovery
import ScriptSimplifier.Proofs.Source.Snapshots
import ScriptSimplifier.Proofs.Text.Codes
import ScriptSimplifier.Proofs.Syntax.Listing
import ScriptSimplifier.Proofs.Syntax.Outline
import ScriptSimplifier.Proofs.Pass.Change
import ScriptSimplifier.Proofs.Store.Evaluation
import ScriptSimplifier.Proofs.Store.Paths
import ScriptSimplifier.Proofs.Numeric.Texts
import ScriptSimplifier.Proofs.Removals
import ScriptSimplifier.Proofs.Pass.Freshness
import ScriptSimplifier.Proofs.Walk.Orders
import ScriptSimplifier.Proofs.Value.NumericLiterals
import ScriptSimplifier.Proofs.Value.StringOrder
import ScriptSimplifier.Proofs.Value.Words
import ScriptSimplifier.Proofs.Store.Accessors
import ScriptSimplifier.Proofs.Walk.Listing
import ScriptSimplifier.Proofs.Pass.Callees
import ScriptSimplifier.Proofs.Pass.Declarations
import ScriptSimplifier.Proofs.Rule.Ways
import ScriptSimplifier.Proofs.Store.Ways
import ScriptSimplifier.Proofs.Console.Settings
import ScriptSimplifier.Proofs.Pass.Positions
import ScriptSimplifier.Proofs.Rule.Joining
