import Tudlo.Binary64.Arithmetic
import Tudlo.Binary64.Basic
import Tudlo.Binary64.Rounding
import Tudlo.CommandLine
import Tudlo.Decimal.Display
import Tudlo.Decimal.Numeral
import Tudlo.Decimal.Shortest
import Tudlo.Diagnostic
import Tudlo.Environment
import Tudlo.Event
import Tudlo.Fault
import Tudlo.Grammar.Basic
import Tudlo.Grammar.Expression
import Tudlo.Grammar.Program
import Tudlo.Grammar.Statement
import Tudlo.Input
import Tudlo.Integer
import Tudlo.Machine.Basic
import Tudlo.Machine.Evaluation
import Tudlo.Machine.Execution
import Tudlo.Main
import Tudlo.Operator.Apply
import Tudlo.Operator.Basic
import Tudlo.Position
import Tudlo.Report
import Tudlo.ScalarType
import Tudlo.Syntax
import Tudlo.Text.Blank
import Tudlo.Token.Basic
import Tudlo.Token.Lexeme
import Tudlo.Token.LineIndex
import Tudlo.Token.Scan
import Tudlo.Value
import Tudlo.Proofs.Syntax
import Tudlo.Proofs.Grammar.Derivation
import Tudlo.Proofs.Grammar.Soundness.Expression
import Tudlo.Proofs.Grammar.Soundness.Statement
import Tudlo.Proofs.Grammar.Completeness.Expression
import Tudlo.Proofs.Grammar.Completeness.Statement
import Tudlo.Proofs.Grammar.Printing
import Tudlo.Proofs.Grammar.RoundTrip
import Tudlo.Proofs.Environment.Growth
import Tudlo.Proofs.Grammar.Checking
import Tudlo.Proofs.Machine.Induction
import Tudlo.Proofs.Machine.Limit
import Tudlo.Proofs.Machine.Scoping
import Tudlo.Proofs.Environment.Shape
import Tudlo.Proofs.Machine.Actions
import Tudlo.Proofs.Machine.Frames
import Tudlo.Proofs.Token.LineIndex
import Tudlo.Proofs.Token.Cutting
import Tudlo.Proofs.Token.Scanning
import Tudlo.Proofs.Token.Layout
import Tudlo.Proofs.Token.Recognition
import Tudlo.Proofs.Token.Separation
import Tudlo.Proofs.Token.Refusal
import Tudlo.Proofs.Grammar.Location
import Tudlo.Proofs.Machine.Blame
import Tudlo.Proofs.Grammar.Marks
import Tudlo.Proofs.Report.Location
import Tudlo.Proofs.Token.Faults
import Tudlo.Proofs.Coupling
import Tudlo.Proofs.Environment.Agreement
import Tudlo.Proofs.Machine.Indifference
import Tudlo.Proofs.Report.Order
import Tudlo.Proofs.Grammar.Walls
import Tudlo.Proofs.Grammar.Recovery
import Tudlo.Proofs.Machine.Layers
import Tudlo.Proofs.Machine.Closure
import Tudlo.Proofs.Machine.Demand
import Tudlo.Proofs.Machine.Visits
import Tudlo.Proofs.Machine.Brackets
import Tudlo.Proofs.Report.Effects
import Tudlo.Proofs.Environment.Matching
import Tudlo.Proofs.Environment.Renaming
import Tudlo.Proofs.Machine.Renaming
import Tudlo.Proofs.Input.Lines
import Tudlo.Proofs.Report.Input
import Tudlo.Proofs.Machine.Arithmetic
import Tudlo.Proofs.Environment.Slots
import Tudlo.Proofs.Machine.Joining
import Tudlo.Proofs.Machine.Receiving
import Tudlo.Proofs.Binary64.Magnitudes
import Tudlo.Proofs.Binary64.Values
import Tudlo.Proofs.Operator.Promotion
import Tudlo.Proofs.Text.Bytes
import Tudlo.Proofs.Operator.Ordering
import Tudlo.Proofs.Machine.Assignments
import Tudlo.Proofs.Grammar.Loops
import Tudlo.Proofs.Grammar.Parentheses
import Tudlo.Proofs.Grammar.Sequels
import Tudlo.Proofs.Grammar.Chains
import Tudlo.Proofs.Machine.Simulation
import Tudlo.Proofs.Machine.Chains
import Tudlo.Proofs.Machine.Counting
import Tudlo.Proofs.Decimal.Digits
import Tudlo.Proofs.Machine.ReadBack
import Tudlo.Proofs.Environment.Histories
import Tudlo.Proofs.Binary64.Nearest
import Tudlo.Proofs.Decimal.Reading
import Tudlo.Proofs.Decimal.Shortest
import Tudlo.Proofs.Decimal.Display
import Tudlo.Proofs.Decimal.Significant
import Tudlo.Proofs.Grammar.Limits
import Tudlo.Proofs.Grammar.Progress
import Tudlo.Proofs.Machine.Moments
import Tudlo.Proofs.Machine.ValueInvariants
