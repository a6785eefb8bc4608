import LinearAssignment.Batch
import LinearAssignment.Cost.Exact
import LinearAssignment.Enumeration
import LinearAssignment.Json.Forms
import LinearAssignment.Proofs.Cost
import LinearAssignment.Proofs.Matching
import LinearAssignment.Proofs.Search.Round
import LinearAssignment.Proofs.Augmentation
import LinearAssignment.Proofs.RowReduction
import LinearAssignment.Proofs.Extraction
import LinearAssignment.Proofs.SquareSolution
import LinearAssignment.Proofs.Assignment
import LinearAssignment.Proofs.Solve
import LinearAssignment.Proofs.Cost.Exact
import LinearAssignment.Proofs.Search.Shortest
import LinearAssignment.Proofs.Potentials
import LinearAssignment.Proofs.Optimality
import LinearAssignment.Proofs.Pairing
import LinearAssignment.Proofs.SquareProblem
import LinearAssignment.Proofs.Retention
import LinearAssignment.Proofs.Rectangular
import LinearAssignment.Proofs.Certificate
import LinearAssignment.Proofs.Capacity
import LinearAssignment.Proofs.Workspace
import LinearAssignment.Proofs.History
import LinearAssignment.Proofs.Batch
import LinearAssignment.Proofs.Verification
import LinearAssignment.Proofs.Refusal
import LinearAssignment.Proofs.Lifecycle
import LinearAssignment.Proofs.Cost.Rounding
import LinearAssignment.Proofs.Cost.Unpacked
import LinearAssignment.Proofs.Cost.Binary64
import LinearAssignment.Proofs.PostFilter
import LinearAssignment.Proofs.Checked.Search
import LinearAssignment.Proofs.Checked.Solve
import LinearAssignment.Proofs.Search.Bounded
import LinearAssignment.Proofs.Range
import LinearAssignment.Proofs.Feasibility
import LinearAssignment.Proofs.Association
import LinearAssignment.Proofs.Buffers
import LinearAssignment.Proofs.RunInvariant
import LinearAssignment.Proofs.RisingLimit
import LinearAssignment.Proofs.Accounts
import LinearAssignment.Proofs.Search.Parallel
import LinearAssignment.Proofs.Parallel
import LinearAssignment.Proofs.Rescaling
import LinearAssignment.Proofs.RescaledMatrix
import LinearAssignment.Proofs.Magnitude
import LinearAssignment.Proofs.WholeCosts
import LinearAssignment.Proofs.Sentinel
import LinearAssignment.Proofs.Enumeration
import LinearAssignment.Proofs.Reports
import LinearAssignment.Proofs.ConstantRows
import LinearAssignment.Proofs.Parameters
import LinearAssignment.Proofs.Cost.Nearest
import LinearAssignment.Proofs.Decimal.Magnitude
import LinearAssignment.Proofs.Decimal.Shortest
import LinearAssignment.Proofs.Decimal.Spelling
import LinearAssignment.Proofs.Decimal.Text
import LinearAssignment.Proofs.ParameterTexts
import LinearAssignment.Proofs.Json.Fields
import LinearAssignment.Proofs.Json.Grammar
import LinearAssignment.Proofs.Json.Library
import LinearAssignment.Proofs.Json.Lexeme
import LinearAssignment.Proofs.Json.Layout
import LinearAssignment.Proofs.Json.Skip
import LinearAssignment.Proofs.Json.Text
import LinearAssignment.Proofs.Json.Reader
import LinearAssignment.Proofs.Json.Shape
import LinearAssignment.Proofs.OptionsForm
import LinearAssignment.Proofs.Overflow
import LinearAssignment.Proofs.AssignmentForm
import LinearAssignment.Proofs.NestedRows
import LinearAssignment.Proofs.Search.Alternating
import LinearAssignment.Proofs.Search.Order
import LinearAssignment.Proofs.Growth
import LinearAssignment.Proofs.Checked.Squares
import LinearAssignment.Proofs.GreedyStart
