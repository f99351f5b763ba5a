import StackLang.Main
import StackLang.Proofs.Simulation.Basic
import StackLang.Proofs.Simulation.Operators
import StackLang.Proofs.Operator.Resolution
import StackLang.Proofs.Simulation.Exact
import StackLang.Proofs.Machine.Invocation
import StackLang.Proofs.Simulation.Callers
import StackLang.Proofs.Simulation.Depth
import StackLang.Proofs.Simulation.Invariant
import StackLang.Proofs.Evaluation.Calls
import StackLang.Proofs.Evaluation.Protection
import StackLang.Proofs.Machine.History
import StackLang.Proofs.Evaluation.Bindings
import StackLang.Proofs.Evaluation.Independence
import StackLang.Proofs.Evaluation.Sequencing
import StackLang.Proofs.Evaluation.Inlining
import StackLang.Proofs.Evaluation.Limits
import StackLang.Proofs.Evaluation.Safety
import StackLang.Proofs.Evaluation.Strings
import StackLang.Proofs.Decimal.Float
import StackLang.Proofs.Decimal.Rounding
import StackLang.Proofs.Decimal.Layout
import StackLang.Proofs.Token.Longest
import StackLang.Proofs.Token.Language
import StackLang.Proofs.Token.Shape
import StackLang.Proofs.Token.Selection
import StackLang.Proofs.Token.Tiling
import StackLang.Proofs.Token.Lexeme
import StackLang.Proofs.Program.WellFormed
import StackLang.Proofs.Program.RoundTrip
import StackLang.Proofs.Program.Grammar
import StackLang.Proofs.Program.Violation
import StackLang.Proofs.Token.Joining
import StackLang.Proofs.Program.Positions
import StackLang.Proofs.Program.Joining
import StackLang.Proofs.Program.Completion
import StackLang.Proofs.Token.Slicing
import StackLang.Proofs.Token.Trimming
import StackLang.Proofs.Program.Spans
import StackLang.Proofs.Program.Escapes
import StackLang.Proofs.Value.Source
import StackLang.Proofs.Value.Order
import StackLang.Proofs.Evaluation.Inspection
import StackLang.Proofs.Value.Recast
import StackLang.Proofs.Operator.Recast
import StackLang.Proofs.Value.Positions
import StackLang.Proofs.Value.Equality
import StackLang.Proofs.Machine.Positions
import StackLang.Proofs.Simulation.Positions
import StackLang.Proofs.Evaluation.Continuation
import StackLang.Proofs.Session.Splitting
import StackLang.Proofs.Evaluation.Positions
import StackLang.Proofs.Evaluation.Origins
import StackLang.Proofs.Evaluation.Relocation
import StackLang.Proofs.Operator.Precedence
import StackLang.Proofs.Session.Lines
import StackLang.Proofs.Token.Spacing
import StackLang.Proofs.Program.Spacing
import StackLang.Proofs.Session.Typing
import StackLang.Proofs.Operator.Sets
import StackLang.Proofs.Evaluation.Iteration
import StackLang.Proofs.Renumbering.Basic
import StackLang.Proofs.Renumbering.Run
import StackLang.Proofs.Renumbering.Settled
import StackLang.Proofs.Evaluation.Looping
import StackLang.Proofs.Evaluation.Mapping
import StackLang.Proofs.Operator.Power
import StackLang.Proofs.Operator.Repetition
import StackLang.Proofs.Scope.Chain
import StackLang.Proofs.Evaluation.Assignment
import StackLang.Proofs.Operator.Division
import StackLang.Proofs.Text.Repair
import StackLang.Proofs.Value.Elements
