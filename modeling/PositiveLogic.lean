import PositiveLogic.Clause.Combination
import PositiveLogic.Clause.Factoring
import PositiveLogic.Command.Arguments
import PositiveLogic.Command.Basic
import PositiveLogic.Command.Overview
import PositiveLogic.Command.Run
import PositiveLogic.Dialect.Basic
import PositiveLogic.Dialect.Json
import PositiveLogic.Evaluation
import PositiveLogic.Formula.Basic
import PositiveLogic.Formula.Clauses
import PositiveLogic.Formula.Parser
import PositiveLogic.Formula.Printer
import PositiveLogic.Json.Basic
import PositiveLogic.Json.Lexeme
import PositiveLogic.Json.Parser
import PositiveLogic.Main
import PositiveLogic.Reading
import PositiveLogic.Session.Basic
import PositiveLogic.Session.Operation
import PositiveLogic.Session.Query
import PositiveLogic.Text
import PositiveLogic.Token.Adjacency
import PositiveLogic.Token.Basic
import PositiveLogic.Token.Buffer
import PositiveLogic.Token.CallBody
import PositiveLogic.Token.Operator
import PositiveLogic.Token.Quoted
import PositiveLogic.Token.Scan
import PositiveLogic.Token.Spelling
import PositiveLogic.Proofs.Grammar
import PositiveLogic.Proofs.Parsing
import PositiveLogic.Proofs.Factoring
import PositiveLogic.Proofs.Buffers
import PositiveLogic.Proofs.Operators
import PositiveLogic.Proofs.Scanning
import PositiveLogic.Proofs.Literals
import PositiveLogic.Proofs.Calls
import PositiveLogic.Proofs.FirstLiteral
import PositiveLogic.Proofs.Printing
import PositiveLogic.Proofs.RoundTrip
import PositiveLogic.Proofs.Bounds
import PositiveLogic.Proofs.Translation
import PositiveLogic.Proofs.Rebuilding
import PositiveLogic.Proofs.FactoredForm
import PositiveLogic.Proofs.Feedback
import PositiveLogic.Proofs.Clashes
import PositiveLogic.Proofs.Composition
import PositiveLogic.Proofs.Verdicts
import PositiveLogic.Proofs.Injection
import PositiveLogic.Proofs.Origins
import PositiveLogic.Proofs.Identity
import PositiveLogic.Proofs.Irredundance
import PositiveLogic.Proofs.Questions
import PositiveLogic.Proofs.Faults
import PositiveLogic.Proofs.Surface
import PositiveLogic.Proofs.DepthLimit
import PositiveLogic.Proofs.EarliestError
import PositiveLogic.Proofs.FewestGroups
import PositiveLogic.Proofs.Monotonicity
import PositiveLogic.Proofs.LocalInjection
import PositiveLogic.Proofs.SharedLeaves
import PositiveLogic.Proofs.Substitution
import PositiveLogic.Proofs.Counting
import PositiveLogic.Proofs.Reaching
import PositiveLogic.Proofs.Marks
import PositiveLogic.Proofs.Parameters
import PositiveLogic.Proofs.EscapedParameters
import PositiveLogic.Proofs.DanglingEscapes
import PositiveLogic.Proofs.Cursors
import PositiveLogic.Proofs.Inquiries
import PositiveLogic.Proofs.FirstFailure
import PositiveLogic.Proofs.NeededQuestions
import PositiveLogic.Proofs.Alternatives
import PositiveLogic.Proofs.NormalShape
import PositiveLogic.Proofs.Choices
import PositiveLogic.Proofs.Distribution
import PositiveLogic.Proofs.Descent
import PositiveLogic.Proofs.ByteSlices
import PositiveLogic.Proofs.EscapedSpans
