import FunctionCalculator.Symbol
import FunctionCalculator.Text.Blank
import FunctionCalculator.Text.Sign
import FunctionCalculator.Lexeme.State
import FunctionCalculator.SyntaxError
import FunctionCalculator.Lexeme.Basic
import FunctionCalculator.Lexeme.Transition
import FunctionCalculator.Lexeme.Scan
import FunctionCalculator.Token
import FunctionCalculator.Postorder
import FunctionCalculator.Decimal.Binary
import FunctionCalculator.Decimal.Fixed
import FunctionCalculator.Decimal.Shortest
import FunctionCalculator.Decimal.Literal
import FunctionCalculator.Function.Elementary
import FunctionCalculator.Function.Registry
import FunctionCalculator.Program
import FunctionCalculator.Expression
import FunctionCalculator.Solver.Scalar
import FunctionCalculator.Solver.Secant
import FunctionCalculator.Solver.Simpson
import FunctionCalculator.Report
import FunctionCalculator.Task
import FunctionCalculator.Session.Basic
import FunctionCalculator.Session.Window
import FunctionCalculator.Journal
import FunctionCalculator.Proofs.FloatSign
import FunctionCalculator.Proofs.Tree
import FunctionCalculator.Proofs.Grouping
import FunctionCalculator.Proofs.Phrase
import FunctionCalculator.Proofs.View
import FunctionCalculator.Proofs.Recognition
import FunctionCalculator.Proofs.PhraseTokens
import FunctionCalculator.Proofs.Language
import FunctionCalculator.Proofs.Meaning
import FunctionCalculator.Proofs.Completion
import FunctionCalculator.Proofs.Refusal
import FunctionCalculator.Proofs.Placeless
import FunctionCalculator.Proofs.NegatedGroup
import FunctionCalculator.Proofs.Rereading
import FunctionCalculator.Proofs.Constant
import FunctionCalculator.Proofs.Forest
import FunctionCalculator.Proofs.Conservation
import FunctionCalculator.Proofs.Noninterference
import FunctionCalculator.Proofs.Substitution
import FunctionCalculator.Proofs.Reciprocal
import FunctionCalculator.Proofs.Provenance
import FunctionCalculator.Proofs.NamePosition
import FunctionCalculator.Proofs.Layout
import FunctionCalculator.Proofs.Accounting
import FunctionCalculator.Proofs.Freshness
import FunctionCalculator.Proofs.Panels
import FunctionCalculator.Proofs.Quadrature
import FunctionCalculator.Proofs.Worker
import FunctionCalculator.Proofs.Crew
import FunctionCalculator.Proofs.Delivery
import FunctionCalculator.Proofs.Projections
import FunctionCalculator.Proofs.DisplayedRoot
import FunctionCalculator.Proofs.ExactScalar
import FunctionCalculator.Proofs.ExactIntegral
import FunctionCalculator.Proofs.ExactRoot
import FunctionCalculator.Proofs.Kinds
import FunctionCalculator.Proofs.SignPairs
import FunctionCalculator.Proofs.Changes
import FunctionCalculator.Proofs.Consistency
import FunctionCalculator.Proofs.Caret
import FunctionCalculator.Proofs.EnterKey
import FunctionCalculator.Proofs.Reached
