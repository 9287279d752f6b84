import JsonSieve.Main
import JsonSieve.Expression.Wire
import JsonSieve.Proofs.Evaluation.Verdict
import JsonSieve.Proofs.Evaluation.Meaning
import JsonSieve.Proofs.Expression.Grammar
import JsonSieve.Proofs.Token.Grammar
import JsonSieve.Proofs.Token.ViablePrefix
import JsonSieve.Proofs.Json.Numeral
import JsonSieve.Proofs.Text.Utf8
import JsonSieve.Proofs.Text.Spans
import JsonSieve.Proofs.Json.RoundTrip
import JsonSieve.Proofs.Expression.RoundTrip
import JsonSieve.Proofs.Token.Progress
import JsonSieve.Proofs.Token.Rendering
import JsonSieve.Proofs.Token.Locality
import JsonSieve.Proofs.Evaluation.Frame
import JsonSieve.Proofs.Evaluation.Levels
import JsonSieve.Proofs.Sieve.Outcome
import JsonSieve.Proofs.Sieve.Session
import JsonSieve.Proofs.Sieve.Conjunction
import JsonSieve.Proofs.Evaluation.Limits
import JsonSieve.Proofs.Binary64.Rounding
import JsonSieve.Proofs.Binary64.Value
import JsonSieve.Proofs.Scalar.Numbers
import JsonSieve.Proofs.Evaluation.Integers
import JsonSieve.Proofs.Decimal.Shortest
import JsonSieve.Proofs.Binary64.Arithmetic
import JsonSieve.Proofs.Json.Extent
import JsonSieve.Proofs.Json.SingleLine
import JsonSieve.Proofs.Json.Float
import JsonSieve.Proofs.Expression.Printing
import JsonSieve.Proofs.Json.Numbers
import JsonSieve.Proofs.Expression.Stability
import JsonSieve.Proofs.Expression.Padding
import JsonSieve.Proofs.Evaluation.Agreement
import JsonSieve.Proofs.Expression.Scope
import JsonSieve.Proofs.Path.Step
import JsonSieve.Proofs.Path.Following
import JsonSieve.Proofs.Path.Spelling
import JsonSieve.Proofs.Path.Addressing
import JsonSieve.Proofs.Path.Offsets
import JsonSieve.Proofs.Evaluation.Unrolling
import JsonSieve.Proofs.Evaluation.Renumbering
import JsonSieve.Proofs.Evaluation.NamedFields
import JsonSieve.Proofs.Json.Octets
import JsonSieve.Proofs.Json.Tokens
import JsonSieve.Proofs.Documents.Selection
import JsonSieve.Proofs.CommandLine.Sieving
import JsonSieve.Proofs.CommandLine.Operands
import JsonSieve.Proofs.CommandLine.FilterPlaces
import JsonSieve.Proofs.CommandLine.SetupErrors
import JsonSieve.Proofs.CommandLine.Places
import JsonSieve.Proofs.CommandLine.ManualPages
import JsonSieve.Proofs.Scalar.Order
import JsonSieve.Proofs.Evaluation.Numbers
import JsonSieve.Proofs.Evaluation.Negation
import JsonSieve.Proofs.Evaluation.Sharing
import JsonSieve.Proofs.Json.Assembly
import JsonSieve.Proofs.Text.Lossy
import JsonSieve.Proofs.Text.Sequences
import JsonSieve.Proofs.Token.Octets
import JsonSieve.Proofs.Token.Placement
import JsonSieve.Proofs.Token.Records
import JsonSieve.Proofs.Token.ListedLines
import JsonSieve.Proofs.Token.Colour
import JsonSieve.Proofs.Evaluation.OperandSources
