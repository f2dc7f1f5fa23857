import SignChart.Chart.Basic
import SignChart.Chart.Layout
import SignChart.Chart.Row
import SignChart.Domain
import SignChart.Expr.Evaluator
import SignChart.Expr.Library
import SignChart.Expr.Machine
import SignChart.Expr.Operator
import SignChart.Expr.Postfix
import SignChart.Expr.Program
import SignChart.Expr.Token
import SignChart.Factorization
import SignChart.Input.Canonical
import SignChart.Input.Latex
import SignChart.Input.Normal
import SignChart.Input.Plain
import SignChart.Main
import SignChart.Number.Binary64
import SignChart.Number.Reading
import SignChart.Number.Scalar
import SignChart.Number.Shortest
import SignChart.Point
import SignChart.Report
import SignChart.Session
import SignChart.Text.Basic
import SignChart.Text.Blank
import SignChart.Text.Group
import SignChart.Text.LowerCase
import SignChart.ZeroSearch
import SignChart.Proofs.Chart.Alphabet
import SignChart.Proofs.Chart.Columns
import SignChart.Proofs.Chart.Crossing
import SignChart.Proofs.Chart.Multiplicity
import SignChart.Proofs.Chart.Shape
import SignChart.Proofs.Chart.SharedRows
import SignChart.Proofs.Chart.Vanishing
import SignChart.Proofs.Domain.Cases
import SignChart.Proofs.Domain.Resolution
import SignChart.Proofs.Domain.Threading
import SignChart.Proofs.Expr.Acceptance
import SignChart.Proofs.Expr.Commas
import SignChart.Proofs.Expr.Enclosure
import SignChart.Proofs.Expr.Grammar
import SignChart.Proofs.Expr.Independence
import SignChart.Proofs.Expr.Lexing
import SignChart.Proofs.Expr.Parentheses
import SignChart.Proofs.Expr.Spans
import SignChart.Proofs.Expr.Spelling
import SignChart.Proofs.Factorization.Powers
import SignChart.Proofs.Factorization.Splitting
import SignChart.Proofs.Input.NormalForm
import SignChart.Proofs.Input.Plainness
import SignChart.Proofs.Input.Composition
import SignChart.Proofs.Input.Conversion
import SignChart.Proofs.Input.Fraction
import SignChart.Proofs.Input.Exponent
import SignChart.Proofs.Input.CanonicalForm
import SignChart.Proofs.Input.Spacing
import SignChart.Proofs.Number.Bits
import SignChart.Proofs.Number.HalfEven
import SignChart.Proofs.Number.Magnitude
import SignChart.Proofs.Number.Negation
import SignChart.Proofs.Number.Rounding
import SignChart.Proofs.Number.Value
import SignChart.Proofs.Point.Gathering
import SignChart.Proofs.Point.Keys
import SignChart.Proofs.Point.Merging
import SignChart.Proofs.Point.Millionths
import SignChart.Proofs.Session.Coherence
import SignChart.Proofs.Session.Quitting
import SignChart.Proofs.Text.Cutting
import SignChart.Proofs.Text.Matching
import SignChart.Proofs.ZeroSearch.Detection
import SignChart.Proofs.ZeroSearch.Halving
import SignChart.Proofs.ZeroSearch.Negation
import SignChart.Proofs.ZeroSearch.Stationary
import SignChart.Proofs.ZeroSearch.Touching
