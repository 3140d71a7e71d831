import Reckoner.Canonical.Fractions
import Reckoner.Canonical.Macros
import Reckoner.Canonical.Normalize
import Reckoner.Canonical.Products
import Reckoner.CommandLine
import Reckoner.Equation.Roots
import Reckoner.Equation.Solve
import Reckoner.Expr.Basic
import Reckoner.Expr.Derivative
import Reckoner.Expr.Evaluate
import Reckoner.Expr.Expand
import Reckoner.Expr.Fraction
import Reckoner.Expr.Latex
import Reckoner.Expr.Monomial
import Reckoner.Expr.Simplify
import Reckoner.Expr.Written
import Reckoner.Judge.Compare
import Reckoner.Judge.Formula
import Reckoner.Judge.Functions
import Reckoner.Main
import Reckoner.Notation.Brackets
import Reckoner.Notation.Operators
import Reckoner.Notation.Parser
import Reckoner.Notation.Shape
import Reckoner.Number.Arithmetic
import Reckoner.Number.Binary64
import Reckoner.Number.Decimal
import Reckoner.Number.Format
import Reckoner.Number.Literal
import Reckoner.Number.Reading
import Reckoner.Proofs.AbsoluteValue
import Reckoner.Proofs.Additive
import Reckoner.Proofs.AnswerEquivalence
import Reckoner.Proofs.AnswerNumbers
import Reckoner.Proofs.ArgumentBrackets
import Reckoner.Proofs.Bags
import Reckoner.Proofs.BalancedParts
import Reckoner.Proofs.BinaryOrder
import Reckoner.Proofs.BracedExponent
import Reckoner.Proofs.BracketPairs
import Reckoner.Proofs.Characters
import Reckoner.Proofs.Collecting
import Reckoner.Proofs.ConstantDerivative
import Reckoner.Proofs.DecimalRounding
import Reckoner.Proofs.Degree
import Reckoner.Proofs.DerivativeNotations
import Reckoner.Proofs.Dual
import Reckoner.Proofs.Exact
import Reckoner.Proofs.ExpandValue
import Reckoner.Proofs.ExtendedReals
import Reckoner.Proofs.Families
import Reckoner.Proofs.FixedPlaces
import Reckoner.Proofs.FormattedOrder
import Reckoner.Proofs.FractionOperands
import Reckoner.Proofs.FusedNames
import Reckoner.Proofs.Gathering
import Reckoner.Proofs.Grammar
import Reckoner.Proofs.Idempotence
import Reckoner.Proofs.Identifiers
import Reckoner.Proofs.ImpliedProducts
import Reckoner.Proofs.ImpliedReading
import Reckoner.Proofs.InPlace
import Reckoner.Proofs.IndeterminateForms
import Reckoner.Proofs.LatexReading
import Reckoner.Proofs.LatexTerms
import Reckoner.Proofs.LikeTerms
import Reckoner.Proofs.MacroTexts
import Reckoner.Proofs.Markup
import Reckoner.Proofs.Meaning
import Reckoner.Proofs.Monomials
import Reckoner.Proofs.MultipliedOut
import Reckoner.Proofs.NearestBinary
import Reckoner.Proofs.NestedBars
import Reckoner.Proofs.NormalForms
import Reckoner.Proofs.Normalization
import Reckoner.Proofs.Occurrence
import Reckoner.Proofs.Operands
import Reckoner.Proofs.OrderedSums
import Reckoner.Proofs.Packing
import Reckoner.Proofs.PlainInput
import Reckoner.Proofs.Polynomial
import Reckoner.Proofs.PolynomialIdentity
import Reckoner.Proofs.Powers
import Reckoner.Proofs.Precedence
import Reckoner.Proofs.PrintedReals
import Reckoner.Proofs.RankedRules
import Reckoner.Proofs.RankedTerms
import Reckoner.Proofs.Ranks
import Reckoner.Proofs.Ratio
import Reckoner.Proofs.Reach
import Reckoner.Proofs.RealRoots
import Reckoner.Proofs.Rebuilding
import Reckoner.Proofs.Recursion
import Reckoner.Proofs.RequestTexts
import Reckoner.Proofs.RoundTrip
import Reckoner.Proofs.RoundedTexts
import Reckoner.Proofs.Rounding
import Reckoner.Proofs.Rules
import Reckoner.Proofs.Scanning
import Reckoner.Proofs.Settled
import Reckoner.Proofs.ShortestText
import Reckoner.Proofs.ShownNumbers
import Reckoner.Proofs.SimplifyValue
import Reckoner.Proofs.SingleFraction
import Reckoner.Proofs.SpecialValues
import Reckoner.Proofs.Symbols
import Reckoner.Proofs.Taylor
import Reckoner.Proofs.Termination
import Reckoner.Proofs.Terms
import Reckoner.Proofs.Unbounded
import Reckoner.Proofs.UniqueText
import Reckoner.Proofs.Weights
import Reckoner.Proofs.WrittenSigns
import Reckoner.Proofs.ZeroForm
import Reckoner.Request.Basic
import Reckoner.Request.Classify
import Reckoner.Request.Limit
import Reckoner.Request.Run
import Reckoner.Settings
import Reckoner.Text.Blank
import Reckoner.Text.Letter
import Reckoner.Text.Lowercase
import Reckoner.Text.Quoted
import Reckoner.Text.Ranges
import Reckoner.Text.Scan
import Reckoner.Toml.Document
import Reckoner.Toml.Quoted
import Reckoner.Toml.Scalar
import Reckoner.Toml.Table
