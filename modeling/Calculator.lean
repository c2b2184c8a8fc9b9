import Calculator.Main
import Calculator.Proofs.Evaluation.ClosedWorld
import Calculator.Proofs.Evaluation.Walk
import Calculator.Proofs.Evaluation.Unread
import Calculator.Proofs.Grammar.Rendering
import Calculator.Proofs.Grammar.Derivation
import Calculator.Proofs.Grammar.Malformed
import Calculator.Proofs.Grammar.Occurrences
import Calculator.Proofs.Grammar.Composition
import Calculator.Proofs.Grammar.Spacing
import Calculator.Proofs.Grammar.Viability
import Calculator.Proofs.CommandLine.ReadBack
import Calculator.Proofs.Checked.Whitelist
import Calculator.Proofs.Binary64.Closest
import Calculator.Proofs.Counting.Divisors
import Calculator.Proofs.Binary64.Sum
import Calculator.Proofs.Decimal.Radix
import Calculator.Proofs.Grammar.Matching
import Calculator.Proofs.Grammar.Subscripts
import Calculator.Proofs.Grammar.Comprehensions
import Calculator.Proofs.Grammar.Displays
import Calculator.Proofs.Grammar.Quoting
import Calculator.Proofs.Grammar.Names
import Calculator.Proofs.Decimal.Magnitudes
import Calculator.Proofs.Grammar.Failures
import Calculator.Proofs.Binary64.Bounds
import Calculator.Proofs.Counting.Products
import Calculator.Proofs.Counting.Selections
import Calculator.Proofs.Counting.Roots
import Calculator.Proofs.Binary64.Scaling
import Calculator.Proofs.Binary64.Remainder
import Calculator.Proofs.Binary64.Gap
import Calculator.Proofs.Elementary.Norm
import Calculator.Proofs.Special.ErrorFunction
import Calculator.Proofs.Special.Gamma
