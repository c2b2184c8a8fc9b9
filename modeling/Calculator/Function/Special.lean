import Calculator.Function.Basic
import Calculator.Binary64.Whole

/-!
# The gamma and error functions

Gamma and its logarithm are computed by a Lanczos approximation from 0.5 upwards, and below by
reflection at 0.5.  The error function is a power series below 2, where all terms have one sign,
and a continued fraction for its complement from 2 upwards.
-/

namespace Calculator.Special

open Binary64

/-! ## Gamma -/

/-- The offset of the Lanczos approximation. -/
def lanczosOffset : Float := 7.0

/-- The constant of the Lanczos sum. -/
def lanczosConstant : Float := 0.9999999999998099

/-- The coefficients of the fractions of the Lanczos sum. -/
def lanczosCoefficients : List Float :=
  [676.5203681218851, -1259.1392167224028, 771.3234287776531, -176.6150291621406,
    12.507343278686905, -0.13857109526572012, 9.984369578019572e-6, 1.5056327351493116e-7]

/-- The Lanczos sum `c₀ + c₁ / (z + 1) + c₂ / (z + 2) + …`. -/
def lanczosSum (z : Float) : Float :=
  (lanczosCoefficients.zipIdx 1).foldl (fun sum (c, i) => sum + c / (z + Float.ofNat i))
    lanczosConstant

/-- Whether a value is 0, -1, -2, … -/
def isPole (x : Float) : Bool := x ≤ 0.0 && isIntegral x

/-- `(x - 1)!` for an integral `x`. -/
def smallFactorial (x : Float) : Float :=
  (List.range' 2 (wholePart x - 2)).foldl (fun product k => product * Float.ofNat k) 1.0

/-- Gamma for arguments from 0.5 to its overflow.  The power is taken in two halves, because it
    would overflow by itself before the exponential makes it smaller. -/
def lanczosGamma (x : Float) : Float :=
  let z := x - 1.0
  let t := z + lanczosOffset + 0.5
  let halfPower := t.pow (0.5 * (z + 0.5))
  (2.0 * pi).sqrt * halfPower * (-t).exp * halfPower * lanczosSum z

/-- The equation of gamma, with `self` standing for gamma on the other side of 0.5. -/
def gammaEquation (self : Float → Float) (x : Float) : Float :=
  if x.isNaN || x == -infinity then nan
  else if x == 0.0 then copySign infinity x
  else if isPole x then nan
  else if 171.7 < x then infinity
  else if isIntegral x && x ≤ 23.0 then smallFactorial x
  else if x < 0.5 then pi / ((pi * x).sin * self (1.0 - x))
  else lanczosGamma x

/-- Gamma.  Reflecting at 0.5 leads to at least 0.5, so once is enough. -/
def gamma : Float → Float := gammaEquation (gammaEquation fun _ => nan)

/-- The logarithm of gamma for arguments from 0.5 upwards. -/
def lanczosLogGamma (x : Float) : Float :=
  let z := x - 1.0
  let t := z + lanczosOffset + 0.5
  0.5 * (2.0 * pi).log + (z + 0.5) * t.log - t + (lanczosSum z).log

/-- The equation of the logarithm of the magnitude of gamma, with `self` standing for that
    logarithm on the other side of 0.5. -/
def logGammaEquation (self : Float → Float) (x : Float) : Float :=
  if x.isNaN then nan
  else if x.isInf || isPole x then infinity
  else if x == 1.0 || x == 2.0 then 0.0
  else if x < 0.5 then (pi / (pi * x).sin.abs).log - self (1.0 - x)
  else lanczosLogGamma x

/-- The logarithm of the magnitude of gamma. -/
def logGamma : Float → Float := logGammaEquation (logGammaEquation fun _ => nan)

/-! ## The error function -/

/-- Adds up the power series from its `n`-th term on, until a term is too small to matter or there
    are no steps left. -/
def erfSum (square : Float) : (steps : Nat) → (n : Nat) → (term sum : Float) → Float
  | 0, _, _, sum => sum
  | steps + 1, n, term, sum =>
    let term := term * (2.0 * square / Float.ofNat (2 * n + 1))
    let sum := sum + term
    if term.abs ≤ sum.abs * epsilon then sum else erfSum square steps (n + 1) term sum

/-- `erf x = 2/√π · exp(-x²) · Σ 2ⁿ x^(2n+1) / (1·3·…·(2n+1))`, with at most 500 terms. -/
def erfSeries (x : Float) : Float :=
  let square := x * x
  2.0 / pi.sqrt * (-square).exp * erfSum square 499 1 x x

/-- The tail of the continued fraction behind its `k`-th level. -/
def erfcTail (x : Float) : (k : Nat) → (tail : Float) → Float
  | 0, tail => tail
  | k + 1, tail => erfcTail x k (x + Float.ofNat (k + 1) / 2.0 / tail)

/-- The complement of the error function as a continued fraction of 120 levels, evaluated from its
    innermost level outwards. -/
def erfcFraction (x : Float) : Float :=
  (-x * x).exp / (pi.sqrt * erfcTail x 120 x)

/-- The error function. -/
def erf (x : Float) : Float :=
  if x.isNaN then nan
  else if x.abs < 2.0 then erfSeries x
  else copySign (1.0 - erfcFraction x.abs) x

/-- The complement of the error function. -/
def erfc (x : Float) : Float :=
  if x.isNaN then nan
  else if x < 2.0 then 1.0 - erf x
  else erfcFraction x

/-- The special functions. -/
def functions : List Function :=
  [.ofRealUnsigned "gamma" gamma, .ofRealUnsigned "lgamma" logGamma, .ofRealUnsigned "erf" erf,
    .ofRealUnsigned "erfc" erfc]

end Calculator.Special
