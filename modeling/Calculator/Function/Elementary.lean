import Calculator.Function.Basic
import Calculator.Binary64.Hypotenuse

/-!
# Trigonometric, hyperbolic and exponential functions

Outside of its domain a function is a NaN, and at a pole an infinity, as for real limits.
-/

namespace Calculator.Elementary

open Binary64

/-- `log (1 + x)`, also for `x` near zero.  The sum is rounded, and the quotient by its distance
    from 1 takes the same error out again. -/
def logOnePlus (x : Float) : Float :=
  let sum := 1.0 + x
  if sum == 1.0 then x
  else if sum.isInf then sum.log
  else sum.log * (x / (sum - 1.0))

/-- `exp x - 1`, also for `x` near zero, as `tanh (x / 2) · (exp x + 1)`.  Below `2^(-54)` in
    magnitude the value nearest to it is `x`. -/
def expMinusOne (x : Float) : Float :=
  if x.abs < 5.551115123125783e-17 then x
  else (x / 2.0).tanh * (x.exp + 1.0)

/-- The inverse of the hyperbolic tangent. -/
def inverseTanh (x : Float) : Float := 0.5 * logOnePlus (2.0 * x / (1.0 - x))

/-- An angle in degrees. -/
def degrees (x : Float) : Float := x * 57.2957795130823208767981548141051703

/-- An angle in radians. -/
def radians (x : Float) : Float := x * (pi / 180.0)

/-- The Euclidean norm of any number of coordinates, 0 of none. -/
def norm (xs : List Float) : Float := xs.foldl hypotenuse 0.0

/-- `hypot(…)` -/
def hypotFunction : Function where
  name := "hypot"
  apply xs := .ok (.result xs (norm (xs.map Value.float)))

/-- The natural logarithm. -/
def logarithm (x : Value) : Value := .result [x] x.float.log

/-- `log(x)` is the natural logarithm, and `log(x, base)` that to a base. -/
def logFunction : Function where
  name := "log"
  apply
    | [x] => .ok (logarithm x)
    | [x, base] =>
      .ok (.result [logarithm x, logarithm base] (x.float.log / base.float.log))
    | args => Function.wrongCount "log" (.between 1 2) args

/-- The functions of angles and the hyperbolic functions. -/
def trigonometric : List Function :=
  [.ofReal "sin" Float.sin, .ofReal "cos" Float.cos, .ofReal "tan" Float.tan,
    .ofRealRestricted "asin" Float.asin, .ofRealRestricted "acos" Float.acos,
    .ofReal "atan" Float.atan, .ofReals "atan2" Float.atan2,
    .ofReal "sinh" Float.sinh, .ofReal "cosh" Float.cosh, .ofReal "tanh" Float.tanh,
    .ofReal "asinh" Float.asinh, .ofRealRestricted "acosh" Float.acosh, .ofReal "atanh" inverseTanh,
    .ofReal "degrees" degrees, .ofReal "radians" radians, hypotFunction]

/-- Powers, roots and logarithms. -/
def exponential : List Function :=
  [.ofReal "exp" Float.exp, .ofReal "exp2" Float.exp2, .ofReal "expm1" expMinusOne,
    logFunction, .ofReal "log2" Float.log2, .ofRealRestricted "log10" Float.log10,
    .ofReal "log1p" logOnePlus, .ofReals "pow" Float.pow,
    .ofReal "sqrt" Float.sqrt, .ofReal "cbrt" Float.cbrt]

end Calculator.Elementary
