import Calculator.Function.Basic
import Calculator.Binary64.Whole
import Calculator.Binary64.Remainder
import Calculator.Binary64.Neighbor
import Calculator.Binary64.Scale

/-!
# Rounding, remainders and the representation of values
-/

namespace Calculator.Rounding

open Binary64

/-- `ldexp(x, i)` is `x · 2^i`, for an integral `i`. -/
def ldexpFunction : Function where
  name := "ldexp"
  apply
    | [x, i] => do
      let k ← Function.integer "ldexp" i.float
      return .result [x] (scale x.float k)
    | args => Function.wrongCount "ldexp" (.exactly 2) args

/-- The functions that round or take values apart. -/
def functions : List Function :=
  [.ofReal "ceil" ceil, .ofReal "floor" floor, .ofReal "trunc" trunc,
    .ofValue "fabs" Value.abs, .ofValues "copysign" Value.copySign,
    .ofReals "fmod" fmod, .ofRealsUnsigned "remainder" remainder, ldexpFunction,
    .ofRealsUnsigned "nextafter" stepToward, .ofRealUnsigned "ulp" ulp]

end Calculator.Rounding
