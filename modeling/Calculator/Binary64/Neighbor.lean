import Calculator.Binary64.Basic

/-!
# Adjacent values

Bit patterns of one sign are ordered as the magnitudes they stand for, so the neighbors of a
non-zero value are one pattern away; both zeros have the smallest magnitudes as neighbors.
-/

namespace Calculator.Binary64

/-- The value next to `x` in the direction of `y`; `y` itself if they are equal, and a NaN if
    either is one. -/
def stepToward (x y : Float) : Float :=
  if x.isNaN || y.isNaN then nan
  else if x == y then y
  else if x == 0.0 then copySign minPositive y
  else
    let awayFromZero := decide (x < y) == decide (0.0 < x)
    Float.ofBits (if awayFromZero then x.toBits + 1 else x.toBits - 1)

/-- The distance from `|x|` to the next value away from zero; for the largest finite value, which
    has none, the distance to the one below. -/
def ulp (x : Float) : Float :=
  let x := x.abs
  if x.isNaN || x.isInf then x
  else if x == maxFinite then x - stepToward x 0.0
  else stepToward x infinity - x

end Calculator.Binary64
