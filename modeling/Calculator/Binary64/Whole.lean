import Calculator.Binary64.Basic

/-!
# Rounding to whole numbers

A value with a fraction is below `2^52` in magnitude, so its whole part and the two integers next
to it are binary64 values; every other finite value is whole already.  A result of zero keeps the
sign of the argument.
-/

namespace Calculator.Binary64

/-- The integer next to `x` on the side of zero. -/
def trunc (x : Float) : Float :=
  match datum x with
  | .finite negative m k =>
    if 0 ≤ k then x
    else
      let whole := Float.ofNat (m >>> (-k).toNat)
      if negative then -whole else whole
  | _ => x

/-- The largest integer that is not above `x`. -/
def floor (x : Float) : Float :=
  let whole := trunc x
  if x < whole then whole - 1.0 else whole

/-- The smallest integer that is not below `x`. -/
def ceil (x : Float) : Float :=
  let whole := trunc x
  if whole < x then whole + 1.0 else whole

end Calculator.Binary64
