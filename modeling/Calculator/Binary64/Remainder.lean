import Calculator.Binary64.Basic

/-!
# Remainders of a division

`fmod` leaves what a quotient cut towards zero leaves, and `remainder` what the nearest quotient
leaves.  Both are exact: a remainder is a multiple of the finer unit of the two operands and
smaller than the coarser significand allows.
-/

namespace Calculator.Binary64

/-- `x - n·y` with `n` the quotient `x / y` cut towards zero, with the sign of `x`.  It is a NaN
    if `x` is infinite, `y` is zero or either is a NaN, and `x` if only `y` is infinite. -/
def fmod (x y : Float) : Float :=
  match datum x, datum y with
  | .finite _ m j, .finite _ n k =>
    if n = 0 then nan
    else
      let unit := min j k
      let left := (m <<< (j - unit).toNat) % (n <<< (k - unit).toNat)
      copySign (Float.ofNat left * twoPow unit) x
  | .finite .., .infinity _ => x
  | _, _ => nan

/-- `x - n·y` with `n` the integer nearest to `x / y`, the even one of two equally near.

    With `m` the remainder of the magnitudes, `m` and `m - |y|` are the two candidates.  At an
    exact half the halved rest of `|x|` is a whole or a half multiple of `|y|`, and says whether
    the lower quotient is even. -/
def remainder (x y : Float) : Float :=
  if x.isNaN || y.isNaN || x.isInf || y == 0.0 then nan
  else if y.isInf then x
  else
    let m := fmod x.abs y.abs
    let c := y.abs - m
    let r :=
      if m < c then m
      else if c < m then -c
      else m - 2.0 * fmod (0.5 * (x.abs - m)) y.abs
    copySign 1.0 x * r

end Calculator.Binary64
