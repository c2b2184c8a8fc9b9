import Calculator.Binary64.Basic

/-!
# Scaling by a power of two

A power of two beyond the range of binary64 is applied in steps of `2^1000`.
-/

namespace Calculator.Binary64

/-- Multiplies by `2^k`, in steps of `2^1000` while `k` is further than 1000 from zero. -/
def scaleInSteps (x : Float) (k : Int) : Float :=
  if 1000 < k then scaleInSteps (x * twoPow 1000) (k - 1000)
  else if k < -1000 then scaleInSteps (x * twoPow (-1000)) (k + 1000)
  else x * twoPow k
termination_by k.natAbs

/-- `x · 2^k`.  Beyond 2200 in either direction the result no longer depends on `k`, because the
    range of binary64 is less than 2200 binary places wide. -/
def scale (x : Float) (k : Int) : Float :=
  scaleInSteps x (max (-2200) (min 2200 k))

end Calculator.Binary64
