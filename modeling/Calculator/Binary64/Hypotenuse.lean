import Calculator.Binary64.Basic

/-!
# The Euclidean norm

The norm of two coordinates is the square root of the sum of their squares.  The sum is exact, as
an integer in units of a power of four, and its root is taken with more bits than a value has, so
that the norm is rounded once.  An infinite coordinate makes the norm infinite, even beside a NaN.
-/

namespace Calculator.Binary64

/-- `n · 2^k`, rounded once to the nearest value, a half to the even one.  Below the point,
    `2^(-k)` is `5^k · 10^(-k)`. -/
def ofDyadic (n : Nat) (k : Int) : Float :=
  if 0 ≤ k then Float.ofNat (n <<< k.toNat)
  else Float.ofScientific (n * Nat.pow 5 (-k).toNat) true (-k).toNat

/-- Newton's iteration for the square root of `n`, from an estimate that is not below it down to
    where it no longer falls. -/
def newtonRoot (n estimate : Nat) : Nat :=
  let next := (estimate + n / estimate) / 2
  if next < estimate then newtonRoot n next else estimate
termination_by estimate

/-- The integral part of the square root of `n`. -/
def floorRoot (n : Nat) : Nat := newtonRoot n (1 <<< (n.log2 / 2 + 1))

/-- `√n · 2^k`, rounded once.  The root of `n · 4^places` has at least 55 bits; an odd bit behind
    it stands for the rest if there is one. -/
def rootOfDyadic (n : Nat) (k : Int) : Float :=
  let places := 56 - n.log2 / 2
  let scaled := n <<< (2 * places)
  let root := floorRoot scaled
  let rest := if root * root = scaled then 0 else 1
  ofDyadic (2 * root + rest) (k - places - 1)

/-- `√(x² + y²)`. -/
def hypotenuse (x y : Float) : Float :=
  match datum x, datum y with
  | .infinity _, _ => infinity
  | _, .infinity _ => infinity
  | .finite _ m j, .finite _ n k =>
    let unit := min j k
    let a := m <<< (j - unit).toNat
    let b := n <<< (k - unit).toNat
    rootOfDyadic (a * a + b * b) unit
  | _, _ => nan

end Calculator.Binary64
