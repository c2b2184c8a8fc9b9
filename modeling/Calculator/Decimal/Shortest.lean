import Calculator.Binary64.Basic
import Calculator.Decimal.Basic

/-!
# From binary to decimal

The decimals `c · 10^j` with a fixed `j` form a grid.  `shortest` looks for the coarsest grid with
a point that reads back as the given value, and takes the point nearest to it; `rounded` takes the
nearest point of the grid that gives a wanted number of digits.  Both compare fractions of natural
numbers, so nothing is lost on the way.
-/

namespace Calculator.Decimal

open Calculator.Binary64

/-- The fraction `numerator / denominator` with a positive denominator. -/
structure Fraction where
  numerator : Nat
  denominator : Nat

/-- `n · 2^k` in units of `10^j`. -/
def Fraction.onGrid (n : Nat) (k j : Int) : Fraction where
  numerator := (n <<< k.toNat) * Nat.pow 10 (-j).toNat
  denominator := (1 <<< (-k).toNat) * Nat.pow 10 j.toNat

/-- A power of ten that `m · 2^k` does not reach.  The logarithm of two is a little below
    0.30103. -/
def ceilingExponent (m : Nat) (k : Int) : Int :=
  (k + m.log2 + 1) * 30103 / 100000 + 2

/-- The exponents of the grids to try for `m · 2^k`, coarsest first; with the last of them there
    are more digits than a binary64 value needs to be told from its neighbors. -/
def gridExponents (m : Nat) (k : Int) : List Int :=
  (List.range 24).map fun (i : Nat) => ceilingExponent m k - i

/-- The point on the grid `10^j` that reads back as `m · 2^k` and is nearest to it, the upper one
    of two equally near.

    What reads back as a value lies between the midpoints to its neighbors, the midpoints included
    if its significand is even.  The neighbor below a power of two is half as far away, unless it
    is subnormal.  Quarters of the last place make all these bounds integers. -/
def shortestOnGrid? (m : Nat) (k j : Int) : Option Decimal :=
  let below := if m = 4503599627370496 ∧ -1074 < k then 1 else 2
  let value := Fraction.onGrid (4 * m) (k - 2) j
  let low := (Fraction.onGrid (4 * m - below) (k - 2) j).numerator
  let high := (Fraction.onGrid (4 * m + 2) (k - 2) j).numerator
  let readsBack := fun (c : Nat) =>
    let point := c * value.denominator
    if m % 2 = 0 then low ≤ point && point ≤ high else low < point && point < high
  let c := value.numerator / value.denominator
  let rest := value.numerator - c * value.denominator
  match readsBack c, readsBack (c + 1) with
  | true, true => some ⟨if 2 * rest < value.denominator then c else c + 1, j⟩
  | true, false => some ⟨c, j⟩
  | false, true => some ⟨c + 1, j⟩
  | false, false => none

/-- The decimal with the fewest digits that reads back as `m · 2^k`, for a significand and an
    exponent of a binary64 value other than zero. -/
def shortest (m : Nat) (k : Int) : Decimal :=
  ((gridExponents m k).findSome? (shortestOnGrid? m k)).getD ⟨0, 0⟩

/-- `numerator / denominator` to the nearest integer, the even one of two equally near. -/
def Fraction.nearest (f : Fraction) : Nat :=
  let c := f.numerator / f.denominator
  let rest := f.numerator % f.denominator
  if 2 * rest < f.denominator ∨ (2 * rest = f.denominator ∧ c % 2 = 0) then c else c + 1

/-- `m · 2^k` to `count` significant digits, for `0 < m` and `0 < count`.  Rounding up to the next
    power of ten leaves one digit too many, a zero, which is dropped. -/
def rounded (count : Nat) (m : Nat) (k : Int) : Decimal :=
  let leads := fun (j : Int) =>
    let f := Fraction.onGrid m k j
    f.denominator ≤ f.numerator
  let leading := ((gridExponents m k).find? leads).getD 0
  let j := leading - count + 1
  let c := (Fraction.onGrid m k j).nearest
  if c = Nat.pow 10 count then ⟨c / 10, j + 1⟩ else ⟨c, j⟩

end Calculator.Decimal
