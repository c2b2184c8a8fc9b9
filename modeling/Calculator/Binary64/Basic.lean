/-!
# Binary64 values as exact numbers

A float that is not a NaN or an infinity is a signed integer times a power of two.  `datum` reads
that number off the bit pattern, so that questions about a value (is it an integer, what is its
whole part, which number is the remainder) are answered in exact integer arithmetic.  Going back,
`ofNat n * twoPow e` is exact whenever `n · 2^e` is a binary64 value, because a product is rounded
only when it has to be.

All NaNs are one value here: `toBits` writes the same pattern for each of them.
-/

namespace Calculator.Binary64

/-- The number that a bit pattern stands for. -/
inductive Datum where
  | nan
  | infinity (negative : Bool)
  /-- The value `significand · 2^exponent`, negated if `negative`; zero keeps its sign. -/
  | finite (negative : Bool) (significand : Nat) (exponent : Int)

/-- Reads sign, exponent field and fraction: a pattern whose exponent field is zero is subnormal,
    and one whose field is all ones is an infinity or a NaN. -/
def datum (x : Float) : Datum :=
  let bits := x.toBits.toNat
  let negative := bits.testBit 63
  let field := (bits >>> 52) % 2048
  let fraction := bits % 4503599627370496
  if field = 2047 then
    if fraction = 0 then .infinity negative else .nan
  else if field = 0 then .finite negative fraction (-1074)
  else .finite negative (fraction + 4503599627370496) ((field : Int) - 1075)

/-- Positive infinity. -/
def infinity : Float := Float.ofBits 0x7ff0000000000000

/-- The one NaN. -/
def nan : Float := Float.ofBits 0x7ff8000000000000

/-- The largest finite value, `(2^53 - 1) · 2^971`. -/
def maxFinite : Float := Float.ofBits 0x7fefffffffffffff

/-- The smallest positive value, `2^(-1074)`. -/
def minPositive : Float := Float.ofBits 1

/-- The gap between 1 and the next value, `2^(-52)`. -/
def epsilon : Float := Float.ofBits 0x3cb0000000000000

/-- The value nearest to π. -/
def pi : Float := Float.ofBits 0x400921fb54442d18

/-- The value nearest to 2π. -/
def tau : Float := Float.ofBits 0x401921fb54442d18

/-- The value nearest to the base of the natural logarithm. -/
def eulerNumber : Float := Float.ofBits 0x4005bf0a8b145769

/-- The sign bit; set for `-0.0` and for every negative value. -/
def signBit (x : Float) : Bool := x.toBits.toNat.testBit 63

/-- The magnitude of `x` with the given sign. -/
def withSign (negative : Bool) (x : Float) : Float := if negative then -x.abs else x.abs

/-- The magnitude of `x` with the sign of `y`. -/
def copySign (x y : Float) : Float := withSign (signBit y) x

/-- `2^k` for `-1074 ≤ k ≤ 1023`, the powers of two that are binary64 values. -/
def twoPow (k : Int) : Float :=
  if -1022 ≤ k then Float.ofBits (UInt64.ofNat ((k + 1023).toNat <<< 52))
  else Float.ofBits (UInt64.ofNat (1 <<< (k + 1074).toNat))

/-- `|x|` without its fraction, for finite `x`; 0 for an infinity or a NaN. -/
def wholePart (x : Float) : Nat :=
  match datum x with
  | .finite _ m k => if 0 ≤ k then m <<< k.toNat else m >>> (-k).toNat
  | _ => 0

/-- Whether `x` is finite and an integer. -/
def isIntegral (x : Float) : Bool :=
  match datum x with
  | .finite _ m k => 0 ≤ k || m % (1 <<< (-k).toNat) == 0
  | _ => false

/-- The integer that `x` is, for integral `x`; otherwise the one next to it on the side of zero. -/
def toInt (x : Float) : Int :=
  if signBit x then -(wholePart x : Int) else wholePart x

end Calculator.Binary64
