/-!
# Decimals

A decimal is a natural significand times a power of ten.  Its two written forms are the positional
one, with as many zeros as it takes, and the scientific one, with one digit before the point.
-/

namespace Calculator

/-- The number `significand · 10^exponent`. -/
structure Decimal where
  significand : Nat
  exponent : Int

/-- The decimal digits of a natural number, `0` for zero. -/
def digits (n : Nat) : List Char := Nat.toDigits 10 n

/-- An integer in decimal, with a sign only if it is negative. -/
def integerText (n : Int) : List Char :=
  if n < 0 then '-' :: digits n.natAbs else digits n.natAbs

namespace Decimal

/-- The exponent of ten at which the first digit stands. -/
def leadingExponent (d : Decimal) : Int :=
  d.exponent + (digits d.significand).length - 1

/-- All digits in their places, without an exponent; a point only before a fraction. -/
def positional (d : Decimal) : List Char :=
  let ds := digits d.significand
  if 0 ≤ d.exponent then ds ++ List.replicate d.exponent.toNat '0'
  else
    let places := (-d.exponent).toNat
    if places < ds.length then
      ds.take (ds.length - places) ++ '.' :: ds.drop (ds.length - places)
    else '0' :: '.' :: (List.replicate (places - ds.length) '0' ++ ds)

/-- One digit, the others after a point if there are any, and the exponent of the first digit. -/
def scientific (d : Decimal) : List Char :=
  let mantissa := match digits d.significand with
    | first :: second :: rest => first :: '.' :: second :: rest
    | ds => ds
  mantissa ++ 'e' :: integerText d.leadingExponent

end Decimal

end Calculator
