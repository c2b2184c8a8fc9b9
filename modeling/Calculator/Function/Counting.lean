import Calculator.Function.Basic

/-!
# Functions of integers

Products of many factors are computed exactly while they fit into 128 bits, and in binary64 from
there on; a result that stays exact is rounded once, at the end.  Divisors and multiples are
computed exactly throughout.
-/

namespace Calculator.Counting

/-- The bound of the exact numbers. -/
def exactLimit : Nat := 1 <<< 128

/-! ## Products -/

/-- Multiplies `x` by the factors with indices `j`, `j + 1`, … as long as there are `steps` left
    and the product is finite. -/
def productFrom (factor : Nat → Float) : (steps : Nat) → (j : Nat) → (x : Float) → Float
  | 0, _, x => x
  | steps + 1, j, x =>
    let product := x * factor j
    if product.isInf then product else productFrom factor steps (j + 1) product

/-- Multiplies `exact` by the fractions `numerator i / denominator i` with indices `i`, `i + 1`, …
    The numbers on the way are natural; once one would exceed the limit, the rest is multiplied in
    binary64. -/
def fractionProduct (numerator denominator : Nat → Nat) :
    (steps : Nat) → (i : Nat) → (exact : Nat) → Float
  | 0, _, exact => Float.ofNat exact
  | steps + 1, i, exact =>
    let product := exact * numerator i
    if product < exactLimit then
      fractionProduct numerator denominator steps (i + 1) (product / denominator i)
    else
      productFrom (fun j => Float.ofNat (numerator j) / Float.ofNat (denominator j))
        (steps + 1) i (Float.ofNat exact)

/-- `n · (n - 1) · … · (n - k + 1)`, for `k ≤ n`. -/
def fallingProduct (n k : Nat) : Float :=
  fractionProduct (fun i => n - i) (fun _ => 1) k 0 1

/-- `n!`, infinite from 171 on, where it exceeds every finite value. -/
def factorial (n : Nat) : Float :=
  if 170 < n then Binary64.infinity else fallingProduct n n

/-- The number of ways to choose `k` out of `n` in order. -/
def permutations (n k : Nat) : Float :=
  if n < k then 0.0 else fallingProduct n k

/-- The number of ways to choose `k` out of `n` without order.  Choosing `k` and leaving `k` out
    are the same, so the smaller of the two is counted.  After `i` factors the number is that of
    the ways to choose `i`, so every division leaves no remainder. -/
def combinations (n k : Nat) : Float :=
  if n < k then 0.0
  else fractionProduct (fun i => n - i) (fun i => i + 1) (min k (n - k)) 0 1

/-! ## Roots -/

/-- The first number from `root` down whose square is at most `n`. -/
def lowerRoot (n : Nat) : Nat → Nat
  | 0 => 0
  | root + 1 => if n < (root + 1) * (root + 1) then lowerRoot n root else root + 1

/-- The last number from `root` up whose square is at most `n`, if that of `root` is. -/
def raiseRoot (n root : Nat) : Nat :=
  if (root + 1) * (root + 1) ≤ n then raiseRoot n (root + 1) else root
termination_by n - root
decreasing_by
  have : root + 1 ≤ (root + 1) * (root + 1) := Nat.le_mul_of_pos_left _ (Nat.succ_pos root)
  omega

/-- The integral part of the square root of `n`, found from an estimate. -/
def correctedRoot (n estimate : Nat) : Nat := raiseRoot n (lowerRoot n estimate)

/-- The integral part of the square root of `n`. -/
def integerRoot (n : Nat) : Float :=
  Float.ofNat (correctedRoot n (Binary64.wholePart (Float.ofNat n).sqrt))

/-! ## Divisors and multiples -/

/-- The last divisor of the chain of divisions with remainder that starts with `a` and `b`. -/
def euclid (a b : Nat) : Nat := if b = 0 then a else euclid b (a % b)
termination_by b
decreasing_by exact Nat.mod_lt a (Nat.pos_of_ne_zero ‹_›)

/-- The last divisor of the chain is the greatest common one. -/
theorem euclid_eq_gcd (a b : Nat) : euclid a b = a.gcd b := by
  induction b using Nat.strongRecOn generalizing a with
  | ind b ih =>
    rw [euclid]
    split
    · next hb => rw [hb, Nat.gcd_zero_right]
    · next hb =>
      rw [ih (a % b) (Nat.mod_lt a (Nat.pos_of_ne_zero hb)), Nat.gcd_comm, ← Nat.gcd_rec,
        Nat.gcd_comm]

/-- The greatest common divisor of the magnitudes of some values and a number known before; the
    first value without a magnitude decides the error. -/
def commonDivisor : List Float → Nat → Except CallError Nat
  | [], divisor => .ok divisor
  | x :: xs, divisor => do
    let m ← Function.magnitude "gcd" x
    commonDivisor xs (euclid divisor m)

/-- The least common multiple of some positive numbers and one known before, if it is below the
    limit. -/
def commonMultiple : List Nat → Nat → Except CallError Nat
  | [], multiple => .ok multiple
  | m :: ms, multiple =>
    let next := multiple / euclid multiple m * m
    if next < exactLimit then commonMultiple ms next
    else .error (.domain "lcm" .resultTooLarge)

/-! ## The functions -/

/-- `factorial(n)` -/
def factorialFunction : Function := .ofNatural "factorial" factorial

/-- `comb(n, k)` -/
def combFunction : Function := .ofNaturals "comb" combinations

/-- `perm(n)` is `n!`, and `perm(n, k)` counts selections of `k` out of `n`. -/
def permFunction : Function where
  name := "perm"
  apply
    | [x] => do
      let n ← Function.natural "perm" x.float
      return .ofFloat (permutations n n)
    | [x, y] => do
      let n ← Function.natural "perm" x.float
      let k ← Function.natural "perm" y.float
      return .ofFloat (permutations n k)
    | args => Function.wrongCount "perm" (.between 1 2) args

/-- `gcd(…)` of any number of integers, 0 of none. -/
def gcdFunction : Function where
  name := "gcd"
  apply args := do
    let divisor ← commonDivisor (args.map Value.float) 0
    return .ofFloat (Float.ofNat divisor)

/-- `lcm(…)` of any number of integers, 1 of none, and 0 if one of them is 0. -/
def lcmFunction : Function where
  name := "lcm"
  apply args := do
    let magnitudes ← (args.map Value.float).mapM (Function.magnitude "lcm")
    if magnitudes.contains 0 then return .ofFloat 0.0
    let multiple ← commonMultiple magnitudes 1
    return .ofFloat (Float.ofNat multiple)

/-- `isqrt(n)` -/
def isqrtFunction : Function := .ofNatural "isqrt" integerRoot

/-- The functions of integers. -/
def functions : List Function :=
  [factorialFunction, combFunction, permFunction, gcdFunction, lcmFunction, isqrtFunction]

end Calculator.Counting
