import Calculator.Function.Special
import Calculator.Proofs.Binary64.Negation

/-!
# The error function is odd

A negated argument has the same square, so the factors between the terms of the power series are
the same, and none of them is negative.  All terms and sums then have the sign of the argument, and
are negated with it, rounding included; the comparison that ends the loop sees their magnitudes
only.  The continued fraction is taken at the magnitude of the argument.

None of this is about the exponential or the square root, which may be any functions.

Results:
* `erfSum_neg`: the loop ends at the same term for a negated argument, with the negated sum.
* `erfWith_neg`: the error function of a negated argument.
* `erf_odd`: the same for the patterns of both values.
-/

namespace Calculator.Special

open Binary64

variable {square term : Float} {a : Bool}

/-! ## Any exponential and any square root -/

/-- The power series with an exponential and a square root that are given. -/
def erfSeriesWith (exp sqrt : Float → Float) (x : Float) : Float :=
  let square := x * x
  2.0 / sqrt pi * exp (-square) * erfSum square 499 1 x x

/-- The continued fraction with an exponential and a square root that are given. -/
def erfcFractionWith (exp sqrt : Float → Float) (x : Float) : Float :=
  exp (-x * x) / (sqrt pi * erfcTail x 120 x)

/-- The error function with an exponential and a square root that are given. -/
def erfWith (exp sqrt : Float → Float) (x : Float) : Float :=
  if x.isNaN then nan
  else if x.abs < 2.0 then erfSeriesWith exp sqrt x
  else copySign (1.0 - erfcFractionWith exp sqrt x.abs) x

theorem erf_eq_erfWith : erf = erfWith Float.exp Float.sqrt := rfl

/-! ## The power series -/

theorem hasSign_ofNat (n : ℕ) : HasSign false (Float.ofNat n) := by
  have h := hasSign_signBit (Float.ofNat n)
  rwa [ofNat_eq, signBit_ofMagnitude false (Nat.cast_nonneg n), ← ofNat_eq] at h

/-- No factor between two terms is negative. -/
theorem hasSign_factor (hsquare : HasSign false square) (n : ℕ) :
    HasSign false (2.0 * square / Float.ofNat (2 * n + 1)) := by
  have htwo : HasSign false 2.0 := hasSign_signBit 2.0
  exact (htwo.mul hsquare).div (hasSign_ofNat (2 * n + 1))

/-- The next term keeps the sign of the one before it. -/
theorem hasSign_next_term (hsquare : HasSign false square) (n : ℕ) (hterm : HasSign a term) :
    HasSign a (term * (2.0 * square / Float.ofNat (2 * n + 1))) := by
  have h := hterm.mul (hasSign_factor hsquare n)
  rwa [Bool.bne_false] at h

/-- With a term and a sum of one sign, the loop ends at the same term if both are negated, and with
the negated sum. -/
theorem erfSum_neg (hsquare : HasSign false square) (steps : ℕ) :
    ∀ n term sum, HasSign a term → HasSign a sum →
      erfSum square steps n (-term) (-sum) = -erfSum square steps n term sum := by
  -- the signs carry the induction: terms of both signs could cancel to a zero that has none
  induction steps with
  | zero => exact fun _ _ _ _ _ => rfl
  | succ steps ih =>
    intro n term sum hterm hsum
    have hnext := hasSign_next_term hsquare n hterm
    unfold erfSum
    dsimp only
    rw [mul_neg_left, add_neg_both hsum hnext, abs_neg_value, abs_neg_value]
    split_ifs
    · rfl
    · exact ih _ _ _ hnext (hsum.add hnext)

theorem erfSeriesWith_neg (exp sqrt : Float → Float) (x : Float) :
    erfSeriesWith exp sqrt (-x) = -erfSeriesWith exp sqrt x := by
  have hsign := hasSign_signBit x
  unfold erfSeriesWith
  dsimp only
  rw [mul_neg_both, erfSum_neg (hasSign_mul_self x) 499 1 x x hsign hsign, mul_neg_right]

/-! ## Both branches -/

/-- The error function of a negated argument is negated. -/
theorem erfWith_neg (exp sqrt : Float → Float) (x : Float) :
    erfWith exp sqrt (-x) = -erfWith exp sqrt x := by
  unfold erfWith
  rw [isNaN_neg, abs_neg_value]
  split_ifs with hnan
  · rfl
  · exact erfSeriesWith_neg exp sqrt x
  · exact copySign_neg (Bool.eq_false_of_not_eq_true hnan)

/-- The error function of a negated argument has the pattern of that of the argument, with the other
sign bit, whatever the exponential and the square root are. -/
theorem erf_odd :
    (∃ f ∈ functions, f.name = "erf" ∧ ∀ v, f.apply [v] = .ok (.ofFloat (erf v.float))) ∧
    erf = erfWith Float.exp Float.sqrt ∧
    ∀ (exp sqrt : Float → Float) (x : Float), (erfWith exp sqrt x).isNaN = false →
      (erfWith exp sqrt (-x)).toBits = (erfWith exp sqrt x).toBits ^^^ 0x8000000000000000 := by
  refine ⟨⟨.ofRealUnsigned "erf" erf, by simp [functions], rfl, fun _ => rfl⟩, erf_eq_erfWith,
    fun exp sqrt x h => ?_⟩
  rw [erfWith_neg, toBits_neg h]

/-- At a zero, at the smallest value, below and above the cutoff and at infinity, with the values of
the exponential at the squares of these arguments. -/
theorem erf_odd_samples :
    let exp (y : Float) := if y == 0.0 then 1.0 else if y == -0.25 then 0.7788007830714049
      else if y == -9.0 then 1.2340980408667956e-4 else 0.0
    ∀ x ∈ [0.0, minPositive, 0.5, 3.0, infinity], (erfWith exp Float.sqrt x).isNaN = false ∧
      (erfWith exp Float.sqrt (-x)).toBits =
        (erfWith exp Float.sqrt x).toBits ^^^ 0x8000000000000000 := by
  intro exp x hx
  obtain ⟨-, -, h⟩ := erf_odd
  have hnumbers : ∀ x ∈ [0.0, minPositive, 0.5, 3.0, infinity],
      (erfWith exp Float.sqrt x).isNaN = false := by decide +kernel
  exact ⟨hnumbers x hx, h exp Float.sqrt x (hnumbers x hx)⟩

end Calculator.Special
