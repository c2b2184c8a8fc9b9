import Calculator.Proofs.Binary64.Difference
import Calculator.Proofs.Checked.Basic

/-!
# The gamma and error functions on machine words

The Lanczos sum reads a table, a small factorial runs up to a converted argument, and the power
series counts its terms in a word of 32 bits.  Gamma calls itself for arguments below 0.5 and is
given two calls.

Results:
* `lanczosSum_eq`, `smallFactorial_eq`, `erfSeries_eq`: the loops never fault.
* `gamma_eq`, `logGamma_eq`: nor do gamma and its logarithm, whose second call is their last one.
-/

namespace Calculator.Checked

open Binary64

/-! ## The Lanczos sum -/

/-- The constant of the Lanczos sum and its coefficients. -/
def lanczosTable : List Float := Special.lanczosConstant :: Special.lanczosCoefficients

/-- The Lanczos sum, with the constant and the coefficients in one table. -/
def lanczosSum (z : Float) : Checked Float := do
  let constant ← item lanczosTable 0
  let coefficients ← itemsFrom lanczosTable 1
  coefficients.zipIdx.foldlM (fun sum (c, i) => do
    let place ← add 64 i 1
    return sum + c / (z + Float.ofNat place)) constant

-- the table is a closed one of nine entries, so each of its places can be computed
theorem lanczosSum_eq (z : Float) : lanczosSum z = .ok (Special.lanczosSum z) := rfl

/-! ## Gamma -/

/-- `(x - 1)!`, with `x` converted to the bound of the factors. -/
def smallFactorial (x : Float) : Checked Float := do
  let bound ← exactly 64 x
  return (List.range' 2 (bound - 2)).foldl (fun product k => product * Float.ofNat k) 1.0

theorem number?_twentyThree : number? 23.0 = some 23 := by
  have hd : datum 23.0 = .finite false (23 * 2 ^ 48) (-48) := by rfl
  rw [number?_of_datum hd, signedNumber, if_neg (by decide)]
  norm_num

/-- An integer that is no pole is positive. -/
theorem toInt_pos {x : Float} (hx : isIntegral x = true) (hpole : Special.isPole x = false) :
    0 < toInt x := by
  rw [Special.isPole, hx, Bool.and_true, decide_eq_false_iff_not,
    le_iff_number (number?_of_isIntegral hx) number?_zero, not_le] at hpole
  exact_mod_cast hpole

theorem smallFactorial_eq {x : Float} (hx : isIntegral x = true) (hle : x ≤ 23.0)
    (hpole : Special.isPole x = false) : smallFactorial x = .ok (Special.smallFactorial x) := by
  have hnumber := number?_of_isIntegral hx
  have htoInt : toInt x = wholePart x := by
    have hpos := toInt_pos hx hpole
    unfold toInt at hpos ⊢
    split_ifs at hpos ⊢ <;> omega
  rw [htoInt] at hnumber
  have hbound : wholePart x ≤ 23 := by
    rw [le_iff_number hnumber number?_twentyThree] at hle
    exact_mod_cast hle
  have hexact : exactly 64 x = .ok (wholePart x) :=
    exactly_eq_ok.mpr ⟨by exact_mod_cast hnumber, by omega⟩
  rw [smallFactorial, hexact, ok_bind]
  rfl

/-- Gamma for arguments from 0.5 to its overflow. -/
def lanczosGamma (x : Float) : Checked Float := do
  let z := x - 1.0
  let t := z + Special.lanczosOffset + 0.5
  let halfPower := t.pow (0.5 * (z + 0.5))
  let sum ← lanczosSum z
  return (2.0 * pi).sqrt * halfPower * (-t).exp * halfPower * sum

/-- Gamma, with `self` standing for it on the other side of 0.5. -/
def gammaEquation (self : Float → Checked Float) (x : Float) : Checked Float :=
  if x.isNaN || x == -infinity then .ok nan
  else if x == 0.0 then .ok (copySign infinity x)
  else if Special.isPole x then .ok nan
  else if 171.7 < x then .ok infinity
  else if isIntegral x && x ≤ 23.0 then smallFactorial x
  else if x < 0.5 then do
    let reflected ← self (1.0 - x)
    return pi / ((pi * x).sin * reflected)
  else lanczosGamma x

/-- Gamma, with two calls. -/
def gamma : Float → Checked Float :=
  gammaEquation (gammaEquation fun _ => .error (.fault .depthExceeded))

/-- Gamma does not fault if the call for the other side of 0.5 does not. -/
theorem gammaEquation_eq {self : Float → Checked Float} {self' : Float → Float} {x : Float}
    (hself : ∀ p, number? x = some p → x < 0.5 → self (1.0 - x) = .ok (self' (1.0 - x))) :
    gammaEquation self x = .ok (Special.gammaEquation self' x) := by
  unfold gammaEquation Special.gammaEquation
  split_ifs with hinvalid hzero hpole hlarge hsmall hreflected
  · rfl
  · rfl
  · rfl
  · rfl
  · rw [Bool.and_eq_true, decide_eq_true_iff] at hsmall
    exact smallFactorial_eq hsmall.1 hsmall.2 (Bool.eq_false_of_not_eq_true hpole)
  · have hinf : x ≠ -infinity := by
      rintro rfl
      exact hinvalid (by decide +kernel)
    obtain ⟨p, hp⟩ := exists_number_of_lt_half hreflected hinf
    rw [hself p hp hreflected, ok_bind]
    rfl
  · rw [lanczosGamma, lanczosSum_eq]
    rfl

/-- The second call of gamma is its last one. -/
theorem gamma_eq (x : Float) : gamma x = .ok (Special.gamma x) :=
  gammaEquation_eq fun _ hp hx => gammaEquation_eq fun _ _ hx' =>
    absurd hx' (not_one_sub_lt_half hp hx)

/-- The logarithm of gamma for arguments from 0.5 upwards. -/
def lanczosLogGamma (x : Float) : Checked Float := do
  let z := x - 1.0
  let t := z + Special.lanczosOffset + 0.5
  let sum ← lanczosSum z
  return 0.5 * (2.0 * pi).log + (z + 0.5) * t.log - t + sum.log

/-- The logarithm of the magnitude of gamma, with `self` standing for it on the other side of
    0.5. -/
def logGammaEquation (self : Float → Checked Float) (x : Float) : Checked Float :=
  if x.isNaN then .ok nan
  else if x.isInf || Special.isPole x then .ok infinity
  else if x == 1.0 || x == 2.0 then .ok 0.0
  else if x < 0.5 then do
    let reflected ← self (1.0 - x)
    return (pi / (pi * x).sin.abs).log - reflected
  else lanczosLogGamma x

/-- The logarithm of the magnitude of gamma, with two calls. -/
def logGamma : Float → Checked Float :=
  logGammaEquation (logGammaEquation fun _ => .error (.fault .depthExceeded))

theorem logGammaEquation_eq {self : Float → Checked Float} {self' : Float → Float} {x : Float}
    (hself : ∀ p, number? x = some p → x < 0.5 → self (1.0 - x) = .ok (self' (1.0 - x))) :
    logGammaEquation self x = .ok (Special.logGammaEquation self' x) := by
  unfold logGammaEquation Special.logGammaEquation
  split_ifs with hnan hinvalid hroot hreflected
  · rfl
  · rfl
  · rfl
  · have hinf : x ≠ -infinity := by
      rintro rfl
      exact hinvalid (by decide +kernel)
    obtain ⟨p, hp⟩ := exists_number_of_lt_half hreflected hinf
    rw [hself p hp hreflected, ok_bind]
    rfl
  · rw [lanczosLogGamma, lanczosSum_eq]
    rfl

theorem logGamma_eq (x : Float) : logGamma x = .ok (Special.logGamma x) :=
  logGammaEquation_eq fun _ hp hx => logGammaEquation_eq fun _ _ hx' =>
    absurd hx' (not_one_sub_lt_half hp hx)

/-! ## The error function -/

/-- Adds up the power series from its `n`-th term on, with the odd numbers in words of 32 bits. -/
def erfSum (square : Float) : (steps : ℕ) → (n : ℕ) → (term sum : Float) → Checked Float
  | 0, _, _, sum => .ok sum
  | steps + 1, n, term, sum => do
    let double ← signed 32 (2 * n)
    let odd ← signed 32 (double + 1)
    let term := term * (2.0 * square / Float.ofInt odd)
    let sum := sum + term
    if term.abs ≤ sum.abs * epsilon then return sum else erfSum square steps (n + 1) term sum

theorem erfSum_eq (square : Float) {steps n : ℕ} (h : n + steps ≤ 500) (term sum : Float) :
    erfSum square steps n term sum = .ok (Special.erfSum square steps n term sum) := by
  induction steps generalizing n term sum with
  | zero => rfl
  | succ steps ih =>
    rw [erfSum, Special.erfSum, signed_ok (by omega), ok_bind, signed_ok (by omega), ok_bind]
    have hodd : Float.ofInt (2 * n + 1) = Float.ofNat (2 * n + 1) := rfl
    rw [hodd]
    dsimp only
    split_ifs
    · rfl
    · exact ih (by omega) _ _

/-- The power series of the error function. -/
def erfSeries (x : Float) : Checked Float := do
  let square := x * x
  let sum ← erfSum square 499 1 x x
  return 2.0 / pi.sqrt * (-square).exp * sum

theorem erfSeries_eq (x : Float) : erfSeries x = .ok (Special.erfSeries x) := by
  rw [erfSeries, erfSum_eq _ (by norm_num), ok_bind]
  rfl

/-- The error function. -/
def erf (x : Float) : Checked Float :=
  if x.isNaN then .ok nan
  else if x.abs < 2.0 then erfSeries x
  else .ok (copySign (1.0 - Special.erfcFraction x.abs) x)

theorem erf_eq (x : Float) : erf x = .ok (Special.erf x) := by
  unfold erf Special.erf
  split_ifs
  · rfl
  · exact erfSeries_eq x
  · rfl

/-- The complement of the error function. -/
def erfc (x : Float) : Checked Float :=
  if x.isNaN then .ok nan
  else if x < 2.0 then do
    let value ← erf x
    return 1.0 - value
  else .ok (Special.erfcFraction x)

theorem erfc_eq (x : Float) : erfc x = .ok (Special.erfc x) := by
  unfold erfc Special.erfc
  split_ifs
  · rfl
  · rw [erf_eq]
    rfl
  · rfl

end Calculator.Checked
