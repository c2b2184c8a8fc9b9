import Calculator.Proofs.Binary64.Sum

/-!
# Bounds on rounded numbers

Rounding does not change the order of numbers, and a number from 1 on is changed by at most one part
in `2^53`.  A product or a quotient of positive numbers is infinite exactly where the exact one
reaches the bound of overflow.

Results:
* `isFinite_iff_number`, `abs_number_le`: which values are numbers, and how far from zero they are.
* `ofMagnitude_eq_infinity_iff`, `exists_number_ofMagnitude`: what is rounded to infinity, and what
  to a number.
* `mul_of_pos`, `div_of_pos`: products and quotients of positive numbers, by their numbers.
* `ofMagnitude_mono`, `le_of_le_magnitude`: the order of rounded numbers.
* `one_sub_unitRoundoff_mul_le`: how much is lost by rounding.
* `mul_eq_infinity_or`, `exists_number_div`: products and quotients of numbers from 1 on.
* `exists_number_ofNat`: natural numbers in range.
-/

namespace Calculator.Binary64

variable {x y : Float} {n : ℕ} {p q v w : ℚ}

/-! ## Numbers and infinity -/

theorem datum_infinity : datum infinity = .infinity false := by
  rw [infinity_eq]
  exact datum_ofDatum trivial

theorem isInf_infinity : infinity.isInf = true := by
  rw [isInf_eq, datum_infinity]
  rfl

theorem isNaN_infinity : infinity.isNaN = false := by
  rw [isNaN_eq, datum_infinity]
  rfl

theorem isInf_of_number (h : number? x = some q) : x.isInf = false := by
  obtain ⟨negative, m, k, hd, -⟩ := exists_datum h
  rw [isInf_eq, hd]
  rfl

theorem isNaN_of_number (h : number? x = some q) : x.isNaN = false := by
  obtain ⟨negative, m, k, hd, -⟩ := exists_datum h
  rw [isNaN_eq, hd]
  rfl

/-- The values that are numbers are the finite ones. -/
theorem isFinite_iff_number : x.isFinite = true ↔ ∃ q, number? x = some q := by
  rw [isFinite_eq, number?]
  cases datum x <;> simp [Datum.isFinite]

/-- A number is not the infinity below all numbers. -/
theorem beq_neg_infinity_of_number (h : number? x = some q) : (x == -infinity) = false := by
  obtain ⟨negative, m, k, hd, -⟩ := exists_datum h
  rw [beq_eq, hd, datum_neg, datum_infinity]
  rcases Nat.eq_zero_or_pos m with rfl | hm
  · rfl
  · rw [Datum.unpacked_finite hm]
    cases negative <;> rfl

theorem datum_of_isNaN (h : x.isNaN = true) : datum x = .nan := by
  rw [isNaN_eq] at h
  cases hd : datum x with
  | nan => rfl
  | infinity | finite =>
    rw [hd] at h
    cases h

theorem exists_datum_of_isInf (h : x.isInf = true) : ∃ b, datum x = .infinity b := by
  rw [isInf_eq] at h
  cases hd : datum x with
  | infinity b => exact ⟨b, rfl⟩
  | nan | finite =>
    rw [hd] at h
    cases h

theorem exists_datum_of_finite (hnan : x.isNaN = false) (hinf : x.isInf = false) :
    ∃ negative m k, datum x = .finite negative m k := by
  rw [isNaN_eq] at hnan
  rw [isInf_eq] at hinf
  cases hd : datum x with
  | finite negative m k => exact ⟨negative, m, k, rfl⟩
  | nan =>
    rw [hd] at hnan
    cases hnan
  | infinity =>
    rw [hd] at hinf
    cases hinf

theorem le_infinity (h : number? x = some q) : x ≤ infinity := by
  obtain ⟨negative, m, k, hd, -⟩ := exists_datum h
  rw [le_iff, hd, datum_infinity]
  rcases Nat.eq_zero_or_pos m with rfl | hm
  · rfl
  · rw [Datum.unpacked_finite hm]
    cases negative <;> rfl

/-- No number is further from zero than the largest one. -/
theorem abs_number_le (h : number? x = some q) : |q| ≤ (2 ^ 53 - 1) * 2 ^ (971 : ℤ) := by
  obtain ⟨negative, m, k, hd, rfl⟩ := exists_datum h
  have hc := canonical_of_datum hd
  have hm : (m : ℚ) + 1 ≤ 2 ^ 53 := by exact_mod_cast hc.significand_lt
  have hk : (2 : ℚ) ^ k ≤ 2 ^ (971 : ℤ) := zpow_le_zpow_right₀ (by norm_num) hc.exponent_le
  rw [abs_signedNumber]
  exact mul_le_mul (by linarith) hk (two_zpow_pos k).le (by norm_num)

/-- The number of a value is below the bound of overflow. -/
theorem lt_overflowBound (h : number? x = some q) : q < overflowBound := by
  calc q ≤ (2 ^ 53 - 1) * 2 ^ (971 : ℤ) := (le_abs_self q).trans (abs_number_le h)
    _ < overflowBound := by
      rw [overflowBound_eq]
      exact mul_lt_mul_of_pos_right (by norm_num) (two_zpow_pos 971)

theorem ofMagnitude_eq_infinity_iff (hv : 0 ≤ v) :
    ofMagnitude false v = infinity ↔ overflowBound ≤ v := by
  rw [← nearestDatum_eq_infinity_iff hv, ← datum_ofMagnitude false hv]
  exact ⟨fun h => h ▸ datum_infinity, fun h => datum_injective (h.trans datum_infinity.symm)⟩

/-- A magnitude below the bound of overflow is rounded to a number. -/
theorem exists_number_ofMagnitude (hv : 0 ≤ v) (h : v < overflowBound) :
    ∃ q, number? (ofMagnitude false v) = some q := by
  rcases nearestDatum_cases false v with hd | ⟨m, k, hd⟩
  · exact absurd ((nearestDatum_eq_infinity_iff hv).mp hd) (not_le.mpr h)
  · rw [← datum_ofMagnitude false hv] at hd
    exact ⟨_, number?_of_datum hd⟩

/-! ## Products and quotients of positive numbers -/

theorem exists_datum_of_pos (h : number? x = some q) (hq : 0 < q) :
    ∃ m k, datum x = .finite false m k ∧ 0 < m ∧ (m * 2 ^ k : ℚ) = q := by
  obtain ⟨negative, m, k, hd, rfl⟩ := exists_datum h
  cases negative with
  | false =>
    refine ⟨m, k, hd, Nat.pos_of_ne_zero fun hzero => ?_, rfl⟩
    rw [hzero, signedNumber_zero] at hq
    exact lt_irrefl 0 hq
  | true => exact absurd hq (not_lt.mpr (neg_nonpos_of_nonneg (magnitude_nonneg m k)))

theorem eq_ofMagnitude (h : number? x = some q) (hq : 0 < q) : x = ofMagnitude false q := by
  obtain ⟨m, k, hd, -, rfl⟩ := exists_datum_of_pos h hq
  exact (ofMagnitude_exact hd).symm

/-- The product of positive numbers is the value nearest to the exact one. -/
theorem mul_of_pos (hx : number? x = some p) (hy : number? y = some q) (hp : 0 < p) (hq : 0 < q) :
    x * y = ofMagnitude false (p * q) := by
  obtain ⟨m, j, hdx, -, rfl⟩ := exists_datum_of_pos hx hp
  obtain ⟨n, k, hdy, -, rfl⟩ := exists_datum_of_pos hy hq
  exact mul_finite hdx hdy

/-- So is their quotient. -/
theorem div_of_pos (hx : number? x = some p) (hy : number? y = some q) (hp : 0 < p) (hq : 0 < q) :
    x / y = ofMagnitude false (p / q) := by
  obtain ⟨m, j, hdx, -, rfl⟩ := exists_datum_of_pos hx hp
  obtain ⟨n, k, hdy, hn, rfl⟩ := exists_datum_of_pos hy hq
  exact div_finite hdx hdy hn

/-- A positive factor leaves infinity as it is. -/
theorem infinity_mul_of_pos (hy : number? y = some q) (hq : 0 < q) : infinity * y = infinity := by
  obtain ⟨n, k, hd, hn, rfl⟩ := exists_datum_of_pos hy hq
  rw [infinity_mul datum_infinity hd hn, infinity_eq]

/-! ## Order -/

/-- No value is closer to a magnitude than the one that it is rounded to. -/
theorem abs_sub_le_of_number (hv : 0 ≤ v) (hp : number? (ofMagnitude false v) = some p)
    (hy : number? y = some q) : |p - v| ≤ |q - v| := by
  have hnearest := isNearest_ofMagnitude hv
  obtain ⟨negative, m, k, hd, rfl⟩ := exists_datum hp
  rw [IsNearest, hd] at hnearest
  obtain ⟨rfl, -, hclosest⟩ := hnearest
  rcases hclosest y q hy with hlt | ⟨heq, -⟩
  · exact hlt.le
  · exact heq.le

/-- A greater magnitude is not rounded to a smaller number. -/
theorem ofMagnitude_mono (hv : 0 ≤ v) (h : v ≤ w) (hp : number? (ofMagnitude false v) = some p)
    (hq : number? (ofMagnitude false w) = some q) : p ≤ q := by
  rcases h.eq_or_lt with rfl | hlt
  · exact (Option.some.inj (hp.symm.trans hq)).le
  by_contra! hqp
  have hdv := abs_sub_le_of_number hv hp hq
  have hdw := abs_sub_le_of_number (hv.trans h) hq hp
  -- the greater number would be closer to the greater magnitude
  have hcross := mul_pos (sub_pos.mpr hqp) (sub_pos.mpr hlt)
  rw [← sq_le_sq] at hdv hdw
  linarith

/-- A magnitude above a number is not rounded to less than it. -/
theorem le_of_le_magnitude (hx : number? x = some p) (hp : 0 < p) (h : p ≤ v)
    (hq : number? (ofMagnitude false v) = some q) : p ≤ q :=
  ofMagnitude_mono hp.le h (eq_ofMagnitude hx hp ▸ hx) hq

/-! ## Relative error -/

/-- Half of the last of 53 bits. -/
def unitRoundoff : ℚ := 1 / 2 ^ 53

/-- Rounding takes away less than half of the last place. -/
theorem one_sub_unitRoundoff_mul_le (hv : 1 ≤ v) (hq : number? (ofMagnitude false v) = some q) :
    (1 - unitRoundoff) * v ≤ q := by
  have hv' : 0 ≤ v := zero_le_one.trans hv
  have hone : 1 ≤ q := le_of_le_magnitude number?_one one_pos hv hq
  obtain ⟨m, k, hd, -, rfl⟩ := exists_datum_of_pos hq (one_pos.trans_le hone)
  have hc := canonical_of_datum hd
  rw [datum_ofMagnitude false hv'] at hd
  have hhigh := (cell_of_nearestDatum hv' hd).high
  have hp := two_zpow_pos k
  have hm : (m : ℚ) < 2 ^ 53 := by exact_mod_cast hc.significand_lt
  -- a number from 1 on has all its bits
  have hbits : (2 : ℚ) ^ 52 ≤ m := by
    have hnormal : 2 ^ 52 ≤ m := by
      refine hc.normal.resolve_left ?_
      rintro rfl
      have hsmall := mul_lt_mul_of_pos_right hm hp
      have hle : (2 : ℚ) ^ (-1074 : ℤ) ≤ 2 ^ (-53 : ℤ) :=
        zpow_le_zpow_right₀ (by norm_num) (by norm_num)
      have hone' : (2 : ℚ) ^ 53 * 2 ^ (-53 : ℤ) = 1 := by norm_num
      linarith
    exact_mod_cast hnormal
  have hplace : 2 ^ 52 * (2 : ℚ) ^ k ≤ m * 2 ^ k := mul_le_mul_of_nonneg_right hbits hp.le
  have hq' := magnitude_nonneg m k
  unfold unitRoundoff
  linarith

/-- A product of numbers from 1 on is infinite, or a number that is not less than the first factor
and not much less than the exact product. -/
theorem mul_eq_infinity_or (hx : number? x = some p) (hy : number? y = some q) (hp : 1 ≤ p)
    (hq : 1 ≤ q) : x * y = infinity ∨
      ∃ r, number? (x * y) = some r ∧ p ≤ r ∧ (1 - unitRoundoff) * (p * q) ≤ r := by
  have hp' : 0 < p := one_pos.trans_le hp
  have hle : p ≤ p * q := le_mul_of_one_le_right hp'.le hq
  rw [mul_of_pos hx hy hp' (one_pos.trans_le hq)]
  rcases le_or_gt overflowBound (p * q) with hlarge | hsmall
  · exact .inl ((ofMagnitude_eq_infinity_iff (hp'.le.trans hle)).mpr hlarge)
  · obtain ⟨r, hr⟩ := exists_number_ofMagnitude (hp'.le.trans hle) hsmall
    exact .inr ⟨r, hr, le_of_le_magnitude hx hp' hle hr,
      one_sub_unitRoundoff_mul_le (hp.trans hle) hr⟩

/-- A quotient that is not below 1 is a number not much less than the exact one. -/
theorem exists_number_div (hx : number? x = some p) (hy : number? y = some q) (hq : 1 ≤ q)
    (hqp : q ≤ p) : ∃ r, number? (x / y) = some r ∧ 1 ≤ r ∧ (1 - unitRoundoff) * (p / q) ≤ r := by
  have hq' : 0 < q := one_pos.trans_le hq
  have hp' : 0 < p := hq'.trans_le hqp
  have hone : 1 ≤ p / q := (one_le_div hq').mpr hqp
  obtain ⟨r, hr⟩ := exists_number_ofMagnitude (zero_le_one.trans hone)
    ((div_le_self hp'.le hq).trans_lt (lt_overflowBound hx))
  rw [div_of_pos hx hy hp' hq']
  exact ⟨r, hr, le_of_le_magnitude number?_one one_pos hone hr, one_sub_unitRoundoff_mul_le hone hr⟩

/-! ## Natural numbers -/

theorem isNearest_ofNat (n : ℕ) : IsNearest (Float.ofNat n) n := by
  rw [ofNat_eq]
  exact isNearest_ofMagnitude (Nat.cast_nonneg n)

theorem two_pow_le_overflowBound : 2 ^ 1023 ≤ overflowBound := by
  have hgap : (2 : ℚ) ^ 970 ≤ 2 ^ 1023 := pow_le_pow_right₀ (by norm_num) (by norm_num)
  have htop : (2 : ℚ) ^ 1024 = 2 * 2 ^ 1023 := pow_succ' 2 1023
  rw [overflowBound, htop, le_sub_iff_add_le, two_mul]
  exact add_le_add le_rfl hgap

/-- Positive natural numbers in range are rounded to numbers from 1 on. -/
theorem exists_number_ofNat (hpos : 0 < n) (hn : n < 2 ^ 1023) :
    ∃ q, number? (Float.ofNat n) = some q ∧ 1 ≤ q ∧ (1 - unitRoundoff) * n ≤ q := by
  have hone : (1 : ℚ) ≤ n := by exact_mod_cast hpos
  have hlt : (n : ℚ) < overflowBound :=
    lt_of_lt_of_le (by exact_mod_cast hn) two_pow_le_overflowBound
  obtain ⟨q, hq⟩ := exists_number_ofMagnitude (Nat.cast_nonneg n) hlt
  rw [ofNat_eq]
  exact ⟨q, hq, le_of_le_magnitude number?_one one_pos hone hq, one_sub_unitRoundoff_mul_le hone hq⟩

/-- Natural numbers up to `2^53` are values. -/
theorem number?_ofNat (hn : n ≤ 2 ^ 53) : number? (Float.ofNat n) = some (n : ℚ) := by
  have hvalue : (n * 2 ^ (0 : ℤ) : ℚ) = n := by rw [zpow_zero, mul_one]
  have hrange : (n * 2 ^ (0 : ℤ) : ℚ) < 2 ^ 1024 :=
    calc (n * 2 ^ (0 : ℤ) : ℚ) = n := hvalue
      _ ≤ 2 ^ 53 := by exact_mod_cast hn
      _ < 2 ^ 1024 := pow_lt_pow_right₀ (by norm_num) (by norm_num)
  have hnumber := number?_ofMagnitude hn (by norm_num) hrange
  rwa [hvalue, ← ofNat_eq] at hnumber

end Calculator.Binary64
