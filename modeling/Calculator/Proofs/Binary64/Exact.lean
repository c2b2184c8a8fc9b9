import Calculator.Proofs.Binary64.Accumulation
import Calculator.Proofs.Binary64.Bounds

/-!
# Operations that do not round

A value is read back from its pattern, powers of two are values, and a result that is a value is
the exact one.

Results:
* `ofBits_toBits`: the value of the pattern of a value is that value.
* `datum_twoPow`: the powers of two in the range of the exponents are values.
* `signBit_ofMagnitude`, `abs_ofMagnitude`: the sign of a rounded magnitude.
* `datum_ofMagnitude_exact`: a result of 53 bits in the range of the exponents is not rounded.
* `datum_copySign`: what changes with the sign of another value.
* `sub_of_le`: the difference of a magnitude and one that is not greater.
-/

namespace Calculator.Binary64

variable {x y : Float} {a b : Bool} {m n : ℕ} {j k : ℤ} {v : ℚ}

/-! ## Patterns -/

/-- The value of the pattern of a value is that value. -/
theorem ofBits_toBits (x : Float) : Float.ofBits x.toBits = x := by
  show Float.ofModel (.pack x.toModel.unpack) = x
  rw [unpack_eq]
  exact ofDatum_datum x

theorem ofBits_of_toNat {bits : ℕ} (h : x.toBits.toNat = bits) :
    Float.ofBits (UInt64.ofNat bits) = x := by
  rw [← h, UInt64.ofNat_toNat, ofBits_toBits]

/-! ## Powers of two -/

/-- The pattern of a positive value: the exponent above the fraction. -/
theorem toBits_ofDatum (hc : Canonical m k) (hm : 0 < m) :
    (ofDatum (.finite false m k)).toBits.toNat =
      (if 2 ^ 52 ≤ m then (k + 1075).toNat else 0) * 2 ^ 52 + m % 2 ^ 52 := by
  rw [ofDatum, toBits_ofModel, Datum.unpacked_finite hm, pack_finite_toNat hm hc, toNat_sign]
  exact congrArg (· + _) (Nat.zero_add _)

/-- The powers of two in the range of the exponents are values. -/
theorem datum_twoPow (hlow : -1074 ≤ k) (hhigh : k ≤ 1023) :
    ∃ n j, datum (twoPow k) = .finite false n j ∧ (n * 2 ^ j : ℚ) = 2 ^ k := by
  unfold twoPow
  split_ifs with hk
  · have hc : (Datum.finite false (2 ^ 52) (k - 52)).Canonical :=
      ⟨by norm_num, by omega, by omega, .inr le_rfl⟩
    have hbits : (ofDatum (.finite false (2 ^ 52) (k - 52))).toBits.toNat =
        (k + 1023).toNat <<< 52 := by
      rw [toBits_ofDatum hc (by norm_num), if_pos le_rfl, Nat.shiftLeft_eq]
      omega
    refine ⟨2 ^ 52, k - 52, by rw [ofBits_of_toNat hbits, datum_ofDatum hc], ?_⟩
    rw [Nat.cast_pow, Nat.cast_ofNat, ← two_zpow_add, Nat.cast_ofNat, Int.sub_add_cancel]
  · obtain ⟨p, hp⟩ : ∃ p, (k + 1074).toNat = p := ⟨_, rfl⟩
    have hsmall : 2 ^ p < 2 ^ 52 := Nat.pow_lt_pow_right (by norm_num) (by omega)
    have hc : (Datum.finite false (2 ^ p) (-1074)).Canonical :=
      ⟨by omega, le_rfl, by norm_num, .inl rfl⟩
    have hbits : (ofDatum (.finite false (2 ^ p) (-1074))).toBits.toNat = 1 <<< p := by
      rw [toBits_ofDatum hc (Nat.two_pow_pos p), if_neg (by omega), Nat.shiftLeft_eq]
      omega
    refine ⟨2 ^ p, -1074, by rw [hp, ofBits_of_toNat hbits, datum_ofDatum hc], ?_⟩
    have hexponent : -1074 + (p : ℤ) = k := by omega
    rw [Nat.cast_pow, Nat.cast_ofNat, ← two_zpow_add, hexponent]

/-- A product with a power of two is rounded once. -/
theorem mul_twoPow (hx : datum x = .finite a m j) (hlow : -1074 ≤ k) (hhigh : k ≤ 1023) :
    x * twoPow k = ofMagnitude a (m * 2 ^ j * 2 ^ k) := by
  obtain ⟨n, i, hd, hvalue⟩ := datum_twoPow hlow hhigh
  rw [mul_finite hx hd, hvalue, Bool.bne_false]

/-! ## Signs -/

theorem nearestDatum_abs (a : Bool) (v : ℚ) : (nearestDatum a v).abs = nearestDatum false v := by
  unfold nearestDatum
  dsimp only
  split_ifs <;> rfl

theorem abs_ofMagnitude (a : Bool) (hv : 0 ≤ v) : (ofMagnitude a v).abs = ofMagnitude false v := by
  apply datum_injective
  rw [datum_abs, datum_ofMagnitude a hv, datum_ofMagnitude false hv, nearestDatum_abs]

theorem signBit_of_infinity (h : datum x = .infinity a) : signBit x = a := by
  rw [datum_eq] at h
  split_ifs at h
  exact Datum.infinity.inj h

theorem signBit_ofMagnitude (a : Bool) (hv : 0 ≤ v) : signBit (ofMagnitude a v) = a := by
  rcases nearestDatum_cases a v with h | ⟨m, k, h⟩
  · exact signBit_of_infinity ((datum_ofMagnitude a hv).trans h)
  · exact signBit_of_datum ((datum_ofMagnitude a hv).trans h)

theorem isNaN_ofMagnitude (a : Bool) (hv : 0 ≤ v) : (ofMagnitude a v).isNaN = false := by
  rw [isNaN_eq, datum_ofMagnitude a hv]
  rcases nearestDatum_cases a v with h | ⟨m, k, h⟩
  · rw [h]
    rfl
  · rw [h]
    rfl

/-- A value with the sign of another one. -/
theorem datum_copySign (hx : datum x = .finite a m k) (y : Float) :
    datum (copySign x y) = .finite (signBit y) m k := by
  have habs : datum x.abs = .finite false m k := by rw [datum_abs, hx, Datum.abs]
  unfold copySign withSign
  cases signBit y
  · exact habs
  · rw [if_pos rfl, datum_neg, habs]
    rfl

/-! ## Exact results -/

/-- A result of 53 bits in the range of the exponents is not rounded. -/
theorem datum_ofMagnitude_exact (a : Bool) (hm : m < 2 ^ 53) (hk : -1074 ≤ k)
    (h : (m * 2 ^ k : ℚ) < 2 ^ 1024) :
    ∃ n i, datum (ofMagnitude a (m * 2 ^ k)) = .finite a n i ∧ (n * 2 ^ i : ℚ) = m * 2 ^ k := by
  obtain ⟨n, i, hc, hvalue⟩ := exists_canonical_mul hm hk h
  refine ⟨n, i, ?_, hvalue⟩
  rw [← hvalue, datum_ofMagnitude a (magnitude_nonneg n i), nearestDatum_exact hc]

theorem magnitude_lt (hc : Canonical m k) : (m * 2 ^ k : ℚ) < 2 ^ 1024 := by
  have hm : (m : ℚ) < 2 ^ 53 := by exact_mod_cast hc.significand_lt
  have htop : (2 : ℚ) ^ 1024 = 2 ^ 53 * 2 ^ (971 : ℤ) := two_zpow_add 53 971
  rw [htop]
  exact mul_lt_mul hm (zpow_le_zpow_right₀ (by norm_num) hc.exponent_le) (two_zpow_pos k)
    (by norm_num)

/-- A significand that is not greater than that of a value in the same place is not rounded. -/
theorem datum_ofMagnitude_of_le (hc : Canonical m k) (hn : n ≤ m) :
    ∃ s i, datum (ofMagnitude false (n * 2 ^ k)) = .finite false s i ∧
      (s * 2 ^ i : ℚ) = n * 2 ^ k := by
  have hle : (n * 2 ^ k : ℚ) ≤ m * 2 ^ k :=
    mul_le_mul_of_nonneg_right (by exact_mod_cast hn) (two_zpow_pos k).le
  exact datum_ofMagnitude_exact false (hn.trans_lt hc.significand_lt) hc.le_exponent
    (hle.trans_lt (magnitude_lt hc))

/-- The difference of a magnitude and one that is not greater. -/
theorem sub_of_le (hx : datum x = .finite false m j) (hy : datum y = .finite false n k)
    (h : (n * 2 ^ k : ℚ) ≤ m * 2 ^ j) : x - y = ofMagnitude false (m * 2 ^ j - n * 2 ^ k) := by
  rcases h.eq_or_lt with heq | hlt
  · obtain ⟨rfl, rfl⟩ := canonical_unique (canonical_of_datum hy) (canonical_of_datum hx) heq
    rw [datum_injective (hy.trans hx.symm), sub_self_eq hx, sub_self]
  · exact sub_eq (number?_of_datum hx) (number?_of_datum hy) hlt

theorem half_mul_eq (hx : datum x = .finite a m j) : 0.5 * x = ofMagnitude a (m * 2 ^ j / 2) := by
  have hd : datum 0.5 = .finite false (2 ^ 52) (-53) := by rfl
  have hhalf : ((2 ^ 52 : ℕ) * 2 ^ (-53 : ℤ) : ℚ) = 1 / 2 := by norm_num
  rw [mul_finite hd hx, hhalf, Bool.false_bne, one_div_mul_eq_div]

theorem two_mul_eq (hx : datum x = .finite a m j) : 2.0 * x = ofMagnitude a (2 * (m * 2 ^ j)) := by
  have hd : datum 2.0 = .finite false (2 ^ 52) (-51) := by rfl
  have htwo : ((2 ^ 52 : ℕ) * 2 ^ (-51 : ℤ) : ℚ) = 2 := by norm_num
  rw [mul_finite hd hx, htwo, Bool.false_bne]

end Calculator.Binary64
