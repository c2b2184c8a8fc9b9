import Calculator.Proofs.Binary64.Rounding

/-!
# Products and quotients

The product and the quotient of two numbers come with enough bits to be rounded once, so each of
them is the value nearest to the exact one.

Results:
* `mul_finite`: a product is the value nearest to the exact product.
* `div_finite`: so is a quotient by a divisor other than zero.
-/

namespace Calculator.Binary64

open Float.Model Float.Model.UnpackedFloat

theorem sign_mul (a b : Bool) : Datum.sign a * Datum.sign b = Datum.sign (a != b) := by
  cases a <;> cases b <;> rfl

theorem sign_div (a b : Bool) : Datum.sign a / Datum.sign b = Datum.sign (a != b) := by
  cases a <;> cases b <;> rfl

/-- A number of 53 bits has its last place at the last of them. -/
theorem le_lastPlace_of_le {v : ℚ} {k : ℤ} (h : 2 ^ 52 * 2 ^ k ≤ v) : k ≤ lastPlace v := by
  have hv : 0 < v := lt_of_lt_of_le (mul_pos (by norm_num) (two_zpow_pos k)) h
  rw [← two_zpow_add] at h
  have hlog := (Int.zpow_le_iff_le_log (b := 2) (by norm_num) hv).mp (by exact_mod_cast h)
  unfold lastPlace
  omega

theorem ofDatum_zero (negative : Bool) (k : ℤ) :
    ofDatum (.finite negative 0 k) = ofMagnitude negative 0 := by
  rw [ofMagnitude, nearestDatum_zero]
  rfl

variable {m n : ℕ} {j k : ℤ}

/-! ## Products -/

/-- The product of two positive numbers, which is exact before it is rounded. -/
theorem pack_mul (a b : Bool) (hm : 0 < m) (hn : 0 < n)
    (h : j + k ≤ lastPlace ((m * 2 ^ j) * (n * 2 ^ k))) :
    Float.ofModel (.pack (UnpackedFloat.mul Format.binary64 (.finite (Datum.sign a) m j hm)
      (.finite (Datum.sign b) n k hn))) = ofMagnitude (a != b) ((m * 2 ^ j) * (n * 2 ^ k)) := by
  have hm' : (0 : ℚ) < m := by exact_mod_cast hm
  have hn' : (0 : ℚ) < n := by exact_mod_cast hn
  have hj := two_zpow_pos j
  have hk := two_zpow_pos k
  rw [UnpackedFloat.mul, sign_mul]
  refine pack_roundWithAccuracy (by positivity) ?_ h
  have hexact : ((m * 2 ^ j) * (n * 2 ^ k)) / 2 ^ (j + k) = ((m * n : ℕ) : ℚ) := by
    rw [zpow_add₀ (by norm_num), div_eq_iff (by positivity)]
    push_cast
    ring
  rw [hexact]
  exact Represents.exact (m * n)

/-- Of two values whose exponents leave room below, one has all its bits. -/
theorem le_lastPlace_mul (hc : Canonical m j) (hd : Canonical n k) (hm : 0 < m) (hn : 0 < n) :
    j + k ≤ lastPlace ((m * 2 ^ j) * (n * 2 ^ k)) := by
  by_cases hlow : j + k ≤ -1074
  · exact le_trans hlow (le_lastPlace _)
  · have hbits : 2 ^ 52 ≤ m * n := by
      have hj := hc.normal
      have hk := hd.normal
      have hj' := hc.le_exponent
      have hk' := hd.le_exponent
      by_cases h : 2 ^ 52 ≤ m
      · exact le_trans h (Nat.le_mul_of_pos_right m hn)
      · exact le_trans (by omega) (Nat.le_mul_of_pos_left n hm)
    have hbits' : (2 : ℚ) ^ 52 ≤ m * n := by exact_mod_cast hbits
    refine le_lastPlace_of_le ?_
    have hjk : (0 : ℚ) < 2 ^ j * 2 ^ k := mul_pos (two_zpow_pos j) (two_zpow_pos k)
    calc (2 : ℚ) ^ 52 * 2 ^ (j + k) = 2 ^ 52 * (2 ^ j * 2 ^ k) := by rw [zpow_add₀ (by norm_num)]
      _ ≤ (m : ℚ) * n * (2 ^ j * 2 ^ k) := mul_le_mul_of_nonneg_right hbits' hjk.le
      _ = (m : ℚ) * 2 ^ j * (n * 2 ^ k) := by ring

theorem mul_eq (x y : Float) : x * y = Float.ofModel
    (.pack (UnpackedFloat.mul Format.binary64 (datum x).unpacked (datum y).unpacked)) := by
  rw [← unpack_eq, ← unpack_eq]
  rfl

/-- A product is the value nearest to the exact product. -/
theorem mul_finite {x y : Float} {a b : Bool} (hx : datum x = .finite a m j)
    (hy : datum y = .finite b n k) :
    x * y = ofMagnitude (a != b) ((m * 2 ^ j) * (n * 2 ^ k)) := by
  rw [mul_eq, hx, hy]
  rcases Nat.eq_zero_or_pos m with rfl | hm
  · rw [Nat.cast_zero, zero_mul, zero_mul, ← ofDatum_zero (a != b) 0, ofDatum,
      Datum.unpacked_zero, Datum.unpacked_zero, ← sign_mul]
    rcases Nat.eq_zero_or_pos n with rfl | hn
    · rfl
    · rw [Datum.unpacked_finite hn]
      rfl
  · rcases Nat.eq_zero_or_pos n with rfl | hn
    · rw [Nat.cast_zero, zero_mul, mul_zero, ← ofDatum_zero (a != b) 0, ofDatum,
        Datum.unpacked_zero, Datum.unpacked_finite hm, Datum.unpacked_zero, ← sign_mul]
      rfl
    · rw [Datum.unpacked_finite hm, Datum.unpacked_finite hn]
      exact pack_mul a b hm hn
        (le_lastPlace_mul (canonical_of_datum hx) (canonical_of_datum hy) hm hn)

/-! ## Quotients -/

/-- The place that a quotient is computed to is at most its last place. -/
theorem le_lastPlace_div (hm : 0 < m) (hn : 0 < n) :
    Format.binary64.targetExponent (totalExponent m j - totalExponent n k) ≤
      lastPlace ((m * 2 ^ j) / (n * 2 ^ k)) := by
  have hm' : (0 : ℚ) < m := by exact_mod_cast hm
  have hn' : (0 : ℚ) < n := by exact_mod_cast hn
  have hj := two_zpow_pos j
  have hk := two_zpow_pos k
  have hlow : (2 : ℚ) ^ m.log2 ≤ m := by exact_mod_cast Nat.log2_self_le (Nat.ne_of_gt hm)
  have hhigh : (n : ℚ) ≤ 2 ^ (n.log2 + 1) := by exact_mod_cast (Nat.lt_log2_self (n := n)).le
  have hv : 0 < (m * 2 ^ j : ℚ) / (n * 2 ^ k) := by positivity
  have hle : (2 : ℚ) ^ ((m.log2 : ℤ) + j - ((n.log2 : ℤ) + 1 + k)) ≤ (m * 2 ^ j) / (n * 2 ^ k) := by
    rw [zpow_sub₀ (by norm_num), zpow_add₀ (by norm_num), zpow_add₀ (by norm_num), zpow_natCast,
      show ((n.log2 : ℤ) + 1) = ((n.log2 + 1 : ℕ) : ℤ) by push_cast; rfl, zpow_natCast]
    gcongr
  have hlog := (Int.zpow_le_iff_le_log (b := 2) (by norm_num) hv).mp (by exact_mod_cast hle)
  rw [targetExponent_eq, totalExponent, totalExponent]
  unfold lastPlace
  omega

/-- The quotient of two positive numbers, computed with a remainder before it is rounded. -/
theorem pack_div (a b : Bool) (hm : 0 < m) (hn : 0 < n) :
    Float.ofModel (.pack (UnpackedFloat.div Format.binary64 (.finite (Datum.sign a) m j hm)
      (.finite (Datum.sign b) n k hn))) = ofMagnitude (a != b) ((m * 2 ^ j) / (n * 2 ^ k)) := by
  have hm' : (0 : ℚ) < m := by exact_mod_cast hm
  have hn' : (0 : ℚ) < n := by exact_mod_cast hn
  have hj := two_zpow_pos j
  have hk := two_zpow_pos k
  obtain ⟨place, hplace⟩ : ∃ place, place = min (j - k)
      (Format.binary64.targetExponent (totalExponent m j - totalExponent n k)) := ⟨_, rfl⟩
  rw [UnpackedFloat.div, divCore, ← hplace, sign_div]
  dsimp only
  refine pack_roundWithAccuracy (by positivity) ?_ ?_
  · have hquotient : ((m * 2 ^ j) / (n * 2 ^ k)) / 2 ^ place =
        ((m <<< (j - k - place).toNat : ℕ) : ℚ) / n := by
      have hshift : ((j - k - place).toNat : ℤ) = j - k - place := by omega
      rw [Nat.shiftLeft_eq]
      push_cast
      rw [← zpow_natCast, hshift, zpow_sub₀ (by norm_num), zpow_sub₀ (by norm_num)]
      field_simp
    rw [hquotient]
    exact Represents.fraction _ n hn
  · exact le_trans (by omega) (le_lastPlace_div hm hn)

/-- A quotient is the value nearest to the exact quotient. -/
theorem div_finite {x y : Float} {a b : Bool} (hx : datum x = .finite a m j)
    (hy : datum y = .finite b n k) (hn : 0 < n) :
    x / y = ofMagnitude (a != b) ((m * 2 ^ j) / (n * 2 ^ k)) := by
  have hdiv : x / y = Float.ofModel
      (.pack (UnpackedFloat.div Format.binary64 (datum x).unpacked (datum y).unpacked)) := by
    rw [← unpack_eq, ← unpack_eq]
    rfl
  rw [hdiv, hx, hy, Datum.unpacked_finite hn]
  rcases Nat.eq_zero_or_pos m with rfl | hm
  · rw [Nat.cast_zero, zero_mul, zero_div, ← ofDatum_zero (a != b) 0, ofDatum,
      Datum.unpacked_zero, Datum.unpacked_zero, ← sign_div]
    rfl
  · rw [Datum.unpacked_finite hm]
    exact pack_div a b hm hn

end Calculator.Binary64
