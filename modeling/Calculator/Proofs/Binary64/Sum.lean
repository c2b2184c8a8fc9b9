import Calculator.Proofs.Binary64.Closest

/-!
# Sums, and what is done with infinity

Results:
* `add_finite`: the sum of two numbers that are not negative is the value nearest to the exact one.
* `infinity_mul`, `infinity_add`: a product or a sum that begins with infinity is infinite.
* `ofMagnitude_units`: a magnitude is rounded as the nearest multiple of its last place is.
* `datum_ofNat`: a natural number of 53 bits times a power of two is a value or out of range.
-/

namespace Calculator.Binary64

open Float.Model Float.Model.UnpackedFloat

variable {x y : Float} {m n : ℕ} {j k : ℤ} {v : ℚ}

/-! ## Sums -/

theorem add_eq (x y : Float) : x + y = Float.ofModel
    (.pack (UnpackedFloat.add Format.binary64 (datum x).unpacked (datum y).unpacked)) := by
  rw [← unpack_eq, ← unpack_eq]
  rfl

/-- The sum of two positive numbers, which is exact before it is rounded. -/
theorem pack_add (hm : 0 < m) (hn : 0 < n) :
    Float.ofModel (.pack (UnpackedFloat.add Format.binary64 (.finite (Datum.sign false) m j hm)
      (.finite (Datum.sign false) n k hn))) = ofMagnitude false (m * 2 ^ j + n * 2 ^ k) := by
  obtain ⟨e, he⟩ : ∃ e, min j k = e := ⟨_, rfl⟩
  have hj := decreaseExponent_eq (m := m) (he ▸ min_le_left j k)
  have hk := decreaseExponent_eq (m := n) (he ▸ min_le_right j k)
  show Float.ofModel (.pack (UnpackedFloat.normalize Format.binary64
    ((Datum.sign false).apply (decreaseExponent m j (min j k)).1 +
      (Datum.sign false).apply (decreaseExponent n k (min j k)).1) (min j k) .positive)) = _
  rw [he, apply_sign, apply_sign, if_neg Bool.false_ne_true, if_neg Bool.false_ne_true]
  generalize (decreaseExponent m j e).1 = m' at *
  generalize (decreaseExponent n k e).1 = n' at *
  -- the sum of the integers at the common place is the exact one
  have hexact : (((m' + n' : ℤ) : ℚ) * 2 ^ e) = m * 2 ^ j + n * 2 ^ k := by
    rw [← hj, ← hk]
    push_cast
    ring
  have hpos : (0 : ℤ) < m' + n' := by
    have hsum : (0 : ℚ) < ((m' + n' : ℤ) : ℚ) * 2 ^ e := by
      rw [hexact]
      exact add_pos (magnitude_pos hm) (magnitude_pos hn)
    exact_mod_cast pos_of_mul_pos_left hsum (two_zpow_pos e).le
  rw [pack_normalize hpos.ne', decide_eq_false hpos.not_gt, abs_of_pos (by exact_mod_cast hpos),
    hexact]

/-- A sum of numbers that are not negative is the value nearest to the exact one. -/
theorem add_finite (hx : datum x = .finite false m j) (hy : datum y = .finite false n k) :
    x + y = ofMagnitude false (m * 2 ^ j + n * 2 ^ k) := by
  rw [add_eq, hx, hy]
  rcases Nat.eq_zero_or_pos m with rfl | hm <;> rcases Nat.eq_zero_or_pos n with rfl | hn
  · rw [Nat.cast_zero, zero_mul, zero_mul, add_zero, ← ofDatum_zero false 0]
    rfl
  · rw [Datum.unpacked_zero, Datum.unpacked_finite hn, Nat.cast_zero, zero_mul, zero_add]
    exact pack_unpacked false (canonical_of_datum hy) hn
  · rw [Datum.unpacked_zero, Datum.unpacked_finite hm, Nat.cast_zero, zero_mul, add_zero]
    exact pack_unpacked false (canonical_of_datum hx) hm
  · rw [Datum.unpacked_finite hm, Datum.unpacked_finite hn]
    exact pack_add hm hn

/-! ## Infinity -/

theorem infinity_mul {negative : Bool} (hx : datum x = .infinity negative)
    (hy : datum y = .finite false n k) (hn : 0 < n) : x * y = ofDatum (.infinity negative) := by
  rw [mul_eq, hx, hy, Datum.unpacked_finite hn]
  cases negative <;> rfl

theorem infinity_add {negative : Bool} (hx : datum x = .infinity false)
    (hy : datum y = .finite negative n k) : x + y = ofDatum (.infinity false) := by
  rw [add_eq, hx, hy]
  rcases Nat.eq_zero_or_pos n with rfl | hn
  · rfl
  · rw [Datum.unpacked_finite hn]
    rfl

/-! ## Multiples of the last place -/

/-- A significand of 53 bits above the range of the exponents is out of range. -/
theorem le_of_exponent (hm : 2 ^ 52 ≤ m) (hk : 971 < k) : (2 : ℚ) ^ 1024 ≤ m * 2 ^ k := by
  have htop : (2 : ℚ) ^ 1024 = 2 ^ 52 * 2 ^ (972 : ℤ) := two_zpow_add 52 972
  rw [htop]
  exact mul_le_mul (by exact_mod_cast hm) (zpow_le_zpow_right₀ (by norm_num) hk)
    (two_zpow_pos _).le (Nat.cast_nonneg m)

/-- A magnitude is rounded as the nearest multiple of its last place is. -/
theorem ofMagnitude_units (hv : 0 < v) :
    ofMagnitude false v =
      ofMagnitude false (nearestEven (v / 2 ^ lastPlace v) * 2 ^ lastPlace v) := by
  have hcanonical := nearestDatum_canonical false hv.le
  have hunit := two_zpow_pred (lastPlace v + 1)
  have hnormal := le_nearestEven_lastPlace hv
  rw [ofMagnitude, ofMagnitude, nearestDatum, if_neg hv.ne']
  rw [nearestDatum, if_neg hv.ne'] at hcanonical
  rw [Int.add_sub_cancel] at hunit
  generalize nearestEven (v / 2 ^ lastPlace v) = rounded at *
  generalize lastPlace v = l at *
  have hcarried (h : rounded = 2 ^ 53) : (rounded * 2 ^ l : ℚ) = (2 ^ 52 : ℕ) * 2 ^ (l + 1) := by
    rw [h, hunit]
    push_cast
    ring
  dsimp only at hcanonical ⊢
  split_ifs at hcanonical ⊢ with hcarry hover hover
  · rw [hcarried hcarry, nearestDatum_of_le (le_of_exponent le_rfl (by omega))]
  · rw [hcarried hcarry, nearestDatum_exact hcanonical]
  · rw [nearestDatum_of_le (le_of_exponent (hnormal (by omega)) hover)]
  · rw [nearestDatum_exact hcanonical]

/-! ## Natural numbers -/

theorem ofNat_of_le {n : ℕ} (h : 2 ^ 1024 ≤ n) : Float.ofNat n = ofDatum (.infinity false) := by
  rw [ofNat_eq, ofMagnitude_of_le (by exact_mod_cast h)]

theorem datum_ofNat_of_le {n : ℕ} (h : 2 ^ 1024 ≤ n) :
    datum (Float.ofNat n) = .infinity false := by
  rw [ofNat_of_le h]
  exact datum_ofDatum trivial

/-- A natural number of at most 53 bits times a power of two is a value, or out of range. -/
theorem datum_ofNat {k : ℕ} (hm : m < 2 ^ 53) :
    (∃ n j, datum (Float.ofNat (m * 2 ^ k)) = .finite false n j ∧
      (n * 2 ^ j : ℚ) = (m * 2 ^ k : ℕ)) ∨ 2 ^ 1024 ≤ m * 2 ^ k := by
  rcases lt_or_ge (m * 2 ^ k) (2 ^ 1024) with h | h
  · have hcast : ((m * 2 ^ k : ℕ) : ℚ) = m * 2 ^ (k : ℤ) := by
      rw [zpow_natCast]
      push_cast
      rfl
    have hrange : (m * 2 ^ (k : ℤ) : ℚ) < 2 ^ 1024 := by
      rw [← hcast]
      exact_mod_cast h
    obtain ⟨n, j, hc, hvalue⟩ := exists_canonical_mul hm (by omega) hrange
    refine .inl ⟨n, j, ?_, hvalue.trans hcast.symm⟩
    rw [ofNat_eq, hcast, ← hvalue, datum_ofMagnitude false (magnitude_nonneg n j),
      nearestDatum_exact hc]
  · exact .inr h

end Calculator.Binary64
