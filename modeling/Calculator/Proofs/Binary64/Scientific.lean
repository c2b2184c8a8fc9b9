import Calculator.Proofs.Binary64.Arithmetic
import Calculator.Decimal.Numeral

/-!
# Decimal numbers as values

Whatever way a decimal takes, through a product or a quotient of two exact values or through the
exact decimal itself, the result is the value nearest to it.

Results:
* `ofScientific_eq`: a decimal is read as the value nearest to it.
* `ofNat_eq`: so is a natural number.
* `Numeral.nearest_eq`: so is the decimal of a numeral, however large or small.
-/

namespace Calculator

namespace Binary64

open Float.Model Float.Model.UnpackedFloat

variable {m : ℕ} {e : ℤ}

/-! ## Natural numbers -/

theorem targetExponent_of_pos (hm : 0 < m) :
    Format.binary64.targetExponent (totalExponent m e) = lastPlace (m * 2 ^ e) := by
  have hvalue : (m * 2 ^ e : ℚ) / 2 ^ e = m := mul_div_cancel_right₀ _ (two_zpow_pos e).ne'
  have hlog := log_eq (v := m * 2 ^ e) hm hvalue.ge (by rw [hvalue]; linarith)
  rw [targetExponent_eq, totalExponent, lastPlace, hlog]
  omega

/-- A number of any length is rounded to the value nearest to it. -/
theorem pack_round (negative : Bool) (hm : 0 < m) :
    Float.ofModel (.pack (UnpackedFloat.round Format.binary64 (Datum.sign negative) m e)) =
      ofMagnitude negative (m * 2 ^ e) := by
  have hm' : (0 : ℚ) < m := by exact_mod_cast hm
  have he := two_zpow_pos e
  rw [UnpackedFloat.round, targetExponent_of_pos hm, decreaseExponent]
  dsimp only
  obtain ⟨shift, hshift⟩ : ∃ shift, shift = (e - lastPlace (m * 2 ^ e)).toNat := ⟨_, rfl⟩
  rw [← hshift]
  refine pack_roundWithAccuracy (by positivity) ?_ (by omega)
  have hexact : (m * 2 ^ e : ℚ) / 2 ^ (e - shift) = ((m <<< shift : ℕ) : ℚ) := by
    rw [zpow_sub₀ (by norm_num), zpow_natCast, Nat.shiftLeft_eq]
    push_cast
    field_simp
  rw [hexact]
  exact Represents.exact _

/-- A natural number of at most 53 bits is the number of a value. -/
theorem exists_canonical (h : m < 2 ^ 53) : ∃ n k, Canonical n k ∧ (n * 2 ^ k : ℚ) = m := by
  rcases Nat.eq_zero_or_pos m with rfl | hm
  · exact ⟨0, -1074, ⟨by norm_num, le_rfl, by norm_num, .inl rfl⟩, by simp⟩
  have hlog : m.log2 < 53 := (Nat.log2_lt (Nat.ne_of_gt hm)).mpr h
  have hlow := Nat.log2_self_le (Nat.ne_of_gt hm)
  have hhigh := Nat.lt_log2_self (n := m)
  refine ⟨m * 2 ^ (52 - m.log2), (m.log2 : ℤ) - 52, ⟨?_, by omega, by omega, .inr ?_⟩, ?_⟩
  · calc m * 2 ^ (52 - m.log2) < 2 ^ (m.log2 + 1) * 2 ^ (52 - m.log2) :=
          Nat.mul_lt_mul_of_pos_right hhigh (Nat.two_pow_pos _)
      _ = 2 ^ 53 := by rw [← pow_add]; congr 1; omega
  · calc 2 ^ 52 = 2 ^ m.log2 * 2 ^ (52 - m.log2) := by rw [← pow_add]; congr 1; omega
      _ ≤ m * 2 ^ (52 - m.log2) := Nat.mul_le_mul_right _ hlow
  · push_cast
    rw [mul_assoc, ← zpow_natCast, ← zpow_add₀ (by norm_num),
      show ((52 - m.log2 : ℕ) : ℤ) + ((m.log2 : ℤ) - 52) = 0 by omega, zpow_zero, mul_one]

/-- A natural number of at most 53 bits is converted without rounding. -/
theorem datum_toFloat (h : m < 2 ^ 53) :
    ∃ n k, datum m.toUInt64.toFloat = .finite false n k ∧ (n * 2 ^ k : ℚ) = m := by
  obtain ⟨n, k, hc, hvalue⟩ := exists_canonical h
  refine ⟨n, k, ?_, hvalue⟩
  have hmod : m.toUInt64.toNat = m := by
    show m % 2 ^ 64 = m
    omega
  rw [← nearestDatum_exact hc false, hvalue, ← datum_ofMagnitude false (Nat.cast_nonneg m)]
  congr 1
  show Float.ofModel
    (.pack (UnpackedFloat.normalize Format.binary64 m.toUInt64.toNat 0 .positive)) = _
  rw [hmod]
  rcases Nat.eq_zero_or_pos m with rfl | hm
  · rw [Nat.cast_zero (R := ℚ), ← ofDatum_zero false 0]
    rfl
  · have hround := pack_round (e := 0) false hm
    rw [zpow_zero, mul_one] at hround
    rw [UnpackedFloat.normalize, Int.compare_eq_gt.mpr (by omega : (0 : ℤ) < m)]
    exact hround

/-! ## Powers of ten -/

/-- Whether a datum is that of a natural number. -/
def Datum.isNat (n : ℕ) : Datum → Bool
  | .finite false m k => m * 2 ^ k.toNat == n * 2 ^ (-k).toNat
  | _ => false

theorem two_zpow_toNat (k : ℤ) : (2 : ℚ) ^ k = 2 ^ k.toNat / 2 ^ (-k).toNat := by
  rw [← zpow_natCast, ← zpow_natCast, ← zpow_sub₀ (by norm_num)]
  congr 1
  omega

theorem Datum.eq_of_isNat {n : ℕ} {d : Datum} (h : d.isNat n = true) :
    ∃ m k, d = .finite false m k ∧ (m * 2 ^ k : ℚ) = n := by
  unfold Datum.isNat at h
  split at h
  · next m k =>
    have hnat : m * 2 ^ k.toNat = n * 2 ^ (-k).toNat := beq_iff_eq.mp h
    have hrat : (m : ℚ) * 2 ^ k.toNat = n * 2 ^ (-k).toNat := by exact_mod_cast hnat
    refine ⟨m, k, rfl, ?_⟩
    rw [two_zpow_toNat, ← mul_div_assoc, hrat, mul_div_cancel_right₀ _ (by positivity)]
  · cases h

theorem datum_powerOfTen (i : Fin 23) :
    ∃ m k, datum (Float.exactlyRepresentablePowersOfTen[i]) = .finite false m k ∧
      (m * 2 ^ k : ℚ) = 10 ^ (i : ℕ) := by
  have hall : ∀ i : Fin 23,
      (datum (Float.exactlyRepresentablePowersOfTen[i])).isNat (10 ^ (i : ℕ)) = true := by
    decide +kernel
  obtain ⟨m, k, hd, hvalue⟩ := Datum.eq_of_isNat (hall i)
  exact ⟨m, k, hd, by rw [hvalue]; push_cast; rfl⟩

/-! ## Decimals -/

theorem ofMagnitude_of_le {v : ℚ} (h : 2 ^ 1024 ≤ v) (negative : Bool) :
    ofMagnitude negative v = ofDatum (.infinity negative) := by
  rw [ofMagnitude, nearestDatum_of_le h]

theorem ofMagnitude_of_lt {v : ℚ} (hv : 0 ≤ v) (h : v < 2 ^ (-1075 : ℤ)) (negative : Bool) :
    ofMagnitude negative v = ofMagnitude negative 0 := by
  rw [ofMagnitude, nearestDatum_of_lt hv h, ofDatum_zero]

/-- What is multiplied by a large power of ten is past every value. -/
theorem le_mul_ten_pow {p : ℕ} (hm : 0 < m) (hp : 1024 ≤ p) : (2 : ℚ) ^ 1024 ≤ m * 10 ^ p := by
  have hm' : (1 : ℚ) ≤ m := by exact_mod_cast hm
  calc (2 : ℚ) ^ 1024 ≤ 2 ^ p := pow_le_pow_right₀ (by norm_num) hp
    _ ≤ 10 ^ p := pow_le_pow_left₀ (by norm_num) (by norm_num) p
    _ ≤ m * 10 ^ p := le_mul_of_one_le_left (by positivity) hm'

/-- What is divided by a power of ten that is large for its bits is nearer to zero than to every
    other value. -/
theorem mul_ten_zpow_lt {e : ℤ} (he : e < 0) (h : (m.log2 : ℤ) + 1 + e ≤ -1075) :
    (m : ℚ) * 10 ^ e < 2 ^ (-1075 : ℤ) := by
  have hten : (0 : ℚ) < 10 ^ e := zpow_pos (by norm_num) e
  have hbits : (m : ℚ) < 2 ^ (m.log2 + 1) := by exact_mod_cast Nat.lt_log2_self
  have hpow : (10 : ℚ) ^ e ≤ 2 ^ e := by
    obtain ⟨p, rfl⟩ : ∃ p : ℕ, e = -p := ⟨(-e).toNat, by omega⟩
    rw [zpow_neg, zpow_neg, zpow_natCast, zpow_natCast]
    exact inv_anti₀ (by positivity) (pow_le_pow_left₀ (by norm_num) (by norm_num) p)
  calc (m : ℚ) * 10 ^ e < 2 ^ (m.log2 + 1) * 10 ^ e := mul_lt_mul_of_pos_right hbits hten
    _ ≤ 2 ^ (m.log2 + 1) * 2 ^ e := mul_le_mul_of_nonneg_left hpow (by positivity)
    _ = 2 ^ ((m.log2 : ℤ) + 1 + e) := by
      rw [zpow_add₀ (by norm_num), ← zpow_natCast]
      push_cast
      rfl
    _ ≤ 2 ^ (-1075 : ℤ) := zpow_le_zpow_right₀ (by norm_num) h

/-- A product with a power of ten, whose first factor has 53 bits behind the point. -/
theorem pack_mul_ten_pow (hm : 0 < m) (p : ℕ) :
    Float.ofModel (.pack (UnpackedFloat.mul Format.binary64
      (.finite (Datum.sign false) (m <<< 53) (-53) (Nat.shiftLeft_pos_iff.mpr hm))
      (.finite (Datum.sign false) (10 ^ p) 0 (Nat.pow_pos (by decide))))) =
        ofMagnitude false (m * 10 ^ (p : ℤ)) := by
  have hm' : (1 : ℚ) ≤ m := by exact_mod_cast hm
  have hvalue : ((m <<< 53 : ℕ) * 2 ^ (-53 : ℤ) : ℚ) * ((10 ^ p : ℕ) * 2 ^ (0 : ℤ)) =
      m * 10 ^ (p : ℤ) := by
    have hcancel : (2 : ℚ) ^ 53 * 2 ^ (-53 : ℤ) = 1 := by norm_num
    rw [Nat.shiftLeft_eq, zpow_natCast, zpow_zero, mul_one, Nat.cast_mul, Nat.cast_pow,
      Nat.cast_pow, Nat.cast_ofNat, Nat.cast_ofNat, mul_assoc (m : ℚ), hcancel, mul_one]
  have hone : (1 : ℚ) ≤ m * 10 ^ (p : ℤ) := by
    rw [zpow_natCast]
    exact one_le_mul_of_one_le_of_one_le hm' (one_le_pow₀ (by norm_num))
  rw [← hvalue] at hone ⊢
  exact pack_mul false false _ _ (le_lastPlace_of_le (le_trans (by norm_num) hone))

/-- A quotient by a power of ten. -/
theorem pack_div_ten_pow (hm : 0 < m) (p : ℕ) :
    Float.ofModel (.pack (UnpackedFloat.div Format.binary64 (.finite (Datum.sign false) m 0 hm)
      (.finite (Datum.sign false) (10 ^ p) 0 (Nat.pow_pos (by decide))))) =
        ofMagnitude false (m * 10 ^ (-(p : ℤ))) := by
  have hvalue : (m * 2 ^ (0 : ℤ) : ℚ) / ((10 ^ p : ℕ) * 2 ^ (0 : ℤ)) = m * 10 ^ (-(p : ℤ)) := by
    rw [zpow_neg, zpow_natCast, zpow_zero, mul_one, mul_one, div_eq_mul_inv]
    push_cast
    rfl
  rw [← hvalue]
  exact pack_div false false hm _

/-- The exact way: a product or a quotient by a power of ten, of any length. -/
theorem ofModel_ofScientific (m : ℕ) (e : ℤ) :
    Float.ofModel (Float.Model.ofScientific m e) = ofMagnitude false (m * 10 ^ e) := by
  have hbits : (2 : ℤ) ^ Format.binary64.exponentBits = 2048 := rfl
  rw [Float.Model.ofScientific, UnpackedFloat.ofScientific]
  rcases Nat.eq_zero_or_pos m with rfl | hm
  · rw [dif_pos rfl, Nat.cast_zero, zero_mul, ← ofDatum_zero false 0]
    rfl
  rw [dif_neg (Nat.ne_of_gt hm)]
  split_ifs with hlarge hsmall hsign
  · obtain ⟨p, rfl, hp⟩ : ∃ p : ℕ, e = p ∧ 1024 ≤ p := ⟨e.toNat, by omega, by omega⟩
    rw [zpow_natCast, ofMagnitude_of_le (le_mul_ten_pow hm hp)]
    rfl
  · have hlt := mul_ten_zpow_lt (m := m) (e := e) (by omega) (by omega)
    have hnonneg : (0 : ℚ) ≤ m * 10 ^ e :=
      mul_nonneg (Nat.cast_nonneg m) (zpow_pos (by norm_num) e).le
    rw [ofMagnitude_of_lt hnonneg hlt, ← ofDatum_zero false 0]
    rfl
  · obtain ⟨p, rfl⟩ : ∃ p : ℕ, e = p := ⟨e.toNat, by omega⟩
    exact pack_mul_ten_pow hm p
  · obtain ⟨p, rfl⟩ : ∃ p : ℕ, e = -p := ⟨(-e).toNat, by omega⟩
    have hp : (- -(p : ℤ)).toNat = p := by omega
    simp only [hp]
    exact pack_div_ten_pow hm p

/-- A decimal is read as the value nearest to it. -/
theorem ofScientific_eq (m : ℕ) (negative : Bool) (p : ℕ) :
    Float.ofScientific m negative p =
      ofMagnitude false (m * 10 ^ (if negative then -(p : ℤ) else p)) := by
  rw [Float.ofScientific]
  split_ifs with hfast hneg hneg
  · -- both the significand and the power of ten are values
    obtain ⟨a, i, hx, hxv⟩ := datum_toFloat hfast.1
    obtain ⟨b, j, hy, hyv⟩ := datum_powerOfTen ⟨p, by omega⟩
    have hb : 0 < b := by
      rcases Nat.eq_zero_or_pos b with rfl | hb
      · rw [Nat.cast_zero, zero_mul] at hyv
        exact absurd hyv (pow_pos (by norm_num) _).ne
      · exact hb
    have hdiv := div_finite hx hy hb
    rw [hxv, hyv] at hdiv
    rw [zpow_neg, zpow_natCast, ← div_eq_mul_inv]
    exact hdiv
  · obtain ⟨a, i, hx, hxv⟩ := datum_toFloat hfast.1
    obtain ⟨b, j, hy, hyv⟩ := datum_powerOfTen ⟨p, by omega⟩
    have hmul := mul_finite hx hy
    rw [hxv, hyv] at hmul
    rw [zpow_natCast]
    exact hmul
  · show Float.ofModel (Float.Model.ofScientific m (Int.negOfNat p)) = _
    rw [ofModel_ofScientific, Int.negOfNat_eq]
    rfl
  · exact ofModel_ofScientific m p

/-- A natural number is converted to the value nearest to it. -/
theorem ofNat_eq (n : ℕ) : Float.ofNat n = ofMagnitude false n := by
  have h := ofScientific_eq n false 0
  rw [if_neg (by decide), Nat.cast_zero, zpow_zero, mul_one] at h
  exact h

theorem zero_eq : (0.0 : Float) = ofMagnitude false 0 := by
  have h := ofScientific_eq 0 true 1
  rw [Nat.cast_zero, zero_mul] at h
  exact h

theorem infinity_eq : infinity = ofDatum (.infinity false) := by decide +kernel

end Binary64

/-! ## Numerals -/

open Binary64

/-- The number of digits says between which powers of ten a number lies. -/
theorem length_digits_bounds {n : ℕ} (hn : 0 < n) :
    10 ^ ((digits n).length - 1) ≤ n ∧ n < 10 ^ (digits n).length := by
  have hpos : 0 < (digits n).length := List.length_pos_of_ne_nil Nat.toDigits_ne_nil
  refine ⟨?_, (Nat.length_toDigits_le_iff (by norm_num) hpos).mp le_rfl⟩
  rcases Nat.eq_zero_or_pos ((digits n).length - 1) with h | h
  · rw [h, pow_zero]
    exact hn
  · by_contra hlt
    have hle := (Nat.length_toDigits_le_iff (b := 10) (by norm_num) h).mpr (not_le.mp hlt)
    have : (digits n).length ≤ (digits n).length - 1 := hle
    omega

/-- `2^205` is below `10^62`. -/
theorem two_pow_lt_ten_pow {p t : ℕ} (h : 62 * t < 205 * p) : (2 : ℚ) ^ t < 10 ^ p := by
  refine lt_of_pow_lt_pow_left₀ 62 (by positivity) ?_
  calc ((2 : ℚ) ^ t) ^ 62 = 2 ^ (62 * t) := by rw [← pow_mul, mul_comm]
    _ < 2 ^ (205 * p) := pow_lt_pow_right₀ (by norm_num) h
    _ = (2 ^ 205) ^ p := pow_mul 2 205 p
    _ ≤ (10 ^ 62) ^ p := pow_le_pow_left₀ (by norm_num) (by norm_num) p
    _ = (10 ^ p) ^ 62 := pow_right_comm 10 62 p

namespace Numeral

/-- A numeral is read as the value nearest to its decimal. -/
theorem nearest_eq (n : ℕ) (k : ℤ) : nearest n k = ofMagnitude false (n * 10 ^ k) := by
  rcases Nat.eq_zero_or_pos n with rfl | hn
  · rw [nearest, if_pos rfl, Nat.cast_zero, zero_mul, zero_eq]
  obtain ⟨hlow, hhigh⟩ := length_digits_bounds hn
  have hpos : 0 < (digits n).length := List.length_pos_of_ne_nil Nat.toDigits_ne_nil
  rw [nearest, if_neg (Nat.ne_of_gt hn)]
  dsimp only
  generalize (digits n).length = length at *
  have hten : (0 : ℚ) < 10 ^ k := zpow_pos (by norm_num) k
  split_ifs with hlarge hsmall
  · have hpow : (2 : ℚ) ^ 1024 < 10 ^ 310 := two_pow_lt_ten_pow (by norm_num)
    have hle : (2 : ℚ) ^ 1024 ≤ n * 10 ^ k :=
      calc (2 : ℚ) ^ 1024 ≤ 10 ^ (310 : ℤ) := hpow.le
        _ ≤ 10 ^ (((length - 1 : ℕ) : ℤ) + k) := zpow_le_zpow_right₀ (by norm_num) (by omega)
        _ = 10 ^ (length - 1) * 10 ^ k := by rw [zpow_add₀ (by norm_num), zpow_natCast]
        _ ≤ n * 10 ^ k := mul_le_mul_of_nonneg_right (by exact_mod_cast hlow) hten.le
    rw [ofMagnitude_of_le hle, infinity_eq]
  · have hpow : (2 : ℚ) ^ 1075 < 10 ^ 330 := two_pow_lt_ten_pow (by norm_num)
    have hlt : (n : ℚ) * 10 ^ k < 2 ^ (-1075 : ℤ) :=
      calc (n : ℚ) * 10 ^ k < 10 ^ length * 10 ^ k :=
            mul_lt_mul_of_pos_right (by exact_mod_cast hhigh) hten
        _ = 10 ^ ((length : ℤ) + k) := by rw [zpow_add₀ (by norm_num), zpow_natCast]
        _ ≤ 10 ^ (-330 : ℤ) := zpow_le_zpow_right₀ (by norm_num) (by omega)
        _ ≤ 2 ^ (-1075 : ℤ) := inv_anti₀ (pow_pos (by norm_num) 1075) hpow.le
    rw [ofMagnitude_of_lt (by positivity) hlt, zero_eq]
  · have h := ofScientific_eq n (k < 0) k.natAbs
    have hexponent : (if decide (k < 0) = true then -(k.natAbs : ℤ) else k.natAbs) = k := by
      split_ifs with hneg <;> simp only [decide_eq_true_eq] at hneg <;> omega
    rwa [hexponent] at h

end Numeral

end Calculator
