import Calculator.Proofs.Binary64.Nearest

/-!
# The rounding of the arithmetic

The arithmetic keeps a significand with two more bits: the first bit that is cut off, and whether
anything is set behind it.  That is enough to know on which side of a half the exact result lies,
and shifting keeps it.  So a result that comes with enough bits is rounded to the value nearest to
the exact one.

Results:
* `Represents.shiftRight`: shifting keeps what is known about the exact result.
* `Represents.roundedMantissa`: the significand is rounded to the nearest one.
* `pack_roundWithAccuracy`: the packed result is the value nearest to the exact one.
-/

namespace Calculator.Binary64

open Float.Model Float.Model.UnpackedFloat

/-! ## What the two further bits say -/

/-- What a significand with its two further bits says about an exact number. -/
def Represents (em : ExtendedMantissa) (r : ℚ) : Prop :=
  match em.roundBit, em.stickyBit with
  | false, false => r = em.mantissa
  | false, true => (em.mantissa : ℚ) < r ∧ r < em.mantissa + 1 / 2
  | true, false => r = em.mantissa + 1 / 2
  | true, true => em.mantissa + 1 / 2 < r ∧ r < em.mantissa + 1

namespace Represents

theorem exact (m : ℕ) : Represents (.ofMantissaAndAccuracy m .exact) m := rfl

/-- A quotient with the remainder that it leaves. -/
theorem fraction (m n : ℕ) (hn : 0 < n) :
    Represents (.ofMantissaAndAccuracy (m / n) (accuracyOfFraction (m % n) n)) (m / n) := by
  have hpos : (0 : ℚ) < n := by exact_mod_cast hn
  have hdiv : (m : ℚ) = n * (m / n : ℕ) + (m % n : ℕ) := by
    exact_mod_cast (Nat.div_add_mod m n).symm
  have hlt : ((m % n : ℕ) : ℚ) < n := by exact_mod_cast Nat.mod_lt m hn
  unfold accuracyOfFraction
  split_ifs with hzero
  · show (m : ℚ) / n = (m / n : ℕ)
    rw [hzero, Nat.cast_zero, add_zero] at hdiv
    rw [div_eq_iff hpos.ne', hdiv, mul_comm]
  have hrest : (0 : ℚ) < (m % n : ℕ) := by exact_mod_cast Nat.pos_of_ne_zero hzero
  rcases lt_trichotomy (2 * (m % n)) n with h | h | h
  · have hhalf : 2 * ((m % n : ℕ) : ℚ) < n := by exact_mod_cast h
    rw [Nat.compare_eq_lt.mpr h]
    constructor
    · rw [lt_div_iff₀ hpos]
      show ((m / n : ℕ) : ℚ) * n < m
      linarith
    · rw [div_lt_iff₀ hpos]
      show (m : ℚ) < ((m / n : ℕ) + 1 / 2) * n
      linarith
  · have hhalf : 2 * ((m % n : ℕ) : ℚ) = n := by exact_mod_cast h
    rw [Nat.compare_eq_eq.mpr h]
    show (m : ℚ) / n = (m / n : ℕ) + 1 / 2
    rw [div_eq_iff hpos.ne']
    linarith
  · have hhalf : (n : ℚ) < 2 * ((m % n : ℕ) : ℚ) := by exact_mod_cast h
    rw [Nat.compare_eq_gt.mpr h]
    constructor
    · rw [lt_div_iff₀ hpos]
      show ((m / n : ℕ) + 1 / 2 : ℚ) * n < m
      linarith
    · rw [div_lt_iff₀ hpos]
      show (m : ℚ) < ((m / n : ℕ) + 1) * n
      linarith

variable {em : ExtendedMantissa} {r : ℚ}

theorem le (h : Represents em r) : (em.mantissa : ℚ) ≤ r := by
  obtain ⟨m, roundBit, stickyBit⟩ := em
  cases roundBit <;> cases stickyBit <;> simp only [Represents] at h <;> linarith

theorem lt (h : Represents em r) : r < em.mantissa + 1 := by
  obtain ⟨m, roundBit, stickyBit⟩ := em
  cases roundBit <;> cases stickyBit <;> simp only [Represents] at h <;> linarith

/-- The bit that is shifted out becomes the first further bit, and that one joins the rest. -/
theorem shiftRightOne (h : Represents em r) : Represents em.shiftRightOne (r / 2) := by
  obtain ⟨m, roundBit, stickyBit⟩ := em
  have hm : (m : ℚ) = 2 * (m / 2 : ℕ) + (m % 2 : ℕ) := by exact_mod_cast (Nat.div_add_mod m 2).symm
  rcases Nat.mod_two_eq_zero_or_one m with hbit | hbit <;> rw [hbit] at hm <;>
    cases roundBit <;> cases stickyBit <;>
    simp [Represents, ExtendedMantissa.shiftRightOne, hbit] at h ⊢ <;>
    first | linarith | (constructor <;> linarith)

theorem shiftRight (h : Represents em r) (n : ℕ) : Represents (em >>> n) (r / 2 ^ n) := by
  show Represents (n.repeat ExtendedMantissa.shiftRightOne em) (r / 2 ^ n)
  induction n with
  | zero => simpa [Nat.repeat] using h
  | succ n ih =>
    rw [Nat.repeat, pow_succ, ← div_div]
    exact ih.shiftRightOne

/-- The further bits round to the nearest significand. -/
theorem roundedMantissa (h : Represents em r) : em.roundedMantissa = nearestEven r := by
  have hle := h.le
  have hlt := h.lt
  have hr : 0 ≤ r := le_trans (Nat.cast_nonneg _) hle
  have hfloor : ⌊r⌋₊ = em.mantissa := (Nat.floor_eq_iff hr).mpr ⟨hle, hlt⟩
  rw [nearestEven, hfloor]
  obtain ⟨m, roundBit, stickyBit⟩ := em
  cases roundBit <;> cases stickyBit <;> simp only [Represents] at h <;> split_ifs <;>
    first | rfl | linarith

end Represents

/-! ## The exponent that is rounded to -/

theorem targetExponent_eq (t : Int) : Format.binary64.targetExponent t = max (t - 53) (-1074) := rfl

/-- The place of the first bit, from the first bits of a number. -/
theorem log_eq {m : ℕ} {e : ℤ} {v : ℚ} (hm : 0 < m) (hle : (m : ℚ) ≤ v / 2 ^ e)
    (hlt : v / 2 ^ e < m + 1) : Int.log 2 v = m.log2 + e := by
  have hp := two_zpow_pos e
  rw [le_div_iff₀ hp] at hle
  rw [div_lt_iff₀ hp] at hlt
  have hm' : (0 : ℚ) < m := by exact_mod_cast hm
  have hv : 0 < v := lt_of_lt_of_le (mul_pos hm' hp) hle
  have hlow : (2 : ℚ) ^ (e + (m.log2 : ℕ)) ≤ v := by
    rw [two_zpow_add]
    refine le_trans (mul_le_mul_of_nonneg_right ?_ hp.le) hle
    exact_mod_cast Nat.log2_self_le (Nat.ne_of_gt hm)
  have hhigh : v < (2 : ℚ) ^ (e + (m.log2 + 1 : ℕ)) := by
    rw [two_zpow_add]
    refine lt_of_lt_of_le hlt (mul_le_mul_of_nonneg_right ?_ hp.le)
    exact_mod_cast Nat.lt_log2_self
  have h₁ := (Int.zpow_le_iff_le_log (b := 2) (by norm_num) hv).mp (by exact_mod_cast hlow)
  have h₂ := (Int.lt_zpow_iff_log_lt (b := 2) (by norm_num) hv).mp (by exact_mod_cast hhigh)
  push_cast at h₂
  omega

/-- With enough bits the exponent that is rounded to is that of the last place. -/
theorem targetExponent_eq_lastPlace {m : ℕ} {e : ℤ} {v : ℚ} (hv : 0 < v)
    (hle : (m : ℚ) ≤ v / 2 ^ e) (hlt : v / 2 ^ e < m + 1) (he : e ≤ lastPlace v) :
    Format.binary64.targetExponent (totalExponent m e) = lastPlace v := by
  rw [targetExponent_eq, totalExponent]
  rcases Nat.eq_zero_or_pos m with rfl | hm
  · -- without a bit the number is below `2^e`, so only subnormal values are near
    have hp := two_zpow_pos e
    have hsmall : v < (2 : ℚ) ^ e := by
      rw [div_lt_iff₀ hp] at hlt
      simpa using hlt
    have hlog := (Int.lt_zpow_iff_log_lt (b := 2) (by norm_num) hv).mp (by exact_mod_cast hsmall)
    have hzero : Nat.log2 0 = 0 := by decide
    unfold lastPlace at he ⊢
    omega
  · rw [lastPlace, log_eq hm hle hlt]
    omega

/-! ## The rounded result -/

/-- A significand that has grown a bit by rounding is shifted once more; others stay. -/
theorem shiftToTargetExponent_exact {m : ℕ} {e : ℤ} (hm : m ≤ 2 ^ 53) (he : -1074 ≤ e) :
    ((shiftToTargetExponent Format.binary64 m e .exact).1.mantissa,
      (shiftToTargetExponent Format.binary64 m e .exact).2) =
    if m = 2 ^ 53 then (2 ^ 52, e + 1) else (m, e) := by
  simp only [shiftToTargetExponent, shiftToExponent, targetExponent_eq, totalExponent]
  split_ifs with h
  · subst h
    have hlog : (2 ^ 53 : ℕ).log2 = 53 := Nat.log2_two_pow
    have hshift : (max ((2 ^ 53 : ℕ).log2 + 1 + e - 53 : ℤ) (-1074) - e).toNat = 1 := by
      rw [hlog]
      omega
    rw [hshift]
    rfl
  · have hlog : m.log2 ≤ 52 := by
      rcases Nat.eq_zero_or_pos m with rfl | hpos
      · decide
      · have := (Nat.log2_lt (n := m) (k := 53) (Nat.ne_of_gt hpos)).mpr (by omega)
        omega
    have hshift : (max (m.log2 + 1 + e - 53 : ℤ) (-1074) - e).toNat = 0 := by omega
    rw [hshift]
    simp only [Nat.cast_zero, add_zero]
    rfl

/-- A number past the largest exponent is packed as an infinity. -/
theorem ofDatum_of_overflow {negative : Bool} {m : ℕ} {k : ℤ} (hpos : 0 < m) (hk : 971 < k) :
    ofDatum (.finite negative m k) = ofDatum (.infinity negative) := by
  have hover : 2 ^ Format.binary64.exponentBits ≤ (k + Format.binary64.exponentBias +
      Format.binary64.mantissaBitsWithoutImplicit).toNat + 1 := by
    show 2048 ≤ (k + 1023 + 52).toNat + 1
    omega
  have hpack : UnpackedFloat.pack Format.binary64 (.finite (Datum.sign negative) m k hpos) =
      UnpackedFloat.pack Format.binary64 (.infinity (Datum.sign negative)) := by
    simp only [UnpackedFloat.pack, hover, if_true]
  apply eq_of_toBits
  rw [ofDatum, ofDatum, toBits_ofModel, toBits_ofModel, Datum.unpacked_finite hpos, hpack]
  rfl

/-- The result that is rounded is the value nearest to the exact one. -/
theorem pack_roundWithAccuracy {negative : Bool} {m : ℕ} {e : ℤ} {accuracy : Accuracy} {v : ℚ}
    (hv : 0 < v) (h : Represents (.ofMantissaAndAccuracy m accuracy) (v / 2 ^ e))
    (he : e ≤ lastPlace v) :
    Float.ofModel (.pack (roundWithAccuracy Format.binary64 (Datum.sign negative) m e accuracy)) =
      ofMagnitude negative v := by
  have hmantissa : (ExtendedMantissa.ofMantissaAndAccuracy m accuracy).mantissa = m := by
    rcases accuracy with _ | (_ | _ | _) <;> rfl
  have hle := h.le
  have hlt := h.lt
  rw [hmantissa] at hle hlt
  have htarget := targetExponent_eq_lastPlace hv hle hlt he
  have hexponent : e + ((lastPlace v - e).toNat : ℤ) = lastPlace v := by omega
  have hrounded : (ExtendedMantissa.ofMantissaAndAccuracy m accuracy >>>
      (lastPlace v - e).toNat).roundedMantissa = nearestEven (v / 2 ^ lastPlace v) := by
    have hshift := h.shiftRight (lastPlace v - e).toNat
    rw [div_div, mul_comm, ← two_zpow_add, hexponent] at hshift
    exact hshift.roundedMantissa
  have hfinal := shiftToTargetExponent_exact (nearestEven_lastPlace_le hv) (le_lastPlace v)
  have hresult : Float.ofModel (.pack (roundWithAccuracy Format.binary64 (Datum.sign negative) m e
      accuracy)) = ofDatum (.finite negative
        (shiftToTargetExponent Format.binary64 (nearestEven (v / 2 ^ lastPlace v))
          (lastPlace v) .exact).1.mantissa
        (shiftToTargetExponent Format.binary64 (nearestEven (v / 2 ^ lastPlace v))
          (lastPlace v) .exact).2) := by
    simp only [roundWithAccuracy, ofDatum, Datum.unpacked]
    rw [show shiftToTargetExponent Format.binary64 m e accuracy =
      (ExtendedMantissa.ofMantissaAndAccuracy m accuracy >>> (lastPlace v - e).toNat,
        lastPlace v) from by
        rw [shiftToTargetExponent, htarget, shiftToExponent, hexponent], hrounded]
  rw [hresult, ofMagnitude, nearestDatum, if_neg hv.ne']
  have hnormal := le_nearestEven_lastPlace hv
  generalize nearestEven (v / 2 ^ lastPlace v) = rounded at *
  dsimp only
  split_ifs at hfinal ⊢ with h₁ h₂ h₃
  · rw [(Prod.mk.inj hfinal).1, (Prod.mk.inj hfinal).2]
    exact ofDatum_of_overflow (by norm_num) (by omega)
  · rw [(Prod.mk.inj hfinal).1, (Prod.mk.inj hfinal).2]
  · rw [(Prod.mk.inj hfinal).1, (Prod.mk.inj hfinal).2]
    exact ofDatum_of_overflow (by have := hnormal (by omega); omega) h₃
  · rw [(Prod.mk.inj hfinal).1, (Prod.mk.inj hfinal).2]

end Calculator.Binary64
