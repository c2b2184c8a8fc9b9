import Calculator.Proofs.Binary64.Number

/-!
# Square roots

The square root is rounded from the root of a shifted significand and from which half of the unit
above it the exact root lies in.

Results:
* `exists_sqrt_eq`: a square root is the value nearest to a number between the root of the shifted
  significand and the next one.
* `exists_datum_sqrt_ofNat`: the root of a word is a number of little more than half of its bits.
-/

namespace Calculator.Binary64

open Float.Model Float.Model.UnpackedFloat

/-- How close the root of `n` that is computed is to the exact one. -/
def rootAccuracy (n : ℕ) : Accuracy :=
  if n - n.sqrt * n.sqrt = 0 then .exact
  else .inexact (if n - n.sqrt * n.sqrt ≤ n.sqrt then .lt else .gt)

/-- Some number between the computed root and the next one has that accuracy. -/
theorem exists_represents_root (n : ℕ) : ∃ r : ℚ, (n.sqrt : ℚ) ≤ r ∧ r < n.sqrt + 1 ∧
    Represents (.ofMantissaAndAccuracy n.sqrt (rootAccuracy n)) r := by
  unfold rootAccuracy
  split_ifs
  · exact ⟨n.sqrt, le_rfl, by linarith, rfl⟩
  · refine ⟨n.sqrt + 1 / 4, by linarith, by linarith, ?_⟩
    show (n.sqrt : ℚ) < n.sqrt + 1 / 4 ∧ (n.sqrt + 1 / 4 : ℚ) < n.sqrt + 1 / 2
    constructor <;> linarith
  · refine ⟨n.sqrt + 3 / 4, by linarith, by linarith, ?_⟩
    show (n.sqrt + 1 / 2 : ℚ) < n.sqrt + 3 / 4 ∧ (n.sqrt + 3 / 4 : ℚ) < n.sqrt + 1
    constructor <;> linarith

variable {m : ℕ} {k : ℤ}

/-- The place that a root is computed to. -/
def rootPlace (m : ℕ) (k : ℤ) : ℤ :=
  min (k.ediv 2) (Format.binary64.targetExponent ((totalExponent m k + 1).ediv 2))

/-- The number that a root is taken of when it is computed to a place. -/
def radicand (m : ℕ) (k : ℤ) : ℕ := m <<< (k - 2 * rootPlace m k).toNat

theorem radicand_eq (m : ℕ) (k : ℤ) :
    (radicand m k * 2 ^ (2 * rootPlace m k) : ℚ) = m * 2 ^ k := by
  have hplace : rootPlace m k ≤ k / 2 := min_le_left _ _
  have hshift : (((k - 2 * rootPlace m k).toNat : ℕ) : ℤ) = k - 2 * rootPlace m k := by omega
  rw [radicand, Nat.shiftLeft_eq]
  push_cast
  rw [← zpow_natCast, hshift, mul_assoc, ← zpow_add₀ (by norm_num), sub_add_cancel]

theorem radicand_pos (hm : 0 < m) : 0 < radicand m k := by
  rw [radicand, Nat.shiftLeft_eq]
  exact Nat.mul_pos hm (Nat.two_pow_pos _)

/-- The place that a root is computed to is at most its last place. -/
theorem rootPlace_le_lastPlace (hm : 0 < m) {v : ℚ}
    (hv : ((radicand m k).sqrt * 2 ^ rootPlace m k : ℚ) ≤ v) : rootPlace m k ≤ lastPlace v := by
  obtain ⟨e, he⟩ : ∃ e, rootPlace m k = e := ⟨_, rfl⟩
  obtain ⟨first, hfirst⟩ : ∃ first : ℤ, (m.log2 + k) / 2 = first := ⟨_, rfl⟩
  have hplace : e ≤ k / 2 ∧ e ≤ max (first + 1 - 53) (-1074) := by
    have htotal : (totalExponent m k + 1).ediv 2 = first + 1 := by
      show (totalExponent m k + 1) / 2 = _
      rw [totalExponent]
      omega
    rw [← he, rootPlace, htotal, targetExponent_eq]
    exact ⟨min_le_left _ _, min_le_right _ _⟩
  rw [radicand, he] at hv
  have hbits : 2 ^ (first - e).toNat ≤ (m <<< (k - 2 * e).toNat).sqrt := by
    rw [Nat.le_sqrt, Nat.shiftLeft_eq, ← pow_add]
    calc 2 ^ ((first - e).toNat + (first - e).toNat) ≤ 2 ^ (m.log2 + (k - 2 * e).toNat) :=
          Nat.pow_le_pow_right (by norm_num) (by omega)
      _ = 2 ^ m.log2 * 2 ^ (k - 2 * e).toNat := pow_add _ _ _
      _ ≤ m * 2 ^ (k - 2 * e).toNat :=
          Nat.mul_le_mul_right _ (Nat.log2_self_le (Nat.ne_of_gt hm))
  have hpow : (2 : ℚ) ^ first ≤ v := by
    have hexponent : e + ((first - e).toNat : ℤ) = first := by omega
    rw [← hexponent, two_zpow_add]
    refine le_trans (mul_le_mul_of_nonneg_right ?_ (two_zpow_pos e).le) hv
    exact_mod_cast hbits
  have hlog := (Int.zpow_le_iff_le_log (b := 2) (by norm_num)
    (lt_of_lt_of_le (two_zpow_pos first) hpow)).mp (by exact_mod_cast hpow)
  rw [he]
  unfold lastPlace
  omega

/-- A square root is the value nearest to a number that starts with the computed root. -/
theorem exists_sqrt_eq {x : Float} (hx : datum x = .finite false m k) (hm : 0 < m) : ∃ v : ℚ,
    x.sqrt = ofMagnitude false v ∧ ((radicand m k).sqrt * 2 ^ rootPlace m k : ℚ) ≤ v ∧
      v < ((radicand m k).sqrt + 1) * 2 ^ rootPlace m k := by
  have hp := two_zpow_pos (rootPlace m k)
  obtain ⟨r, hle, hlt, hr⟩ := exists_represents_root (radicand m k)
  have hroot : 0 < (radicand m k).sqrt := Nat.sqrt_pos.mpr (radicand_pos hm)
  have hpos : 0 < r := lt_of_lt_of_le (by exact_mod_cast hroot) hle
  have hlow := mul_le_mul_of_nonneg_right hle hp.le
  have hsqrt : x.sqrt = Float.ofModel (.pack (roundWithAccuracy Format.binary64 (Datum.sign false)
      (radicand m k).sqrt (rootPlace m k) (rootAccuracy (radicand m k)))) := by
    show Float.ofModel (.pack (UnpackedFloat.sqrt Format.binary64 x.toModel.unpack)) = _
    rw [unpack_eq, hx, Datum.unpacked_finite hm]
    rfl
  refine ⟨r * 2 ^ rootPlace m k, ?_, hlow, mul_lt_mul_of_pos_right hlt hp⟩
  rw [hsqrt]
  refine pack_roundWithAccuracy (mul_pos hpos hp) ?_ (rootPlace_le_lastPlace hm hlow)
  rwa [mul_div_cancel_right₀ r hp.ne']

/-- The root of a number of at most `2p` bits is computed to at most `p + 1` bits. -/
theorem exists_sqrt_eq_lt {x : Float} {p : ℕ} (hx : datum x = .finite false m k) (hm : 0 < m)
    (h : (m * 2 ^ k : ℚ) ≤ 2 ^ (2 * p)) :
    ∃ v : ℚ, x.sqrt = ofMagnitude false v ∧ 0 ≤ v ∧ v < 2 ^ (p + 1) := by
  obtain ⟨v, hv, hlow, hhigh⟩ := exists_sqrt_eq hx hm
  have hp := two_zpow_pos (rootPlace m k)
  have hroot : (1 : ℚ) ≤ (radicand m k).sqrt := by
    exact_mod_cast Nat.sqrt_pos.mpr (radicand_pos hm)
  -- the square of the computed root is at most the number
  have hsquare : ((radicand m k).sqrt * 2 ^ rootPlace m k : ℚ) ^ 2 ≤ (2 ^ p) ^ 2 := by
    have hle : (((radicand m k).sqrt * (radicand m k).sqrt : ℕ) : ℚ) ≤ radicand m k := by
      exact_mod_cast Nat.sqrt_le (radicand m k)
    calc ((radicand m k).sqrt * 2 ^ rootPlace m k : ℚ) ^ 2
        = ((radicand m k).sqrt * (radicand m k).sqrt : ℕ) * 2 ^ (2 * rootPlace m k) := by
          rw [two_mul, zpow_add₀ (by norm_num)]
          push_cast
          ring
      _ ≤ radicand m k * 2 ^ (2 * rootPlace m k) :=
          mul_le_mul_of_nonneg_right hle (two_zpow_pos _).le
      _ = m * 2 ^ k := radicand_eq m k
      _ ≤ 2 ^ (2 * p) := h
      _ = (2 ^ p) ^ 2 := by rw [mul_comm, pow_mul]
  have hbound : ((radicand m k).sqrt * 2 ^ rootPlace m k : ℚ) ≤ 2 ^ p :=
    le_of_sq_le_sq hsquare (by positivity)
  refine ⟨v, hv, le_trans (by positivity) hlow, lt_of_lt_of_le hhigh ?_⟩
  rw [pow_succ]
  nlinarith

/-- The root of a word is a number of little more than half of its bits. -/
theorem exists_datum_sqrt_ofNat {n : ℕ} (h : n < 2 ^ 64) : ∃ m k,
    datum (Float.ofNat n).sqrt = .finite false m k ∧ (m * 2 ^ k : ℚ) ≤ 2 ^ 33 := by
  have hn : (0 : ℚ) ≤ n := Nat.cast_nonneg n
  obtain ⟨m, k, hdatum, hle⟩ := @exists_nearestDatum_le false n 64 hn
    (by exact_mod_cast h) (by norm_num)
  rw [← datum_ofMagnitude false hn, ← ofNat_eq] at hdatum
  rcases Nat.eq_zero_or_pos m with rfl | hm
  · refine ⟨0, -1074, ?_, by rw [Nat.cast_zero, zero_mul]; positivity⟩
    have hk : k = -1074 := by
      have := (canonical_of_datum hdatum).normal
      omega
    rw [eq_ofDatum hdatum, hk]
    rfl
  · obtain ⟨v, hv, hpos, hlt⟩ := exists_sqrt_eq_lt (p := 32) hdatum hm hle
    rw [hv, datum_ofMagnitude false hpos]
    exact exists_nearestDatum_le false hpos hlt (by norm_num)

end Calculator.Binary64
