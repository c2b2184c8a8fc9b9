import Calculator.Proofs.Binary64.Scientific

/-!
# The numbers that values are

A finite value is a rational number.  The comparisons of values are those of their numbers, and a
value that is an integer is the integer that it is converted to.

Results:
* `compare_number`, `lt_iff_number`, `le_iff_number`, `beq_number`: values are compared as their
  numbers are.
* `wholePart_eq_floor`: the whole part of a value is that of its magnitude.
* `number?_of_isIntegral`: an integral value is the integer that `toInt` gives.
* `isIntegral_of_number`, `wholePart_of_number`: a value whose number is an integer is integral, and
  its whole part is the magnitude of that integer.
* `exists_nearestDatum_le`: a number below a power of two is rounded to at most that power.
-/

namespace Calculator.Binary64

open Float.Model Float.Model.UnpackedFloat

/-- The number with a sign, a significand and an exponent. -/
def signedNumber (negative : Bool) (m : ℕ) (k : ℤ) : ℚ :=
  if negative then -(m * 2 ^ k) else m * 2 ^ k

/-- The number that a value is, unless it is an infinity or a NaN. -/
def number? (x : Float) : Option ℚ :=
  match datum x with
  | .finite negative m k => some (signedNumber negative m k)
  | _ => none

variable {x y : Float} {negative : Bool} {m n : ℕ} {j k : ℤ}

theorem number?_of_datum (h : datum x = .finite negative m k) :
    number? x = some (signedNumber negative m k) := by
  rw [number?, h]

theorem number?_of_positive (h : datum x = .finite false m k) :
    number? x = some (m * 2 ^ k : ℚ) :=
  number?_of_datum h

theorem exists_datum {q : ℚ} (h : number? x = some q) :
    ∃ negative m k, datum x = .finite negative m k ∧ signedNumber negative m k = q := by
  unfold number? at h
  split at h
  · next negative m k hd => exact ⟨negative, m, k, hd, Option.some.inj h⟩
  · cases h

/-! ## Order -/

theorem magnitude_pos (hm : 0 < m) : (0 : ℚ) < m * 2 ^ k :=
  mul_pos (by exact_mod_cast hm) (two_zpow_pos k)

theorem magnitude_nonneg (m : ℕ) (k : ℤ) : (0 : ℚ) ≤ m * 2 ^ k :=
  mul_nonneg (Nat.cast_nonneg m) (two_zpow_pos k).le

/-- A magnitude with a smaller last place is smaller. -/
theorem magnitude_lt_of_exponent_lt (hc : Canonical m j) (hd : Canonical n k) (h : j < k) :
    (m * 2 ^ j : ℚ) < n * 2 ^ k := by
  have hm : (m : ℚ) < 2 ^ 53 := by exact_mod_cast hc.significand_lt
  have hn : (2 : ℚ) ^ 52 ≤ n := by
    have hnormal := hd.normal
    have hlow := hc.le_exponent
    exact_mod_cast hnormal.resolve_left (by omega)
  calc (m * 2 ^ j : ℚ) < 2 ^ 53 * 2 ^ j := mul_lt_mul_of_pos_right hm (two_zpow_pos j)
    _ = 2 ^ 52 * (2 * 2 ^ j) := by ring
    _ = 2 ^ 52 * 2 ^ (j + 1) := by rw [two_zpow_pred (j + 1), Int.add_sub_cancel]
    _ ≤ 2 ^ 52 * 2 ^ k := by
      have := zpow_le_zpow_right₀ (a := (2 : ℚ)) (by norm_num) (Int.add_one_le_iff.mpr h)
      gcongr
    _ ≤ n * 2 ^ k := mul_le_mul_of_nonneg_right hn (two_zpow_pos k).le

/-- Magnitudes are ordered by their last places first. -/
theorem compare_magnitude (hc : Canonical m j) (hd : Canonical n k) :
    (compare j k).then (compare m n) = compare (m * 2 ^ j : ℚ) (n * 2 ^ k) := by
  rcases lt_trichotomy j k with h | rfl | h
  · rw [Int.compare_eq_lt.mpr h]
    exact (compare_lt_iff_lt.mpr (magnitude_lt_of_exponent_lt hc hd h)).symm
  · have hp := two_zpow_pos j
    rw [Int.compare_eq_eq.mpr rfl]
    show compare m n = _
    rcases lt_trichotomy m n with hmn | rfl | hmn
    · have : (m : ℚ) < n := by exact_mod_cast hmn
      rw [compare_lt_iff_lt.mpr hmn, eq_comm, compare_lt_iff_lt]
      exact mul_lt_mul_of_pos_right this hp
    · rw [compare_eq_iff_eq.mpr rfl, compare_eq_iff_eq.mpr rfl]
    · have : (n : ℚ) < m := by exact_mod_cast hmn
      rw [compare_gt_iff_gt.mpr hmn, eq_comm, compare_gt_iff_gt]
      exact mul_lt_mul_of_pos_right this hp
  · rw [Int.compare_eq_gt.mpr h]
    exact (compare_gt_iff_gt.mpr (magnitude_lt_of_exponent_lt hd hc h)).symm

theorem signedNumber_zero (negative : Bool) (k : ℤ) : signedNumber negative 0 k = 0 := by
  unfold signedNumber
  split_ifs <;> simp

theorem signedNumber_eq (negative : Bool) (m : ℕ) (k : ℤ) :
    signedNumber negative m k = (if negative then -1 else 1) * (m * 2 ^ k) := by
  unfold signedNumber
  split_ifs
  · rw [neg_one_mul]
  · rw [one_mul]

/-- The sign of a product in front of a number. -/
theorem signedNumber_bne (a b : Bool) (m : ℕ) (k : ℤ) :
    signedNumber (a != b) m k = (if a then -1 else 1) * signedNumber b m k := by
  cases a <;> cases b <;> simp [signedNumber]

theorem number?_zero : number? 0.0 = some 0 := by
  have hd : datum 0.0 = .finite false 0 (-1074) := by rfl
  rw [number?_of_datum hd, signedNumber_zero]

theorem compare_neg (p q : ℚ) : compare (-p) (-q) = (compare p q).swap := by
  rcases lt_trichotomy p q with h | rfl | h
  · rw [compare_lt_iff_lt.mpr h, compare_gt_iff_gt.mpr (neg_lt_neg h)]
    rfl
  · rw [compare_eq_iff_eq.mpr rfl, compare_eq_iff_eq.mpr rfl]
    rfl
  · rw [compare_gt_iff_gt.mpr h, compare_lt_iff_lt.mpr (neg_lt_neg h)]
    rfl

/-- Values are compared as their numbers are. -/
theorem compare_number {p q : ℚ} (hx : number? x = some p) (hy : number? y = some q) :
    (datum x).unpacked.compare (datum y).unpacked = some (compare p q) := by
  obtain ⟨a, m, j, hdx, rfl⟩ := exists_datum hx
  obtain ⟨b, n, k, hdy, rfl⟩ := exists_datum hy
  have hc := canonical_of_datum hdx
  have hd := canonical_of_datum hdy
  rw [hdx, hdy]
  rcases Nat.eq_zero_or_pos m with rfl | hm <;> rcases Nat.eq_zero_or_pos n with rfl | hn
  · rw [signedNumber_zero, signedNumber_zero, compare_eq_iff_eq.mpr rfl]
    rfl
  · have hpos := magnitude_pos (k := k) hn
    rw [signedNumber_zero, Datum.unpacked_zero, Datum.unpacked_finite hn]
    cases b
    · exact congrArg some (compare_lt_iff_lt.mpr hpos).symm
    · exact congrArg some (compare_gt_iff_gt.mpr (neg_neg_of_pos hpos)).symm
  · have hpos := magnitude_pos (k := j) hm
    rw [signedNumber_zero, Datum.unpacked_zero, Datum.unpacked_finite hm]
    cases a
    · exact congrArg some (compare_gt_iff_gt.mpr hpos).symm
    · exact congrArg some (compare_lt_iff_lt.mpr (neg_neg_of_pos hpos)).symm
  · have hpos := magnitude_pos (k := j) hm
    have hpos' := magnitude_pos (k := k) hn
    rw [Datum.unpacked_finite hm, Datum.unpacked_finite hn]
    cases a <;> cases b
    · exact congrArg some (compare_magnitude hc hd)
    · exact congrArg some (compare_gt_iff_gt.mpr (by linarith : -(n * 2 ^ k : ℚ) < m * 2 ^ j)).symm
    · exact congrArg some (compare_lt_iff_lt.mpr (by linarith : -(m * 2 ^ j : ℚ) < n * 2 ^ k)).symm
    · exact congrArg some ((congrArg _ (compare_magnitude hc hd)).trans (compare_neg _ _).symm)

/-- Values are ordered as their numbers are. -/
theorem lt_iff_number {p q : ℚ} (hx : number? x = some p) (hy : number? y = some q) :
    x < y ↔ p < q := by
  rw [lt_iff, compare_number hx hy, Option.some.injEq, compare_lt_iff_lt]

theorem lt_iff_magnitude (hx : datum x = .finite false m j) (hy : datum y = .finite false n k) :
    x < y ↔ (m * 2 ^ j : ℚ) < n * 2 ^ k :=
  lt_iff_number (number?_of_positive hx) (number?_of_positive hy)

theorem le_iff_number {p q : ℚ} (hx : number? x = some p) (hy : number? y = some q) :
    x ≤ y ↔ p ≤ q := by
  rw [le_iff, compare_number hx hy, Option.any_some, Ordering.isLE_iff_ne_gt]
  exact compare_le_iff_le

theorem beq_number {p q : ℚ} (hx : number? x = some p) (hy : number? y = some q) :
    (x == y) = decide (p = q) := by
  rw [beq_eq, compare_number hx hy]
  by_cases h : p = q
  · rw [compare_eq_iff_eq.mpr h, decide_eq_true h]
    rfl
  · rw [decide_eq_false h, beq_eq_false_iff_ne, ne_eq, Option.some.injEq, compare_eq_iff_eq]
    exact h

/-! ## Whole parts -/

/-- The whole part of a value is that of its magnitude. -/
theorem wholePart_eq_floor (h : datum x = .finite negative m k) :
    wholePart x = ⌊(m * 2 ^ k : ℚ)⌋₊ := by
  rw [wholePart, h]
  dsimp only
  split_ifs with hk
  · have hpow : (m * 2 ^ k : ℚ) = ((m <<< k.toNat : ℕ) : ℚ) := by
      rw [Nat.shiftLeft_eq, two_zpow_toNat, Int.toNat_of_nonpos (by omega : -k ≤ 0)]
      push_cast
      ring
    rw [hpow, Nat.floor_natCast]
  · have hpow : (m * 2 ^ k : ℚ) = (m : ℚ) / ((2 ^ (-k).toNat : ℕ) : ℚ) := by
      rw [two_zpow_toNat, Int.toNat_of_nonpos (by omega : k ≤ 0)]
      push_cast
      ring
    rw [hpow, Nat.floor_div_eq_div, Nat.shiftRight_eq_div_pow]

theorem wholePart_le (h : datum x = .finite negative m k) : (wholePart x : ℚ) ≤ m * 2 ^ k := by
  rw [wholePart_eq_floor h]
  exact Nat.floor_le (magnitude_nonneg m k)

/-- The magnitude of an integral value is its whole part. -/
theorem magnitude_eq_wholePart (h : datum x = .finite negative m k) (hx : isIntegral x = true) :
    (m * 2 ^ k : ℚ) = wholePart x := by
  rw [isIntegral, h] at hx
  rw [wholePart, h]
  dsimp only at hx ⊢
  rw [two_zpow_toNat]
  split_ifs with hk
  · rw [Int.toNat_of_nonpos (by omega : -k ≤ 0), Nat.shiftLeft_eq]
    push_cast
    ring
  · have hdvd : 2 ^ (-k).toNat ∣ m := by
      rw [decide_eq_false hk, Bool.false_or, beq_iff_eq, Nat.one_shiftLeft] at hx
      exact Nat.dvd_of_mod_eq_zero hx
    rw [Int.toNat_of_nonpos (by omega : k ≤ 0), Nat.shiftRight_eq_div_pow, pow_zero,
      Nat.cast_div hdvd (by positivity)]
    push_cast
    ring

theorem signBit_of_datum (h : datum x = .finite negative m k) : signBit x = negative := by
  rw [datum_eq] at h
  unfold signBit
  split_ifs at h <;> simp_all

/-- An integral value is the integer that it is converted to. -/
theorem number?_of_isIntegral (hx : isIntegral x = true) : number? x = some (toInt x : ℚ) := by
  cases hd : datum x with
  | nan | infinity =>
    rw [isIntegral, hd] at hx
    cases hx
  | finite negative m k =>
    rw [number?_of_datum hd, signedNumber, toInt, signBit_of_datum hd,
      magnitude_eq_wholePart hd hx]
    split_ifs <;> push_cast <;> rfl

theorem abs_signedNumber (negative : Bool) (m : ℕ) (k : ℤ) :
    |signedNumber negative m k| = m * 2 ^ k := by
  unfold signedNumber
  split_ifs
  · rw [abs_neg, abs_of_nonneg (magnitude_nonneg m k)]
  · exact abs_of_nonneg (magnitude_nonneg m k)

/-- The magnitude of a value whose number is an integer is that of the integer. -/
theorem exists_magnitude_of_number {z : ℤ} (h : number? x = some (z : ℚ)) :
    ∃ negative m k, datum x = .finite negative m k ∧ (m * 2 ^ k : ℚ) = z.natAbs := by
  obtain ⟨negative, m, k, hd, hvalue⟩ := exists_datum h
  refine ⟨negative, m, k, hd, ?_⟩
  rw [← abs_signedNumber negative, hvalue, Nat.cast_natAbs, Int.cast_abs]

/-- A value whose number is an integer is integral. -/
theorem isIntegral_of_number {z : ℤ} (h : number? x = some (z : ℚ)) : isIntegral x = true := by
  obtain ⟨negative, m, k, hd, hvalue⟩ := exists_magnitude_of_number h
  rw [isIntegral, hd]
  dsimp only
  by_cases hk : 0 ≤ k
  · rw [decide_eq_true hk, Bool.true_or]
  · have hm : m = z.natAbs * 2 ^ (-k).toNat := by
      have hpow : (0 : ℚ) < 2 ^ (-k).toNat := by positivity
      rw [two_zpow_toNat, Int.toNat_of_nonpos (by omega : k ≤ 0), pow_zero, mul_one_div,
        div_eq_iff hpow.ne'] at hvalue
      exact_mod_cast hvalue
    rw [decide_eq_false hk, Bool.false_or, beq_iff_eq, Nat.one_shiftLeft, hm, Nat.mul_mod_left]

theorem wholePart_of_number {z : ℤ} (h : number? x = some (z : ℚ)) : wholePart x = z.natAbs := by
  obtain ⟨negative, m, k, hd, hvalue⟩ := exists_magnitude_of_number h
  rw [wholePart_eq_floor hd, hvalue, Nat.floor_natCast]

/-- An integer that is the number of a value is one of at most 53 bits times a power of two. -/
theorem exists_significand_of_number {z : ℤ} (h : number? x = some (z : ℚ)) :
    ∃ s t : ℕ, s < 2 ^ 53 ∧ z.natAbs = s * 2 ^ t := by
  obtain ⟨negative, m, k, hd, hvalue⟩ := exists_magnitude_of_number h
  have hm := (canonical_of_datum hd).significand_lt
  by_cases hk : 0 ≤ k
  · refine ⟨m, k.toNat, hm, ?_⟩
    rw [two_zpow_toNat, Int.toNat_of_nonpos (by omega : -k ≤ 0), pow_zero, div_one] at hvalue
    exact_mod_cast hvalue.symm
  · -- with places behind the point the integer is below the significand
    refine ⟨z.natAbs, 0, ?_, by rw [pow_zero, mul_one]⟩
    have hpow : (2 : ℚ) ^ k ≤ 1 := zpow_le_one_of_nonpos₀ (by norm_num) (by omega)
    have hle : (z.natAbs : ℚ) ≤ m := by
      rw [← hvalue]
      exact mul_le_of_le_one_right (Nat.cast_nonneg m) hpow
    exact lt_of_le_of_lt (by exact_mod_cast hle) hm

/-! ## Bounds on rounded numbers -/

/-- A number below a power of two is rounded to at most that power. -/
theorem exists_nearestDatum_le (negative : Bool) {v : ℚ} {p : ℕ} (hv : 0 ≤ v) (h : v < 2 ^ p)
    (hp : p < 1024) :
    ∃ m k, nearestDatum negative v = .finite negative m k ∧ (m * 2 ^ k : ℚ) ≤ 2 ^ p := by
  rcases hv.eq_or_lt with rfl | hpos
  · exact ⟨0, -1074, nearestDatum_zero negative, by rw [Nat.cast_zero, zero_mul]; positivity⟩
  have hlog : Int.log 2 v < p :=
    (Int.lt_zpow_iff_log_lt (by norm_num) hpos).mp (by exact_mod_cast h)
  obtain ⟨l, hl⟩ : ∃ l, lastPlace v = l := ⟨_, rfl⟩
  have hplace : l ≤ p - 53 ∨ l = -1074 := by
    rw [← hl]
    unfold lastPlace
    omega
  have hpow : (2 : ℚ) ^ p = ((2 ^ (p - l).toNat : ℕ) : ℚ) * 2 ^ l := by
    have hexponent : ((p - l).toNat : ℤ) = p - l := by omega
    push_cast
    rw [← zpow_natCast, ← zpow_natCast, hexponent, ← zpow_add₀ (by norm_num), sub_add_cancel]
  have hle : (nearestEven (v / 2 ^ l) * 2 ^ l : ℚ) ≤ 2 ^ p := by
    have hlpos := two_zpow_pos l
    rw [hpow] at h ⊢
    refine mul_le_mul_of_nonneg_right ?_ hlpos.le
    exact_mod_cast nearestEven_le (div_nonneg hpos.le hlpos.le) ((div_lt_iff₀ hlpos).mpr h)
  rw [nearestDatum, if_neg hpos.ne', hl]
  dsimp only
  split_ifs with hcarry hlarge hlarge
  · omega
  · refine ⟨2 ^ 52, l + 1, rfl, le_trans (le_of_eq ?_) hle⟩
    rw [hcarry, two_zpow_pred (l + 1), Int.add_sub_cancel]
    push_cast
    ring
  · omega
  · exact ⟨_, l, rfl, hle⟩

end Calculator.Binary64
