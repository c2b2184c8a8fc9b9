import Calculator.Proofs.Binary64.Exact

/-!
# The rank of a value

Without its sign bit a pattern counts the magnitudes that values have, from zero upwards through the
subnormal ones, the binades and infinity.  So a value has a rank, the integer that its pattern is
when the first bit is read as a sign, and the order of values is that of their ranks.

Results:
* `toBits_eq_rank`: the pattern of a value is its sign bit and the magnitude of its rank.
* `compare_rank`: values are compared as their ranks are.
* `lt_iff_rank`, `le_iff_rank`, `beq_rank`: the order of values, in ranks.
* `eq_of_rank`: other than zero, a value is known by its rank.
* `rank_ofBits`: a sign bit in front of a rank is the pattern of a value with that rank.
-/

namespace Calculator.Binary64

open Float.Model Float.Model.UnpackedFloat

variable {x y : Float} {a b : Bool} {m n : ℕ} {j k : ℤ}

/-! ## Ranks of magnitudes -/

/-- How many magnitudes of values are below a magnitude. -/
def magnitudeRank (m : ℕ) (k : ℤ) : ℕ := (k + 1074).toNat * 2 ^ 52 + m

/-- The rank of infinity, above those of all numbers. -/
def topRank : ℕ := 2047 * 2 ^ 52

/-- The fields of a pattern in a row: without the leading bit of a normal significand, the exponent
field is one higher than the exponent is above the smallest one. -/
theorem fields_eq_magnitudeRank (hc : Canonical m k) :
    (if 2 ^ 52 ≤ m then (k + 1075).toNat else 0) * 2 ^ 52 + m % 2 ^ 52 = magnitudeRank m k := by
  obtain ⟨hm, hlow, -, hnormal⟩ := hc
  unfold magnitudeRank
  split_ifs with h <;> omega

theorem magnitudeRank_lt_topRank (hc : Canonical m k) : magnitudeRank m k < topRank := by
  obtain ⟨hm, hlow, hhigh, -⟩ := hc
  unfold magnitudeRank topRank
  omega

theorem magnitudeRank_pos_iff (hc : Canonical m k) : 0 < magnitudeRank m k ↔ 0 < m := by
  have hlow := hc.le_exponent
  have hnormal := hc.normal
  unfold magnitudeRank
  omega

/-- The significand that is greater by one has the next rank. -/
theorem magnitudeRank_succ (m : ℕ) (k : ℤ) : magnitudeRank (m + 1) k = magnitudeRank m k + 1 := by
  unfold magnitudeRank
  omega

/-- Magnitudes are ranked by their last places first. -/
theorem compare_magnitudeRank (hc : Canonical m j) (hd : Canonical n k) :
    (compare j k).then (compare m n) = compare (magnitudeRank m j) (magnitudeRank n k) := by
  have hm := hc.significand_lt
  have hn := hd.significand_lt
  have hj := hc.le_exponent
  have hk := hd.le_exponent
  have hmnormal := hc.normal
  have hnnormal := hd.normal
  have hrank : magnitudeRank m j = (j + 1074).toNat * 2 ^ 52 + m := rfl
  have hrank' : magnitudeRank n k = (k + 1074).toNat * 2 ^ 52 + n := rfl
  rcases lt_trichotomy j k with h | rfl | h
  · have hlt : magnitudeRank m j < magnitudeRank n k := by omega
    rw [Int.compare_eq_lt.mpr h, Nat.compare_eq_lt.mpr hlt]
    rfl
  · rw [Int.compare_eq_eq.mpr rfl, hrank, hrank']
    show compare m n = _
    rcases lt_trichotomy m n with h | rfl | h
    · rw [Nat.compare_eq_lt.mpr h, Nat.compare_eq_lt.mpr (by omega)]
    · rw [Nat.compare_eq_eq.mpr rfl, Nat.compare_eq_eq.mpr rfl]
    · rw [Nat.compare_eq_gt.mpr h, Nat.compare_eq_gt.mpr (by omega)]
  · have hlt : magnitudeRank n k < magnitudeRank m j := by omega
    rw [Int.compare_eq_gt.mpr h, Nat.compare_eq_gt.mpr hlt]
    rfl

/-! ## Ranks of values -/

namespace Datum

/-- The rank of the magnitude of a datum. -/
def magnitudeRank : Datum → ℕ
  | nan => 0
  | infinity _ => topRank
  | finite _ m k => Binary64.magnitudeRank m k

/-- Whether the sign bit of a datum is set. -/
def signBit : Datum → Bool
  | nan => false
  | infinity negative => negative
  | finite negative _ _ => negative

/-- The rank of a datum, below zero on the side of the negative ones. -/
def rank (d : Datum) : ℤ := if d.signBit then -(d.magnitudeRank : ℤ) else d.magnitudeRank

end Datum

/-- The rank of a value, of no meaning for a NaN. -/
def rank (x : Float) : ℤ := (datum x).rank

theorem rank_of_datum {d : Datum} (h : datum x = d) : rank x = d.rank := by
  rw [rank, h]

theorem signBit_datum (h : x.isNaN = false) : (datum x).signBit = signBit x := by
  cases hd : datum x with
  | nan =>
    rw [isNaN_eq, hd] at h
    cases h
  | infinity negative => exact (signBit_of_infinity hd).symm
  | finite negative m k => exact (signBit_of_datum hd).symm

theorem magnitudeRank_le (d : Datum) (hd : d.Canonical) : d.magnitudeRank ≤ topRank := by
  cases d with
  | nan => exact Nat.zero_le _
  | infinity negative => exact le_rfl
  | finite negative m k => exact (magnitudeRank_lt_topRank hd).le

/-- The pattern of a datum is its sign bit and the rank of its magnitude. -/
theorem toBits_ofDatum_eq_rank {d : Datum} (hd : d.Canonical) (h : d.isNaN = false) :
    (ofDatum d).toBits.toNat = d.signBit.toNat * 2 ^ 63 + d.magnitudeRank := by
  cases d with
  | nan => cases h
  | infinity negative => cases negative <;> rfl
  | finite negative m k =>
    have hc : Canonical m k := hd
    rcases Nat.eq_zero_or_pos m with rfl | hm
    · obtain rfl : k = -1074 := by
        have hnormal := hc.normal
        omega
      cases negative <;> rfl
    · rw [ofDatum, toBits_ofModel, Datum.unpacked_finite hm, pack_finite_toNat hm hc, toNat_sign,
        add_assoc, fields_eq_magnitudeRank hc]
      rfl

/-- The pattern of a value is its sign bit and the magnitude of its rank. -/
theorem toBits_eq_rank (h : x.isNaN = false) :
    x.toBits.toNat = (signBit x).toNat * 2 ^ 63 + (rank x).natAbs := by
  have habs : (rank x).natAbs = (datum x).magnitudeRank := by
    unfold rank Datum.rank
    split_ifs <;> omega
  rw [← signBit_datum h, habs, ← toBits_ofDatum_eq_rank (datum_canonical x) (isNaN_eq x ▸ h),
    ofDatum_datum]

/-- No value has a rank beyond those of the infinities. -/
theorem natAbs_rank_le (x : Float) : (rank x).natAbs ≤ topRank := by
  have hle := magnitudeRank_le (datum x) (datum_canonical x)
  unfold rank Datum.rank
  split_ifs <;> omega

/-- A negative rank has the sign bit set, and a positive one has it not. -/
theorem signBit_of_rank (h : x.isNaN = false) :
    (rank x < 0 → signBit x = true) ∧ (0 < rank x → signBit x = false) := by
  rw [← signBit_datum h]
  unfold rank Datum.rank
  split_ifs with hsign
  · exact ⟨fun _ => hsign, fun hpos => by omega⟩
  · exact ⟨fun hneg => by omega, fun _ => Bool.eq_false_of_not_eq_true hsign⟩

/-- Other than zero, a value is known by its rank. -/
theorem eq_of_rank (hx : x.isNaN = false) (hy : y.isNaN = false) (h : rank x = rank y)
    (hne : rank x ≠ 0) : x = y := by
  have hsx := signBit_of_rank hx
  have hsy := signBit_of_rank hy
  have hsign : signBit x = signBit y := by
    rcases lt_or_gt_of_ne hne with hneg | hpos
    · rw [hsx.1 hneg, hsy.1 (h ▸ hneg)]
    · rw [hsx.2 hpos, hsy.2 (h ▸ hpos)]
  apply eq_of_toBits
  rw [toBits_eq_rank hx, toBits_eq_rank hy, hsign, h]

/-! ## The order of values -/

theorem compare_cast (r s : ℕ) : compare (r : ℤ) (s : ℤ) = compare r s := by
  rcases lt_trichotomy r s with h | rfl | h
  · rw [Nat.compare_eq_lt.mpr h, Int.compare_eq_lt.mpr (by omega)]
  · rw [Nat.compare_eq_eq.mpr rfl, Int.compare_eq_eq.mpr rfl]
  · rw [Nat.compare_eq_gt.mpr h, Int.compare_eq_gt.mpr (by omega)]

theorem compare_neg_cast (r s : ℕ) : compare (-(r : ℤ)) (-(s : ℤ)) = (compare r s).swap := by
  rcases lt_trichotomy r s with h | rfl | h
  · rw [Nat.compare_eq_lt.mpr h, Int.compare_eq_gt.mpr (by omega)]
    rfl
  · rw [Nat.compare_eq_eq.mpr rfl, Int.compare_eq_eq.mpr rfl]
    rfl
  · rw [Nat.compare_eq_gt.mpr h, Int.compare_eq_lt.mpr (by omega)]
    rfl

/-- Numbers are compared as signed integers are that order their magnitudes. -/
theorem compare_unpacked {r s : ℕ} (hm : 0 < r ↔ 0 < m) (hn : 0 < s ↔ 0 < n)
    (h : (compare j k).then (compare m n) = compare r s) :
    (Datum.finite a m j).unpacked.compare (Datum.finite b n k).unpacked =
      some (compare (if a then -(r : ℤ) else r) (if b then -(s : ℤ) else s)) := by
  rcases Nat.eq_zero_or_pos m with rfl | hmpos <;> rcases Nat.eq_zero_or_pos n with rfl | hnpos
  · obtain rfl : r = 0 := by omega
    obtain rfl : s = 0 := by omega
    cases a <;> cases b <;> rfl
  · obtain rfl : r = 0 := by omega
    rw [Datum.unpacked_zero, Datum.unpacked_finite hnpos]
    cases b
    · exact congrArg some (Int.compare_eq_lt.mpr (by grind)).symm
    · exact congrArg some (Int.compare_eq_gt.mpr (by grind)).symm
  · obtain rfl : s = 0 := by omega
    rw [Datum.unpacked_zero, Datum.unpacked_finite hmpos]
    cases a
    · exact congrArg some (Int.compare_eq_gt.mpr (by grind)).symm
    · exact congrArg some (Int.compare_eq_lt.mpr (by grind)).symm
  · rw [Datum.unpacked_finite hmpos, Datum.unpacked_finite hnpos]
    cases a <;> cases b
    · exact congrArg some (h.trans (compare_cast r s).symm)
    · exact congrArg some (Int.compare_eq_gt.mpr (by grind)).symm
    · exact congrArg some (Int.compare_eq_lt.mpr (by grind)).symm
    · exact congrArg some ((congrArg _ h).trans (compare_neg_cast r s).symm)

/-- Infinity is above all numbers, and its negative below them. -/
theorem compare_unpacked_infinity {s : ℕ} (hs : s < topRank) :
    (Datum.infinity a).unpacked.compare (Datum.finite b n k).unpacked =
        some (compare (if a then -(topRank : ℤ) else topRank) (if b then -(s : ℤ) else s)) ∧
      (Datum.finite b n k).unpacked.compare (Datum.infinity a).unpacked =
        some (compare (if b then -(s : ℤ) else s) (if a then -(topRank : ℤ) else topRank)) := by
  generalize topRank = r at *
  have hlt : (if b then -(s : ℤ) else s) < r ∧ -(r : ℤ) < if b then -(s : ℤ) else s := by
    split_ifs <;> omega
  generalize (if b then -(s : ℤ) else s) = t at *
  rcases Nat.eq_zero_or_pos n with rfl | hn
  · rw [Datum.unpacked_zero]
    cases a
    · exact ⟨congrArg some (Int.compare_eq_gt.mpr hlt.1).symm,
        congrArg some (Int.compare_eq_lt.mpr hlt.1).symm⟩
    · exact ⟨congrArg some (Int.compare_eq_lt.mpr hlt.2).symm,
        congrArg some (Int.compare_eq_gt.mpr hlt.2).symm⟩
  · rw [Datum.unpacked_finite hn]
    cases a
    · exact ⟨congrArg some (Int.compare_eq_gt.mpr hlt.1).symm,
        by cases b <;> exact congrArg some (Int.compare_eq_lt.mpr hlt.1).symm⟩
    · exact ⟨congrArg some (Int.compare_eq_lt.mpr hlt.2).symm,
        by cases b <;> exact congrArg some (Int.compare_eq_gt.mpr hlt.2).symm⟩

/-- Values other than NaNs are compared as their ranks are. -/
theorem compare_rank (hx : x.isNaN = false) (hy : y.isNaN = false) :
    (datum x).unpacked.compare (datum y).unpacked = some (compare (rank x) (rank y)) := by
  rw [isNaN_eq] at hx hy
  have hc := datum_canonical x
  have hd := datum_canonical y
  unfold rank
  generalize datum x = d at *
  generalize datum y = e at *
  cases d with
  | nan => cases hx
  | infinity a =>
    cases e with
    | nan => cases hy
    | infinity b => cases a <;> cases b <;> rfl
    | finite b n k => exact (compare_unpacked_infinity (magnitudeRank_lt_topRank hd)).1
  | finite a m j =>
    cases e with
    | nan => cases hy
    | infinity b => exact (compare_unpacked_infinity (magnitudeRank_lt_topRank hc)).2
    | finite b n k =>
      exact compare_unpacked (magnitudeRank_pos_iff hc) (magnitudeRank_pos_iff hd)
        (compare_magnitudeRank hc hd)

theorem lt_iff_rank (hx : x.isNaN = false) (hy : y.isNaN = false) : x < y ↔ rank x < rank y := by
  rw [lt_iff, compare_rank hx hy, Option.some.injEq, Int.compare_eq_lt]

theorem le_iff_rank (hx : x.isNaN = false) (hy : y.isNaN = false) : x ≤ y ↔ rank x ≤ rank y := by
  rw [le_iff, compare_rank hx hy, Option.any_some, Ordering.isLE_iff_ne_gt,
    ← not_lt]
  exact not_congr Int.compare_eq_gt

theorem beq_rank (hx : x.isNaN = false) (hy : y.isNaN = false) :
    (x == y) = decide (rank x = rank y) := by
  rw [beq_eq, compare_rank hx hy, Bool.eq_iff_iff, beq_iff_eq, Option.some.injEq,
    Int.compare_eq_eq, decide_eq_true_iff]

theorem compare_notANumber (u : UnpackedFloat) : u.compare .notANumber = none := by
  cases u <;> rfl

/-- Only values that are not NaNs are compared at all. -/
theorem isNaN_of_compare {order : Ordering}
    (h : (datum x).unpacked.compare (datum y).unpacked = some order) :
    x.isNaN = false ∧ y.isNaN = false := by
  rw [isNaN_eq, isNaN_eq]
  constructor
  · cases hx : datum x with
    | nan =>
      rw [hx] at h
      cases h
    | infinity | finite => rfl
  · cases hy : datum y with
    | nan =>
      rw [hy, Datum.unpacked, compare_notANumber] at h
      cases h
    | infinity | finite => rfl

theorem isNaN_of_lt (h : x < y) : x.isNaN = false ∧ y.isNaN = false :=
  isNaN_of_compare ((lt_iff x y).mp h)

theorem isNaN_of_beq (h : (x == y) = true) : x.isNaN = false ∧ y.isNaN = false :=
  isNaN_of_compare (beq_iff_eq.mp ((beq_eq x y).symm.trans h))

theorem trans_lt {z : Float} (hxy : x < y) (hyz : y < z) : x < z := by
  obtain ⟨hx, hy⟩ := isNaN_of_lt hxy
  obtain ⟨-, hz⟩ := isNaN_of_lt hyz
  rw [lt_iff_rank hx hy] at hxy
  rw [lt_iff_rank hy hz] at hyz
  exact (lt_iff_rank hx hz).mpr (hxy.trans hyz)

theorem beq_trans_lt {z : Float} (hxy : (x == y) = true) (hxz : x < z) : y < z := by
  obtain ⟨hx, hy⟩ := isNaN_of_beq hxy
  obtain ⟨-, hz⟩ := isNaN_of_lt hxz
  rw [beq_rank hx hy, decide_eq_true_iff] at hxy
  rw [lt_iff_rank hx hz, hxy] at hxz
  exact (lt_iff_rank hy hz).mpr hxz

/-! ## From a rank to its value -/

/-- The datum of a sign and the rank of a magnitude. -/
def Datum.ofRank (negative : Bool) (r : ℕ) : Datum :=
  if r = topRank then infinity negative
  else if r < 2 ^ 52 then finite negative r (-1074)
  else finite negative (r % 2 ^ 52 + 2 ^ 52) ((r / 2 ^ 52 : ℕ) - 1075)

theorem ofRank_spec (negative : Bool) {r : ℕ} (h : r ≤ topRank) :
    (Datum.ofRank negative r).Canonical ∧ (Datum.ofRank negative r).isNaN = false ∧
      (Datum.ofRank negative r).signBit = negative ∧
      (Datum.ofRank negative r).magnitudeRank = r := by
  unfold topRank at h
  unfold Datum.ofRank
  split_ifs with htop hsmall
  · exact ⟨trivial, rfl, rfl, htop.symm⟩
  · refine ⟨⟨by omega, le_rfl, by norm_num, .inl rfl⟩, rfl, rfl, ?_⟩
    show magnitudeRank r (-1074) = r
    unfold magnitudeRank
    omega
  · unfold topRank at htop
    refine ⟨⟨by omega, by omega, by omega, .inr (by omega)⟩, rfl, rfl, ?_⟩
    show magnitudeRank (r % 2 ^ 52 + 2 ^ 52) _ = r
    unfold magnitudeRank
    omega

/-- A sign bit in front of the rank of a magnitude is the pattern of a value with that rank. -/
theorem rank_ofBits (negative : Bool) {r : ℕ} (h : r ≤ topRank) :
    (Float.ofBits (UInt64.ofNat (negative.toNat * 2 ^ 63 + r))).isNaN = false ∧
      rank (Float.ofBits (UInt64.ofNat (negative.toNat * 2 ^ 63 + r))) =
        if negative then -(r : ℤ) else r := by
  obtain ⟨hcanonical, hnan, hsign, hrank⟩ := ofRank_spec negative h
  have hbits := toBits_ofDatum_eq_rank hcanonical hnan
  rw [hsign, hrank] at hbits
  rw [ofBits_of_toNat hbits]
  refine ⟨by rw [isNaN_eq, datum_ofDatum hcanonical, hnan], ?_⟩
  rw [rank, datum_ofDatum hcanonical, Datum.rank, hsign, hrank]

end Calculator.Binary64
