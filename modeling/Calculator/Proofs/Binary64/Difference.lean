import Calculator.Proofs.Binary64.Number

/-!
# Differences

Results:
* `sub_of_ne`, `sub_eq`: the difference of two numbers is the value nearest to the exact one.
* `sub_self_eq`: nothing is left of a number without itself, and that has no sign.
* `le_nearestDatum`: what is at least a power of two is rounded to at least that power.
* `exists_number_of_lt_half`: what is below one half is a number or negative infinity.
* `not_one_sub_lt_half`: the distance of 1 from a number below one half is at least one half.
-/

namespace Calculator.Binary64

open Float.Model Float.Model.UnpackedFloat

variable {x y : Float} {m n : ℕ} {j k : ℤ}

/-- A sign in front of an integer. -/
theorem apply_sign (negative : Bool) (n : ℤ) :
    (Datum.sign negative).apply n = if negative then -n else n := by
  cases negative <;> rfl

/-- An integer times a power of two is rounded to the value nearest to it. -/
theorem pack_normalize {n e : ℤ} (hn : n ≠ 0) :
    Float.ofModel (.pack (UnpackedFloat.normalize Format.binary64 n e .positive)) =
      ofMagnitude (decide (n < 0)) (|(n : ℚ)| * 2 ^ e) := by
  have hpos : 0 < n.natAbs := Int.natAbs_pos.mpr hn
  have habs : |(n : ℚ)| = n.natAbs := by rw [Nat.cast_natAbs, Int.cast_abs]
  rw [UnpackedFloat.normalize, habs]
  rcases lt_or_gt_of_ne hn with hneg | hpos'
  · have hnat : (-n).toNat = n.natAbs := by omega
    rw [Int.compare_eq_lt.mpr hneg, decide_eq_true hneg, ← pack_round true hpos, ← hnat]
    rfl
  · have hnat : n.toNat = n.natAbs := by omega
    rw [Int.compare_eq_gt.mpr hpos', decide_eq_false hpos'.not_gt, ← pack_round false hpos, ← hnat]
    rfl

/-- A magnitude at a lower place. -/
theorem decreaseExponent_eq {e : ℤ} (h : e ≤ k) :
    ((decreaseExponent m k e).1 * 2 ^ e : ℚ) = m * 2 ^ k := by
  have hshift : ((k - e).toNat : ℤ) = k - e := by omega
  rw [decreaseExponent, Nat.shiftLeft_eq]
  push_cast
  rw [← zpow_natCast, hshift, mul_assoc, ← zpow_add₀ (by norm_num), sub_add_cancel]

/-- A value other than zero as it is unpacked. -/
theorem pack_unpacked (negative : Bool) (hc : Canonical m k) (hm : 0 < m) :
    Float.ofModel (.pack (.finite (Datum.sign negative) m k hm)) =
      ofMagnitude negative (m * 2 ^ k) := by
  rw [ofMagnitude, nearestDatum_exact hc, ofDatum, Datum.unpacked_finite hm]

/-- The difference of two numbers other than zero, which is exact before it is rounded. -/
theorem pack_sub {a b : Bool} (hm : 0 < m) (hn : 0 < n)
    (h : signedNumber a m j ≠ signedNumber b n k) :
    Float.ofModel (.pack (UnpackedFloat.sub Format.binary64 (.finite (Datum.sign a) m j hm)
      (.finite (Datum.sign b) n k hn))) =
        ofMagnitude (decide (signedNumber a m j < signedNumber b n k))
          |signedNumber a m j - signedNumber b n k| := by
  obtain ⟨e, he⟩ : ∃ e, min j k = e := ⟨_, rfl⟩
  have hj := decreaseExponent_eq (m := m) (he ▸ min_le_left j k)
  have hk := decreaseExponent_eq (m := n) (he ▸ min_le_right j k)
  show Float.ofModel (.pack (UnpackedFloat.normalize Format.binary64
    ((Datum.sign a).apply (decreaseExponent m j (min j k)).1 -
      (Datum.sign b).apply (decreaseExponent n k (min j k)).1) (min j k) .positive)) = _
  rw [he, apply_sign, apply_sign]
  generalize (decreaseExponent m j e).1 = m' at *
  generalize (decreaseExponent n k e).1 = n' at *
  obtain ⟨z, hz⟩ : ∃ z, (if a then -(m' : ℤ) else m') - (if b then -(n' : ℤ) else n') = z := ⟨_, rfl⟩
  have hp := two_zpow_pos e
  -- the difference of the integers at the common place is the exact one
  have hexact : (z * 2 ^ e : ℚ) = signedNumber a m j - signedNumber b n k := by
    unfold signedNumber
    rw [← hj, ← hk, ← hz]
    split_ifs <;> push_cast <;> ring
  have hne : z ≠ 0 := by
    rintro rfl
    rw [Int.cast_zero, zero_mul] at hexact
    exact h (sub_eq_zero.mp hexact.symm)
  have hneg : z < 0 ↔ signedNumber a m j < signedNumber b n k := by
    rw [← sub_neg (a := signedNumber a m j), ← hexact, ← Int.cast_lt_zero (R := ℚ)]
    exact ⟨fun hz => mul_neg_of_neg_of_pos hz hp,
      fun h => lt_of_mul_lt_mul_right (h.trans_eq (zero_mul _).symm) hp.le⟩
  rw [hz, pack_normalize hne, ← hexact, abs_mul, abs_of_pos hp, decide_eq_decide.mpr hneg]

theorem sub_model (x y : Float) : x - y = Float.ofModel
    (.pack (UnpackedFloat.sub Format.binary64 (datum x).unpacked (datum y).unpacked)) := by
  rw [← unpack_eq, ← unpack_eq]
  rfl

/-- A difference other than zero is the value nearest to the exact one. -/
theorem sub_of_ne {p q : ℚ} (hx : number? x = some p) (hy : number? y = some q) (h : p ≠ q) :
    x - y = ofMagnitude (decide (p < q)) |p - q| := by
  obtain ⟨a, m, j, hdx, rfl⟩ := exists_datum hx
  obtain ⟨b, n, k, hdy, rfl⟩ := exists_datum hy
  rw [sub_model, hdx, hdy]
  rcases Nat.eq_zero_or_pos m with rfl | hm <;> rcases Nat.eq_zero_or_pos n with rfl | hn
  · rw [signedNumber_zero, signedNumber_zero] at h
    exact absurd rfl h
  · have hpos := magnitude_pos (k := k) hn
    rw [signedNumber_zero, zero_sub, abs_neg, abs_signedNumber, Datum.unpacked_zero,
      Datum.unpacked_finite hn]
    cases b
    · rw [signedNumber, if_neg Bool.false_ne_true, decide_eq_true hpos]
      exact pack_unpacked true (canonical_of_datum hdy) hn
    · rw [signedNumber, if_pos rfl, decide_eq_false (by linarith)]
      exact pack_unpacked false (canonical_of_datum hdy) hn
  · have hpos := magnitude_pos (k := j) hm
    rw [signedNumber_zero, sub_zero, abs_signedNumber, Datum.unpacked_zero,
      Datum.unpacked_finite hm]
    cases a
    · rw [signedNumber, if_neg Bool.false_ne_true, decide_eq_false hpos.not_gt]
      exact pack_unpacked false (canonical_of_datum hdx) hm
    · rw [signedNumber, if_pos rfl, decide_eq_true (by linarith)]
      exact pack_unpacked true (canonical_of_datum hdx) hm
  · rw [Datum.unpacked_finite hm, Datum.unpacked_finite hn]
    exact pack_sub hm hn h

/-- A difference is the value nearest to the exact one. -/
theorem sub_eq {p q : ℚ} (hx : number? x = some p) (hy : number? y = some q) (h : q < p) :
    x - y = ofMagnitude false (p - q) := by
  rw [sub_of_ne hx hy h.ne', decide_eq_false h.not_gt, abs_of_pos (sub_pos.mpr h)]

/-- Nothing is left of a number without itself, and that has no sign. -/
theorem sub_self_eq {a : Bool} (hx : datum x = .finite a m j) : x - x = ofMagnitude false 0 := by
  rw [sub_model, hx, ← ofDatum_zero false 0]
  rcases Nat.eq_zero_or_pos m with rfl | hm
  · cases a <;> rfl
  · rw [Datum.unpacked_finite hm]
    show Float.ofModel (.pack (UnpackedFloat.normalize Format.binary64
      ((Datum.sign a).apply (decreaseExponent m j (min j j)).1 -
        (Datum.sign a).apply (decreaseExponent m j (min j j)).1) (min j j) .positive)) = _
    rw [sub_self]
    rfl

/-- What is at least a power of two is rounded to at least that power. -/
theorem le_nearestDatum (negative : Bool) {v : ℚ} (hk : -1074 ≤ k) (h : 2 ^ 52 * 2 ^ k ≤ v) :
    nearestDatum negative v = .infinity negative ∨ ∃ m j,
      nearestDatum negative v = .finite negative m j ∧ (2 ^ 52 * 2 ^ k : ℚ) ≤ m * 2 ^ j := by
  have hkpos := two_zpow_pos k
  have hv : 0 < v := lt_of_lt_of_le (by positivity) h
  obtain ⟨l, hl⟩ : ∃ l, lastPlace v = l := ⟨_, rfl⟩
  have hlpos := two_zpow_pos l
  have hkl : k ≤ l := hl ▸ le_lastPlace_of_le h
  have hpow : (2 : ℚ) ^ k ≤ 2 ^ l := zpow_le_zpow_right₀ (by norm_num) hkl
  have hrounded : 2 ^ 52 ≤ nearestEven (v / 2 ^ l) := by
    by_cases hlow : lastPlace v = -1074
    · refine le_nearestEven ?_
      obtain rfl : k = l := by omega
      rw [le_div_iff₀ hlpos]
      exact_mod_cast h
    · exact hl ▸ le_nearestEven_lastPlace hv hlow
  rw [nearestDatum, if_neg hv.ne', hl]
  dsimp only
  split_ifs
  · exact .inl rfl
  · refine .inr ⟨2 ^ 52, l + 1, rfl, ?_⟩
    rw [two_zpow_pred (l + 1), Int.add_sub_cancel]
    push_cast
    linarith
  · exact .inl rfl
  · refine .inr ⟨_, l, rfl, mul_le_mul ?_ hpow hkpos.le (Nat.cast_nonneg _)⟩
    exact_mod_cast hrounded

theorem number?_one : number? 1.0 = some 1 := by
  have hd : datum 1.0 = .finite false (2 ^ 52) (-52) := by rfl
  rw [number?_of_datum hd, signedNumber, if_neg (by decide)]
  norm_num

theorem number?_half : number? 0.5 = some (1 / 2) := by
  have hd : datum 0.5 = .finite false (2 ^ 52) (-53) := by rfl
  rw [number?_of_datum hd, signedNumber, if_neg (by decide)]
  norm_num

/-- What is below one half and not negative infinity is a number. -/
theorem exists_number_of_lt_half (hx : x < 0.5) (hinf : x ≠ -infinity) :
    ∃ p, number? x = some p := by
  have hhalf : datum 0.5 = .finite false (2 ^ 52) (-53) := by rfl
  rw [lt_iff, hhalf, Datum.unpacked_finite (by norm_num)] at hx
  cases hd : datum x with
  | nan =>
    rw [hd] at hx
    cases hx
  | infinity negative =>
    rw [hd] at hx
    cases negative with
    | false => cases hx
    | true => exact absurd (datum_injective (by rw [hd]; rfl)) hinf
  | finite negative m k => exact ⟨_, number?_of_datum hd⟩

/-- The distance of 1 from a number below one half is at least one half. -/
theorem not_one_sub_lt_half {p : ℚ} (hx : number? x = some p) (h : x < 0.5) :
    ¬ (1.0 - x < 0.5) := by
  rw [lt_iff_number hx number?_half] at h
  have hv : (2 ^ 52 * 2 ^ (-53 : ℤ) : ℚ) ≤ 1 - p := by
    norm_num
    linarith
  have hdatum : datum (1.0 - x) = nearestDatum false (1 - p) := by
    rw [sub_eq number?_one hx (by linarith), datum_ofMagnitude false (by linarith)]
  rcases le_nearestDatum false (by norm_num) hv with hinf | ⟨m, j, hfinite, hle⟩
  · have hd : datum 0.5 = .finite false (2 ^ 52) (-53) := by rfl
    rw [lt_iff, hdatum, hinf, hd, Datum.unpacked_finite (by norm_num)]
    nofun
  · rw [hfinite] at hdatum
    rw [lt_iff_number (number?_of_datum hdatum) number?_half, signedNumber, if_neg (by decide)]
    norm_num at hle ⊢
    exact hle

end Calculator.Binary64
