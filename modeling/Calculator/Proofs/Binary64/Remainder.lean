import Calculator.Function.Rounding
import Calculator.Proofs.Binary64.Exact

/-!
# Remainders

What a division leaves is a multiple of the finer last place of the two operands, and has no more
bits than the coarser one.  So `fmod` is exact.  `remainder` compares what is left of the divisor
with what is left over; the difference is rounded, but not past what it is compared with, and it is
exact where it is not the greater one.  At a tie the dividend is an odd multiple of what is left
over, and its half rest tells the parity of the quotient.

Results:
* `datum_fmod`: what `fmod` leaves.
* `magnitudeRemainder_exact`: what is left of magnitudes by the nearest quotient.
* `remainder_exact`: `remainder` of all pairs of values.
-/

namespace Calculator.Binary64

variable {x y : Float} {a b : Bool} {m n : ℕ} {j k u : ℤ} {p q v : ℚ}

/-! ## Division with remainder -/

/-- What is left of a magnitude by a division with remainder. -/
def leftOver (p q : ℚ) : ℚ := p - ⌊p / q⌋₊ * q

/-- Multiples of one unit are divided as their numbers are. -/
theorem leftOver_units (M N : ℕ) (u : ℤ) :
    leftOver (M * 2 ^ u) (N * 2 ^ u) = (M % N : ℕ) * 2 ^ u := by
  have hdiv : (M : ℚ) = N * (M / N : ℕ) + (M % N : ℕ) := by exact_mod_cast (Nat.div_add_mod M N).symm
  rw [leftOver, mul_div_mul_right _ _ (two_zpow_pos u).ne', Nat.floor_div_eq_div, hdiv]
  ring

/-- A significand in units of a lower place. -/
def inUnits (m : ℕ) (j u : ℤ) : ℕ := m <<< (j - u).toNat

theorem inUnits_eq (h : u ≤ j) : (inUnits m j u * 2 ^ u : ℚ) = m * 2 ^ j := decreaseExponent_eq h

theorem inUnits_self (m : ℕ) (j : ℤ) : inUnits m j j = m := by
  rw [inUnits, sub_self, Int.toNat_zero, Nat.shiftLeft_zero]

theorem inUnits_pos (hm : 0 < m) (j u : ℤ) : 0 < inUnits m j u := by
  rw [inUnits, Nat.shiftLeft_eq]
  positivity

/-- In units of the lower one of two places, what is left has no more bits than one of the two
significands. -/
theorem inUnits_mod_lt (hm : m < 2 ^ 53) (hn : n < 2 ^ 53) (hpos : 0 < n) :
    inUnits m j (min j k) % inUnits n k (min j k) < 2 ^ 53 := by
  rcases min_choice j k with h | h
  · rw [h, inUnits_self]
    exact (Nat.mod_le _ _).trans_lt hm
  · rw [h, inUnits_self]
    exact (Nat.mod_lt _ hpos).trans hn

/-- What `fmod` leaves is what the division with remainder leaves of the magnitudes, with the sign of
the dividend. -/
theorem datum_fmod (hx : datum x = .finite a m j) (hy : datum y = .finite b n k) (hn : 0 < n) :
    ∃ s i, datum (fmod x y) = .finite a s i ∧
      (s * 2 ^ i : ℚ) = leftOver (m * 2 ^ j) (n * 2 ^ k) := by
  have hc := canonical_of_datum hx
  have hc' := canonical_of_datum hy
  have hlow := hc.le_exponent
  have hlow' := hc'.le_exponent
  have hhigh := hc.exponent_le
  obtain ⟨u, hu⟩ : ∃ u, min j k = u := ⟨_, rfl⟩
  have hm := inUnits_eq (m := m) (hu ▸ min_le_left j k)
  have hn' := inUnits_eq (m := n) (hu ▸ min_le_right j k)
  have hlt := inUnits_mod_lt (j := j) (k := k) hc.significand_lt hc'.significand_lt hn
  have hfmod : fmod x y = copySign (Float.ofNat
      (inUnits m j (min j k) % inUnits n k (min j k)) * twoPow (min j k)) x := by
    rw [fmod, hx, hy]
    exact if_neg hn.ne'
  rw [hu] at hfmod hlt
  rw [← hm, ← hn', leftOver_units]
  have hle : inUnits m j u % inUnits n k u ≤ inUnits m j u := Nat.mod_le _ _
  generalize inUnits m j u % inUnits n k u = left at *
  obtain ⟨c, i, hd, hvalue⟩ := datum_ofNat_small hlt
  have hrange : (left * 2 ^ u : ℚ) < 2 ^ 1024 := by
    refine lt_of_le_of_lt (mul_le_mul_of_nonneg_right ?_ (two_zpow_pos u).le)
      (hm.trans_lt (magnitude_lt hc))
    exact_mod_cast hle
  obtain ⟨s, i', hd', hvalue'⟩ := datum_ofMagnitude_exact false hlt (by omega : -1074 ≤ u) hrange
  rw [← hvalue, ← mul_twoPow hd (by omega) (by omega)] at hd'
  refine ⟨s, i', ?_, hvalue'⟩
  rw [hfmod, datum_copySign hd', signBit_of_datum hx]

/-! ## The nearest quotient of magnitudes -/

/-- What is left of positive values by the nearest quotient, negative if that is the greater one. -/
def magnitudeRemainder (x y : Float) : Float :=
  let m := fmod x y
  let c := y - m
  if m < c then m
  else if c < m then -c
  else m - 2.0 * fmod (0.5 * (x - m)) y

/-- Two magnitudes in units of the lower one of their last places, divided with remainder. -/
structure Divided (p q : ℚ) (u : ℤ) (N d l : ℕ) : Prop where
  le_place : -1074 ≤ u
  dividend : p = (N * d + l : ℕ) * 2 ^ u
  divisor : q = N * 2 ^ u
  lt_divisor : l < N
  lt_bits : l < 2 ^ 53
  left : leftOver p q = l * 2 ^ u

namespace Divided

variable {N d l : ℕ}

theorem lower (h : Divided p q u N d l) : p - d * q = l * 2 ^ u := by
  rw [h.dividend, h.divisor]
  push_cast
  ring

theorem upper (h : Divided p q u N d l) : p - (d + 1 : ℕ) * q = -((N - l : ℕ) * 2 ^ u) := by
  rw [h.dividend, h.divisor, Nat.cast_sub h.lt_divisor.le]
  push_cast
  ring

theorem rest_le (h : Divided p q u N d l) : ((N - l : ℕ) * 2 ^ u : ℚ) ≤ q := by
  rw [h.divisor]
  exact mul_le_mul_of_nonneg_right (by exact_mod_cast Nat.sub_le N l) (two_zpow_pos u).le

end Divided

/-- Whether a value is what is left of a magnitude by the nearest quotient, the even one at a tie;
nothing is left without a sign. -/
def IsNearestRest (r : Float) (p q : ℚ) : Prop :=
  ∃ s t c, datum r = .finite s t c ∧ (t = 0 → s = false) ∧
    ∃ z : ℕ, signedNumber s t c = p - z * q ∧
      (2 * |p - z * q| < q ∨ 2 * |p - z * q| = q ∧ z % 2 = 0)

theorem exists_divided (hc : Canonical m j) (hc' : Canonical n k) (hn : 0 < n) :
    ∃ u N d l, Divided (m * 2 ^ j) (n * 2 ^ k) u N d l ∧ u ≤ j := by
  have hlow := hc.le_exponent
  have hlow' := hc'.le_exponent
  have hm := inUnits_eq (m := m) (min_le_left j k)
  have hn' := inUnits_eq (m := n) (min_le_right j k)
  refine ⟨min j k, inUnits n k (min j k), inUnits m j (min j k) / inUnits n k (min j k),
    inUnits m j (min j k) % inUnits n k (min j k), ⟨by omega, ?_, hn'.symm,
      Nat.mod_lt _ (inUnits_pos hn _ _), inUnits_mod_lt hc.significand_lt hc'.significand_lt hn, ?_⟩,
    min_le_left j k⟩
  · rw [Nat.div_add_mod, hm]
  · rw [← leftOver_units, hm, hn']

section Branches

variable {N d l s : ℕ} {i : ℤ} {left : Float} (hd : Divided (m * 2 ^ j) (n * 2 ^ k) u N d l)
  (hy : datum y = .finite false n k) (hleft : datum left = .finite false s i)
  (hvalue : (s * 2 ^ i : ℚ) = l * 2 ^ u)

include hd hy hleft hvalue

/-- What the divisor is more than what is left over, rounded once. -/
theorem difference_eq : y - left = ofMagnitude false ((N - l : ℕ) * 2 ^ u) := by
  have hlt : (s * 2 ^ i : ℚ) < n * 2 ^ k := by
    rw [hvalue, hd.divisor]
    exact mul_lt_mul_of_pos_right (by exact_mod_cast hd.lt_divisor) (two_zpow_pos u)
  rw [sub_of_le hy hleft hlt.le, hvalue, hd.divisor, Nat.cast_sub hd.lt_divisor.le, sub_mul]

/-- It is a number, even if it is rounded. -/
theorem exists_number_difference : ∃ r, number? (y - left) = some r := by
  rw [difference_eq hd hy hleft hvalue]
  exact exists_number_ofMagnitude (magnitude_nonneg _ u)
    (hd.rest_le.trans_lt (lt_overflowBound (number?_of_positive hy)))

/-- The difference is not rounded past what is left over: the multiple of the unit behind that is a
value. -/
theorem left_lt_difference (h : 2 * l < N) : left < y - left := by
  obtain ⟨r, hr⟩ := exists_number_difference hd hy hleft hvalue
  have hp := two_zpow_pos u
  have hnext : ((l + 1 : ℕ) * 2 ^ u : ℚ) ≤ (N - l : ℕ) * 2 ^ u :=
    mul_le_mul_of_nonneg_right (by exact_mod_cast (by omega : l + 1 ≤ N - l)) hp.le
  have hrange : ((l + 1 : ℕ) * 2 ^ u : ℚ) < 2 ^ 1024 :=
    (hnext.trans hd.rest_le).trans_lt (magnitude_lt (canonical_of_datum hy))
  have hw := number?_ofMagnitude (Nat.succ_le_of_lt hd.lt_bits) hd.le_place hrange
  rw [lt_iff_number (number?_of_positive hleft) hr, hvalue]
  rw [difference_eq hd hy hleft hvalue] at hr
  refine lt_of_lt_of_le ?_ (le_of_le_magnitude hw (mul_pos (by positivity) hp) hnext hr)
  exact mul_lt_mul_of_pos_right (by exact_mod_cast Nat.lt_succ_self l) hp

/-- The difference is exact where it is not the greater one. -/
theorem datum_difference (h : N ≤ 2 * l) :
    ∃ t c, datum (y - left) = .finite false t c ∧ (t * 2 ^ c : ℚ) = (N - l : ℕ) * 2 ^ u := by
  have hbits : N - l < 2 ^ 53 := by
    have := hd.lt_bits
    omega
  rw [difference_eq hd hy hleft hvalue]
  exact datum_ofMagnitude_exact false hbits hd.le_place
    (hd.rest_le.trans_lt (magnitude_lt (canonical_of_datum hy)))

omit hy in
/-- The lower quotient is nearer where what is left over is less than the rest of the divisor. -/
theorem isNearestRest_lower (h : 2 * l < N) : IsNearestRest left (m * 2 ^ j) (n * 2 ^ k) := by
  have hp := two_zpow_pos u
  have hlt : 2 * (l * 2 ^ u : ℚ) < N * 2 ^ u := by
    rw [← mul_assoc]
    exact mul_lt_mul_of_pos_right (by exact_mod_cast h) hp
  refine ⟨false, s, i, hleft, fun _ => rfl, d, hvalue.trans hd.lower.symm, .inl ?_⟩
  rwa [hd.lower, abs_of_nonneg (mul_nonneg (Nat.cast_nonneg l) hp.le), hd.divisor]

/-- The upper quotient is nearer where it is more. -/
theorem isNearestRest_upper (h : N < 2 * l) :
    IsNearestRest (-(y - left)) (m * 2 ^ j) (n * 2 ^ k) := by
  obtain ⟨t, c, hdiff, hdvalue⟩ := datum_difference hd hy hleft hvalue h.le
  have hp := two_zpow_pos u
  have hpos : (0 : ℚ) < (N - l : ℕ) * 2 ^ u :=
    mul_pos (by exact_mod_cast Nat.sub_pos_of_lt hd.lt_divisor) hp
  refine ⟨true, t, c, by rw [datum_neg, hdiff]; rfl, ?_, d + 1, ?_, .inl ?_⟩
  · rintro rfl
    rw [Nat.cast_zero, zero_mul] at hdvalue
    exact absurd hdvalue hpos.ne
  · rw [hd.upper, signedNumber, if_pos rfl, hdvalue]
  · have hlt : 2 * (N - l) < N := by
      have := hd.lt_divisor
      omega
    rw [hd.upper, abs_neg, abs_of_pos hpos, hd.divisor, ← mul_assoc]
    exact mul_lt_mul_of_pos_right (by exact_mod_cast hlt) hp

/-- The comparisons tell the cases apart, although the difference is rounded. -/
theorem left_lt_difference_iff : left < y - left ↔ 2 * l < N := by
  refine ⟨fun h => ?_, left_lt_difference hd hy hleft hvalue⟩
  by_contra hhigh
  obtain ⟨t, c, hdiff, hdvalue⟩ := datum_difference hd hy hleft hvalue (not_lt.mp hhigh)
  rw [lt_iff_magnitude hleft hdiff, hvalue, hdvalue, mul_lt_mul_iff_left₀ (two_zpow_pos u),
    Nat.cast_lt] at h
  omega

theorem difference_lt_left_iff (h : N ≤ 2 * l) : y - left < left ↔ N < 2 * l := by
  obtain ⟨t, c, hdiff, hdvalue⟩ := datum_difference hd hy hleft hvalue h
  rw [lt_iff_magnitude hdiff hleft, hvalue, hdvalue, mul_lt_mul_iff_left₀ (two_zpow_pos u),
    Nat.cast_lt]
  omega

end Branches

/-! ## Ties -/

variable {d g l : ℕ}

/-- At a tie the dividend is an odd multiple of what is left over, which has no lower last place. -/
theorem exists_tie_significand (hd : Divided (m * 2 ^ j) q u (2 * l) d l) (hu : u ≤ j) :
    ∃ g, m = (2 * d + 1) * g ∧ (l * 2 ^ u : ℚ) = g * 2 ^ j := by
  obtain ⟨shift, rfl⟩ := Int.exists_add_of_le hu
  have hodd : (2 * d + 1) * l = m * 2 ^ shift := by
    have hvalue := hd.dividend
    rw [two_zpow_add, ← mul_assoc] at hvalue
    have := mul_right_cancel₀ (two_zpow_pos u).ne' hvalue
    have : m * 2 ^ shift = 2 * l * d + l := by exact_mod_cast this
    rw [this]
    ring
  have hcoprime : Nat.Coprime (2 ^ shift) (2 * d + 1) :=
    Nat.Coprime.pow_left shift (by simp)
  have hdvd : 2 ^ shift ∣ (2 * d + 1) * l := hodd ▸ Nat.dvd_mul_left _ _
  obtain ⟨g, rfl⟩ := hcoprime.dvd_of_dvd_mul_left hdvd
  refine ⟨g, ?_, ?_⟩
  · refine Nat.eq_of_mul_eq_mul_right (Nat.two_pow_pos shift) ?_
    rw [← hodd]
    ring
  · rw [two_zpow_add]
    push_cast
    ring

section Halves

variable {left : Float} {s : ℕ} {i : ℤ} (hx : datum x = .finite false ((2 * d + 1) * g) j)
  (hleft : datum left = .finite false s i) (hvalue : (s * 2 ^ i : ℚ) = g * 2 ^ j)

theorem even_multiple_le {r : ℕ} (hr : r ≤ d) : 2 * (r * g) ≤ (2 * d + 1) * g :=
  calc 2 * (r * g) ≤ 2 * (d * g) := Nat.mul_le_mul_left 2 (Nat.mul_le_mul_right g hr)
    _ ≤ (2 * d + 1) * g := by
      rw [← Nat.mul_assoc]
      exact Nat.mul_le_mul_right g (Nat.le_succ _)

include hx hleft hvalue

/-- The rest of the dividend is an even multiple of what is left over, so half of it is exact. -/
theorem datum_half_rest : ∃ t c, datum (0.5 * (x - left)) = .finite false t c ∧
    (t * 2 ^ c : ℚ) = (d * g : ℕ) * 2 ^ j := by
  have hc := canonical_of_datum hx
  have hle : (s * 2 ^ i : ℚ) ≤ ((2 * d + 1) * g : ℕ) * 2 ^ j := by
    rw [hvalue]
    exact mul_le_mul_of_nonneg_right (by exact_mod_cast Nat.le_mul_of_pos_left g (by omega))
      (two_zpow_pos j).le
  have hrest : x - left = ofMagnitude false ((2 * (d * g) : ℕ) * 2 ^ j) := by
    rw [sub_of_le hx hleft hle, hvalue]
    congr 1
    push_cast
    ring
  obtain ⟨r, e, hr, hrvalue⟩ := datum_ofMagnitude_of_le hc (even_multiple_le le_rfl)
  rw [← hrest] at hr
  have hhalf : 0.5 * (x - left) = ofMagnitude false ((d * g : ℕ) * 2 ^ j) := by
    rw [half_mul_eq hr, hrvalue]
    congr 1
    push_cast
    ring
  rw [hhalf]
  exact datum_ofMagnitude_of_le hc (Nat.mul_le_mul_right g (by omega))

/-- The half rest of the dividend leaves nothing if the lower quotient is even, and what is left over
if it is odd; twice that is nothing or the divisor. -/
theorem datum_tie (hy : datum y = .finite false n k) (hn : 0 < n)
    (hdivisor : (n * 2 ^ k : ℚ) = (2 * g : ℕ) * 2 ^ j) :
    ∃ t c, datum (2.0 * fmod (0.5 * (x - left)) y) = .finite false t c ∧
      (t * 2 ^ c : ℚ) = (2 * (d % 2 * g) : ℕ) * 2 ^ j := by
  obtain ⟨r, e, hr, hrvalue⟩ := datum_half_rest hx hleft hvalue
  obtain ⟨f, c, hf, hfvalue⟩ := datum_fmod hr hy hn
  rw [hrvalue, hdivisor, leftOver_units, Nat.mul_mod_mul_right] at hfvalue
  have hdouble : 2.0 * fmod (0.5 * (x - left)) y =
      ofMagnitude false ((2 * (d % 2 * g) : ℕ) * 2 ^ j) := by
    rw [two_mul_eq hf, hfvalue]
    congr 1
    push_cast
    ring
  rw [hdouble]
  exact datum_ofMagnitude_of_le (canonical_of_datum hx) (even_multiple_le (Nat.mod_le d 2))

end Halves

/-- At a tie the even one of the two quotients is taken. -/
theorem isNearestRest_tie {left : Float} {s : ℕ} {i : ℤ}
    (hd : Divided (m * 2 ^ j) (n * 2 ^ k) u (2 * l) d l) (hu : u ≤ j)
    (hx : datum x = .finite false m j) (hy : datum y = .finite false n k) (hn : 0 < n)
    (hleft : datum left = .finite false s i) (hvalue : (s * 2 ^ i : ℚ) = l * 2 ^ u) :
    IsNearestRest (left - 2.0 * fmod (0.5 * (x - left)) y) (m * 2 ^ j) (n * 2 ^ k) := by
  have hl : 0 < l := by
    have := hd.lt_divisor
    omega
  have hpos : (0 : ℚ) < s * 2 ^ i := hvalue ▸ magnitude_pos hl
  have htie : (n * 2 ^ k : ℚ) = 2 * (s * 2 ^ i) := by
    rw [hd.divisor, hvalue]
    push_cast
    ring
  have hlower := hd.lower
  have hupper := hd.upper
  rw [two_mul l, Nat.add_sub_cancel] at hupper
  rw [← hvalue] at hlower hupper
  obtain ⟨g, rfl, hg⟩ := exists_tie_significand hd hu
  have hdivisor : (n * 2 ^ k : ℚ) = (2 * g : ℕ) * 2 ^ j := by
    rw [htie, hvalue, hg]
    push_cast
    ring
  obtain ⟨t, c, hrest, hrvalue⟩ := datum_tie hx hleft (hvalue.trans hg) hy hn hdivisor
  rcases Nat.mod_two_eq_zero_or_one d with heven | hodd
  · rw [heven, Nat.zero_mul, Nat.mul_zero, Nat.cast_zero, zero_mul] at hrvalue
    rw [sub_of_le hleft hrest (hrvalue ▸ hpos.le), hrvalue, sub_zero, ofMagnitude_exact hleft]
    refine ⟨false, s, i, hleft, fun _ => rfl, d, hlower.symm, .inr ⟨?_, heven⟩⟩
    rw [hlower, abs_of_pos hpos, htie]
  · rw [hodd, Nat.one_mul, ← hdivisor, htie] at hrvalue
    have hdifference : left - 2.0 * fmod (0.5 * (x - left)) y = ofMagnitude true (s * 2 ^ i) := by
      rw [sub_of_ne (number?_of_positive hleft) (number?_of_positive hrest) (by linarith), hrvalue,
        decide_eq_true (by linarith), abs_of_neg (by linarith)]
      congr 1
      ring
    rw [hdifference]
    refine ⟨true, s, i, ?_, ?_, d + 1, hupper.symm, .inr ⟨?_, by omega⟩⟩
    · rw [datum_ofMagnitude true hpos.le, nearestDatum_exact (canonical_of_datum hleft)]
    · rintro rfl
      rw [Nat.cast_zero, zero_mul] at hpos
      exact absurd hpos (lt_irrefl 0)
    · rw [hupper, abs_neg, abs_of_pos hpos, htie]

/-- What the nearest quotient leaves of magnitudes is exact. -/
theorem magnitudeRemainder_exact (hx : datum x = .finite false m j)
    (hy : datum y = .finite false n k) (hn : 0 < n) :
    IsNearestRest (magnitudeRemainder x y) (m * 2 ^ j) (n * 2 ^ k) := by
  obtain ⟨u, N, d, l, hd, hu⟩ := exists_divided (canonical_of_datum hx) (canonical_of_datum hy) hn
  obtain ⟨s, i, hleft, hvalue⟩ := datum_fmod hx hy hn
  rw [hd.left] at hvalue
  unfold magnitudeRemainder
  dsimp only
  have hcompare := left_lt_difference_iff hd hy hleft hvalue
  have hcompare' := difference_lt_left_iff hd hy hleft hvalue
  split_ifs with hlower hupper
  · exact isNearestRest_lower hd hleft hvalue (hcompare.mp hlower)
  · rw [hcompare, not_lt] at hlower
    exact isNearestRest_upper hd hy hleft hvalue ((hcompare' hlower).mp hupper)
  · rw [hcompare, not_lt] at hlower
    rw [hcompare' hlower] at hupper
    obtain rfl : N = 2 * l := by omega
    exact isNearestRest_tie hd hu hx hy hn hleft hvalue

/-! ## Signs -/

/-- A sign in front of a value. -/
theorem datum_sign_mul {r : Float} {s : Bool} {t : ℕ} {c : ℤ} (x : Float)
    (hr : datum r = .finite s t c) :
    datum (copySign 1.0 x * r) = .finite (signBit x != s) t c := by
  have hone : datum 1.0 = .finite false (2 ^ 52) (-52) := by rfl
  have hunit : ((2 ^ 52 : ℕ) * 2 ^ (-52 : ℤ) : ℚ) = 1 := by norm_num
  rw [mul_finite (datum_copySign hone x) hr, hunit, one_mul,
    datum_ofMagnitude _ (magnitude_nonneg t c), nearestDatum_exact (canonical_of_datum hr)]

/-! ## The nearest integer -/

/-- Whether no integer is closer to a number, and another one that is as close only if this one is
even. -/
def NearestInteger (z : ℤ) (v : ℚ) : Prop :=
  ∀ w : ℤ, |z - v| < |w - v| ∨ |z - v| = |w - v| ∧ (w = z ∨ Even z)

theorem nearestInteger_of_le_half {z : ℤ} (h : |z - v| < 1 / 2 ∨ |z - v| = 1 / 2 ∧ Even z) :
    NearestInteger z v := by
  intro w
  by_cases hw : w = z
  · exact .inr ⟨by rw [hw], .inl hw⟩
  have hgap : (1 : ℚ) ≤ |(w : ℚ) - z| := by
    exact_mod_cast Int.one_le_abs (sub_ne_zero.mpr hw)
  have htriangle := abs_sub_le (w : ℚ) v z
  rw [abs_sub_comm v z] at htriangle
  rcases h with hlt | ⟨heq, heven⟩
  · exact .inl (by linarith)
  · rcases lt_or_ge |z - v| |w - v| with hfar | hnear
    · exact .inl hfar
    · exact .inr ⟨by linarith, .inr heven⟩

/-- There is one nearest integer only: between two even ones is another integer. -/
theorem NearestInteger.unique {z w : ℤ} (hz : NearestInteger z v) (hw : NearestInteger w v) :
    z = w := by
  by_contra hne
  have hdistance : |z - v| = |w - v| ∧ Even z := by
    rcases hz w with hlt | ⟨heq, h⟩
    · rcases hw z with hlt' | ⟨heq', -⟩
      · exact absurd hlt hlt'.not_gt
      · exact absurd heq' hlt.ne'
    · exact ⟨heq, h.resolve_left fun h => hne h.symm⟩
  have heven : Even w := by
    rcases hw z with hlt | ⟨-, h⟩
    · exact absurd hdistance.1 hlt.ne'
    · exact h.resolve_left hne
  obtain ⟨hdistance, ⟨c, rfl⟩⟩ := hdistance
  obtain ⟨d, rfl⟩ := heven
  rcases abs_eq_abs.mp hdistance with h | h
  · exact hne (by exact_mod_cast sub_left_injective h)
  · have hmiddle : v = (c + d : ℤ) := by
      push_cast at h ⊢
      linarith
    have hzero : |((c + c : ℤ) : ℚ) - v| = 0 := by
      have hle : |((c + c : ℤ) : ℚ) - v| ≤ |((c + d : ℤ) : ℚ) - v| :=
        (hz (c + d)).elim le_of_lt fun h => h.1.le
      rw [← hmiddle, sub_self, abs_zero] at hle
      exact le_antisymm hle (abs_nonneg _)
    rw [abs_eq_zero, hmiddle, ← Int.cast_sub, Int.cast_eq_zero] at hzero
    omega

/-- A quotient that leaves at most half of the divisor is the nearest integer. -/
theorem nearestInteger_of_rest {z : ℤ} (hq : q ≠ 0)
    (h : 2 * |p - z * q| < |q| ∨ 2 * |p - z * q| = |q| ∧ Even z) : NearestInteger z (p / q) := by
  have habs : 0 < |q| := abs_pos.mpr hq
  have hdistance : 2 * |p - z * q| = 2 * |z - p / q| * |q| := by
    rw [mul_assoc, ← abs_mul, sub_mul, div_mul_cancel₀ p hq, abs_sub_comm]
  rw [hdistance] at h
  refine nearestInteger_of_le_half (h.imp (fun hlt => ?_) fun ⟨heq, heven⟩ => ⟨?_, heven⟩)
  · have := lt_of_mul_lt_mul_right (hlt.trans_eq (one_mul _).symm) habs.le
    linarith
  · have := mul_right_cancel₀ habs.ne' (heq.trans (one_mul _).symm)
    linarith

/-! ## All cases -/

theorem remainder_eq (hx : number? x = some p) (hy : number? y = some q) (hq : q ≠ 0) :
    remainder x y = copySign 1.0 x * magnitudeRemainder x.abs y.abs := by
  unfold remainder
  rw [isNaN_of_number hx, isNaN_of_number hy, isInf_of_number hx, beq_number hy number?_zero,
    decide_eq_false hq, isInf_of_number hy]
  rfl

/-- The signs of the operands are those of their quotient and of what is left. -/
theorem exists_signed_quotient (a b : Bool) (m n : ℕ) (j k : ℤ) (z : ℕ) : ∃ w : ℤ,
    signedNumber a m j - w * signedNumber b n k =
      (if a then -1 else 1) * (m * 2 ^ j - z * (n * 2 ^ k)) ∧ (z % 2 = 0 → Even w) := by
  refine ⟨if a = b then z else -z, ?_, fun heven => ?_⟩
  · rw [signedNumber_eq, signedNumber_eq]
    cases a <;> cases b <;> push_cast <;> simp <;> ring
  · rw [Int.even_iff]
    split_ifs <;> omega

/-- The remainder of a number by another one than zero is what the nearest quotient leaves. -/
theorem number?_remainder (hx : number? x = some p) (hy : number? y = some q) (hq : q ≠ 0) :
    ∃ z : ℤ, NearestInteger z (p / q) ∧ number? (remainder x y) = some (p - z * q) ∧
      2 * |p - z * q| ≤ |q| ∧ (p - z * q = 0 → signBit (remainder x y) = signBit x) := by
  rw [remainder_eq hx hy hq]
  obtain ⟨a, m, j, hdx, rfl⟩ := exists_datum hx
  obtain ⟨b, n, k, hdy, rfl⟩ := exists_datum hy
  have hn : 0 < n := by
    refine Nat.pos_of_ne_zero ?_
    rintro rfl
    exact hq (signedNumber_zero b k)
  obtain ⟨s, t, c, hr, hsign, z, hvalue, hnear⟩ := magnitudeRemainder_exact
    (by rw [datum_abs, hdx, Datum.abs]) (by rw [datum_abs, hdy, Datum.abs]) hn
  have hd := datum_sign_mul x hr
  rw [signBit_of_datum hdx] at hd ⊢
  obtain ⟨w, hrest, hparity⟩ := exists_signed_quotient a b m n j k z
  have habs : |signedNumber a m j - w * signedNumber b n k| =
      |(m * 2 ^ j - z * (n * 2 ^ k) : ℚ)| := by
    rw [hrest, abs_mul]
    cases a <;> simp
  have hhalf : 2 * |signedNumber a m j - w * signedNumber b n k| < |signedNumber b n k| ∨
      2 * |signedNumber a m j - w * signedNumber b n k| = |signedNumber b n k| ∧ Even w := by
    rw [habs, abs_signedNumber]
    exact hnear.imp_right fun h => ⟨h.1, hparity h.2⟩
  refine ⟨w, nearestInteger_of_rest hq hhalf, ?_, hhalf.elim le_of_lt fun h => h.1.le, fun hzero => ?_⟩
  · rw [number?_of_datum hd, signedNumber_bne, hvalue, hrest]
  · rw [hzero, abs_zero, eq_comm, abs_eq_zero, ← hvalue] at habs
    have ht : t = 0 := by
      have := abs_signedNumber s t c
      rw [habs, abs_zero, eq_comm, mul_eq_zero, or_iff_left (two_zpow_pos c).ne'] at this
      exact_mod_cast this
    rw [signBit_of_datum hd, hsign ht, Bool.bne_false]

/-- A number is its own remainder by an infinity. -/
theorem remainder_of_isInf (hx : number? x = some p) (hy : y.isInf = true) : remainder x y = x := by
  have hzero : datum 0.0 = .finite false 0 (-1074) := by rfl
  obtain ⟨b, hd⟩ : ∃ b, datum y = .infinity b := by
    rw [isInf_eq] at hy
    cases hd : datum y with
    | infinity b => exact ⟨b, rfl⟩
    | nan | finite =>
      rw [hd] at hy
      cases hy
  have hnan : y.isNaN = false := by
    rw [isNaN_eq, hd]
    rfl
  have hne : (y == 0.0) = false := by
    rw [beq_eq, hd, hzero]
    cases b <;> rfl
  unfold remainder
  rw [isNaN_of_number hx, isInf_of_number hx, hnan, hne, hy]
  rfl

theorem isNaN_remainder (h : x.isInf = true ∨ number? y = some 0 ∨ x.isNaN = true ∨
    y.isNaN = true) : (remainder x y).isNaN = true := by
  have hcondition : (x.isNaN || y.isNaN || x.isInf || y == 0.0) = true := by
    rcases h with h | h | h | h
    · rw [h, Bool.or_true, Bool.true_or]
    · rw [beq_number h number?_zero, decide_eq_true rfl, Bool.or_true]
    · rw [h, Bool.true_or, Bool.true_or, Bool.true_or]
    · rw [h, Bool.or_true, Bool.true_or, Bool.true_or]
  unfold remainder
  rw [if_pos hcondition]
  rfl

end Calculator.Binary64

namespace Calculator.Rounding

open Binary64

/-- `remainder` of numbers is what the nearest quotient leaves, the even one at a tie, without
rounding, and nothing is left with the sign of the dividend.  A number is its own remainder by an
infinity, and in all other cases there is none. -/
theorem remainder_exact (x y : Value) :
    (∃ f ∈ functions, f.name = "remainder" ∧
      f.apply [x, y] = .ok (.ofFloat (remainder x.float y.float))) ∧
    (∀ p q, number? x.float = some p → number? y.float = some q → q ≠ 0 →
      ∃ z : ℤ, NearestInteger z (p / q) ∧ number? (remainder x.float y.float) = some (p - z * q) ∧
        2 * |p - z * q| ≤ |q| ∧
        (p - z * q = 0 → signBit (remainder x.float y.float) = signBit x.float)) ∧
    (∀ p, number? x.float = some p → y.float.isInf = true →
      remainder x.float y.float = x.float) ∧
    (x.float.isInf = true ∨ number? y.float = some 0 ∨ x.float.isNaN = true ∨
      y.float.isNaN = true → (remainder x.float y.float).isNaN = true) := by
  refine ⟨⟨.ofRealsUnsigned "remainder" remainder, by simp [functions], rfl, rfl⟩,
    fun _ _ => number?_remainder, fun _ => remainder_of_isInf, isNaN_remainder⟩

/-- The nearest quotient is the upper one for 11 and 3, the even one for 5 and 2, and of -6 by 3 a
zero with a sign is left. -/
theorem remainder_exact_cases :
    number? (remainder 11.0 3.0) = some (-1) ∧ number? (remainder 5.0 2.0) = some 1 ∧
    number? (remainder (-6.0) 3.0) = some 0 ∧ signBit (remainder (-6.0) 3.0) = true ∧
    remainder 3.0 infinity = 3.0 ∧ (remainder 3.0 0.0).isNaN = true := by
  have hthree : number? 3.0 = some 3 := by
    have hd : datum 3.0 = .finite false (3 * 2 ^ 51) (-51) := by rfl
    rw [number?_of_datum hd, signedNumber]
    norm_num
  have heleven : number? 11.0 = some 11 := by
    have hd : datum 11.0 = .finite false (11 * 2 ^ 49) (-49) := by rfl
    rw [number?_of_datum hd, signedNumber]
    norm_num
  have hfive : number? 5.0 = some 5 := by
    have hd : datum 5.0 = .finite false (5 * 2 ^ 50) (-50) := by rfl
    rw [number?_of_datum hd, signedNumber]
    norm_num
  have htwo : number? 2.0 = some 2 := by
    have hd : datum 2.0 = .finite false (2 ^ 52) (-51) := by rfl
    rw [number?_of_datum hd, signedNumber]
    norm_num
  have hsix : datum (-6.0) = .finite true (3 * 2 ^ 51) (-50) := by rfl
  have hminus : number? (-6.0) = some (-6) := by
    rw [number?_of_datum hsix, signedNumber]
    norm_num
  have hupper : NearestInteger 4 (11 / 3) := nearestInteger_of_le_half (.inl (by norm_num [abs_lt]))
  have htie : NearestInteger 2 (5 / 2) :=
    nearestInteger_of_le_half (.inr ⟨by norm_num [abs_of_neg], by decide⟩)
  have hexact : NearestInteger (-2) (-6 / 3) := nearestInteger_of_le_half (.inl (by norm_num))
  obtain ⟨-, h₁, -, -⟩ := remainder_exact (.ofFloat 11.0) (.ofFloat 3.0)
  obtain ⟨-, h₂, -, -⟩ := remainder_exact (.ofFloat 5.0) (.ofFloat 2.0)
  obtain ⟨-, h₃, -, -⟩ := remainder_exact (.ofFloat (-6.0)) (.ofFloat 3.0)
  obtain ⟨z₁, hz₁, hr₁, -⟩ := h₁ 11 3 heleven hthree (by norm_num)
  obtain ⟨z₂, hz₂, hr₂, -⟩ := h₂ 5 2 hfive htwo (by norm_num)
  obtain ⟨z₃, hz₃, hr₃, -, hsign⟩ := h₃ (-6) 3 hminus hthree (by norm_num)
  rw [← hupper.unique hz₁] at hr₁
  rw [← htie.unique hz₂] at hr₂
  rw [← hexact.unique hz₃] at hr₃ hsign
  refine ⟨hr₁.trans ?_, hr₂.trans ?_, hr₃.trans ?_, ?_,
    (remainder_exact (.ofFloat 3.0) (.ofFloat infinity)).2.2.1 3 hthree isInf_infinity,
    (remainder_exact (.ofFloat 3.0) (.ofFloat 0.0)).2.2.2 (.inr (.inl number?_zero))⟩
  · norm_num
  · norm_num
  · norm_num
  · exact (hsign (by norm_num)).trans (signBit_of_datum hsix)

end Calculator.Rounding
