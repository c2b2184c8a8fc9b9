import Calculator.Proofs.Binary64.Difference

/-!
# What it means to be nearest

Rounding is computed in units of the last place.  Here it is said without them: a value is nearest
to a magnitude if no other value is closer, and if another one is equally close, its own
significand is the even one.  From half way between the largest value and the power of two above
it on, a magnitude has no nearest value but infinity.

Results:
* `cell_of_nearestDatum`: what rounds to a value lies half way to its neighbors at most.
* `number_gap`: there is no value between a value and its neighbors.
* `nearestDatum_eq_infinity_iff`: from where on magnitudes are infinite.
* `isNearest_iff`: each magnitude has one nearest value, the one that it is rounded to.
* `number?_ofMagnitude`: a value of 53 bits in the range of exponents is not rounded.
-/

namespace Calculator.Binary64

/-- Half way from the largest value to the power of two above it. -/
def overflowBound : ℚ := 2 ^ 1024 - 2 ^ 970

/-- No value is closer to `v` than `m · 2^k`, and another one that is as close only if `m` is
even. -/
def Closest (m : ℕ) (k : ℤ) (v : ℚ) : Prop :=
  ∀ y q, number? y = some q → |m * 2 ^ k - v| < |q - v| ∨
    |m * 2 ^ k - v| = |q - v| ∧ (q = m * 2 ^ k ∨ m % 2 = 0)

/-- Whether a value is the one nearest to a magnitude.  Infinity is for all magnitudes from the
bound of overflow on. -/
def IsNearest (x : Float) (v : ℚ) : Prop :=
  match datum x with
  | .nan => False
  | .infinity negative => negative = false ∧ overflowBound ≤ v
  | .finite negative m k => negative = false ∧ v < overflowBound ∧ Closest m k v

variable {x y : Float} {m n : ℕ} {j k : ℤ} {q v : ℚ}

/-! ## The magnitudes that round to a value -/

/-- The nearest integer is at most one half away, and less than that if it is odd. -/
theorem nearestEven_bounds (hq : 0 ≤ q) :
    (nearestEven q - 1 / 2 : ℚ) ≤ q ∧ q ≤ nearestEven q + 1 / 2 ∧
      (nearestEven q % 2 = 0 ∨ (nearestEven q - 1 / 2 : ℚ) < q ∧ q < nearestEven q + 1 / 2) := by
  have hlow := Nat.floor_le hq
  have hhigh := Nat.lt_floor_add_one q
  unfold nearestEven
  split_ifs with h₁ h₂
  · exact ⟨by linarith, by linarith, .inr ⟨by linarith, by linarith⟩⟩
  · push_cast
    exact ⟨by linarith, by linarith, .inr ⟨by linarith, by linarith⟩⟩
  · have htie : q = ⌊q⌋₊ + 1 / 2 := by linarith
    rcases Nat.mod_two_eq_zero_or_one ⌊q⌋₊ with h | h
    · rw [h, Nat.add_zero]
      exact ⟨by linarith, htie.le, .inl h⟩
    · rw [h]
      push_cast
      exact ⟨by linarith, by linarith, .inl (by omega)⟩

theorem reachBelow_pos (m : ℕ) (k : ℤ) : 0 < reachBelow m k := by
  unfold reachBelow
  split_ifs <;> norm_num

/-- What rounds to a value lies half way to its neighbors at most. -/
theorem cell_of_nearestDatum {negative : Bool} (hv : 0 ≤ v)
    (h : nearestDatum false v = .finite negative m k) : Cell m k v := by
  rcases hv.eq_or_lt with rfl | hv
  · rw [nearestDatum_zero] at h
    obtain ⟨-, rfl, -⟩ := Datum.finite.inj h
    have hp := two_zpow_pos k
    have hreach := mul_pos (reachBelow_pos 0 k) hp
    exact ⟨by push_cast; linarith, by push_cast; linarith, .inl rfl⟩
  obtain ⟨l, hl⟩ : ∃ l, lastPlace v = l := ⟨_, rfl⟩
  have hp := two_zpow_pos l
  obtain ⟨hlow, hhigh, htie⟩ := nearestEven_bounds (div_nonneg hv.le hp.le)
  rw [le_div_iff₀ hp] at hlow
  rw [div_le_iff₀ hp] at hhigh
  rw [lt_div_iff₀ hp, div_lt_iff₀ hp] at htie
  have hbelow := lt_of_lastPlace v
  have hlast := le_lastPlace v
  rw [nearestDatum, if_neg hv.ne', hl] at h
  rw [hl] at hbelow hlast
  dsimp only at h
  split_ifs at h with hcarry hover hover
  · -- the significand carries over into the power of two above
    obtain ⟨-, rfl, rfl⟩ := Datum.finite.inj h
    have hunit := two_zpow_pred (l + 1)
    rw [Int.add_sub_cancel] at hunit
    rw [hcarry] at hlow
    push_cast at hlow
    refine ⟨?_, ?_, .inl (by norm_num)⟩
    · rw [reachBelow, if_pos ⟨rfl, by omega⟩, hunit]
      push_cast
      linarith
    · rw [hunit]
      push_cast
      linarith
  · obtain ⟨-, rfl, rfl⟩ := Datum.finite.inj h
    by_cases hpow : nearestEven (v / 2 ^ l) = 2 ^ 52 ∧ -1074 < l
    · -- the last place of a magnitude below the power of two would be smaller
      have hge := le_of_lastPlace hv (by omega)
      rw [hl] at hge
      refine ⟨?_, hhigh, .inl (by rw [hpow.1]; norm_num)⟩
      rw [reachBelow, if_pos hpow, hpow.1]
      push_cast
      linarith
    · have hsame : reachBelow (nearestEven (v / 2 ^ l)) l = 1 / 2 := if_neg hpow
      exact ⟨hsame ▸ hlow, hhigh, hsame ▸ htie⟩

/-! ## Neighbors -/

/-- No negative value lies above the neighbor below. -/
theorem neg_le_below {n : ℕ} {j : ℤ} (hc : Canonical m k) (hd : Canonical n j)
    (hne : -(n * 2 ^ j : ℚ) ≠ m * 2 ^ k) :
    -(n * 2 ^ j : ℚ) ≤ (m - 2 * reachBelow m k) * 2 ^ k := by
  have hp := two_zpow_pos k
  have hreach := reachBelow_le m k
  rcases Nat.eq_zero_or_pos m with rfl | hm
  · have hk : k = -1074 := hc.normal.resolve_right (by norm_num)
    have hn : (1 : ℚ) ≤ n := by
      refine Nat.one_le_cast.mpr (Nat.pos_of_ne_zero ?_)
      rintro rfl
      simp at hne
    have hle : (2 : ℚ) ^ k ≤ 2 ^ j := zpow_le_zpow_right₀ (by norm_num) (hk ▸ hd.le_exponent)
    have hone : (1 : ℚ) * 2 ^ k ≤ n * 2 ^ j := mul_le_mul hn hle hp.le (Nat.cast_nonneg n)
    have hsmall : -1 * (2 : ℚ) ^ k ≤ (((0 : ℕ) : ℚ) - 2 * reachBelow 0 k) * 2 ^ k :=
      mul_le_mul_of_nonneg_right (by push_cast; linarith) hp.le
    linarith
  · have hm₁ : (1 : ℚ) ≤ m := by exact_mod_cast hm
    have hnonneg := magnitude_nonneg n j
    have : 0 ≤ (m - 2 * reachBelow m k) * 2 ^ k := mul_nonneg (by linarith) hp.le
    linarith

/-- Values with a smaller exponent lie below the neighbor below, or are that neighbor. -/
theorem le_below_of_exponent_lt {n : ℕ} {j : ℤ} (hc : Canonical m k) (hd : Canonical n j)
    (hjk : j < k) : (n * 2 ^ j : ℚ) ≤ (m - 2 * reachBelow m k) * 2 ^ k := by
  have hn : (n : ℚ) + 1 ≤ 2 ^ 53 := by exact_mod_cast hd.significand_lt
  have hm : 2 ^ 52 ≤ m := hc.normal.resolve_left (by have := hd.le_exponent; omega)
  have hle : (2 : ℚ) ^ j ≤ 2 ^ (k - 1) := zpow_le_zpow_right₀ (by norm_num) (by omega)
  have hbelow : (2 ^ 53 - 1) * (2 : ℚ) ^ (k - 1) ≤ (m - 2 * reachBelow m k) * 2 ^ k := by
    rw [two_zpow_pred k, ← mul_assoc]
    refine mul_le_mul_of_nonneg_right ?_ (two_zpow_pos _).le
    rcases hm.eq_or_lt with rfl | hm
    · have hk : -1074 < k := lt_of_le_of_lt hd.le_exponent hjk
      rw [reachBelow, if_pos ⟨rfl, hk⟩]
      norm_num
    · have hreach := reachBelow_le m k
      have : (2 : ℚ) ^ 52 + 1 ≤ m := by exact_mod_cast hm
      linarith
  calc (n : ℚ) * 2 ^ j ≤ (2 ^ 53 - 1) * 2 ^ (k - 1) :=
        mul_le_mul (by linarith) hle (two_zpow_pos j).le (by norm_num)
    _ ≤ _ := hbelow

/-- Values with a greater exponent lie above the neighbor above, or are that neighbor. -/
theorem above_le_of_exponent_lt {n : ℕ} {j : ℤ} (hc : Canonical m k) (hd : Canonical n j)
    (hkj : k < j) : ((m + 1) * 2 ^ k : ℚ) ≤ n * 2 ^ j := by
  have hn : (2 : ℚ) ^ 52 ≤ n := by
    exact_mod_cast hd.normal.resolve_left (by have := hc.le_exponent; omega)
  have hm : (m : ℚ) + 1 ≤ 2 ^ 53 := by exact_mod_cast hc.significand_lt
  have hle : 2 * (2 : ℚ) ^ k ≤ 2 ^ j := by
    rw [two_zpow_pred j]
    have := zpow_le_zpow_right₀ (a := (2 : ℚ)) (by norm_num) (by omega : k ≤ j - 1)
    linarith
  calc ((m : ℚ) + 1) * 2 ^ k ≤ 2 ^ 53 * 2 ^ k :=
        mul_le_mul_of_nonneg_right hm (two_zpow_pos k).le
    _ = 2 ^ 52 * (2 * 2 ^ k) := by ring
    _ ≤ n * 2 ^ j :=
        mul_le_mul hn hle (mul_pos two_pos (two_zpow_pos k)).le (Nat.cast_nonneg n)

/-- There is no value between a value and its neighbors. -/
theorem number_gap (hc : Canonical m k) (hy : number? y = some q) (hne : q ≠ m * 2 ^ k) :
    (m + 1) * 2 ^ k ≤ q ∨ q ≤ (m - 2 * reachBelow m k) * 2 ^ k := by
  obtain ⟨negative, n, j, hd, rfl⟩ := exists_datum hy
  have hcy := canonical_of_datum hd
  cases negative with
  | true => exact .inr (neg_le_below hc hcy hne)
  | false =>
    have hq : signedNumber false n j = n * 2 ^ j := rfl
    rw [hq] at hne ⊢
    rcases lt_trichotomy j k with hjk | rfl | hjk
    · exact .inr (le_below_of_exponent_lt hc hcy hjk)
    · have hp := two_zpow_pos j
      rcases Nat.lt_or_gt_of_ne (fun h : n = m => hne (by rw [h])) with hnm | hnm
      · have hreach := reachBelow_le m j
        have : (n : ℚ) + 1 ≤ m := by exact_mod_cast hnm
        exact .inr (mul_le_mul_of_nonneg_right (by linarith) hp.le)
      · have : (m : ℚ) + 1 ≤ n := by exact_mod_cast hnm
        exact .inl (mul_le_mul_of_nonneg_right this hp.le)
    · exact .inl (above_le_of_exponent_lt hc hcy hjk)

/-- The magnitudes half way to the neighbors of a value are not closer to another value. -/
theorem closest_of_cell (hc : Canonical m k) (h : Cell m k v) : Closest m k v := by
  intro y q hy
  have hp := two_zpow_pos k
  obtain ⟨hlow, hhigh, htie⟩ := h
  by_cases hne : q = m * 2 ^ k
  · exact .inr ⟨by rw [hne], .inl hne⟩
  have hreach := mul_le_mul_of_nonneg_right (reachBelow_le m k) hp.le
  have hreach' := mul_pos (reachBelow_pos m k) hp
  have hgap := number_gap hc hy hne
  rcases htie with heven | ⟨hlow', hhigh'⟩
  · have hle : |m * 2 ^ k - v| ≤ |q - v| := by
      rcases hgap with hq | hq
      · exact (abs_le.mpr ⟨by linarith, by linarith⟩).trans (le_abs_self _)
      · exact (abs_le.mpr ⟨by linarith, by linarith⟩).trans (neg_le_abs _)
    exact hle.lt_or_eq.imp_right fun heq => ⟨heq, .inr heven⟩
  · left
    rcases hgap with hq | hq
    · exact (abs_lt.mpr ⟨by linarith, by linarith⟩).trans_le (le_abs_self _)
    · exact (abs_lt.mpr ⟨by linarith, by linarith⟩).trans_le (neg_le_abs _)

/-! ## Overflow -/

/-- The bound in units of the last place of the largest value. -/
theorem overflowBound_eq : overflowBound = (2 ^ 53 - 1 / 2) * 2 ^ (971 : ℤ) := by
  have hhalf := two_zpow_pred 971
  have htop := two_zpow_add 53 971
  have hbound : overflowBound = 2 ^ ((971 : ℤ) + (53 : ℕ)) - 2 ^ ((971 : ℤ) - 1) := rfl
  rw [hbound, htop]
  linear_combination hhalf / 2

/-- A magnitude overflows if its last place is too large, or if the significand carries over at the
largest one. -/
theorem nearestDatum_eq_infinity_iff_lastPlace (hv : 0 < v) :
    nearestDatum false v = .infinity false ↔ 971 < lastPlace v ∨
      lastPlace v = 971 ∧ nearestEven (v / 2 ^ lastPlace v) = 2 ^ 53 := by
  have hcap := nearestEven_lastPlace_le hv
  rw [nearestDatum, if_neg hv.ne']
  dsimp only
  split_ifs with hcarry hover hover
  · exact iff_of_true rfl (by omega)
  · exact iff_of_false (fun h => by cases h) (by omega)
  · exact iff_of_true rfl (.inl (by omega))
  · exact iff_of_false (fun h => by cases h) (by omega)

/-- At the largest last place the significand carries over from half way to the next power of two
on: what is one less is odd, so a tie does not go to it. -/
theorem nearestEven_eq_top_iff {unit : ℚ} (hunit : 0 < unit) (hv : 0 ≤ v)
    (hcap : nearestEven (v / unit) ≤ 2 ^ 53) :
    nearestEven (v / unit) = 2 ^ 53 ↔ (2 ^ 53 - 1 / 2) * unit ≤ v := by
  obtain ⟨hlow, hhigh, htie⟩ := nearestEven_bounds (div_nonneg hv hunit.le)
  rw [le_div_iff₀ hunit] at hlow
  rw [div_le_iff₀ hunit] at hhigh
  rw [div_lt_iff₀ hunit] at htie
  generalize nearestEven (v / unit) = rounded at *
  constructor
  · rintro rfl
    exact_mod_cast hlow
  · refine fun hle => le_antisymm hcap (not_lt.mp fun hsmall => ?_)
    rcases htie with heven | ⟨-, hlt⟩
    · have hrounded : (rounded : ℚ) + 2 ≤ 2 ^ 53 := by
        exact_mod_cast (by omega : rounded + 2 ≤ 2 ^ 53)
      have := mul_le_mul_of_nonneg_right hrounded hunit.le
      linarith
    · have hrounded : (rounded : ℚ) + 1 ≤ 2 ^ 53 := by exact_mod_cast hsmall
      have := mul_le_mul_of_nonneg_right hrounded hunit.le
      linarith

/-- From half way between the largest value and the power of two above it on, all magnitudes are
infinite. -/
theorem nearestDatum_eq_infinity_iff (hv : 0 ≤ v) :
    nearestDatum false v = .infinity false ↔ overflowBound ≤ v := by
  have hunit := two_zpow_pos 971
  rw [overflowBound_eq]
  rcases hv.eq_or_lt with rfl | hpos
  · rw [nearestDatum_zero]
    exact iff_of_false nofun (not_le.mpr (mul_pos (by norm_num) hunit))
  have hcap := nearestEven_lastPlace_le hpos
  rw [nearestDatum_eq_infinity_iff_lastPlace hpos]
  rcases lt_trichotomy (lastPlace v) 971 with hplace | hplace | hplace
  · refine iff_of_false (by omega) fun hle => ?_
    have hbound := mul_le_mul_of_nonneg_right (by norm_num : (2 ^ 52 : ℚ) ≤ 2 ^ 53 - 1 / 2) hunit.le
    have := le_lastPlace_of_le (hbound.trans hle)
    omega
  · rw [hplace] at hcap
    rw [hplace, ← nearestEven_eq_top_iff hunit hv hcap]
    exact ⟨fun h => (h.resolve_left (lt_irrefl _)).2, fun h => .inr ⟨rfl, h⟩⟩
  · refine iff_of_true (.inl hplace) ?_
    have hge := le_of_lastPlace hpos (by omega)
    have hpow := zpow_le_zpow_right₀ (a := (2 : ℚ)) (by norm_num) (by omega : 971 + 1 ≤ lastPlace v)
    rw [two_zpow_pred (971 + 1), Int.add_sub_cancel] at hpow
    generalize (2 : ℚ) ^ (971 : ℤ) = unit at *
    linarith

/-! ## The nearest value -/

theorem nearestDatum_cases (negative : Bool) (v : ℚ) :
    nearestDatum negative v = .infinity negative ∨
      ∃ m k, nearestDatum negative v = .finite negative m k := by
  unfold nearestDatum
  dsimp only
  split_ifs <;> simp

/-- What a magnitude is rounded to is nearest to it. -/
theorem isNearest_ofMagnitude (hv : 0 ≤ v) : IsNearest (ofMagnitude false v) v := by
  have hover := nearestDatum_eq_infinity_iff hv
  rw [IsNearest, datum_ofMagnitude false hv]
  rcases nearestDatum_cases false v with hd | ⟨m, k, hd⟩
  · rw [hd]
    exact ⟨rfl, hover.mp hd⟩
  · have hc : (Datum.finite false m k).Canonical := hd ▸ nearestDatum_canonical false hv
    have hcell := cell_of_nearestDatum hv hd
    rw [hd] at hover ⊢
    exact ⟨rfl, not_le.mp (fun h => nomatch hover.mpr h), closest_of_cell hc hcell⟩

/-- A significand and an exponent are those of one number only. -/
theorem canonical_unique (hc : Canonical m j) (hd : Canonical n k)
    (h : (m * 2 ^ j : ℚ) = n * 2 ^ k) : m = n ∧ j = k := by
  have hdatum := nearestDatum_exact hc false
  rw [h, nearestDatum_exact hd false] at hdatum
  obtain ⟨-, hm, hk⟩ := Datum.finite.inj hdatum
  exact ⟨hm.symm, hk.symm⟩

theorem number?_ofDatum (hc : Canonical m k) :
    number? (ofDatum (.finite false m k)) = some (m * 2 ^ k : ℚ) :=
  number?_of_datum (datum_ofDatum hc)

/-- Of two closest values none is the greater one: if they are equally close, both significands are
even, and the value in between is closer. -/
theorem le_of_closest (hc : Canonical m j) (hd : Canonical n k) (hm : Closest m j v)
    (hn : Closest n k v) : (n * 2 ^ k : ℚ) ≤ m * 2 ^ j := by
  by_contra! hlt
  have hm' := hm _ _ (number?_ofDatum hd)
  have hn' := hn _ _ (number?_ofDatum hc)
  have hdist : |m * 2 ^ j - v| = |n * 2 ^ k - v| := by
    rcases hm' with h₁ | h₁
    · rcases hn' with h₂ | h₂
      · exact absurd h₁ (not_lt.mpr h₂.le)
      · exact h₂.1.symm
    · exact h₁.1
  have hmid : v - m * 2 ^ j = n * 2 ^ k - v := by
    rcases abs_eq_abs.mp hdist with h | h <;> linarith
  have hm₂ : m % 2 = 0 := by
    rcases hm' with h | ⟨-, h | h⟩
    · exact absurd hdist h.ne
    · exact absurd h hlt.ne'
    · exact h
  have hn₂ : n % 2 = 0 := by
    rcases hn' with h | ⟨-, h | h⟩
    · exact absurd hdist h.ne'
    · exact absurd h hlt.ne
    · exact h
  have hp := two_zpow_pos j
  have hsucc : Canonical (m + 1) j :=
    ⟨by have := hc.significand_lt; omega, hc.le_exponent, hc.exponent_le,
      hc.normal.imp_right (by omega)⟩
  have hle : ((m + 1 : ℕ) : ℚ) * 2 ^ j ≤ n * 2 ^ k := by
    rcases number_gap hc (number?_ofDatum hd) hlt.ne' with h | h
    · exact_mod_cast h
    · have := mul_pos (reachBelow_pos m j) hp
      linarith
  rcases hle.eq_or_lt with heq | hbetween
  · have := (canonical_unique hsucc hd heq).1
    omega
  · have hcloser : |((m + 1 : ℕ) : ℚ) * 2 ^ j - v| < |m * 2 ^ j - v| := by
      push_cast at hbetween ⊢
      rw [abs_of_nonpos (by linarith : m * 2 ^ j - v ≤ 0)]
      exact abs_lt.mpr ⟨by linarith, by linarith⟩
    rcases hm _ _ (number?_ofDatum hsucc) with h | h
    · exact absurd h (not_lt.mpr hcloser.le)
    · exact absurd h.1 hcloser.ne'

/-- Each magnitude has one nearest value, the one that it is rounded to. -/
theorem isNearest_iff (hv : 0 ≤ v) : IsNearest x v ↔ x = ofMagnitude false v := by
  refine ⟨fun h => ?_, fun h => h ▸ isNearest_ofMagnitude hv⟩
  have hover := nearestDatum_eq_infinity_iff hv
  have hrounded := isNearest_ofMagnitude hv
  rw [IsNearest, datum_ofMagnitude false hv] at hrounded
  rw [IsNearest] at h
  refine eq_ofDatum ?_
  cases hx : datum x with
  | nan =>
    rw [hx] at h
    cases h
  | infinity negative =>
    rw [hx] at h
    obtain ⟨rfl, hbound⟩ := h
    exact (hover.mpr hbound).symm
  | finite negative m k =>
    rw [hx] at h
    obtain ⟨rfl, hbound, hclosest⟩ := h
    rcases nearestDatum_cases false v with hd | ⟨n, j, hd⟩
    · exact absurd (hover.mp hd) (not_le.mpr hbound)
    · rw [hd] at hrounded
      have hc := canonical_of_datum hx
      have hc' : (Datum.finite false n j).Canonical := hd ▸ nearestDatum_canonical false hv
      obtain ⟨rfl, rfl⟩ := canonical_unique hc hc' (le_antisymm
        (le_of_closest hc' hc hrounded.2.2 hclosest) (le_of_closest hc hc' hclosest hrounded.2.2))
      exact hd.symm

/-! ## Exact values -/

/-- A number of at most 53 bits times a power of two in the range of the exponents is the number of
a value. -/
theorem exists_canonical_mul (hm : m < 2 ^ 53) (hk : -1074 ≤ k) (h : (m * 2 ^ k : ℚ) < 2 ^ 1024) :
    ∃ n j, Canonical n j ∧ (n * 2 ^ j : ℚ) = m * 2 ^ k := by
  rcases Nat.eq_zero_or_pos m with rfl | hpos
  · exact ⟨0, -1074, ⟨by norm_num, le_rfl, by norm_num, .inl rfl⟩, by simp⟩
  have hv : (0 : ℚ) < m * 2 ^ k := magnitude_pos hpos
  obtain ⟨l, hl⟩ : ∃ l, lastPlace (m * 2 ^ k) = l := ⟨_, rfl⟩
  have hp := two_zpow_pos l
  have hlow := le_lastPlace (m * 2 ^ k)
  have hhigh : l ≤ 971 := by
    have hlog : Int.log 2 (m * 2 ^ k : ℚ) < 1024 :=
      (Int.lt_zpow_iff_log_lt (by norm_num) hv).mp (by exact_mod_cast h)
    unfold lastPlace at hl
    omega
  have hle : l ≤ k := by
    have hbits : (m * 2 ^ k : ℚ) < 2 ^ (k + (53 : ℕ)) := by
      rw [two_zpow_add]
      exact mul_lt_mul_of_pos_right (by exact_mod_cast hm) (two_zpow_pos k)
    have hlog := (Int.lt_zpow_iff_log_lt (by norm_num) hv).mp hbits
    unfold lastPlace at hl
    push_cast at hlog
    omega
  obtain ⟨shift, hshift⟩ : ∃ shift : ℕ, k = l + shift := ⟨(k - l).toNat, by omega⟩
  have hvalue : ((m * 2 ^ shift : ℕ) * 2 ^ l : ℚ) = m * 2 ^ k := by
    rw [hshift, two_zpow_add]
    push_cast
    ring
  refine ⟨m * 2 ^ shift, l, ⟨?_, by omega, hhigh, ?_⟩, hvalue⟩
  · have hlt := lt_of_lastPlace (m * 2 ^ k : ℚ)
    rw [hl, ← hvalue] at hlt
    exact_mod_cast lt_of_mul_lt_mul_right hlt hp.le
  · rw [or_iff_not_imp_left]
    intro hnormal
    have hge := le_of_lastPlace hv (hl ▸ hnormal)
    rw [hl, ← hvalue] at hge
    exact_mod_cast le_of_mul_le_mul_right hge hp

/-- The number of a value is not rounded.  At `2^53` its last place is one higher. -/
theorem number?_ofMagnitude (hm : m ≤ 2 ^ 53) (hk : -1074 ≤ k) (h : (m * 2 ^ k : ℚ) < 2 ^ 1024) :
    number? (ofMagnitude false (m * 2 ^ k)) = some (m * 2 ^ k : ℚ) := by
  obtain ⟨n, j, hc, hvalue⟩ : ∃ n j, Canonical n j ∧ (n * 2 ^ j : ℚ) = m * 2 ^ k := by
    rcases hm.lt_or_eq with hlt | rfl
    · exact exists_canonical_mul hlt hk h
    · have htop : ((2 ^ 53 : ℕ) * 2 ^ k : ℚ) = (2 ^ 52 : ℕ) * 2 ^ (k + 1) := by
        rw [two_zpow_pred (k + 1), Int.add_sub_cancel]
        push_cast
        ring
      rw [htop] at h ⊢
      exact exists_canonical_mul (by norm_num) (by omega) h
  rw [← hvalue, ofMagnitude, nearestDatum_exact hc]
  exact number?_ofDatum hc

end Calculator.Binary64
