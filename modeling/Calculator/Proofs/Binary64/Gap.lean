import Calculator.Proofs.Binary64.Neighbor

/-!
# The gap behind a magnitude

Next to a magnitude is the one whose significand is greater by one, in the same place; at the end of
a binade that is the first one of the next binade.  So the gap is one unit of the last place of the
lower one, a power of two, and the difference of the two values is exact.  The gap behind the
largest number would lead to infinity, and the one before it is as wide.

Results:
* `number?_of_rank`: the number of a value, from its rank.
* `number?_ulp`: the gap is one unit of the last place.
* `ulp_exact`: `ulp` of all values.
-/

namespace Calculator.Binary64

variable {x y : Float} {a : Bool} {m : ℕ} {k e : ℤ}

/-! ## Numbers of ranks -/

theorem datum_of_rank (hy : y.isNaN = false) (hc : Canonical m k) (hm : 0 < m)
    (h : rank y = magnitudeRank m k) : datum y = .finite false m k := by
  have hd : datum (ofDatum (.finite false m k)) = .finite false m k := datum_ofDatum hc
  have hpos := (magnitudeRank_pos_iff hc).mpr hm
  have hrank : rank (ofDatum (.finite false m k)) = magnitudeRank m k := rank_of_datum hd
  rw [eq_of_rank hy (by rw [isNaN_eq, hd]; rfl) (h.trans hrank.symm) (by omega), hd]

/-- The number of a value, from its rank.  At `2^53` its last place is one higher. -/
theorem number?_of_rank (hy : y.isNaN = false) (hm : 0 < m) (hm' : m ≤ 2 ^ 53) (hk : -1074 ≤ k)
    (hnormal : k = -1074 ∨ 2 ^ 52 ≤ m) (hlt : magnitudeRank m k < topRank)
    (h : rank y = magnitudeRank m k) : number? y = some (m * 2 ^ k : ℚ) := by
  have hlarge : (k + 1074).toNat * 2 ^ 52 + m < 2047 * 2 ^ 52 := hlt
  rcases hm'.lt_or_eq with hlt' | rfl
  · exact number?_of_positive (datum_of_rank hy ⟨hlt', hk, by omega, hnormal⟩ hm h)
  · have hcarried : magnitudeRank (2 ^ 53) k = magnitudeRank (2 ^ 52) (k + 1) := by
      unfold magnitudeRank
      omega
    have hc : Canonical (2 ^ 52) (k + 1) := ⟨by norm_num, by omega, by omega, .inr le_rfl⟩
    rw [number?_of_positive (datum_of_rank hy hc (by norm_num) (hcarried ▸ h)),
      two_zpow_pred (k + 1), Int.add_sub_cancel]
    push_cast
    ring_nf

/-! ## The gap -/

theorem one_lt_topRank : 1 < topRank := by norm_num [topRank]

theorem rank_maxFinite : rank maxFinite + 1 = topRank := by
  have hd : datum maxFinite = .finite false (2 ^ 53 - 1) 971 := by rfl
  rw [rank_of_datum hd]
  rfl

/-- Of the largest number the gap before it is taken. -/
theorem number?_ulp_maxFinite :
    number? (maxFinite - stepToward maxFinite 0.0) = some (2 ^ (971 : ℤ) : ℚ) := by
  have hd : datum (maxFinite - stepToward maxFinite 0.0) = .finite false (2 ^ 52) 919 := by rfl
  rw [number?_of_positive hd, Nat.cast_pow, Nat.cast_ofNat, ← two_zpow_add]
  rfl

/-- The gap behind another number is one unit of its last place. -/
theorem number?_next_sub (hx : datum x = .finite false m k) (hlt : rank x + 1 < topRank) :
    number? (stepToward x infinity - x) = some (2 ^ k : ℚ) := by
  have hc := canonical_of_datum hx
  have hnumber := number?_of_positive hx
  have hrank : rank x = magnitudeRank m k := rank_of_datum hx
  have htop : rank infinity = topRank := rank_of_datum datum_infinity
  have hsucc := magnitudeRank_succ m k
  obtain ⟨hnan, hnext⟩ := rank_stepToward (isNaN_of_number hnumber) isNaN_infinity
  rw [htop, hrank, Int.sign_eq_one_of_pos (by omega)] at hnext
  have hvalue := number?_of_rank hnan (by omega : 0 < m + 1) hc.significand_lt hc.le_exponent
    (hc.normal.imp_right fun h => by omega) (by omega) (by omega)
  have hpos := two_zpow_pos k
  have hdifference : ((m + 1 : ℕ) * 2 ^ k - m * 2 ^ k : ℚ) = (1 : ℕ) * 2 ^ k := by
    push_cast
    ring
  have hrange : ((1 : ℕ) * 2 ^ k : ℚ) < 2 ^ 1024 := by
    have hk := hc.exponent_le
    rw [Nat.cast_one, one_mul, ← zpow_natCast]
    exact zpow_lt_zpow_right₀ (by norm_num) (by omega)
  rw [sub_eq hvalue hnumber (by push_cast; linarith), hdifference,
    number?_ofMagnitude (by norm_num) hc.le_exponent hrange, Nat.cast_one, one_mul]

/-- The gap is one unit of the last place. -/
theorem number?_ulp (hx : datum x = .finite a m k) : number? (ulp x) = some (2 ^ k : ℚ) := by
  have habs : datum x.abs = .finite false m k := by rw [datum_abs, hx, Datum.abs]
  have hmax : datum maxFinite = .finite false (2 ^ 53 - 1) 971 := by rfl
  have hnumber := number?_of_positive habs
  have hnan := isNaN_of_number hnumber
  have hnan' := isNaN_of_number (number?_of_positive hmax)
  have hrank : rank x.abs = magnitudeRank m k := rank_of_datum habs
  have hbound := magnitudeRank_lt_topRank (canonical_of_datum hx)
  have hlargest := rank_maxFinite
  have htop := one_lt_topRank
  unfold ulp
  dsimp only
  rw [hnan, isInf_of_number hnumber, Bool.or_false, if_neg Bool.false_ne_true,
    beq_rank hnan hnan']
  split_ifs with heq
  · rw [decide_eq_true_eq] at heq
    have hsame : x.abs = maxFinite := eq_of_rank hnan hnan' heq (by omega)
    rw [hsame, hmax] at habs
    rw [hsame, number?_ulp_maxFinite, (Datum.finite.inj habs).2.2]
  · rw [decide_eq_true_eq] at heq
    exact number?_next_sub habs (by omega)

/-- The last place of a value is 52 places behind its first bit, or that of the smallest value. -/
theorem exponent_eq (hc : Canonical m k) (hlow : (2 : ℚ) ^ e ≤ m * 2 ^ k)
    (hhigh : (m * 2 ^ k : ℚ) < 2 ^ (e + 1)) : k = max e (-1022) - 52 := by
  have hv : (0 : ℚ) < m * 2 ^ k := (two_zpow_pos e).trans_le hlow
  have hp := two_zpow_pos k
  have hlog : Int.log 2 (m * 2 ^ k : ℚ) = e := by
    have hle := (Int.zpow_le_iff_le_log (b := 2) (by norm_num) hv).mp (by exact_mod_cast hlow)
    have hlt := (Int.lt_zpow_iff_log_lt (b := 2) (by norm_num) hv).mp (by exact_mod_cast hhigh)
    omega
  have hplace : lastPlace (m * 2 ^ k) = k := by
    refine lastPlace_eq hv hc.le_exponent
      (mul_lt_mul_of_pos_right (by exact_mod_cast hc.significand_lt) hp) (hc.normal.imp_right ?_)
    exact fun h => mul_le_mul_of_nonneg_right (by exact_mod_cast h) hp.le
  rw [lastPlace, hlog] at hplace
  omega

theorem ulp_of_isInf (h : x.isInf = true) : ulp x = infinity := by
  obtain ⟨b, hd⟩ := exists_datum_of_isInf h
  have habs : x.abs = infinity := by
    apply datum_injective
    rw [datum_abs, hd, datum_infinity, Datum.abs]
  unfold ulp
  dsimp only
  rw [habs]
  rfl

theorem isNaN_ulp (h : x.isNaN = true) : (ulp x).isNaN = true := by
  have habs : x.abs.isNaN = true := by
    rw [isNaN_eq, datum_abs, datum_of_isNaN h]
    rfl
  unfold ulp
  dsimp only
  rw [habs, Bool.true_or, if_pos rfl, habs]

end Calculator.Binary64

namespace Calculator.Rounding

open Binary64

/-- `ulp` of a number is exactly one unit of its last place: 52 places behind the first bit of the
magnitude, and for zero and the subnormal numbers the smallest positive value.  Of an infinity it is
infinity, and of a NaN a NaN. -/
theorem ulp_exact (x : Value) :
    (∃ f ∈ functions, f.name = "ulp" ∧ f.apply [x] = .ok (.ofFloat (ulp x.float))) ∧
    (∀ q, number? x.float = some q →
      (q = 0 → number? (ulp x.float) = some (2 ^ (-1022 - 52 : ℤ))) ∧
      ∀ e : ℤ, 2 ^ e ≤ |q| → |q| < 2 ^ (e + 1) →
        number? (ulp x.float) = some (2 ^ (max e (-1022) - 52))) ∧
    (x.float.isInf = true → ulp x.float = infinity) ∧
    (x.float.isNaN = true → (ulp x.float).isNaN = true) := by
  refine ⟨⟨.ofRealUnsigned "ulp" ulp, by simp [functions], rfl, rfl⟩, fun q hq => ?_, ulp_of_isInf,
    isNaN_ulp⟩
  obtain ⟨a, m, k, hd, rfl⟩ := exists_datum hq
  have hc := canonical_of_datum hd
  rw [abs_signedNumber, number?_ulp hd]
  refine ⟨fun hzero => ?_, fun e hlow hhigh => by rw [exponent_eq hc hlow hhigh]⟩
  have hm : m = 0 := by
    have habs := abs_signedNumber a m k
    rw [hzero, abs_zero, eq_comm, mul_eq_zero, or_iff_left (two_zpow_pos k).ne'] at habs
    exact_mod_cast habs
  have hk : k = -1022 - 52 := by
    have hnormal := hc.normal
    omega
  rw [hk]

/-- The gap of the largest number, of zero and of a power of two. -/
theorem ulp_exact_ends :
    number? (ulp maxFinite) = some (2 ^ (971 : ℤ)) ∧
    number? (ulp 0.0) = some (2 ^ (-1074 : ℤ)) ∧ number? (ulp (-1.0)) = some (2 ^ (-52 : ℤ)) ∧
    ulp (-infinity) = infinity ∧ (ulp nan).isNaN = true := by
  have hlargest : number? maxFinite = some ((2 ^ 53 - 1) * 2 ^ (971 : ℤ)) := by
    have hd : datum maxFinite = .finite false (2 ^ 53 - 1) 971 := by rfl
    rw [number?_of_positive hd]
    norm_num
  have hminus : number? (-1.0) = some (-1) := by
    have hd : datum (-1.0) = .finite true (2 ^ 52) (-52) := by rfl
    rw [number?_of_datum hd, signedNumber]
    norm_num
  have hp := two_zpow_pos 971
  have hlow : (2 : ℚ) ^ (1023 : ℤ) = 2 ^ 52 * 2 ^ (971 : ℤ) := two_zpow_add 52 971
  have hhigh : (2 : ℚ) ^ (1023 + 1 : ℤ) = 2 ^ 53 * 2 ^ (971 : ℤ) := two_zpow_add 53 971
  have habs : |((2 ^ 53 - 1) * 2 ^ (971 : ℤ) : ℚ)| = (2 ^ 53 - 1) * 2 ^ (971 : ℤ) :=
    abs_of_pos (mul_pos (by norm_num) hp)
  obtain ⟨-, h₁, -, -⟩ := ulp_exact (.ofFloat maxFinite)
  obtain ⟨-, h₂, -, -⟩ := ulp_exact (.ofFloat 0.0)
  obtain ⟨-, h₃, -, -⟩ := ulp_exact (.ofFloat (-1.0))
  refine ⟨?_, (h₂ 0 number?_zero).1 rfl, ?_,
    (ulp_exact (.ofFloat (-infinity))).2.2.1 (by rfl), (ulp_exact (.ofFloat nan)).2.2.2 (by rfl)⟩
  · refine (h₁ _ hlargest).2 1023 ?_ ?_
    · rw [habs, hlow]
      exact mul_le_mul_of_nonneg_right (by norm_num) hp.le
    · rw [habs, hhigh]
      exact mul_lt_mul_of_pos_right (by norm_num) hp
  · exact (h₃ _ hminus).2 0 (by norm_num) (by norm_num)

end Calculator.Rounding
