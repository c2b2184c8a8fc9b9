import Calculator.Function.Rounding
import Calculator.Proofs.Binary64.Exact

/-!
# Scaling by a power of two

A step of `2^1000` is exact or leads out of the range of binary64 for good, so scaling up rounds
once.  A step of `2^(-1000)` may lead into the subnormal range, where it is rounded to a multiple of
the smallest value, and the last step rounds again.  That gives another value than rounding once if
the first rounding comes to lie half way between two multiples and the tie is then broken to the
wrong side.

Results:
* `nearestEven_roundedTo_eq_iff`: when rounding twice is not rounding once.
* `scaleInSteps_of_le`, `scaleInSteps_of_lt`: what the steps compute.
* `ldexp_nearest_iff`: exactly when `ldexp` gives the value nearest to the scaled number.
-/

namespace Calculator.Binary64

variable {x : Float} {a : Bool} {m n : ℕ} {j k : ℤ} {e q v : ℚ} {rest : ℕ}

/-! ## Rounding twice -/

theorem nearestEven_eq_iff (hq : 0 ≤ q) :
    nearestEven q = n ↔ |q - n| < 1 / 2 ∨ |q - n| = 1 / 2 ∧ n % 2 = 0 := by
  constructor
  · rintro rfl
    obtain ⟨hlow, hhigh, htie⟩ := nearestEven_bounds hq
    rcases htie with heven | ⟨hlow', hhigh'⟩
    · exact (abs_le.mpr ⟨by linarith, by linarith⟩).lt_or_eq.imp_right fun heq => ⟨heq, heven⟩
    · exact .inl (abs_lt.mpr ⟨by linarith, by linarith⟩)
  · rintro (hlt | ⟨heq, heven⟩)
    · obtain ⟨hlow, hhigh⟩ := abs_lt.mp hlt
      exact nearestEven_eq hq (by linarith) (by linarith) (.inr ⟨by linarith, by linarith⟩)
    · obtain ⟨hlow, hhigh⟩ := abs_le.mp heq.le
      exact nearestEven_eq hq (by linarith) (by linarith) (.inl heven)

theorem nearestEven_natCast (n : ℕ) : nearestEven n = n := by
  rw [nearestEven_eq_iff (Nat.cast_nonneg n), sub_self, abs_zero]
  exact .inl one_half_pos

theorem nearestEven_eq_zero (hq : 0 ≤ q) (h : q < 1 / 2) : nearestEven q = 0 := by
  rw [nearestEven_eq_iff hq, Nat.cast_zero, sub_zero, abs_of_nonneg hq]
  exact .inl h

/-- A tie goes to the even one of the two integers. -/
theorem nearestEven_half (n : ℕ) : nearestEven (n + 1 / 2) = n + n % 2 := by
  have hq : (0 : ℚ) ≤ n + 1 / 2 := by positivity
  rw [nearestEven_eq_iff hq]
  rcases Nat.mod_two_eq_zero_or_one n with h | h
  · rw [h, Nat.add_zero, add_sub_cancel_left, abs_of_pos one_half_pos]
    exact .inr ⟨rfl, h⟩
  · rw [h]
    push_cast
    rw [abs_of_neg (by linarith)]
    exact .inr ⟨by ring, by omega⟩

/-- Numbers on the same side of each half are rounded to the same integer. -/
theorem nearestEven_congr {w z : ℚ} (hw : 0 ≤ w) (hz : 0 ≤ z)
    (hbelow : ∀ n : ℕ, w < n + 1 / 2 ↔ z < n + 1 / 2)
    (habove : ∀ n : ℕ, n + 1 / 2 < w ↔ n + 1 / 2 < z) : nearestEven w = nearestEven z := by
  obtain ⟨hlow, hhigh, htie⟩ := nearestEven_bounds hz
  generalize nearestEven z = n at *
  have hhalf (p : ℕ) : ((p + 1 : ℕ) : ℚ) - 1 / 2 = p + 1 / 2 := by
    push_cast
    ring
  have hhigh' : w ≤ n + 1 / 2 := not_lt.mp fun h => absurd ((habove n).mp h) (not_lt.mpr hhigh)
  cases n with
  | zero =>
    push_cast at hhigh' ⊢
    exact nearestEven_eq hw (by push_cast; linarith) (by push_cast; linarith) (.inl rfl)
  | succ p =>
    rw [hhalf] at hlow htie
    have hlow' : p + 1 / 2 ≤ w := not_lt.mp fun h => absurd ((hbelow p).mp h) (not_lt.mpr hlow)
    refine nearestEven_eq hw ?_ hhigh' (htie.imp_right fun ⟨hlt, hlt'⟩ => ⟨?_, ?_⟩)
    · rwa [hhalf]
    · rw [hhalf]
      exact (habove p).mpr hlt
    · exact (hbelow (p + 1)).mpr hlt'

/-- A number rounded to so many binary places. -/
def roundedTo (rest : ℕ) (e : ℚ) : ℚ := nearestEven (e * 2 ^ rest) / 2 ^ rest

/-- Whether a number does not lie half way between two integers, but comes to lie there if it is
rounded to so many binary places, and the even one of the two integers is on the other side. -/
def FalseTie (rest : ℕ) (e : ℚ) : Prop :=
  ∃ n : ℕ, e ≠ n + 1 / 2 ∧ (n % 2 = 0 ↔ n + 1 / 2 < e) ∧
    (|e - (n + 1 / 2)| < 1 / 2 ^ (rest + 1) ∨ |e - (n + 1 / 2)| = 1 / 2 ^ (rest + 1) ∧ 2 ≤ rest)

theorem roundedTo_nonneg (rest : ℕ) (e : ℚ) : 0 ≤ roundedTo rest e :=
  div_nonneg (Nat.cast_nonneg _) (pow_nonneg two_pos.le rest)

/-- A number of so many binary places stays. -/
theorem roundedTo_eq (h : e * 2 ^ rest = n) : roundedTo rest e = e := by
  rw [roundedTo, h, nearestEven_natCast, ← h]
  exact mul_div_cancel_right₀ e (pow_pos two_pos rest).ne'

theorem roundedTo_natCast (rest n : ℕ) : roundedTo rest n = n :=
  roundedTo_eq (n := n * 2 ^ rest) (by push_cast; rfl)

theorem roundedTo_le (he : 0 ≤ e) (h : e < n) : roundedTo rest e ≤ n := by
  have hp : (0 : ℚ) < 2 ^ rest := pow_pos two_pos rest
  have hround : nearestEven (e * 2 ^ rest) ≤ n * 2 ^ rest :=
    nearestEven_le (by positivity) (by push_cast; exact mul_lt_mul_of_pos_right h hp)
  rw [roundedTo, div_le_iff₀ hp]
  exact_mod_cast hround

/-- One half more than an integer, in units of a binary place. -/
theorem half_mul_two_pow (n r : ℕ) :
    ((n : ℚ) + 1 / 2) * 2 ^ (r + 1) = ((2 * n + 1) * 2 ^ r : ℕ) := by
  push_cast
  ring

/-- The numbers that come to lie half way between two integers.  At the first place such a number is
odd, so a tie does not go to it. -/
theorem roundedTo_eq_half_iff (he : 0 ≤ e) (hrest : 1 ≤ rest) :
    roundedTo rest e = n + 1 / 2 ↔ |e - (n + 1 / 2)| < 1 / 2 ^ (rest + 1) ∨
      |e - (n + 1 / 2)| = 1 / 2 ^ (rest + 1) ∧ 2 ≤ rest := by
  obtain ⟨r, rfl⟩ := Nat.exists_eq_add_of_le' hrest
  have hp : (0 : ℚ) < 2 ^ (r + 1) := pow_pos two_pos _
  have hdistance : |e * 2 ^ (r + 1) - ((2 * n + 1) * 2 ^ r : ℕ)| =
      |e - (n + 1 / 2)| * 2 ^ (r + 1) := by
    rw [← half_mul_two_pow, ← sub_mul, abs_mul, abs_of_pos hp]
  have hunit : (1 : ℚ) / 2 ^ (r + 1 + 1) = 1 / 2 / 2 ^ (r + 1) := by
    rw [pow_succ' 2 (r + 1), div_div]
  have heven : (2 * n + 1) * 2 ^ r % 2 = 0 ↔ 2 ≤ r + 1 := by
    cases r with
    | zero => omega
    | succ r =>
      rw [pow_succ, ← Nat.mul_assoc]
      omega
  rw [roundedTo, div_eq_iff hp.ne', half_mul_two_pow, Nat.cast_inj,
    nearestEven_eq_iff (mul_nonneg he hp.le), hdistance, heven, hunit, lt_div_iff₀ hp,
    eq_div_iff hp.ne']

/-- A number that does not come to lie on a half stays on its side of it. -/
theorem roundedTo_side (he : 0 ≤ e) (hrest : 1 ≤ rest) (h : roundedTo rest e ≠ n + 1 / 2) :
    (roundedTo rest e < n + 1 / 2 ↔ e < n + 1 / 2) ∧
      (n + 1 / 2 < roundedTo rest e ↔ n + 1 / 2 < e) := by
  obtain ⟨r, rfl⟩ := Nat.exists_eq_add_of_le' hrest
  have hp : (0 : ℚ) < 2 ^ (r + 1) := pow_pos two_pos _
  have hbelow (hlt : e < n + 1 / 2) : roundedTo (r + 1) e < n + 1 / 2 := by
    refine lt_of_le_of_ne ?_ h
    rw [roundedTo, div_le_iff₀ hp, half_mul_two_pow, Nat.cast_le]
    refine nearestEven_le (mul_nonneg he hp.le) ?_
    rw [← half_mul_two_pow]
    exact mul_lt_mul_of_pos_right hlt hp
  have habove (hle : n + 1 / 2 ≤ e) : n + 1 / 2 < roundedTo (r + 1) e := by
    refine lt_of_le_of_ne ?_ h.symm
    rw [roundedTo, le_div_iff₀ hp, half_mul_two_pow, Nat.cast_le]
    refine le_nearestEven ?_
    rw [← half_mul_two_pow]
    exact mul_le_mul_of_nonneg_right hle hp.le
  rcases lt_or_ge e (n + 1 / 2) with hlt | hge
  · have := hbelow hlt
    exact ⟨iff_of_true this hlt, iff_of_false this.not_gt hlt.not_gt⟩
  · have hlt := habove hge
    refine ⟨iff_of_false hlt.not_gt hge.not_gt, iff_of_true hlt (lt_of_le_of_ne hge ?_)⟩
    rintro rfl
    exact h (roundedTo_eq (half_mul_two_pow n r))

/-- What comes to lie on a half is at most one quarter away from it. -/
theorem distance_le {d : ℚ} (hrest : 1 ≤ rest)
    (h : d < 1 / 2 ^ (rest + 1) ∨ d = 1 / 2 ^ (rest + 1) ∧ 2 ≤ rest) : d ≤ 1 / 4 := by
  have hle : (1 : ℚ) / 2 ^ (rest + 1) ≤ 1 / 2 ^ 2 :=
    one_div_pow_le_one_div_pow_of_le one_le_two (by omega)
  have hclose : d ≤ 1 / 2 ^ (rest + 1) := h.elim le_of_lt fun h => h.1.le
  linarith

/-- There is one half only that a number comes to lie on. -/
theorem falseTie_iff (he : 0 ≤ e) (hrest : 1 ≤ rest) (h : roundedTo rest e = n + 1 / 2)
    (hne : e ≠ n + 1 / 2) : FalseTie rest e ↔ (n % 2 = 0 ↔ n + 1 / 2 < e) := by
  refine ⟨fun ⟨p, _, hside, hclose⟩ => ?_,
    fun hside => ⟨n, hne, hside, (roundedTo_eq_half_iff he hrest).mp h⟩⟩
  have hp := (roundedTo_eq_half_iff he hrest).mpr hclose
  obtain rfl : n = p := by
    have : (n : ℚ) = p := by linarith
    exact_mod_cast this
  exact hside

/-- A number that comes to lie on a half is rounded to the integer on its own side, and after that
to the even one. -/
theorem nearestEven_half_eq_iff (he : 0 ≤ e) (hne : e ≠ n + 1 / 2)
    (h : |e - (n + 1 / 2)| ≤ 1 / 4) :
    nearestEven (n + 1 / 2) = nearestEven e ↔ ¬ (n % 2 = 0 ↔ n + 1 / 2 < e) := by
  obtain ⟨hlow, hhigh⟩ := abs_le.mp h
  rw [nearestEven_half]
  rcases lt_or_gt_of_ne hne with hlt | hgt
  · have hnearest : nearestEven e = n :=
      nearestEven_eq he (by linarith) hlt.le (.inr ⟨by linarith, hlt⟩)
    rw [hnearest, iff_false_right hlt.not_gt]
    omega
  · have hnearest : nearestEven e = n + 1 :=
      nearestEven_eq he (by push_cast; linarith) (by push_cast; linarith)
        (.inr ⟨by push_cast; linarith, by push_cast; linarith⟩)
    rw [hnearest, iff_true_right hgt]
    omega

/-- Rounding to so many binary places first changes the nearest integer exactly at a false tie. -/
theorem nearestEven_roundedTo_eq_iff (he : 0 ≤ e) (hrest : 1 ≤ rest) :
    nearestEven (roundedTo rest e) = nearestEven e ↔ ¬ FalseTie rest e := by
  by_cases htie : ∃ n : ℕ, roundedTo rest e = n + 1 / 2 ∧ e ≠ n + 1 / 2
  · obtain ⟨n, hround, hne⟩ := htie
    rw [hround, falseTie_iff he hrest hround hne]
    exact nearestEven_half_eq_iff he hne
      (distance_le hrest ((roundedTo_eq_half_iff he hrest).mp hround))
  · have hside (n : ℕ) : (roundedTo rest e < n + 1 / 2 ↔ e < n + 1 / 2) ∧
        (n + 1 / 2 < roundedTo rest e ↔ n + 1 / 2 < e) := by
      by_cases heq : roundedTo rest e = n + 1 / 2
      · have : e = n + 1 / 2 := by
          by_contra hne
          exact htie ⟨n, heq, hne⟩
        rw [heq, this]
        exact ⟨Iff.rfl, Iff.rfl⟩
      · exact roundedTo_side he hrest heq
    refine iff_of_true (nearestEven_congr (roundedTo_nonneg rest e) he (fun n => (hside n).1)
      fun n => (hside n).2) ?_
    rintro ⟨n, hne, -, hclose⟩
    exact htie ⟨n, (roundedTo_eq_half_iff he hrest).mpr hclose, hne⟩

theorem not_falseTie_of_lt (hrest : 1 ≤ rest) (h : e < 1 / 4) : ¬ FalseTie rest e := by
  rintro ⟨n, -, -, hclose⟩
  have hn := Nat.cast_nonneg (α := ℚ) n
  have := (abs_le.mp (distance_le hrest hclose)).1
  linarith

/-! ## Subnormal values -/

/-- The smallest positive magnitude of a value. -/
def smallest : ℚ := 2 ^ (-1074 : ℤ)

theorem smallest_pos : 0 < smallest := two_zpow_pos _

/-- A magnitude in the subnormal range is rounded to a multiple of the smallest one. -/
theorem nearestDatum_subnormal (a : Bool) (he : 0 ≤ e) (h : e ≤ 2 ^ 52) :
    nearestDatum a (e * smallest) = .finite a (nearestEven e) (-1074) := by
  have hp := smallest_pos
  obtain ⟨hlow, hhigh, htie⟩ := nearestEven_bounds he
  rcases he.eq_or_lt with rfl | hpos
  · rw [zero_mul, nearestDatum_zero, nearestEven_eq_zero le_rfl one_half_pos]
  have hround : nearestEven e ≤ 2 ^ 52 := by
    by_contra hlarge
    have : (2 : ℚ) ^ 52 + 1 ≤ nearestEven e := by exact_mod_cast not_le.mp hlarge
    linarith
  have hc : Canonical (nearestEven e) (-1074) := ⟨by omega, le_rfl, by norm_num, .inl rfl⟩
  have hplace : lastPlace (e * smallest) = -1074 :=
    lastPlace_eq (mul_pos hpos hp) le_rfl (mul_lt_mul_of_pos_right (by linarith) hp) (.inl rfl)
  exact nearestDatum_of_lastPlace hc (mul_pos hpos hp) hplace
    (mul_le_mul_of_nonneg_right hlow hp.le) (mul_le_mul_of_nonneg_right hhigh hp.le)
    (htie.imp_right fun ⟨h₁, h₂⟩ =>
      ⟨mul_lt_mul_of_pos_right h₁ hp, mul_lt_mul_of_pos_right h₂ hp⟩)

theorem ofMagnitude_subnormal_eq_iff (a : Bool) {d : ℚ} (hd : 0 ≤ d) (hd' : d ≤ 2 ^ 52)
    (he : 0 ≤ e) (he' : e ≤ 2 ^ 52) :
    ofMagnitude a (d * smallest) = ofMagnitude a (e * smallest) ↔
      nearestEven d = nearestEven e := by
  have hiff : ofMagnitude a (d * smallest) = ofMagnitude a (e * smallest) ↔
      nearestDatum a (d * smallest) = nearestDatum a (e * smallest) := by
    rw [← datum_ofMagnitude a (mul_nonneg hd smallest_pos.le),
      ← datum_ofMagnitude a (mul_nonneg he smallest_pos.le)]
    exact ⟨congrArg datum, datum_injective⟩
  rw [hiff, nearestDatum_subnormal a hd hd', nearestDatum_subnormal a he he',
    Datum.finite.injEq]
  exact ⟨fun h => h.2.1, fun h => ⟨rfl, h, rfl⟩⟩

/-- In places that are not behind the point a significand is an integer. -/
theorem exists_natCast (m : ℕ) (hk : 0 ≤ k) : ∃ n : ℕ, (m * 2 ^ k : ℚ) = n := by
  obtain ⟨p, rfl⟩ := Int.eq_ofNat_of_zero_le hk
  exact ⟨m * 2 ^ p, by push_cast; rfl⟩

/-- In places behind the point a significand of 53 bits is below `2^52`. -/
theorem magnitude_lt_of_neg (hm : m < 2 ^ 53) (hk : k < 0) : (m * 2 ^ k : ℚ) < 2 ^ 52 := by
  have hm' : (m : ℚ) < 2 ^ 53 := by exact_mod_cast hm
  have hpow : (2 : ℚ) ^ k ≤ 2 ^ (-1 : ℤ) := zpow_le_zpow_right₀ one_le_two (by omega)
  calc (m : ℚ) * 2 ^ k < 2 ^ 53 * 2 ^ k := mul_lt_mul_of_pos_right hm' (two_zpow_pos k)
    _ ≤ 2 ^ 53 * 2 ^ (-1 : ℤ) := mul_le_mul_of_nonneg_left hpow (by norm_num)
    _ = 2 ^ 52 := by norm_num

/-! ## Steps -/

theorem infinity_mul_twoPow (hx : datum x = .infinity a) (hlow : -1074 ≤ k) (hhigh : k ≤ 1023) :
    datum (x * twoPow k) = .infinity a := by
  obtain ⟨n, i, hd, hvalue⟩ := datum_twoPow hlow hhigh
  have hn : 0 < n := by
    refine Nat.pos_of_ne_zero ?_
    rintro rfl
    rw [Nat.cast_zero, zero_mul] at hvalue
    exact (two_zpow_pos k).ne hvalue
  rw [infinity_mul hx hd hn]
  exact datum_ofDatum trivial

/-- No step leads back from infinity. -/
theorem scaleInSteps_infinity (hx : datum x = .infinity a) (k : ℤ) :
    datum (scaleInSteps x k) = .infinity a := by
  induction x, k using scaleInSteps.induct with
  | case1 x k h ih =>
    rw [scaleInSteps, if_pos h]
    exact ih (infinity_mul_twoPow hx (by norm_num) (by norm_num))
  | case2 x k h h' ih =>
    rw [scaleInSteps, if_neg h, if_pos h']
    exact ih (infinity_mul_twoPow hx (by norm_num) (by norm_num))
  | case3 x k h h' =>
    rw [scaleInSteps, if_neg h, if_neg h']
    exact infinity_mul_twoPow hx (by omega) (by omega)

/-- Steps up round once: a step is exact, or out of range for good. -/
theorem scaleInSteps_of_le (hk : -1000 ≤ k) (hx : datum x = .finite a m j) :
    scaleInSteps x k = ofMagnitude a (m * 2 ^ j * 2 ^ k) := by
  induction x, k using scaleInSteps.induct generalizing m j with
  | case1 x k h ih =>
    have hc := canonical_of_datum hx
    have hstep := mul_twoPow hx (by norm_num : (-1074 : ℤ) ≤ 1000) (by norm_num)
    have hsplit : (m * 2 ^ j * 2 ^ k : ℚ) = m * 2 ^ j * 2 ^ (1000 : ℤ) * 2 ^ (k - 1000) := by
      rw [mul_assoc _ (2 ^ (1000 : ℤ) : ℚ), ← zpow_add₀ two_ne_zero, add_sub_cancel]
    have hsum : (m * 2 ^ j * 2 ^ (1000 : ℤ) : ℚ) = m * 2 ^ (j + 1000) := by
      rw [mul_assoc, ← zpow_add₀ two_ne_zero]
    rw [scaleInSteps, if_pos h, hsplit, hsum]
    rw [hsum] at hstep
    rcases lt_or_ge (m * 2 ^ (j + 1000) : ℚ) (2 ^ 1024) with hrange | hover
    · have hlow := hc.le_exponent
      obtain ⟨n, i, hd, hvalue⟩ := datum_ofMagnitude_exact a hc.significand_lt
        (by omega : -1074 ≤ j + 1000) hrange
      rw [← hstep] at hd
      rw [ih (by omega) hd, hvalue]
    · have hinfinite : datum (x * twoPow 1000) = .infinity a := by
        rw [hstep, datum_ofMagnitude a (magnitude_nonneg _ _), nearestDatum_of_le hover]
      have hover' : (2 : ℚ) ^ 1024 ≤ m * 2 ^ (j + 1000) * 2 ^ (k - 1000) :=
        hover.trans (le_mul_of_one_le_right (magnitude_nonneg _ _)
          (one_le_zpow₀ one_le_two (by omega)))
      rw [ofMagnitude_of_le hover']
      exact eq_ofDatum (scaleInSteps_infinity hinfinite _)
  | case2 x k h h' => omega
  | case3 x k h h' =>
    rw [scaleInSteps, if_neg h, if_neg h']
    exact mul_twoPow hx (by omega) (by omega)

/-- A step down rounds to a multiple of the smallest magnitude, which is exact above the subnormal
range. -/
theorem step_down (hx : datum x = .finite a m j) : ∃ n i,
    datum (x * twoPow (-1000)) = .finite a n i ∧
      (n * 2 ^ i : ℚ) = nearestEven (m * 2 ^ (j + 74)) * smallest := by
  have hc := canonical_of_datum hx
  have hunits : (m * 2 ^ j * 2 ^ (-1000 : ℤ) : ℚ) = m * 2 ^ (j + 74) * smallest := by
    rw [smallest, mul_assoc, mul_assoc, ← zpow_add₀ two_ne_zero, ← zpow_add₀ two_ne_zero, add_assoc]
    rfl
  rw [mul_twoPow hx (by norm_num) (by norm_num), hunits]
  rcases le_or_gt 0 (j + 74) with hj | hj
  · obtain ⟨p, hp⟩ := exists_natCast m hj
    have hexact : (m * 2 ^ (j + 74) * smallest : ℚ) = m * 2 ^ (j - 1000) := by
      rw [smallest, mul_assoc, ← zpow_add₀ two_ne_zero]
      congr 2
      ring
    have hrange : (m * 2 ^ (j - 1000) : ℚ) < 2 ^ 1024 :=
      lt_of_le_of_lt (mul_le_mul_of_nonneg_left
        (zpow_le_zpow_right₀ one_le_two (by omega)) (Nat.cast_nonneg m)) (magnitude_lt hc)
    obtain ⟨n, i, hd, hvalue⟩ := datum_ofMagnitude_exact a hc.significand_lt
      (by omega : -1074 ≤ j - 1000) hrange
    rw [← hexact] at hd hvalue
    exact ⟨n, i, hd, by rw [hvalue, hp, nearestEven_natCast]⟩
  · have hsmall := magnitude_lt_of_neg hc.significand_lt hj
    have hnonneg := magnitude_nonneg m (j + 74)
    refine ⟨nearestEven (m * 2 ^ (j + 74)), -1074, ?_, rfl⟩
    rw [datum_ofMagnitude a (mul_nonneg hnonneg smallest_pos.le),
      nearestDatum_subnormal a hnonneg hsmall.le]

/-- How many binary places the last of the steps down takes. -/
def lastStep (k : ℤ) : ℕ := ((-k - 1) % 1000 + 1).toNat

theorem one_le_lastStep (k : ℤ) : 1 ≤ lastStep k := by
  unfold lastStep
  omega

/-- In two steps down nothing is left of a subnormal value. -/
theorem roundedTo_eq_zero (he : 0 ≤ e) (h : e ≤ 2 ^ 52) (hk : k + rest ≤ -54) :
    roundedTo rest (e * 2 ^ k) = 0 := by
  have hpow : (2 : ℚ) ^ (k + rest) ≤ 2 ^ (-54 : ℤ) := zpow_le_zpow_right₀ one_le_two hk
  have hsmall : e * 2 ^ (k + rest) < 1 / 2 :=
    calc e * 2 ^ (k + rest) ≤ 2 ^ 52 * 2 ^ (-54 : ℤ) :=
          mul_le_mul h hpow (two_zpow_pos _).le (by norm_num)
      _ < 1 / 2 := by norm_num
  have hplaces : e * 2 ^ k * 2 ^ rest = e * 2 ^ (k + rest) := by
    rw [two_zpow_add]
    ring
  rw [roundedTo, hplaces, nearestEven_eq_zero (mul_nonneg he (two_zpow_pos _).le) hsmall,
    Nat.cast_zero, zero_div]

/-- Two steps down it does not matter whether a significand was rounded to an integer before: either
it was one, or nothing is left of it. -/
theorem roundedTo_nearestEven (hm : m < 2 ^ 53) (i : ℤ) (hk : k + rest ≤ -54) :
    roundedTo rest (nearestEven (m * 2 ^ i) * 2 ^ k) = roundedTo rest (m * 2 ^ i * 2 ^ k) := by
  rcases le_or_gt 0 i with hi | hi
  · obtain ⟨p, hp⟩ := exists_natCast m hi
    rw [hp, nearestEven_natCast]
  · have hsmall := magnitude_lt_of_neg hm hi
    have hnonneg := magnitude_nonneg m i
    have hround : nearestEven (m * 2 ^ i) ≤ 2 ^ 52 :=
      nearestEven_le hnonneg (by exact_mod_cast hsmall)
    rw [roundedTo_eq_zero hnonneg hsmall.le hk,
      roundedTo_eq_zero (Nat.cast_nonneg _) (by exact_mod_cast hround) hk]

/-- Steps down round to the places of the last step first, in units of the smallest magnitude. -/
theorem scaleInSteps_of_lt (hk : k < -1000) (hx : datum x = .finite a m j) :
    scaleInSteps x k =
      ofMagnitude a (roundedTo (lastStep k) (m * 2 ^ (j + (k + 1074))) * smallest) := by
  induction x, k using scaleInSteps.induct generalizing m j with
  | case1 x k h ih => omega
  | case2 x k h h' ih =>
    have hm := (canonical_of_datum hx).significand_lt
    obtain ⟨n, i, hd, hvalue⟩ := step_down hx
    rw [scaleInSteps, if_neg h, if_pos h']
    rcases le_or_gt (-1000) (k + 1000) with hlast | hmore
    · have hstep : k + 1000 = -(lastStep k : ℤ) := by
        unfold lastStep
        omega
      have hplaces : (m * 2 ^ (j + (k + 1074)) * 2 ^ lastStep k : ℚ) = m * 2 ^ (j + 74) := by
        rw [mul_assoc, mul_comm (2 ^ (j + (k + 1074)) : ℚ), ← two_zpow_add]
        congr 2
        omega
      rw [scaleInSteps_of_le hlast hd, hvalue, roundedTo, hplaces, hstep, zpow_neg, zpow_natCast,
        div_mul_eq_mul_div, div_eq_mul_inv]
    · have hstep : lastStep (k + 1000) = lastStep k := by
        unfold lastStep
        omega
      have hleft : k + 1000 + (lastStep k : ℤ) ≤ -54 := by
        unfold lastStep
        omega
      have hunits : (n * 2 ^ (i + (k + 1000 + 1074)) : ℚ) =
          nearestEven (m * 2 ^ (j + 74)) * 2 ^ (k + 1000) := by
        rw [zpow_add₀ two_ne_zero, ← mul_assoc, hvalue, smallest, mul_assoc,
          ← zpow_add₀ two_ne_zero]
        congr 2
        ring
      have hexact : (m * 2 ^ (j + (k + 1074)) : ℚ) = m * 2 ^ (j + 74) * 2 ^ (k + 1000) := by
        rw [mul_assoc, ← zpow_add₀ two_ne_zero]
        congr 2
        ring
      rw [ih (by omega) hd, hstep, hunits, hexact, roundedTo_nearestEven hm _ hleft]
  | case3 x k h h' => omega

/-! ## The limits of the exponent -/

theorem le_mul_two_zpow (hm : 0 < m) (hj : -1074 ≤ j) (hk : 2200 ≤ k) :
    (2 : ℚ) ^ 1024 ≤ m * 2 ^ j * 2 ^ k := by
  have hm' : (1 : ℚ) ≤ m := by exact_mod_cast hm
  calc (2 : ℚ) ^ 1024 = 2 ^ (1024 : ℤ) := rfl
    _ ≤ 2 ^ (j + k) := zpow_le_zpow_right₀ one_le_two (by omega)
    _ = 2 ^ j * 2 ^ k := zpow_add₀ two_ne_zero j k
    _ ≤ m * (2 ^ j * 2 ^ k) :=
      le_mul_of_one_le_left (mul_pos (two_zpow_pos j) (two_zpow_pos k)).le hm'
    _ = m * 2 ^ j * 2 ^ k := (mul_assoc _ _ _).symm

/-- Scaling up, or down by no more than one step, rounds once. -/
theorem scale_of_le (hk : -1000 ≤ k) (hx : datum x = .finite a m j) :
    scale x k = ofMagnitude a (m * 2 ^ j * 2 ^ k) := by
  have hj := (canonical_of_datum hx).le_exponent
  rcases le_or_gt k 2200 with hle | hlarge
  · have hclamp : max (-2200) (min 2200 k) = k := by omega
    rw [scale, hclamp, scaleInSteps_of_le hk hx]
  · have hclamp : max (-2200) (min 2200 k) = 2200 := by omega
    rw [scale, hclamp, scaleInSteps_of_le (by norm_num) hx]
    rcases Nat.eq_zero_or_pos m with rfl | hm
    · simp only [Nat.cast_zero, zero_mul]
    · rw [ofMagnitude_of_le (le_mul_two_zpow hm hj le_rfl),
        ofMagnitude_of_le (le_mul_two_zpow hm hj hlarge.le)]

theorem magnitude_lt_of_le (hc : Canonical m j) (hk : k ≤ -2200) :
    (m * 2 ^ (j + (k + 1074)) : ℚ) < 1 / 4 := by
  have hpow : (2 : ℚ) ^ (k + 1074) ≤ 2 ^ (-1126 : ℤ) := zpow_le_zpow_right₀ one_le_two (by omega)
  calc (m * 2 ^ (j + (k + 1074)) : ℚ) = m * 2 ^ j * 2 ^ (k + 1074) := by
        rw [zpow_add₀ two_ne_zero, mul_assoc]
    _ < 2 ^ 1024 * 2 ^ (k + 1074) := mul_lt_mul_of_pos_right (magnitude_lt hc) (two_zpow_pos _)
    _ ≤ 2 ^ 1024 * 2 ^ (-1126 : ℤ) := mul_le_mul_of_nonneg_left hpow (by positivity)
    _ = 2 ^ (-102 : ℤ) := (two_zpow_add 1024 (-1126)).symm
    _ < 1 / 4 := by norm_num

/-- Scaling down further rounds to the places of the last step first. -/
theorem scale_of_lt (hk : k < -1000) (hx : datum x = .finite a m j) :
    scale x k = ofMagnitude a (roundedTo (lastStep k) (m * 2 ^ (j + (k + 1074))) * smallest) := by
  have hc := canonical_of_datum hx
  rcases le_or_gt (-2200) k with hle | hlarge
  · have hclamp : max (-2200) (min 2200 k) = k := by omega
    rw [scale, hclamp, scaleInSteps_of_lt hk hx]
  · have hclamp : max (-2200) (min 2200 k) = -2200 := by omega
    have hzero (i : ℤ) (hi : i ≤ -2200) :
        ofMagnitude a (roundedTo (lastStep i) (m * 2 ^ (j + (i + 1074))) * smallest) =
          ofMagnitude a (0 * smallest) := by
      have hsmall := magnitude_lt_of_le hc hi
      have hnonneg := magnitude_nonneg m (j + (i + 1074))
      have hone : roundedTo (lastStep i) (m * 2 ^ (j + (i + 1074))) ≤ (1 : ℕ) :=
        roundedTo_le hnonneg (by push_cast; linarith)
      rw [ofMagnitude_subnormal_eq_iff a (roundedTo_nonneg _ _) (by push_cast at hone; linarith)
        le_rfl (by norm_num), nearestEven_eq_zero le_rfl one_half_pos,
        (nearestEven_roundedTo_eq_iff hnonneg (one_le_lastStep i)).mpr
          (not_falseTie_of_lt (one_le_lastStep i) hsmall),
        nearestEven_eq_zero hnonneg (by linarith)]
    rw [scale, hclamp, scaleInSteps_of_lt (by norm_num) hx, hzero _ le_rfl, hzero k hlarge.le]

/-! ## When a scaled value is the nearest one -/

theorem scale_eq_ofMagnitude (hx : datum x = .finite a m j) (k : ℤ) :
    ∃ v, 0 ≤ v ∧ scale x k = ofMagnitude a v := by
  rcases le_or_gt (-1000) k with hk | hk
  · exact ⟨_, mul_nonneg (magnitude_nonneg m j) (two_zpow_pos k).le, scale_of_le hk hx⟩
  · exact ⟨_, mul_nonneg (roundedTo_nonneg _ _) smallest_pos.le, scale_of_lt hk hx⟩

/-- A scaled value is the nearest one unless the last of the steps down meets a false tie. -/
theorem isNearest_scale_iff (hx : datum x = .finite a m j) :
    IsNearest (scale x k).abs (m * 2 ^ j * 2 ^ k) ↔
      ¬ (k < -1000 ∧ FalseTie (lastStep k) (m * 2 ^ (j + (k + 1074)))) := by
  have hm := (canonical_of_datum hx).significand_lt
  have hv : (0 : ℚ) ≤ m * 2 ^ j * 2 ^ k := mul_nonneg (magnitude_nonneg m j) (two_zpow_pos k).le
  rcases le_or_gt (-1000) k with hk | hk
  · rw [scale_of_le hk hx, abs_ofMagnitude a hv]
    exact iff_of_true (isNearest_ofMagnitude hv) fun h => absurd hk (not_le.mpr h.1)
  have he := magnitude_nonneg m (j + (k + 1074))
  have hunits : (m * 2 ^ j * 2 ^ k : ℚ) = m * 2 ^ (j + (k + 1074)) * smallest := by
    rw [smallest, mul_assoc, mul_assoc, ← zpow_add₀ two_ne_zero, ← zpow_add₀ two_ne_zero]
    congr 2
    ring
  have hcore := nearestEven_roundedTo_eq_iff he (one_le_lastStep k)
  have hround := roundedTo_nonneg (lastStep k) (m * 2 ^ (j + (k + 1074)))
  rw [isNearest_iff hv, scale_of_lt hk hx, abs_ofMagnitude a (mul_nonneg hround smallest_pos.le),
    hunits, and_iff_right hk, ← hcore]
  rcases le_or_gt 0 (j + (k + 1074)) with hplace | hplace
  · -- above the subnormal range nothing is rounded
    obtain ⟨n, hn⟩ := exists_natCast m hplace
    rw [hn, roundedTo_natCast]
    exact iff_of_true rfl rfl
  · have hsmall := magnitude_lt_of_neg hm hplace
    have hle : roundedTo (lastStep k) (m * 2 ^ (j + (k + 1074))) ≤ (2 ^ 52 : ℕ) :=
      roundedTo_le he (by exact_mod_cast hsmall)
    exact ofMagnitude_subnormal_eq_iff false hround (by exact_mod_cast hle) he hsmall.le

end Calculator.Binary64

namespace Calculator.Rounding

open Binary64

theorem ldexpFunction_apply {x i : Value} {q : ℚ} {k : ℤ} (hx : number? x.float = some q)
    (hi : number? i.float = some (k : ℚ)) :
    ldexpFunction.apply [x, i] = .ok (.ofFloat (scale x.float k)) := by
  obtain ⟨a, m, j, hd, -⟩ := exists_datum hx
  obtain ⟨v, hv, hscale⟩ := scale_eq_ofMagnitude hd k
  have hnumber : (scale x.float k).isNaN = false := hscale ▸ isNaN_ofMagnitude a hv
  have hinteger : toInt i.float = k := by
    have := (number?_of_isIntegral (isIntegral_of_number hi)).symm.trans hi
    exact_mod_cast Option.some.inj this
  rw [← Value.result_eq_ofFloat [x] hnumber, ldexpFunction, ← hinteger]
  simp only [Function.integer, isIntegral_of_number hi, if_true]
  rfl

/-- `ldexp` of a number and an integer is a value with the sign of the number.  It is the one nearest
to the scaled number, or infinity where that overflows, unless the exponent is below -1000 and the
scaled number, in units of the smallest magnitude, meets a false tie in the last step. -/
theorem ldexp_nearest_iff {x i : Value} {q : ℚ} {k : ℤ} (hx : number? x.float = some q)
    (hi : number? i.float = some (k : ℚ)) :
    ldexpFunction.apply [x, i] = .ok (.ofFloat (scale x.float k)) ∧
    signBit (scale x.float k) = signBit x.float ∧
    (IsNearest (scale x.float k).abs (|q| * 2 ^ k) ↔
      ¬ (k < -1000 ∧ FalseTie (lastStep k) (|q| * 2 ^ (k + 1074)))) := by
  refine ⟨ldexpFunction_apply hx hi, ?_⟩
  obtain ⟨a, m, j, hd, rfl⟩ := exists_datum hx
  obtain ⟨v, hv, hscale⟩ := scale_eq_ofMagnitude hd k
  constructor
  · rw [hscale, signBit_ofMagnitude a hv, signBit_of_datum hd]
  · rw [abs_signedNumber, mul_assoc _ _ (2 ^ (k + 1074) : ℚ), ← zpow_add₀ two_ne_zero]
    exact isNearest_scale_iff hd

theorem datum_eleven :
    datum (Float.ofBits 0x3b66000000000000) = .finite false (11 * 2 ^ 49) (-125) := by
  rfl

theorem number?_eleven : number? (Float.ofBits 0x3b66000000000000) = some (11 * 2 ^ (-76 : ℤ)) := by
  rw [number?_of_datum datum_eleven, signedNumber]
  norm_num

theorem number?_minus1001 :
    number? (Float.ofBits 0xc08f480000000000) = some ((-1001 : ℤ) : ℚ) := by
  have hd : datum (Float.ofBits 0xc08f480000000000) = .finite true (1001 * 2 ^ 43) (-43) := by rfl
  rw [number?_of_datum hd, signedNumber]
  norm_num

theorem lastStep_minus1001 : lastStep (-1001) = 1 := by rfl

/-- A tie in the subnormal range that is one from the beginning is broken to the even side, but
`11 / 8` of the smallest magnitude comes to lie half way between one and two of it. -/
theorem ldexp_nearest_iff_ties :
    number? 3.0 = some 3 ∧ number? (-1075.0) = some ((-1075 : ℤ) : ℚ) ∧
    IsNearest (scale 3.0 (-1075)).abs (|3| * 2 ^ (-1075 : ℤ)) ∧
    number? (Float.ofBits 0x3b66000000000000) = some (11 * 2 ^ (-76 : ℤ)) ∧
    number? (Float.ofBits 0xc08f480000000000) = some ((-1001 : ℤ) : ℚ) ∧
    ¬ IsNearest (scale (Float.ofBits 0x3b66000000000000) (-1001)).abs
      (|11 * 2 ^ (-76 : ℤ)| * 2 ^ (-1001 : ℤ)) := by
  have hthree : number? 3.0 = some 3 := by
    have hd : datum 3.0 = .finite false (3 * 2 ^ 51) (-51) := by rfl
    rw [number?_of_datum hd, signedNumber]
    norm_num
  have hexponent : number? (-1075.0) = some ((-1075 : ℤ) : ℚ) := by
    have hd : datum (-1075.0) = .finite true (1075 * 2 ^ 42) (-42) := by rfl
    rw [number?_of_datum hd, signedNumber]
    norm_num
  have htie : ¬ FalseTie (lastStep (-1075)) (|3| * 2 ^ (-1075 + 1074 : ℤ)) := by
    have hhalf : (|3| * 2 ^ (-1075 + 1074 : ℤ) : ℚ) = 3 / 2 := by norm_num
    have hplaces : (3 / 2 : ℚ) * 2 ^ lastStep (-1075) = (3 * 2 ^ 74 : ℕ) := by
      have hrest : lastStep (-1075) = 75 := by rfl
      rw [hrest]
      norm_num
    rw [hhalf, ← nearestEven_roundedTo_eq_iff (by norm_num) (one_le_lastStep _),
      roundedTo_eq hplaces]
  have hfalse : FalseTie (lastStep (-1001)) (|11 * 2 ^ (-76 : ℤ)| * 2 ^ (-1001 + 1074 : ℤ)) := by
    have heighth : (|11 * 2 ^ (-76 : ℤ)| * 2 ^ (-1001 + 1074 : ℤ) : ℚ) = 11 / 8 := by norm_num
    rw [heighth, lastStep_minus1001]
    refine ⟨1, by norm_num, by norm_num, .inl ?_⟩
    norm_num [abs_lt]
  have hnearest := ldexp_nearest_iff (x := .ofFloat 3.0) (i := .ofFloat (-1075.0)) hthree hexponent
  have hmissed := ldexp_nearest_iff (x := .ofFloat (Float.ofBits 0x3b66000000000000))
    (i := .ofFloat (Float.ofBits 0xc08f480000000000)) number?_eleven number?_minus1001
  exact ⟨hthree, hexponent, hnearest.2.2.mpr fun h => htie h.2, number?_eleven, number?_minus1001,
    fun h => hmissed.2.2.mp h ⟨by norm_num, hfalse⟩⟩

/-- Two steps down round `11 / 8` of the smallest magnitude to `3 / 2` and then to two of it, while
one of it is nearest. -/
theorem ldexp_rounds_twice :
    number? (Float.ofBits 0x3b66000000000000) = some (11 * 2 ^ (-76 : ℤ)) ∧
    number? (Float.ofBits 0xc08f480000000000) = some ((-1001 : ℤ) : ℚ) ∧
    ldexpFunction.apply [.ofFloat (Float.ofBits 0x3b66000000000000),
      .ofFloat (Float.ofBits 0xc08f480000000000)] = .ok (.ofFloat (Float.ofBits 2)) ∧
    ¬ IsNearest (Float.ofBits 2) (11 * 2 ^ (-76 : ℤ) * 2 ^ (-1001 : ℤ)) ∧
    IsNearest (Float.ofBits 1) (11 * 2 ^ (-76 : ℤ) * 2 ^ (-1001 : ℤ)) := by
  have hone : datum (Float.ofBits 1) = .finite false 1 (-1074) := by rfl
  have htwo : datum (Float.ofBits 2) = .finite false 2 (-1074) := by rfl
  have hplaces : ((11 * 2 ^ 49 : ℕ) * 2 ^ (-125 + (-1001 + 1074) : ℤ) : ℚ) = 11 / 8 := by norm_num
  have hunits : (11 * 2 ^ (-76 : ℤ) * 2 ^ (-1001 : ℤ) : ℚ) = 11 / 8 * smallest := by
    have heighth : (11 / 8 : ℚ) = 11 * 2 ^ (-3 : ℤ) := by norm_num
    have hplace : (-76 + -1001 : ℤ) = -3 + -1074 := by norm_num
    rw [smallest, heighth, mul_assoc, mul_assoc, ← zpow_add₀ two_ne_zero, ← zpow_add₀ two_ne_zero,
      hplace]
  have hround : nearestEven (11 / 8) = 1 :=
    nearestEven_eq (by norm_num) (by norm_num) (by norm_num) (.inr ⟨by norm_num, by norm_num⟩)
  have hfirst : roundedTo 1 (11 / 8) = 3 / 2 := by
    have hthree : nearestEven (11 / 8 * 2 ^ 1) = 3 :=
      nearestEven_eq (by norm_num) (by norm_num) (by norm_num) (.inr ⟨by norm_num, by norm_num⟩)
    rw [roundedTo, hthree]
    norm_num
  have hsecond : nearestEven (3 / 2) = 2 :=
    nearestEven_eq (by norm_num) (by norm_num) (by norm_num) (.inl rfl)
  have hscale : scale (Float.ofBits 0x3b66000000000000) (-1001) = Float.ofBits 2 := by
    rw [scale_of_lt (by norm_num) datum_eleven, hplaces, lastStep_minus1001, hfirst]
    apply datum_injective
    rw [datum_ofMagnitude false (mul_nonneg (by norm_num) smallest_pos.le),
      nearestDatum_subnormal false (by norm_num) (by norm_num), hsecond, htwo]
  have hnearest : ofMagnitude false (11 / 8 * smallest) = Float.ofBits 1 := by
    apply datum_injective
    rw [datum_ofMagnitude false (mul_nonneg (by norm_num) smallest_pos.le),
      nearestDatum_subnormal false (by norm_num) (by norm_num), hround, hone]
  have hne : Float.ofBits 2 ≠ Float.ofBits 1 := fun h => by
    have := htwo.symm.trans ((congrArg datum h).trans hone)
    cases this
  have hv : (0 : ℚ) ≤ 11 / 8 * smallest := mul_nonneg (by norm_num) smallest_pos.le
  rw [hunits, isNearest_iff hv, isNearest_iff hv, hnearest]
  exact ⟨number?_eleven, number?_minus1001,
    hscale ▸ ldexpFunction_apply (x := .ofFloat (Float.ofBits 0x3b66000000000000))
      (i := .ofFloat (Float.ofBits 0xc08f480000000000)) number?_eleven number?_minus1001,
    hne, rfl⟩

end Calculator.Rounding
