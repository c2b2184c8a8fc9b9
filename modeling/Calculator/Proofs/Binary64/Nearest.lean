import Calculator.Proofs.Binary64.Pattern

/-!
# The value nearest to a magnitude

A magnitude is rounded in units of its last place: to the nearest integer, the even one of two
equally near, in the grid that keeps 53 bits of it and does not go below `2^(-1074)`.  A value that
rounds to `2^1024` or more is infinite.

Results:
* `nearestDatum_canonical`: rounding gives a datum of a value.
* `nearestDatum_of_cell`: all magnitudes up to half way to the neighbors of a value round to it.
* `nearestDatum_exact`: values round to themselves.
* `nearestDatum_of_le`, `nearestDatum_of_lt`: what is too large is infinite, what is too small zero.
-/

namespace Calculator.Binary64

/-! ## Rounding to integers -/

/-- The natural number nearest to `q`, the even one of two equally near. -/
def nearestEven (q : ℚ) : ℕ :=
  if q - ⌊q⌋₊ < 1 / 2 then ⌊q⌋₊
  else if 1 / 2 < q - ⌊q⌋₊ then ⌊q⌋₊ + 1
  else ⌊q⌋₊ + ⌊q⌋₊ % 2

theorem nearestEven_eq {q : ℚ} {n : ℕ} (hq : 0 ≤ q) (hlow : n - 1 / 2 ≤ q) (hhigh : q ≤ n + 1 / 2)
    (htie : n % 2 = 0 ∨ (n - 1 / 2 < q ∧ q < n + 1 / 2)) : nearestEven q = n := by
  by_cases hn : (n : ℚ) ≤ q
  · have hfloor : ⌊q⌋₊ = n := (Nat.floor_eq_iff hq).mpr ⟨hn, by linarith⟩
    rw [nearestEven, hfloor]
    split_ifs with h₁ h₂
    · rfl
    · linarith
    · rcases htie with heven | ⟨-, hlt⟩
      · omega
      · linarith
  · obtain ⟨p, rfl⟩ : ∃ p, n = p + 1 := by
      refine ⟨n - 1, (Nat.succ_pred_eq_of_ne_zero fun h => hn ?_).symm⟩
      rw [h, Nat.cast_zero]
      exact hq
    push_cast at hlow hhigh htie hn
    have hfloor : ⌊q⌋₊ = p := (Nat.floor_eq_iff hq).mpr ⟨by linarith, by linarith⟩
    rw [nearestEven, hfloor]
    split_ifs with h₁ h₂
    · linarith
    · rfl
    · rcases htie with heven | ⟨hlt, -⟩
      · omega
      · linarith

theorem floor_le_nearestEven (q : ℚ) : ⌊q⌋₊ ≤ nearestEven q := by
  unfold nearestEven
  split_ifs <;> omega

theorem nearestEven_le_floor (q : ℚ) : nearestEven q ≤ ⌊q⌋₊ + 1 := by
  unfold nearestEven
  split_ifs <;> omega

theorem nearestEven_le {q : ℚ} {n : ℕ} (hq : 0 ≤ q) (h : q < n) : nearestEven q ≤ n := by
  have hfloor : ⌊q⌋₊ < n := (Nat.floor_lt hq).mpr h
  have hle := nearestEven_le_floor q
  omega

theorem le_nearestEven {q : ℚ} {n : ℕ} (h : (n : ℚ) ≤ q) : n ≤ nearestEven q :=
  le_trans (Nat.le_floor h) (floor_le_nearestEven q)

/-! ## The last place -/

/-- The exponent of the last place that a value near `v` has. -/
def lastPlace (v : ℚ) : ℤ := max (Int.log 2 v - 52) (-1074)

theorem two_zpow_pos (k : ℤ) : (0 : ℚ) < 2 ^ k := zpow_pos (by norm_num) k

theorem two_zpow_add (j : ℕ) (k : ℤ) : (2 : ℚ) ^ (k + j) = 2 ^ j * 2 ^ k := by
  rw [zpow_add₀ (by norm_num), zpow_natCast, mul_comm]

theorem two_zpow_pred (k : ℤ) : (2 : ℚ) ^ k = 2 * 2 ^ (k - 1) := by
  have h := two_zpow_add 1 (k - 1)
  rwa [Nat.cast_one, Int.sub_add_cancel, pow_one] at h

theorem le_lastPlace (v : ℚ) : -1074 ≤ lastPlace v := le_max_right _ _

theorem lt_of_lastPlace (v : ℚ) : v < 2 ^ 53 * 2 ^ lastPlace v := by
  have h := Int.lt_zpow_succ_log_self (b := 2) (by norm_num) v
  have hle : Int.log 2 v + 1 ≤ lastPlace v + (53 : ℕ) := by
    have := le_max_left (Int.log 2 v - 52) (-1074)
    unfold lastPlace
    push_cast
    omega
  rw [← two_zpow_add]
  exact lt_of_lt_of_le h (zpow_le_zpow_right₀ (by norm_num) hle)

theorem le_of_lastPlace {v : ℚ} (hv : 0 < v) (h : lastPlace v ≠ -1074) :
    2 ^ 52 * 2 ^ lastPlace v ≤ v := by
  have hlog : lastPlace v + (52 : ℕ) = Int.log 2 v := by
    unfold lastPlace at h ⊢
    push_cast
    omega
  rw [← two_zpow_add, hlog]
  exact Int.zpow_log_le_self (b := 2) (by norm_num) hv

theorem lastPlace_eq {v : ℚ} {k : ℤ} (hv : 0 < v) (hk : -1074 ≤ k) (hhigh : v < 2 ^ 53 * 2 ^ k)
    (hlow : k = -1074 ∨ 2 ^ 52 * 2 ^ k ≤ v) : lastPlace v = k := by
  rw [← two_zpow_add] at hhigh hlow
  have hlt : Int.log 2 v < k + (53 : ℕ) := (Int.lt_zpow_iff_log_lt (by norm_num) hv).mp hhigh
  have hge : k = -1074 ∨ k + (52 : ℕ) ≤ Int.log 2 v :=
    hlow.imp_right (Int.zpow_le_iff_le_log (by norm_num) hv).mp
  unfold lastPlace
  push_cast at hlt hge
  omega

/-! ## Rounding to values -/

/-- The datum of the value nearest to a magnitude, with a sign. -/
def nearestDatum (negative : Bool) (v : ℚ) : Datum :=
  if v = 0 then .finite negative 0 (-1074)
  else
    let m := nearestEven (v / 2 ^ lastPlace v)
    if m = 2 ^ 53 then
      if 971 ≤ lastPlace v then .infinity negative
      else .finite negative (2 ^ 52) (lastPlace v + 1)
    else if 971 < lastPlace v then .infinity negative
    else .finite negative m (lastPlace v)

/-- The value nearest to a magnitude, with a sign. -/
def ofMagnitude (negative : Bool) (v : ℚ) : Float := ofDatum (nearestDatum negative v)

theorem nearestDatum_zero (negative : Bool) :
    nearestDatum negative 0 = .finite negative 0 (-1074) :=
  if_pos rfl

theorem nearestEven_lastPlace_le {v : ℚ} (hv : 0 < v) :
    nearestEven (v / 2 ^ lastPlace v) ≤ 2 ^ 53 := by
  have hp := two_zpow_pos (lastPlace v)
  refine nearestEven_le (div_nonneg hv.le hp.le) ?_
  rw [div_lt_iff₀ hp]
  exact_mod_cast lt_of_lastPlace v

theorem le_nearestEven_lastPlace {v : ℚ} (hv : 0 < v) (h : lastPlace v ≠ -1074) :
    2 ^ 52 ≤ nearestEven (v / 2 ^ lastPlace v) := by
  have hp := two_zpow_pos (lastPlace v)
  refine le_nearestEven ?_
  rw [le_div_iff₀ hp]
  exact_mod_cast le_of_lastPlace hv h

/-- Rounding gives the datum of a value. -/
theorem nearestDatum_canonical (negative : Bool) {v : ℚ} (hv : 0 ≤ v) :
    (nearestDatum negative v).Canonical := by
  unfold nearestDatum
  rcases hv.eq_or_lt with rfl | hpos
  · exact ⟨by norm_num, by norm_num, by norm_num, .inl rfl⟩
  rw [if_neg hpos.ne']
  have hle := nearestEven_lastPlace_le hpos
  have hge := le_nearestEven_lastPlace hpos
  have hlow := le_lastPlace v
  dsimp only
  split_ifs with h₁ h₂ h₃
  · trivial
  · exact ⟨by norm_num, by omega, by omega, .inr le_rfl⟩
  · trivial
  · exact ⟨by omega, hlow, by omega, or_iff_not_imp_left.mpr hge⟩

theorem datum_ofMagnitude (negative : Bool) {v : ℚ} (hv : 0 ≤ v) :
    datum (ofMagnitude negative v) = nearestDatum negative v :=
  datum_ofDatum (nearestDatum_canonical negative hv)

/-! ## The magnitudes that round to a value -/

/-- How far below `m · 2^k` what is nearest to it reaches, in units of `2^k`.  Below a power of two
values are twice as dense, unless they are subnormal. -/
def reachBelow (m : Nat) (k : Int) : ℚ := if m = 2 ^ 52 ∧ -1074 < k then 1 / 4 else 1 / 2

/-- The magnitudes that are nearest to `m · 2^k`, those half way to a neighbor only if `m` is
even. -/
structure Cell (m : Nat) (k : Int) (v : ℚ) : Prop where
  low : (m - reachBelow m k) * 2 ^ k ≤ v
  high : v ≤ (m + 1 / 2) * 2 ^ k
  tie : m % 2 = 0 ∨ ((m - reachBelow m k) * 2 ^ k < v ∧ v < (m + 1 / 2) * 2 ^ k)

theorem reachBelow_le (m : Nat) (k : Int) : reachBelow m k ≤ 1 / 2 := by
  unfold reachBelow
  split_ifs <;> norm_num

/-- Above the lower half way point in units of the last place. -/
theorem nearestDatum_of_lastPlace {negative : Bool} {m : Nat} {k : Int} {v : ℚ}
    (hc : Canonical m k) (hv : 0 < v) (hplace : lastPlace v = k) (hlow : (m - 1 / 2) * 2 ^ k ≤ v)
    (hhigh : v ≤ (m + 1 / 2) * 2 ^ k)
    (htie : m % 2 = 0 ∨ ((m - 1 / 2) * 2 ^ k < v ∧ v < (m + 1 / 2) * 2 ^ k)) :
    nearestDatum negative v = .finite negative m k := by
  have hp := two_zpow_pos k
  have hm : nearestEven (v / 2 ^ k) = m := by
    refine nearestEven_eq (div_nonneg hv.le hp.le) ?_ ?_ ?_
    · rwa [le_div_iff₀ hp]
    · rwa [div_le_iff₀ hp]
    · rwa [lt_div_iff₀ hp, div_lt_iff₀ hp]
  have hlt := hc.significand_lt
  have hle := hc.exponent_le
  rw [nearestDatum, if_neg hv.ne', hplace, hm, if_neg (by omega), if_neg (by omega)]

/-- Below a power of two the places are half as wide, and the rounded significand carries over. -/
theorem nearestDatum_below_power {negative : Bool} {k : Int} {v : ℚ} (hc : Canonical (2 ^ 52) k)
    (hk : -1074 < k) (hlow : (2 ^ 52 - 1 / 4) * 2 ^ k ≤ v) (hhigh : v < 2 ^ 52 * 2 ^ k) :
    nearestDatum negative v = .finite negative (2 ^ 52) k := by
  have hp := two_zpow_pos (k - 1)
  rw [two_zpow_pred k] at hlow hhigh
  have hv : 0 < v := lt_of_lt_of_le (by positivity) hlow
  have hplace : lastPlace v = k - 1 :=
    lastPlace_eq hv (by omega) (by linarith) (.inr (by linarith))
  have hround : nearestEven (v / 2 ^ (k - 1)) = 2 ^ 53 := by
    refine nearestEven_eq (div_nonneg hv.le hp.le) ?_ ?_ (.inl (by norm_num))
    · rw [le_div_iff₀ hp]
      push_cast
      linarith
    · rw [div_le_iff₀ hp]
      push_cast
      linarith
  have hle := hc.exponent_le
  rw [nearestDatum, if_neg hv.ne', hplace, hround, if_pos rfl, if_neg (by omega),
    Int.sub_add_cancel]

/-- A magnitude nearest to a value rounds to it. -/
theorem nearestDatum_of_cell {m : Nat} {k : Int} {v : ℚ} (hc : Canonical m k) (hm : 0 < m)
    (h : Cell m k v) (negative : Bool) : nearestDatum negative v = .finite negative m k := by
  have hp := two_zpow_pos k
  have hm₁ : (1 : ℚ) ≤ m := by exact_mod_cast hm
  have hm₂ : (m : ℚ) + 1 ≤ 2 ^ 53 := by exact_mod_cast hc.significand_lt
  have hreach := reachBelow_le m k
  have hv : 0 < v := lt_of_lt_of_le (mul_pos (by linarith) hp) h.low
  have hbelow : v < 2 ^ 53 * 2 ^ k :=
    lt_of_le_of_lt h.high (mul_lt_mul_of_pos_right (by linarith) hp)
  by_cases hpow : m = 2 ^ 52 ∧ -1074 < k
  · obtain ⟨rfl, hk⟩ := hpow
    have hlow := h.low
    rw [reachBelow, if_pos ⟨rfl, hk⟩] at hlow
    push_cast at hlow
    by_cases hge : 2 ^ 52 * 2 ^ k ≤ v
    · -- from the power of two upwards its own last place counts
      refine nearestDatum_of_lastPlace hc hv
        (lastPlace_eq hv hc.le_exponent hbelow (.inr hge)) ?_ h.high (.inl (by norm_num))
      push_cast
      linarith
    · exact nearestDatum_below_power hc hk hlow (not_le.mp hge)
  · have hsame : reachBelow m k = 1 / 2 := if_neg hpow
    have hlow := h.low
    have htie := h.tie
    rw [hsame] at hlow htie
    refine nearestDatum_of_lastPlace hc hv (lastPlace_eq hv hc.le_exponent hbelow ?_) hlow h.high
      htie
    have hnormal := hc.normal
    rcases eq_or_ne k (-1074) with hk | hk
    · exact .inl hk
    · have hm₃ : (2 : ℚ) ^ 52 + 1 ≤ m := by
        have : 2 ^ 52 + 1 ≤ m := by
          have := hc.le_exponent
          omega
        exact_mod_cast this
      exact .inr (le_trans (mul_le_mul_of_nonneg_right (by linarith) hp.le) hlow)

/-- A value is nearest to itself. -/
theorem nearestDatum_exact {m : Nat} {k : Int} (hc : Canonical m k) (negative : Bool) :
    nearestDatum negative (m * 2 ^ k) = .finite negative m k := by
  have hp := two_zpow_pos k
  rcases Nat.eq_zero_or_pos m with rfl | hm
  · have hk : k = -1074 := by
      have := hc.normal
      omega
    rw [Nat.cast_zero, zero_mul, nearestDatum_zero, hk]
  · have hreach : 0 < reachBelow m k := by
      unfold reachBelow
      split_ifs <;> norm_num
    have hlow : (m - reachBelow m k) * 2 ^ k < m * 2 ^ k :=
      mul_lt_mul_of_pos_right (by linarith) hp
    have hhigh : (m : ℚ) * 2 ^ k < (m + 1 / 2) * 2 ^ k :=
      mul_lt_mul_of_pos_right (by linarith) hp
    exact nearestDatum_of_cell hc hm ⟨hlow.le, hhigh.le, .inr ⟨hlow, hhigh⟩⟩ negative

theorem ofMagnitude_exact {x : Float} {negative : Bool} {m : Nat} {k : Int}
    (h : datum x = .finite negative m k) : ofMagnitude negative (m * 2 ^ k) = x := by
  rw [ofMagnitude, nearestDatum_exact (canonical_of_datum h), ← h, ofDatum_datum]

/-! ## Magnitudes out of range -/

/-- What is too large is infinite. -/
theorem nearestDatum_of_le {v : ℚ} (h : 2 ^ 1024 ≤ v) (negative : Bool) :
    nearestDatum negative v = .infinity negative := by
  have hv : 0 < v := lt_of_lt_of_le (by positivity) h
  have hplace : 971 < lastPlace v := by
    have hlog : (1024 : ℤ) ≤ Int.log 2 v := by
      refine (Int.zpow_le_iff_le_log (by norm_num) hv).mp ?_
      exact_mod_cast h
    unfold lastPlace
    omega
  rw [nearestDatum, if_neg hv.ne']
  dsimp only
  rw [if_pos hplace.le, if_pos hplace, ite_self]

/-- What is too small is zero. -/
theorem nearestDatum_of_lt {v : ℚ} (hv : 0 ≤ v) (h : v < 2 ^ (-1075 : ℤ)) (negative : Bool) :
    nearestDatum negative v = .finite negative 0 (-1074) := by
  rcases hv.eq_or_lt with rfl | hpos
  · exact nearestDatum_zero negative
  obtain ⟨k, hk⟩ : ∃ k : ℤ, k = -1074 := ⟨_, rfl⟩
  have hp := two_zpow_pos k
  have hhalf : v < 2 ^ (k - 1) := by
    rw [hk]
    exact h
  have hunit := two_zpow_pred k
  have hplace : lastPlace v = k := lastPlace_eq hpos hk.ge (by linarith) (.inl hk)
  rw [← hk]
  refine nearestDatum_of_lastPlace ⟨by norm_num, hk.ge, by omega, .inl hk⟩ hpos hplace ?_ ?_
    (.inl rfl) <;> push_cast <;> linarith

end Calculator.Binary64
