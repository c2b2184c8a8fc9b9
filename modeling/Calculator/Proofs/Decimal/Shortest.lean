import Calculator.Proofs.Binary64.Scientific
import Calculator.Decimal.Shortest

/-!
# The shortest decimal reads back

Every decimal that the search for a short one accepts lies in the range of magnitudes that round to
the given value, and the finest grid of the search has a point in that range, so the search ends
with such a decimal.

Results:
* `cell_of_shortestOnGrid?`: what is found on a grid rounds to the value.
* `shortestOnGrid?_isSome`: a grid finer than half the last place has a point that is found.
* `shortest_cell`: the shortest decimal rounds to the value.
-/

namespace Calculator.Decimal

open Calculator.Binary64

variable {m c : ℕ} {k j : ℤ} {d : Decimal}

/-! ## Grids -/

theorem ten_zpow_pos (j : ℤ) : (0 : ℚ) < 10 ^ j := zpow_pos (by norm_num) j

theorem ten_zpow_toNat (j : ℤ) : (10 : ℚ) ^ j = 10 ^ j.toNat / 10 ^ (-j).toNat := by
  rw [← zpow_natCast, ← zpow_natCast, ← zpow_sub₀ (by norm_num)]
  congr 1
  omega

/-- What stands below the line does not depend on the number. -/
def gridDenominator (k j : ℤ) : ℕ := (1 <<< (-k).toNat) * Nat.pow 10 j.toNat

theorem gridDenominator_eq (k j : ℤ) : gridDenominator k j = 2 ^ (-k).toNat * 10 ^ j.toNat := by
  rw [gridDenominator, Nat.one_shiftLeft]
  rfl

theorem gridDenominator_pos (k j : ℤ) : 0 < gridDenominator k j := by
  rw [gridDenominator_eq]
  positivity

/-- A number in units of the grid. -/
theorem onGrid_numerator (n : ℕ) (k j : ℤ) :
    ((Fraction.onGrid n k j).numerator : ℚ) * 10 ^ j = n * 2 ^ k * gridDenominator k j := by
  have hnum : (Fraction.onGrid n k j).numerator = n * 2 ^ k.toNat * 10 ^ (-j).toNat := by
    rw [Fraction.onGrid, Nat.shiftLeft_eq]
    rfl
  rw [hnum, gridDenominator_eq, ten_zpow_toNat j, two_zpow_toNat k]
  push_cast
  field_simp

/-- Points of a grid compare with numbers as fractions with one denominator do. -/
theorem onGrid_le_iff (n c : ℕ) (k j : ℤ) :
    (Fraction.onGrid n k j).numerator ≤ c * gridDenominator k j ↔ (n : ℚ) * 2 ^ k ≤ c * 10 ^ j := by
  have hten := ten_zpow_pos j
  have hden : (0 : ℚ) < gridDenominator k j := by exact_mod_cast gridDenominator_pos k j
  rw [← Nat.cast_le (α := ℚ), ← mul_le_mul_iff_left₀ hten, onGrid_numerator, Nat.cast_mul,
    mul_right_comm (c : ℚ), mul_le_mul_iff_left₀ hden]

theorem le_onGrid_iff (n c : ℕ) (k j : ℤ) :
    c * gridDenominator k j ≤ (Fraction.onGrid n k j).numerator ↔ (c : ℚ) * 10 ^ j ≤ n * 2 ^ k := by
  have hten := ten_zpow_pos j
  have hden : (0 : ℚ) < gridDenominator k j := by exact_mod_cast gridDenominator_pos k j
  rw [← Nat.cast_le (α := ℚ), ← mul_le_mul_iff_left₀ hten, onGrid_numerator, Nat.cast_mul,
    mul_right_comm (c : ℚ), mul_le_mul_iff_left₀ hden]

theorem onGrid_lt_iff (n c : ℕ) (k j : ℤ) :
    (Fraction.onGrid n k j).numerator < c * gridDenominator k j ↔ (n : ℚ) * 2 ^ k < c * 10 ^ j := by
  rw [← not_le, ← not_le, le_onGrid_iff]

theorem lt_onGrid_iff (n c : ℕ) (k j : ℤ) :
    c * gridDenominator k j < (Fraction.onGrid n k j).numerator ↔ (c : ℚ) * 10 ^ j < n * 2 ^ k := by
  rw [← not_le, ← not_le, onGrid_le_iff]

/-! ## What the search accepts -/

/-- How far below `m · 2^k` the search looks, in quarters of the last place. -/
def quartersBelow (m : ℕ) (k : ℤ) : ℕ := if m = 4503599627370496 ∧ -1074 < k then 1 else 2

/-- Whether the search takes a point for one that reads back. -/
def readsBack (m : ℕ) (k j : ℤ) (c : ℕ) : Bool :=
  if m % 2 = 0 then
    (Fraction.onGrid (4 * m - quartersBelow m k) (k - 2) j).numerator ≤
        c * gridDenominator (k - 2) j &&
      c * gridDenominator (k - 2) j ≤ (Fraction.onGrid (4 * m + 2) (k - 2) j).numerator
  else
    (Fraction.onGrid (4 * m - quartersBelow m k) (k - 2) j).numerator <
        c * gridDenominator (k - 2) j &&
      c * gridDenominator (k - 2) j < (Fraction.onGrid (4 * m + 2) (k - 2) j).numerator

theorem quarter_zpow (k : ℤ) : (2 : ℚ) ^ k = 4 * 2 ^ (k - 2) := by
  rw [zpow_sub₀ (by norm_num)]
  norm_num
  ring

theorem lowerBound_eq (hm : 0 < m) (k : ℤ) :
    ((4 * m - quartersBelow m k : ℕ) : ℚ) * 2 ^ (k - 2) = (m - reachBelow m k) * 2 ^ k := by
  have hle : quartersBelow m k ≤ 4 * m := by
    unfold quartersBelow
    split_ifs <;> omega
  have hreach : (quartersBelow m k : ℚ) = 4 * reachBelow m k := by
    unfold quartersBelow reachBelow
    norm_num
  rw [Nat.cast_sub hle, hreach, quarter_zpow k]
  push_cast
  ring

theorem upperBound_eq (m : ℕ) (k : ℤ) :
    ((4 * m + 2 : ℕ) : ℚ) * 2 ^ (k - 2) = (m + 1 / 2) * 2 ^ k := by
  rw [quarter_zpow k]
  push_cast
  ring

/-- The search accepts the points that round to the value, and no others. -/
theorem readsBack_iff (hm : 0 < m) : readsBack m k j c = true ↔ Cell m k (c * 10 ^ j) := by
  unfold readsBack
  split_ifs with heven
  · rw [Bool.and_eq_true, decide_eq_true_iff, decide_eq_true_iff, onGrid_le_iff, le_onGrid_iff,
      lowerBound_eq hm, upperBound_eq]
    exact ⟨fun h => ⟨h.1, h.2, .inl heven⟩, fun h => ⟨h.low, h.high⟩⟩
  · rw [Bool.and_eq_true, decide_eq_true_iff, decide_eq_true_iff, onGrid_lt_iff, lt_onGrid_iff,
      lowerBound_eq hm, upperBound_eq]
    exact ⟨fun h => ⟨h.1.le, h.2.le, .inr h⟩, fun h => h.tie.resolve_left heven⟩

/-- The search on one grid looks at the points next to the value. -/
theorem shortestOnGrid?_eq (m : ℕ) (k j : ℤ) :
    shortestOnGrid? m k j =
      let value := (Fraction.onGrid (4 * m) (k - 2) j).numerator
      let c := value / gridDenominator (k - 2) j
      match readsBack m k j c, readsBack m k j (c + 1) with
      | true, true =>
        some ⟨if 2 * (value - c * gridDenominator (k - 2) j) < gridDenominator (k - 2) j then c
          else c + 1, j⟩
      | true, false => some ⟨c, j⟩
      | false, true => some ⟨c + 1, j⟩
      | false, false => none := by
  unfold shortestOnGrid? readsBack
  rfl

theorem cell_of_shortestOnGrid? (hm : 0 < m) (h : shortestOnGrid? m k j = some d) :
    d.exponent = j ∧ Cell m k (d.significand * 10 ^ j) := by
  rw [shortestOnGrid?_eq] at h
  dsimp only at h
  split at h
  · next h₁ h₂ =>
    cases h
    refine ⟨rfl, ?_⟩
    dsimp only
    split_ifs
    · exact (readsBack_iff hm).mp h₁
    · exact (readsBack_iff hm).mp h₂
  · next h₁ _ =>
    cases h
    exact ⟨rfl, (readsBack_iff hm).mp h₁⟩
  · next _ h₂ =>
    cases h
    exact ⟨rfl, (readsBack_iff hm).mp h₂⟩
  · cases h

/-- On a grid finer than half the last place the next point above the value is accepted. -/
theorem shortestOnGrid?_isSome (hm : 0 < m) (hfine : (10 : ℚ) ^ j < 2 ^ (k - 1)) :
    (shortestOnGrid? m k j).isSome = true := by
  have hden := gridDenominator_pos (k - 2) j
  have hvalue : ((4 * m : ℕ) : ℚ) * 2 ^ (k - 2) = m * 2 ^ k := by
    rw [quarter_zpow k]
    push_cast
    ring
  obtain ⟨c, hc⟩ : ∃ c, c = (Fraction.onGrid (4 * m) (k - 2) j).numerator /
      gridDenominator (k - 2) j := ⟨_, rfl⟩
  have hle : (c : ℚ) * 10 ^ j ≤ m * 2 ^ k := by
    rw [← hvalue, ← le_onGrid_iff, hc]
    exact Nat.div_mul_le_self _ _
  have hlt : (m : ℚ) * 2 ^ k < (c + 1 : ℕ) * 10 ^ j := by
    rw [← hvalue, ← onGrid_lt_iff, hc]
    rw [mul_comm (_ + 1)]
    exact Nat.lt_mul_div_succ _ hden
  have hreads : readsBack m k j (c + 1) = true := by
    rw [readsBack_iff hm]
    have hp := two_zpow_pos k
    have hhalf := two_zpow_pred k
    have hreach : 0 < reachBelow m k := by
      unfold reachBelow
      split_ifs <;> norm_num
    have hlow : (m - reachBelow m k) * 2 ^ k < ((c + 1 : ℕ) : ℚ) * 10 ^ j :=
      lt_trans (mul_lt_mul_of_pos_right (by linarith) hp) hlt
    have hhigh : ((c + 1 : ℕ) : ℚ) * 10 ^ j < (m + 1 / 2) * 2 ^ k := by
      push_cast
      linarith
    exact ⟨hlow.le, hhigh.le, .inr ⟨hlow, hhigh⟩⟩
  rw [shortestOnGrid?_eq]
  dsimp only
  rw [← hc, hreads]
  cases readsBack m k j c <;> rfl

/-! ## The finest grid -/

/-- `10^3` is below `2^10`. -/
theorem ten_pow_lt_two_pow {p t : ℕ} (h : 10 * p < 3 * t) : (10 : ℚ) ^ p < 2 ^ t := by
  refine lt_of_pow_lt_pow_left₀ 3 (by positivity) ?_
  calc ((10 : ℚ) ^ p) ^ 3 = (10 ^ 3) ^ p := pow_right_comm 10 p 3
    _ ≤ (2 ^ 10) ^ p := pow_le_pow_left₀ (by norm_num) (by norm_num) p
    _ = 2 ^ (10 * p) := (pow_mul 2 10 p).symm
    _ < 2 ^ (3 * t) := pow_lt_pow_right₀ (by norm_num) h
    _ = (2 ^ t) ^ 3 := by rw [← pow_mul, mul_comm]

/-- The last grid of the search is finer than half the last place. -/
theorem finest_lt (hc : Canonical m k) (hm : 0 < m) :
    (10 : ℚ) ^ (ceilingExponent m k - 23) < 2 ^ (k - 1) := by
  have hlog : m.log2 ≤ 52 := by
    have := (Nat.log2_lt (n := m) (k := 53) (Nat.ne_of_gt hm)).mpr hc.significand_lt
    omega
  have hlow := hc.le_exponent
  have hhigh := hc.exponent_le
  unfold ceilingExponent
  generalize hq : (k + m.log2 + 1) * 30103 / 100000 = q
  by_cases hlarge : 21 ≤ q
  · obtain ⟨p, hp⟩ : ∃ p : ℕ, q + 2 - 23 = p := ⟨(q - 21).toNat, by omega⟩
    obtain ⟨t, ht⟩ : ∃ t : ℕ, k - 1 = t := ⟨(k - 1).toNat, by omega⟩
    rw [hp, ht, zpow_natCast, zpow_natCast]
    exact ten_pow_lt_two_pow (by omega)
  · obtain ⟨p, hp⟩ : ∃ p : ℕ, q + 2 - 23 = -p := ⟨(21 - q).toNat, by omega⟩
    have hlt : (2 : ℚ) ^ (1 - k).toNat < 10 ^ p := two_pow_lt_ten_pow (by omega)
    calc (10 : ℚ) ^ (q + 2 - 23) = (10 ^ p)⁻¹ := by rw [hp, zpow_neg, zpow_natCast]
      _ < (2 ^ (1 - k).toNat)⁻¹ := inv_strictAnti₀ (by positivity) hlt
      _ = 2 ^ (-((1 - k).toNat : ℤ)) := by rw [zpow_neg, zpow_natCast]
      _ ≤ 2 ^ (k - 1) := zpow_le_zpow_right₀ (by norm_num) (by omega)

/-- The shortest decimal rounds to the value. -/
theorem shortest_cell (hc : Canonical m k) (hm : 0 < m) :
    Cell m k ((shortest m k).significand * 10 ^ (shortest m k).exponent) := by
  have hsome : ((gridExponents m k).findSome? (shortestOnGrid? m k)).isSome = true := by
    rw [List.findSome?_isSome_iff]
    refine ⟨ceilingExponent m k - 23, ?_, shortestOnGrid?_isSome hm (finest_lt hc hm)⟩
    exact List.mem_map.mpr ⟨23, by decide, rfl⟩
  obtain ⟨d, hd⟩ := Option.isSome_iff_exists.mp hsome
  obtain ⟨j, -, hj⟩ := List.exists_of_findSome?_eq_some hd
  obtain ⟨hexp, hcell⟩ := cell_of_shortestOnGrid? hm hj
  rw [shortest, hd, Option.getD_some, hexp]
  exact hcell

end Calculator.Decimal
