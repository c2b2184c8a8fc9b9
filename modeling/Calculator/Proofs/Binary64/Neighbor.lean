import Calculator.Function.Rounding
import Calculator.Proofs.Binary64.Rank

/-!
# Steps to adjacent values

The pattern behind that of a value other than zero has the next rank away from zero, the one before
it the next rank on the side of zero, and next to zero is the smallest value of either sign.  So a
step goes one rank towards its target, and no value has a rank in between.

Results:
* `rank_awayFromZero`, `rank_towardZero`: the patterns next to that of a value.
* `rank_stepToward`: the rank that a step leads to.
* `nextafter_adjacent`: `nextafter` of all pairs of values.
-/

namespace Calculator.Binary64

variable {x y : Float}

theorem rank_zero : rank 0.0 = 0 := by
  have hd : datum 0.0 = .finite false 0 (-1074) := by rfl
  exact rank_of_datum hd

theorem isNaN_zero : (0.0 : Float).isNaN = false := isNaN_of_number number?_zero

/-! ## Adjacent patterns -/

/-- The sign bit of a value in front of the rank of another magnitude. -/
theorem rank_ofBits_signBit (hx : x.isNaN = false) (hne : rank x ≠ 0) {r : ℕ} (hr : r ≤ topRank) :
    (Float.ofBits (UInt64.ofNat ((signBit x).toNat * 2 ^ 63 + r))).isNaN = false ∧
      rank (Float.ofBits (UInt64.ofNat ((signBit x).toNat * 2 ^ 63 + r))) = (rank x).sign * r := by
  obtain ⟨hnan, hrank⟩ := rank_ofBits (signBit x) hr
  have hsign := signBit_of_rank hx
  refine ⟨hnan, hrank.trans ?_⟩
  rcases lt_or_gt_of_ne hne with hneg | hpos
  · rw [hsign.1 hneg, if_pos rfl, Int.sign_eq_neg_one_of_neg hneg, neg_one_mul]
  · rw [hsign.2 hpos, if_neg Bool.false_ne_true, Int.sign_eq_one_of_pos hpos, one_mul]

/-- The pattern behind that of a value has the next rank away from zero. -/
theorem rank_awayFromZero (hx : x.isNaN = false) (hne : rank x ≠ 0)
    (hlt : (rank x).natAbs < topRank) :
    (Float.ofBits (x.toBits + 1)).isNaN = false ∧
      rank (Float.ofBits (x.toBits + 1)) = rank x + (rank x).sign := by
  have hbits : x.toBits + 1 =
      UInt64.ofNat ((signBit x).toNat * 2 ^ 63 + ((rank x).natAbs + 1)) := by
    rw [← Nat.add_assoc, ← toBits_eq_rank hx, UInt64.ofNat_add, UInt64.ofNat_toNat]
    rfl
  obtain ⟨hnan, hrank⟩ := rank_ofBits_signBit hx hne (Nat.succ_le_of_lt hlt)
  rw [hbits]
  refine ⟨hnan, hrank.trans ?_⟩
  rw [Nat.cast_succ, mul_add_one, Int.sign_mul_natAbs]

/-- The pattern before that of a value other than zero has the next rank on the side of zero. -/
theorem rank_towardZero (hx : x.isNaN = false) (hne : rank x ≠ 0) :
    (Float.ofBits (x.toBits - 1)).isNaN = false ∧
      rank (Float.ofBits (x.toBits - 1)) = rank x - (rank x).sign := by
  have habs : 1 ≤ (rank x).natAbs := Int.natAbs_pos.mpr hne
  have hbits : x.toBits - 1 =
      UInt64.ofNat ((signBit x).toNat * 2 ^ 63 + ((rank x).natAbs - 1)) := by
    rw [← Nat.add_sub_assoc habs, ← toBits_eq_rank hx,
      UInt64.ofNat_sub (by rw [toBits_eq_rank hx]; omega), UInt64.ofNat_toNat]
    rfl
  obtain ⟨hnan, hrank⟩ :=
    rank_ofBits_signBit hx hne ((Nat.sub_le _ 1).trans (natAbs_rank_le x))
  rw [hbits]
  refine ⟨hnan, hrank.trans ?_⟩
  rw [Nat.cast_pred habs, mul_sub_one, Int.sign_mul_natAbs]

/-- Next to zero is the smallest value of either sign. -/
theorem rank_copySign_minPositive (y : Float) :
    (copySign minPositive y).isNaN = false ∧
      rank (copySign minPositive y) = if signBit y then -1 else 1 := by
  have hd : datum minPositive = .finite false 1 (-1074) := by rfl
  have hcopy := datum_copySign hd y
  exact ⟨by rw [isNaN_eq, hcopy]; rfl, rank_of_datum hcopy⟩

/-! ## One step -/

/-- A step goes one rank towards its target, and none if it is there already. -/
theorem rank_stepToward (hx : x.isNaN = false) (hy : y.isNaN = false) :
    (stepToward x y).isNaN = false ∧
      rank (stepToward x y) = rank x + (rank y - rank x).sign := by
  have hrange := natAbs_rank_le y
  unfold stepToward
  rw [hx, hy, Bool.or_false, if_neg Bool.false_ne_true, beq_rank hx hy, beq_rank hx isNaN_zero,
    rank_zero]
  simp only [decide_eq_true_eq, beq_iff_eq, decide_eq_decide, lt_iff_rank hx hy,
    lt_iff_rank isNaN_zero hx, rank_zero]
  split_ifs with heq hzero haway
  · exact ⟨hy, by rw [heq, sub_self, Int.sign_zero, add_zero]⟩
  · obtain ⟨hnan, hrank⟩ := rank_copySign_minPositive y
    have hsign := signBit_of_rank hy
    refine ⟨hnan, hrank.trans ?_⟩
    rcases lt_or_gt_of_ne heq with hlt | hlt
    · rw [hsign.2 (by omega), Int.sign_eq_one_of_pos (by omega), hzero]
      rfl
    · rw [hsign.1 (by omega), Int.sign_eq_neg_one_of_neg (by omega), hzero]
      rfl
  · -- the target is on the side of `x` that is further from zero
    obtain ⟨hnan, hrank⟩ := rank_awayFromZero hx hzero (by omega)
    refine ⟨hnan, hrank.trans ?_⟩
    rcases lt_or_gt_of_ne hzero with hneg | hpos
    · rw [Int.sign_eq_neg_one_of_neg hneg, Int.sign_eq_neg_one_of_neg (by omega)]
    · rw [Int.sign_eq_one_of_pos hpos, Int.sign_eq_one_of_pos (by omega)]
  · obtain ⟨hnan, hrank⟩ := rank_towardZero hx hzero
    refine ⟨hnan, hrank.trans ?_⟩
    rcases lt_or_gt_of_ne hzero with hneg | hpos
    · rw [Int.sign_eq_neg_one_of_neg hneg, Int.sign_eq_one_of_pos (by omega)]
      omega
    · rw [Int.sign_eq_one_of_pos hpos, Int.sign_eq_neg_one_of_neg (by omega)]
      omega

/-! ## Adjacent values -/

/-- Whether a value is strictly between two others, whichever of them is the greater one. -/
def StrictlyBetween (x y z : Float) : Prop := x < z ∧ z < y ∨ y < z ∧ z < x

/-- No value is strictly between two with ranks next to each other. -/
theorem not_strictlyBetween (h : (rank x - rank y).natAbs ≤ 1) (z : Float) :
    ¬ StrictlyBetween x y z := by
  rintro (⟨hlow, hhigh⟩ | ⟨hlow, hhigh⟩)
  · rw [lt_iff_rank (isNaN_of_lt hlow).1 (isNaN_of_lt hlow).2] at hlow
    rw [lt_iff_rank (isNaN_of_lt hhigh).1 (isNaN_of_lt hhigh).2] at hhigh
    omega
  · rw [lt_iff_rank (isNaN_of_lt hlow).1 (isNaN_of_lt hlow).2] at hlow
    rw [lt_iff_rank (isNaN_of_lt hhigh).1 (isNaN_of_lt hhigh).2] at hhigh
    omega

/-- A step from a value goes to the side of the target, not past it, and past no other value. -/
theorem stepToward_adjacent (hx : x.isNaN = false) (hy : y.isNaN = false)
    (hne : (x == y) = false) :
    (stepToward x y).isNaN = false ∧
      (x < y ∧ x < stepToward x y ∧ stepToward x y ≤ y ∨
        y < x ∧ y ≤ stepToward x y ∧ stepToward x y < x) ∧
      ∀ z, ¬ StrictlyBetween x (stepToward x y) z := by
  obtain ⟨hnan, hrank⟩ := rank_stepToward hx hy
  rw [beq_rank hx hy, decide_eq_false_iff_not] at hne
  rw [lt_iff_rank hx hy, lt_iff_rank hy hx, lt_iff_rank hx hnan, lt_iff_rank hnan hx,
    le_iff_rank hnan hy, le_iff_rank hy hnan, hrank]
  refine ⟨hnan, ?_, not_strictlyBetween ?_⟩
  · rcases lt_or_gt_of_ne hne with hlt | hgt
    · rw [Int.sign_eq_one_of_pos (by omega)]
      exact .inl ⟨hlt, by omega, by omega⟩
    · rw [Int.sign_eq_neg_one_of_neg (by omega)]
      exact .inr ⟨hgt, by omega, by omega⟩
  · rw [hrank, sub_add_cancel_left, Int.natAbs_neg, Int.natAbs_sign]
    split_ifs <;> omega

theorem isNaN_stepToward (h : x.isNaN = true ∨ y.isNaN = true) :
    (stepToward x y).isNaN = true := by
  unfold stepToward
  rw [if_pos (Bool.or_eq_true _ _ ▸ h)]
  rfl

theorem stepToward_of_beq (h : (x == y) = true) : stepToward x y = y := by
  obtain ⟨hx, hy⟩ := isNaN_of_beq h
  unfold stepToward
  rw [hx, hy, Bool.or_false, if_neg Bool.false_ne_true, if_pos h]

end Calculator.Binary64

namespace Calculator.Rounding

open Binary64

/-- `nextafter` of two values that differ steps from the first one to the side of the second one,
not past it, and past no other value.  Of values that are equal it is the second one, with its sign
if it is a zero, and with a NaN it is a NaN. -/
theorem nextafter_adjacent (x y : Value) :
    (∃ f ∈ functions, f.name = "nextafter" ∧
      f.apply [x, y] = .ok (.ofFloat (stepToward x.float y.float))) ∧
    (x.float.isNaN = false → y.float.isNaN = false → (x.float == y.float) = false →
      (stepToward x.float y.float).isNaN = false ∧
      (x.float < y.float ∧ x.float < stepToward x.float y.float ∧
          stepToward x.float y.float ≤ y.float ∨
        y.float < x.float ∧ y.float ≤ stepToward x.float y.float ∧
          stepToward x.float y.float < x.float) ∧
      ∀ z, ¬ StrictlyBetween x.float (stepToward x.float y.float) z) ∧
    ((x.float == y.float) = true → stepToward x.float y.float = y.float) ∧
    (x.float.isNaN = true ∨ y.float.isNaN = true →
      (stepToward x.float y.float).isNaN = true) :=
  ⟨⟨.ofRealsUnsigned "nextafter" stepToward, by simp [functions], rfl, rfl⟩, stepToward_adjacent,
    stepToward_of_beq, isNaN_stepToward⟩

/-- Next to a zero is the smallest value, and next to the largest one infinity.  The second one of
two zeros keeps its sign. -/
theorem nextafter_adjacent_ends :
    stepToward (-0.0) 1.0 = minPositive ∧ (∀ z, ¬ StrictlyBetween (-0.0) minPositive z) ∧
    stepToward maxFinite infinity = infinity ∧
    (∀ z, ¬ StrictlyBetween maxFinite infinity z) ∧
    stepToward 0.0 (-0.0) = -0.0 ∧ (stepToward nan 1.0).isNaN = true := by
  have hzero : stepToward (-0.0) 1.0 = minPositive := by rfl
  have hlargest : stepToward maxFinite infinity = infinity := by rfl
  obtain ⟨-, h₁, -, -⟩ := nextafter_adjacent (.ofFloat (-0.0)) (.ofFloat 1.0)
  obtain ⟨-, h₂, -, -⟩ := nextafter_adjacent (.ofFloat maxFinite) (.ofFloat infinity)
  refine ⟨hzero, ?_, hlargest, ?_, ?_, ?_⟩
  · exact hzero ▸ (h₁ (by rfl) (by rfl) (by rfl)).2.2
  · exact hlargest ▸ (h₂ (by rfl) (by rfl) (by rfl)).2.2
  · exact (nextafter_adjacent (.ofFloat 0.0) (.ofFloat (-0.0))).2.2.1 (by rfl)
  · exact (nextafter_adjacent (.ofFloat nan) (.ofFloat 1.0)).2.2.2 (.inl (by rfl))

end Calculator.Rounding
