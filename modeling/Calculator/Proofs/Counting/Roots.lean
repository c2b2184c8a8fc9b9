import Calculator.Proofs.Binary64.Bounds
import Calculator.Proofs.Checked.Counting
import Calculator.Proofs.Counting.Arguments

/-!
# Integral square roots

An estimate of a root is lowered while its square is too large, and then raised while the next
square is not.  Taken pass by pass, the two loops meet at the integral part of the root from every
estimate, above or below it, and no square on the way is wider than 128 bits.

Results:
* `RootStage.next_result`: a pass does not change what the loops compute.
* `stageAfter_lowering`, `stageAfter_raising`, `stageAfter_done`: where the loops are after so many
  passes.
* `isqrt_exact`: the loops end at the integral part of the root, and so does `isqrt`.
-/

namespace Calculator.Counting

open Binary64 Checked

/-- How far the search for a root has come. -/
inductive RootStage where
  | lowering (root : ℕ)
  | raising (root : ℕ)
  | done (root : ℕ)

namespace RootStage

/-- One test of the loop that the search is in, and what is done after it, in words of 128 bits. -/
def next (n : ℕ) : RootStage → Checked RootStage
  | lowering root => do
    let square ← mul 128 root root
    if n < square then
      let below ← sub root 1
      return lowering below
    else return raising root
  | raising root => do
    let above ← add 128 root 1
    let square ← mul 128 above above
    if square ≤ n then return raising above else return done root
  | done root => .ok (done root)

/-- What the loops compute from here on. -/
def result (n : ℕ) : RootStage → Checked ℕ
  | lowering root => Checked.lowerRoot n root >>= Checked.raiseRoot n
  | raising root => Checked.raiseRoot n root
  | done root => .ok root

/-- A pass does not change what the loops compute. -/
theorem next_result (n : ℕ) (stage : RootStage) : (next n stage >>= result n) = result n stage := by
  cases stage with
  | lowering root =>
    rw [next, result, Checked.lowerRoot]
    cases mul 128 root root with
    | error stop => rfl
    | ok square =>
      simp only [ok_bind]
      split_ifs with hlarge
      · cases sub root 1 <;> rfl
      · rfl
  | raising root =>
    rw [next, result, Checked.raiseRoot]
    cases add 128 root 1 with
    | error stop => rfl
    | ok above =>
      simp only [ok_bind]
      cases mul 128 above above with
      | error stop => rfl
      | ok square =>
        simp only [ok_bind]
        split_ifs <;> rfl
  | done root => rfl

/-! ## One pass -/

variable {n root : ℕ}

theorem next_lowering_of_lt (hroot : root < 2 ^ 64) (h : n.sqrt < root) :
    next n (lowering root) = .ok (lowering (root - 1)) := by
  rw [next, mul_ok (square_lt hroot), ok_bind, if_pos (Nat.sqrt_lt.mp h),
    sub_ok (by omega : 1 ≤ root)]
  rfl

theorem next_lowering_of_le (hroot : root < 2 ^ 64) (h : root ≤ n.sqrt) :
    next n (lowering root) = .ok (raising root) := by
  rw [next, mul_ok (square_lt hroot), ok_bind, if_neg (not_lt.mpr (Nat.le_sqrt.mp h))]
  rfl

theorem next_raising_of_lt (hn : n < 2 ^ 64) (h : root < n.sqrt) :
    next n (raising root) = .ok (raising (root + 1)) := by
  have hsquare : (root + 1) * (root + 1) ≤ n := Nat.le_sqrt.mp h
  have hroot : root + 1 + 1 < 2 ^ 64 := lt_of_square_le hn hsquare
  rw [next, add_ok (by omega), ok_bind, mul_ok (square_lt (by omega)), ok_bind, if_pos hsquare]
  rfl

theorem next_raising_sqrt (hn : n < 2 ^ 64) : next n (raising n.sqrt) = .ok (done n.sqrt) := by
  have hroot : n.sqrt + 1 < 2 ^ 64 := lt_of_square_le hn (Nat.sqrt_le n)
  rw [next, add_ok (by omega), ok_bind, mul_ok (square_lt hroot), ok_bind,
    if_neg (not_le.mpr (Nat.lt_succ_sqrt n))]
  rfl

end RootStage

/-! ## All passes -/

/-- The search from an estimate after so many passes. -/
def stageAfter (n estimate : ℕ) : ℕ → Checked RootStage
  | 0 => .ok (.lowering estimate)
  | t + 1 => stageAfter n estimate t >>= RootStage.next n

variable {n estimate t u : ℕ}

/-- However many passes are taken by themselves, the loops compute the same. -/
theorem stageAfter_result (n estimate t : ℕ) :
    (stageAfter n estimate t >>= RootStage.result n) =
      Checked.lowerRoot n estimate >>= Checked.raiseRoot n := by
  induction t with
  | zero => rfl
  | succ t ih =>
    rw [stageAfter, bind_assoc, funext (RootStage.next_result n), ih]

/-- An estimate that is too large is lowered by one in each pass, until it is the root. -/
theorem stageAfter_lowering (hestimate : estimate < 2 ^ 64) (ht : t ≤ estimate - n.sqrt) :
    stageAfter n estimate t = .ok (.lowering (estimate - t)) := by
  induction t with
  | zero => rfl
  | succ t ih =>
    rw [stageAfter, ih (by omega), ok_bind,
      RootStage.next_lowering_of_lt (by omega) (by omega : n.sqrt < estimate - t), Nat.sub_sub]

/-- From the first number that is not too large on, one is added in each pass, until it is the
root. -/
theorem stageAfter_raising (hn : n < 2 ^ 64) (hestimate : estimate < 2 ^ 64)
    (hu : u ≤ n.sqrt - estimate) :
    stageAfter n estimate (estimate - n.sqrt + 1 + u) = .ok (.raising (min estimate n.sqrt + u)) := by
  induction u with
  | zero =>
    have hmin : estimate - (estimate - n.sqrt) = min estimate n.sqrt := by omega
    rw [Nat.add_zero, stageAfter, stageAfter_lowering hestimate le_rfl, ok_bind, hmin,
      RootStage.next_lowering_of_le (by omega) (min_le_right _ _), Nat.add_zero]
  | succ u ih =>
    rw [← Nat.add_assoc, stageAfter, ih (by omega), ok_bind,
      RootStage.next_raising_of_lt hn (by omega), Nat.add_assoc]

/-- Both loops have ended after as many passes as the estimate is away from the root, and one more
for each of them. -/
theorem stageAfter_done (hn : n < 2 ^ 64) (hestimate : estimate < 2 ^ 64)
    (ht : (estimate - n.sqrt) + (n.sqrt - estimate) + 2 ≤ t) :
    stageAfter n estimate t = .ok (.done n.sqrt) := by
  induction t, ht using Nat.le_induction with
  | base =>
    have hpasses : (estimate - n.sqrt) + (n.sqrt - estimate) + 2 =
        estimate - n.sqrt + 1 + (n.sqrt - estimate) + 1 := by omega
    have hroot : min estimate n.sqrt + (n.sqrt - estimate) = n.sqrt := by omega
    rw [hpasses, stageAfter, stageAfter_raising hn hestimate le_rfl, ok_bind, hroot,
      RootStage.next_raising_sqrt hn]
  | succ t _ ih =>
    rw [stageAfter, ih]
    rfl

/-- No pass faults: at all times the search is in one of the loops, or at its end. -/
theorem exists_stageAfter (hn : n < 2 ^ 64) (hestimate : estimate < 2 ^ 64) (t : ℕ) :
    ∃ stage, stageAfter n estimate t = .ok stage := by
  rcases le_or_gt t (estimate - n.sqrt) with hlowering | hlowered
  · exact ⟨_, stageAfter_lowering hestimate hlowering⟩
  rcases le_or_gt t (estimate - n.sqrt + 1 + (n.sqrt - estimate)) with hraising | hraised
  · obtain ⟨u, rfl⟩ := Nat.exists_eq_add_of_le (Nat.succ_le_of_lt hlowered)
    exact ⟨_, stageAfter_raising hn hestimate (by omega)⟩
  · exact ⟨_, stageAfter_done hn hestimate (by omega)⟩

/-- From every estimate the loops end at the integral part of the root. -/
theorem checkedRoot_eq_sqrt (hn : n < 2 ^ 64) (hestimate : estimate < 2 ^ 64) :
    (Checked.lowerRoot n estimate >>= Checked.raiseRoot n) = .ok n.sqrt := by
  rw [← stageAfter_result n estimate ((estimate - n.sqrt) + (n.sqrt - estimate) + 2),
    stageAfter_done hn hestimate le_rfl]
  rfl

theorem correctedRoot_eq_sqrt (hn : n < 2 ^ 64) (hestimate : estimate < 2 ^ 64) :
    correctedRoot n estimate = n.sqrt := by
  have hcorrected : (Checked.lowerRoot n estimate >>= Checked.raiseRoot n) =
      .ok (correctedRoot n estimate) := by
    rw [Checked.lowerRoot_eq hestimate, ok_bind,
      Checked.raiseRoot_eq hn (Checked.lowerRoot_square_le n _)]
    rfl
  exact Except.ok.inj (hcorrected.symm.trans (checkedRoot_eq_sqrt hn hestimate))

/-! ## The function -/

/-- The integral part of the root of a word of 64 bits is a value. -/
theorem number?_integerRoot (hn : n < 2 ^ 64) : number? (integerRoot n) = some (n.sqrt : ℚ) := by
  have hestimate := Checked.estimate_le hn
  have hroot : n.sqrt ≤ 2 ^ 53 := by
    by_contra hlarge
    have := Nat.mul_le_mul (not_le.mp hlarge).le (not_le.mp hlarge).le
    have := Nat.sqrt_le n
    omega
  rw [integerRoot, correctedRoot_eq_sqrt hn (by omega)]
  exact number?_ofNat hroot

/-- `isqrt` of a word of 64 bits is the integral part of the root.  The loops end there from every
estimate, without a fault, and the estimate in binary64 is no exception. -/
theorem isqrt_exact (hn : n < 2 ^ 64) :
    (n.sqrt * n.sqrt ≤ n ∧ n < (n.sqrt + 1) * (n.sqrt + 1)) ∧
    (∀ estimate ≤ 2 ^ 63,
      (∀ t, ∃ stage, stageAfter n estimate t = .ok stage) ∧
      (∀ t, (estimate - n.sqrt) + (n.sqrt - estimate) + 2 ≤ t →
        stageAfter n estimate t = .ok (.done n.sqrt)) ∧
      (Checked.lowerRoot n estimate >>= Checked.raiseRoot n) = .ok n.sqrt ∧
      correctedRoot n estimate = n.sqrt) ∧
    wholePart (Float.ofNat n).sqrt ≤ 2 ^ 63 ∧
    Checked.integerRoot n = .ok (integerRoot n) ∧
    number? (integerRoot n) = some (n.sqrt : ℚ) ∧
    ∀ x : Value, number? x.float = some (n : ℚ) →
      isqrtFunction.apply [x] = .ok (.ofFloat (integerRoot n)) := by
  have hown := Checked.estimate_le hn
  refine ⟨⟨Nat.sqrt_le n, Nat.lt_succ_sqrt n⟩, fun estimate hestimate => ?_, by omega,
    Checked.integerRoot_eq hn, number?_integerRoot hn, fun x hx => ofNatural_apply _ _ hx hn⟩
  have hword : estimate < 2 ^ 64 := by omega
  exact ⟨exists_stageAfter hn hword, fun t ht => stageAfter_done hn hword ht,
    checkedRoot_eq_sqrt hn hword, correctedRoot_eq_sqrt hn hword⟩

/-- The root of the last value below `2^64`, from estimates above and below it. -/
theorem isqrt_exact_below_word :
    18446744073709549568 < 2 ^ 64 ∧
    stageAfter 18446744073709549568 (2 ^ 32 + 2) 5 = .ok (.done (2 ^ 32 - 1)) ∧
    stageAfter 18446744073709549568 (2 ^ 32 - 7) 8 = .ok (.done (2 ^ 32 - 1)) ∧
    correctedRoot 18446744073709549568 (2 ^ 63) = 2 ^ 32 - 1 ∧
    number? (Float.ofBits 0x43efffffffffffff) = some ((18446744073709549568 : ℕ) : ℚ) ∧
    ∃ y, isqrtFunction.apply [.ofFloat (Float.ofBits 0x43efffffffffffff)] = .ok (.ofFloat y) ∧
      number? y = some ((2 ^ 32 - 1 : ℕ) : ℚ) := by
  have hn : 18446744073709549568 < 2 ^ 64 := by norm_num
  have hroot : Nat.sqrt 18446744073709549568 = 2 ^ 32 - 1 := by
    rw [eq_comm, Nat.eq_sqrt]
    norm_num
  have hnumber : number? (Float.ofBits 0x43efffffffffffff) =
      some ((18446744073709549568 : ℕ) : ℚ) := by
    have hd : datum (Float.ofBits 0x43efffffffffffff) = .finite false (2 ^ 53 - 1) 11 := by rfl
    rw [number?_of_datum hd, signedNumber]
    norm_num
  obtain ⟨-, hloops, -, -, hvalue, happly⟩ := isqrt_exact hn
  rw [hroot] at hloops hvalue
  exact ⟨hn, (hloops (2 ^ 32 + 2) (by norm_num)).2.1 5 (by norm_num),
    (hloops (2 ^ 32 - 7) (by norm_num)).2.1 8 (by norm_num),
    (hloops (2 ^ 63) le_rfl).2.2.2, hnumber, _, happly _ hnumber, hvalue⟩

end Calculator.Counting
