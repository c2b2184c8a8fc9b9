import Calculator.Proofs.Checked.Basic

/-!
# Scaling and neighbors on machine words

`ldexp` counts its steps down in a word of 32 bits, and a neighbor is one bit pattern away.

Results:
* `scaleInSteps_eq`: the steps never leave the word.
* `stepToward_eq`: the pattern of a value that is not a NaN has one above it, and that of a value
  that is not zero has one below it.
-/

namespace Calculator.Checked

open Binary64 CheckedFunction

/-! ## Scaling -/

/-- Multiplies by `2^k`, in steps of `2^1000` while `k` is further than 1000 from zero. -/
def scaleInSteps (x : Float) (k : ℤ) : Checked Float :=
  if 1000 < k then
    match _hstep : signed 32 (k - 1000) with
    | .ok rest => scaleInSteps (x * twoPow 1000) rest
    | .error stop => .error stop
  else if k < -1000 then
    match _hstep : signed 32 (k + 1000) with
    | .ok rest => scaleInSteps (x * twoPow (-1000)) rest
    | .error stop => .error stop
  else .ok (x * twoPow k)
termination_by k.natAbs
decreasing_by
  · have := (eq_of_require _hstep).2
    omega
  · have := (eq_of_require _hstep).2
    omega

theorem scaleInSteps_eq (x : Float) (k : ℤ) (h : -2 ^ 31 ≤ k ∧ k < 2 ^ 31) :
    scaleInSteps x k = .ok (Binary64.scaleInSteps x k) := by
  induction x, k using Binary64.scaleInSteps.induct with
  | case1 x k hk ih =>
    have hstep : signed 32 (k - 1000) = .ok (k - 1000) := signed_ok (by omega)
    rw [scaleInSteps, Binary64.scaleInSteps, if_pos hk, if_pos hk]
    split
    · next rest hrest =>
      obtain rfl : k - 1000 = rest := Except.ok.inj (hstep.symm.trans hrest)
      exact ih (by omega)
    · next hrest => exact absurd (hstep.symm.trans hrest) nofun
  | case2 x k hk hk' ih =>
    have hstep : signed 32 (k + 1000) = .ok (k + 1000) := signed_ok (by omega)
    rw [scaleInSteps, Binary64.scaleInSteps, if_neg hk, if_neg hk, if_pos hk', if_pos hk']
    split
    · next rest hrest =>
      obtain rfl : k + 1000 = rest := Except.ok.inj (hstep.symm.trans hrest)
      exact ih (by omega)
    · next hrest => exact absurd (hstep.symm.trans hrest) nofun
  | case3 x k hk hk' =>
    rw [scaleInSteps, Binary64.scaleInSteps, if_neg hk, if_neg hk, if_neg hk', if_neg hk']

/-- `ldexp(x, i)`; an `i` that is no word of 64 bits is cut off, which makes no difference, as it
    is cut off at 2200 next. -/
def ldexpFunction : CheckedFunction :=
  binary "ldexp" fun x i => do
    let i ← requireIntegral "ldexp" i.float
    let exponent ← signed 32 (max (-2200) (min 2200 (saturatedSigned 64 i)))
    let y ← scaleInSteps x.float exponent
    return .result [x] y

/-- Cutting off at a word of 64 bits makes no difference to what is cut off further inside. -/
theorem clamp_saturatedSigned {x : Float} (hx : isIntegral x = true) :
    max (-2200) (min 2200 (saturatedSigned 64 x)) = max (-2200) (min 2200 (toInt x)) := by
  obtain ⟨negative, m, k, hd, -⟩ := exists_datum (number?_of_isIntegral hx)
  rw [saturatedSigned, hd]
  dsimp only
  omega

theorem takesExactly_ldexp : Rounding.ldexpFunction.TakesExactly 2
  | [], _ => rfl
  | [_], _ => rfl
  | [_, _], h => absurd rfl h
  | _ :: _ :: _ :: _, _ => rfl

theorem implements_ldexp : ldexpFunction.Implements Rounding.ldexpFunction := by
  refine implements_binary takesExactly_ldexp fun x i => ?_
  show _ = answer (Function.integer "ldexp" i.float >>= fun k => _)
  rw [requireIntegral, Function.integer]
  split_ifs with hi
  · simp only [ok_bind]
    rw [clamp_saturatedSigned hi, signed_ok (by omega), ok_bind, scaleInSteps_eq _ _ (by omega)]
    rfl
  · rfl

/-! ## Neighbors -/

/-- The value next to `x` in the direction of `y`. -/
def stepToward (x y : Float) : Checked Float :=
  if x.isNaN || y.isNaN then .ok nan
  else if x == y then .ok y
  else if x == 0.0 then .ok (copySign minPositive y)
  else do
    let bits := x.toBits.toNat
    let awayFromZero := decide (x < y) == decide (0.0 < x)
    let neighbor ← if awayFromZero then add 64 bits 1 else sub bits 1
    return Float.ofBits (UInt64.ofNat neighbor)

theorem toBits_lt {x : Float} (h : x.isNaN = false) : x.toBits.toNat + 1 < 2 ^ 64 := by
  by_contra hbits
  have hlt := x.toBits.toNat_lt
  have hnan : datum x = .nan := by
    rw [@datum_of_fields x 1 2047 (2 ^ 52 - 1) (by norm_num) (by norm_num) (by norm_num)
      (by omega)]
    rfl
  rw [isNaN_eq, hnan] at h
  cases h

theorem toBits_pos {x : Float} (h : (x == 0.0) = false) : 1 ≤ x.toBits.toNat := by
  by_contra hbits
  have hzero : x = 0.0 := eq_of_toBits (by
    show _ = 0
    omega)
  rw [hzero] at h
  exact absurd h (by decide +kernel)

theorem stepToward_eq (x y : Float) : stepToward x y = .ok (Binary64.stepToward x y) := by
  unfold stepToward Binary64.stepToward
  dsimp only
  split_ifs with hnan heq hzero haway
  · rfl
  · rfl
  · rfl
  · have hx : x.isNaN = false := by
      rw [Bool.or_eq_true, not_or] at hnan
      exact Bool.eq_false_of_not_eq_true hnan.1
    rw [add_ok (toBits_lt hx), ok_bind, UInt64.ofNat_add, UInt64.ofNat_toNat]
    rfl
  · have hpos := toBits_pos (Bool.eq_false_of_not_eq_true hzero)
    rw [sub_ok hpos, ok_bind, UInt64.ofNat_sub hpos, UInt64.ofNat_toNat]
    rfl

/-- The distance from `|x|` to the next value away from zero, or for the largest finite value to
    the one below. -/
def ulp (x : Float) : Checked Float :=
  if x.abs.isNaN || x.abs.isInf then .ok x.abs
  else if x.abs == maxFinite then do
    let below ← stepToward x.abs 0.0
    return x.abs - below
  else do
    let above ← stepToward x.abs infinity
    return above - x.abs

theorem ulp_eq (x : Float) : ulp x = .ok (Binary64.ulp x) := by
  unfold ulp Binary64.ulp
  simp only [stepToward_eq]
  split_ifs <;> rfl

end Calculator.Checked
