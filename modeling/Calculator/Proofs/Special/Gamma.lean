import Calculator.Function.Special
import Calculator.Proofs.Binary64.Rank

/-!
# Gamma calls itself at most once

Below one half, gamma and its logarithm call themselves at the distance of 1 from the argument.
Nothing gets smaller on the way, but that distance is above one half, and one half is a value, so
that it is at least one half also after it has been rounded, and there the functions are done
without a further call.  So are they at the poles, at infinities and at a NaN.

A call is described by a tree in which each further call can be seen, so that all calls of a run can
be listed.  Which calls there are does not depend on the values of the elementary functions.

Results:
* `exists_number_one_sub`: below one half, the distance of 1 from a number is a number and at least
  one half.
* `Reflecting.runs_iff`: each run comes to an end, with the further calls that `reflections` lists.
* `reflecting_gammaBody`, `reflecting_logGammaBody`: what one call does at each argument.
* `gamma_reflects_once`: the runs of gamma and of its logarithm.
-/

namespace Calculator.Special

open Binary64

variable {x : Float} {p : ℚ}

/-! ## Runs of a recursion -/

/-- What is left to do in a call of a recursive function: it is done, or it calls the function again
and goes on with the value of that call. -/
inductive CallTree where
  | done (value : Float)
  | call (arg : Float) (next : Float → CallTree)

/-- The value of a call, with `self` standing for the function wherever it is called again. -/
def CallTree.valueWith (self : Float → Float) : CallTree → Float
  | done value => value
  | call arg next => (next (self arg)).valueWith self

/-- `Runs body tree args value` says that `tree`, which is left to do in a call, comes to an end
with `value`.  On the way the function with this body is called at `args`, in this order, the calls
inside of other calls among them. -/
inductive Runs (body : Float → CallTree) : CallTree → List Float → Float → Prop
  | done (value : Float) : Runs body (.done value) [] value
  | call {arg result value : Float} {next : Float → CallTree} {inner outer : List Float} :
      Runs body (body arg) inner result → Runs body (next result) outer value →
      Runs body (.call arg next) (arg :: (inner ++ outer)) value

variable {body : Float → CallTree} {args : List Float} {value : Float}

theorem runs_done_iff {result : Float} :
    Runs body (.done result) args value ↔ args = [] ∧ value = result := by
  constructor
  · rintro ⟨⟩
    exact ⟨rfl, rfl⟩
  · rintro ⟨rfl, rfl⟩
    exact .done _

theorem runs_call_iff {arg : Float} {next : Float → CallTree} :
    Runs body (.call arg next) args value ↔ ∃ inner outer result,
      Runs body (body arg) inner result ∧ Runs body (next result) outer value ∧
        args = arg :: (inner ++ outer) := by
  constructor
  · intro h
    cases h with
    | call hinner houter => exact ⟨_, _, _, hinner, houter, rfl⟩
  · rintro ⟨inner, outer, result, hinner, houter, rfl⟩
    exact .call hinner houter

/-! ## The other side of one half -/

/-- Below one half, the distance of 1 from a number is a number and at least one half. -/
theorem exists_number_one_sub (hx : number? x = some p) (h : x < 0.5) :
    ∃ q, number? (1.0 - x) = some q ∧ 1 / 2 ≤ q ∧ IsNearest (1.0 - x) (1 - p) := by
  have hother := not_one_sub_lt_half hx h
  have hp : p < 1 / 2 := (lt_iff_number hx number?_half).mp h
  have hrounded : 1.0 - x = ofMagnitude false (1 - p) := sub_eq number?_one hx (by linarith)
  -- 1 is less than what the largest value is below the bound of overflow
  have hrange : 1 - p < overflowBound := by
    have hbound := (neg_le_abs p).trans (abs_number_le hx)
    have htwo : (2 : ℚ) ^ (1 : ℤ) < 2 ^ (971 : ℤ) := zpow_lt_zpow_right₀ (by norm_num) (by norm_num)
    rw [zpow_one] at htwo
    rw [overflowBound_eq]
    generalize (2 : ℚ) ^ (971 : ℤ) = unit at *
    linarith
  obtain ⟨q, hq⟩ := exists_number_ofMagnitude (by linarith) hrange
  rw [← hrounded] at hq
  rw [lt_iff_number hq number?_half, not_lt] at hother
  exact ⟨q, hq, hother, hrounded ▸ isNearest_ofMagnitude (by linarith)⟩

/-! ## Where a further call is made -/

/-- Whether gamma at `x` is taken from the other side of one half: for numbers below one half other
than the poles. -/
def reflects (x : Float) : Bool := x.isFinite && !isPole x && x < 0.5

/-- The arguments of all further calls of gamma at `x`. -/
def reflections (x : Float) : List Float := if reflects x then [1.0 - x] else []

theorem reflects_iff :
    reflects x = true ↔ (∃ p, number? x = some p) ∧ isPole x = false ∧ x < 0.5 := by
  rw [reflects, Bool.and_eq_true, Bool.and_eq_true, Bool.not_eq_true', decide_eq_true_iff,
    isFinite_iff_number, and_assoc]

/-- Below one half a further call is made for all but the poles and negative infinity. -/
theorem reflects_of_lt_half (h : x < 0.5) (hinf : x ≠ -infinity) (hpole : ¬ isPole x = true) :
    reflects x = true :=
  reflects_iff.mpr ⟨exists_number_of_lt_half h hinf, Bool.eq_false_of_not_eq_true hpole, h⟩

/-- An integer below one half is a pole. -/
theorem isPole_of_isIntegral (hx : isIntegral x = true) (h : x < 0.5) : isPole x = true := by
  have hnumber := number?_of_isIntegral hx
  rw [lt_iff_number hnumber number?_half] at h
  have hle : toInt x ≤ 0 := by
    have hone : (toInt x : ℚ) < 1 := by linarith
    exact Int.lt_add_one_iff.mp (by exact_mod_cast hone)
  rw [isPole, hx, Bool.and_true, decide_eq_true_iff, le_iff_number hnumber number?_zero]
  exact_mod_cast hle

/-- A further call is made for numbers with a fraction only. -/
theorem isIntegral_of_reflects (h : reflects x = true) : isIntegral x = false := by
  obtain ⟨-, hpole, hlt⟩ := reflects_iff.mp h
  refine Bool.eq_false_of_not_eq_true fun hx => ?_
  rw [isPole_of_isIntegral hx hlt] at hpole
  cases hpole

/-- On the other side of one half there is no further call. -/
theorem reflects_one_sub (h : reflects x = true) : reflects (1.0 - x) = false := by
  obtain ⟨⟨p, hp⟩, -, hlt⟩ := reflects_iff.mp h
  refine Bool.eq_false_of_not_eq_true fun hother => ?_
  exact not_one_sub_lt_half hp hlt (reflects_iff.mp hother).2.2

/-- There is at most one further call, at the distance of 1 from `x` as it is rounded, and that is
finite and at least one half. -/
theorem reflections_cases (x : Float) :
    reflections x = [] ∨ ∃ p, number? x = some p ∧ reflections x = [1.0 - x] ∧
      IsNearest (1.0 - x) (1 - p) ∧ (1.0 - x).isFinite = true ∧ 0.5 ≤ 1.0 - x := by
  rw [reflections]
  cases hx : reflects x with
  | false => exact .inl rfl
  | true =>
    obtain ⟨⟨p, hp⟩, -, hlt⟩ := reflects_iff.mp hx
    obtain ⟨q, hq, hhalf, hnearest⟩ := exists_number_one_sub hp hlt
    exact .inr ⟨p, hp, rfl, hnearest, isFinite_iff_number.mpr ⟨q, hq⟩,
      (le_iff_number number?_half hq).mpr hhalf⟩

-- just below one half the exact distance is a tie, and one half is the even one of its neighbors
example : reflections (Float.ofBits 0x3fdfffffffffffff) = [0.5] := by decide +kernel

/-! ## Functions that are reflected at one half -/

/-- A body whose calls are done without a further call, but where `reflects` holds: there a call
makes one, at the distance of 1 from its argument, and is done with the value of that. -/
structure Reflecting (body : Float → CallTree) : Prop where
  done : ∀ x, reflects x = false → ∃ value, body x = .done value
  call : ∀ x, reflects x = true →
    ∃ finish : Float → Float, body x = .call (1.0 - x) fun value => .done (finish value)

/-- Each run comes to an end, with the further calls that `reflections` lists, and with the value
that two calls of the function give, whatever stands for a third one. -/
theorem Reflecting.runs_iff (hbody : Reflecting body) (self : Float → Float) (x : Float)
    (args : List Float) (value : Float) :
    Runs body (body x) args value ↔
      args = reflections x ∧ value = (body x).valueWith fun y => (body y).valueWith self := by
  rw [reflections]
  cases hx : reflects x with
  | false =>
    obtain ⟨result, hdone⟩ := hbody.done x hx
    rw [hdone, runs_done_iff]
    rfl
  | true =>
    obtain ⟨finish, hcall⟩ := hbody.call x hx
    -- the further call is done at once, because its argument is on the other side
    obtain ⟨result, hdone⟩ := hbody.done (1.0 - x) (reflects_one_sub hx)
    rw [hcall, runs_call_iff]
    simp only [hdone, runs_done_iff, CallTree.valueWith]
    constructor
    · rintro ⟨inner, outer, result', ⟨rfl, rfl⟩, ⟨rfl, rfl⟩, rfl⟩
      exact ⟨rfl, rfl⟩
    · rintro ⟨rfl, rfl⟩
      exact ⟨[], [], result, ⟨rfl, rfl⟩, ⟨rfl, rfl⟩, rfl⟩

/-! ## Gamma -/

/-- A call of gamma. -/
def gammaBody (x : Float) : CallTree :=
  if x.isNaN || x == -infinity then .done nan
  else if x == 0.0 then .done (copySign infinity x)
  else if isPole x then .done nan
  else if 171.7 < x then .done infinity
  else if isIntegral x && x ≤ 23.0 then .done (smallFactorial x)
  else if x < 0.5 then .call (1.0 - x) fun value => .done (pi / ((pi * x).sin * value))
  else .done (lanczosGamma x)

theorem valueWith_gammaBody (self : Float → Float) (x : Float) :
    (gammaBody x).valueWith self = gammaEquation self x := by
  unfold gammaBody gammaEquation
  split_ifs <;> rfl

theorem reflecting_gammaBody : Reflecting gammaBody where
  done x hx := by
    unfold gammaBody
    split_ifs with hinvalid hzero hpole hlarge hsmall hlt
    -- all branches but one make no further call
    any_goals exact ⟨_, rfl⟩
    have hinf : x ≠ -infinity := by
      rintro rfl
      exact hinvalid (by decide +kernel)
    rw [reflects_of_lt_half hlt hinf hpole] at hx
    cases hx
  call x hx := by
    obtain ⟨⟨p, hp⟩, hnopole, hlt⟩ := reflects_iff.mp hx
    have hfraction := isIntegral_of_reflects hx
    refine ⟨fun value => pi / ((pi * x).sin * value), ?_⟩
    unfold gammaBody
    split_ifs with hinvalid hzero hpole hlarge hsmall
    · rw [isNaN_of_number hp, beq_neg_infinity_of_number hp] at hinvalid
      cases hinvalid
    · -- a zero is an integer
      rw [beq_number hp number?_zero, decide_eq_true_iff] at hzero
      have hnumber : number? x = some ((0 : ℤ) : ℚ) := by rw [hp, hzero, Int.cast_zero]
      rw [isIntegral_of_number hnumber] at hfraction
      cases hfraction
    · rw [hnopole] at hpole
      cases hpole
    · exact absurd (trans_lt hlarge hlt) (by decide +kernel)
    · rw [hfraction] at hsmall
      cases hsmall
    · rfl

/-! ## The logarithm of gamma -/

/-- A call of the logarithm of gamma. -/
def logGammaBody (x : Float) : CallTree :=
  if x.isNaN then .done nan
  else if x.isInf || isPole x then .done infinity
  else if x == 1.0 || x == 2.0 then .done 0.0
  else if x < 0.5 then
    .call (1.0 - x) fun value => .done ((pi / (pi * x).sin.abs).log - value)
  else .done (lanczosLogGamma x)

theorem valueWith_logGammaBody (self : Float → Float) (x : Float) :
    (logGammaBody x).valueWith self = logGammaEquation self x := by
  unfold logGammaBody logGammaEquation
  split_ifs <;> rfl

theorem reflecting_logGammaBody : Reflecting logGammaBody where
  done x hx := by
    unfold logGammaBody
    split_ifs with hnan hinvalid hroot hlt
    any_goals exact ⟨_, rfl⟩
    rw [Bool.or_eq_true, not_or] at hinvalid
    have hinf : x ≠ -infinity := by
      rintro rfl
      exact hinvalid.1 (by decide +kernel)
    rw [reflects_of_lt_half hlt hinf hinvalid.2] at hx
    cases hx
  call x hx := by
    obtain ⟨⟨p, hp⟩, hnopole, hlt⟩ := reflects_iff.mp hx
    refine ⟨fun value => (pi / (pi * x).sin.abs).log - value, ?_⟩
    unfold logGammaBody
    split_ifs with hnan hinvalid hroot
    · rw [isNaN_of_number hp] at hnan
      cases hnan
    · rw [isInf_of_number hp, hnopole] at hinvalid
      cases hinvalid
    · rcases (Bool.or_eq_true _ _).mp hroot with hone | htwo
      · exact absurd (beq_trans_lt hone hlt) (by decide +kernel)
      · exact absurd (beq_trans_lt htwo hlt) (by decide +kernel)
    · rfl

/-! ## Both functions -/

/-- A call of gamma or of its logarithm makes at most one further call on the way to its value, at
the distance of 1 from its argument, which is rounded to a finite value from one half upwards. -/
theorem gamma_reflects_once :
    (∃ f ∈ functions, f.name = "gamma" ∧ ∀ v, f.apply [v] = .ok (.ofFloat (gamma v.float))) ∧
    (∃ f ∈ functions, f.name = "lgamma" ∧
      ∀ v, f.apply [v] = .ok (.ofFloat (logGamma v.float))) ∧
    (∀ self x, gammaEquation self x = (gammaBody x).valueWith self ∧
      logGammaEquation self x = (logGammaBody x).valueWith self) ∧
    ∀ x,
      (∀ args value, Runs gammaBody (gammaBody x) args value ↔
        args = reflections x ∧ value = gamma x) ∧
      (∀ args value, Runs logGammaBody (logGammaBody x) args value ↔
        args = reflections x ∧ value = logGamma x) ∧
      (reflections x = [] ∨ ∃ p, number? x = some p ∧ reflections x = [1.0 - x] ∧
        IsNearest (1.0 - x) (1 - p) ∧ (1.0 - x).isFinite = true ∧ 0.5 ≤ 1.0 - x) := by
  refine ⟨⟨.ofRealUnsigned "gamma" gamma, by simp [functions], rfl, fun _ => rfl⟩,
    ⟨.ofRealUnsigned "lgamma" logGamma, by simp [functions], rfl, fun _ => rfl⟩,
    fun self x => ⟨(valueWith_gammaBody self x).symm, (valueWith_logGammaBody self x).symm⟩,
    fun x => ⟨fun args value => ?_, fun args value => ?_, reflections_cases x⟩⟩
  · rw [reflecting_gammaBody.runs_iff fun _ => nan]
    simp only [valueWith_gammaBody]
    rfl
  · rw [reflecting_logGammaBody.runs_iff fun _ => nan]
    simp only [valueWith_logGammaBody]
    rfl

end Calculator.Special
