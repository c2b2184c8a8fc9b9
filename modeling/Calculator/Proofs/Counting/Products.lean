import Calculator.Function.Counting
import Calculator.Proofs.Binary64.Bounds

/-!
# Products of fractions

Selections are counted by a product of fractions.  It is computed exactly for as long as it fits into
128 bits and goes on in binary64 from there, up to infinity at most.  Here the two loops are taken
apart into their passes, so that what holds after each pass can be said and not only what comes out.

Results:
* `result_stageAfter`: no pass changes what the program computes.
* `Whole.stageAfter_exact`: while the products fit, every division leaves no remainder and the
  product is known exactly.
* `Whole.holds_stageAfter`: what is known after each pass.  In binary64 the product does not
  decrease, and with few factors it is more than half of the exact one.
* `Whole.stageAfter_of_le`, `Whole.product_eq_infinity`: fractions whose products get large are
  multiplied in few passes, up to infinity.
* `productFrom_eq_foldl`, `Whole.stageAfter_truncate`: so nothing is lost by leaving the loops early.
* `Whole.stopsEarly`: all of that in one.
-/

namespace Calculator.Counting

open Binary64

/-! ## The loops in passes -/

/-- Fractions that are multiplied in order: the first `count` of a sequence. -/
structure Fractions where
  numerator : ℕ → ℕ
  denominator : ℕ → ℕ
  count : ℕ

/-- How far a multiplication of fractions has come. -/
inductive Stage where
  /-- The product of the first `i` fractions is known exactly. -/
  | exact (i product : ℕ)
  /-- The product goes on in binary64, and the fraction with index `j` is next. -/
  | rounded (j : ℕ) (product : Float)
  | done (product : Float)

namespace Fractions

variable (F : Fractions) {t : ℕ} {x : Float}

/-- A fraction in binary64. -/
def fraction (j : ℕ) : Float := Float.ofNat (F.numerator j) / Float.ofNat (F.denominator j)

/-- The product of all fractions. -/
def product : Float := fractionProduct F.numerator F.denominator F.count 0 1

/-- One pass through the loop that the multiplication is in, or the way out of it. -/
def next : Stage → Stage
  | .exact i n =>
    if i < F.count then
      if n * F.numerator i < exactLimit then .exact (i + 1) (n * F.numerator i / F.denominator i)
      else .rounded i (Float.ofNat n)
    else .done (Float.ofNat n)
  | .rounded j x =>
    if j < F.count then
      if (x * F.fraction j).isInf then .done (x * F.fraction j)
      else .rounded (j + 1) (x * F.fraction j)
    else .done x
  | .done x => .done x

/-- The stage after `t` passes. -/
def stageAfter : ℕ → Stage
  | 0 => .exact 0 1
  | t + 1 => F.next (stageAfter t)

/-- What the program computes from a stage on. -/
def result : Stage → Float
  | .exact i n => fractionProduct F.numerator F.denominator (F.count - i) i n
  | .rounded j x => productFrom F.fraction (F.count - j) j x
  | .done x => x

/-- A pass does not change what is computed. -/
theorem result_next (s : Stage) : F.result (F.next s) = F.result s := by
  cases s with
  | done x => rfl
  | exact i n =>
    by_cases hi : i < F.count
    · have hsteps : F.count - i = F.count - (i + 1) + 1 := by omega
      rw [next, if_pos hi, result, hsteps, fractionProduct]
      split_ifs
      · rfl
      · rw [result, hsteps]
        rfl
    · have hsteps : F.count - i = 0 := by omega
      rw [next, if_neg hi, result, result, hsteps]
      rfl
  | rounded j x =>
    by_cases hj : j < F.count
    · have hsteps : F.count - j = F.count - (j + 1) + 1 := by omega
      rw [next, if_pos hj, result, hsteps, productFrom]
      split_ifs <;> rfl
    · have hsteps : F.count - j = 0 := by omega
      rw [next, if_neg hj, result, result, hsteps]
      rfl

theorem result_stageAfter (t : ℕ) : F.result (F.stageAfter t) = F.product := by
  induction t with
  | zero => rfl
  | succ t ih => rw [stageAfter, result_next, ih]

variable {F}

theorem product_of_done (h : F.stageAfter t = .done x) : F.product = x := by
  rw [← F.result_stageAfter t, h]
  rfl

/-- The multiplication of the first `m` fractions only. -/
def truncate (F : Fractions) (m : ℕ) : Fractions := { F with count := min m F.count }

end Fractions

/-! ## Leaving at infinity -/

theorem foldl_infinity {ys : List Float} (hys : ∀ y ∈ ys, ∃ q, number? y = some q ∧ 1 ≤ q) :
    ys.foldl (· * ·) infinity = infinity := by
  induction ys with
  | nil => rfl
  | cons y ys ih =>
    obtain ⟨⟨q, hq, hone⟩, hys⟩ := List.forall_mem_cons.mp hys
    rw [List.foldl_cons, infinity_mul_of_pos hq (one_pos.trans_le hone), ih hys]

/-- Leaving the loop at infinity gives what multiplying all the factors left gives. -/
theorem productFrom_eq_foldl {factor : ℕ → Float} {steps j : ℕ} {x : Float} {p : ℚ}
    (hfactor : ∀ i, j ≤ i → i < j + steps → ∃ q, number? (factor i) = some q ∧ 1 ≤ q)
    (hx : number? x = some p) (hp : 1 ≤ p) :
    productFrom factor steps j x = ((List.range' j steps).map factor).foldl (· * ·) x := by
  induction steps generalizing j x p with
  | zero => rfl
  | succ steps ih =>
    obtain ⟨q, hq, hone⟩ := hfactor j le_rfl (by omega)
    have hrest : ∀ i, j + 1 ≤ i → i < j + 1 + steps → ∃ q, number? (factor i) = some q ∧ 1 ≤ q :=
      fun i hi hi' => hfactor i (by omega) (by omega)
    rw [productFrom, List.range'_succ, List.map_cons, List.foldl_cons]
    rcases mul_eq_infinity_or hx hq hp hone with hinf | ⟨r, hr, hpr, -⟩
    · have hall : ∀ y ∈ (List.range' (j + 1) steps).map factor, ∃ q, number? y = some q ∧ 1 ≤ q := by
        intro y hy
        obtain ⟨i, hi, rfl⟩ := List.mem_map.mp hy
        obtain ⟨hi, hi'⟩ := List.mem_range'_1.mp hi
        exact hrest i hi hi'
      rw [hinf, if_pos isInf_infinity, foldl_infinity hall]
    · rw [isInf_of_number hr, if_neg Bool.false_ne_true, ih hrest hr (hp.trans hpr)]

namespace Fractions

variable {F : Fractions} {i j t : ℕ} {x : Float}

/-! ## Products that are natural numbers -/

/-- The products of the first fractions are the natural numbers `c 0`, `c 1`, …, and none of them is
less than the one before. -/
structure Whole (F : Fractions) (c : ℕ → ℕ) : Prop where
  zero : c 0 = 1
  succ : ∀ i < F.count, c (i + 1) * F.denominator i = c i * F.numerator i
  pos : ∀ i < F.count, 0 < F.denominator i
  le : ∀ i < F.count, F.denominator i ≤ F.numerator i

namespace Whole

variable {c : ℕ → ℕ} (h : Whole F c)

include h

/-- A division by the denominator leaves no remainder. -/
theorem div_eq (hi : i < F.count) : c i * F.numerator i / F.denominator i = c (i + 1) := by
  rw [← h.succ i hi, Nat.mul_div_cancel _ (h.pos i hi)]

theorem dvd (hi : i < F.count) : F.denominator i ∣ c i * F.numerator i :=
  h.succ i hi ▸ Nat.dvd_mul_left _ _

theorem le_succ (hi : i < F.count) : c i ≤ c (i + 1) := by
  rw [← h.div_eq hi, Nat.le_div_iff_mul_le (h.pos i hi)]
  exact Nat.mul_le_mul_left _ (h.le i hi)

theorem mono (hij : i ≤ j) (hj : j ≤ F.count) : c i ≤ c j := by
  induction j, hij using Nat.le_induction with
  | base => exact le_rfl
  | succ j _ ih => exact (ih (by omega)).trans (h.le_succ (by omega))

theorem one_le (hi : i ≤ F.count) : 1 ≤ c i := h.zero ▸ h.mono (Nat.zero_le i) hi

/-- While the products fit, the multiplication stays exact. -/
theorem stageAfter_exact (hfit : ∀ i < F.count, c i * F.numerator i < exactLimit)
    (ht : t ≤ F.count) : F.stageAfter t = .exact t (c t) := by
  induction t with
  | zero => rw [stageAfter, h.zero]
  | succ t ih =>
    have hlt : t < F.count := ht
    rw [stageAfter, ih hlt.le, next, if_pos hlt, if_pos (hfit t hlt), h.div_eq hlt]

/-- So the product of all fractions is rounded once. -/
theorem product_exact (hfit : ∀ i < F.count, c i * F.numerator i < exactLimit) :
    F.stageAfter (F.count + 1) = .done (Float.ofNat (c F.count)) ∧
      F.product = Float.ofNat (c F.count) := by
  have hdone : F.stageAfter (F.count + 1) = .done (Float.ofNat (c F.count)) := by
    rw [stageAfter, h.stageAfter_exact hfit le_rfl, next, if_neg (lt_irrefl _)]
  exact ⟨hdone, product_of_done hdone⟩

end Whole

/-! ## Products in binary64 -/

/-- Numerators are words of 64 bits, and the denominators begin with small ones. -/
structure Words (F : Fractions) : Prop where
  numerator_lt : ∀ i < F.count, F.numerator i < 2 ^ 64
  denominator_le : ∀ i < F.count, F.denominator i ≤ i + 1

/-- A value that the product of `j` fractions was rounded to.  It is a number, and with few factors
it is not much less than any product so far. -/
def Follows (c : ℕ → ℕ) (j : ℕ) (x : Float) : Prop :=
  ∃ q, number? x = some q ∧ 1 ≤ q ∧
    ∀ i ≤ j, i ≤ 2 ^ 50 → (1 - unitRoundoff) ^ (3 * i + 1) * c i ≤ q

theorem unitRoundoff_le_one : 0 ≤ 1 - unitRoundoff := by
  unfold unitRoundoff
  norm_num

/-- What is lost with few factors is less than one half. -/
theorem half_le_pow (hi : i ≤ 2 ^ 50) : 1 / 2 ≤ (1 - unitRoundoff) ^ (3 * i + 1) := by
  have hbernoulli := one_add_mul_le_pow (a := -unitRoundoff) (by unfold unitRoundoff; norm_num)
    (3 * i + 1)
  have hfew : ((3 * i + 1 : ℕ) : ℚ) ≤ 2 ^ 52 := by
    exact_mod_cast (by omega : 3 * i + 1 ≤ 2 ^ 52)
  have hloss : ((3 * i + 1 : ℕ) : ℚ) * unitRoundoff ≤ 1 / 2 := by
    unfold unitRoundoff
    linarith
  rw [← sub_eq_add_neg] at hbernoulli
  linarith

/-- A product that is followed in binary64 is in the range of the values. -/
theorem Follows.lt {c : ℕ → ℕ} (h : Follows c j x) (hij : i ≤ j) (hi : i ≤ 2 ^ 50) :
    c i < 2 ^ 1025 := by
  obtain ⟨q, hq, -, hle⟩ := h
  have hhalf : 1 / 2 * (c i : ℚ) ≤ q :=
    (mul_le_mul_of_nonneg_right (half_le_pow hi) (Nat.cast_nonneg _)).trans (hle i hij hi)
  have hrange : q < 2 ^ 1024 := (lt_overflowBound hq).trans (sub_lt_self _ (by positivity))
  have hcast : (c i : ℚ) < 2 ^ 1025 :=
    calc (c i : ℚ) ≤ 2 * q := by linarith
      _ < 2 * 2 ^ 1024 := mul_lt_mul_of_pos_left hrange two_pos
      _ = 2 ^ 1025 := (pow_succ' 2 1024).symm
  exact_mod_cast hcast

namespace Whole

variable {c : ℕ → ℕ} (h : Whole F c)

include h

/-- Numerator and denominator are converted to numbers in the same order. -/
theorem exists_number_terms (hw : Words F) (hj : j < F.count) :
    ∃ p q, number? (Float.ofNat (F.numerator j)) = some p ∧
      number? (Float.ofNat (F.denominator j)) = some q ∧ 1 ≤ q ∧ q ≤ p ∧
      (1 - unitRoundoff) * F.numerator j ≤ p := by
  have hpos := h.pos j hj
  have hle := h.le j hj
  have hrange : F.numerator j < 2 ^ 1023 :=
    (hw.numerator_lt j hj).trans (pow_lt_pow_right₀ one_lt_two (by norm_num))
  obtain ⟨p, hp, -, hpn⟩ := exists_number_ofNat (hpos.trans_le hle) hrange
  obtain ⟨q, hq, hone, -⟩ := exists_number_ofNat hpos (hle.trans_lt hrange)
  have hqp : q ≤ p := by
    rw [ofNat_eq] at hp hq
    exact ofMagnitude_mono (Nat.cast_nonneg _) (by exact_mod_cast hle) hq hp
  exact ⟨p, q, hp, hq, hone, hqp, hpn⟩

/-- A fraction in binary64 is a number from 1 on, and among the first ones not much less than the
exact fraction. -/
theorem exists_number_fraction (hw : Words F) (hj : j < F.count) :
    ∃ r, number? (F.fraction j) = some r ∧ 1 ≤ r ∧
      (j < 2 ^ 53 → (1 - unitRoundoff) ^ 2 * (F.numerator j / F.denominator j) ≤ r) := by
  obtain ⟨p, q, hp, hq, hone, hqp, hpn⟩ := h.exists_number_terms hw hj
  obtain ⟨r, hr, hr', hloss⟩ := exists_number_div hp hq hone hqp
  refine ⟨r, hr, hr', fun hsmall => le_trans ?_ hloss⟩
  -- among the first fractions the denominator is a value
  have hexact : q = F.denominator j := by
    have hle := hw.denominator_le j hj
    exact Option.some.inj (hq.symm.trans (number?_ofNat (by omega)))
  have hden : (0 : ℚ) < F.denominator j := by exact_mod_cast h.pos j hj
  rw [hexact, pow_two, mul_assoc, ← mul_div_assoc (1 - unitRoundoff)]
  exact mul_le_mul_of_nonneg_left (div_le_div_of_nonneg_right hpn hden.le) unitRoundoff_le_one

/-- A product that fits is rounded once. -/
theorem follows_ofNat (hi : i ≤ F.count) (hlt : c i < 2 ^ 128) :
    Follows c i (Float.ofNat (c i)) := by
  obtain ⟨q, hq, hone, hloss⟩ := exists_number_ofNat (h.one_le hi)
    (hlt.trans (pow_lt_pow_right₀ one_lt_two (by norm_num)))
  refine ⟨q, hq, hone, fun k hk _ => le_trans ?_ hloss⟩
  have hmono : (c k : ℚ) ≤ c i := by exact_mod_cast h.mono hk hi
  have hpow : (1 - unitRoundoff) ^ (3 * k + 1) ≤ 1 - unitRoundoff :=
    pow_le_of_le_one unitRoundoff_le_one (by unfold unitRoundoff; norm_num) (by omega)
  exact mul_le_mul hpow hmono (Nat.cast_nonneg _) unitRoundoff_le_one

/-- One more factor in binary64. -/
theorem follows_mul (hw : Words F) (hj : j < F.count) (hx : Follows c j x) :
    x * F.fraction j = infinity ∨ Follows c (j + 1) (x * F.fraction j) := by
  obtain ⟨q, hq, hone, hle⟩ := hx
  obtain ⟨r, hr, hr', hloss⟩ := h.exists_number_fraction hw hj
  refine (mul_eq_infinity_or hq hr hone hr').imp_right ?_
  rintro ⟨s, hs, hqs, hrs⟩
  refine ⟨s, hs, hone.trans hqs, fun i hi hfew => ?_⟩
  rcases hi.lt_or_eq with hlt | rfl
  · exact (hle i (by omega) hfew).trans hqs
  have hsucc : (c (j + 1) : ℚ) = c j * (F.numerator j / F.denominator j) := by
    have hden : (F.denominator j : ℚ) ≠ 0 := by exact_mod_cast (h.pos j hj).ne'
    rw [← mul_div_assoc, eq_div_iff hden]
    exact_mod_cast h.succ j hj
  calc (1 - unitRoundoff) ^ (3 * (j + 1) + 1) * (c (j + 1) : ℚ)
      = (1 - unitRoundoff) * ((1 - unitRoundoff) ^ (3 * j + 1) * c j *
          ((1 - unitRoundoff) ^ 2 * (F.numerator j / F.denominator j))) := by
        rw [hsucc]
        ring
    _ ≤ (1 - unitRoundoff) * (q * r) := by
        refine mul_le_mul_of_nonneg_left ?_ unitRoundoff_le_one
        refine mul_le_mul (hle j le_rfl (by omega)) (hloss (by omega)) ?_ (zero_le_one.trans hone)
        have := unitRoundoff_le_one
        positivity
    _ ≤ s := hrs

end Whole

/-! ## What holds after each pass -/

/-- What is known after `t` passes. -/
def Holds (F : Fractions) (c : ℕ → ℕ) (t : ℕ) : Stage → Prop
  | .exact i n => i = t ∧ i ≤ F.count ∧ n = c i ∧ n < 2 ^ 128
  | .rounded j x => j + 1 = t ∧ j ≤ F.count ∧ Follows c j x
  | .done x => x = infinity ∨ (x = Float.ofNat (c F.count) ∧ c F.count < 2 ^ 128) ∨
      Follows c F.count x

namespace Whole

variable {c : ℕ → ℕ} (h : Whole F c)

include h

theorem holds_next (hw : Words F) {s : Stage} (hs : Holds F c t s) : Holds F c (t + 1) (F.next s) := by
  cases s with
  | done x => exact hs
  | exact i n =>
    obtain ⟨rfl, hi, rfl, hn⟩ := hs
    rw [next]
    -- one more exact product, the change to binary64, or the end
    split_ifs with hlt hfit
    · have hle : c i * F.numerator i / F.denominator i ≤ c i * F.numerator i := Nat.div_le_self _ _
      rw [exactLimit, Nat.one_shiftLeft] at hfit
      exact ⟨rfl, hlt, h.div_eq hlt, hle.trans_lt hfit⟩
    · exact ⟨rfl, hi, h.follows_ofNat hi hn⟩
    · obtain rfl : i = F.count := by omega
      exact .inr (.inl ⟨rfl, hn⟩)
  | rounded j x =>
    obtain ⟨rfl, hj, hx⟩ := hs
    rw [next]
    -- infinity, one more product, or the end
    split_ifs with hlt hinf
    · rcases h.follows_mul hw hlt hx with hinfinity | ⟨q, hq, -⟩
      · exact .inl hinfinity
      · rw [isInf_of_number hq] at hinf
        cases hinf
    · rcases h.follows_mul hw hlt hx with hinfinity | hfollows
      · exact absurd isInf_infinity (hinfinity ▸ hinf)
      · exact ⟨rfl, hlt, hfollows⟩
    · obtain rfl : j = F.count := by omega
      exact .inr (.inr hx)

theorem holds_stageAfter (hw : Words F) (t : ℕ) : Holds F c t (F.stageAfter t) := by
  induction t with
  | zero => exact ⟨rfl, Nat.zero_le _, h.zero.symm, by norm_num⟩
  | succ t ih => exact h.holds_next hw ih

/-- Fractions whose products get large are multiplied in few passes. -/
theorem stageAfter_of_le (hw : Words F) {bound : ℕ} (hbound : bound ≤ 2 ^ 50)
    (hlarge : bound ≤ F.count → 2 ^ 1025 ≤ c bound) (ht : bound + 2 ≤ t) :
    F.stageAfter t = .done F.product := by
  have hholds := h.holds_stageAfter hw t
  cases hs : F.stageAfter t with
  | done x => rw [product_of_done hs]
  | exact i n =>
    -- the large product would not fit
    rw [hs] at hholds
    obtain ⟨rfl, hi, rfl, hn⟩ := hholds
    have hmono := h.mono (by omega : bound ≤ i) hi
    have hpow : 2 ^ 128 ≤ 2 ^ 1025 := pow_le_pow_right₀ one_le_two (by norm_num)
    have := hlarge (by omega)
    omega
  | rounded j x =>
    -- a value more than half of it would be out of range
    rw [hs] at hholds
    obtain ⟨rfl, hj, hx⟩ := hholds
    have := hx.lt (by omega : bound ≤ j) hbound
    have := hlarge (by omega)
    omega

/-- They are multiplied up to infinity. -/
theorem product_eq_infinity (hw : Words F) {bound : ℕ} (hbound : bound ≤ 2 ^ 50)
    (hcount : bound ≤ F.count) (hlarge : 2 ^ 1025 ≤ c bound) : F.product = infinity := by
  have hholds := h.holds_stageAfter hw (bound + 2)
  rw [h.stageAfter_of_le hw hbound (fun _ => hlarge) le_rfl] at hholds
  rcases hholds with hinfinity | ⟨-, hfits⟩ | hfollows
  · exact hinfinity
  · have hmono := h.mono hcount le_rfl
    have hpow : 2 ^ 128 ≤ 2 ^ 1025 := pow_le_pow_right₀ one_le_two (by norm_num)
    omega
  · exact absurd (hfollows.lt hcount hbound) (not_lt.mpr hlarge)

/-- Up to `m` passes it does not show that the fractions from `m` on are left out. -/
theorem stageAfter_truncate (hw : Words F) {m : ℕ} (ht : t ≤ m) :
    (F.truncate m).stageAfter t = F.stageAfter t := by
  induction t with
  | zero => rfl
  | succ t ih =>
    have hcount : ∀ i ≤ t, (i < (F.truncate m).count ↔ i < F.count) := fun i hi =>
      lt_min_iff.trans (and_iff_right (by omega))
    have hholds := h.holds_stageAfter hw t
    rw [stageAfter, stageAfter, ih (by omega)]
    cases hs : F.stageAfter t with
    | done x => rfl
    | exact i n =>
      rw [hs] at hholds
      simp only [next, hcount i hholds.1.le]
      rfl
    | rounded j x =>
      rw [hs] at hholds
      simp only [next, hcount j (Nat.le_of_succ_le hholds.1.le)]
      rfl

end Whole

/-! ## Leaving the loops early -/

/-- What it means that a multiplication of fractions leaves its loops early without changing the
result. -/
structure StopsEarly (F : Fractions) (result : Float) : Prop where
  /-- A product that is known exactly is rounded once. -/
  ofNat_nearest : ∀ t i n, F.stageAfter t = .exact i n → IsNearest (Float.ofNat n) n
  /-- A factor is the value nearest to the quotient of the values nearest to its two terms. -/
  fraction_nearest : ∀ i < F.count, ∃ p q, number? (Float.ofNat (F.numerator i)) = some p ∧
    IsNearest (Float.ofNat (F.numerator i)) (F.numerator i) ∧
    number? (Float.ofNat (F.denominator i)) = some q ∧
    IsNearest (Float.ofNat (F.denominator i)) (F.denominator i) ∧
    IsNearest (F.fraction i) (p / q)
  /-- The next product is the value nearest to the exact one, or infinity past all values. -/
  mul_nearest : ∀ t j x, F.stageAfter t = .rounded j x → j < F.count → ∃ p q,
    number? x = some p ∧ number? (F.fraction j) = some q ∧ IsNearest (x * F.fraction j) (p * q)
  /-- From where the product goes on in binary64, every factor is at least 1. -/
  one_le_fraction : ∀ t j x, F.stageAfter t = .rounded j x →
    ∀ i, j ≤ i → i < F.count → 1.0 ≤ F.fraction i
  /-- From there on the product is no NaN, and no factor makes it smaller. -/
  le_mul : ∀ t j x, F.stageAfter t = .rounded j x → x.isNaN = false ∧
    (j < F.count → (x * F.fraction j).isNaN = false ∧ x ≤ x * F.fraction j)
  /-- Multiplying all the factors that are left, past infinity as well, gives the result. -/
  eq_foldl : ∀ t j x, F.stageAfter t = .rounded j x →
    result = ((List.range' j (F.count - j)).map F.fraction).foldl (· * ·) x
  /-- The loops have ended after 1100 passes. -/
  ends : ∀ t, 1100 ≤ t → F.stageAfter t = .done result
  /-- So leaving out all factors but the first 1100 does not change the result. -/
  truncated : (F.truncate 1100).product = result

theorem Whole.stopsEarly {c : ℕ → ℕ} (h : Whole F c) (hw : Words F)
    (hends : ∀ t, 1100 ≤ t → F.stageAfter t = .done F.product) : F.StopsEarly F.product := by
  have hrounded : ∀ t j x, F.stageAfter t = .rounded j x → j ≤ F.count ∧ Follows c j x :=
    fun t j x hs => by
      have hholds := h.holds_stageAfter hw t
      rw [hs] at hholds
      exact hholds.2
  refine ⟨fun _ _ n _ => isNearest_ofNat n, fun i hi => ?_, fun t j x hs hj => ?_,
    fun t j x _ i _ hi => ?_, fun t j x hs => ?_, fun t j x hs => ?_, hends, ?_⟩
  · obtain ⟨p, q, hp, hq, hone, hqp, -⟩ := h.exists_number_terms hw hi
    have hq' : 0 < q := one_pos.trans_le hone
    refine ⟨p, q, hp, isNearest_ofNat _, hq, isNearest_ofNat _, ?_⟩
    rw [fraction, div_of_pos hp hq (hq'.trans_le hqp) hq']
    exact isNearest_ofMagnitude (div_nonneg (hq'.trans_le hqp).le hq'.le)
  · obtain ⟨-, p, hp, hone, -⟩ := hrounded t j x hs
    obtain ⟨r, hr, hone', -⟩ := h.exists_number_fraction hw hj
    have hp' : 0 < p := one_pos.trans_le hone
    have hr' : 0 < r := one_pos.trans_le hone'
    refine ⟨p, r, hp, hr, ?_⟩
    rw [mul_of_pos hp hr hp' hr']
    exact isNearest_ofMagnitude (mul_pos hp' hr').le
  · obtain ⟨r, hr, hone, -⟩ := h.exists_number_fraction hw hi
    exact (le_iff_number number?_one hr).mpr hone
  · obtain ⟨-, p, hp, hone, -⟩ := hrounded t j x hs
    refine ⟨isNaN_of_number hp, fun hj => ?_⟩
    obtain ⟨r, hr, hone', -⟩ := h.exists_number_fraction hw hj
    rcases mul_eq_infinity_or hp hr hone hone' with hinf | ⟨q, hq, hpq, -⟩
    · rw [hinf]
      exact ⟨isNaN_infinity, le_infinity hp⟩
    · exact ⟨isNaN_of_number hq, (le_iff_number hp hq).mpr hpq⟩
  · obtain ⟨hj, p, hp, hone, -⟩ := hrounded t j x hs
    rw [← F.result_stageAfter t, hs]
    refine productFrom_eq_foldl (fun i _ hi => ?_) hp hone
    obtain ⟨r, hr, hone', -⟩ := h.exists_number_fraction hw (by omega : i < F.count)
    exact ⟨r, hr, hone'⟩
  · refine product_of_done (t := 1100) ?_
    rw [h.stageAfter_truncate hw le_rfl, hends 1100 le_rfl]

end Fractions

end Calculator.Counting
