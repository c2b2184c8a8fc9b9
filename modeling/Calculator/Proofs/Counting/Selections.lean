import Calculator.Proofs.Counting.Arguments
import Calculator.Proofs.Counting.Divisors
import Calculator.Proofs.Counting.Products

/-!
# Selections

`comb`, `perm` and `factorial` multiply fractions `(n - i) / (i + 1)` or `(n - i) / 1`.  The products
of the first of them are the numbers of smaller selections, so they are natural numbers that do not
decrease.  They grow so fast that a thousand factors are past every value.

Results:
* `whole_choosing`, `whole_falling`: the products on the way.
* `combinations_nearest`, `permutations_nearest`: a number of selections that fits is computed
  exactly and rounded once.
* `factorial_eq_perm`: `factorial` and `perm` of one argument agree on every value.
* `selections_stop_early`: no selection takes more than 1100 passes.
-/

namespace Calculator.Counting

open Binary64

variable {n k i : ℕ} {x : Float}

/-! ## The fractions -/

/-- The fractions whose product is the number of ways to choose `k` out of `n` in order. -/
def Fractions.falling (n k : ℕ) : Fractions := ⟨fun i => n - i, fun _ => 1, k⟩

/-- The fractions whose product is the number of ways to choose `k` out of `n` without order. -/
def Fractions.choosing (n k : ℕ) : Fractions := ⟨fun i => n - i, fun i => i + 1, min k (n - k)⟩

theorem whole_falling (hk : k ≤ n) : (Fractions.falling n k).Whole n.descFactorial where
  zero := Nat.descFactorial_zero n
  succ i _ := by
    show n.descFactorial (i + 1) * 1 = n.descFactorial i * (n - i)
    rw [Nat.mul_one, Nat.descFactorial_succ, Nat.mul_comm]
  pos _ _ := one_pos
  le i hi := by
    have : i < k := hi
    show 1 ≤ n - i
    omega

theorem whole_choosing (n k : ℕ) : (Fractions.choosing n k).Whole n.choose where
  zero := Nat.choose_zero_right n
  succ i _ := Nat.choose_succ_right_eq n i
  pos i _ := i.succ_pos
  le i hi := by
    have : i < min k (n - k) := hi
    show i + 1 ≤ n - i
    omega

theorem words_falling (hn : n < 2 ^ 64) : (Fractions.falling n k).Words where
  numerator_lt i _ := (Nat.sub_le n i).trans_lt hn
  denominator_le i _ := Nat.le_add_left 1 i

theorem words_choosing (hn : n < 2 ^ 64) : (Fractions.choosing n k).Words where
  numerator_lt i _ := (Nat.sub_le n i).trans_lt hn
  denominator_le _ _ := le_rfl

theorem combinations_of_le (hk : k ≤ n) : combinations n k = (Fractions.choosing n k).product :=
  if_neg (not_lt.mpr hk)

theorem permutations_of_le (hk : k ≤ n) : permutations n k = (Fractions.falling n k).product :=
  if_neg (not_lt.mpr hk)

/-! ## The functions on natural numbers -/

theorem combFunction_apply {x y : Value} (hx : number? x.float = some (n : ℚ))
    (hy : number? y.float = some (k : ℚ)) (hn : n < 2 ^ 64) (hk : k < 2 ^ 64) :
    combFunction.apply [x, y] = .ok (.ofFloat (combinations n k)) :=
  ofNaturals_apply _ _ hx hy hn hk

theorem permFunction_apply_pair {x y : Value} (hx : number? x.float = some (n : ℚ))
    (hy : number? y.float = some (k : ℚ)) (hn : n < 2 ^ 64) (hk : k < 2 ^ 64) :
    permFunction.apply [x, y] = .ok (.ofFloat (permutations n k)) := by
  simp only [permFunction, natural_ok _ hx hn, natural_ok _ hy hk]
  rfl

theorem permFunction_apply_single {x : Value} (hx : number? x.float = some (n : ℚ))
    (hn : n < 2 ^ 64) : permFunction.apply [x] = .ok (.ofFloat (permutations n n)) := by
  simp only [permFunction, natural_ok _ hx hn]
  rfl

theorem factorialFunction_apply {x : Value} (hx : number? x.float = some (n : ℚ))
    (hn : n < 2 ^ 64) : factorialFunction.apply [x] = .ok (.ofFloat (factorial n)) :=
  ofNatural_apply _ _ hx hn

/-! ## Selections that fit -/

/-- Choosing the smaller part is choosing the larger one. -/
theorem choose_min (hk : k ≤ n) : n.choose (min k (n - k)) = n.choose k := by
  rcases min_choice k (n - k) with h | h
  · rw [h]
  · rw [h, Nat.choose_symm hk]

/-- Before each division there is a smaller selection times at most the number of factors. -/
theorem choosing_fits (hk : k ≤ n) (hfit : n.choose k * min k (n - k) < 2 ^ 128)
    (hi : i < min k (n - k)) : n.choose i * (n - i) < exactLimit := by
  have hmono : n.choose (i + 1) ≤ n.choose k :=
    choose_min hk ▸ (whole_choosing n k).mono hi le_rfl
  rw [exactLimit, Nat.one_shiftLeft]
  calc n.choose i * (n - i) = n.choose (i + 1) * (i + 1) := (Nat.choose_succ_right_eq n i).symm
    _ ≤ n.choose k * min k (n - k) := Nat.mul_le_mul hmono hi
    _ < 2 ^ 128 := hfit

/-- No product on the way is greater than the last one. -/
theorem falling_fits (hk : k ≤ n) (hfit : n.descFactorial k < 2 ^ 128) (hi : i < k) :
    n.descFactorial i * (n - i) < exactLimit := by
  rw [exactLimit, Nat.one_shiftLeft, Nat.mul_comm, ← Nat.descFactorial_succ]
  exact ((whole_falling hk).mono hi le_rfl).trans_lt hfit

/-- `comb` of integers is exact on the way if the result times the number of factors fits: every
product fits, every division leaves no remainder, and the result is rounded once. -/
theorem combinations_nearest (n k : ℕ) :
    (∀ x y : Value, number? x.float = some (n : ℚ) → number? y.float = some (k : ℚ) →
      n < 2 ^ 64 → k < 2 ^ 64 → combFunction.apply [x, y] = .ok (.ofFloat (combinations n k))) ∧
    (n < k → combinations n k = 0.0) ∧
    (k ≤ n → n.choose k * min k (n - k) < 2 ^ 128 →
      (∀ i ≤ min k (n - k), (Fractions.choosing n k).stageAfter i = .exact i (n.choose i)) ∧
      (∀ i < min k (n - k), n.choose i * (n - i) < exactLimit ∧ i + 1 ∣ n.choose i * (n - i)) ∧
      (Fractions.choosing n k).stageAfter (min k (n - k) + 1) = .done (combinations n k) ∧
      IsNearest (combinations n k) (n.choose k) ∧
      (n.choose k ≤ 2 ^ 53 → number? (combinations n k) = some (n.choose k : ℚ))) := by
  have hwhole := whole_choosing n k
  refine ⟨fun x y hx hy hn hk => combFunction_apply hx hy hn hk, fun h => if_pos h,
    fun hk hfit => ?_⟩
  have hfits : ∀ i < min k (n - k), n.choose i * (n - i) < exactLimit := fun i hi =>
    choosing_fits hk hfit hi
  obtain ⟨hdone, hproduct⟩ := hwhole.product_exact hfits
  have hvalue : combinations n k = Float.ofNat (n.choose k) := by
    rw [combinations_of_le hk, hproduct]
    exact congrArg Float.ofNat (choose_min hk)
  refine ⟨fun i hi => hwhole.stageAfter_exact hfits hi, fun i hi => ⟨hfits i hi, hwhole.dvd hi⟩,
    ?_, ?_, fun hsmall => ?_⟩
  · rw [combinations_of_le hk, hproduct]
    exact hdone
  · rw [hvalue]
    exact isNearest_ofNat _
  · rw [hvalue, number?_ofNat hsmall]

/-- Half of 60 items: the number of selections has 57 bits and is rounded. -/
theorem combinations_nearest_half :
    number? (Float.ofNat 60) = some ((60 : ℕ) : ℚ) ∧ number? (Float.ofNat 30) = some ((30 : ℕ) : ℚ) ∧
    Nat.choose 60 30 * min 30 (60 - 30) < 2 ^ 128 ∧
    combFunction.apply [.ofFloat (Float.ofNat 60), .ofFloat (Float.ofNat 30)] =
      .ok (.ofFloat (combinations 60 30)) ∧
    (Fractions.choosing 60 30).stageAfter 30 = .exact 30 118264581564861424 ∧
    IsNearest (combinations 60 30) 118264581564861424 ∧
    combinations 30 60 = 0.0 ∧
    number? (combinations 30 2) = some 435 := by
  have h₁ : number? (Float.ofNat 60) = some ((60 : ℕ) : ℚ) := number?_ofNat (by norm_num)
  have h₂ : number? (Float.ofNat 30) = some ((30 : ℕ) : ℚ) := number?_ofNat (by norm_num)
  have hchoose : Nat.choose 60 30 = 118264581564861424 := by norm_num [Nat.choose]
  have hpair : Nat.choose 30 2 = 435 := by norm_num [Nat.choose]
  have hfit : Nat.choose 60 30 * min 30 (60 - 30) < 2 ^ 128 := by
    rw [hchoose]
    norm_num
  obtain ⟨happly, -, hexact⟩ := combinations_nearest 60 30
  obtain ⟨hstages, -, -, hnearest, -⟩ := hexact (by norm_num) hfit
  have hsmall := ((combinations_nearest 30 2).2.2 (by norm_num)
    (by rw [hpair]; norm_num)).2.2.2.2 (by rw [hpair]; norm_num)
  have hstage := hstages 30 (by norm_num)
  rw [hchoose] at hnearest hstage
  rw [hpair] at hsmall
  exact ⟨h₁, h₂, hfit, happly _ _ h₁ h₂ (by norm_num) (by norm_num), hstage,
    by exact_mod_cast hnearest, (combinations_nearest 30 60).2.1 (by norm_num),
    by exact_mod_cast hsmall⟩

/-- One factor after the other is multiplied while the product of all of them fits. -/
theorem falling_exact (hk : k ≤ n) (hfit : n.descFactorial k < 2 ^ 128) :
    (∀ i ≤ k, (Fractions.falling n k).stageAfter i = .exact i (n.descFactorial i)) ∧
    (Fractions.falling n k).stageAfter (k + 1) = .done (permutations n k) ∧
    IsNearest (permutations n k) (n.descFactorial k) := by
  have hwhole := whole_falling hk
  have hfits : ∀ i < k, n.descFactorial i * (n - i) < exactLimit := fun i hi =>
    falling_fits hk hfit hi
  obtain ⟨hdone, hproduct⟩ := hwhole.product_exact hfits
  rw [permutations_of_le hk, hproduct]
  exact ⟨fun i hi => hwhole.stageAfter_exact hfits hi, hdone, isNearest_ofNat _⟩

/-- `perm` of integers multiplies one factor after the other while the result fits, and rounds
once. -/
theorem permutations_nearest (n k : ℕ) :
    (∀ x y : Value, number? x.float = some (n : ℚ) → number? y.float = some (k : ℚ) →
      n < 2 ^ 64 → k < 2 ^ 64 → permFunction.apply [x, y] = .ok (.ofFloat (permutations n k))) ∧
    (∀ x : Value, number? x.float = some (n : ℚ) → n < 2 ^ 64 →
      permFunction.apply [x] = .ok (.ofFloat (permutations n n))) ∧
    (n < k → permutations n k = 0.0) ∧
    (k ≤ n → n.factorial / (n - k).factorial < 2 ^ 128 →
      (∀ i ≤ k, (Fractions.falling n k).stageAfter i =
        .exact i (n.factorial / (n - i).factorial)) ∧
      (Fractions.falling n k).stageAfter (k + 1) = .done (permutations n k) ∧
      IsNearest (permutations n k) (n.factorial / (n - k).factorial : ℕ)) ∧
    permutations n 0 = 1.0 ∧
    (n.factorial < 2 ^ 128 → IsNearest (permutations n n) n.factorial) := by
  refine ⟨fun x y hx hy hn hk => permFunction_apply_pair hx hy hn hk,
    fun x hx hn => permFunction_apply_single hx hn, fun h => if_pos h, fun hk hfit => ?_, ?_,
    fun hfit => ?_⟩
  · rw [← Nat.descFactorial_eq_div hk] at hfit ⊢
    obtain ⟨hexact, hdone, hnearest⟩ := falling_exact hk hfit
    refine ⟨fun i hi => ?_, hdone, hnearest⟩
    rw [← Nat.descFactorial_eq_div (hi.trans hk)]
    exact hexact i hi
  · rw [permutations_of_le (Nat.zero_le n)]
    show Float.ofNat 1 = 1.0
    decide +kernel
  · rw [← Nat.descFactorial_self] at hfit ⊢
    exact (falling_exact le_rfl hfit).2.2

/-- 20 out of 23 items in order, and all of 23.  Both results are rounded. -/
theorem permutations_nearest_rounded :
    number? (Float.ofNat 23) = some ((23 : ℕ) : ℚ) ∧ number? (Float.ofNat 20) = some ((20 : ℕ) : ℚ) ∧
    Nat.factorial 23 / Nat.factorial (23 - 20) < 2 ^ 128 ∧
    permFunction.apply [.ofFloat (Float.ofNat 23), .ofFloat (Float.ofNat 20)] =
      .ok (.ofFloat (permutations 23 20)) ∧
    permFunction.apply [.ofFloat (Float.ofNat 23)] = .ok (.ofFloat (permutations 23 23)) ∧
    (Fractions.falling 23 20).stageAfter 20 = .exact 20 4308669456480829440000 ∧
    IsNearest (permutations 23 20) 4308669456480829440000 ∧
    IsNearest (permutations 23 23) (Nat.factorial 23) ∧
    permutations 20 23 = 0.0 := by
  have h₁ : number? (Float.ofNat 23) = some ((23 : ℕ) : ℚ) := number?_ofNat (by norm_num)
  have h₂ : number? (Float.ofNat 20) = some ((20 : ℕ) : ℚ) := number?_ofNat (by norm_num)
  have hvalue : Nat.factorial 23 / Nat.factorial (23 - 20) = 4308669456480829440000 := by
    decide +kernel
  have hfit : Nat.factorial 23 / Nat.factorial (23 - 20) < 2 ^ 128 := by
    rw [hvalue]
    norm_num
  obtain ⟨hpair, hsingle, -, hexact, -, hall⟩ := permutations_nearest 23 20
  obtain ⟨hstages, -, hnearest⟩ := hexact (by norm_num) hfit
  have hstage := hstages 20 le_rfl
  rw [hvalue] at hnearest hstage
  exact ⟨h₁, h₂, hfit, hpair _ _ h₁ h₂ (by norm_num) (by norm_num), hsingle _ h₁ (by norm_num),
    hstage, by exact_mod_cast hnearest, hall (by decide +kernel),
    (permutations_nearest 20 23).2.2.1 (by norm_num)⟩

/-! ## Selections that grow out of range -/

/-- From 171 factors on a selection in order is out of range. -/
theorem two_pow_le_descFactorial (hn : 171 ≤ n) : 2 ^ 1025 ≤ n.descFactorial 171 :=
  calc 2 ^ 1025 ≤ Nat.factorial 171 := by decide +kernel
    _ ≤ Nat.factorial 171 * n.choose 171 := Nat.le_mul_of_pos_right _ (Nat.choose_pos hn)
    _ = n.descFactorial 171 := (Nat.descFactorial_eq_factorial_mul_choose n 171).symm

/-- So is a selection without order of 1000 out of at least twice as many. -/
theorem two_pow_le_choose (hn : 2000 ≤ n) : 2 ^ 1025 ≤ n.choose 1000 := by
  have hcentral : 4 ^ 1000 ≤ 2 * 1000 * Nat.centralBinom 1000 :=
    Nat.four_pow_le_two_mul_self_mul_centralBinom 1000 (by norm_num)
  have hpow : 2 * 1000 * 2 ^ 1025 ≤ 4 ^ 1000 := by decide +kernel
  calc 2 ^ 1025 ≤ Nat.centralBinom 1000 :=
        Nat.le_of_mul_le_mul_left (hpow.trans hcentral) (by norm_num)
    _ ≤ n.choose 1000 := Nat.choose_le_choose 1000 hn

theorem stageAfter_falling {t : ℕ} (hn : n < 2 ^ 64) (hk : k ≤ n) (ht : 173 ≤ t) :
    (Fractions.falling n k).stageAfter t = .done (Fractions.falling n k).product :=
  (whole_falling hk).stageAfter_of_le (words_falling hn) (by norm_num)
    (fun hle => two_pow_le_descFactorial (hle.trans hk)) ht

theorem stageAfter_choosing {t : ℕ} (hn : n < 2 ^ 64) (ht : 1002 ≤ t) :
    (Fractions.choosing n k).stageAfter t = .done (Fractions.choosing n k).product := by
  refine (whole_choosing n k).stageAfter_of_le (words_choosing hn) (by norm_num) ?_ ht
  intro hle
  -- the smaller part is at most half of all
  have : 1000 ≤ min k (n - k) := hle
  exact two_pow_le_choose (by omega)

/-- The product of 171 or more factors down to 1 is infinite. -/
theorem fallingProduct_eq_infinity (hn : n < 2 ^ 64) (hlarge : 171 ≤ n) :
    fallingProduct n n = infinity :=
  (whole_falling le_rfl).product_eq_infinity (words_falling hn) (by norm_num) hlarge
    (two_pow_le_descFactorial hlarge)

/-- All of `n` in order are `n!`, also where that is out of range. -/
theorem factorial_eq_permutations (hn : n < 2 ^ 64) : factorial n = permutations n n := by
  rw [factorial, permutations, if_neg (lt_irrefl n)]
  split_ifs with hlarge
  · exact (fallingProduct_eq_infinity hn (by omega)).symm
  · rfl

/-- `factorial` and `perm` of one value, or of the same value twice, agree: they have the same
value, infinity from 171 on, or refuse the argument for the same reason. -/
theorem factorial_eq_perm (v : Value) :
    (∀ n : ℕ, number? v.float = some (n : ℚ) → n < 2 ^ 64 →
      factorialFunction.apply [v] = .ok (.ofFloat (factorial n)) ∧
      permFunction.apply [v] = factorialFunction.apply [v] ∧
      permFunction.apply [v, v] = factorialFunction.apply [v] ∧
      (170 < n → factorial n = infinity)) ∧
    ((∀ n : ℕ, n < 2 ^ 64 → number? v.float ≠ some (n : ℚ)) → ∃ error : String → CallError,
      ((error = fun name => .notIntegral name v.float) ∨
        ∃ fault, error = fun name => .domain name fault) ∧
      factorialFunction.apply [v] = .error (error "factorial") ∧
      permFunction.apply [v] = .error (error "perm")) := by
  refine ⟨fun n h hn => ?_, fun h => ?_⟩
  · rw [factorialFunction_apply h hn, permFunction_apply_pair h h hn hn,
      permFunction_apply_single h hn, ← factorial_eq_permutations hn]
    exact ⟨rfl, rfl, rfl, fun hlarge => if_pos hlarge⟩
  · rcases natural_cases v.float with ⟨n, hnumber, hn⟩ | ⟨error, hkind, herror⟩
    · exact absurd hnumber (h n hn)
    · refine ⟨error, hkind, ?_, ?_⟩
      · rw [factorialFunction, Function.ofNatural]
        simp only [herror]
        rfl
      · simp only [permFunction, herror]
        rfl

/-- Infinity from 171 on, and the same refusal of one half. -/
theorem factorial_eq_perm_large :
    number? (Float.ofNat 171) = some ((171 : ℕ) : ℚ) ∧
    factorialFunction.apply [.ofFloat (Float.ofNat 171)] = .ok (.ofFloat infinity) ∧
    permFunction.apply [.ofFloat (Float.ofNat 171)] = .ok (.ofFloat infinity) ∧
    permFunction.apply [.ofFloat (Float.ofNat 171), .ofFloat (Float.ofNat 171)] =
      .ok (.ofFloat infinity) ∧
    (∀ n : ℕ, n < 2 ^ 64 → number? 0.5 ≠ some (n : ℚ)) ∧
    ∃ error : String → CallError, factorialFunction.apply [.ofFloat 0.5] = .error (error "factorial") ∧
      permFunction.apply [.ofFloat 0.5] = .error (error "perm") := by
  have h : number? (Float.ofNat 171) = some ((171 : ℕ) : ℚ) := number?_ofNat (by norm_num)
  have hhalf : ∀ n : ℕ, n < 2 ^ 64 → number? 0.5 ≠ some (n : ℚ) := fun n _ => by
    have hinteger := not_integer_half n
    rwa [Int.cast_natCast] at hinteger
  obtain ⟨hfactorial, hsingle, hpair, hinfinity⟩ :=
    (factorial_eq_perm (.ofFloat (Float.ofNat 171))).1 171 h (by norm_num)
  obtain ⟨error, -, herror⟩ := (factorial_eq_perm (.ofFloat 0.5)).2 hhalf
  rw [hinfinity (by norm_num)] at hfactorial
  rw [hfactorial] at hsingle hpair
  exact ⟨h, hfactorial, hsingle, hpair, hhalf, error, herror⟩

/-! ## How long a selection takes -/

/-- The factors of a selection in order are the integers from `n` down. -/
theorem fraction_falling {j : ℕ} (hn : n < 2 ^ 64) (hj : j < n) :
    (Fractions.falling n k).fraction j = Float.ofNat (n - j) := by
  have hrange : n - j < 2 ^ 1023 := by
    have hpow : 2 ^ 64 ≤ 2 ^ 1023 := pow_le_pow_right₀ one_le_two (by norm_num)
    omega
  obtain ⟨q, hq, hone, -⟩ := exists_number_ofNat (Nat.sub_pos_of_lt hj) hrange
  have hpos : 0 < q := one_pos.trans_le hone
  have hdenominator : number? (Float.ofNat 1) = some ((1 : ℕ) : ℚ) := number?_ofNat (by norm_num)
  show Float.ofNat (n - j) / Float.ofNat 1 = _
  rw [div_of_pos hq hdenominator hpos (by norm_num), Nat.cast_one, div_one, ← eq_ofMagnitude hq hpos]

/-- Selections leave their loops within 1100 passes, and what they leave out would not change the
result. -/
theorem selections_stop_early (hn : n < 2 ^ 64) (hk : k ≤ n) :
    (Fractions.falling n k).StopsEarly (fallingProduct n k) ∧
    (Fractions.choosing n k).StopsEarly (combinations n k) ∧
    ∀ j < k, (Fractions.falling n k).fraction j = Float.ofNat (n - j) := by
  refine ⟨?_, ?_, fun j hj => fraction_falling hn (hj.trans_le hk)⟩
  · exact (whole_falling hk).stopsEarly (words_falling hn) fun t ht =>
      stageAfter_falling hn hk (le_trans (by norm_num) ht)
  · rw [combinations_of_le hk]
    exact (whole_choosing n k).stopsEarly (words_choosing hn) fun t ht =>
      stageAfter_choosing hn (le_trans (by norm_num) ht)

/-- The largest selection of all: half of the items of a word. -/
theorem selections_stop_early_half :
    2 ^ 64 - 1 < 2 ^ 64 ∧ 2 ^ 63 ≤ 2 ^ 64 - 1 ∧
    (Fractions.falling (2 ^ 64 - 1) (2 ^ 63)).StopsEarly (fallingProduct (2 ^ 64 - 1) (2 ^ 63)) ∧
    (Fractions.choosing (2 ^ 64 - 1) (2 ^ 63)).StopsEarly (combinations (2 ^ 64 - 1) (2 ^ 63)) := by
  have hn : 2 ^ 64 - 1 < 2 ^ 64 := by norm_num
  have hk : 2 ^ 63 ≤ 2 ^ 64 - 1 := by norm_num
  obtain ⟨hfalling, hchoosing, -⟩ := selections_stop_early hn hk
  exact ⟨hn, hk, hfalling, hchoosing⟩

end Calculator.Counting
