import Calculator.Proofs.Binary64.SquareRoot
import Calculator.Proofs.Checked.Basic

/-!
# Functions of integers on machine words

Arguments are words of 64 bits, except for the magnitudes of divisors and multiples, and exact
products are words of 128 bits.

Results:
* `fractionProduct_eq`: a product whose factors do not fault does not fault, since it goes on in
  binary64 where a word of 128 bits is too small.
* `raiseRoot_eq`, `lowerRoot_eq`, `integerRoot_eq`: the squares that an integral root is compared
  with are words of 128 bits.
* `euclid_eq`: no remainder is taken by zero.
* `commonMultiple_eq`: no divisor of a multiple is zero.
-/

namespace Calculator.Checked

open Binary64 CheckedFunction

/-! ## Products -/

/-- Multiplies `x` by the factors with indices `j`, `j + 1`, … while the product is finite. -/
def productFrom (factor : ℕ → Checked Float) : (steps : ℕ) → (j : ℕ) → (x : Float) → Checked Float
  | 0, _, x => .ok x
  | steps + 1, j, x => do
    let y ← factor j
    let product := x * y
    if product.isInf then return product
    else
      let next ← add 64 j 1
      productFrom factor steps next product

/-- Multiplies `exact` by fractions, in words of 128 bits while the products fit. -/
def fractionProduct (numerator denominator : ℕ → Checked ℕ) :
    (steps : ℕ) → (i : ℕ) → (exact : ℕ) → Checked Float
  | 0, _, exact => .ok (Float.ofNat exact)
  | steps + 1, i, exact => do
    let factor ← numerator i
    match mul? 128 exact factor with
    | some product =>
      let divisor ← denominator i
      let quotient ← div product divisor
      let next ← add 64 i 1
      fractionProduct numerator denominator steps next quotient
    | none =>
      productFrom (fun j => do
        let factor ← numerator j
        let divisor ← denominator j
        return Float.ofNat factor / Float.ofNat divisor) (steps + 1) i (Float.ofNat exact)

theorem productFrom_eq {factor : ℕ → Checked Float} {factor' : ℕ → Float} {steps j : ℕ}
    (hfactor : ∀ i, j ≤ i → i < j + steps → factor i = .ok (factor' i)) (hj : j + steps < 2 ^ 64)
    (x : Float) : productFrom factor steps j x = .ok (Counting.productFrom factor' steps j x) := by
  induction steps generalizing j x with
  | zero => rfl
  | succ steps ih =>
    rw [productFrom, Counting.productFrom, hfactor j le_rfl (by omega), ok_bind]
    dsimp only
    split_ifs
    · rfl
    · rw [add_ok (by omega), ok_bind]
      exact ih (fun i hi hi' => hfactor i (by omega) (by omega)) (by omega) _

/-- A product of fractions faults only if a factor does. -/
theorem fractionProduct_eq {numerator denominator : ℕ → Checked ℕ}
    {numerator' denominator' : ℕ → ℕ} {steps i : ℕ}
    (hnumerator : ∀ j, i ≤ j → j < i + steps → numerator j = .ok (numerator' j))
    (hdenominator : ∀ j, i ≤ j → j < i + steps →
      denominator j = .ok (denominator' j) ∧ denominator' j ≠ 0)
    (hi : i + steps < 2 ^ 64) (exact : ℕ) :
    fractionProduct numerator denominator steps i exact =
      .ok (Counting.fractionProduct numerator' denominator' steps i exact) := by
  induction steps generalizing i exact with
  | zero => rfl
  | succ steps ih =>
    have hd := hdenominator i le_rfl (by omega)
    rw [fractionProduct, Counting.fractionProduct, hnumerator i le_rfl (by omega), ok_bind, mul?,
      Counting.exactLimit, Nat.one_shiftLeft]
    split_ifs
    · dsimp only
      rw [hd.1, ok_bind, div_ok hd.2, ok_bind, add_ok (by omega), ok_bind]
      exact ih (fun j hj hj' => hnumerator j (by omega) (by omega))
        (fun j hj hj' => hdenominator j (by omega) (by omega)) (by omega) _
    · dsimp only
      refine productFrom_eq (fun j hj hj' => ?_) hi _
      rw [hnumerator j hj hj', ok_bind, (hdenominator j hj hj').1]
      rfl

/-- `n · (n - 1) · … · (n - k + 1)`, for `k ≤ n`. -/
def fallingProduct (n k : ℕ) : Checked Float :=
  fractionProduct (fun i => sub n i) (fun _ => .ok 1) k 0 1

theorem fallingProduct_eq {n k : ℕ} (hn : n < 2 ^ 64) (hk : k ≤ n) :
    fallingProduct n k = .ok (Counting.fallingProduct n k) :=
  fractionProduct_eq (fun j _ hj => sub_ok (by omega)) (fun _ _ _ => ⟨rfl, one_ne_zero⟩)
    (by omega) 1

/-- `n!` -/
def factorial (n : ℕ) : Checked Float :=
  if 170 < n then .ok infinity else fallingProduct n n

theorem factorial_eq (n : ℕ) : factorial n = .ok (Counting.factorial n) := by
  unfold factorial Counting.factorial
  split_ifs
  · rfl
  · exact fallingProduct_eq (by omega) le_rfl

/-- The number of ways to choose `k` out of `n` in order. -/
def permutations (n k : ℕ) : Checked Float :=
  if n < k then .ok 0.0 else fallingProduct n k

theorem permutations_eq {n : ℕ} (hn : n < 2 ^ 64) (k : ℕ) :
    permutations n k = .ok (Counting.permutations n k) := by
  unfold permutations Counting.permutations
  split_ifs with h
  · rfl
  · exact fallingProduct_eq hn (not_lt.mp h)

/-- The number of ways to choose `k` out of `n` without order. -/
def combinations (n k : ℕ) : Checked Float :=
  if n < k then .ok 0.0
  else do
    let others ← sub n k
    fractionProduct (fun i => sub n i) (fun i => add 64 i 1) (min k others) 0 1

theorem combinations_eq {n : ℕ} (hn : n < 2 ^ 64) (k : ℕ) :
    combinations n k = .ok (Counting.combinations n k) := by
  unfold combinations Counting.combinations
  split_ifs with h
  · rfl
  · rw [sub_ok (not_lt.mp h), ok_bind]
    exact fractionProduct_eq (fun j _ hj => sub_ok (by omega))
      (fun j _ hj => ⟨add_ok (by omega), Nat.succ_ne_zero j⟩) (by omega) 1

/-! ## Roots -/

/-- The first number from `root` down whose square is at most `n`. -/
def lowerRoot (n root : ℕ) : Checked ℕ :=
  match mul 128 root root with
  | .error stop => .error stop
  | .ok square =>
    if n < square then
      match _hbelow : sub root 1 with
      | .error stop => .error stop
      | .ok below => lowerRoot n below
    else .ok root
termination_by root
decreasing_by
  have := eq_of_require _hbelow
  omega

/-- The last number from `root` up whose square is at most `n`, if that of `root` is. -/
def raiseRoot (n root : ℕ) : Checked ℕ :=
  match _hnext : add 128 root 1 with
  | .error stop => .error stop
  | .ok next =>
    match mul 128 next next with
    | .error stop => .error stop
    | .ok square => if square ≤ n then raiseRoot n next else .ok root
termination_by 2 ^ 128 - root
decreasing_by
  have := eq_of_require _hnext
  omega

/-- The square of half a word is a word. -/
theorem square_lt {root : ℕ} (h : root < 2 ^ 64) : root * root < 2 ^ 128 :=
  calc root * root < 2 ^ 64 * 2 ^ 64 := Nat.mul_lt_mul'' h h
    _ = 2 ^ 128 := by norm_num

theorem lowerRoot_eq {n root : ℕ} (h : root < 2 ^ 64) :
    lowerRoot n root = .ok (Counting.lowerRoot n root) := by
  induction root with
  | zero =>
    rw [lowerRoot, mul_ok (by norm_num)]
    rfl
  | succ root ih =>
    have hbelow : sub (root + 1) 1 = .ok root := sub_ok (Nat.le_add_left 1 root)
    rw [lowerRoot, Counting.lowerRoot, mul_ok (square_lt h)]
    dsimp only
    split_ifs
    · split
      · next hstop => exact absurd (hstop.symm.trans hbelow) nofun
      · next below heq =>
        obtain rfl : below = root := Except.ok.inj (heq.symm.trans hbelow)
        exact ih (by omega)
    · rfl

theorem lowerRoot_square_le (n root : ℕ) :
    Counting.lowerRoot n root * Counting.lowerRoot n root ≤ n := by
  induction root with
  | zero => exact Nat.zero_le n
  | succ root ih =>
    rw [Counting.lowerRoot]
    split_ifs with h
    · exact ih
    · exact not_lt.mp h

/-- One step up, from below half a word. -/
theorem raiseRoot_step {n root : ℕ} (h : root + 1 < 2 ^ 64) : raiseRoot n root =
    if (root + 1) * (root + 1) ≤ n then raiseRoot n (root + 1) else .ok root := by
  have hnext : add 128 root 1 = .ok (root + 1) := add_ok (by omega)
  rw [raiseRoot]
  split
  · next hstop => exact absurd (hstop.symm.trans hnext) nofun
  · next next heq =>
    obtain rfl : next = root + 1 := Except.ok.inj (heq.symm.trans hnext)
    rw [mul_ok (square_lt h)]

/-- A number whose square is a word of 64 bits is far below half a word of 128 bits. -/
theorem lt_of_square_le {n root : ℕ} (hn : n < 2 ^ 64) (h : root * root ≤ n) :
    root + 1 < 2 ^ 64 := by
  by_contra hlarge
  have hsquare : (2 ^ 64 - 1) * (2 ^ 64 - 1) ≤ root * root :=
    Nat.mul_le_mul (by omega) (by omega)
  omega

theorem raiseRoot_eq {n root : ℕ} (hn : n < 2 ^ 64) (h : root * root ≤ n) :
    raiseRoot n root = .ok (Counting.raiseRoot n root) := by
  induction root using Counting.raiseRoot.induct n with
  | case1 root hle ih =>
    rw [raiseRoot_step (lt_of_square_le hn h), if_pos hle, Counting.raiseRoot, if_pos hle]
    exact ih hle
  | case2 root hgt =>
    rw [raiseRoot_step (lt_of_square_le hn h), if_neg hgt, Counting.raiseRoot, if_neg hgt]

/-- The integral part of the square root of `n`, from an estimate in binary64. -/
def integerRoot (n : ℕ) : Checked Float := do
  let estimate := saturated 128 (Float.ofNat n).sqrt
  let root ← lowerRoot n estimate
  let root ← raiseRoot n root
  return Float.ofNat root

/-- The estimate for a word of 64 bits is far below the bound of words. -/
theorem estimate_le {n : ℕ} (hn : n < 2 ^ 64) : wholePart (Float.ofNat n).sqrt ≤ 2 ^ 33 := by
  obtain ⟨m, k, hroot, hle⟩ := exists_datum_sqrt_ofNat hn
  exact_mod_cast le_trans (wholePart_le hroot) hle

theorem integerRoot_eq {n : ℕ} (hn : n < 2 ^ 64) :
    integerRoot n = .ok (Counting.integerRoot n) := by
  obtain ⟨m, k, hroot, -⟩ := exists_datum_sqrt_ofNat hn
  have hwhole := estimate_le hn
  have hestimate : saturated 128 (Float.ofNat n).sqrt = wholePart (Float.ofNat n).sqrt := by
    rw [saturated, hroot]
    show min _ _ = _
    omega
  rw [integerRoot, hestimate, lowerRoot_eq (by omega), ok_bind,
    raiseRoot_eq hn (lowerRoot_square_le n _), ok_bind]
  rfl

/-! ## Divisors and multiples -/

/-- The last divisor of a chain of divisions with remainder. -/
def euclid (a b : ℕ) : Checked ℕ :=
  if b = 0 then .ok a
  else
    match _hrest : mod a b with
    | .error stop => .error stop
    | .ok rest => euclid b rest
termination_by b
decreasing_by
  obtain ⟨hb, rfl⟩ := eq_of_require _hrest
  exact Nat.mod_lt a (Nat.pos_of_ne_zero hb)

/-- No remainder is taken by zero. -/
theorem euclid_eq (a b : ℕ) : euclid a b = .ok (Counting.euclid a b) := by
  induction b using Nat.strongRecOn generalizing a with
  | ind b ih =>
    rw [euclid, Counting.euclid]
    split_ifs with hb
    · rfl
    · split
      · next hstop => cases hstop.symm.trans (mod_ok hb)
      · next rest heq =>
        obtain rfl : rest = a % b := Except.ok.inj (heq.symm.trans (mod_ok hb))
        exact ih (a % b) (Nat.mod_lt a (Nat.pos_of_ne_zero hb)) b

/-- The greatest common divisor of the magnitudes of some values and a number known before. -/
def commonDivisor : List Float → ℕ → Checked ℕ
  | [], divisor => .ok divisor
  | x :: xs, divisor => do
    let m ← magnitude "gcd" x
    let divisor ← euclid divisor m
    commonDivisor xs divisor

theorem commonDivisor_eq (xs : List Float) (divisor : ℕ) :
    commonDivisor xs divisor = answer (Counting.commonDivisor xs divisor) := by
  induction xs generalizing divisor with
  | nil => rfl
  | cons x xs ih =>
    rw [commonDivisor, Counting.commonDivisor, answer_bind, magnitude_eq]
    congr 1
    funext m
    rw [euclid_eq, ok_bind]
    exact ih _

/-- The least common multiple of some numbers and one known before. -/
def commonMultiple : List ℕ → ℕ → Checked ℕ
  | [], multiple => .ok multiple
  | m :: ms, multiple => do
    let divisor ← euclid multiple m
    let quotient ← div multiple divisor
    match mul? 128 quotient m with
    | some next => commonMultiple ms next
    | none => .error (.refused (.domain "lcm" .resultTooLarge))

theorem commonMultiple_eq {ms : List ℕ} (h : 0 ∉ ms) (multiple : ℕ) :
    commonMultiple ms multiple = answer (Counting.commonMultiple ms multiple) := by
  induction ms generalizing multiple with
  | nil => rfl
  | cons m ms ih =>
    rw [List.mem_cons, not_or] at h
    have hdivisor : Counting.euclid multiple m ≠ 0 := fun heq =>
      h.1 (Nat.gcd_eq_zero_iff.mp (Counting.euclid_eq_gcd multiple m ▸ heq)).2.symm
    rw [commonMultiple, Counting.commonMultiple, euclid_eq, ok_bind, div_ok hdivisor, ok_bind,
      mul?, Counting.exactLimit, Nat.one_shiftLeft]
    split_ifs
    · exact ih h.2 _
    · rfl

/-! ## The functions -/

/-- `factorial(n)` -/
def factorialFunction : CheckedFunction :=
  unary "factorial" fun x => do
    let n ← natural "factorial" x.float
    let y ← factorial n
    return .ofFloat y

/-- `comb(n, k)` -/
def combFunction : CheckedFunction :=
  binary "comb" fun x y => do
    let n ← natural "comb" x.float
    let k ← natural "comb" y.float
    let z ← combinations n k
    return .ofFloat z

/-- `perm(n)` and `perm(n, k)`, which takes the arguments apart by their number. -/
def permFunction : CheckedFunction where
  name := "perm"
  call
    | [x] => do
      let n ← natural "perm" x.float
      let y ← permutations n n
      return .ofFloat y
    | [x, y] => do
      let n ← natural "perm" x.float
      let k ← natural "perm" y.float
      let z ← permutations n k
      return .ofFloat z
    | args => answer (Function.wrongCount "perm" (.between 1 2) args)

/-- `gcd(…)` -/
def gcdFunction : CheckedFunction where
  name := "gcd"
  call args := do
    let divisor ← commonDivisor (args.map Value.float) 0
    return .ofFloat (Float.ofNat divisor)

/-- `lcm(…)` -/
def lcmFunction : CheckedFunction where
  name := "lcm"
  call args := do
    let magnitudes ← (args.map Value.float).mapM (magnitude "lcm")
    if magnitudes.contains 0 then return .ofFloat 0.0
    else
      let multiple ← commonMultiple magnitudes 1
      return .ofFloat (Float.ofNat multiple)

/-- `isqrt(n)` -/
def isqrtFunction : CheckedFunction :=
  unary "isqrt" fun x => do
    let n ← natural "isqrt" x.float
    let y ← integerRoot n
    return .ofFloat y

theorem implements_factorial : factorialFunction.Implements Counting.factorialFunction :=
  implements_unary (Function.takesExactly_ofNatural _ _) fun _ => natural_bind fun n _ => by
    rw [factorial_eq]
    rfl

theorem implements_comb : combFunction.Implements Counting.combFunction :=
  implements_binary (Function.takesExactly_ofNaturals _ _) fun _ _ =>
    natural_bind fun n hn => natural_bind fun k _ => by
      rw [combinations_eq hn]
      rfl

theorem implements_perm : permFunction.Implements Counting.permFunction where
  name_eq := rfl
  call_eq
    | [] => rfl
    | [_] => natural_bind fun n hn => by
      rw [permutations_eq hn]
      rfl
    | [_, _] => natural_bind fun n hn => natural_bind fun k _ => by
      rw [permutations_eq hn]
      rfl
    | _ :: _ :: _ :: _ => rfl

theorem implements_gcd : gcdFunction.Implements Counting.gcdFunction where
  name_eq := rfl
  call_eq args := by
    show (commonDivisor (args.map Value.float) 0 >>= fun _ => _) =
      answer (Counting.commonDivisor (args.map Value.float) 0 >>= fun _ => _)
    rw [answer_bind, commonDivisor_eq]
    rfl

theorem implements_lcm : lcmFunction.Implements Counting.lcmFunction where
  name_eq := rfl
  call_eq args := by
    show ((args.map Value.float).mapM (magnitude "lcm") >>= fun magnitudes => _) =
      answer ((args.map Value.float).mapM (Function.magnitude "lcm") >>= fun magnitudes => _)
    rw [answer_bind, mapM_answer (magnitude_eq "lcm")]
    congr 1
    funext magnitudes
    by_cases hzero : magnitudes.contains 0 = true
    · rw [if_pos hzero, if_pos hzero]
      rfl
    · have hmem : 0 ∉ magnitudes := fun h => hzero (List.contains_iff_mem.mpr h)
      rw [if_neg hzero, if_neg hzero, commonMultiple_eq hmem, answer_bind]
      rfl

theorem implements_isqrt : isqrtFunction.Implements Counting.isqrtFunction :=
  implements_unary (Function.takesExactly_ofNatural _ _) fun _ => natural_bind fun n hn => by
    rw [integerRoot_eq hn]
    rfl

end Calculator.Checked
