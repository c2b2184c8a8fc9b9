import Calculator.Function.Elementary
import Calculator.Proofs.Binary64.Exact

/-!
# The norm of special coordinates

The norm of a list is taken one coordinate at a time, and of the coordinates that are behind it
already, a step knows their norm only.  An infinite coordinate makes it infinity for good.  A NaN
makes it a NaN that an infinite coordinate alone can end, unless the norm of the numbers in front of
the NaN is out of range: then it is infinity already, and the NaN is not seen.

Results:
* `NormsPairs`: how the norm of two coordinates depends on their kinds.
* `normsPairs_hypotenuse`: `hypotenuse` is such a norm.
* `foldl_of_isInf`, `foldl_of_isNaN`, `foldl_of_numbers`: the norms of lists, step by step.
* `normWith_cases`: the norms of all lists, for any such norm of two coordinates.
* `hypot_special`: `hypot` of all lists of coordinates.
* `hypot_overflow_hides_nan`: the norm of the numbers in front of a NaN matters.
-/

namespace Calculator.Elementary

open Binary64

/-! ## Two coordinates -/

/-- Whether a value is infinity or a number that is not negative. -/
def IsLength (x : Float) : Prop := x = infinity ∨ ∃ q, number? x = some q ∧ 0 ≤ q

/-- How the norm of two coordinates depends on their kinds: an infinite one decides before a NaN,
and a NaN before a number. -/
structure NormsPairs (pair : Float → Float → Float) : Prop where
  of_isInf : ∀ {x y}, x.isInf = true ∨ y.isInf = true → pair x y = infinity
  of_isNaN : ∀ {x y}, x.isInf = false → y.isInf = false → x.isNaN = true ∨ y.isNaN = true →
    (pair x y).isNaN = true
  of_numbers : ∀ {x y p q}, number? x = some p → number? y = some q → IsLength (pair x y)

theorem isNaN_nan : nan.isNaN = true := rfl

theorem isInf_of_isNaN {x : Float} (h : x.isNaN = true) : x.isInf = false := by
  rw [isInf_eq, datum_of_isNaN h]
  rfl

theorem isLength_ofMagnitude {v : ℚ} (hv : 0 ≤ v) : IsLength (ofMagnitude false v) := by
  rcases nearestDatum_cases false v with h | ⟨m, k, h⟩
  · exact .inl (datum_injective (by rw [datum_ofMagnitude false hv, h, datum_infinity]))
  · exact .inr ⟨_, number?_of_positive ((datum_ofMagnitude false hv).trans h),
      magnitude_nonneg m k⟩

theorem IsLength.isNaN {x : Float} (h : IsLength x) : x.isNaN = false := by
  rcases h with rfl | ⟨q, hq, -⟩
  · exact isNaN_infinity
  · exact isNaN_of_number hq

/-- An integer times a power of two is rounded once. -/
theorem ofDyadic_eq (n : ℕ) (k : ℤ) : ofDyadic n k = ofMagnitude false (n * 2 ^ k) := by
  unfold ofDyadic
  split_ifs with hk
  · rw [ofNat_eq, Nat.shiftLeft_eq, two_zpow_toNat k, Int.toNat_of_nonpos (by omega : -k ≤ 0)]
    push_cast
    ring_nf
  · obtain ⟨p, hp⟩ : ∃ p, (-k).toNat = p := ⟨_, rfl⟩
    have hten : (10 : ℚ) ^ p = 5 ^ p * 2 ^ p := by rw [← mul_pow]; norm_num
    have hfive : (0 : ℚ) < 5 ^ p := by positivity
    rw [ofScientific_eq, two_zpow_toNat k, Int.toNat_of_nonpos (by omega : k ≤ 0), hp, if_pos rfl,
      zpow_neg, zpow_natCast, hten]
    push_cast [Nat.pow_eq]
    congr 1
    field_simp

/-- The norm of two coordinates is rounded from an exact root, and other kinds are told apart
first. -/
theorem normsPairs_hypotenuse : NormsPairs hypotenuse where
  of_isInf := by
    rintro x y (h | h)
    · obtain ⟨b, hd⟩ := exists_datum_of_isInf h
      rw [hypotenuse, hd]
    · obtain ⟨b, hd⟩ := exists_datum_of_isInf h
      rw [hypotenuse, hd]
      cases datum x <;> rfl
  of_isNaN := by
    intro x y hx hy h
    rw [isInf_eq] at hx hy
    rcases h with h | h
    · rw [hypotenuse, datum_of_isNaN h]
      cases hd : datum y with
      | nan | finite => exact isNaN_nan
      | infinity =>
        rw [hd] at hy
        cases hy
    · rw [hypotenuse, datum_of_isNaN h]
      cases hd : datum x with
      | nan | finite => exact isNaN_nan
      | infinity =>
        rw [hd] at hx
        cases hx
  of_numbers := by
    intro x y p q hx hy
    obtain ⟨a, m, j, hdx, -⟩ := exists_datum hx
    obtain ⟨b, n, k, hdy, -⟩ := exists_datum hy
    rw [hypotenuse, hdx, hdy]
    dsimp only [rootOfDyadic]
    rw [ofDyadic_eq]
    exact isLength_ofMagnitude (magnitude_nonneg _ _)

/-! ## Lists of coordinates -/

namespace NormsPairs

variable {pair : Float → Float → Float} {xs : List Float} {x : Float}

/-- Infinity stays what it is. -/
theorem foldl_infinity (h : NormsPairs pair) (xs : List Float) :
    xs.foldl pair infinity = infinity := by
  induction xs with
  | nil => rfl
  | cons x xs ih => rw [List.foldl_cons, h.of_isInf (.inl isInf_infinity), ih]

/-- An infinite coordinate makes a norm infinity, whatever stands around it. -/
theorem foldl_of_isInf (h : NormsPairs pair) (hxs : ∃ y ∈ xs, y.isInf = true) (x : Float) :
    xs.foldl pair x = infinity := by
  induction xs generalizing x with
  | nil => simp at hxs
  | cons y xs ih =>
    rw [List.foldl_cons]
    rcases (List.exists_mem_cons_iff _ y xs).mp hxs with hy | hrest
    · rw [h.of_isInf (.inr hy), h.foldl_infinity]
    · exact ih hrest _

/-- A NaN stays one while no coordinate is infinite. -/
theorem foldl_of_isNaN (h : NormsPairs pair) (hxs : ∀ y ∈ xs, y.isInf = false)
    (hx : x.isNaN = true) : (xs.foldl pair x).isNaN = true := by
  induction xs generalizing x with
  | nil => exact hx
  | cons y xs ih =>
    rw [List.forall_mem_cons] at hxs
    exact ih hxs.2 (h.of_isNaN (isInf_of_isNaN hx) hxs.1 (.inl hx))

/-- The norm of numbers is a number, or out of range. -/
theorem foldl_of_numbers (h : NormsPairs pair)
    (hxs : ∀ y ∈ xs, y.isInf = false ∧ y.isNaN = false) (hx : IsLength x) :
    IsLength (xs.foldl pair x) := by
  induction xs generalizing x with
  | nil => exact hx
  | cons y xs ih =>
    rw [List.forall_mem_cons] at hxs
    obtain ⟨⟨hinf, hnan⟩, hrest⟩ := hxs
    refine ih hrest ?_
    rcases hx with rfl | ⟨p, hp, -⟩
    · exact .inl (h.of_isInf (.inl isInf_infinity))
    · obtain ⟨b, n, k, hd⟩ := exists_datum_of_finite hnan hinf
      exact h.of_numbers hp (number?_of_datum hd)

/-- Behind numbers, a NaN makes a norm a NaN unless theirs is out of range. -/
theorem foldl_append_isNaN (h : NormsPairs pair) {ys : List Float} {y : Float}
    (hxs : IsLength (xs.foldl pair x)) (hy : y.isNaN = true)
    (hys : ∀ z ∈ ys, z.isInf = false) :
    (xs.foldl pair x = infinity → (xs ++ y :: ys).foldl pair x = infinity) ∧
      (xs.foldl pair x ≠ infinity → ((xs ++ y :: ys).foldl pair x).isNaN = true) := by
  rw [List.foldl_append, List.foldl_cons]
  refine ⟨fun hinf => ?_, fun hne => ?_⟩
  · rw [hinf, h.of_isInf (.inl isInf_infinity), h.foldl_infinity]
  · obtain ⟨q, hq, -⟩ := hxs.resolve_left hne
    exact h.foldl_of_isNaN hys
      (h.of_isNaN (isInf_of_number hq) (isInf_of_isNaN hy) (.inr hy))

end NormsPairs

/-! ## All lists -/

/-- The norm of a list, with a norm of two coordinates that is given. -/
def normWith (pair : Float → Float → Float) (xs : List Float) : Float := xs.foldl pair 0.0

theorem norm_eq_normWith : norm = normWith hypotenuse := rfl

/-- The coordinates in front of the first NaN. -/
def beforeNaN (xs : List Float) : List Float := xs.takeWhile fun x => !x.isNaN

/-- A list with a NaN is cut in front of the first one. -/
theorem exists_beforeNaN {xs : List Float} (h : ∃ x ∈ xs, x.isNaN = true) :
    ∃ y ys, xs = beforeNaN xs ++ y :: ys ∧ y.isNaN = true := by
  induction xs with
  | nil => simp at h
  | cons x xs ih =>
    cases hx : x.isNaN with
    | true => exact ⟨x, xs, by rw [beforeNaN, List.takeWhile_cons, hx]; rfl, hx⟩
    | false =>
      have hrest : ∃ x ∈ xs, x.isNaN = true := by
        refine ((List.exists_mem_cons_iff _ x xs).mp h).resolve_left ?_
        rw [hx]
        exact Bool.false_ne_true
      obtain ⟨y, ys, hsplit, hy⟩ := ih hrest
      refine ⟨y, ys, ?_, hy⟩
      rw [beforeNaN, List.takeWhile_cons, hx]
      exact congrArg (x :: ·) hsplit

theorem isNaN_of_mem_beforeNaN {xs : List Float} {x : Float} (h : x ∈ beforeNaN xs) :
    x.isNaN = false := by
  simpa using List.mem_takeWhile_imp h

/-- The norm of coordinates of any kinds, in any order. -/
theorem NormsPairs.normWith_cases {pair : Float → Float → Float} (h : NormsPairs pair)
    (xs : List Float) :
    ((∃ x ∈ xs, x.isInf = true) → normWith pair xs = infinity) ∧
    ((∀ x ∈ xs, x.isInf = false) → (∃ x ∈ xs, x.isNaN = true) →
      (normWith pair (beforeNaN xs) = infinity → normWith pair xs = infinity) ∧
      (normWith pair (beforeNaN xs) ≠ infinity → (normWith pair xs).isNaN = true)) ∧
    ((∀ x ∈ xs, x.isInf = false ∧ x.isNaN = false) → (normWith pair xs).isNaN = false) := by
  have hstart : IsLength 0.0 := .inr ⟨0, number?_zero, le_rfl⟩
  refine ⟨fun hinf => h.foldl_of_isInf hinf _, fun hinf hnan => ?_,
    fun hnumbers => (h.foldl_of_numbers hnumbers hstart).isNaN⟩
  obtain ⟨y, ys, hsplit, hy⟩ := exists_beforeNaN hnan
  have hfront : ∀ x ∈ beforeNaN xs, x.isInf = false ∧ x.isNaN = false := fun x hx =>
    ⟨hinf x (hsplit ▸ List.mem_append_left _ hx), isNaN_of_mem_beforeNaN hx⟩
  have hback : ∀ x ∈ ys, x.isInf = false := fun x hx =>
    hinf x (hsplit ▸ List.mem_append_right _ (List.mem_cons_of_mem _ hx))
  have hcut := h.foldl_append_isNaN (h.foldl_of_numbers hfront hstart) hy hback
  rwa [← hsplit] at hcut

/-- `hypot` always has a value.  With any norm of two coordinates that tells kinds apart as
`hypotenuse` does, it is infinity if a coordinate is infinite.  If none is, but there is a NaN, it
is a NaN, unless the norm of the numbers in front of the first NaN is out of range: then it is
infinity.  Otherwise it is no NaN. -/
theorem hypot_special (args : List Value) :
    (∃ f ∈ trigonometric, f.name = "hypot" ∧
      f.apply args = .ok (.result args (norm (args.map Value.float)))) ∧
    norm = normWith hypotenuse ∧ NormsPairs hypotenuse ∧
    ∀ pair, NormsPairs pair →
      ((∃ x ∈ args, x.float.isInf = true) →
        normWith pair (args.map Value.float) = infinity) ∧
      ((∀ x ∈ args, x.float.isInf = false) → (∃ x ∈ args, x.float.isNaN = true) →
        (normWith pair (beforeNaN (args.map Value.float)) = infinity →
          normWith pair (args.map Value.float) = infinity) ∧
        (normWith pair (beforeNaN (args.map Value.float)) ≠ infinity →
          (normWith pair (args.map Value.float)).isNaN = true)) ∧
      ((∀ x ∈ args, x.float.isInf = false ∧ x.float.isNaN = false) →
        (normWith pair (args.map Value.float)).isNaN = false) := by
  refine ⟨⟨hypotFunction, by simp [trigonometric], rfl, rfl⟩, norm_eq_normWith,
    normsPairs_hypotenuse, fun pair hpair => ?_⟩
  have h := hpair.normWith_cases (args.map Value.float)
  simp only [List.mem_map, exists_exists_and_eq_and, forall_exists_index, and_imp,
    forall_apply_eq_imp_iff₂] at h
  simpa only [forall_exists_index, and_imp] using h

/-- An infinite coordinate behind a NaN, a NaN behind a number in range and behind numbers that are
out of range, and these numbers alone. -/
theorem hypot_special_orders :
    norm [nan, -infinity, 1.0] = infinity ∧ (norm [3.0, nan, maxFinite]).isNaN = true ∧
    norm [maxFinite, maxFinite, nan] = infinity ∧ (norm [maxFinite, maxFinite]).isNaN = false := by
  have hpair := normsPairs_hypotenuse
  obtain ⟨-, -, -, h₁⟩ := hypot_special [.ofFloat nan, .ofFloat (-infinity), .ofFloat 1.0]
  obtain ⟨-, -, -, h₂⟩ := hypot_special [.ofFloat 3.0, .ofFloat nan, .ofFloat maxFinite]
  obtain ⟨-, -, -, h₃⟩ := hypot_special [.ofFloat maxFinite, .ofFloat maxFinite, .ofFloat nan]
  obtain ⟨-, -, -, h₄⟩ := hypot_special [.ofFloat maxFinite, .ofFloat maxFinite]
  refine ⟨(h₁ hypotenuse hpair).1 (by decide +kernel),
    ((h₂ hypotenuse hpair).2.1 (by decide +kernel) (by decide +kernel)).2 ?_,
    ((h₃ hypotenuse hpair).2.1 (by decide +kernel) (by decide +kernel)).1 ?_,
    (h₄ hypotenuse hpair).2.2 (by decide +kernel)⟩
  · show norm [3.0] ≠ infinity
    decide +kernel
  · show norm [maxFinite, maxFinite] = infinity
    decide +kernel

/-- Numbers whose norm is out of range hide a NaN behind them, but not one in front of them. -/
theorem hypot_overflow_hides_nan :
    (∀ x ∈ [maxFinite, maxFinite, nan], x.isInf = false) ∧ nan.isNaN = true ∧
    hypotFunction.apply [.ofFloat maxFinite, .ofFloat maxFinite, .ofFloat nan] =
      .ok (.ofFloat infinity) ∧
    infinity.isNaN = false ∧ (norm [nan, maxFinite, maxFinite]).isNaN = true := by
  have hnorm : norm [maxFinite, maxFinite, nan] = infinity := by decide +kernel
  refine ⟨by decide +kernel, rfl, ?_, isNaN_infinity, by decide +kernel⟩
  show Except.ok (Value.result _ (norm [maxFinite, maxFinite, nan])) = _
  rw [hnorm, Value.result_eq_ofFloat _ isNaN_infinity]

end Calculator.Elementary
