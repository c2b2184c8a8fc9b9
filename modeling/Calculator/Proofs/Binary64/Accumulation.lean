import Calculator.Proofs.Binary64.Sum

/-!
# Digits accumulated in binary64

A number is accumulated from its digits in a base that is a power of two, with one rounding for each
digit.  Nothing is rounded up to 53 bits.  The digit with which the number has more of them is the
first one that is rounded, and the digits behind it are too small to count.  So the result is
rounded with the digits up to there, and it is the value nearest to the number unless these digits
are half way between two values, the lower one of which is even, and more than zeros follow.

Results:
* `ofNat_leading`: a natural number is rounded to its 53 leading bits, up or down.
* `appendDigit_exact`, `appendDigit_lost`: what one more digit does to a number of 53 bits, and to
  one whose leading bits are followed by others.
* `foldl_appendDigit`: which digits decide the result.
* `ofNat_rounded_eq_iff`, `losesTie_iff`: when these digits decide as all digits do.
* `foldl_appendDigit_eq_iff`: when the result is the value nearest to the number.
-/

namespace Calculator.Binary64

/-! ## The leading bits of a natural number -/

/-- A number as 53 leading bits `q` and the `e` bits `s` behind them. -/
structure Leading (n q e s : ℕ) : Prop where
  eq : n = q * 2 ^ e + s
  rest_lt : s < 2 ^ e
  le : 2 ^ 52 ≤ q
  lt : q < 2 ^ 53

variable {n q e s : ℕ}

theorem exists_leading (h : 2 ^ 53 ≤ n) : ∃ q e s, Leading n q e s ∧ 1 ≤ e := by
  have hn : n ≠ 0 := by
    rintro rfl
    norm_num at h
  have hlow := Nat.log2_self_le hn
  have hhigh := Nat.lt_log2_self (n := n)
  have hlog : 53 ≤ n.log2 := (Nat.le_log2 hn).mpr h
  obtain ⟨e, he⟩ : ∃ e, n.log2 = e + 52 := ⟨n.log2 - 52, by omega⟩
  rw [he, Nat.pow_add] at hlow
  rw [he, Nat.add_assoc, Nat.pow_add] at hhigh
  have hp := Nat.two_pow_pos e
  refine ⟨n / 2 ^ e, e, n % 2 ^ e, ⟨?_, Nat.mod_lt n hp, ?_, ?_⟩, by omega⟩
  · rw [Nat.mul_comm, Nat.div_add_mod]
  · rwa [Nat.le_div_iff_mul_le hp, Nat.mul_comm]
  · rwa [Nat.div_lt_iff_lt_mul hp, Nat.mul_comm]

namespace Leading

theorem div_mod_eq (h : Leading n q e s) : n / 2 ^ e = q ∧ n % 2 ^ e = s :=
  (Nat.div_mod_unique (Nat.two_pow_pos e)).mpr
    ⟨by rw [h.eq, Nat.mul_comm, Nat.add_comm], h.rest_lt⟩

theorem bounds (h : Leading n q e s) : 2 ^ 52 * 2 ^ e ≤ n ∧ n < 2 ^ 53 * 2 ^ e := by
  have hlow := Nat.mul_le_mul_right (2 ^ e) h.le
  have hhigh := Nat.mul_le_mul_right (2 ^ e) (Nat.succ_le_of_lt h.lt)
  rw [Nat.succ_mul] at hhigh
  have heq := h.eq
  have hrest := h.rest_lt
  omega

/-- How many bits there are behind the leading ones is known from the number. -/
theorem log2_eq (h : Leading n q e s) : n.log2 = 52 + e := by
  obtain ⟨hlow, hhigh⟩ := h.bounds
  have hp := Nat.two_pow_pos e
  rw [Nat.log2_eq_iff (by omega), Nat.pow_add, Nat.add_right_comm, Nat.pow_add]
  exact ⟨hlow, hhigh⟩

/-- The leading bits are known from the number. -/
theorem unique {q' e' s' : ℕ} (h : Leading n q e s) (h' : Leading n q' e' s') :
    q = q' ∧ e = e' ∧ s = s' := by
  have he : e = e' := by
    have := h.log2_eq
    have := h'.log2_eq
    omega
  subst he
  exact ⟨h.div_mod_eq.1.symm.trans h'.div_mod_eq.1, rfl, h.div_mod_eq.2.symm.trans h'.div_mod_eq.2⟩

end Leading

/-- Whether the leading bits are rounded up: the bits behind are more than one half of the last
place, or one half where the leading bits are odd. -/
def roundUp (q e s : ℕ) : ℕ := if 2 ^ e < 2 * s ∨ 2 * s = 2 ^ e ∧ q % 2 = 1 then 1 else 0

theorem nearestEven_leading (h : Leading n q e s) :
    nearestEven ((n : ℚ) / 2 ^ (e : ℤ)) = q + roundUp q e s := by
  have hp := Nat.two_pow_pos e
  have hp' : (0 : ℚ) < 2 ^ e := by positivity
  have hfloor : ⌊(n : ℚ) / 2 ^ (e : ℤ)⌋₊ = q := by
    have hcast : (n : ℚ) / 2 ^ (e : ℤ) = (n : ℚ) / ((2 ^ e : ℕ) : ℚ) := by
      rw [zpow_natCast]
      push_cast
      rfl
    rw [hcast, Nat.floor_div_eq_div, h.div_mod_eq.1]
  have hfraction : (n : ℚ) / 2 ^ (e : ℤ) - q = s / 2 ^ e := by
    rw [zpow_natCast, h.eq]
    push_cast
    field_simp
    ring
  have hbelow : (s : ℚ) / 2 ^ e < 1 / 2 ↔ 2 * s < 2 ^ e := by
    rw [div_lt_div_iff₀ hp' two_pos, one_mul, mul_comm]
    exact_mod_cast Iff.rfl
  have habove : 1 / 2 < (s : ℚ) / 2 ^ e ↔ 2 ^ e < 2 * s := by
    rw [div_lt_div_iff₀ two_pos hp', one_mul, mul_comm]
    exact_mod_cast Iff.rfl
  rw [nearestEven, hfloor, hfraction, roundUp]
  simp only [hbelow, habove]
  split_ifs <;> omega

/-- A number is rounded to its leading bits, up or down. -/
theorem ofNat_leading (h : Leading n q e s) :
    Float.ofNat n = Float.ofNat ((q + roundUp q e s) * 2 ^ e) := by
  obtain ⟨hlow, hhigh⟩ := h.bounds
  have hlow' : (2 ^ 52 * 2 ^ (e : ℤ) : ℚ) ≤ n := by exact_mod_cast hlow
  have hhigh' : (n : ℚ) < 2 ^ 53 * 2 ^ (e : ℤ) := by exact_mod_cast hhigh
  have hpos : (0 : ℚ) < n := lt_of_lt_of_le (mul_pos (by norm_num) (two_zpow_pos e)) hlow'
  rw [ofNat_eq, ofNat_eq, ofMagnitude_units hpos, lastPlace_eq hpos (by omega) hhigh' (.inr hlow'),
    nearestEven_leading h]
  push_cast
  rw [zpow_natCast]

/-! ## One more digit -/

/-- One more digit behind a number, in binary64. -/
def appendDigit (radix : ℕ) (x : Float) (d : ℕ) : Float := x * Float.ofNat radix + Float.ofNat d

/-- Numbers of few bits are values. -/
theorem datum_ofNat_small (h : n < 2 ^ 53) :
    ∃ m k, datum (Float.ofNat n) = .finite false m k ∧ (m * 2 ^ k : ℚ) = n := by
  rcases datum_ofNat (k := 0) h with hvalue | hlarge
  · rwa [pow_zero, Nat.mul_one] at hvalue
  · rw [pow_zero, Nat.mul_one] at hlarge
    have hpow : 2 ^ 53 ≤ 2 ^ 1024 := pow_le_pow_right₀ one_le_two (by norm_num)
    exact absurd h (not_lt.mpr (hpow.trans hlarge))

variable {b d m k : ℕ}

/-- A digit behind a number of at most 53 bits is rounded once, also out of range. -/
theorem appendDigit_exact (hm : m < 2 ^ 53) (hb : b < 53) (hd : d < 2 ^ 53) :
    appendDigit (2 ^ b) (Float.ofNat (m * 2 ^ k)) d = Float.ofNat (m * 2 ^ (k + b) + d) := by
  obtain ⟨r, i, hr, hrvalue⟩ := datum_ofNat_small (Nat.pow_lt_pow_right (by norm_num : 1 < 2) hb)
  obtain ⟨c, l, hc, hcvalue⟩ := datum_ofNat_small hd
  have hrpos : 0 < r := by
    rcases Nat.eq_zero_or_pos r with rfl | hpos
    · rw [Nat.cast_zero, zero_mul] at hrvalue
      exact absurd hrvalue.symm (by positivity)
    · exact hpos
  have hproduct : appendDigit (2 ^ b) (Float.ofNat (m * 2 ^ k)) d =
      Float.ofNat (m * 2 ^ (k + b)) + Float.ofNat d := by
    rw [appendDigit]
    congr 1
    rcases datum_ofNat (k := k) hm with ⟨n, j, hx, hvalue⟩ | hlarge
    · have hmul := mul_finite hx hr
      rw [hvalue, hrvalue] at hmul
      rw [hmul, ofNat_eq, pow_add, ← Nat.mul_assoc]
      push_cast
      rfl
    · have hx := datum_ofNat_of_le hlarge
      have hle : m * 2 ^ k ≤ m * 2 ^ (k + b) :=
        Nat.mul_le_mul_left m (Nat.pow_le_pow_right two_pos (Nat.le_add_right k b))
      rw [infinity_mul hx hr hrpos, ofNat_of_le (le_trans hlarge hle)]
  rw [hproduct]
  rcases datum_ofNat (k := k + b) hm with ⟨n, j, hx, hvalue⟩ | hlarge
  · have hadd := add_finite hx hc
    rw [hvalue, hcvalue] at hadd
    rw [hadd, ofNat_eq]
    push_cast
    rfl
  · have hx := datum_ofNat_of_le hlarge
    rw [infinity_add hx hc, ofNat_of_le (le_trans hlarge (Nat.le_add_right _ d))]

/-- A digit far behind the leading bits gets lost. -/
theorem appendDigit_lost (hm : 2 ^ 52 ≤ m) (hm' : m < 2 ^ 53) (hk : 1 ≤ k) (hb : b < 53)
    (hd : d < 2 ^ b) :
    appendDigit (2 ^ b) (Float.ofNat (m * 2 ^ k)) d = Float.ofNat (m * 2 ^ (k + b)) := by
  have hpow : 2 * 2 ^ b ≤ 2 ^ (k + b) := by
    rw [← Nat.pow_succ']
    exact Nat.pow_le_pow_right two_pos (by omega)
  have hd' : d < 2 ^ 53 := hd.trans (Nat.pow_lt_pow_right (by norm_num) hb)
  have hleading : Leading (m * 2 ^ (k + b) + d) m (k + b) d := ⟨rfl, by omega, hm, hm'⟩
  have hdown : roundUp m (k + b) d = 0 := if_neg (by omega)
  rw [appendDigit_exact hm' hb hd', ofNat_leading hleading, hdown, Nat.add_zero]

theorem foldl_appendDigit_lost (hm : 2 ^ 52 ≤ m) (hm' : m < 2 ^ 53) (hk : 1 ≤ k) (hb : b < 53)
    {ds : List ℕ} (hds : ∀ d ∈ ds, d < 2 ^ b) :
    ds.foldl (appendDigit (2 ^ b)) (Float.ofNat (m * 2 ^ k)) =
      Float.ofNat (m * 2 ^ (k + b * ds.length)) := by
  induction ds generalizing k with
  | nil => rfl
  | cons d ds ih =>
    obtain ⟨hd, hds⟩ := List.forall_mem_cons.mp hds
    rw [List.foldl_cons, appendDigit_lost hm hm' hk hb hd, ih (by omega) hds, List.length_cons,
      Nat.mul_succ, Nat.add_assoc, Nat.add_comm b]

/-- Behind the digits of a number with more than 53 bits only the number of further digits
counts. -/
theorem foldl_appendDigit_leading (h : Leading n q e s) (he : 1 ≤ e) (hb : b < 53) {ds : List ℕ}
    (hds : ∀ d ∈ ds, d < 2 ^ b) :
    ds.foldl (appendDigit (2 ^ b)) (Float.ofNat n) =
      Float.ofNat ((q + roundUp q e s) * 2 ^ (e + b * ds.length)) := by
  have hbound : q + roundUp q e s ≤ 2 ^ 53 := by
    have := h.lt
    unfold roundUp
    split_ifs <;> omega
  rw [ofNat_leading h]
  rcases hbound.lt_or_eq with hlt | hcarry
  · exact foldl_appendDigit_lost (h.le.trans (Nat.le_add_right q _)) hlt he hb hds
  · -- the leading bits carry over into one more bit
    have hhalf (k : ℕ) : 2 ^ 53 * 2 ^ k = 2 ^ 52 * 2 ^ (k + 1) := by ring
    rw [hcarry, hhalf, hhalf, Nat.add_right_comm]
    exact foldl_appendDigit_lost le_rfl (by norm_num) (by omega) hb hds

/-! ## All digits -/

/-- The number that digits stand for, behind a number known before. -/
def appendAll (radix : ℕ) (n : ℕ) (ds : List ℕ) : ℕ := ds.foldl (fun n d => radix * n + d) n

/-- The digits behind a number, apart from it. -/
theorem appendAll_div_mod {ds : List ℕ} (hds : ∀ d ∈ ds, d < 2 ^ b) (n : ℕ) :
    appendAll (2 ^ b) n ds / 2 ^ (b * ds.length) = n ∧
      appendAll (2 ^ b) n ds / 2 ^ (b * (ds.length + 1)) = n / 2 ^ b := by
  have hdiv : appendAll (2 ^ b) n ds / 2 ^ (b * ds.length) = n := by
    induction ds generalizing n with
    | nil => simp [appendAll]
    | cons d ds ih =>
      obtain ⟨hd, hds⟩ := List.forall_mem_cons.mp hds
      have hfirst : (2 ^ b * n + d) / 2 ^ b = n := by
        rw [Nat.mul_add_div (Nat.two_pow_pos b), Nat.div_eq_of_lt hd, Nat.add_zero]
      rw [List.length_cons, Nat.mul_succ, Nat.pow_add, ← Nat.div_div_eq_div_mul]
      show appendAll (2 ^ b) (2 ^ b * n + d) ds / 2 ^ (b * ds.length) / 2 ^ b = n
      rw [ih hds, hfirst]
  refine ⟨hdiv, ?_⟩
  rw [Nat.mul_succ, Nat.pow_add, ← Nat.div_div_eq_div_mul, hdiv]

/-- The digits up to the first one with which the number has more than 53 bits decide the value:
they are rounded, and only the number of digits behind them counts. -/
theorem foldl_appendDigit (hb : b < 53) {ds : List ℕ} (hds : ∀ d ∈ ds, d < 2 ^ b) (hn : n < 2 ^ 53) :
    (appendAll (2 ^ b) n ds < 2 ^ 53 ∧ ds.foldl (appendDigit (2 ^ b)) (Float.ofNat n) =
      Float.ofNat (appendAll (2 ^ b) n ds)) ∨
    ∃ r q e s, Leading (appendAll (2 ^ b) n ds / 2 ^ (b * r)) q e s ∧ 1 ≤ e ∧
      appendAll (2 ^ b) n ds / 2 ^ (b * (r + 1)) < 2 ^ 53 ∧
      ds.foldl (appendDigit (2 ^ b)) (Float.ofNat n) =
        Float.ofNat ((q + roundUp q e s) * 2 ^ (e + b * r)) := by
  induction ds generalizing n with
  | nil => exact .inl ⟨hn, rfl⟩
  | cons d ds ih =>
    obtain ⟨hd, hds⟩ := List.forall_mem_cons.mp hds
    have hstep : appendDigit (2 ^ b) (Float.ofNat n) d = Float.ofNat (2 ^ b * n + d) := by
      have h := appendDigit_exact (k := 0) hn hb (hd.trans (Nat.pow_lt_pow_right (by norm_num) hb))
      rwa [pow_zero, Nat.mul_one, Nat.zero_add, Nat.mul_comm n] at h
    have hall : appendAll (2 ^ b) n (d :: ds) = appendAll (2 ^ b) (2 ^ b * n + d) ds := rfl
    rw [List.foldl_cons, hstep, hall]
    rcases Nat.lt_or_ge (2 ^ b * n + d) (2 ^ 53) with hsmall | hlarge
    · exact ih hds hsmall
    · right
      obtain ⟨hdiv, hdiv'⟩ := appendAll_div_mod hds (2 ^ b * n + d)
      obtain ⟨q, e, s, hleading, he⟩ := exists_leading hlarge
      refine ⟨ds.length, q, e, s, hdiv.symm ▸ hleading, he, ?_, ?_⟩
      · rwa [hdiv', Nat.mul_add_div (Nat.two_pow_pos b), Nat.div_eq_of_lt hd, Nat.add_zero]
      · exact foldl_appendDigit_leading hleading he hb hds

/-! ## Ties -/

/-- More bits behind a number with leading bits. -/
theorem Leading.extend {c t : ℕ} (h : Leading (n / 2 ^ c) q e s) (ht : n % 2 ^ c = t) :
    Leading n q (e + c) (s * 2 ^ c + t) := by
  have hp := Nat.two_pow_pos c
  have hlt : t < 2 ^ c := ht ▸ Nat.mod_lt n hp
  refine ⟨?_, ?_, h.le, h.lt⟩
  · have hsplit := Nat.div_add_mod n (2 ^ c)
    rw [h.eq, ht] at hsplit
    rw [← hsplit, pow_add]
    ring
  · have := Nat.mul_le_mul_right (2 ^ c) (Nat.succ_le_of_lt h.rest_lt)
    rw [Nat.succ_mul] at this
    rw [pow_add]
    omega

/-- Further bits round up only what has been a tie between even leading bits and the odd ones above
them. -/
theorem roundUp_extend {c t : ℕ} (he : 1 ≤ e) (ht : t < 2 ^ c) :
    roundUp q (e + c) (s * 2 ^ c + t) =
      if 2 * s = 2 ^ e ∧ q % 2 = 0 ∧ t ≠ 0 then 1 else roundUp q e s := by
  obtain ⟨half, hhalf⟩ : ∃ half, 2 ^ e = 2 * half := ⟨2 ^ (e - 1), by
    rw [← Nat.pow_succ', Nat.succ_eq_add_one, Nat.sub_add_cancel he]⟩
  rw [roundUp, roundUp, pow_add, hhalf]
  generalize 2 ^ c = p at *
  rcases lt_trichotomy s half with h | rfl | h
  · have := Nat.mul_le_mul_right p (Nat.succ_le_of_lt h)
    rw [Nat.succ_mul] at this
    rw [if_neg (by rw [Nat.mul_assoc]; omega), if_neg (by omega), if_neg (by omega)]
  · rw [Nat.mul_assoc]
    split_ifs <;> omega
  · have := Nat.mul_le_mul_right p (Nat.succ_le_of_lt h)
    rw [Nat.succ_mul] at this
    rw [if_pos (by rw [Nat.mul_assoc]; omega), if_neg (by omega), if_pos (by omega)]

/-- Neighbors with the same last place are different values, if the lower one is in range. -/
theorem ofNat_succ_ne {c : ℕ} (hq : q + 1 < 2 ^ 53) (hrange : q * 2 ^ c < 2 ^ 1024) :
    Float.ofNat (q * 2 ^ c) ≠ Float.ofNat ((q + 1) * 2 ^ c) := by
  intro heq
  rcases datum_ofNat (k := c) (Nat.lt_of_succ_lt hq) with ⟨n, j, hx, hvalue⟩ | hlarge
  · rcases datum_ofNat (k := c) hq with ⟨n', j', hy, hvalue'⟩ | hlarge
    · rw [heq, hy] at hx
      obtain ⟨-, rfl, rfl⟩ := Datum.finite.inj hx
      have hnat : (q + 1) * 2 ^ c = q * 2 ^ c := by exact_mod_cast hvalue'.symm.trans hvalue
      have := Nat.two_pow_pos c
      rw [Nat.succ_mul] at hnat
      omega
    · rw [heq, datum_ofNat_of_le hlarge] at hx
      cases hx
  · exact absurd hrange (not_lt.mpr hlarge)

/-- Where a number is out of range, so are its leading bits. -/
theorem Leading.le_of_large (h : Leading n q e s) (hlarge : 2 ^ 1024 ≤ n) :
    2 ^ 1024 ≤ q * 2 ^ e := by
  rcases Nat.le_total e 1024 with he | he
  · obtain ⟨i, hi⟩ := Nat.exists_eq_add_of_le he
    have hn := h.eq
    have hrest := h.rest_lt
    rw [hi, pow_add, Nat.mul_comm] at hlarge ⊢
    refine Nat.mul_le_mul_right _ (Nat.le_of_lt_succ ?_)
    refine Nat.lt_of_mul_lt_mul_right (a := 2 ^ e) (lt_of_le_of_lt hlarge ?_)
    rw [Nat.succ_mul]
    omega
  · exact le_trans (pow_le_pow_right₀ one_le_two he)
      (Nat.le_mul_of_pos_left _ (lt_of_lt_of_le (Nat.two_pow_pos 52) h.le))

/-- Rounding the digits in front and rounding all digits differ where a tie is lost. -/
theorem ofNat_rounded_eq_iff {c t : ℕ} (h : Leading (n / 2 ^ c) q e s) (he : 1 ≤ e)
    (ht : n % 2 ^ c = t) :
    Float.ofNat ((q + roundUp q e s) * 2 ^ (e + c)) = Float.ofNat n ↔
      ¬ ((2 * s = 2 ^ e ∧ q % 2 = 0 ∧ t ≠ 0) ∧ n < 2 ^ 1024) := by
  have hlt : t < 2 ^ c := ht ▸ Nat.mod_lt n (Nat.two_pow_pos c)
  have hall := h.extend ht
  rcases Nat.lt_or_ge n (2 ^ 1024) with hrange | hlarge
  · rw [ofNat_leading hall, roundUp_extend he hlt]
    split_ifs with htie
    · have hdown : roundUp q e s = 0 := if_neg (by omega)
      have hbelow : q * 2 ^ (e + c) < 2 ^ 1024 := lt_of_le_of_lt (Nat.le.intro hall.eq.symm) hrange
      rw [hdown, Nat.add_zero]
      exact iff_of_false (ofNat_succ_ne (by have := h.lt; omega) hbelow)
        (fun hnot => hnot ⟨htie, hrange⟩)
    · exact iff_of_true rfl (fun hboth => htie hboth.1)
  · have hleading := hall.le_of_large hlarge
    rw [ofNat_of_le hlarge, ofNat_of_le (le_trans hleading (Nat.mul_le_mul_right _ (by omega)))]
    exact iff_of_true rfl (fun hboth => absurd hboth.2 (not_lt.mpr hlarge))

/-- Whether some digits of a number are half way between two values of which the lower one is even,
and a digit behind them is not zero. -/
def LosesTie (radix n : ℕ) : Prop :=
  ∃ r m i, 2 ^ 51 ≤ m ∧ m < 2 ^ 52 ∧ n / radix ^ r = (4 * m + 1) * 2 ^ i ∧ n % radix ^ r ≠ 0

theorem not_losesTie_of_lt {radix : ℕ} (h : n < 2 ^ 53) : ¬ LosesTie radix n := by
  rintro ⟨r, m, i, hm, -, heq, -⟩
  have hle : n / radix ^ r ≤ n := Nat.div_le_self n _
  have := Nat.mul_le_mul (by omega : 2 ^ 53 ≤ 4 * m + 1) (Nat.one_le_two_pow (n := i))
  omega

/-- A division with remainder has one result. -/
theorem eq_of_mul_add_eq {p u v : ℕ} {t t' : ℕ} (ht : t < p) (ht' : t' < p)
    (h : u * p + t = v * p + t') : u = v ∧ t = t' := by
  have huv : u = v := by
    rcases lt_trichotomy u v with hlt | heq | hlt
    · have := Nat.mul_le_mul_right p (Nat.succ_le_of_lt hlt)
      rw [Nat.succ_mul] at this
      omega
    · exact heq
    · have := Nat.mul_le_mul_right p (Nat.succ_le_of_lt hlt)
      rw [Nat.succ_mul] at this
      omega
  exact ⟨huv, by rw [huv] at h; omega⟩

/-- What is half way between two values whose lower one is even, by its leading bits. -/
theorem leading_tie {i : ℕ} (hm : 2 ^ 51 ≤ m) (hm' : m < 2 ^ 52) :
    Leading ((4 * m + 1) * 2 ^ i) (2 * m) (i + 1) (2 ^ i) :=
  ⟨by ring, Nat.pow_lt_pow_right (by norm_num) (Nat.lt_succ_self i), by omega, by omega⟩

/-- A tie is lost by the first digits with more than 53 bits or not at all. -/
theorem losesTie_iff {r t : ℕ} (h : Leading (n / 2 ^ (b * r)) q e s) (he : 1 ≤ e)
    (hnext : n / 2 ^ (b * (r + 1)) < 2 ^ 53) (ht : n % 2 ^ (b * r) = t) :
    LosesTie (2 ^ b) n ↔ 2 * s = 2 ^ e ∧ q % 2 = 0 ∧ t ≠ 0 := by
  have hp := Nat.two_pow_pos (b * r)
  have hlt : t < 2 ^ (b * r) := ht ▸ Nat.mod_lt n hp
  obtain ⟨f, rfl⟩ : ∃ f, e = f + 1 := ⟨e - 1, by omega⟩
  constructor
  · rintro ⟨r', m, i, hm, hm', hdigits, hrest⟩
    rw [← pow_mul] at hdigits hrest
    have hle : b * r' ≤ b * r := by
      refine Nat.mul_le_mul_left b (Nat.le_of_lt_succ (not_le.mp fun hbehind => ?_))
      have hfewer : n / 2 ^ (b * r') ≤ n / 2 ^ (b * (r + 1)) :=
        Nat.div_le_div_left (Nat.pow_le_pow_right two_pos (Nat.mul_le_mul_left b hbehind))
          (Nat.two_pow_pos _)
      have := Nat.mul_le_mul (by omega : 2 ^ 53 ≤ 4 * m + 1) (Nat.one_le_two_pow (n := i))
      omega
    have htie : Leading (n / 2 ^ (b * r')) (2 * m) (i + 1) (2 ^ i) := hdigits ▸ leading_tie hm hm'
    obtain ⟨hq, hexponent, hbits⟩ := (h.extend ht).unique (htie.extend rfl)
    have hlt' : n % 2 ^ (b * r') < 2 ^ (b * r) :=
      (Nat.mod_lt n (Nat.two_pow_pos _)).trans_le (Nat.pow_le_pow_right two_pos hle)
    rw [← pow_add, (by omega : i + b * r' = f + b * r), pow_add] at hbits
    obtain ⟨rfl, rfl⟩ := eq_of_mul_add_eq hlt hlt' hbits
    exact ⟨(pow_succ' 2 f).symm, by omega, hrest⟩
  · rintro ⟨htie, heven, hne⟩
    refine ⟨r, q / 2, f, by have := h.le; omega, by have := h.lt; omega, ?_, ?_⟩
    · have hq : 4 * (q / 2) + 1 = 2 * q + 1 := by omega
      have hs : s = 2 ^ f := by
        rw [pow_succ] at htie
        omega
      rw [← pow_mul, h.eq, hq, hs]
      ring
    · rw [← pow_mul, ht]
      exact hne

/-! ## The result -/

/-- Accumulated digits give the value nearest to their number unless a tie is lost. -/
theorem foldl_appendDigit_eq_iff (hb : b < 53) {ds : List ℕ} (hds : ∀ d ∈ ds, d < 2 ^ b) :
    ds.foldl (appendDigit (2 ^ b)) (Float.ofNat 0) = Float.ofNat (appendAll (2 ^ b) 0 ds) ↔
      ¬ (LosesTie (2 ^ b) (appendAll (2 ^ b) 0 ds) ∧ appendAll (2 ^ b) 0 ds < 2 ^ 1024) := by
  rcases foldl_appendDigit hb hds (by norm_num : 0 < 2 ^ 53) with
    ⟨hsmall, hexact⟩ | ⟨r, q, e, s, hleading, he, hnext, hrounded⟩
  · exact iff_of_true hexact fun h => not_losesTie_of_lt hsmall h.1
  · rw [hrounded, losesTie_iff hleading he hnext rfl]
    exact ofNat_rounded_eq_iff hleading he rfl

end Calculator.Binary64
