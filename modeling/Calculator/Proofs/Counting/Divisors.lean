import Calculator.Proofs.Binary64.Closest
import Calculator.Proofs.Counting.Arguments

/-!
# Divisors and multiples of integers

`gcd` and `lcm` read the magnitudes of their arguments from the left, so the first argument without
one decides the error, and compute with natural numbers from there on.  A divisor of a value has an
odd part of at most 53 bits and is a value itself, so `gcd` does not round.  A multiple known so far
divides the least common multiple of all numbers, so `lcm` exceeds the limit on its way only if the
result does.

Results:
* `AreIntegers.magnitudes`, `mapM_magnitude_error`: what is read of a list of arguments.
* `commonDivisor_eq`, `commonMultiple_eq`: the divisor and the multiple of a list, whatever comes
  first in it.
* `exists_significand_of_dvd`: a divisor of a value has at most 53 bits, up to a power of two.
* `gcd_exact`, `lcm_nearest`: the results of `gcd` and `lcm` for all lists of arguments.
-/

namespace Calculator.Counting

open Binary64

/-- Whether values are integers with a magnitude below the limit of the exact numbers. -/
def AreIntegers (vs : List Value) (zs : List ℤ) : Prop :=
  List.Forall₂ (fun (v : Value) (z : ℤ) => number? v.float = some (z : ℚ) ∧ z.natAbs < 2 ^ 128) vs zs

/-- The error for a value that is not an integer, or not below the limit. -/
inductive Refused (name : String) (x : Float) : CallError → Prop
  | notIntegral (h : ∀ z : ℤ, number? x ≠ some (z : ℚ)) : Refused name x (.notIntegral name x)
  | tooLarge {z : ℤ} (h : number? x = some (z : ℚ)) (hz : 2 ^ 128 ≤ z.natAbs) :
    Refused name x (.domain name .argumentTooLarge)

variable {name : String} {x : Float} {z : ℤ} {v : Value} {vs front rest : List Value} {zs : List ℤ}
  {error : CallError}

/-! ## Magnitudes -/

theorem magnitude_ok (h : number? x = some (z : ℚ)) (hz : z.natAbs < 2 ^ 128) :
    Function.magnitude name x = .ok z.natAbs := by
  rw [Function.magnitude, isIntegral_of_number h, wholePart_of_number h, Nat.one_shiftLeft,
    Bool.not_true, if_neg Bool.false_ne_true, if_neg (not_le.mpr hz)]

theorem magnitude_error (h : Refused name x error) :
    Function.magnitude name x = .error error := by
  cases h with
  | notIntegral h =>
    have hx : isIntegral x = false := by
      rw [← Bool.not_eq_true]
      exact fun hx => h _ (number?_of_isIntegral hx)
    rw [Function.magnitude, hx, Bool.not_false, if_pos rfl]
  | tooLarge h hz =>
    rw [Function.magnitude, isIntegral_of_number h, wholePart_of_number h, Nat.one_shiftLeft,
      Bool.not_true, if_neg Bool.false_ne_true, if_pos hz]

/-- The magnitudes of integers are all read. -/
theorem AreIntegers.magnitudes (name : String) (h : AreIntegers vs zs) :
    List.Forall₂ (fun x m => Function.magnitude name x = .ok m) (vs.map Value.float)
      (zs.map Int.natAbs) :=
  List.forall₂_map_left_iff.mpr (List.forall₂_map_right_iff.mpr
    (h.imp fun _ _ hz => magnitude_ok hz.1 hz.2))

/-- The first value that is refused decides the error, whatever comes after it. -/
theorem mapM_magnitude_error (h : AreIntegers front zs) (hv : Refused name v.float error)
    (rest : List Value) :
    ((front ++ v :: rest).map Value.float).mapM (Function.magnitude name) = .error error := by
  rw [List.map_append, List.map_cons]
  exact mapM_error (h.magnitudes name) (magnitude_error hv) _

theorem not_integer_half (z : ℤ) : number? 0.5 ≠ some (z : ℚ) := by
  rw [number?_half, ne_eq, Option.some.injEq, div_eq_iff two_ne_zero]
  intro h
  have : 1 = z * 2 := by exact_mod_cast h
  omega

/-- Values are integers, or one of them is the first that is refused. -/
theorem areIntegers_or_refused (name : String) (vs : List Value) :
    (∃ zs, AreIntegers vs zs) ∨ ∃ front v rest zs error,
      vs = front ++ v :: rest ∧ AreIntegers front zs ∧ Refused name v.float error := by
  refine forall₂_or_first (fun v => ?_) vs
  by_cases hv : ∃ z : ℤ, number? v.float = some (z : ℚ)
  · obtain ⟨z, hz⟩ := hv
    rcases Nat.lt_or_ge z.natAbs (2 ^ 128) with hlt | hge
    · exact .inl ⟨z, hz, hlt⟩
    · exact .inr ⟨_, .tooLarge hz hge⟩
  · exact .inr ⟨_, .notIntegral (not_exists.mp hv)⟩

/-! ## Divisors -/

/-- The magnitudes are read in the order of the values, so they may as well be read first. -/
theorem commonDivisor_mapM (xs : List Float) (divisor : ℕ) :
    commonDivisor xs divisor =
      (xs.mapM (Function.magnitude "gcd")).map fun ms => ms.foldl Nat.gcd divisor := by
  induction xs generalizing divisor with
  | nil => rfl
  | cons x xs ih =>
    rw [commonDivisor, List.mapM_cons]
    cases Function.magnitude "gcd" x with
    | error e => rfl
    | ok m =>
      show commonDivisor xs (euclid divisor m) = _
      rw [ih, euclid_eq_gcd]
      cases xs.mapM (Function.magnitude "gcd") <;> rfl

theorem foldl_gcd (ms : List ℕ) (divisor : ℕ) :
    ms.foldl Nat.gcd divisor = divisor.gcd (ms : Multiset ℕ).gcd := by
  induction ms generalizing divisor with
  | nil => exact (Nat.gcd_zero_right divisor).symm
  | cons m ms ih =>
    rw [List.foldl_cons, ih, Nat.gcd_assoc, ← Multiset.cons_coe, Multiset.gcd_cons]
    rfl

/-- A divisor of a value has at most 53 bits, up to a power of two. -/
theorem exists_significand_of_dvd {d n s t : ℕ} (hs : s < 2 ^ 53) (hn : n = s * 2 ^ t)
    (hpos : 0 < n) (h : d ∣ n) : ∃ s' t', s' < 2 ^ 53 ∧ d = s' * 2 ^ t' := by
  obtain ⟨s', p, hs', hp, rfl⟩ := Nat.dvd_mul.mp (hn ▸ h)
  obtain ⟨t', -, rfl⟩ := (Nat.dvd_prime_pow Nat.prime_two).mp hp
  have hspos : 0 < s := Nat.pos_of_mul_pos_right (hn ▸ hpos)
  exact ⟨s', t', lt_of_le_of_lt (Nat.le_of_dvd hspos hs') hs, rfl⟩

theorem AreIntegers.number_of_mem (h : AreIntegers vs zs) (hz : z ∈ zs) :
    ∃ x, number? x = some (z : ℚ) ∧ z.natAbs < 2 ^ 128 := by
  induction h with
  | nil => cases hz
  | cons hv _ ih =>
    rcases List.mem_cons.mp hz with rfl | hz
    · exact ⟨_, hv⟩
    · exact ih hz

/-- So has the greatest common divisor of integers that are values. -/
theorem exists_significand_of_gcd (h : AreIntegers vs zs) :
    ∃ s t : ℕ, s < 2 ^ 53 ∧ (zs.map Int.natAbs : Multiset ℕ).gcd = s * 2 ^ t ∧
      (zs.map Int.natAbs : Multiset ℕ).gcd < 2 ^ 128 := by
  by_cases hzero : ∀ z ∈ zs, z = 0
  · have hgcd : (zs.map Int.natAbs : Multiset ℕ).gcd = 0 := by
      rw [Multiset.gcd_eq_zero_iff]
      simpa using hzero
    exact ⟨0, 0, by norm_num, hgcd, by rw [hgcd]; norm_num⟩
  · obtain ⟨z, hz, hne⟩ : ∃ z ∈ zs, z ≠ 0 := by simpa using hzero
    obtain ⟨x, hx, hlt⟩ := h.number_of_mem hz
    have hpos : 0 < z.natAbs := Int.natAbs_pos.mpr hne
    have hdvd := Multiset.gcd_dvd (Multiset.mem_coe.mpr (List.mem_map_of_mem (f := Int.natAbs) hz))
    obtain ⟨s, t, hs, hvalue⟩ := exists_significand_of_number hx
    obtain ⟨s', t', hs', hvalue'⟩ := exists_significand_of_dvd hs hvalue hpos hdvd
    exact ⟨s', t', hs', hvalue', lt_of_le_of_lt (Nat.le_of_dvd hpos hdvd) hlt⟩

/-- The greatest common divisor of integers that are values is the number of a value. -/
theorem number?_gcd (h : AreIntegers vs zs) :
    number? (Float.ofNat (zs.map Int.natAbs : Multiset ℕ).gcd) =
      some ((zs.map Int.natAbs : Multiset ℕ).gcd : ℚ) := by
  obtain ⟨s, t, hs, hvalue, hlt⟩ := exists_significand_of_gcd h
  generalize (zs.map Int.natAbs : Multiset ℕ).gcd = d at *
  have hcast : (d : ℚ) = s * 2 ^ (t : ℤ) := by
    rw [hvalue, zpow_natCast]
    push_cast
    rfl
  have hrange : (s * 2 ^ (t : ℤ) : ℚ) < 2 ^ 1024 := by
    rw [← hcast]
    calc (d : ℚ) < 2 ^ 128 := by exact_mod_cast hlt
      _ ≤ 2 ^ 1024 := pow_le_pow_right₀ (by norm_num) (by norm_num)
  rw [ofNat_eq, hcast]
  exact number?_ofMagnitude hs.le (by omega) hrange

/-- `gcd` of integers is their greatest common divisor, without rounding; otherwise the first value
that is refused decides the error. -/
theorem gcd_exact (vs : List Value) :
    (∀ zs, AreIntegers vs zs → ∃ x, gcdFunction.apply vs = .ok (.ofFloat x) ∧
      number? x = some ((zs.map Int.natAbs : Multiset ℕ).gcd : ℚ)) ∧
    (∀ front v rest zs error, vs = front ++ v :: rest → AreIntegers front zs →
      Refused "gcd" v.float error → gcdFunction.apply vs = .error error) ∧
    ((∃ zs, AreIntegers vs zs) ∨ ∃ front v rest zs error,
      vs = front ++ v :: rest ∧ AreIntegers front zs ∧ Refused "gcd" v.float error) := by
  have happly : gcdFunction.apply vs =
      ((vs.map Value.float).mapM (Function.magnitude "gcd")).map fun ms =>
        .ofFloat (Float.ofNat (ms : Multiset ℕ).gcd) := by
    show (commonDivisor (vs.map Value.float) 0 >>= fun divisor => _) = _
    rw [commonDivisor_mapM]
    cases (vs.map Value.float).mapM (Function.magnitude "gcd") with
    | error e => rfl
    | ok ms =>
      show Except.ok (Value.ofFloat (Float.ofNat (ms.foldl Nat.gcd 0))) = _
      rw [foldl_gcd, Nat.gcd_zero_left]
      rfl
  refine ⟨fun zs h => ⟨_, ?_, number?_gcd h⟩, ?_, areIntegers_or_refused "gcd" vs⟩
  · rw [happly, mapM_ok (h.magnitudes _)]
    rfl
  · rintro front v rest zs error rfl h hv
    rw [happly, mapM_magnitude_error h hv]
    rfl

/-- A divisor of far more than 53 bits is exact, and what comes after one half is not looked at. -/
theorem gcd_exact_large :
    AreIntegers [.ofFloat (Float.ofBits 0x4508000000000000),
      .ofFloat (Float.ofBits 0xc5b4000000000000)] [3 * 2 ^ 80, -(5 * 2 ^ 90)] ∧
    Refused "gcd" 0.5 (.notIntegral "gcd" 0.5) ∧
    (∃ x, gcdFunction.apply [.ofFloat (Float.ofBits 0x4508000000000000),
      .ofFloat (Float.ofBits 0xc5b4000000000000)] = .ok (.ofFloat x) ∧
        number? x = some (2 ^ 80)) ∧
    gcdFunction.apply [.ofFloat (Float.ofBits 0x4508000000000000),
      .ofFloat (Float.ofBits 0xc5b4000000000000), .ofFloat 0.5, .ofFloat infinity] =
        .error (.notIntegral "gcd" 0.5) := by
  have h₁ : number? (Float.ofBits 0x4508000000000000) = some ((3 * 2 ^ 80 : ℤ) : ℚ) := by
    have hd : datum (Float.ofBits 0x4508000000000000) = .finite false (3 * 2 ^ 51) 29 := by rfl
    rw [number?_of_datum hd, signedNumber]
    norm_num
  have h₂ : number? (Float.ofBits 0xc5b4000000000000) = some ((-(5 * 2 ^ 90) : ℤ) : ℚ) := by
    have hd : datum (Float.ofBits 0xc5b4000000000000) = .finite true (5 * 2 ^ 50) 40 := by rfl
    rw [number?_of_datum hd, signedNumber]
    norm_num
  have h : AreIntegers [.ofFloat (Float.ofBits 0x4508000000000000),
      .ofFloat (Float.ofBits 0xc5b4000000000000)] [3 * 2 ^ 80, -(5 * 2 ^ 90)] :=
    .cons ⟨h₁, by norm_num⟩ (.cons ⟨h₂, by norm_num⟩ .nil)
  have hhalf : Refused "gcd" 0.5 (.notIntegral "gcd" 0.5) := .notIntegral not_integer_half
  have hgcd : (([3 * 2 ^ 80, -(5 * 2 ^ 90)] : List ℤ).map Int.natAbs : Multiset ℕ).gcd = 2 ^ 80 := by
    decide +kernel
  obtain ⟨x, happly, hx⟩ := (gcd_exact _).1 _ h
  rw [hgcd] at hx
  exact ⟨h, hhalf, ⟨x, happly, by exact_mod_cast hx⟩,
    (gcd_exact _).2.1 _ (.ofFloat 0.5) [.ofFloat infinity] _ _ rfl h hhalf⟩

/-! ## Multiples -/

theorem multiple_step (multiple m : ℕ) :
    multiple / euclid multiple m * m = multiple.lcm m := by
  rw [euclid_eq_gcd, Nat.div_mul_right_comm (Nat.gcd_dvd_left multiple m), Nat.lcm_eq_mul_div]

/-- The least common multiple of positive numbers, if it is below the limit.  What is known of it on
the way divides it, so it is below the limit as well. -/
theorem commonMultiple_eq {ms : List ℕ} (h : 0 ∉ ms) {multiple : ℕ} (hpos : 0 < multiple)
    (hlt : multiple < exactLimit) :
    commonMultiple ms multiple =
      if multiple.lcm (ms : Multiset ℕ).lcm < exactLimit then
        .ok (multiple.lcm (ms : Multiset ℕ).lcm)
      else .error (.domain "lcm" .resultTooLarge) := by
  induction ms generalizing multiple with
  | nil =>
    have hone : multiple.lcm (([] : List ℕ) : Multiset ℕ).lcm = multiple :=
      Nat.lcm_one_right multiple
    rw [commonMultiple, hone, if_pos hlt]
  | cons m ms ih =>
    rw [List.mem_cons, not_or] at h
    have hm : 0 < m := Nat.pos_of_ne_zero fun heq => h.1 heq.symm
    have hnext : 0 < multiple.lcm m := Nat.lcm_pos hpos hm
    have htotal : multiple.lcm ((m :: ms : List ℕ) : Multiset ℕ).lcm =
        (multiple.lcm m).lcm (ms : Multiset ℕ).lcm := by
      rw [← Multiset.cons_coe, Multiset.lcm_cons, Nat.lcm_assoc]
      rfl
    rw [commonMultiple, multiple_step, htotal]
    split_ifs with hstep htotal' htotal'
    · rw [ih h.2 hnext hstep, if_pos htotal']
    · rw [ih h.2 hnext hstep, if_neg htotal']
    · have hrest : 0 < (ms : Multiset ℕ).lcm :=
        Nat.pos_of_ne_zero ((Multiset.lcm_ne_zero_iff _).mpr h.2)
      have hle := Nat.le_of_dvd (Nat.lcm_pos hnext hrest) (Nat.dvd_lcm_left (multiple.lcm m) _)
      exact absurd (lt_of_le_of_lt hle htotal') hstep
    · rfl

/-- `lcm` of integers, by the least common multiple of their magnitudes alone. -/
theorem lcm_apply (h : AreIntegers vs zs) :
    lcmFunction.apply vs =
      if (zs.map Int.natAbs : Multiset ℕ).lcm < 2 ^ 128 then
        .ok (.ofFloat (Float.ofNat (zs.map Int.natAbs : Multiset ℕ).lcm))
      else .error (.domain "lcm" .resultTooLarge) := by
  show ((vs.map Value.float).mapM (Function.magnitude "lcm") >>= fun ms => _) = _
  rw [mapM_ok (h.magnitudes _)]
  generalize zs.map Int.natAbs = ms
  by_cases hzero : 0 ∈ ms
  · have hlcm : (ms : Multiset ℕ).lcm = 0 := (Multiset.lcm_eq_zero_iff _).mpr hzero
    have hvalue : Float.ofNat 0 = 0.0 := by rw [ofNat_eq, zero_eq, Nat.cast_zero]
    show (if ms.contains 0 = true then _ else _) = _
    rw [if_pos (List.contains_iff_mem.mpr hzero), hlcm, if_pos (by norm_num), hvalue]
    rfl
  · have hone : 1 < exactLimit := by
      rw [exactLimit, Nat.one_shiftLeft]
      norm_num
    show (if ms.contains 0 = true then _ else commonMultiple ms 1 >>= fun multiple => _) = _
    rw [if_neg (fun hmem => hzero (List.contains_iff_mem.mp hmem)),
      commonMultiple_eq hzero one_pos hone, Nat.lcm_one_left, exactLimit, Nat.one_shiftLeft]
    split_ifs <;> rfl

/-- Lists with the same numbers have the same least common multiple. -/
theorem lcm_congr {ms ns : List ℕ} (h : ∀ n, n ∈ ms ↔ n ∈ ns) :
    (ms : Multiset ℕ).lcm = (ns : Multiset ℕ).lcm :=
  Nat.dvd_antisymm (Multiset.lcm_mono fun n hn => (h n).mp hn)
    (Multiset.lcm_mono fun n hn => (h n).mpr hn)

/-- `lcm` of integers is the value nearest to their least common multiple if that is below the
limit, and too large otherwise, so it depends on nothing but the set of their magnitudes; the first
value that is refused decides the error. -/
theorem lcm_nearest (vs : List Value) :
    (∀ zs, AreIntegers vs zs →
      ((zs.map Int.natAbs : Multiset ℕ).lcm < 2 ^ 128 →
        ∃ x, lcmFunction.apply vs = .ok (.ofFloat x) ∧
          IsNearest x (zs.map Int.natAbs : Multiset ℕ).lcm) ∧
      (lcmFunction.apply vs = .error (.domain "lcm" .resultTooLarge) ↔
        2 ^ 128 ≤ (zs.map Int.natAbs : Multiset ℕ).lcm) ∧
      ∀ ws ys, AreIntegers ws ys → (∀ n, n ∈ zs.map Int.natAbs ↔ n ∈ ys.map Int.natAbs) →
        lcmFunction.apply ws = lcmFunction.apply vs) ∧
    (∀ front v rest zs error, vs = front ++ v :: rest → AreIntegers front zs →
      Refused "lcm" v.float error → lcmFunction.apply vs = .error error) ∧
    ((∃ zs, AreIntegers vs zs) ∨ ∃ front v rest zs error,
      vs = front ++ v :: rest ∧ AreIntegers front zs ∧ Refused "lcm" v.float error) := by
  refine ⟨fun zs h => ⟨fun hlt => ?_, ?_, fun ws ys hw heq => ?_⟩, ?_,
    areIntegers_or_refused "lcm" vs⟩
  · refine ⟨Float.ofNat (zs.map Int.natAbs : Multiset ℕ).lcm, ?_, ?_⟩
    · rw [lcm_apply h, if_pos hlt]
    · rw [ofNat_eq]
      exact isNearest_ofMagnitude (Nat.cast_nonneg _)
  · rw [lcm_apply h]
    split_ifs with hlt
    · exact iff_of_false nofun (not_le.mpr hlt)
    · exact iff_of_true rfl (not_lt.mp hlt)
  · rw [lcm_apply h, lcm_apply hw, lcm_congr heq]
  · rintro front v rest zs error rfl h hv
    show (((front ++ v :: rest).map Value.float).mapM (Function.magnitude "lcm") >>= fun ms => _) =
      _
    rw [mapM_magnitude_error h hv]
    rfl

/-- A multiple of 56 bits is rounded, one of 129 bits is too large, and a zero does not hide the
one half behind it. -/
theorem lcm_nearest_rounded :
    AreIntegers [.ofFloat 9007199254740991.0, .ofFloat (-5.0)] [2 ^ 53 - 1, -5] ∧
    Refused "lcm" 0.5 (.notIntegral "lcm" 0.5) ∧
    (∃ x, lcmFunction.apply [.ofFloat 9007199254740991.0, .ofFloat (-5.0)] = .ok (.ofFloat x) ∧
      IsNearest x (5 * (2 ^ 53 - 1))) ∧
    lcmFunction.apply [.ofFloat (-5.0), .ofFloat (-5.0), .ofFloat 9007199254740991.0] =
      lcmFunction.apply [.ofFloat 9007199254740991.0, .ofFloat (-5.0)] ∧
    lcmFunction.apply [.ofFloat (Float.ofBits 0x47e0000000000000), .ofFloat (-5.0)] =
      .error (.domain "lcm" .resultTooLarge) ∧
    lcmFunction.apply [.ofFloat 0.0, .ofFloat 0.5, .ofFloat nan] =
      .error (.notIntegral "lcm" 0.5) := by
  have h₁ : number? 9007199254740991.0 = some ((2 ^ 53 - 1 : ℤ) : ℚ) := by
    have hd : datum 9007199254740991.0 = .finite false (2 ^ 53 - 1) 0 := by rfl
    rw [number?_of_datum hd, signedNumber]
    norm_num
  have h₂ : number? (-5.0) = some ((-5 : ℤ) : ℚ) := by
    have hd : datum (-5.0) = .finite true (5 * 2 ^ 50) (-50) := by rfl
    rw [number?_of_datum hd, signedNumber]
    norm_num
  have h₃ : number? (Float.ofBits 0x47e0000000000000) = some ((2 ^ 127 : ℤ) : ℚ) := by
    have hd : datum (Float.ofBits 0x47e0000000000000) = .finite false (2 ^ 52) 75 := by rfl
    rw [number?_of_datum hd, signedNumber]
    norm_num
  have h₄ : number? 0.0 = some ((0 : ℤ) : ℚ) := by
    have hd : datum 0.0 = .finite false 0 (-1074) := by rfl
    rw [number?_of_datum hd, signedNumber_zero, Int.cast_zero]
  have hfive : ((-5 : ℤ)).natAbs < 2 ^ 128 := by norm_num
  have hwide : ((2 ^ 53 - 1 : ℤ)).natAbs < 2 ^ 128 := by norm_num
  have h : AreIntegers [.ofFloat 9007199254740991.0, .ofFloat (-5.0)] [2 ^ 53 - 1, -5] :=
    .cons ⟨h₁, hwide⟩ (.cons ⟨h₂, hfive⟩ .nil)
  have hrepeated : AreIntegers [.ofFloat (-5.0), .ofFloat (-5.0), .ofFloat 9007199254740991.0]
      [-5, -5, 2 ^ 53 - 1] :=
    .cons ⟨h₂, hfive⟩ (.cons ⟨h₂, hfive⟩ (.cons ⟨h₁, hwide⟩ .nil))
  have hlarge : AreIntegers [.ofFloat (Float.ofBits 0x47e0000000000000), .ofFloat (-5.0)]
      [2 ^ 127, -5] :=
    .cons ⟨h₃, by norm_num⟩ (.cons ⟨h₂, hfive⟩ .nil)
  have hhalf : Refused "lcm" 0.5 (.notIntegral "lcm" 0.5) := .notIntegral not_integer_half
  have hlcm : (([2 ^ 53 - 1, -5] : List ℤ).map Int.natAbs : Multiset ℕ).lcm =
      5 * (2 ^ 53 - 1) := by decide +kernel
  have hover : 2 ^ 128 ≤ (([2 ^ 127, -5] : List ℤ).map Int.natAbs : Multiset ℕ).lcm := by
    decide +kernel
  have hsame : ∀ a b n : ℕ, n ∈ [a, b] ↔ n ∈ [b, b, a] := by simp [or_comm]
  obtain ⟨x, happly, hx⟩ := ((lcm_nearest _).1 _ h).1 (by rw [hlcm]; norm_num)
  rw [hlcm] at hx
  refine ⟨h, hhalf, ⟨x, happly, by exact_mod_cast hx⟩,
    ((lcm_nearest _).1 _ h).2.2 _ _ hrepeated (hsame _ _),
    ((lcm_nearest _).1 _ hlarge).2.1.mpr hover,
    (lcm_nearest _).2.1 [.ofFloat 0.0] (.ofFloat 0.5) [.ofFloat nan] [0] _ rfl
      (.cons ⟨h₄, by norm_num⟩ .nil) hhalf⟩

end Calculator.Counting
