import Calculator.Proofs.Binary64.Rank

/-!
# Negated operands

The arithmetic keeps signs and magnitudes apart, and rounds magnitudes.  So a minus sign in front of
a factor is one in front of the product, and sums of terms of one sign are negated with their terms.

Results:
* `neg_pack`: a number is negated before it is packed or after that.
* `mul_neg_left`, `mul_neg_right`, `mul_neg_both`: products of negated factors.
* `HasSign`: the sign of a value, with that of products, quotients and sums.
* `add_neg_both`: the sum of two negated terms of one sign.
* `copySign_neg`: the magnitude with the other sign.
* `toBits_neg`: the pattern of a negated value has the other sign bit.
-/

namespace Calculator.Binary64

open Float.Model Float.Model.UnpackedFloat

variable {f : Format} {s t : Sign} {u v : UnpackedFloat} {m n : ℕ} {j k : ℤ} {x y : Float}
  {a b : Bool}

/-! ## Signs of unpacked numbers -/

/-- Whether an unpacked number has this sign; a NaN has either. -/
def Signed (s : Sign) : UnpackedFloat → Prop
  | .notANumber => True
  | .infinity t => t = s
  | .zero t => t = s
  | .finite t _ _ _ => t = s

@[simp]
theorem signed_notANumber (s : Sign) : Signed s .notANumber := trivial

@[simp]
theorem signed_infinity (s t : Sign) : Signed s (.infinity t) ↔ t = s := Iff.rfl

@[simp]
theorem signed_zero (s t : Sign) : Signed s (.zero t) ↔ t = s := Iff.rfl

@[simp]
theorem signed_finite (s t : Sign) (hm : 0 < m) : Signed s (.finite t m k hm) ↔ t = s := Iff.rfl

theorem neg_sign_mul (s t : Sign) : -s * t = -(s * t) := by
  cases s <;> cases t <;> rfl

theorem sign_mul_neg (s t : Sign) : s * -t = -(s * t) := by
  cases s <;> cases t <;> rfl

theorem neg_roundWithAccuracy (f : Format) (s : Sign) (m : ℕ) (k : ℤ) (accuracy : Accuracy) :
    (roundWithAccuracy f s m k accuracy).neg = roundWithAccuracy f (-s) m k accuracy := by
  unfold roundWithAccuracy
  dsimp only
  split_ifs <;> rfl

theorem signed_roundWithAccuracy (f : Format) (s : Sign) (m : ℕ) (k : ℤ) (accuracy : Accuracy) :
    Signed s (roundWithAccuracy f s m k accuracy) := by
  unfold roundWithAccuracy
  dsimp only
  split_ifs <;> rfl

/-! ## Products and quotients -/

theorem mul_unpacked_neg_left (f : Format) (u v : UnpackedFloat) :
    UnpackedFloat.mul f u.neg v = (UnpackedFloat.mul f u v).neg := by
  cases u <;> cases v <;>
    simp [UnpackedFloat.mul, UnpackedFloat.neg, neg_sign_mul, ← neg_roundWithAccuracy]

theorem mul_unpacked_neg_right (f : Format) (u v : UnpackedFloat) :
    UnpackedFloat.mul f u v.neg = (UnpackedFloat.mul f u v).neg := by
  cases u <;> cases v <;>
    simp [UnpackedFloat.mul, UnpackedFloat.neg, sign_mul_neg, ← neg_roundWithAccuracy]

theorem Signed.mul (hu : Signed s u) (hv : Signed t v) :
    Signed (s * t) (UnpackedFloat.mul f u v) := by
  cases u <;> cases v <;>
    simp_all [UnpackedFloat.mul, signed_roundWithAccuracy]

theorem Signed.div (hu : Signed s u) (hv : Signed t v) :
    Signed (s / t) (UnpackedFloat.div f u v) := by
  cases u <;> cases v <;>
    simp_all [UnpackedFloat.div, signed_roundWithAccuracy]

/-! ## Sums -/

/-- An integer is rounded with its sign. -/
theorem normalize_apply (hm : 0 < m) :
    UnpackedFloat.normalize f (s.apply m) k t = UnpackedFloat.round f s m k := by
  unfold UnpackedFloat.normalize
  cases s with
  | positive =>
    show (match compare (m : ℤ) 0 with | .lt => _ | .eq => _ | .gt => _) = _
    rw [Int.compare_eq_gt.mpr (by omega)]
    rfl
  | negative =>
    show (match compare (-(m : ℤ)) 0 with | .lt => _ | .eq => _ | .gt => _) = _
    rw [Int.compare_eq_lt.mpr (by omega)]
    show UnpackedFloat.round f .negative (- -(m : ℤ)).toNat k = _
    rw [neg_neg, Int.toNat_natCast]

/-- Two numbers of one sign are summed up as their magnitudes are. -/
theorem add_unpacked_finite (hm : 0 < m) (hn : 0 < n) :
    ∃ sum place, ∀ s, UnpackedFloat.add f (.finite s m j hm) (.finite s n k hn) =
      roundWithAccuracy f s sum place .exact := by
  obtain ⟨m', hm'⟩ : ∃ m', (decreaseExponent m j (min j k)).1 = m' := ⟨_, rfl⟩
  obtain ⟨n', hn'⟩ : ∃ n', (decreaseExponent n k (min j k)).1 = n' := ⟨_, rfl⟩
  have hpos : 0 < m' := by
    rw [← hm', decreaseExponent, Nat.shiftLeft_eq]
    positivity
  have hround (s : Sign) : UnpackedFloat.add f (.finite s m j hm) (.finite s n k hn) =
      UnpackedFloat.round f s (m' + n') (min j k) := by
    have hsum : s.apply (m' : ℤ) + s.apply (n' : ℤ) = s.apply ((m' + n' : ℕ) : ℤ) := by
      cases s
      · show -(m' : ℤ) + -(n' : ℤ) = -((m' + n' : ℕ) : ℤ)
        omega
      · exact (Nat.cast_add m' n').symm
    show UnpackedFloat.normalize f (s.apply (decreaseExponent m j (min j k)).1 +
      s.apply (decreaseExponent n k (min j k)).1) (min j k) .positive = _
    rw [hm', hn', hsum, normalize_apply (by omega)]
  exact ⟨_, _, hround⟩

/-- A sum of two numbers of one sign has that sign, and is negated with them. -/
theorem add_unpacked_neg (hu : Signed s u) (hv : Signed s v) :
    UnpackedFloat.add f u.neg v.neg = (UnpackedFloat.add f u v).neg ∧
      Signed s (UnpackedFloat.add f u v) := by
  cases u with
  | notANumber => exact ⟨rfl, trivial⟩
  | infinity t =>
    obtain rfl : t = s := hu
    cases v with
    | notANumber => exact ⟨rfl, trivial⟩
    | infinity t' =>
      obtain rfl : t' = t := hv
      cases t' <;> exact ⟨rfl, rfl⟩
    | zero | finite => exact ⟨rfl, rfl⟩
  | zero t =>
    obtain rfl : t = s := hu
    cases v with
    | notANumber => exact ⟨rfl, trivial⟩
    | infinity | finite => exact ⟨rfl, hv⟩
    | zero t' =>
      obtain rfl : t' = t := hv
      cases t' <;> exact ⟨rfl, rfl⟩
  | finite t m j hm =>
    obtain rfl : t = s := hu
    cases v with
    | notANumber => exact ⟨rfl, trivial⟩
    | infinity => exact ⟨rfl, hv⟩
    | zero => exact ⟨rfl, rfl⟩
    | finite t' n k hn =>
      obtain rfl : t' = t := hv
      obtain ⟨sum, place, hsum⟩ := add_unpacked_finite (f := f) (j := j) (k := k) hm hn
      rw [UnpackedFloat.neg, UnpackedFloat.neg, hsum, hsum, neg_roundWithAccuracy]
      exact ⟨rfl, signed_roundWithAccuracy ..⟩

/-! ## Packing -/

/-- The magnitude decides whether a number is packed as infinity, and in which fields otherwise. -/
theorem pack_finite (k : ℤ) (hm : 0 < m) :
    (∀ s, UnpackedFloat.pack Format.binary64 (.finite s m k hm) =
      UnpackedFloat.pack Format.binary64 (.infinity s)) ∨
    ∃ field fraction, field < 2047 ∧ fraction < 2 ^ 52 ∧ ∀ s : Sign,
      (UnpackedFloat.pack Format.binary64 (.finite s m k hm)).toNat =
        s.toBitVec.toNat * 2 ^ 63 + field * 2 ^ 52 + fraction := by
  obtain ⟨biased, hbiased⟩ : ∃ biased, (k + Format.binary64.exponentBias +
    Format.binary64.mantissaBitsWithoutImplicit).toNat = biased := ⟨_, rfl⟩
  have hlt : m % 2 ^ 52 < 2 ^ 52 := Nat.mod_lt _ (by norm_num)
  simp only [UnpackedFloat.pack, hbiased]
  split_ifs with hover hbits
  · exact .inl fun _ => rfl
  · have hfield : biased < 2047 := by
      have : ¬ 2048 ≤ biased + 1 := hover
      omega
    refine .inr ⟨biased, m % 2 ^ 52, hfield, hlt, fun s => ?_⟩
    rw [packComponents_toNat, BitVec.toNat_ofNat, BitVec.toNat_ofNat,
      Nat.mod_eq_of_lt (by omega : biased < 2 ^ 11)]
  · refine .inr ⟨0, m % 2 ^ 52, by omega, hlt, fun s => ?_⟩
    rw [packComponents_toNat, BitVec.toNat_ofNat]
    rfl

/-- A number is packed as infinity or as a finite number, with its sign. -/
theorem datum_pack_finite (k : ℤ) (hm : 0 < m) :
    (∀ a, datum (Float.ofModel (.pack (.finite (Datum.sign a) m k hm))) = .infinity a) ∨
    ∃ n j, ∀ a, datum (Float.ofModel (.pack (.finite (Datum.sign a) m k hm))) = .finite a n j := by
  rcases pack_finite k hm with hinf | ⟨field, fraction, hfield, hfraction, hpack⟩
  · refine .inl fun a => ?_
    have heq : Float.ofModel (.pack (.finite (Datum.sign a) m k hm)) = ofDatum (.infinity a) :=
      eq_of_toBits (congrArg BitVec.toNat (hinf (Datum.sign a)))
    rw [heq]
    exact datum_ofDatum trivial
  · have hbit (a : Bool) : decide (a.toNat = 1) = a := by cases a <;> rfl
    have hdatum (a : Bool) := datum_of_fields (Bool.toNat_lt a) (by omega) hfraction
      ((toBits_ofModel _).trans (toNat_sign a ▸ hpack (Datum.sign a)))
    simp only [hbit, if_neg hfield.ne] at hdatum
    refine .inr ?_
    split_ifs at hdatum
    · exact ⟨_, _, hdatum⟩
    · exact ⟨_, _, hdatum⟩

theorem neg_datum_sign (a : Bool) : -Datum.sign a = Datum.sign (!a) := by
  cases a <;> rfl

theorem exists_datum_sign (s : Sign) : ∃ a, Datum.sign a = s := by
  cases s
  · exact ⟨true, rfl⟩
  · exact ⟨false, rfl⟩

/-- A number is negated before it is packed or after that. -/
theorem neg_pack (u : UnpackedFloat) :
    -Float.ofModel (.pack u) = Float.ofModel (.pack u.neg) := by
  cases u with
  | notANumber => rfl
  | infinity s => cases s <;> rfl
  | zero s => cases s <;> rfl
  | finite s m k hm =>
    obtain ⟨a, rfl⟩ := exists_datum_sign s
    apply datum_injective
    rw [datum_neg, UnpackedFloat.neg, neg_datum_sign]
    rcases datum_pack_finite k hm with h | ⟨n, j, h⟩
    · rw [h, h]
      rfl
    · rw [h, h]
      rfl

/-! ## Products of values -/

theorem unpacked_datum_neg (x : Float) : (datum (-x)).unpacked = (datum x).unpacked.neg := by
  rw [datum_neg, Datum.unpacked_neg]

theorem mul_neg_left (x y : Float) : -x * y = -(x * y) := by
  rw [mul_eq, mul_eq, unpacked_datum_neg, mul_unpacked_neg_left, neg_pack]

theorem mul_neg_right (x y : Float) : x * -y = -(x * y) := by
  rw [mul_eq, mul_eq, unpacked_datum_neg, mul_unpacked_neg_right, neg_pack]

theorem neg_neg_value (x : Float) : - -x = x := by
  apply datum_injective
  rw [datum_neg, datum_neg]
  cases datum x <;> simp [Datum.neg]

theorem mul_neg_both (x y : Float) : -x * -y = x * y := by
  rw [mul_neg_left, mul_neg_right, neg_neg_value]

/-! ## Values of a sign -/

/-- Whether a value has this sign; a NaN has either. -/
def HasSign (negative : Bool) (x : Float) : Prop := Signed (Datum.sign negative) (datum x).unpacked

theorem hasSign_of_infinity (h : datum x = .infinity a) : HasSign a x := by
  unfold HasSign
  rw [h]
  rfl

theorem hasSign_of_datum (h : datum x = .finite a m k) : HasSign a x := by
  unfold HasSign
  rw [h]
  rcases Nat.eq_zero_or_pos m with rfl | hm
  · rfl
  · rw [Datum.unpacked_finite hm]
    rfl

theorem hasSign_of_isNaN (h : x.isNaN = true) (a : Bool) : HasSign a x := by
  unfold HasSign
  rw [datum_of_isNaN h]
  trivial

/-- Every value has the sign that its sign bit gives. -/
theorem hasSign_signBit (x : Float) : HasSign (signBit x) x := by
  cases hd : datum x with
  | nan => exact hasSign_of_isNaN (by rw [isNaN_eq, hd]; rfl) _
  | infinity a => exact signBit_of_infinity hd ▸ hasSign_of_infinity hd
  | finite a m k => exact signBit_of_datum hd ▸ hasSign_of_datum hd

theorem hasSign_pack (h : Signed (Datum.sign a) u) : HasSign a (Float.ofModel (.pack u)) := by
  cases u with
  | notANumber => exact hasSign_of_isNaN (by rfl) a
  | infinity s =>
    obtain rfl : s = Datum.sign a := h
    exact hasSign_of_infinity (datum_ofDatum (d := .infinity a) trivial)
  | zero s =>
    obtain rfl : s = Datum.sign a := h
    exact hasSign_of_datum (by cases a <;> rfl : datum _ = .finite a 0 (-1074))
  | finite s m k hm =>
    obtain rfl : s = Datum.sign a := h
    rcases datum_pack_finite k hm with hd | ⟨n, j, hd⟩
    · exact hasSign_of_infinity (hd a)
    · exact hasSign_of_datum (hd a)

theorem HasSign.mul (hx : HasSign a x) (hy : HasSign b y) : HasSign (a != b) (x * y) := by
  rw [mul_eq]
  exact hasSign_pack (sign_mul a b ▸ Signed.mul hx hy)

theorem div_eq (x y : Float) : x / y = Float.ofModel
    (.pack (UnpackedFloat.div Format.binary64 (datum x).unpacked (datum y).unpacked)) := by
  rw [← unpack_eq, ← unpack_eq]
  rfl

theorem HasSign.div (hx : HasSign a x) (hy : HasSign b y) : HasSign (a != b) (x / y) := by
  rw [div_eq]
  exact hasSign_pack (sign_div a b ▸ Signed.div hx hy)

/-- Terms of one sign have a sum of that sign. -/
theorem HasSign.add (hx : HasSign a x) (hy : HasSign a y) : HasSign a (x + y) := by
  rw [add_eq]
  exact hasSign_pack (add_unpacked_neg hx hy).2

/-- Terms of one sign are negated with their sum. -/
theorem add_neg_both (hx : HasSign a x) (hy : HasSign a y) : -x + -y = -(x + y) := by
  rw [add_eq, add_eq, unpacked_datum_neg, unpacked_datum_neg, (add_unpacked_neg hx hy).1, neg_pack]

/-- A square is not negative. -/
theorem hasSign_mul_self (x : Float) : HasSign false (x * x) := by
  have h := (hasSign_signBit x).mul (hasSign_signBit x)
  rwa [bne_self_eq_false] at h

/-! ## Magnitudes -/

theorem abs_neg_value (x : Float) : (-x).abs = x.abs := by
  apply datum_injective
  rw [datum_abs, datum_neg, datum_abs]
  cases datum x <;> rfl

theorem isNaN_neg (x : Float) : (-x).isNaN = x.isNaN := by
  rw [isNaN_eq, isNaN_eq, datum_neg]
  cases datum x <;> rfl

theorem signBit_neg (h : x.isNaN = false) : signBit (-x) = !signBit x := by
  rw [← signBit_datum h, ← signBit_datum ((isNaN_neg x).trans h), datum_neg]
  rw [isNaN_eq] at h
  cases hd : datum x with
  | nan =>
    rw [hd] at h
    cases h
  | infinity | finite => rfl

theorem natAbs_rank_neg (x : Float) : (rank (-x)).natAbs = (rank x).natAbs := by
  unfold rank Datum.rank
  rw [datum_neg]
  cases datum x with
  | nan => rfl
  | infinity a => cases a <;> simp [Datum.neg, Datum.signBit, Datum.magnitudeRank]
  | finite a m k => cases a <;> simp [Datum.neg, Datum.signBit, Datum.magnitudeRank]

/-- The magnitude with the sign of a negated value. -/
theorem copySign_neg (h : y.isNaN = false) : copySign x (-y) = -copySign x y := by
  unfold copySign withSign
  rw [signBit_neg h]
  cases signBit y
  · rfl
  · exact (neg_neg_value _).symm

/-- A bit in front of a number. -/
theorem xor_two_pow {r p : ℕ} (h : r < 2 ^ p) : r ^^^ 2 ^ p = 2 ^ p + r := by
  have hjoin : 2 ^ p + r = 2 ^ p ||| r := by
    simpa only [Nat.mul_one] using Nat.two_pow_add_eq_or_of_lt h 1
  rw [hjoin]
  apply Nat.eq_of_testBit_eq
  intro i
  rw [Nat.testBit_xor, Nat.testBit_or]
  by_cases hi : p = i
  · subst hi
    rw [Nat.testBit_two_pow_self, Nat.testBit_lt_two_pow h]
    rfl
  · rw [Nat.testBit_two_pow_of_ne hi, Bool.xor_false, Bool.false_or]

/-- A value other than a NaN is negated by its sign bit. -/
theorem toBits_neg (h : x.isNaN = false) :
    (-x).toBits = x.toBits ^^^ 0x8000000000000000 := by
  have hx := toBits_eq_rank h
  have hneg := toBits_eq_rank ((isNaN_neg x).trans h)
  have hle := natAbs_rank_le x
  rw [signBit_neg h, natAbs_rank_neg] at hneg
  generalize (rank x).natAbs = r at *
  have hlt : r < 2 ^ 63 := by
    unfold topRank at hle
    omega
  have hxor := xor_two_pow hlt
  apply UInt64.toNat_inj.mp
  rw [hneg, UInt64.toNat_xor, hx]
  show _ = _ ^^^ 2 ^ 63
  cases signBit x
  · rw [Bool.toNat_false, zero_mul, zero_add, hxor, Bool.not_false, Bool.toNat_true, one_mul]
  · rw [Bool.toNat_true, one_mul, ← hxor, Nat.xor_assoc, Nat.xor_self, Nat.xor_zero,
      Bool.not_true, Bool.toNat_false, zero_mul, zero_add]

end Calculator.Binary64
