import Calculator.Proofs.Binary64.Scientific
import Calculator.Proofs.Grammar.Numerals
import Calculator.Decimal.Layout

/-!
# Printed decimals as numerals

The printed form of a decimal, positional or scientific, is a numeral of the grammar, and what it
is read as is the value nearest to the decimal.

Results:
* `decimal?_parts`: how a decimal is read from its digits and its exponent.
* `Written.number?`: digits, a fraction and an exponent are scanned as one number.
* `Written.value_chars`: such a numeral is read as the value nearest to what its parts stand for.
* `exists_written`: the layout of results prints every decimal in this way.
* `value_magnitude`, `number?_magnitude`: a printed decimal is a number, and is read as the value
  nearest to the decimal.
-/

namespace Calculator.Decimal

open Calculator.Binary64 Calculator.Grammar

/-! ## Digits -/

theorem isDigit_of_mem_digits {n : ℕ} {c : Char} (h : c ∈ digits n) : c.isDigit = true :=
  Nat.isDigit_of_mem_toDigits (by decide) (by decide) h

theorem digits_ne_nil (n : ℕ) : digits n ≠ [] := Nat.toDigits_ne_nil

theorem ofDigits_digits (n : ℕ) : Numeral.ofDigits (digits n) = n := Nat.ofDigitChars_ten_toDigits

theorem ofDigits_append_zeros (ds : List Char) (n : ℕ) :
    Numeral.ofDigits (ds ++ List.replicate n '0') = 10 ^ n * Numeral.ofDigits ds := by
  show Nat.ofDigitChars 10 (ds ++ List.replicate n '0') 0 = _
  rw [Nat.ofDigitChars_append, Nat.ofDigitChars_replicate_zero]
  rfl

theorem ofDigits_zeros_append (n : ℕ) (ds : List Char) :
    Numeral.ofDigits (List.replicate n '0' ++ ds) = Numeral.ofDigits ds := by
  show Nat.ofDigitChars 10 (List.replicate n '0' ++ ds) 0 = _
  rw [Nat.ofDigitChars_append, Nat.ofDigitChars_replicate_zero, mul_zero]
  rfl

theorem isDigits_of_all {cs : List Char} (hne : cs ≠ []) (h : ∀ c ∈ cs, c.isDigit = true) :
    IsDigits cs := by
  have hdigits : ∀ {ds : List Char}, (∀ c ∈ ds, c.isDigit = true) → Digits Char.isDigit ds := by
    intro ds hds
    induction ds with
    | nil => exact .nil
    | cons d ds ih => exact .digit (hds d (by simp)) (ih fun c hc => hds c (by simp [hc]))
  cases cs with
  | nil => exact absurd rfl hne
  | cons d ds => exact ⟨d, ds, rfl, h d (by simp), hdigits fun c hc => h c (by simp [hc])⟩

/-- Digits are read with either sign in front of them, or with none. -/
theorem signedDigits?_of_isDigit {cs : List Char} (hne : cs ≠ [])
    (hdigits : ∀ c ∈ cs, c.isDigit = true) :
    Numeral.signedDigits? cs = some (Numeral.ofDigits cs : ℤ) ∧
      Numeral.signedDigits? ('+' :: cs) = some (Numeral.ofDigits cs : ℤ) ∧
      Numeral.signedDigits? ('-' :: cs) = some (-(Numeral.ofDigits cs : ℤ)) := by
  have hmagnitude : (if cs.isEmpty || !cs.all Char.isDigit then none
      else some (Numeral.ofDigits cs : ℤ)) = some (Numeral.ofDigits cs : ℤ) := by
    simp [hne, List.all_eq_true.mpr hdigits]
  refine ⟨?_, hmagnitude, congrArg (Option.map (- ·)) hmagnitude⟩
  -- the first digit is no sign
  unfold Numeral.signedDigits?
  split
  · cases hdigits '+' List.mem_cons_self
  · cases hdigits '-' List.mem_cons_self
  · exact hmagnitude

theorem signedDigits?_digits (n : ℕ) : Numeral.signedDigits? (digits n) = some (n : ℤ) := by
  obtain ⟨hplain, -⟩ := signedDigits?_of_isDigit (digits_ne_nil n) fun _ => isDigit_of_mem_digits
  rw [hplain, ofDigits_digits]

theorem signedDigits?_integerText (n : ℤ) : Numeral.signedDigits? (integerText n) = some n := by
  unfold integerText
  split_ifs with hneg
  · obtain ⟨-, -, hminus⟩ :=
      signedDigits?_of_isDigit (digits_ne_nil n.natAbs) fun _ => isDigit_of_mem_digits
    rw [hminus, ofDigits_digits]
    congr 1
    omega
  · rw [signedDigits?_digits]
    congr 1
    omega

/-! ## Decimals and their parts -/

/-- Whether a text behind the digits of a decimal is an exponent, or empty where there is none. -/
def IsReadAs (exponent : List Char) (k : ℤ) : Prop :=
  exponent = [] ∧ k = 0 ∨ ∃ ds, exponent = 'e' :: ds ∧ Numeral.signedDigits? ds = some k

/-- Digits around an optional point, with an optional exponent, are read as the value nearest to
    their number. -/
theorem decimal?_parts {whole fraction exponent : List Char} {pointed : Bool} {k : ℤ}
    (hwhole : ∀ c ∈ whole, c.isDigit = true) (hfraction : ∀ c ∈ fraction, c.isDigit = true)
    (hne : whole ≠ [] ∨ fraction ≠ []) (hpointed : pointed = false → fraction = [])
    (hk : IsReadAs exponent k) :
    Numeral.decimal? (whole ++ ((if pointed then ['.'] else []) ++ (fraction ++ exponent))) =
      some (Numeral.nearest (Numeral.ofDigits (whole ++ fraction)) (k - fraction.length)) := by
  have hletter : startsWith Char.isDigit exponent = false := by
    rcases hk with ⟨rfl, -⟩ | ⟨ds, rfl, -⟩ <;> rfl
  have hsome : (whole.isEmpty && fraction.isEmpty) = false := by
    rcases hne with hne | hne <;> simp [hne]
  obtain ⟨htake, hdrop⟩ := takeWhile_of_startsWith hfraction hletter
  unfold Numeral.decimal?
  cases pointed with
  | true =>
    have hpoint : startsWith Char.isDigit ('.' :: (fraction ++ exponent)) = false := rfl
    obtain ⟨htake', hdrop'⟩ := takeWhile_of_startsWith hwhole hpoint
    simp only [if_true, List.cons_append, List.nil_append, htake', hdrop', htake, hdrop, hsome]
    rcases hk with ⟨rfl, rfl⟩ | ⟨ds, rfl, hk⟩
    · rfl
    · simp [hk]
  | false =>
    obtain rfl := hpointed rfl
    obtain ⟨htake', hdrop'⟩ := takeWhile_of_startsWith hwhole hletter
    have hwhole : whole.isEmpty = false := by simpa using hsome
    simp only [Bool.false_eq_true, if_false, List.nil_append, htake', hdrop']
    rcases hk with ⟨rfl, rfl⟩ | ⟨ds, rfl, hk⟩
    · simp [hwhole]
    · simp [hwhole, hk]

/-! ## Numerals with digits in front of the point -/

/-- Digits with an optional fraction behind a point and an optional exponent. -/
structure Written where
  whole : List Char
  fraction : List Char
  exponent : Option ℤ
  whole_ne_nil : whole ≠ []
  isDigit_whole : ∀ c ∈ whole, c.isDigit = true
  isDigit_fraction : ∀ c ∈ fraction, c.isDigit = true

namespace Written

variable (w : Written)

/-- A fraction behind its point. -/
def fractionText : List Char := if w.fraction = [] then [] else '.' :: w.fraction

/-- An exponent behind its letter. -/
def exponentText : List Char :=
  match w.exponent with
  | none => []
  | some n => 'e' :: integerText n

/-- The characters of a numeral. -/
def chars : List Char := w.whole ++ (w.fractionText ++ w.exponentText)

/-- The digits in front of and behind the point as one number. -/
def significand : ℕ := Numeral.ofDigits (w.whole ++ w.fraction)

/-- The place of the last digit. -/
def lastExponent : ℤ := w.exponent.getD 0 - w.fraction.length

theorem isExponent_exponentText (h : w.exponentText ≠ []) : IsExponent w.exponentText := by
  unfold exponentText at h ⊢
  split at h
  · exact absurd rfl h
  · next n _ =>
    have hdigits := isDigits_of_all (digits_ne_nil n.natAbs) fun c hc => isDigit_of_mem_digits hc
    unfold integerText
    split_ifs
    · exact ⟨'e', ['-'], _, rfl, rfl, .inr ⟨'-', rfl, rfl⟩, hdigits⟩
    · exact ⟨'e', [], _, rfl, rfl, .inl rfl, hdigits⟩

/-- The numeral as the grammar takes it apart. -/
def decimalText : DecimalText where
  whole := w.whole
  pointed := !w.fraction.isEmpty
  fraction := w.fraction
  exponent := w.exponentText
  isDigits_whole h := isDigits_of_all h w.isDigit_whole
  isDigits_fraction h := isDigits_of_all h w.isDigit_fraction
  pointed_of_fraction h := by simpa using h
  isExponent_exponent := w.isExponent_exponentText
  nonempty := .inl w.whole_ne_nil

theorem chars_decimalText : w.decimalText.chars = w.chars := by
  show w.whole ++ ((if !w.fraction.isEmpty then ['.'] else []) ++ (w.fraction ++ w.exponentText)) =
    w.whole ++ ((if w.fraction = [] then [] else '.' :: w.fraction) ++ w.exponentText)
  cases w.fraction <;> rfl

/-- A numeral is scanned as one number. -/
theorem number? : Grammar.number? w.chars = some ⟨w.chars, []⟩ := by
  have h := @DecimalText.number? w.decimalText [] rfl fun _ _ => rfl
  rwa [List.append_nil, chars_decimalText] at h

/-! ## What a numeral is read as -/

theorem isReadAs_exponentText : IsReadAs w.exponentText (w.exponent.getD 0) := by
  unfold exponentText
  cases w.exponent with
  | none => exact .inl ⟨rfl, rfl⟩
  | some n => exact .inr ⟨integerText n, rfl, signedDigits?_integerText n⟩

theorem decimal?_chars :
    Numeral.decimal? w.chars = some (Numeral.nearest w.significand w.lastExponent) := by
  rw [← chars_decimalText]
  exact decimal?_parts w.isDigit_whole w.isDigit_fraction (.inl w.whole_ne_nil)
    DecimalText.fraction_eq_nil w.isReadAs_exponentText

/-- The characters that a printed numeral is made of. -/
def IsPlain (c : Char) : Prop := c.isDigit = true ∨ c = '.' ∨ c = 'e' ∨ c = '-'

theorem isPlain_of_mem_chars {c : Char} (h : c ∈ w.chars) : IsPlain c := by
  unfold chars fractionText exponentText at h
  rcases List.mem_append.mp h with h | h
  · exact .inl (w.isDigit_whole c h)
  rcases List.mem_append.mp h with h | h
  · split_ifs at h
    · cases h
    · rcases List.mem_cons.mp h with rfl | h
      · exact .inr (.inl rfl)
      · exact .inl (w.isDigit_fraction c h)
  · split at h
    · cases h
    · rcases List.mem_cons.mp h with rfl | h
      · exact .inr (.inr (.inl rfl))
      · unfold integerText at h
        split_ifs at h
        · rcases List.mem_cons.mp h with rfl | h
          · exact .inr (.inr (.inr rfl))
          · exact .inl (isDigit_of_mem_digits h)
        · exact .inl (isDigit_of_mem_digits h)

theorem IsPlain.unchanged {c : Char} (h : IsPlain c) : c ≠ '_' ∧ c.toLower = c := by
  rcases h with h | rfl | rfl | rfl
  · constructor
    · rintro rfl
      cases h
    · rw [Char.toLower, dif_neg]
      intro hupper
      simp only [Char.isDigit, Bool.and_eq_true, decide_eq_true_eq] at h
      exact absurd (UInt32.le_trans hupper.1 h.2) (by decide)
  · exact ⟨by decide, rfl⟩
  · exact ⟨by decide, rfl⟩
  · exact ⟨by decide, rfl⟩

/-- Without underscores and capital letters, a numeral is read as it stands. -/
theorem filter_map_chars : (w.chars.filter (· ≠ '_')).map Char.toLower = w.chars := by
  have hfilter : w.chars.filter (· ≠ '_') = w.chars :=
    List.filter_eq_self.mpr fun c hc => by simpa using (w.isPlain_of_mem_chars hc).unchanged.1
  rw [hfilter]
  exact (List.map_congr_left fun c hc => (w.isPlain_of_mem_chars hc).unchanged.2).trans
    (List.map_id' _)

/-- The letter of a base is no character of a printed numeral. -/
theorem value_chars : Numeral.value w.chars = Numeral.nearest w.significand w.lastExponent := by
  have hplain := fun c => w.isPlain_of_mem_chars (c := c)
  rw [Numeral.value, filter_map_chars]
  split
  · next heq => exact absurd (hplain 'x' (by rw [heq]; simp)) (by unfold IsPlain; decide)
  · next heq => exact absurd (hplain 'o' (by rw [heq]; simp)) (by unfold IsPlain; decide)
  · next heq => exact absurd (hplain 'b' (by rw [heq]; simp)) (by unfold IsPlain; decide)
  · rw [decimal?_chars, Option.getD_some]

end Written

/-! ## The layout of results -/

variable (d : Decimal)

/-- A whole number in its places, with a zero behind the point. -/
theorem written_whole (h : 0 ≤ d.exponent) : ∃ w : Written, d.positional ++ ['.', '0'] = w.chars ∧
    (w.significand * 10 ^ w.lastExponent : ℚ) = d.significand * 10 ^ d.exponent := by
  obtain ⟨n, hn⟩ : ∃ n : ℕ, d.exponent = n := ⟨d.exponent.toNat, by omega⟩
  refine ⟨⟨digits d.significand ++ List.replicate n '0', ['0'], none, ?_, ?_, ?_⟩, ?_, ?_⟩
  · simp [digits_ne_nil]
  · intro c hc
    rcases List.mem_append.mp hc with hc | hc
    · exact isDigit_of_mem_digits hc
    · rw [List.eq_of_mem_replicate hc]
      rfl
  · intro c hc
    rw [List.mem_singleton.mp hc]
    rfl
  · rw [positional, if_pos h, hn]
    rfl
  · have hsignificand : Numeral.ofDigits (digits d.significand ++ List.replicate n '0' ++ ['0']) =
        10 * (10 ^ n * d.significand) := by
      show Numeral.ofDigits (_ ++ List.replicate 1 '0') = _
      rw [ofDigits_append_zeros, ofDigits_append_zeros, ofDigits_digits, pow_one]
    show ((Numeral.ofDigits (digits d.significand ++ List.replicate n '0' ++ ['0']) : ℕ) : ℚ) *
      10 ^ (-1 : ℤ) = _
    rw [hsignificand, hn, zpow_natCast]
    push_cast
    ring

/-- Digits of which the last `n` stand behind the point. -/
theorem written_split {n : ℕ} (hn : 0 < n) (h : n < (digits d.significand).length) :
    ∃ w : Written, (digits d.significand).take ((digits d.significand).length - n) ++
      '.' :: (digits d.significand).drop ((digits d.significand).length - n) = w.chars ∧
    w.significand = d.significand ∧ w.lastExponent = -n := by
  have hmem : ∀ c ∈ digits d.significand, c.isDigit = true := fun c => isDigit_of_mem_digits
  have hlength :
      ((digits d.significand).drop ((digits d.significand).length - n)).length = n := by
    rw [List.length_drop]
    omega
  have hne : (digits d.significand).drop ((digits d.significand).length - n) ≠ [] :=
    List.ne_nil_of_length_pos (by omega)
  refine ⟨⟨(digits d.significand).take ((digits d.significand).length - n),
    (digits d.significand).drop ((digits d.significand).length - n), none, ?_,
    fun c hc => hmem c (List.mem_of_mem_take hc),
    fun c hc => hmem c (List.mem_of_mem_drop hc)⟩, ?_, ?_, ?_⟩
  · exact List.ne_nil_of_length_pos (by rw [List.length_take]; omega)
  · rw [Written.chars, Written.fractionText, if_neg hne]
    simp [Written.exponentText]
  · rw [Written.significand, List.take_append_drop, ofDigits_digits]
  · rw [Written.lastExponent, hlength]
    simp

/-- Digits behind the point, with zeros for those that are missing of `n`. -/
theorem written_padded {n : ℕ} (h : (digits d.significand).length ≤ n) :
    ∃ w : Written, '0' :: '.' :: (List.replicate (n - (digits d.significand).length) '0' ++
      digits d.significand) = w.chars ∧
    w.significand = d.significand ∧ w.lastExponent = -n := by
  refine ⟨⟨['0'], List.replicate (n - (digits d.significand).length) '0' ++ digits d.significand,
    none, nofun, ?_, ?_⟩, ?_, ?_, ?_⟩
  · intro c hc
    rw [List.mem_singleton.mp hc]
    rfl
  · intro c hc
    rcases List.mem_append.mp hc with hc | hc
    · rw [List.eq_of_mem_replicate hc]
      rfl
    · exact isDigit_of_mem_digits hc
  · simp [Written.chars, Written.fractionText, Written.exponentText, digits_ne_nil]
  · rw [Written.significand, ← List.append_assoc]
    show Numeral.ofDigits ((List.replicate 1 '0' ++ List.replicate _ '0') ++ _) = _
    rw [List.append_assoc, ofDigits_zeros_append, ofDigits_zeros_append, ofDigits_digits]
  · have hlength : (List.replicate (n - (digits d.significand).length) '0' ++
        digits d.significand).length = n := by
      rw [List.length_append, List.length_replicate]
      omega
    rw [Written.lastExponent, hlength]
    simp

/-- A fraction in its places, with a zero in front of the point if no digit stands there. -/
theorem written_fraction (h : ¬ 0 ≤ d.exponent) : ∃ w : Written, d.positional = w.chars ∧
    (w.significand * 10 ^ w.lastExponent : ℚ) = d.significand * 10 ^ d.exponent := by
  obtain ⟨n, hn, hpos⟩ : ∃ n : ℕ, d.exponent = -n ∧ 0 < n :=
    ⟨(-d.exponent).toNat, by omega, by omega⟩
  have hplaces : (-d.exponent).toNat = n := by omega
  rw [positional, if_neg h]
  dsimp only
  rw [hplaces]
  split_ifs with hlt
  · obtain ⟨w, hw, hsignificand, hexponent⟩ := written_split d hpos hlt
    exact ⟨w, hw, by rw [hsignificand, hexponent, hn]⟩
  · obtain ⟨w, hw, hsignificand, hexponent⟩ := written_padded d (not_lt.mp hlt)
    exact ⟨w, hw, by rw [hsignificand, hexponent, hn]⟩

/-- One digit, the others behind the point, and an exponent. -/
theorem written_scientific : ∃ w : Written, d.scientific = w.chars ∧
    (w.significand * 10 ^ w.lastExponent : ℚ) = d.significand * 10 ^ d.exponent := by
  obtain ⟨first, rest, hds⟩ := List.exists_cons_of_ne_nil (digits_ne_nil d.significand)
  have hmem : ∀ c ∈ first :: rest, c.isDigit = true := by
    rw [← hds]
    exact fun c => isDigit_of_mem_digits
  refine ⟨⟨[first], rest, some d.leadingExponent, nofun,
    fun c hc => hmem c (by simp [List.mem_singleton.mp hc]), fun c hc => hmem c (by simp [hc])⟩,
    ?_, ?_⟩
  · rw [scientific, hds]
    cases rest <;> rfl
  · have hexponent : d.leadingExponent - rest.length = d.exponent := by
      rw [leadingExponent, hds, List.length_cons]
      push_cast
      ring
    have hsignificand : Numeral.ofDigits ([first] ++ rest) = d.significand := by
      rw [List.singleton_append, ← hds, ofDigits_digits]
    rw [Written.significand, hsignificand, Written.lastExponent, Option.getD_some, hexponent]

/-- The layout of results writes a decimal as a numeral with the same number. -/
theorem exists_written : ∃ w : Written, Layout.result.magnitude d = w.chars ∧
    (w.significand * 10 ^ w.lastExponent : ℚ) = d.significand * 10 ^ d.exponent := by
  unfold Layout.magnitude
  split_ifs with hpositional hwhole
  · exact written_whole d (by simpa [Layout.result] using hwhole)
  · exact written_fraction d (by simpa [Layout.result] using hwhole)
  · exact written_scientific d

theorem number?_magnitude :
    Grammar.number? (Layout.result.magnitude d) = some ⟨Layout.result.magnitude d, []⟩ := by
  obtain ⟨w, hw, -⟩ := exists_written d
  rw [hw]
  exact w.number?

/-- A printed decimal is read as the value nearest to it. -/
theorem value_magnitude : Numeral.value (Layout.result.magnitude d) =
    ofMagnitude false (d.significand * 10 ^ d.exponent) := by
  obtain ⟨w, hw, hvalue⟩ := exists_written d
  rw [hw, w.value_chars, Numeral.nearest_eq, hvalue]

end Calculator.Decimal
