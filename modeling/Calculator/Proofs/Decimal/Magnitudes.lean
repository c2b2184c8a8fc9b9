import Calculator.Proofs.Binary64.Bounds
import Calculator.Proofs.Binary64.Exact
import Calculator.Proofs.Decimal.Radix
import Calculator.Proofs.Grammar.Occurrences

/-!
# Numerals are magnitudes

Whatever the grammar takes as a number can be read as one: no numeral is left to the NaN that stands
for other texts, and none has a sign.  A value beyond the largest one is an infinity.

Results:
* `isMagnitude_appendDigit`, `isMagnitude_inRadix`: the digits of another base keep a magnitude.
* `DecimalText.exists_decimal?`: a decimal of the grammar is one for the reader of values, without
  its underscores and in lower case.
* `Numeral.isMagnitude_of_value?`: whatever is read is a magnitude.
* `parse_magnitudes`: the numbers of an expression are magnitudes, and so are those of all lexemes.
-/

namespace Calculator

open Binary64 Grammar

/-! ## Magnitudes -/

/-- A value with a clear sign bit that is no NaN. -/
def IsMagnitude (x : Float) : Prop := x.isNaN = false ∧ signBit x = false

/-- Whether a literal that is a number is a magnitude. -/
def Literal.IsMagnitude : Literal → Prop
  | number x | imaginary x => Calculator.IsMagnitude x
  | _ => True

section Magnitudes

variable {x y : Float} {n : ℕ} {k : ℤ}

theorem isMagnitude_ofMagnitude {v : ℚ} (hv : 0 ≤ v) : IsMagnitude (ofMagnitude false v) :=
  ⟨isNaN_ofMagnitude false hv, signBit_ofMagnitude false hv⟩

theorem isMagnitude_of_infinity (h : datum x = .infinity false) : IsMagnitude x := by
  refine ⟨?_, signBit_of_infinity h⟩
  rw [isNaN_eq, h]
  rfl

/-- A magnitude is infinite or a number. -/
theorem IsMagnitude.datum_cases (h : IsMagnitude x) :
    datum x = .infinity false ∨ ∃ m j, datum x = .finite false m j := by
  obtain ⟨hnan, hsign⟩ := h
  cases hd : datum x with
  | nan =>
    rw [isNaN_eq, hd] at hnan
    cases hnan
  | infinity a =>
    rw [signBit_of_infinity hd] at hsign
    exact .inl (by rw [hsign])
  | finite a m j =>
    rw [signBit_of_datum hd] at hsign
    exact .inr ⟨m, j, by rw [hsign]⟩

/-- The product with a positive number. -/
theorem IsMagnitude.mul (hx : IsMagnitude x) (hy : datum y = .finite false n k) (hn : 0 < n) :
    IsMagnitude (x * y) := by
  rcases hx.datum_cases with hd | ⟨m, j, hd⟩
  · rw [infinity_mul hd hy hn]
    exact isMagnitude_of_infinity datum_infinity
  · rw [mul_finite hd hy]
    exact isMagnitude_ofMagnitude (by positivity)

/-- The sum with a number that is not negative. -/
theorem IsMagnitude.add (hx : IsMagnitude x) (hy : datum y = .finite false n k) :
    IsMagnitude (x + y) := by
  rcases hx.datum_cases with hd | ⟨m, j, hd⟩
  · rw [infinity_add hd hy]
    exact isMagnitude_of_infinity datum_infinity
  · rw [add_finite hd hy]
    exact isMagnitude_ofMagnitude (by positivity)

end Magnitudes

/-! ## Digits of another base -/

section Radix

variable {radix d : ℕ} {x : Float}

/-- One more digit keeps a magnitude, also behind an infinity. -/
theorem isMagnitude_appendDigit (hpos : 0 < radix) (hradix : radix < 2 ^ 53) (hd : d < 2 ^ 53)
    (hx : IsMagnitude x) : IsMagnitude (appendDigit radix x d) := by
  obtain ⟨m, j, hbase, hvalue⟩ := datum_ofNat_small hradix
  obtain ⟨n, k, hdigit, -⟩ := datum_ofNat_small hd
  have hm : 0 < m := by
    refine Nat.pos_of_ne_zero ?_
    rintro rfl
    rw [Nat.cast_zero, zero_mul] at hvalue
    exact hpos.ne (Nat.cast_injective (hvalue.trans rfl))
  exact (hx.mul hbase hm).add hdigit

theorem digitValue?_lt {c : Char} (h : Numeral.digitValue? c = some d) : d < 16 := by
  have hchar : ∀ {a : Char}, c ≤ a → c.toNat ≤ a.toNat := id
  unfold Numeral.digitValue? at h
  split_ifs at h with hdecimal hletter
  · have hle := hchar hdecimal.2
    have h9 : '9'.toNat = 57 := rfl
    have h0 : '0'.toNat = 48 := rfl
    cases h
    omega
  · have hle := hchar hletter.2
    have hf : 'f'.toNat = 102 := rfl
    have ha : 'a'.toNat = 97 := rfl
    cases h
    omega

/-- Digits in another base are read as a magnitude, however many there are. -/
theorem isMagnitude_inRadix (hpos : 0 < radix) (hradix : radix < 2 ^ 53) (cs : List Char) :
    IsMagnitude (Numeral.inRadix radix cs) := by
  have hdigits : ∀ d ∈ cs.filterMap Numeral.digitValue?, d < 2 ^ 53 := by
    intro d hd
    obtain ⟨c, -, hc⟩ := List.mem_filterMap.mp hd
    exact (digitValue?_lt hc).trans (by norm_num)
  have hzero : IsMagnitude 0.0 := by
    rw [zero_eq]
    exact isMagnitude_ofMagnitude le_rfl
  exact List.foldlRecOn _ (appendDigit radix) hzero fun x hx d hd =>
    isMagnitude_appendDigit hpos hradix (hdigits d hd) hx

end Radix

/-! ## Decimals -/

namespace Numeral

/-- The characters of a numeral that count, in lower case. -/
def plain (text : List Char) : List Char := (text.filter (· ≠ '_')).map Char.toLower

/-- The value of a numeral, if it is one. -/
def value? (text : List Char) : Option Float :=
  match plain text with
  | '0' :: 'x' :: ds => some (inRadix 16 ds)
  | '0' :: 'o' :: ds => some (inRadix 8 ds)
  | '0' :: 'b' :: ds => some (inRadix 2 ds)
  | cs => decimal? cs

theorem value_eq_getD (text : List Char) : value text = (value? text).getD nan := by
  show (match plain text with
    | '0' :: 'x' :: ds => inRadix 16 ds
    | '0' :: 'o' :: ds => inRadix 8 ds
    | '0' :: 'b' :: ds => inRadix 2 ds
    | cs => (decimal? cs).getD nan) = _
  unfold value?
  split <;> simp [*]

/-- A decimal is read as the value nearest to some number. -/
theorem exists_nearest_of_decimal? {cs : List Char} {x : Float} (h : decimal? cs = some x) :
    ∃ n k, x = nearest n k := by
  unfold decimal? at h
  dsimp only at h
  split at h
  all_goals
    split_ifs at h
    split at h
    · cases h
      exact ⟨_, _, rfl⟩
    · obtain ⟨k, -, rfl⟩ := Option.map_eq_some_iff.mp h
      exact ⟨_, _, rfl⟩
    · cases h

/-- Whatever is read is a magnitude. -/
theorem isMagnitude_of_value? {text : List Char} {x : Float} (h : value? text = some x) :
    IsMagnitude x := by
  unfold value? at h
  split at h
  · cases h; exact isMagnitude_inRadix (by norm_num) (by norm_num) _
  · cases h; exact isMagnitude_inRadix (by norm_num) (by norm_num) _
  · cases h; exact isMagnitude_inRadix (by norm_num) (by norm_num) _
  · obtain ⟨n, k, rfl⟩ := exists_nearest_of_decimal? h
    rw [nearest_eq]
    exact isMagnitude_ofMagnitude (by positivity)

theorem plain_append (text tail : List Char) : plain (text ++ tail) = plain text ++ plain tail := by
  rw [plain, List.filter_append, List.map_append]
  rfl

theorem plain_cons {c : Char} (hc : c ≠ '_') (text : List Char) :
    plain (c :: text) = c.toLower :: plain text := by
  rw [plain, List.filter_cons_of_pos (by simpa using hc)]
  rfl

end Numeral

open Numeral

section Decimals

variable {cs : List Char}

/-- Digits without their underscores are still digits. -/
theorem Grammar.IsDigits.isDigit_plain (h : IsDigits cs) : ∀ c ∈ plain cs, c.isDigit = true := by
  obtain ⟨d, more, rfl, hd, hmore⟩ := h
  intro c hc
  obtain ⟨c', hc', rfl⟩ := List.mem_map.mp hc
  have hdigit := digits_of_mem (.digit hd hmore) hc'
  obtain ⟨-, hlower⟩ := Decimal.Written.IsPlain.unchanged (.inl hdigit)
  rwa [hlower]

theorem Grammar.IsDigits.plain_ne_nil (h : IsDigits cs) : plain cs ≠ [] := by
  obtain ⟨d, more, rfl, hd, -⟩ := h
  obtain ⟨hne, -⟩ := Decimal.Written.IsPlain.unchanged (.inl hd)
  rw [plain_cons hne]
  exact List.cons_ne_nil _ _

/-- The same of digits that may be missing. -/
theorem isDigit_plain (h : cs ≠ [] → IsDigits cs) : ∀ c ∈ plain cs, c.isDigit = true := by
  by_cases hnil : cs = []
  · rw [hnil]
    exact nofun
  · exact (h hnil).isDigit_plain

/-- The exponent of a decimal is one for the reader of values. -/
theorem Grammar.IsExponent.isReadAs_plain (h : IsExponent cs) :
    ∃ k, Decimal.IsReadAs (plain cs) k := by
  obtain ⟨letter, sign, ds, rfl, hletter, hsign, hds⟩ := h
  obtain ⟨hk, hplus, hminus⟩ :=
    Decimal.signedDigits?_of_isDigit hds.plain_ne_nil hds.isDigit_plain
  have hplain : plain (letter :: (sign ++ ds)) = 'e' :: (plain sign ++ plain ds) := by
    rw [isExponentLetter, Bool.or_eq_true, beq_iff_eq, beq_iff_eq] at hletter
    rw [← plain_append]
    rcases hletter with rfl | rfl <;> exact plain_cons (by decide) _
  rw [hplain]
  rcases hsign with rfl | ⟨c, rfl, hc⟩
  · exact ⟨_, .inr ⟨_, rfl, hk⟩⟩
  · rw [isExponentSign, Bool.or_eq_true, beq_iff_eq, beq_iff_eq] at hc
    rcases hc with rfl | rfl
    · exact ⟨_, .inr ⟨_, rfl, hplus⟩⟩
    · exact ⟨_, .inr ⟨_, rfl, hminus⟩⟩

end Decimals

/-- A decimal of the grammar is one for the reader of values. -/
theorem Grammar.DecimalText.exists_decimal? (d : DecimalText) :
    ∃ x, Numeral.decimal? (plain d.chars) = some x := by
  have hwhole : d.whole ≠ [] → plain d.whole ≠ [] := fun h => (d.isDigits_whole h).plain_ne_nil
  have hfraction : d.fraction ≠ [] → plain d.fraction ≠ [] :=
    fun h => (d.isDigits_fraction h).plain_ne_nil
  have hplain : plain d.chars = plain d.whole ++
      ((if d.pointed then ['.'] else []) ++ (plain d.fraction ++ plain d.exponent)) := by
    have hpoint : plain (if d.pointed then ['.'] else []) = if d.pointed then ['.'] else [] := by
      cases d.pointed <;> rfl
    rw [chars, tail, plain_append, plain_append, plain_append, hpoint]
  obtain ⟨k, hk⟩ : ∃ k, Decimal.IsReadAs (plain d.exponent) k := by
    by_cases hnil : d.exponent = []
    · exact ⟨0, .inl ⟨by rw [hnil]; rfl, rfl⟩⟩
    · exact (d.isExponent_exponent hnil).isReadAs_plain
  have hpointed : d.pointed = false → plain d.fraction = [] := by
    intro h
    rw [fraction_eq_nil h]
    rfl
  rw [hplain]
  exact ⟨_, Decimal.decimal?_parts (isDigit_plain d.isDigits_whole)
    (isDigit_plain d.isDigits_fraction) (d.nonempty.imp hwhole hfraction) hpointed hk⟩

/-! ## Lexemes -/

section Lexemes

variable {text : List Char} {s : Split}

/-- An integer of another base begins as one for the reader of values. -/
theorem exists_value?_of_radixInteger? (h : radixInteger? text = some s) :
    ∃ x, value? s.front = some x := by
  obtain ⟨letter, rest, isDigit, -, hletter, -, rfl⟩ := radixInteger?_eq_some h
  have hne : letter ≠ '_' := by
    rintro rfl
    cases hletter
  dsimp only
  rw [value?, plain_cons (by decide), plain_cons hne]
  rw [radixDigit?] at hletter
  split at hletter
  · next hx => rw [hx]; exact ⟨_, rfl⟩
  · next ho => rw [ho]; exact ⟨_, rfl⟩
  · next hb => rw [hb]; exact ⟨_, rfl⟩
  · cases hletter

/-- So does a decimal. -/
theorem exists_value?_of_decimal? (h : Grammar.decimal? text = some s) :
    ∃ x, value? s.front = some x := by
  obtain ⟨d, hd, -⟩ := exists_decimalText h
  obtain ⟨x, hx⟩ := d.exists_decimal?
  rw [hd]
  unfold value?
  split
  · exact ⟨_, rfl⟩
  · exact ⟨_, rfl⟩
  · exact ⟨_, rfl⟩
  · exact ⟨x, hx⟩

/-- The value of a number is read. -/
theorem exists_value?_of_number? (h : Grammar.number? text = some s) :
    ∃ x, value? s.front = some x := by
  obtain ⟨-, hradix | ⟨-, hdecimal⟩⟩ := number?_eq_some h
  · exact exists_value?_of_radixInteger? hradix
  · exact exists_value?_of_decimal? hdecimal

/-- The value of an imaginary number is read from what stands in front of the `j`. -/
theorem exists_value?_of_imaginary? (h : imaginary? text = some s) :
    ∃ x, value? s.front.dropLast = some x := by
  rw [imaginary?_eq] at h
  obtain ⟨t, ht, h⟩ := Option.bind_eq_some_iff.mp h
  obtain ⟨u, hu, h⟩ := Option.bind_eq_some_iff.mp h
  obtain ⟨rfl, -⟩ := Split.atWordEnd?_eq_some h
  obtain ⟨letter, hletter, rfl⟩ := Option.map_eq_some_iff.mp hu
  obtain ⟨c, more, -, -, rfl⟩ := charOf?_eq_some hletter
  dsimp only
  rw [List.dropLast_concat]
  exact exists_value?_of_decimal? ht

/-- What is read is the value, and a magnitude. -/
theorem value_of_value? {cs : List Char} (h : ∃ x, value? cs = some x) :
    value? cs = some (value cs) ∧ IsMagnitude (value cs) := by
  obtain ⟨x, hx⟩ := h
  have hvalue : value cs = x := by rw [value_eq_getD, hx, Option.getD_some]
  rw [hvalue]
  exact ⟨hx, isMagnitude_of_value? hx⟩

end Lexemes

/-- The literals of the tokens of a text are magnitudes. -/
theorem Grammar.Lexed.isMagnitude {text : List Char} {ts : List Token} (h : Lexed text ts)
    {t : Token} (ht : t ∈ ts) {l : Literal} (hl : Item.literal l ∈ t.items) : l.IsMagnitude := by
  cases t with
  | symbol y =>
    rw [Token.items] at hl
    split at hl
    · cases List.mem_singleton.mp hl
    · cases hl
  | lexeme lexeme cs =>
    obtain ⟨text', rest, hscan⟩ := h.exists_scan? ht
    cases lexeme with
    | number =>
      cases List.mem_singleton.mp hl
      exact (value_of_value? (exists_value?_of_number? hscan)).2
    | imaginary =>
      cases List.mem_singleton.mp hl
      exact (value_of_value? (exists_value?_of_imaginary? hscan)).2
    | string => cases List.mem_singleton.mp hl; trivial
    | identifier => cases List.mem_singleton.mp hl
    | keyword k =>
      cases k with
      | trueWord | falseWord | noneWord => cases List.mem_singleton.mp hl; trivial
      | lambdaWord | ifWord | elseWord | forWord => cases hl
      | _ => cases List.mem_singleton.mp hl

/-- Every number of an expression is a magnitude, and so is every imaginary one: the value of what
    the grammar takes as a number is read, and is never the NaN that stands for other texts. -/
theorem parse_magnitudes :
    (∀ text e, parse text = .ok e → ∀ l, Item.literal l ∈ e.items → l.IsMagnitude) ∧
    (∀ text s, Grammar.number? text = some s →
      value? s.front = some (value s.front) ∧ IsMagnitude (value s.front)) ∧
    ∀ text s, imaginary? text = some s →
      value? s.front.dropLast = some (value s.front.dropLast) ∧
        IsMagnitude (value s.front.dropLast) := by
  refine ⟨fun text e h l hl => ?_, fun _ _ h => value_of_value? (exists_value?_of_number? h),
    fun _ _ h => value_of_value? (exists_value?_of_imaginary? h)⟩
  obtain ⟨ts, hlexed, haccounted⟩ := accounted_of_parse h
  have hitems : itemsOfTokens false ts = e.items := haccounted.itemsOfTokens_eq
  rw [← hitems] at hl
  obtain ⟨t, ht, hmem⟩ := exists_mem_items hl fun _ => nofun
  exact hlexed.isMagnitude ht hmem

/-- A number beyond the largest value, and an imaginary one with all that a decimal may have. -/
theorem parse_magnitudes_overflow :
    parse "1e999" = .ok (.literal (.number (value "1e999".toList))) ∧
      IsMagnitude (value "1e999".toList) ∧
      value? "1_0.5E-0_2".toList = some (value "1_0.5E-0_2".toList) ∧
      IsMagnitude (value "1_0.5E-0_2".toList) := by
  obtain ⟨hliterals, -, himaginary⟩ := parse_magnitudes
  have hnumber : Grammar.number? "1e999".toList = some ⟨"1e999".toList, []⟩ := rfl
  have hparse : parse "1e999" = .ok (.literal (.number (value "1e999".toList))) :=
    parse_number hnumber
  have hscan : imaginary? "1_0.5E-0_2J + 1".toList =
      some ⟨"1_0.5E-0_2J".toList, " + 1".toList⟩ := rfl
  exact ⟨hparse, hliterals _ _ hparse _ List.mem_cons_self, himaginary _ _ hscan⟩

end Calculator
