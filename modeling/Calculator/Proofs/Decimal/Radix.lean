import Calculator.Proofs.Binary64.Accumulation
import Calculator.Proofs.Decimal.Written
import Calculator.Proofs.Grammar.Composition

/-!
# Numerals in other bases

A numeral in base 16, 8 or 2 is accumulated digit by digit in binary64, while one in base 10 is read
as the value nearest to its number.  The two agree on all numbers of at most 53 bits, and beyond
them unless a tie is lost.

Results:
* `mem_digitChars`: the characters that are digits of a base.
* `RadixNumeral.number?_chars`: a numeral in another base is scanned as one number.
* `RadixNumeral.value_chars`: it is read by accumulating its digits.
* `value_digits`: the decimal digits of a number are read as the value nearest to it.
* `RadixNumeral.parse_nearest_iff`: when a numeral in another base is read as the value nearest to
  its number.
-/

namespace Calculator

open Binary64 Grammar

/-! ## Digits -/

/-- The number that a digit up to `f` stands for, in either case; 16 for any other character. -/
def digit (c : Char) : ℕ := "0123456789abcdef".toList.idxOf c.toLower

/-- The digits up to `f` in both cases. -/
def digitChars : List Char := "0123456789abcdefABCDEF".toList

theorem mem_digitChars {c : Char} (h : digit c < 16) : c ∈ digitChars := by
  have hlower : c.toLower ∈ "0123456789abcdef".toList := List.idxOf_lt_length_iff.mp h
  by_cases hupper : c.isUpper = true
  · have hcapitals : ∀ n < 91, 65 ≤ n →
        (Char.ofNat n).toLower ∈ "0123456789abcdef".toList → Char.ofNat n ∈ digitChars := by
      decide
    have hbounds : c.toNat < 91 ∧ 65 ≤ c.toNat := by
      simp only [Char.isUpper, decide_eq_true_eq] at hupper
      exact ⟨Nat.lt_succ_of_le hupper.2, hupper.1⟩
    have h := hcapitals c.toNat hbounds.1 hbounds.2
    rw [Char.ofNat_toNat] at h
    exact h hlower
  · have hc : c.toLower = c := by
      rw [Char.toLower, dif_neg]
      simpa [Char.isUpper] using hupper
    rw [hc] at hlower
    exact List.mem_append_left "ABCDEF".toList hlower

/-- What is known of the digits of a base. -/
theorem digitChars_spec : ∀ c ∈ digitChars, c ≠ '_' ∧ isHexDigit c = true ∧
    (digit c < 8 → ('0' ≤ c && c ≤ '7') = true) ∧ (digit c < 2 → (c == '0' || c == '1') = true) ∧
    Numeral.digitValue? c.toLower = some (digit c) := by
  refine List.all_iff_forall_prop.mp ?_
  decide

/-! ## Numerals -/

/-- The bases other than ten. -/
inductive Base where
  | binary
  | octal
  | hexadecimal

namespace Base

/-- The bits of a digit. -/
def bits : Base → ℕ
  | binary => 1
  | octal => 3
  | hexadecimal => 4

/-- The letters that announce a base, behind a zero. -/
def letters : Base → List Char
  | binary => ['b', 'B']
  | octal => ['o', 'O']
  | hexadecimal => ['x', 'X']

/-- Whether a character is a digit of a base. -/
def isDigit (b : Base) (c : Char) : Bool := decide (digit c < 2 ^ b.bits)

variable {b : Base} {c letter : Char}

theorem mem_digitChars (h : b.isDigit c = true) : c ∈ digitChars := by
  have hlt : digit c < 2 ^ b.bits := of_decide_eq_true h
  have hle : 2 ^ b.bits ≤ 16 := by cases b <;> decide
  exact Calculator.mem_digitChars (hlt.trans_le hle)

/-- The grammar takes the digits of a base behind its letter. -/
theorem radixDigit?_eq (hletter : letter ∈ b.letters) :
    ∃ isDigit, radixDigit? letter = some isDigit ∧ ∀ c, b.isDigit c = true → isDigit c = true := by
  have hspec := fun c (hc : b.isDigit c = true) => digitChars_spec c (mem_digitChars hc)
  cases b with
  | binary =>
    refine ⟨fun c => c == '0' || c == '1', ?_, fun c hc =>
      (hspec c hc).2.2.2.1 (of_decide_eq_true hc)⟩
    rcases List.mem_pair.mp hletter with rfl | rfl <;> rfl
  | octal =>
    refine ⟨fun c => '0' ≤ c && c ≤ '7', ?_, fun c hc =>
      (hspec c hc).2.2.1 (of_decide_eq_true hc)⟩
    rcases List.mem_pair.mp hletter with rfl | rfl <;> rfl
  | hexadecimal =>
    refine ⟨isHexDigit, ?_, fun c hc => (hspec c hc).2.1⟩
    rcases List.mem_pair.mp hletter with rfl | rfl <;> rfl

end Base

theorem digits_mono {p p' : Char → Bool} (h : ∀ c, p c = true → p' c = true) {cs : List Char}
    (hcs : Digits p cs) : Digits p' cs := by
  induction hcs with
  | nil => exact .nil
  | digit hd _ ih => exact .digit (h _ hd) ih
  | underscore hd _ ih => exact .underscore (h _ hd) ih

theorem digits_of_mem {p : Char → Bool} {cs : List Char} (hcs : Digits p cs) {c : Char}
    (hc : c ∈ cs.filter (· ≠ '_')) : p c = true := by
  induction hcs with
  | nil => cases hc
  | digit hd _ ih =>
    rw [List.filter_cons] at hc
    split_ifs at hc
    · rcases List.mem_cons.mp hc with rfl | hc
      · exact hd
      · exact ih hc
    · exact ih hc
  | underscore hd _ ih =>
    rw [List.filter_cons_of_neg (by decide), List.filter_cons] at hc
    split_ifs at hc
    · rcases List.mem_cons.mp hc with rfl | hc
      · exact hd
      · exact ih hc
    · exact ih hc

/-- A numeral in a base other than ten: a zero, the letter of the base, and digits with single
underscores in front of some of them. -/
structure RadixNumeral where
  base : Base
  letter : Char
  body : List Char
  letter_mem : letter ∈ base.letters
  digits_body : Digits base.isDigit body
  body_ne_nil : body ≠ []

namespace RadixNumeral

variable (n : RadixNumeral)

/-- The characters of a numeral. -/
def chars : List Char := '0' :: n.letter :: n.body

/-- The numbers of its digits. -/
def values : List ℕ := (n.body.filter (· ≠ '_')).map digit

/-- The number that it denotes. -/
def number : ℕ := Nat.ofDigits (2 ^ n.base.bits) n.values.reverse

/-- A numeral in another base is scanned as one number. -/
theorem number?_chars : number? n.chars = some ⟨n.chars, []⟩ := by
  obtain ⟨isDigit, hdigit, hclass⟩ := Base.radixDigit?_eq n.letter_mem
  have htaken : separatedDigits isDigit (n.body ++ []) = ⟨n.body, []⟩ :=
    (digits_mono hclass n.digits_body).separatedDigits (radixDigit?_classes hdigit).1 rfl
  rw [List.append_nil] at htaken
  have hinteger : radixInteger? n.chars = some ⟨n.chars, []⟩ := by
    rw [chars, radixInteger?, hdigit]
    simp [htaken, n.body_ne_nil]
  rw [Grammar.number?, hinteger]
  rfl

theorem values_lt : ∀ d ∈ n.values, d < 2 ^ n.base.bits := by
  intro d hd
  obtain ⟨c, hc, rfl⟩ := List.mem_map.mp hd
  exact of_decide_eq_true (digits_of_mem n.digits_body hc)

theorem appendAll_values : appendAll (2 ^ n.base.bits) 0 n.values = n.number := by
  rw [number, Nat.ofDigits_eq_foldr, List.foldr_reverse, appendAll]
  congr 1
  funext m d
  exact Nat.add_comm _ d

theorem value_eq_inRadix : Numeral.value n.chars =
    Numeral.inRadix (2 ^ n.base.bits) ((n.body.filter (· ≠ '_')).map Char.toLower) := by
  obtain ⟨base, letter, body, hletter, hdigits, hne⟩ := n
  cases base with
  | binary => rcases List.mem_pair.mp hletter with rfl | rfl <;> rfl
  | octal => rcases List.mem_pair.mp hletter with rfl | rfl <;> rfl
  | hexadecimal => rcases List.mem_pair.mp hletter with rfl | rfl <;> rfl

/-- It is read by accumulating its digits. -/
theorem value_chars : Numeral.value n.chars =
    n.values.foldl (appendDigit (2 ^ n.base.bits)) (Float.ofNat 0) := by
  have hvalues : ((n.body.filter (· ≠ '_')).map Char.toLower).filterMap Numeral.digitValue? =
      n.values := by
    rw [List.filterMap_map, values, ← List.filterMap_eq_map]
    refine List.filterMap_congr fun c hc => ?_
    exact (digitChars_spec c (Base.mem_digitChars (digits_of_mem n.digits_body hc))).2.2.2.2
  have hzero : (0.0 : Float) = Float.ofNat 0 := by rw [ofNat_eq, zero_eq, Nat.cast_zero]
  rw [value_eq_inRadix, Numeral.inRadix, hvalues, hzero]
  rfl

/-- It is read as the value nearest to its number unless a tie is lost. -/
theorem value_eq_ofNat_iff : Numeral.value n.chars = Float.ofNat n.number ↔
    ¬ (LosesTie (2 ^ n.base.bits) n.number ∧ n.number < 2 ^ 1024) := by
  have hbits : n.base.bits < 53 := by cases n.base <;> decide
  rw [value_chars, ← appendAll_values]
  exact foldl_appendDigit_eq_iff hbits n.values_lt

end RadixNumeral

/-! ## Decimal digits -/

/-- The decimal digits of a number. -/
def decimalNumeral (k : ℕ) : Decimal.Written where
  whole := digits k
  fraction := []
  exponent := none
  whole_ne_nil := Decimal.digits_ne_nil k
  isDigit_whole _ := Decimal.isDigit_of_mem_digits
  isDigit_fraction _ := nofun

theorem chars_decimalNumeral (k : ℕ) : (decimalNumeral k).chars = digits k :=
  List.append_nil _

/-- The decimal digits of a number are read as the value nearest to it. -/
theorem value_digits (k : ℕ) : Numeral.value (digits k) = Float.ofNat k := by
  have hsignificand : (decimalNumeral k).significand = k := by
    show Numeral.ofDigits (digits k ++ []) = k
    rw [List.append_nil, Decimal.ofDigits_digits]
  have hexponent : (decimalNumeral k).lastExponent = 0 := rfl
  rw [← chars_decimalNumeral, Decimal.Written.value_chars, hsignificand, hexponent,
    Numeral.nearest_eq, ofNat_eq, zpow_zero, mul_one]

/-! ## Expressions -/

/-- A number by itself is an expression. -/
theorem parse_number {text : List Char} (h : number? text = some ⟨text, []⟩) :
    parse (String.ofList text) = .ok (.literal (.number (Numeral.value text))) := by
  refine parse_of_derives ?_ (derives_of_atom (derives_number text) .expression)
  rw [String.toList_ofList]
  exact .lexeme h

/-- A numeral in base 16, 8 or 2 is an expression, whose value is the one nearest to its number
unless a tie is lost.  The decimal digits of the number always have that value. -/
theorem RadixNumeral.parse_nearest_iff (n : RadixNumeral) : ∃ x y,
    parse (String.ofList n.chars) = .ok (.literal (.number x)) ∧
    parse (String.ofList (digits n.number)) = .ok (.literal (.number y)) ∧
    IsNearest y n.number ∧
    (IsNearest x n.number ↔ ¬ (LosesTie (2 ^ n.base.bits) n.number ∧ n.number < 2 ^ 1024)) := by
  have hdecimal := (decimalNumeral n.number).number?
  rw [chars_decimalNumeral] at hdecimal
  refine ⟨_, _, parse_number n.number?_chars, parse_number hdecimal, ?_, ?_⟩
  · rw [value_digits, isNearest_iff (Nat.cast_nonneg _), ofNat_eq]
  · rw [isNearest_iff (Nat.cast_nonneg _), ← ofNat_eq, n.value_eq_ofNat_iff]

/-- The numeral `0x200000000000011`.  Without the last digit it is `2^53 + 1`, half way between two
values. -/
def RadixNumeral.tied : RadixNumeral where
  base := .hexadecimal
  letter := 'x'
  body := "200000000000011".toList
  letter_mem := by decide
  digits_body := by
    repeat' first | exact .nil | refine .digit (by decide) ?_
  body_ne_nil := by decide

/-- Its tie is lost: the value is not the one nearest to its number. -/
theorem RadixNumeral.parse_tied_not_nearest :
    String.ofList tied.chars = "0x200000000000011" ∧ tied.number = 2 ^ 57 + 17 ∧
    ∃ x, parse "0x200000000000011" = .ok (.literal (.number x)) ∧
      ¬ IsNearest x (2 ^ 57 + 17 : ℕ) := by
  have hnumber : tied.number = 2 ^ 57 + 17 := by decide +kernel
  have htie : LosesTie (2 ^ tied.base.bits) tied.number := by
    rw [hnumber]
    exact ⟨1, 2 ^ 51, 0, by norm_num, by norm_num, by decide +kernel, by decide +kernel⟩
  have hrange : tied.number < 2 ^ 1024 :=
    hnumber ▸ lt_of_lt_of_le (by norm_num : 2 ^ 57 + 17 < 2 ^ 58)
      (pow_le_pow_right₀ one_le_two (by norm_num))
  refine ⟨rfl, hnumber, _, parse_number tied.number?_chars, ?_⟩
  rw [← hnumber, isNearest_iff (Nat.cast_nonneg _), ← ofNat_eq]
  exact fun h => tied.value_eq_ofNat_iff.mp h ⟨htie, hrange⟩

end Calculator
