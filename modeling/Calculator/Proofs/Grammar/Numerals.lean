import Calculator.Proofs.Grammar.Tokens

/-!
# How numerals are written

A decimal is put together from digits, a point, more digits and an exponent.  The scanner finds
these parts again in front of any text that does not go on with a further one, so how a lexeme is
scanned depends on no more than the first character behind it.

Results:
* `DecimalText.decimal?`: a decimal is scanned as it is written.
* `exists_decimalText`: whatever is scanned as a decimal is written as one.
* `Lexeme.scan?_resume`: a lexeme is scanned the same in front of a text that begins with the same
  character, or with a delimiter.
-/

namespace Calculator.Grammar

/-! ## The first character of a text -/

/-- Whether a text begins with a character of a class. -/
def startsWith (p : Char → Bool) (text : List Char) : Bool := text.head?.any p

@[simp]
theorem startsWith_nil (p : Char → Bool) : startsWith p [] = false := rfl

@[simp]
theorem startsWith_cons (p : Char → Bool) (c : Char) (text : List Char) :
    startsWith p (c :: text) = p c := rfl

theorem endsWord_eq_not_startsWith (text : List Char) :
    endsWord text = !startsWith isIdentifierChar text := by
  cases text <;> rfl

/-- A text that begins with no character of a class begins with none of a smaller class. -/
theorem startsWith_eq_false_of_imp {p q : Char → Bool} (h : ∀ c, p c = true → q c = true)
    {text : List Char} (hq : startsWith q text = false) : startsWith p text = false := by
  cases text with
  | nil => rfl
  | cons c text =>
    rw [startsWith_cons] at hq ⊢
    cases hp : p c with
    | false => rfl
    | true =>
      rw [h c hp] at hq
      cases hq

theorem charOf?_eq_some {p : Char → Bool} {text : List Char} {s : Split}
    (h : charOf? p text = some s) : ∃ c more, text = c :: more ∧ p c = true ∧ s = ⟨[c], more⟩ := by
  cases text with
  | nil => cases h
  | cons c more =>
    rw [charOf?] at h
    split at h
    · next hc => exact ⟨c, more, rfl, hc, (Option.some.inj h).symm⟩
    · cases h

theorem charOf?_eq_none {p : Char → Bool} {text : List Char} :
    charOf? p text = none ↔ startsWith p text = false := by
  cases text with
  | nil => simp [charOf?]
  | cons c more => simp [charOf?]

/-- The letters that announce an exponent. -/
def isExponentLetter (c : Char) : Bool := c == 'e' || c == 'E'

/-- The signs of an exponent. -/
def isExponentSign (c : Char) : Bool := c == '+' || c == '-'

/-- The characters that may go on with digits. -/
def continues (isDigit : Char → Bool) (c : Char) : Bool := isDigit c || c == '_'

/-! ## Digits -/

/-- Digits of a class, each with at most one underscore in front. -/
inductive Digits (isDigit : Char → Bool) : List Char → Prop
  | nil : Digits isDigit []
  | digit {d : Char} {cs : List Char} :
      isDigit d = true → Digits isDigit cs → Digits isDigit (d :: cs)
  | underscore {d : Char} {cs : List Char} :
      isDigit d = true → Digits isDigit cs → Digits isDigit ('_' :: d :: cs)

theorem digits_separatedDigits (isDigit : Char → Bool) (text : List Char) :
    Digits isDigit (separatedDigits isDigit text).front := by
  fun_induction separatedDigits isDigit text with
  | case1 d text hd more ih => exact .underscore hd ih
  | case3 d text hne hd more ih => exact .digit hd ih
  | _ => exact .nil

/-- Digits are taken up to where nothing goes on with them. -/
theorem Digits.separatedDigits {isDigit : Char → Bool} (hunderscore : isDigit '_' = false)
    {cs : List Char} (h : Digits isDigit cs) {rest : List Char}
    (hrest : startsWith (continues isDigit) rest = false) :
    Grammar.separatedDigits isDigit (cs ++ rest) = ⟨cs, rest⟩ := by
  induction h with
  | nil =>
    cases rest with
    | nil => rfl
    | cons c rest =>
      simp only [startsWith_cons, continues, Bool.or_eq_false_iff, beq_eq_false_iff_ne] at hrest
      rw [List.nil_append, separatedDigits_cons hrest.2, hrest.1, if_neg Bool.false_ne_true]
  | @digit d cs hd _ ih =>
    have hne : d ≠ '_' := by
      rintro rfl
      rw [hunderscore] at hd
      cases hd
    rw [List.cons_append, separatedDigits_cons hne, if_pos hd, ih]
  | @underscore d cs hd _ ih =>
    show Grammar.separatedDigits isDigit ('_' :: d :: (cs ++ rest)) = _
    rw [Grammar.separatedDigits, if_pos hd, ih]

/-- Decimal digits with single underscores between them. -/
def IsDigits (cs : List Char) : Prop :=
  ∃ d more, cs = d :: more ∧ d.isDigit = true ∧ Digits Char.isDigit more

theorem digits?_cons (d : Char) (text : List Char) :
    digits? (d :: text) =
      if d.isDigit then
        some ⟨d :: (separatedDigits Char.isDigit text).front,
          (separatedDigits Char.isDigit text).rest⟩
      else none := by
  rw [digits?_eq, charOf?]
  split <;> rfl

theorem IsDigits.digits? {cs : List Char} (h : IsDigits cs) {rest : List Char}
    (hrest : startsWith (continues Char.isDigit) rest = false) :
    Grammar.digits? (cs ++ rest) = some ⟨cs, rest⟩ := by
  obtain ⟨d, more, rfl, hd, hmore⟩ := h
  rw [List.cons_append, digits?_cons, if_pos hd, hmore.separatedDigits (by decide) hrest]

theorem isDigits_of_digits? {text : List Char} {s : Split} (h : digits? text = some s) :
    IsDigits s.front := by
  cases text with
  | nil => cases h
  | cons d text =>
    rw [digits?_cons] at h
    split at h
    · next hd =>
      cases h
      exact ⟨d, _, rfl, hd, digits_separatedDigits _ text⟩
    · cases h

theorem digits?_eq_none {text : List Char} (h : startsWith Char.isDigit text = false) :
    digits? text = none := by
  cases text with
  | nil => rfl
  | cons d text =>
    rw [startsWith_cons] at h
    rw [digits?_cons, h, if_neg Bool.false_ne_true]

/-! ## Exponents -/

/-- The letter of an exponent, an optional sign and digits. -/
def IsExponent (cs : List Char) : Prop :=
  ∃ letter sign ds, cs = letter :: (sign ++ ds) ∧ isExponentLetter letter = true ∧
    (sign = [] ∨ ∃ c, sign = [c] ∧ isExponentSign c = true) ∧ IsDigits ds

theorem exponent?_cons (letter : Char) (text : List Char) :
    exponent? (letter :: text) =
      if isExponentLetter letter then
        (Split.andMaybe ⟨[letter], text⟩ (charOf? isExponentSign)).andThen digits?
      else none := by
  rw [exponent?_eq, charOf?]
  show Option.bind (if isExponentLetter letter then _ else _) _ = _
  split <;> rfl

theorem IsExponent.exponent? {cs : List Char} (h : IsExponent cs) {rest : List Char}
    (hrest : startsWith (continues Char.isDigit) rest = false) :
    Grammar.exponent? (cs ++ rest) = some ⟨cs, rest⟩ := by
  obtain ⟨letter, sign, ds, rfl, hletter, hsign, hds⟩ := h
  have hdigits := hds.digits? hrest
  rw [List.cons_append, exponent?_cons, if_pos hletter, List.append_assoc]
  rcases hsign with rfl | ⟨c, rfl, hc⟩
  · -- a digit is no sign
    have hnone : charOf? isExponentSign (ds ++ rest) = none := by
      obtain ⟨d, more, rfl, hd, -⟩ := hds
      refine if_neg fun hsign => ?_
      simp only [isExponentSign, Bool.or_eq_true, beq_iff_eq] at hsign
      rcases hsign with rfl | rfl <;> cases hd
    simp only [List.nil_append, Split.andMaybe, Split.andThen, hnone, Option.map_none,
      Option.getD_none, hdigits, Option.map_some]
    rfl
  · have hsome : charOf? isExponentSign ([c] ++ (ds ++ rest)) = some ⟨[c], ds ++ rest⟩ :=
      if_pos hc
    simp only [Split.andMaybe, Split.andThen, hsome, Option.map_some, Option.getD_some, hdigits]
    rfl

theorem isExponent_of_exponent? {text : List Char} {s : Split} (h : exponent? text = some s) :
    IsExponent s.front := by
  cases text with
  | nil => cases h
  | cons letter text =>
    rw [exponent?_cons] at h
    split at h
    · next hletter =>
      obtain ⟨t, ht, rfl⟩ := Option.map_eq_some_iff.mp h
      have hds := isDigits_of_digits? ht
      cases text with
      | nil => cases ht
      | cons c text =>
        by_cases hc : isExponentSign c = true
        · refine ⟨letter, [c], t.front, ?_, hletter, .inr ⟨c, rfl, hc⟩, hds⟩
          simp [Split.andMaybe, Split.andThen, charOf?, hc]
        · refine ⟨letter, [], t.front, ?_, hletter, .inl rfl, hds⟩
          simp [Split.andMaybe, Split.andThen, charOf?, hc]
    · cases h

theorem exponent?_eq_none {text : List Char} (h : startsWith isExponentLetter text = false) :
    exponent? text = none := by
  cases text with
  | nil => rfl
  | cons c text =>
    rw [startsWith_cons] at h
    rw [exponent?_cons, h, if_neg Bool.false_ne_true]

/-! ## Decimals -/

/-- The parts of a decimal: digits with a point among, before or behind them, and an exponent. -/
structure DecimalText where
  whole : List Char
  pointed : Bool
  fraction : List Char
  exponent : List Char
  isDigits_whole : whole ≠ [] → IsDigits whole
  isDigits_fraction : fraction ≠ [] → IsDigits fraction
  pointed_of_fraction : fraction ≠ [] → pointed = true
  isExponent_exponent : exponent ≠ [] → IsExponent exponent
  nonempty : whole ≠ [] ∨ fraction ≠ []

namespace DecimalText

/-- The characters of a decimal behind its whole part. -/
def tail (d : DecimalText) : List Char :=
  (if d.pointed then ['.'] else []) ++ (d.fraction ++ d.exponent)

/-- The characters of a decimal. -/
def chars (d : DecimalText) : List Char := d.whole ++ d.tail

/-- A text that goes on with no further part of a decimal. -/
structure Over (d : DecimalText) (rest : List Char) : Prop where
  digits : startsWith (continues Char.isDigit) rest = false
  exponent : startsWith isExponentLetter rest = false
  point : d.pointed = false → d.exponent = [] → startsWith (· == '.') rest = false

variable {d : DecimalText} {rest : List Char}

theorem fraction_eq_nil (h : d.pointed = false) : d.fraction = [] := by
  by_cases hfraction : d.fraction = []
  · exact hfraction
  · rw [d.pointed_of_fraction hfraction] at h
    cases h

/-- An exponent is in no class without the letters of an exponent. -/
theorem startsWith_exponent {p : Char → Bool} (hp : p 'e' = false ∧ p 'E' = false)
    (hrest : d.exponent = [] → startsWith p rest = false) :
    startsWith p (d.exponent ++ rest) = false := by
  by_cases hexponent : d.exponent = []
  · rw [hexponent]
    exact hrest hexponent
  · obtain ⟨letter, sign, ds, heq, hletter, -⟩ := d.isExponent_exponent hexponent
    simp only [isExponentLetter, Bool.or_eq_true, beq_iff_eq] at hletter
    rw [heq]
    rcases hletter with rfl | rfl
    · exact hp.1
    · exact hp.2

/-- Behind an exponent, or where there is none, no digits go on. -/
theorem Over.startsWith_exponent (h : d.Over rest) :
    startsWith (continues Char.isDigit) (d.exponent ++ rest) = false :=
  DecimalText.startsWith_exponent (by decide) fun _ => h.digits

/-- No digits go on behind the whole part. -/
theorem Over.startsWith_tail (h : d.Over rest) :
    startsWith (continues Char.isDigit) (d.tail ++ rest) = false := by
  rw [tail]
  cases hpointed : d.pointed with
  | true => rfl
  | false => simpa [fraction_eq_nil hpointed] using h.startsWith_exponent

/-- The exponent is taken behind any other parts. -/
theorem andMaybe_exponent (h : d.Over rest) (front : List Char) :
    Split.andMaybe ⟨front, d.exponent ++ rest⟩ exponent? = ⟨front ++ d.exponent, rest⟩ := by
  rw [Split.andMaybe, Split.andThen]
  by_cases hexponent : d.exponent = []
  · simp [hexponent, exponent?_eq_none h.exponent]
  · simp [(d.isExponent_exponent hexponent).exponent? h.digits]

/-- The digits behind the point are taken. -/
theorem andMaybe_fraction (h : d.Over rest) (front : List Char) :
    Split.andMaybe ⟨front, d.fraction ++ (d.exponent ++ rest)⟩ digits? =
      ⟨front ++ d.fraction, d.exponent ++ rest⟩ := by
  have hstop := h.startsWith_exponent
  rw [Split.andMaybe, Split.andThen]
  by_cases hfraction : d.fraction = []
  · have hnone : digits? (d.exponent ++ rest) = none :=
      digits?_eq_none (startsWith_eq_false_of_imp (fun c hc => by simp [continues, hc]) hstop)
    simp [hfraction, hnone]
  · simp [(d.isDigits_fraction hfraction).digits? hstop]

/-- A decimal that begins with digits goes on with its other parts. -/
theorem decimalFrom_tail (h : d.Over rest) :
    decimalFrom ⟨d.whole, d.tail ++ rest⟩ = ⟨d.chars, rest⟩ := by
  rw [decimalFrom, chars, tail]
  cases hpointed : d.pointed with
  | true =>
    have hpoint : charOf? (· == '.') ('.' :: (d.fraction ++ (d.exponent ++ rest))) =
        some ⟨['.'], d.fraction ++ (d.exponent ++ rest)⟩ := rfl
    simp only [Split.andThen, if_true, List.append_assoc, List.cons_append, List.nil_append, hpoint,
      Option.map_some, andMaybe_fraction h, andMaybe_exponent h]
  | false =>
    have hstop : startsWith (· == '.') (d.exponent ++ rest) = false :=
      startsWith_exponent (by decide) (h.point hpointed)
    have hpoint := charOf?_eq_none.mpr hstop
    simp only [Split.andThen, Bool.false_eq_true, if_false, fraction_eq_nil hpointed,
      List.nil_append, hpoint,
      Option.map_none, andMaybe_exponent h]

/-- A decimal is scanned as it is written. -/
theorem decimal? (h : d.Over rest) : Grammar.decimal? (d.chars ++ rest) = some ⟨d.chars, rest⟩ := by
  rw [decimal?_eq]
  by_cases hwhole : d.whole = []
  · -- the digits stand behind the point
    have hfraction : d.fraction ≠ [] := d.nonempty.resolve_left fun hne => hne hwhole
    have hchars : d.chars ++ rest = '.' :: (d.fraction ++ (d.exponent ++ rest)) := by
      simp [chars, tail, hwhole, d.pointed_of_fraction hfraction]
    have hdigits : digits? ('.' :: (d.fraction ++ (d.exponent ++ rest))) = none := rfl
    have hpoint : charOf? (· == '.') ('.' :: (d.fraction ++ (d.exponent ++ rest))) =
        some ⟨['.'], d.fraction ++ (d.exponent ++ rest)⟩ := rfl
    have htaken := (d.isDigits_fraction hfraction).digits? h.startsWith_exponent
    rw [hchars, hdigits, hpoint]
    simp only [Option.bind_some, Split.andThen, htaken, Option.map_some, andMaybe_exponent h]
    simp [chars, tail, hwhole, d.pointed_of_fraction hfraction]
  · have hdigits := (d.isDigits_whole hwhole).digits? h.startsWith_tail
    rw [chars, List.append_assoc, hdigits]
    exact congrArg some (decimalFrom_tail h)

end DecimalText

/-- What a reader takes that need not accept. -/
theorem Split.exists_andMaybe {reader : List Char → Option Split} {P : List Char → Prop}
    (hreader : ∀ text t, reader text = some t → P t.front) (hnil : ¬ P []) (s : Split) :
    ∃ more, (s.andMaybe reader).front = s.front ++ more ∧ (more ≠ [] → P more) ∧
      (more = [] → (s.andMaybe reader).rest = s.rest) := by
  rw [Split.andMaybe, Split.andThen]
  cases h : reader s.rest with
  | none => exact ⟨[], by simp, fun hne => absurd rfl hne, fun _ => rfl⟩
  | some t =>
    have ht := hreader s.rest t h
    exact ⟨t.front, rfl, fun _ => ht, fun heq => absurd (heq ▸ ht) hnil⟩

theorem not_isDigits_nil : ¬ IsDigits [] := by
  rintro ⟨d, more, heq, -⟩
  cases heq

theorem not_isExponent_nil : ¬ IsExponent [] := by
  rintro ⟨letter, sign, ds, heq, -⟩
  cases heq

/-- Whatever is scanned as a decimal is written as one. -/
theorem exists_decimalText {text : List Char} {s : Split} (h : decimal? text = some s) :
    ∃ d : DecimalText, s.front = d.chars ∧
      (d.pointed = false → d.exponent = [] → startsWith (· == '.') s.rest = false) := by
  have hdigits : ∀ text t, digits? text = some t → IsDigits t.front :=
    fun _ _ => isDigits_of_digits?
  have hexponent : ∀ text t, exponent? text = some t → IsExponent t.front :=
    fun _ _ => isExponent_of_exponent?
  rw [decimal?_eq] at h
  cases hwhole : digits? text with
  | some w =>
    rw [hwhole] at h
    cases h
    have hw := isDigits_of_digits? hwhole
    have hne : w.front ≠ [] := fun hnil => not_isDigits_nil (hnil ▸ hw)
    rw [decimalFrom, Split.andThen]
    cases hpoint : charOf? (· == '.') w.rest with
    | none =>
      obtain ⟨x, hx, hxs, hrest⟩ := w.exists_andMaybe hexponent not_isExponent_nil
      refine ⟨⟨w.front, false, [], x, fun _ => hw, fun h => absurd rfl h, fun h => absurd rfl h,
        hxs, .inl hne⟩, hx, fun _ hnil => ?_⟩
      show startsWith (· == '.') (w.andMaybe exponent?).rest = false
      rw [hrest hnil]
      exact charOf?_eq_none.mp hpoint
    | some point =>
      obtain ⟨c, more, -, hc, rfl⟩ := charOf?_eq_some hpoint
      obtain rfl : c = '.' := beq_iff_eq.mp hc
      obtain ⟨f, hf, hfs, -⟩ :=
        (Split.mk (w.front ++ ['.']) more).exists_andMaybe hdigits not_isDigits_nil
      obtain ⟨x, hx, hxs, -⟩ :=
        ((Split.mk (w.front ++ ['.']) more).andMaybe digits?).exists_andMaybe hexponent
          not_isExponent_nil
      refine ⟨⟨w.front, true, f, x, fun _ => hw, hfs, fun _ => rfl, hxs, .inl hne⟩, hx.trans ?_,
        fun hpointed => by cases hpointed⟩
      simp [hf, DecimalText.chars, DecimalText.tail]
  | none =>
    rw [hwhole] at h
    obtain ⟨point, hpoint, h⟩ := Option.bind_eq_some_iff.mp h
    obtain ⟨t, ht, rfl⟩ := Option.map_eq_some_iff.mp h
    obtain ⟨u, hu, rfl⟩ := Option.map_eq_some_iff.mp ht
    obtain ⟨c, more, -, hc, rfl⟩ := charOf?_eq_some hpoint
    obtain rfl : c = '.' := beq_iff_eq.mp hc
    have hu := isDigits_of_digits? hu
    have hne : u.front ≠ [] := fun hnil => not_isDigits_nil (hnil ▸ hu)
    obtain ⟨x, hx, hxs, -⟩ :=
      (Split.mk (['.'] ++ u.front) u.rest).exists_andMaybe hexponent not_isExponent_nil
    refine ⟨⟨[], true, u.front, x, fun h => absurd rfl h, fun _ => hu, fun _ => rfl, hxs,
      .inr hne⟩, hx.trans ?_, fun hpointed => by cases hpointed⟩
    simp [DecimalText.chars, DecimalText.tail]

/-! ## Numbers -/

/-- Whether a letter behind a leading zero announces a base. -/
def isRadixLetter (c : Char) : Bool := (radixDigit? c).isSome

theorem isIdentifierChar_of_isRadixLetter {c : Char} (h : isRadixLetter c = true) :
    isIdentifierChar c = true := by
  by_cases hupper : c.isUpper = true
  · simp [isIdentifierChar, Char.isAlphanum, Char.isAlpha, hupper]
  · have hlower : c.toLower = c := by
      rw [Char.toLower, dif_neg]
      simpa [Char.isUpper] using hupper
    rw [isRadixLetter, radixDigit?, hlower] at h
    split at h
    · rfl
    · rfl
    · rfl
    · cases h

namespace DecimalText

variable {d : DecimalText} {rest : List Char}

/-- A decimal is no integer of another base. -/
theorem radixInteger?_eq_none (hrest : startsWith isIdentifierChar rest = false) :
    radixInteger? (d.chars ++ rest) = none := by
  have hfree : startsWith isRadixLetter rest = false :=
    startsWith_eq_false_of_imp (fun _ => isIdentifierChar_of_isRadixLetter) hrest
  have htail : startsWith isRadixLetter (d.tail ++ rest) = false := by
    rw [tail]
    cases hpointed : d.pointed with
    | true => rfl
    | false => simpa [fraction_eq_nil hpointed] using startsWith_exponent (by decide) fun _ => hfree
  -- the character behind a leading digit
  have hsecond : ∀ c more, d.chars ++ rest = c :: more → c.isDigit = true →
      startsWith isRadixLetter more = false := by
    intro c more heq hc
    by_cases hwhole : d.whole = []
    · simp [chars, tail, hwhole, d.pointed_of_fraction (d.nonempty.resolve_left (absurd hwhole))]
        at heq
      rw [← heq.1] at hc
      cases hc
    · obtain ⟨d', ds, hds, -, hmore⟩ := d.isDigits_whole hwhole
      rw [chars, hds, List.append_assoc, List.cons_append] at heq
      obtain ⟨-, rfl⟩ := List.cons.inj heq
      cases hmore with
      | nil => exact htail
      | digit hdigit _ =>
        simp [isRadixLetter, radixDigit?_of_isDigit hdigit]
      | underscore _ _ => rfl
  rw [radixInteger?.eq_def]
  split
  · next letter more heq =>
    have hletter := hsecond '0' (letter :: more) heq rfl
    rw [startsWith_cons, isRadixLetter, Option.isSome_eq_false_iff,
      Option.isNone_iff_eq_none] at hletter
    rw [hletter]
  · rfl

/-- No part of a decimal goes on behind the end of a word. -/
theorem over_of_endsWord (hrest : startsWith isIdentifierChar rest = false)
    (hpoint : d.pointed = false → d.exponent = [] → startsWith (· == '.') rest = false) :
    d.Over rest where
  digits := by
    refine startsWith_eq_false_of_imp (fun c hc => ?_) hrest
    simp only [continues, Bool.or_eq_true] at hc
    rcases hc with hc | hc <;> simp [isIdentifierChar, Char.isAlphanum, hc]
  exponent := by
    refine startsWith_eq_false_of_imp (fun c hc => ?_) hrest
    simp only [isExponentLetter, Bool.or_eq_true, beq_iff_eq] at hc
    rcases hc with rfl | rfl <;> rfl
  point := hpoint

/-- A decimal in front of the end of a word is a number. -/
theorem number? (hrest : startsWith isIdentifierChar rest = false)
    (hpoint : d.pointed = false → d.exponent = [] → startsWith (· == '.') rest = false) :
    Grammar.number? (d.chars ++ rest) = some ⟨d.chars, rest⟩ := by
  rw [Grammar.number?, radixInteger?_eq_none hrest, decimal? (over_of_endsWord hrest hpoint)]
  simp [Split.atWordEnd?, endsWord_eq_not_startsWith, hrest]

end DecimalText

/-! ## Lexemes in front of other texts -/

/-- A text that begins with a delimiter, or as another text does. -/
def Resumes (rest rest' : List Char) : Prop :=
  ∀ c, rest'.head? = some c → isDelimiter c = true ∨ rest.head? = some c

namespace Resumes

variable {rest rest' : List Char}

theorem of_ends (h : Ends rest') : Resumes rest rest' := by
  intro c hc
  obtain ⟨more, rfl⟩ := List.head?_eq_some_iff.mp hc
  exact .inl (h c more rfl)

theorem cons (c : Char) (more more' : List Char) : Resumes (c :: more) (c :: more') :=
  fun _ hc => .inr hc

/-- A class without delimiters is stopped by both texts if it is stopped by the first. -/
theorem startsWith_eq_false {p : Char → Bool} (hp : Free p) (h : Resumes rest rest')
    (hrest : startsWith p rest = false) : startsWith p rest' = false := by
  cases rest' with
  | nil => rfl
  | cons c more =>
    rcases h c rfl with hc | hc
    · exact hp c hc
    · rw [startsWith, hc] at hrest
      exact hrest

theorem endsWord (h : Resumes rest rest') (hrest : Grammar.endsWord rest = true) :
    startsWith isIdentifierChar rest' = false := by
  rw [endsWord_eq_not_startsWith, Bool.not_eq_true'] at hrest
  exact h.startsWith_eq_false free_isIdentifierChar hrest

end Resumes

section Resuming

variable {cs rest rest' : List Char}

theorem isIdentifierChar_of_radixDigit? {letter c : Char} {isDigit : Char → Bool}
    (h : radixDigit? letter = some isDigit) (hc : isDigit c = true) :
    isIdentifierChar c = true := by
  have hhex : ∀ c, isHexDigit c = true → isIdentifierChar c = true := by
    intro c hc
    simp only [isHexDigit, Bool.or_eq_true, Bool.and_eq_true, decide_eq_true_eq] at hc
    rcases hc with (hc | hc) | hc
    · simp [isIdentifierChar, Char.isAlphanum, hc]
    · have hlower : c.isLower = true := by
        simp only [Char.isLower, Bool.and_eq_true, decide_eq_true_eq]
        exact ⟨hc.1, UInt32.le_trans hc.2 (by decide)⟩
      simp [isIdentifierChar, Char.isAlphanum, Char.isAlpha, hlower]
    · have hupper : c.isUpper = true := decide_eq_true ⟨hc.1, UInt32.le_trans hc.2 (by decide)⟩
      simp [isIdentifierChar, Char.isAlphanum, Char.isAlpha, hupper]
  rw [radixDigit?] at h
  split at h
  · cases h
    exact hhex c hc
  · cases h
    simp only [Bool.and_eq_true, decide_eq_true_eq] at hc
    have hdigit : c.isDigit = true := by
      simp only [Char.isDigit, Bool.and_eq_true, decide_eq_true_eq]
      exact ⟨hc.1, UInt32.le_trans hc.2 (by decide)⟩
    simp [isIdentifierChar, Char.isAlphanum, hdigit]
  · cases h
    simp only [Bool.or_eq_true, beq_iff_eq] at hc
    rcases hc with rfl | rfl <;> rfl
  · cases h

theorem radixInteger?_resume (h : radixInteger? (cs ++ rest) = some ⟨cs, rest⟩)
    (hrest' : startsWith isIdentifierChar rest' = false) :
    radixInteger? (cs ++ rest') = some ⟨cs, rest'⟩ := by
  obtain ⟨letter, more, isDigit, -, hletter, hne, hsplit⟩ := radixInteger?_eq_some h
  obtain ⟨rfl, -⟩ := Split.mk.inj hsplit
  have hdigits := digits_separatedDigits isDigit more
  have hstop : startsWith (continues isDigit) rest' = false := by
    refine startsWith_eq_false_of_imp (fun c hc => ?_) hrest'
    simp only [continues, Bool.or_eq_true, beq_iff_eq] at hc
    rcases hc with hc | rfl
    · exact isIdentifierChar_of_radixDigit? hletter hc
    · rfl
  have htaken := hdigits.separatedDigits (radixDigit?_classes hletter).1 hstop
  show radixInteger? ('0' :: letter :: (_ ++ rest')) = _
  rw [radixInteger?, hletter]
  simp only [htaken, List.isEmpty_iff, hne, if_false]

theorem number?_resume (h : number? (cs ++ rest) = some ⟨cs, rest⟩) (hrest : Resumes rest rest') :
    number? (cs ++ rest') = some ⟨cs, rest'⟩ := by
  obtain ⟨hends, hradix | ⟨-, hdecimal⟩⟩ := number?_eq_some h
  · have hends' := hrest.endsWord hends
    rw [number?, radixInteger?_resume hradix hends']
    simp [Split.atWordEnd?, endsWord_eq_not_startsWith, hends']
  · obtain ⟨d, rfl, hpoint⟩ := exists_decimalText hdecimal
    exact d.number? (hrest.endsWord hends) fun hpointed hexponent =>
      hrest.startsWith_eq_false free_point (hpoint hpointed hexponent)

theorem imaginary?_resume (h : imaginary? (cs ++ rest) = some ⟨cs, rest⟩)
    (hrest : Resumes rest rest') : imaginary? (cs ++ rest') = some ⟨cs, rest'⟩ := by
  rw [imaginary?_eq] at h
  obtain ⟨s, hs, h⟩ := Option.bind_eq_some_iff.mp h
  obtain ⟨t, ht, h⟩ := Option.bind_eq_some_iff.mp h
  obtain ⟨heq, hends⟩ := Split.atWordEnd?_eq_some h
  obtain ⟨letter, hletter, rfl⟩ := Option.map_eq_some_iff.mp ht
  obtain ⟨j, more, hj, hclass, rfl⟩ := charOf?_eq_some hletter
  obtain ⟨rfl, rfl⟩ := Split.mk.inj heq
  obtain ⟨d, hd, -⟩ := exists_decimalText hs
  have hends' := hrest.endsWord hends
  have hover : d.Over (j :: rest') := by
    simp only [Bool.or_eq_true, beq_iff_eq] at hclass
    rcases hclass with rfl | rfl <;> exact ⟨rfl, rfl, fun _ _ => rfl⟩
  have hletter' : charOf? (fun c => c == 'j' || c == 'J') (j :: rest') = some ⟨[j], rest'⟩ :=
    if_pos hclass
  rw [hd, List.append_assoc, imaginary?_eq]
  show (decimal? (d.chars ++ j :: rest')).bind imaginaryEnd? = _
  rw [DecimalText.decimal? hover, Option.bind_some, imaginaryEnd?, Split.andThen, hletter']
  simp [Split.atWordEnd?, endsWord_eq_not_startsWith, hends']

theorem takeWhile_of_startsWith {p : Char → Bool} (hcs : ∀ c ∈ cs, p c = true)
    (hrest : startsWith p rest = false) :
    (cs ++ rest).takeWhile p = cs ∧ (cs ++ rest).dropWhile p = rest := by
  rw [List.takeWhile_append_of_pos hcs, List.dropWhile_append_of_pos hcs]
  cases rest with
  | nil => simp
  | cons c more =>
    rw [startsWith_cons] at hrest
    simp [hrest]

theorem identifier?_resume (h : identifier? (cs ++ rest) = some ⟨cs, rest⟩)
    (hrest : Resumes rest rest') : identifier? (cs ++ rest') = some ⟨cs, rest'⟩ := by
  obtain ⟨hsplit, -, -⟩ := identifier?_eq_some h
  obtain ⟨hcs, hdrop⟩ := Split.mk.inj hsplit
  have hall : ∀ c ∈ cs, isIdentifierChar c = true := by
    rw [hcs]
    exact List.all_eq_true.mp List.all_takeWhile
  have hstop : startsWith isIdentifierChar rest = false := by
    rw [hdrop, startsWith]
    cases hhead : ((cs ++ rest).dropWhile isIdentifierChar).head? with
    | none => rfl
    | some c => simpa [hhead] using List.head?_dropWhile_not isIdentifierChar (cs ++ rest)
  obtain ⟨htake, hdrop⟩ := takeWhile_of_startsWith hall hstop
  obtain ⟨htake', hdrop'⟩ :=
    takeWhile_of_startsWith hall (hrest.startsWith_eq_false free_isIdentifierChar hstop)
  rw [identifier?, htake, hdrop] at h
  rw [identifier?, htake', hdrop']
  split at h
  · cases h
  · split at h
    · next hstart => exact if_pos hstart
    · cases h

theorem keyword?_resume {k : Keyword} (h : keyword? k (cs ++ rest) = some ⟨cs, rest⟩)
    (hrest : Resumes rest rest') : keyword? k (cs ++ rest') = some ⟨cs, rest'⟩ := by
  rw [keyword?_eq] at h
  obtain ⟨s, hs, h⟩ := Option.bind_eq_some_iff.mp h
  obtain ⟨heq, hends⟩ := Split.atWordEnd?_eq_some h
  obtain ⟨more, hmore, rfl⟩ := Option.map_eq_some_iff.mp hs
  obtain ⟨rfl, rfl⟩ := Split.mk.inj heq
  have hafter : afterSpelling? k.spelling.toList (k.spelling.toList ++ rest') = some rest' :=
    afterSpelling?_eq_some.mpr rfl
  rw [keyword?_eq, hafter]
  simp [Split.atWordEnd?, endsWord_eq_not_startsWith, hrest.endsWord hends]

/-- The content of a string literal does not depend on what stands behind its quote. -/
theorem stringContent_resume {quote : Char} (hquote : quote ≠ '\\') {text more : List Char}
    (h : (stringContent quote text).rest = quote :: more) (more' : List Char) :
    stringContent quote ((stringContent quote text).front ++ quote :: more') =
      ⟨(stringContent quote text).front, quote :: more'⟩ := by
  have hstop : stringContent quote (quote :: more') = ⟨[], quote :: more'⟩ := by
    rw [stringContent, if_pos (.inl rfl)]
    exact fun _ _ heq => absurd heq hquote
  fun_induction stringContent quote text with
  | case1 c text content ih =>
    show stringContent quote ('\\' :: c :: (content.front ++ quote :: more')) = _
    rw [stringContent, ih h]
  | case2 c text hne hend => exact hstop
  | case3 c text hne hend content ih =>
    rw [List.cons_append, stringContent, if_neg hend, ih h]
    exact fun _ _ heq => absurd (.inr (.inl heq)) hend
  | case4 => cases h

theorem stringLiteral?_resume (h : stringLiteral? (cs ++ rest) = some ⟨cs, rest⟩)
    (rest' : List Char) : stringLiteral? (cs ++ rest') = some ⟨cs, rest'⟩ := by
  obtain ⟨quote, text, -, hquote, hs⟩ := stringLiteral?_eq_some h
  have hslash : quote ≠ '\\' := by rcases hquote with rfl | rfl <;> decide
  obtain ⟨closing, hclosing, heq⟩ := Option.map_eq_some_iff.mp hs
  obtain ⟨c, more, hrest, hc, rfl⟩ := charOf?_eq_some hclosing
  obtain rfl : c = quote := beq_iff_eq.mp hc
  obtain ⟨rfl, rfl⟩ := Split.mk.inj heq
  simp only [Split.andMaybe, Split.andThen, Option.map_some, Option.getD_some] at hrest ⊢
  have hcontent := stringContent_resume hslash hrest rest'
  simp only [List.append_assoc, List.cons_append, List.nil_append, stringLiteral?, if_pos hquote,
    Split.andMaybe, Split.andThen, Option.map_some, Option.getD_some, hcontent, charOf?,
    beq_self_eq_true, if_true]

/-- A lexeme is scanned the same in front of a text that begins with the same character, or with a
    delimiter. -/
theorem Lexeme.scan?_resume {l : Lexeme} (h : l.scan? (cs ++ rest) = some ⟨cs, rest⟩)
    (hrest : Resumes rest rest') : l.scan? (cs ++ rest') = some ⟨cs, rest'⟩ := by
  cases l with
  | keyword k => exact keyword?_resume h hrest
  | identifier => exact identifier?_resume h hrest
  | number => exact number?_resume h hrest
  | imaginary => exact imaginary?_resume h hrest
  | string => exact stringLiteral?_resume h rest'

end Resuming

end Calculator.Grammar
