import Calculator.Grammar.Recognizer

/-!
# What a lexeme takes from a text

A scanner that accepts splits its text in two, and takes at least one character.  Words,
identifiers and numerals end at a delimiter (white space, a quote, a bracket or a comma), so what
such a scanner takes from a text does not depend on what stands behind one.

Results:
* `Lexeme.exact_scan?`, `Lexeme.consuming_scan?`: the front and the rest of a split are the text,
  and the front is not empty.
* `Lexeme.scan?_append`: a text that is followed by a delimiter is scanned as if it stood alone.
* `Local.not_isDelimiter`: there is no delimiter in a lexeme other than a string.
-/

namespace Calculator.Grammar

/-! ## Splits of a text -/

/-- A split whose two parts are the text. -/
def Split.Of (text : List Char) (s : Split) : Prop := text = s.front ++ s.rest

/-- A scanner whose splits are splits of the text. -/
def Exact (reader : List Char → Option Split) : Prop :=
  ∀ text s, reader text = some s → s.Of text

/-- A scanner that takes at least one character. -/
def Consuming (reader : List Char → Option Split) : Prop :=
  ∀ text s, reader text = some s → s.front ≠ []

theorem Split.Of.andThen {text : List Char} {s t : Split} {reader : List Char → Option Split}
    (hs : s.Of text) (hreader : Exact reader) (h : s.andThen reader = some t) : t.Of text := by
  rw [Split.andThen, Option.map_eq_some_iff] at h
  obtain ⟨u, hu, rfl⟩ := h
  have hrest : s.rest = u.front ++ u.rest := hreader s.rest u hu
  rw [Split.Of, hs, hrest, List.append_assoc]

theorem Split.Of.andMaybe {text : List Char} {s : Split} {reader : List Char → Option Split}
    (hs : s.Of text) (hreader : Exact reader) : (s.andMaybe reader).Of text := by
  rw [Split.andMaybe]
  cases h : s.andThen reader with
  | none => exact hs
  | some t => exact hs.andThen hreader h

theorem Split.andThen_front_ne_nil {s t : Split} {reader : List Char → Option Split}
    (hs : s.front ≠ []) (h : s.andThen reader = some t) : t.front ≠ [] := by
  rw [Split.andThen, Option.map_eq_some_iff] at h
  obtain ⟨u, -, rfl⟩ := h
  exact List.append_ne_nil_of_left_ne_nil hs _

theorem Split.andMaybe_front_ne_nil {s : Split} {reader : List Char → Option Split}
    (hs : s.front ≠ []) : (s.andMaybe reader).front ≠ [] := by
  rw [Split.andMaybe]
  cases h : s.andThen reader with
  | none => exact hs
  | some t => exact Split.andThen_front_ne_nil hs h

/-! ## Delimiters -/

/-- The characters that end every word, identifier and numeral. -/
def isDelimiter (c : Char) : Bool :=
  isSpacing c || ['\'', '"', '(', ')', '[', ']', '\x7b', '\x7d', ',', ':'].contains c

theorem isDelimiter_of_isSpacing {c : Char} (h : isSpacing c = true) : isDelimiter c = true := by
  simp [isDelimiter, h]

/-- A text that is empty or begins with a delimiter. -/
def Ends (tail : List Char) : Prop := ∀ c rest, tail = c :: rest → isDelimiter c = true

theorem ends_nil : Ends [] := nofun

theorem ends_cons {c : Char} (rest : List Char) (h : isDelimiter c = true) : Ends (c :: rest) := by
  intro d rest' heq
  rw [← (List.cons.inj heq).1]
  exact h

/-- A split with more text behind it. -/
def Split.extend (s : Split) (tail : List Char) : Split := ⟨s.front, s.rest ++ tail⟩

/-- A scanner that does not look behind a delimiter. -/
def Local (reader : List Char → Option Split) : Prop :=
  ∀ text tail, Ends tail → reader (text ++ tail) = (reader text).map (·.extend tail)

/-- A class of characters without delimiters. -/
def Free (p : Char → Bool) : Prop := ∀ c, isDelimiter c = true → p c = false

/-- There are finitely many delimiters. -/
theorem free_of_all {p : Char → Bool}
    (h : ([' ', '\t', '\r', '\n', '\'', '"', '(', ')', '[', ']', '\x7b', '\x7d', ',', ':'].all
      fun c => !p c) = true) : Free p := by
  intro c hc
  have hmem :
      c ∈ [' ', '\t', '\r', '\n', '\'', '"', '(', ')', '[', ']', '\x7b', '\x7d', ',', ':'] := by
    simp only [isDelimiter, isSpacing, Bool.or_eq_true, beq_iff_eq, List.contains_iff_mem] at hc
    simp only [List.mem_cons] at hc ⊢
    rcases hc with (((h1 | h2) | h3) | h4) | h5
    · exact .inl h1
    · exact .inr (.inl h2)
    · exact .inr (.inr (.inl h3))
    · exact .inr (.inr (.inr (.inl h4)))
    · exact .inr (.inr (.inr (.inr h5)))
  have hp := List.all_eq_true.mp h c hmem
  rw [Bool.not_eq_true'] at hp
  exact hp

theorem Split.andThen_extend {reader : List Char → Option Split} (hreader : Local reader)
    (s : Split) {tail : List Char} (htail : Ends tail) :
    (s.extend tail).andThen reader = (s.andThen reader).map (·.extend tail) := by
  rw [Split.andThen, Split.andThen, Split.extend, hreader s.rest tail htail, Option.map_map,
    Option.map_map]
  rfl

theorem Split.andMaybe_extend {reader : List Char → Option Split} (hreader : Local reader)
    (s : Split) {tail : List Char} (htail : Ends tail) :
    (s.extend tail).andMaybe reader = (s.andMaybe reader).extend tail := by
  rw [Split.andMaybe, Split.andMaybe, Split.andThen_extend hreader s htail]
  cases s.andThen reader <;> rfl

theorem Split.atWordEnd?_extend (s : Split) {tail : List Char} (htail : Ends tail) :
    (s.extend tail).atWordEnd? = s.atWordEnd?.map (·.extend tail) := by
  have hends : endsWord (s.rest ++ tail) = endsWord s.rest := by
    cases hrest : s.rest with
    | cons c rest => rfl
    | nil =>
      cases tail with
      | nil => rfl
      | cons c tail =>
        have hfree : Free isIdentifierChar := free_of_all (by decide)
        show (!isIdentifierChar c) = true
        rw [hfree c (htail c tail rfl)]
        rfl
  rw [Split.atWordEnd?, Split.atWordEnd?]
  show (if endsWord (s.rest ++ tail) = true then _ else _) = _
  rw [hends]
  split <;> rfl

/-- A scanner that continues the splits of another one. -/
theorem Local.bind {reader : List Char → Option Split} {next : Split → Option Split}
    (hreader : Local reader)
    (hnext : ∀ s tail, Ends tail → next (s.extend tail) = (next s).map (·.extend tail)) :
    Local fun text => (reader text).bind next := by
  intro text tail htail
  show (reader (text ++ tail)).bind next = ((reader text).bind next).map _
  rw [hreader text tail htail]
  cases reader text with
  | none => rfl
  | some s => exact hnext s tail htail

theorem Local.congr {reader other : List Char → Option Split} (hother : Local other)
    (h : ∀ text, reader text = other text) : Local reader := by
  intro text tail htail
  rw [h, h]
  exact hother text tail htail

/-! ## Characters and digits -/

theorem exact_charOf? (p : Char → Bool) : Exact (charOf? p) := by
  intro text s h
  cases text with
  | nil => cases h
  | cons c text =>
    rw [charOf?] at h
    split at h
    · cases h; rfl
    · cases h

theorem consuming_charOf? (p : Char → Bool) : Consuming (charOf? p) := by
  intro text s h
  cases text with
  | nil => cases h
  | cons c text =>
    rw [charOf?] at h
    split at h
    · cases h; exact List.cons_ne_nil _ _
    · cases h

theorem local_charOf? {p : Char → Bool} (hp : Free p) : Local (charOf? p) := by
  intro text tail htail
  cases text with
  | cons c text =>
    show charOf? p (c :: (text ++ tail)) = _
    rw [charOf?, charOf?]
    split <;> rfl
  | nil =>
    cases tail with
    | nil => rfl
    | cons c tail =>
      show charOf? p (c :: tail) = none
      rw [charOf?, hp c (htail c tail rfl), if_neg Bool.false_ne_true]

theorem separatedDigits_cons {isDigit : Char → Bool} {d : Char} (hd : d ≠ '_')
    (text : List Char) :
    separatedDigits isDigit (d :: text) =
      if isDigit d then
        ⟨d :: (separatedDigits isDigit text).front, (separatedDigits isDigit text).rest⟩
      else ⟨[], d :: text⟩ := by
  rw [separatedDigits]
  intro d' text' heq
  exact absurd heq hd

theorem of_separatedDigits (isDigit : Char → Bool) (text : List Char) :
    (separatedDigits isDigit text).Of text := by
  fun_induction separatedDigits isDigit text with
  | case1 d text hd more ih => exact congrArg ('_' :: d :: ·) ih
  | case2 d text hd => rfl
  | case3 d text hne hd more ih => exact congrArg (d :: ·) ih
  | case4 d text hne hd => rfl
  | case5 => rfl

theorem separatedDigits_extend {isDigit : Char → Bool} (hunderscore : isDigit '_' = false)
    (hfree : Free isDigit) (text : List Char) {tail : List Char} (htail : Ends tail) :
    separatedDigits isDigit (text ++ tail) = (separatedDigits isDigit text).extend tail := by
  -- no digit and no underscore stands first in the tail
  have hstop : separatedDigits isDigit tail = ⟨[], tail⟩ := by
    cases tail with
    | nil => rfl
    | cons c tail =>
      have hc := htail c tail rfl
      rw [separatedDigits_cons (by rintro rfl; exact absurd hc (by decide)), hfree c hc,
        if_neg Bool.false_ne_true]
  fun_induction separatedDigits isDigit text with
  | case1 d text hd more ih =>
    show separatedDigits isDigit ('_' :: d :: (text ++ tail)) = _
    rw [separatedDigits, if_pos hd, ih]
    rfl
  | case2 d text hd =>
    show separatedDigits isDigit ('_' :: d :: (text ++ tail)) = _
    rw [separatedDigits, if_neg hd]
    rfl
  | case3 d text hne hd more ih =>
    have hd' : d ≠ '_' := by
      rintro rfl
      rw [hunderscore] at hd
      cases hd
    rw [List.cons_append, separatedDigits_cons hd', if_pos hd, ih]
    rfl
  | case4 d text hne hd =>
    by_cases hd' : d = '_'
    · subst hd'
      cases text with
      | cons c text => exact absurd rfl (hne c text rfl)
      | nil =>
        cases tail with
        | nil => rw [List.append_nil, separatedDigits, if_neg hd]; rfl; exact nofun
        | cons c tail =>
          show separatedDigits isDigit ('_' :: c :: tail) = _
          rw [separatedDigits, hfree c (htail c tail rfl), if_neg Bool.false_ne_true]
          rfl
    · rw [List.cons_append, separatedDigits_cons hd', if_neg hd]
      rfl
  | case5 => exact hstop

/-! ## Numerals -/

theorem exact_separatedDigits (isDigit : Char → Bool) :
    Exact fun text => some (separatedDigits isDigit text) := by
  intro text s h
  cases h
  exact of_separatedDigits isDigit text

theorem local_separatedDigits {isDigit : Char → Bool} (hunderscore : isDigit '_' = false)
    (hfree : Free isDigit) : Local fun text => some (separatedDigits isDigit text) :=
  fun text _ htail => congrArg some (separatedDigits_extend hunderscore hfree text htail)

theorem digits?_eq (text : List Char) :
    digits? text = (charOf? Char.isDigit text).bind fun first =>
      some (first.andMaybe fun rest => some (separatedDigits Char.isDigit rest)) := by
  rw [digits?]
  cases charOf? Char.isDigit text <;> rfl

theorem exact_digits? : Exact digits? := by
  intro text s h
  rw [digits?_eq, Option.bind_eq_some_iff] at h
  obtain ⟨first, hfirst, hs⟩ := h
  cases hs
  exact (exact_charOf? _ text first hfirst).andMaybe (exact_separatedDigits _)

theorem consuming_digits? : Consuming digits? := by
  intro text s h
  rw [digits?_eq, Option.bind_eq_some_iff] at h
  obtain ⟨first, hfirst, hs⟩ := h
  cases hs
  exact Split.andMaybe_front_ne_nil (consuming_charOf? _ text first hfirst)

theorem local_digits? : Local digits? := by
  have hdigit : Free Char.isDigit := free_of_all (by decide)
  refine ((local_charOf? hdigit).bind fun s tail htail => ?_).congr digits?_eq
  exact congrArg some
    (Split.andMaybe_extend (local_separatedDigits (by decide) hdigit) s htail)

theorem exponent?_eq (text : List Char) :
    exponent? text = (charOf? (fun c => c == 'e' || c == 'E') text).bind fun letter =>
      (letter.andMaybe (charOf? fun c => c == '+' || c == '-')).andThen digits? := by
  rw [exponent?]
  cases charOf? (fun c => c == 'e' || c == 'E') text <;> rfl

theorem exact_exponent? : Exact exponent? := by
  intro text s h
  rw [exponent?_eq, Option.bind_eq_some_iff] at h
  obtain ⟨letter, hletter, hs⟩ := h
  exact ((exact_charOf? _ text letter hletter).andMaybe (exact_charOf? _)).andThen exact_digits? hs

theorem local_exponent? : Local exponent? := by
  have hletter : Free fun c => c == 'e' || c == 'E' := free_of_all (by decide)
  have hsign : Free fun c => c == '+' || c == '-' := free_of_all (by decide)
  refine ((local_charOf? hletter).bind fun s tail htail => ?_).congr exponent?_eq
  rw [Split.andMaybe_extend (local_charOf? hsign) s htail]
  exact Split.andThen_extend local_digits? _ htail

/-- The scan of a decimal that begins with digits. -/
def decimalFrom (whole : Split) : Split :=
  match whole.andThen (charOf? (· == '.')) with
  | some pointed => (pointed.andMaybe digits?).andMaybe exponent?
  | none => whole.andMaybe exponent?

theorem decimal?_eq (text : List Char) :
    decimal? text =
      match digits? text with
      | some whole => some (decimalFrom whole)
      | none => (charOf? (· == '.') text).bind fun point =>
          (point.andThen digits?).map (·.andMaybe exponent?) := by
  rw [decimal?]
  cases digits? text with
  | none =>
    simp only
    cases charOf? (· == '.') text <;> rfl
  | some whole =>
    simp only [decimalFrom]
    cases whole.andThen (charOf? (· == '.')) <;> rfl

theorem Split.Of.decimalFrom {text : List Char} {whole : Split} (h : whole.Of text) :
    (decimalFrom whole).Of text := by
  rw [Grammar.decimalFrom]
  cases hpoint : whole.andThen (charOf? (· == '.')) with
  | none => exact h.andMaybe exact_exponent?
  | some pointed =>
    exact ((h.andThen (exact_charOf? _) hpoint).andMaybe exact_digits?).andMaybe exact_exponent?

theorem decimalFrom_front_ne_nil {whole : Split} (h : whole.front ≠ []) :
    (decimalFrom whole).front ≠ [] := by
  rw [decimalFrom]
  cases hpoint : whole.andThen (charOf? (· == '.')) with
  | none => exact Split.andMaybe_front_ne_nil h
  | some pointed =>
    exact Split.andMaybe_front_ne_nil
      (Split.andMaybe_front_ne_nil (Split.andThen_front_ne_nil h hpoint))

theorem free_point : Free (· == '.') := free_of_all (by decide)

theorem decimalFrom_extend (whole : Split) {tail : List Char} (htail : Ends tail) :
    decimalFrom (whole.extend tail) = (decimalFrom whole).extend tail := by
  rw [decimalFrom, decimalFrom, Split.andThen_extend (local_charOf? free_point) whole htail]
  cases whole.andThen (charOf? (· == '.')) with
  | none => exact Split.andMaybe_extend local_exponent? whole htail
  | some pointed =>
    show ((pointed.extend tail).andMaybe digits?).andMaybe exponent? = _
    rw [Split.andMaybe_extend local_digits? pointed htail,
      Split.andMaybe_extend local_exponent? _ htail]

theorem exact_decimal? : Exact decimal? := by
  intro text s h
  rw [decimal?_eq] at h
  cases hwhole : digits? text with
  | some whole =>
    rw [hwhole] at h
    cases h
    exact (exact_digits? text whole hwhole).decimalFrom
  | none =>
    rw [hwhole] at h
    obtain ⟨point, hpoint, h⟩ := Option.bind_eq_some_iff.mp h
    obtain ⟨t, ht, rfl⟩ := Option.map_eq_some_iff.mp h
    exact ((exact_charOf? _ text point hpoint).andThen exact_digits? ht).andMaybe exact_exponent?

theorem consuming_decimal? : Consuming decimal? := by
  intro text s h
  rw [decimal?_eq] at h
  cases hwhole : digits? text with
  | some whole =>
    rw [hwhole] at h
    cases h
    exact decimalFrom_front_ne_nil (consuming_digits? text whole hwhole)
  | none =>
    rw [hwhole] at h
    obtain ⟨point, hpoint, h⟩ := Option.bind_eq_some_iff.mp h
    obtain ⟨t, ht, rfl⟩ := Option.map_eq_some_iff.mp h
    exact Split.andMaybe_front_ne_nil
      (Split.andThen_front_ne_nil (consuming_charOf? _ text point hpoint) ht)

theorem local_decimal? : Local decimal? := by
  intro text tail htail
  rw [decimal?_eq, decimal?_eq, local_digits? text tail htail]
  cases digits? text with
  | some whole => exact congrArg some (decimalFrom_extend whole htail)
  | none =>
    refine (local_charOf? free_point).bind (fun s tail htail => ?_) text tail htail
    rw [Split.andThen_extend local_digits? s htail, Option.map_map, Option.map_map]
    refine congrArg (Option.map · _) (funext fun t => ?_)
    exact Split.andMaybe_extend local_exponent? t htail

/-! ## Numbers -/

/-- The classes of the digits in the bases 16, 8 and 2. -/
theorem radixDigit?_classes {letter : Char} {isDigit : Char → Bool}
    (h : radixDigit? letter = some isDigit) : isDigit '_' = false ∧ Free isDigit := by
  rw [radixDigit?] at h
  split at h
  · cases h; exact ⟨by decide, free_of_all (by decide)⟩
  · cases h; exact ⟨by decide, free_of_all (by decide)⟩
  · cases h; exact ⟨by decide, free_of_all (by decide)⟩
  · cases h

/-- What stands in an integer of some base. -/
theorem radixInteger?_eq_some {text : List Char} {s : Split} (h : radixInteger? text = some s) :
    ∃ letter rest isDigit, text = '0' :: letter :: rest ∧ radixDigit? letter = some isDigit ∧
      (separatedDigits isDigit rest).front ≠ [] ∧
      s = ⟨'0' :: letter :: (separatedDigits isDigit rest).front,
        (separatedDigits isDigit rest).rest⟩ := by
  rw [radixInteger?.eq_def] at h
  split at h
  · next letter rest =>
    split at h
    · next isDigit hdigit =>
      simp only at h
      split at h
      · cases h
      · next hne =>
        cases h
        exact ⟨letter, rest, isDigit, rfl, hdigit, fun hnil => hne (by rw [hnil]; rfl), rfl⟩
    · cases h
  · cases h

theorem exact_radixInteger? : Exact radixInteger? := by
  intro text s h
  obtain ⟨letter, rest, isDigit, rfl, -, -, rfl⟩ := radixInteger?_eq_some h
  exact congrArg ('0' :: letter :: ·) (of_separatedDigits isDigit rest)

theorem radixDigit?_delimiter {c : Char} (h : isDelimiter c = true) : radixDigit? c = none := by
  have hfree : Free fun c => (radixDigit? c).isSome := free_of_all (by decide)
  exact Option.isSome_eq_false_iff.mp (hfree c h) |> Option.isNone_iff_eq_none.mp

theorem local_radixInteger? : Local radixInteger? := by
  intro text tail htail
  match text with
  | [] =>
    cases tail with
    | nil => rfl
    | cons c tail =>
      have hc : c ≠ '0' := by rintro rfl; exact absurd (htail _ tail rfl) (by decide)
      rw [List.nil_append, radixInteger?.eq_def]
      split
      · next heq => exact absurd (List.cons.inj heq).1 hc
      · rfl
  | [c] =>
    have hone : radixInteger? [c] = none := by
      rw [radixInteger?]
      exact nofun
    rw [hone]
    cases tail with
    | nil => exact hone
    | cons d tail =>
      show radixInteger? (c :: d :: tail) = none
      rw [radixInteger?.eq_def]
      split
      · next heq =>
        obtain ⟨-, heq⟩ := List.cons.inj heq
        obtain ⟨rfl, -⟩ := List.cons.inj heq
        rw [radixDigit?_delimiter (htail d tail rfl)]
      · rfl
  | c :: letter :: text =>
    show radixInteger? (c :: letter :: (text ++ tail)) = _
    by_cases hc : c = '0'
    · subst hc
      rw [radixInteger?, radixInteger?]
      cases hdigit : radixDigit? letter with
      | none => rfl
      | some isDigit =>
        obtain ⟨hunderscore, hfree⟩ := radixDigit?_classes hdigit
        simp only [separatedDigits_extend hunderscore hfree text htail, Split.extend]
        split <;> rfl
    · have hnone : ∀ rest, radixInteger? (c :: letter :: rest) = none := by
        intro rest
        rw [radixInteger?]
        intro _ _ heq
        exact absurd (List.cons.inj heq).1 hc
      rw [hnone, hnone]
      rfl

theorem Split.atWordEnd?_eq_some {s t : Split} (h : s.atWordEnd? = some t) :
    t = s ∧ endsWord s.rest = true := by
  rw [Split.atWordEnd?] at h
  split at h
  · next hends => exact ⟨(Option.some.inj h).symm, hends⟩
  · cases h

/-- A number is an integer in some base or a decimal, up to the end of a word. -/
theorem number?_eq_some {text : List Char} {s : Split} (h : number? text = some s) :
    endsWord s.rest = true ∧
      (radixInteger? text = some s ∨ radixInteger? text = none ∧ decimal? text = some s) := by
  rw [number?] at h
  cases hradix : radixInteger? text with
  | some t =>
    rw [hradix] at h
    obtain ⟨rfl, hends⟩ := Split.atWordEnd?_eq_some h
    exact ⟨hends, .inl rfl⟩
  | none =>
    rw [hradix] at h
    obtain ⟨t, ht, hs⟩ := Option.bind_eq_some_iff.mp h
    obtain ⟨rfl, hends⟩ := Split.atWordEnd?_eq_some hs
    exact ⟨hends, .inr ⟨rfl, ht⟩⟩

theorem exact_number? : Exact number? := by
  intro text s h
  rcases (number?_eq_some h).2 with hradix | ⟨-, hdecimal⟩
  · exact exact_radixInteger? text s hradix
  · exact exact_decimal? text s hdecimal

theorem consuming_number? : Consuming number? := by
  intro text s h
  rcases (number?_eq_some h).2 with hradix | ⟨-, hdecimal⟩
  · obtain ⟨letter, rest, isDigit, -, -, -, rfl⟩ := radixInteger?_eq_some hradix
    exact List.cons_ne_nil _ _
  · exact consuming_decimal? text s hdecimal

theorem local_number? : Local number? := by
  intro text tail htail
  rw [number?, number?, local_radixInteger? text tail htail]
  cases radixInteger? text with
  | some s => exact Split.atWordEnd?_extend s htail
  | none =>
    exact local_decimal?.bind (fun s tail htail => Split.atWordEnd?_extend s htail) text tail htail

/-- What is left of an imaginary number behind its decimal. -/
def imaginaryEnd? (s : Split) : Option Split :=
  (s.andThen (charOf? fun c => c == 'j' || c == 'J')).bind Split.atWordEnd?

theorem imaginary?_eq (text : List Char) :
    imaginary? text = (decimal? text).bind imaginaryEnd? := by
  rw [imaginary?, Option.bind_assoc]
  rfl

theorem exact_imaginary? : Exact imaginary? := by
  intro text s h
  rw [imaginary?_eq] at h
  obtain ⟨t, ht, hs⟩ := Option.bind_eq_some_iff.mp h
  obtain ⟨u, hu, hs⟩ := Option.bind_eq_some_iff.mp hs
  obtain ⟨rfl, -⟩ := Split.atWordEnd?_eq_some hs
  exact (exact_decimal? text t ht).andThen (exact_charOf? _) hu

theorem consuming_imaginary? : Consuming imaginary? := by
  intro text s h
  rw [imaginary?_eq] at h
  obtain ⟨t, ht, hs⟩ := Option.bind_eq_some_iff.mp h
  obtain ⟨u, hu, hs⟩ := Option.bind_eq_some_iff.mp hs
  obtain ⟨rfl, -⟩ := Split.atWordEnd?_eq_some hs
  exact Split.andThen_front_ne_nil (consuming_decimal? text t ht) hu

theorem local_imaginary? : Local imaginary? := by
  have hletter : Free fun c => c == 'j' || c == 'J' := free_of_all (by decide)
  refine (local_decimal?.bind fun s tail htail => ?_).congr imaginary?_eq
  rw [imaginaryEnd?, imaginaryEnd?, Split.andThen_extend (local_charOf? hletter) s htail]
  cases s.andThen (charOf? fun c => c == 'j' || c == 'J') with
  | none => rfl
  | some t => exact Split.atWordEnd?_extend t htail

/-! ## Words and identifiers -/

theorem afterSpelling?_eq_some {spelling text rest : List Char} :
    afterSpelling? spelling text = some rest ↔ text = spelling ++ rest := by
  induction spelling generalizing text with
  | nil => rw [afterSpelling?, Option.some.injEq, List.nil_append]
  | cons c spelling ih =>
    cases text with
    | nil => exact ⟨nofun, nofun⟩
    | cons d text =>
      rw [afterSpelling?, List.cons_append, List.cons.injEq]
      split
      · next heq => rw [ih, and_iff_right heq.symm]
      · next hne => exact ⟨nofun, fun h => absurd h.1.symm hne⟩

/-- A spelling is not continued by a text that begins with none of its characters. -/
theorem afterSpelling?_append {spelling tail : List Char}
    (htail : ∀ c rest, tail = c :: rest → c ∉ spelling) (text : List Char) :
    afterSpelling? spelling (text ++ tail) = (afterSpelling? spelling text).map (· ++ tail) := by
  induction spelling generalizing text with
  | nil => rfl
  | cons c spelling ih =>
    have htail' : ∀ d rest, tail = d :: rest → d ∉ spelling := fun d rest h hmem =>
      htail d rest h (List.mem_cons_of_mem c hmem)
    cases text with
    | cons d text =>
      rw [List.cons_append, afterSpelling?, afterSpelling?]
      split
      · exact ih htail' text
      · rfl
    | nil =>
      cases tail with
      | nil => rfl
      | cons d tail =>
        rw [List.nil_append, afterSpelling?, if_neg]
        · rfl
        · rintro rfl
          exact htail _ tail rfl (List.mem_cons_self ..)

theorem Keyword.free_spelling (k : Keyword) : Free fun c => k.spelling.toList.contains c := by
  cases k <;> exact free_of_all (by decide)

theorem keyword?_eq (k : Keyword) (text : List Char) :
    keyword? k text =
      ((afterSpelling? k.spelling.toList text).map (Split.mk k.spelling.toList)).bind
        Split.atWordEnd? := by
  rw [keyword?]
  cases afterSpelling? k.spelling.toList text <;> rfl

theorem exact_keyword? (k : Keyword) : Exact (keyword? k) := by
  intro text s h
  rw [keyword?_eq] at h
  obtain ⟨t, ht, hs⟩ := Option.bind_eq_some_iff.mp h
  obtain ⟨rest, hrest, rfl⟩ := Option.map_eq_some_iff.mp ht
  obtain ⟨rfl, -⟩ := Split.atWordEnd?_eq_some hs
  exact afterSpelling?_eq_some.mp hrest

theorem consuming_keyword? (k : Keyword) : Consuming (keyword? k) := by
  intro text s h
  rw [keyword?_eq] at h
  obtain ⟨t, ht, hs⟩ := Option.bind_eq_some_iff.mp h
  obtain ⟨rest, hrest, rfl⟩ := Option.map_eq_some_iff.mp ht
  obtain ⟨rfl, -⟩ := Split.atWordEnd?_eq_some hs
  show k.spelling.toList ≠ []
  cases k <;> decide

theorem local_keyword? (k : Keyword) : Local (keyword? k) := by
  have hspelling : Local fun text =>
      (afterSpelling? k.spelling.toList text).map (Split.mk k.spelling.toList) := by
    intro text tail htail
    have hfresh : ∀ c rest, tail = c :: rest → c ∉ k.spelling.toList := by
      intro c rest heq hmem
      have hc : k.spelling.toList.contains c = false := k.free_spelling c (htail c rest heq)
      rw [List.contains_iff_mem.mpr hmem] at hc
      cases hc
    simp only
    rw [afterSpelling?_append hfresh, Option.map_map, Option.map_map]
    rfl
  exact (hspelling.bind fun s tail htail => Split.atWordEnd?_extend s htail).congr (keyword?_eq k)

theorem free_isIdentifierChar : Free isIdentifierChar := free_of_all (by decide)

theorem takeWhile_append_of_ends {p : Char → Bool} (hp : Free p) (text : List Char)
    {tail : List Char} (htail : Ends tail) :
    (text ++ tail).takeWhile p = text.takeWhile p ∧
      (text ++ tail).dropWhile p = text.dropWhile p ++ tail := by
  induction text with
  | nil =>
    cases tail with
    | nil => exact ⟨rfl, rfl⟩
    | cons c tail =>
      have hc := hp c (htail c tail rfl)
      rw [List.nil_append, List.takeWhile_cons_of_neg (by rw [hc]; exact Bool.false_ne_true),
        List.dropWhile_cons_of_neg (by rw [hc]; exact Bool.false_ne_true)]
      exact ⟨rfl, rfl⟩
  | cons c text ih =>
    rw [List.cons_append, List.takeWhile_cons, List.takeWhile_cons, List.dropWhile_cons,
      List.dropWhile_cons, ih.1, ih.2]
    split <;> exact ⟨rfl, rfl⟩

/-- An identifier is all that can belong to it, and is no word. -/
theorem identifier?_eq_some {text : List Char} {s : Split} (h : identifier? text = some s) :
    s = ⟨text.takeWhile isIdentifierChar, text.dropWhile isIdentifierChar⟩ ∧
      (∃ c rest, s.front = c :: rest ∧ isIdentifierStart c = true) ∧
      ∀ k : Keyword, k.spelling.toList ≠ s.front := by
  rw [identifier?] at h
  split at h
  · cases h
  · next c rest hname =>
    split at h
    · next hstart =>
      cases h
      rw [Bool.and_eq_true, Bool.not_eq_true'] at hstart
      refine ⟨rfl, ⟨c, rest, hname, hstart.1⟩, fun k hk => ?_⟩
      have hany : Keyword.all.any (fun k =>
          k.spelling.toList == text.takeWhile isIdentifierChar) = true :=
        List.any_eq_true.mpr ⟨k, k.mem_all, beq_iff_eq.mpr hk⟩
      rw [hany] at hstart
      cases hstart.2
    · cases h

theorem exact_identifier? : Exact identifier? := by
  intro text s h
  obtain ⟨rfl, -, -⟩ := identifier?_eq_some h
  exact (List.takeWhile_append_dropWhile ..).symm

theorem consuming_identifier? : Consuming identifier? := by
  intro text s h
  obtain ⟨-, ⟨c, rest, hfront, -⟩, -⟩ := identifier?_eq_some h
  rw [hfront]
  exact List.cons_ne_nil c rest

theorem local_identifier? : Local identifier? := by
  intro text tail htail
  obtain ⟨htake, hdrop⟩ := takeWhile_append_of_ends free_isIdentifierChar text htail
  rw [identifier?, identifier?, htake, hdrop]
  split
  · rfl
  · split <;> rfl

/-! ## String literals -/

theorem of_stringContent (quote : Char) (text : List Char) :
    (stringContent quote text).Of text := by
  fun_induction stringContent quote text with
  | case1 c text more ih => exact congrArg ('\\' :: c :: ·) ih
  | case2 c text hne hstop => rfl
  | case3 c text hne hstop more ih => exact congrArg (c :: ·) ih
  | case4 => rfl

theorem stringLiteral?_eq_some {text : List Char} {s : Split}
    (h : stringLiteral? text = some s) :
    ∃ quote rest, text = quote :: rest ∧ (quote = '\'' ∨ quote = '"') ∧
      ((Split.mk [quote] rest).andMaybe fun rest => some (stringContent quote rest)).andThen
        (charOf? (· == quote)) = some s := by
  cases text with
  | nil => cases h
  | cons quote rest =>
    rw [stringLiteral?] at h
    split at h
    · next hquote => exact ⟨quote, rest, rfl, hquote, h⟩
    · cases h

theorem exact_stringLiteral? : Exact stringLiteral? := by
  intro text s h
  obtain ⟨quote, rest, rfl, -, hs⟩ := stringLiteral?_eq_some h
  have hexact : Exact fun rest => some (stringContent quote rest) := by
    intro text s h
    cases h
    exact of_stringContent quote text
  have hquote : (Split.mk [quote] rest).Of (quote :: rest) := rfl
  exact (hquote.andMaybe hexact).andThen (exact_charOf? _) hs

theorem consuming_stringLiteral? : Consuming stringLiteral? := by
  intro text s h
  obtain ⟨quote, rest, rfl, -, hs⟩ := stringLiteral?_eq_some h
  exact Split.andThen_front_ne_nil
    (Split.andMaybe_front_ne_nil (List.cons_ne_nil quote [])) hs

/-! ## All lexemes -/

/-- A lexeme and what stands behind it are the text, and the lexeme is not empty. -/
theorem Lexeme.exact_scan? (l : Lexeme) : Exact l.scan? := by
  cases l with
  | keyword k => exact exact_keyword? k
  | identifier => exact exact_identifier?
  | number => exact exact_number?
  | imaginary => exact exact_imaginary?
  | string => exact exact_stringLiteral?

theorem Lexeme.consuming_scan? (l : Lexeme) : Consuming l.scan? := by
  cases l with
  | keyword k => exact consuming_keyword? k
  | identifier => exact consuming_identifier?
  | number => exact consuming_number?
  | imaginary => exact consuming_imaginary?
  | string => exact consuming_stringLiteral?

/-- Of a text without a quote in front, every lexeme is scanned as if the text ended at the next
    delimiter. -/
theorem Lexeme.scan?_append (l : Lexeme) {text tail : List Char} (htail : Ends tail)
    (hquote : ∀ c rest, text = c :: rest → c ≠ '\'' ∧ c ≠ '"') (hne : text ≠ []) :
    l.scan? (text ++ tail) = (l.scan? text).map (·.extend tail) := by
  cases l with
  | keyword k => exact local_keyword? k text tail htail
  | identifier => exact local_identifier? text tail htail
  | number => exact local_number? text tail htail
  | imaginary => exact local_imaginary? text tail htail
  | string =>
    cases text with
    | nil => exact absurd rfl hne
    | cons c text =>
      obtain ⟨h1, h2⟩ := hquote c text rfl
      have hnone : ∀ rest, stringLiteral? (c :: rest) = none := fun rest =>
        if_neg fun h => h.elim h1 h2
      show stringLiteral? (c :: (text ++ tail)) = (stringLiteral? (c :: text)).map _
      rw [hnone, hnone]
      rfl

/-- There is no delimiter in a lexeme whose scan does not look behind one: it would have ended
    there. -/
theorem Local.not_isDelimiter {reader : List Char → Option Split} (hlocal : Local reader)
    {cs : List Char} (h : reader cs = some ⟨cs, []⟩) : ∀ c ∈ cs, isDelimiter c = false := by
  intro c hc
  cases hdelimiter : isDelimiter c with
  | false => rfl
  | true =>
    obtain ⟨before, after, rfl⟩ := List.append_of_mem hc
    rw [hlocal before (c :: after) (ends_cons after hdelimiter)] at h
    obtain ⟨s, -, hs⟩ := Option.map_eq_some_iff.mp h
    have hrest : s.rest ++ c :: after = [] := congrArg Split.rest hs
    exact absurd hrest (List.append_ne_nil_of_right_ne_nil _ (List.cons_ne_nil _ _))

end Calculator.Grammar
