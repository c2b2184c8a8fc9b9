import Calculator.Proofs.Grammar.Composition
import Calculator.Proofs.Grammar.Numerals
import Calculator.Proofs.Grammar.Occurrences

/-!
# String literals

What stands between two quotes is a string literal if a scan from left to right, in which each
backslash takes the character after it along, neither ends behind such a backslash nor comes across
the quote or the end of a line.

Results:
* `stringLiteral?_eq_some_iff`: a literal at the front of a text is well escaped content between
  two quotes.
* `parse_around_iff`: a text between two quotes is parsed as a literal with that content if and
  only if it is well escaped.
-/

namespace Calculator.Grammar

/-- The quotes that a string literal can stand in. -/
inductive Quote where
  | single
  | double

namespace Quote

/-- The character of a quote. -/
def char : Quote → Char
  | single => '\''
  | double => '"'

/-- A text between two quotes. -/
def around (q : Quote) (content : String) : String :=
  String.singleton q.char ++ content ++ String.singleton q.char

theorem exists_char_eq {c : Char} (h : c = '\'' ∨ c = '"') : ∃ q : Quote, q.char = c := by
  rcases h with rfl | rfl
  · exact ⟨single, rfl⟩
  · exact ⟨double, rfl⟩

theorem char_ne_backslash (q : Quote) : q.char ≠ '\\' := by
  cases q <;> decide

theorem char_injective {q q' : Quote} (h : q.char = q'.char) : q = q' := by
  cases q <;> cases q' <;> first | rfl | exact absurd h (by decide)

theorem toList_around (q : Quote) (content : String) :
    (q.around content).toList = q.char :: (content.toList ++ [q.char]) := by
  simp [around]

/-! ## Scanning the content -/

/-- Whether a text is the content of a literal in some quotes.  The scan goes from left to right;
    `escaped` says that a backslash stands in front and takes the next character along. -/
def wellEscaped (q : Quote) : (escaped : Bool) → List Char → Bool
  | escaped, [] => !escaped
  | true, _ :: text => q.wellEscaped false text
  | false, c :: text =>
    if c = '\\' then q.wellEscaped true text
    else c != q.char && c != '\r' && c != '\n' && q.wellEscaped false text

variable {q : Quote} {escaped : Bool} {content rest : List Char}

theorem wellEscaped_pair (q : Quote) (c : Char) (content : List Char) :
    q.wellEscaped false ('\\' :: c :: content) = q.wellEscaped false content := rfl

theorem wellEscaped_plain {c : Char} (hc : ¬ (c = q.char ∨ c = '\\' ∨ c = '\n' ∨ c = '\r')) :
    q.wellEscaped false (c :: content) = q.wellEscaped false content := by
  rw [not_or, not_or, not_or] at hc
  simp [wellEscaped, hc]

/-- The content that `stringContent` takes is well escaped. -/
theorem wellEscaped_stringContent (q : Quote) (text : List Char) :
    q.wellEscaped false (stringContent q.char text).front = true := by
  fun_induction stringContent q.char text with
  | case1 c text more ih => rw [wellEscaped_pair]; exact ih
  | case2 c text hne hstop => rfl
  | case3 c text hne hstop more ih => rw [wellEscaped_plain hstop]; exact ih
  | case4 => rfl

/-- The backslash that the scan has just passed, if there is one. -/
def pending (escaped : Bool) : List Char := if escaped then ['\\'] else []

/-- Well escaped content is taken up to the quote behind it. -/
theorem stringContent_of_wellEscaped (h : q.wellEscaped escaped content = true) :
    stringContent q.char (pending escaped ++ (content ++ q.char :: rest)) =
      ⟨pending escaped ++ content, q.char :: rest⟩ := by
  fun_induction wellEscaped q escaped content with
  | case1 escaped =>
    cases escaped with
    | true => cases h
    | false =>
      show stringContent q.char (q.char :: rest) = ⟨[], q.char :: rest⟩
      rw [stringContent, if_pos (.inl rfl)]
      exact fun _ _ hslash => absurd hslash q.char_ne_backslash
  | case2 c text ih =>
    have htext : stringContent q.char (text ++ q.char :: rest) = ⟨text, q.char :: rest⟩ := ih h
    show stringContent q.char ('\\' :: c :: (text ++ q.char :: rest)) = _
    rw [stringContent, htext]
    rfl
  | case3 text ih => exact ih h
  | case4 c text hslash ih =>
    simp only [Bool.and_eq_true, bne_iff_ne] at h
    obtain ⟨⟨⟨hquote, hreturn⟩, hnewline⟩, h⟩ := h
    have htext : stringContent q.char (text ++ q.char :: rest) = ⟨text, q.char :: rest⟩ := ih h
    show stringContent q.char (c :: (text ++ q.char :: rest)) = _
    rw [stringContent, if_neg (by simp [hquote, hslash, hreturn, hnewline]), htext]
    · rfl
    · exact fun _ _ heq => absurd heq hslash

/-- A literal at the front of a text is well escaped content between two quotes. -/
theorem stringLiteral?_eq_some_iff {text : List Char} {s : Split} :
    stringLiteral? text = some s ↔
      ∃ (q : Quote) (content rest : List Char), text = q.char :: (content ++ q.char :: rest) ∧
        s = ⟨q.char :: (content ++ [q.char]), rest⟩ ∧ q.wellEscaped false content = true := by
  constructor
  · intro h
    obtain ⟨quote, rest, rfl, hquote, h⟩ := stringLiteral?_eq_some h
    obtain ⟨q, rfl⟩ := exists_char_eq hquote
    obtain ⟨closing, hclosing, rfl⟩ := Option.map_eq_some_iff.mp h
    obtain ⟨c, more, hrest, hc, rfl⟩ := charOf?_eq_some hclosing
    obtain rfl : c = q.char := beq_iff_eq.mp hc
    have hcontent : rest = (stringContent q.char rest).front ++ (stringContent q.char rest).rest :=
      of_stringContent q.char rest
    refine ⟨q, (stringContent q.char rest).front, more, ?_, rfl, q.wellEscaped_stringContent rest⟩
    rw [show (stringContent q.char rest).rest = q.char :: more from hrest] at hcontent
    rw [← hcontent]
  · rintro ⟨q, content, rest, rfl, rfl, h⟩
    have hquote : q.char = '\'' ∨ q.char = '"' := by cases q <;> simp [char]
    have hcontent : stringContent q.char (content ++ q.char :: rest) = ⟨content, q.char :: rest⟩ :=
      stringContent_of_wellEscaped h
    simp [stringLiteral?, hquote, Split.andMaybe, Split.andThen, hcontent, charOf?]

end Quote

/-! ## Whole texts -/

theorem derives_string (cs : List Char) : Grammar.atom.Derives [.lexeme .string cs]
    [.expr (.literal (.string (String.ofList cs.tail.dropLast)))] :=
  .eitherSecond (.eitherSecond (.eitherFirst (.rule .lexeme fun _ => rfl)))

/-- What begins with a quote begins with a string literal, if it consists of tokens. -/
theorem Lexed.exists_string {q : Quote} {text : List Char} {ts : List Token}
    (h : Lexed (q.char :: text) ts) :
    ∃ cs rest us, ts = .lexeme .string cs :: us ∧
      stringLiteral? (q.char :: text) = some ⟨cs, rest⟩ := by
  have hdrop : (q.char :: text).dropWhile isSpacing = q.char :: text := by cases q <;> rfl
  cases h with
  | nil hnil => rw [hdrop] at hnil; cases hnil
  | @cons _ rest t us hnext _ =>
    rw [hdrop] at hnext
    cases t with
    | symbol y =>
      obtain ⟨more, hmore⟩ := y.spelling_eq_cons
      have htext := (nextToken?_symbol.mp hnext).2.1
      rw [hmore] at htext
      have hhead : q.char = y.head := (List.cons.inj htext).1
      cases q <;> cases y <;> cases hhead
    | lexeme l cs =>
      have hscan := nextToken?_lexeme.mp hnext
      have hquoted : LexemeFamily.quoted.canStart q.char = true := by cases q <;> rfl
      have hfamily := LexemeFamily.eq_of_canStart (Lexeme.canStart_of_scan? hscan) hquoted
      cases l with
      | string => exact ⟨cs, rest, us, rfl, hscan⟩
      | _ => cases hfamily

/-- A text between two quotes is parsed as a literal with that content, as it stands, if and only if
    it is well escaped. -/
theorem parse_around_iff (q : Quote) (content : String) :
    parse (q.around content) = .ok (.literal (.string content)) ↔
      q.wellEscaped false content.toList = true := by
  constructor
  · intro h
    obtain ⟨ts, hlexed, haccounted⟩ := accounted_of_parse h
    rw [q.toList_around] at hlexed
    obtain ⟨cs, rest, us, rfl, hscan⟩ := hlexed.exists_string
    obtain ⟨q', inner, rest', htext, hsplit, hinner⟩ := Quote.stringLiteral?_eq_some_iff.mp hscan
    obtain rfl : q = q' := Quote.char_injective (List.cons.inj htext).1
    -- the first literal of the text is the only one of the expression
    have hitems : [Item.literal (.string (String.ofList cs.tail.dropLast))] ++
        itemsOfTokens false us = [Item.literal (.string content)] := haccounted.itemsOfTokens_eq
    have hcontent : String.ofList cs.tail.dropLast = content := by
      injection (List.cons.inj hitems).1 with hliteral
      injection hliteral
    have hcs : cs = q.char :: (inner ++ [q.char]) := congrArg Split.front hsplit
    rw [← hcontent, hcs]
    simpa using hinner
  · intro h
    have hscan : stringLiteral? (q.around content).toList = some ⟨(q.around content).toList, []⟩ :=
      Quote.stringLiteral?_eq_some_iff.mpr
        ⟨q, content.toList, [], q.toList_around content, by rw [q.toList_around], h⟩
    have hderives := derives_of_atom (derives_string (q.around content).toList) .expression
    have hcontent : (q.around content).toList.tail.dropLast = content.toList := by
      simp [q.toList_around]
    rw [hcontent, String.ofList_toList] at hderives
    exact parse_of_derives (.lexeme (l := .string) hscan) hderives

/-- The other quote, other scripts and an escaped line feed may stand in a literal; a carriage
    return escaped in front of a line feed leaves the line feed as the end of the line. -/
example :
    Quote.single.wellEscaped false "\"π\\\n".toList = true ∧
      Quote.single.wellEscaped false "".toList = true ∧
      Quote.single.wellEscaped false "a\\\r\nb".toList = false ∧
      Quote.single.wellEscaped false "a\\".toList = false := by
  decide

end Calculator.Grammar
