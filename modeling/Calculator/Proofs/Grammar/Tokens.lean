import Calculator.Proofs.Grammar.Vocabulary

/-!
# The tokens of a text

A text is read from left to right without regard to the rules of the grammar: white space is
skipped, and then comes a lexeme or else the longest symbol that stands there.

Results:
* `Lexeme.scan?_unique`: at most one kind of lexeme stands at the front of a text.
* `nextToken?_lexeme`, `nextToken?_symbol`: which token comes next.
* `Lexed.append`: the tokens of a text that is followed by a delimiter.
* `tokens?_eq_some`: `tokens?` finds the tokens of every text that has any.
-/

namespace Calculator.Grammar

/-! ## Symbols -/

/-- Operators and punctuation marks. -/
inductive Symbol where
  | doubleEqual | notEqual | lessEqual | greaterEqual | less | greater | bar | caret | ampersand
  | shiftLeft | shiftRight | plus | minus | doubleSlash | slash | doubleStar | star | percent
  | atSign | tilde | leftParen | rightParen | leftBracket | rightBracket | leftBrace | rightBrace
  | comma | colonEqual | colon | equal | point
deriving DecidableEq

namespace Symbol

/-- How a symbol is written. -/
def spelling : Symbol → List Char
  | doubleEqual => ['=', '=']
  | notEqual => ['!', '=']
  | lessEqual => ['<', '=']
  | greaterEqual => ['>', '=']
  | less => ['<']
  | greater => ['>']
  | bar => ['|']
  | caret => ['^']
  | ampersand => ['&']
  | shiftLeft => ['<', '<']
  | shiftRight => ['>', '>']
  | plus => ['+']
  | minus => ['-']
  | doubleSlash => ['/', '/']
  | slash => ['/']
  | doubleStar => ['*', '*']
  | star => ['*']
  | percent => ['%']
  | atSign => ['@']
  | tilde => ['~']
  | leftParen => ['(']
  | rightParen => [')']
  | leftBracket => ['[']
  | rightBracket => [']']
  | leftBrace => ['\x7b']
  | rightBrace => ['\x7d']
  | comma => [',']
  | colonEqual => [':', '=']
  | colon => [':']
  | equal => ['=']
  | point => ['.']

/-- All symbols, each in front of those that it begins with. -/
def all : List Symbol :=
  [doubleEqual, notEqual, lessEqual, greaterEqual, shiftLeft, shiftRight, doubleSlash, doubleStar,
    colonEqual, less, greater, bar, caret, ampersand, plus, minus, slash, star, percent, atSign,
    tilde, leftParen, rightParen, leftBracket, rightBracket, leftBrace, rightBrace, comma, colon,
    equal, point]

theorem mem_all (s : Symbol) : s ∈ all := by
  cases s <;> decide

theorem pairwise_all : all.Pairwise fun s y => ¬ s.spelling <+: y.spelling := by
  decide

/-- Whether a symbol is a bracket or the comma. -/
def isSeparator : Symbol → Bool
  | leftParen | rightParen | leftBracket | rightBracket | leftBrace | rightBrace | comma => true
  | _ => false

/-- The first character of a symbol. -/
def head : Symbol → Char
  | doubleEqual | equal => '='
  | notEqual => '!'
  | lessEqual | shiftLeft | less => '<'
  | greaterEqual | shiftRight | greater => '>'
  | bar => '|'
  | caret => '^'
  | ampersand => '&'
  | plus => '+'
  | minus => '-'
  | doubleSlash | slash => '/'
  | doubleStar | star => '*'
  | percent => '%'
  | atSign => '@'
  | tilde => '~'
  | leftParen => '('
  | rightParen => ')'
  | leftBracket => '['
  | rightBracket => ']'
  | leftBrace => '\x7b'
  | rightBrace => '\x7d'
  | comma => ','
  | colonEqual | colon => ':'
  | point => '.'

theorem spelling_eq_cons (s : Symbol) : ∃ more, s.spelling = s.head :: more := by
  cases s <;> exact ⟨_, rfl⟩

theorem isDelimiter_of_isSeparator {s : Symbol} (h : s.isSeparator = true) :
    s.spelling = [s.head] ∧ isDelimiter s.head = true := by
  cases s <;> first | exact ⟨rfl, rfl⟩ | cases h

/-- No other symbol begins as a bracket or the comma does. -/
theorem eq_of_isSeparator {s y : Symbol} (hs : s.isSeparator = true) (h : y.head = s.head) :
    y = s := by
  have hall : (all.all fun s => all.all fun y =>
      !s.isSeparator || y.head != s.head || decide (y = s)) = true := by decide
  have hy := List.all_eq_true.mp (List.all_eq_true.mp hall s s.mem_all) y y.mem_all
  simpa [hs, h] using hy

/-- Behind its first character a symbol has no delimiter and nothing that begins a lexeme. -/
theorem not_isDelimiter_tail (s : Symbol) : ∀ c ∈ s.spelling.tail, isDelimiter c = false := by
  have hall : (s.spelling.tail.all fun c => !isDelimiter c) = true := by cases s <;> rfl
  simpa using hall

end Symbol

/-! ## The front of a lexeme -/

/-- The characters with which a lexeme can begin. -/
def isLexemeStart (c : Char) : Bool :=
  isIdentifierStart c || isNumberStart c || c == '\'' || c == '"'

theorem keyword?_eq_some {k : Keyword} {text : List Char} {s : Split}
    (h : keyword? k text = some s) :
    s = ⟨k.spelling.toList, text.dropWhile isIdentifierChar⟩ ∧
      text.takeWhile isIdentifierChar = k.spelling.toList := by
  rw [keyword?] at h
  split at h
  · next rest hrest =>
    split at h
    · next hends =>
      cases h
      have htext := afterSpelling?_eq_some.mp hrest
      have hall : ∀ c ∈ k.spelling.toList, isIdentifierChar c = true :=
        List.all_eq_true.mp (by cases k <;> rfl)
      have hstop : rest.takeWhile isIdentifierChar = [] ∧
          rest.dropWhile isIdentifierChar = rest := by
        cases rest with
        | nil => exact ⟨rfl, rfl⟩
        | cons c rest =>
          rw [endsWord, Bool.not_eq_true'] at hends
          simp [hends]
      rw [htext, List.takeWhile_append_of_pos hall, List.dropWhile_append_of_pos hall, hstop.1,
        hstop.2, List.append_nil]
      exact ⟨rfl, rfl⟩
    · cases h
  · cases h

theorem keyword?_head {k : Keyword} {c : Char} {rest : List Char} {s : Split}
    (h : keyword? k (c :: rest) = some s) : isIdentifierStart c = true := by
  obtain ⟨-, htake⟩ := keyword?_eq_some h
  have hhead : k.spelling.toList.head? = some c := by
    rw [← htake, List.takeWhile_cons]
    split
    · rfl
    · next hc =>
      rw [List.takeWhile_cons_of_neg hc] at htake
      cases k <;> cases htake
  have hall : ∀ d, k.spelling.toList.head? = some d → isIdentifierStart d = true := by
    cases k <;> · intro d hd; cases hd; rfl
  exact hall c hhead

theorem stringLiteral?_head {c : Char} {rest : List Char} {s : Split}
    (h : stringLiteral? (c :: rest) = some s) : c = '\'' ∨ c = '"' := by
  obtain ⟨quote, rest', htext, hquote, -⟩ := stringLiteral?_eq_some h
  rw [(List.cons.inj htext).1]
  exact hquote

/-- Kinds of lexemes that begin with the same characters. -/
inductive LexemeFamily where
  | word | numeral | quoted
deriving DecidableEq

/-- The characters with which the lexemes of a family can begin. -/
def LexemeFamily.canStart : LexemeFamily → Char → Bool
  | word => isIdentifierStart
  | numeral => isNumberStart
  | quoted => fun c => c == '\'' || c == '"'

/-- The family of a kind of lexemes. -/
def Lexeme.family : Lexeme → LexemeFamily
  | keyword _ | identifier => .word
  | number | imaginary => .numeral
  | string => .quoted

theorem Lexeme.canStart_of_scan? {l : Lexeme} {c : Char} {rest : List Char} {s : Split}
    (h : l.scan? (c :: rest) = some s) : l.family.canStart c = true := by
  cases l with
  | keyword k => exact keyword?_head h
  | identifier => exact identifier?_head h
  | number => exact number?_head h
  | imaginary => exact imaginary?_head h
  | string => simpa [family, LexemeFamily.canStart] using stringLiteral?_head h

theorem LexemeFamily.isLexemeStart_of_canStart {f : LexemeFamily} {c : Char}
    (h : f.canStart c = true) : isLexemeStart c = true := by
  cases f <;> simp_all [canStart, isLexemeStart, or_assoc]

/-- No character begins lexemes of two families. -/
theorem LexemeFamily.eq_of_canStart {f f' : LexemeFamily} {c : Char} (h : f.canStart c = true)
    (h' : f'.canStart c = true) : f = f' := by
  have hword : isNumberStart c = true → isIdentifierStart c = false :=
    isIdentifierStart_of_isNumberStart
  have hquote : c = '\'' ∨ c = '"' → isIdentifierStart c = false ∧ isNumberStart c = false := by
    rintro (rfl | rfl) <;> exact ⟨rfl, rfl⟩
  cases f <;> cases f' <;> simp_all [canStart]

theorem Lexeme.scan?_nil (l : Lexeme) : l.scan? [] = none := by
  cases h : l.scan? [] with
  | none => rfl
  | some s =>
    have hsplit : [] = s.front ++ s.rest := l.exact_scan? [] s h
    exact absurd (List.append_eq_nil_iff.mp hsplit.symm).1 (l.consuming_scan? [] s h)

/-- A number that is an imaginary number as well would have a letter behind its end. -/
theorem imaginary?_eq_none_of_number? {text : List Char} {s : Split} (h : number? text = some s) :
    imaginary? text = none := by
  rw [imaginary?_eq]
  rcases (number?_eq_some h).2 with hradix | ⟨-, hdecimal⟩
  · obtain ⟨letter, rest, isDigit, hletter, hdecimal⟩ := decimal?_of_radixInteger? hradix
    have hnot : charOf? (fun c => c == 'j' || c == 'J') (letter :: rest) = none := by
      refine if_neg fun hj => ?_
      rw [Bool.or_eq_true, beq_iff_eq, beq_iff_eq] at hj
      rcases hj with rfl | rfl <;> cases hletter
    rw [hdecimal, Option.bind_some, imaginaryEnd?, Split.andThen, hnot]
    rfl
  · rw [hdecimal, Option.bind_some, imaginaryEnd?, Split.andThen]
    have hends := (number?_eq_some h).1
    cases hrest : s.rest with
    | nil => rfl
    | cons c rest =>
      rw [hrest, endsWord, Bool.not_eq_true'] at hends
      have hnot : charOf? (fun c => c == 'j' || c == 'J') (c :: rest) = none := by
        refine if_neg fun hj => ?_
        rw [Bool.or_eq_true, beq_iff_eq, beq_iff_eq] at hj
        rcases hj with rfl | rfl <;> cases hends
      rw [hnot]
      rfl

theorem Keyword.eq_of_spelling_eq {k k' : Keyword}
    (h : k.spelling.toList = k'.spelling.toList) : k = k' := by
  cases k <;> cases k' <;> first | rfl | exact absurd h (by decide)

/-- At most one kind of lexeme stands at the front of a text. -/
theorem Lexeme.scan?_unique {l l' : Lexeme} {text : List Char} {s s' : Split}
    (h : l.scan? text = some s) (h' : l'.scan? text = some s') : l = l' := by
  cases text with
  | nil => rw [l.scan?_nil] at h; cases h
  | cons c rest =>
    have hfamily : l.family = l'.family :=
      LexemeFamily.eq_of_canStart (canStart_of_scan? h) (canStart_of_scan? h')
    cases l <;> cases l' <;> try first | rfl | cases hfamily
    · next k k' =>
      have heq := (keyword?_eq_some h).2.symm.trans (keyword?_eq_some h').2
      rw [Keyword.eq_of_spelling_eq heq]
    · next k =>
      obtain ⟨rfl, -, hne⟩ := identifier?_eq_some h'
      exact absurd (keyword?_eq_some h).2.symm (hne k)
    · next k =>
      obtain ⟨rfl, -, hne⟩ := identifier?_eq_some h
      exact absurd (keyword?_eq_some h').2.symm (hne k)
    · rw [scan?, imaginary?_eq_none_of_number? h] at h'
      cases h'
    · rw [scan?, imaginary?_eq_none_of_number? h'] at h
      cases h

/-! ## The next token -/

/-- A lexeme with its characters, or a symbol. -/
inductive Token where
  | lexeme (l : Lexeme) (chars : List Char)
  | symbol (s : Symbol)

namespace Token

/-- How a token is written. -/
def chars : Token → List Char
  | lexeme _ cs => cs
  | symbol s => s.spelling

/-- Whether a token is a bracket or the comma. -/
def isSeparator : Token → Bool
  | lexeme _ _ => false
  | symbol s => s.isSeparator

end Token

/-- All kinds of lexemes. -/
def Lexeme.all : List Lexeme :=
  [imaginary, number, string, identifier] ++ Keyword.all.map keyword

theorem Lexeme.mem_all (l : Lexeme) : l ∈ all := by
  cases l with
  | keyword k => exact List.mem_append_right _ (List.mem_map_of_mem k.mem_all)
  | _ => exact List.mem_append_left _ (by simp)

/-- The lexeme at the front of a text, with what stands behind it. -/
def nextLexeme? (text : List Char) : Option (Token × List Char) :=
  Lexeme.all.findSome? fun l => (l.scan? text).map fun s => (.lexeme l s.front, s.rest)

/-- The longest symbol at the front of a text, with what stands behind it. -/
def nextSymbol? (text : List Char) : Option (Token × List Char) :=
  Symbol.all.findSome? fun s =>
    (afterSpelling? s.spelling text).map fun rest => (.symbol s, rest)

/-- The token at the front of a text, with what stands behind it. -/
def nextToken? (text : List Char) : Option (Token × List Char) :=
  (nextLexeme? text).or (nextSymbol? text)

theorem nextLexeme?_eq_some {text : List Char} {t : Token} {rest : List Char} :
    nextLexeme? text = some (t, rest) ↔
      ∃ l cs, t = .lexeme l cs ∧ l.scan? text = some ⟨cs, rest⟩ := by
  constructor
  · intro h
    obtain ⟨l, -, hl⟩ := List.exists_of_findSome?_eq_some h
    obtain ⟨s, hs, heq⟩ := Option.map_eq_some_iff.mp hl
    cases heq
    exact ⟨l, s.front, rfl, hs⟩
  · rintro ⟨l, cs, rfl, h⟩
    cases hnext : nextLexeme? text with
    | none =>
      have hl := List.findSome?_eq_none_iff.mp hnext l l.mem_all
      rw [h] at hl
      cases hl
    | some found =>
      obtain ⟨l', -, hl'⟩ := List.exists_of_findSome?_eq_some hnext
      obtain ⟨s, hs, rfl⟩ := Option.map_eq_some_iff.mp hl'
      cases Lexeme.scan?_unique h hs
      rw [h] at hs
      cases hs
      rfl

theorem nextLexeme?_eq_none {text : List Char} :
    nextLexeme? text = none ↔ ∀ l : Lexeme, l.scan? text = none := by
  rw [nextLexeme?, List.findSome?_eq_none_iff]
  constructor
  · intro h l
    exact Option.map_eq_none_iff.mp (h l l.mem_all)
  · intro h l _
    exact Option.map_eq_none_iff.mpr (h l)

/-- Of the symbols that a text begins with, the one that is found comes first among all. -/
theorem nextSymbol?_first {text : List Char} {t : Token} {rest : List Char}
    (h : nextSymbol? text = some (t, rest)) :
    ∃ s, t = .symbol s ∧ text = s.spelling ++ rest ∧
      ∀ y : Symbol, y.spelling <+: text → y = s ∨ ¬ s.spelling <+: y.spelling := by
  obtain ⟨before, s, after, hall, hs, hbefore⟩ := List.findSome?_eq_some_iff.mp h
  obtain ⟨more, hmore, heq⟩ := Option.map_eq_some_iff.mp hs
  cases heq
  refine ⟨s, rfl, afterSpelling?_eq_some.mp hmore, ?_⟩
  rintro y ⟨tail, rfl⟩
  have hmem : y ∈ before ++ s :: after := hall ▸ y.mem_all
  rcases List.mem_append.mp hmem with hmem | hmem
  · have hnone := hbefore y hmem
    rw [afterSpelling?_eq_some.mpr rfl] at hnone
    cases hnone
  · rcases List.mem_cons.mp hmem with rfl | hmem
    · exact .inl rfl
    · have hpairwise := Symbol.pairwise_all
      rw [hall, List.pairwise_append] at hpairwise
      exact .inr ((List.pairwise_cons.mp hpairwise.2.1).1 y hmem)

theorem nextSymbol?_eq_some {text : List Char} {t : Token} {rest : List Char} :
    nextSymbol? text = some (t, rest) ↔
      ∃ s, t = .symbol s ∧ text = s.spelling ++ rest ∧
        ∀ y : Symbol, y.spelling <+: text → y.spelling <+: s.spelling := by
  constructor
  · intro h
    obtain ⟨s, rfl, htext, hfirst⟩ := nextSymbol?_first h
    refine ⟨s, rfl, htext, fun y hy => ?_⟩
    rcases hfirst y hy with rfl | hnot
    · exact List.prefix_rfl
    · -- of two spellings at the front one begins with the other
      exact (List.prefix_or_prefix_of_prefix hy ⟨rest, htext.symm⟩).resolve_right hnot
  · rintro ⟨s, rfl, rfl, hlongest⟩
    cases hnext : nextSymbol? (s.spelling ++ rest) with
    | none =>
      have hs := List.findSome?_eq_none_iff.mp hnext s s.mem_all
      rw [afterSpelling?_eq_some.mpr rfl] at hs
      cases hs
    | some found =>
      obtain ⟨t, more⟩ := found
      obtain ⟨y, rfl, htext, hfirst⟩ := nextSymbol?_first hnext
      rcases hfirst s (List.prefix_append ..) with rfl | hnot
      · rw [List.append_cancel_left htext]
      · exact absurd (hlongest y ⟨more, htext.symm⟩) hnot

theorem nextToken?_lexeme {text : List Char} {l : Lexeme} {cs rest : List Char} :
    nextToken? text = some (.lexeme l cs, rest) ↔ l.scan? text = some ⟨cs, rest⟩ := by
  rw [nextToken?, Option.or_eq_some_iff]
  constructor
  · rintro (h | ⟨-, h⟩)
    · obtain ⟨l', cs', heq, hscan⟩ := nextLexeme?_eq_some.mp h
      cases heq
      exact hscan
    · obtain ⟨s, heq, -⟩ := nextSymbol?_eq_some.mp h
      cases heq
  · intro h
    exact .inl (nextLexeme?_eq_some.mpr ⟨l, cs, rfl, h⟩)

theorem nextToken?_symbol {text : List Char} {s : Symbol} {rest : List Char} :
    nextToken? text = some (.symbol s, rest) ↔
      (∀ l : Lexeme, l.scan? text = none) ∧ text = s.spelling ++ rest ∧
        ∀ y : Symbol, y.spelling <+: text → y.spelling <+: s.spelling := by
  rw [nextToken?, Option.or_eq_some_iff, nextLexeme?_eq_none]
  constructor
  · rintro (h | ⟨hnone, h⟩)
    · obtain ⟨l', cs', heq, -⟩ := nextLexeme?_eq_some.mp h
      cases heq
    · obtain ⟨s', heq, hrest⟩ := nextSymbol?_eq_some.mp h
      cases heq
      exact ⟨hnone, hrest⟩
  · rintro ⟨hnone, hrest⟩
    exact .inr ⟨hnone, nextSymbol?_eq_some.mpr ⟨s, rfl, hrest⟩⟩

/-- A token and what stands behind it are the text, and the token is not empty. -/
theorem nextToken?_split {text : List Char} {t : Token} {rest : List Char}
    (h : nextToken? text = some (t, rest)) : text = t.chars ++ rest ∧ t.chars ≠ [] := by
  cases t with
  | lexeme l cs =>
    have hscan := nextToken?_lexeme.mp h
    exact ⟨l.exact_scan? _ _ hscan, l.consuming_scan? _ _ hscan⟩
  | symbol s =>
    obtain ⟨more, hmore⟩ := s.spelling_eq_cons
    refine ⟨(nextToken?_symbol.mp h).2.1, ?_⟩
    rw [Token.chars, hmore]
    exact List.cons_ne_nil _ _

/-- No token begins with white space. -/
theorem nextToken?_dropWhile {text : List Char} {t : Token} {rest : List Char}
    (h : nextToken? text = some (t, rest)) : text.dropWhile isSpacing = text := by
  cases t with
  | symbol s =>
    rw [(nextToken?_symbol.mp h).2.1]
    cases s <;> rfl
  | lexeme l cs =>
    cases text with
    | nil => rfl
    | cons c text =>
      have hstart := LexemeFamily.isLexemeStart_of_canStart
        (Lexeme.canStart_of_scan? (nextToken?_lexeme.mp h))
      refine List.dropWhile_cons_of_neg fun hc => ?_
      simp only [isSpacing, Bool.or_eq_true, beq_iff_eq] at hc
      rcases hc with ((rfl | rfl) | rfl) | rfl <;> exact absurd hstart (by decide)

/-! ## Text behind a token -/

/-- The content of a string literal ends at its quote, whatever stands behind that. -/
theorem stringContent_append {quote : Char} (hquote : quote ≠ '\\') {text : List Char}
    (h : (stringContent quote text).rest.head? = some quote) (tail : List Char) :
    stringContent quote (text ++ tail) = (stringContent quote text).extend tail := by
  fun_induction stringContent quote text with
  | case1 c text more ih =>
    show stringContent quote ('\\' :: c :: (text ++ tail)) = _
    rw [stringContent, ih h]
    rfl
  | case2 c text hne hstop =>
    cases Option.some.inj h
    rw [List.cons_append, stringContent, if_pos (.inl rfl)]
    · rfl
    · exact fun _ _ heq => absurd heq hquote
  | case3 c text hne hstop more ih =>
    rw [List.cons_append, stringContent, if_neg hstop, ih h]
    · rfl
    · exact fun _ _ heq => absurd (.inr (.inl heq)) hstop
  | case4 => cases h

theorem stringLiteral?_append {text : List Char} {s : Split} (h : stringLiteral? text = some s)
    (tail : List Char) : stringLiteral? (text ++ tail) = some (s.extend tail) := by
  obtain ⟨quote, rest, rfl, hquote, hs⟩ := stringLiteral?_eq_some h
  have hslash : quote ≠ '\\' := by rcases hquote with rfl | rfl <;> decide
  obtain ⟨closing, hclosing, rfl⟩ := Option.map_eq_some_iff.mp hs
  simp only [Split.andMaybe, Split.andThen, Option.map_some, Option.getD_some] at hclosing ⊢
  have hrest : (stringContent quote rest).rest = quote :: closing.rest ∧
      closing.front = [quote] := by
    cases hcontent : (stringContent quote rest).rest with
    | nil => rw [hcontent] at hclosing; cases hclosing
    | cons c more =>
      rw [hcontent, charOf?] at hclosing
      split at hclosing
      · next hc =>
        cases hclosing
        rw [beq_iff_eq] at hc
        exact ⟨by rw [hc], by rw [hc]⟩
      · cases hclosing
  have hcontent := stringContent_append hslash (by rw [hrest.1]; rfl) tail
  simp only [List.cons_append, stringLiteral?, if_pos hquote, hcontent, Split.andMaybe,
    Split.andThen, Option.map_some, Option.getD_some, Split.extend, hrest.1, hrest.2, charOf?,
    beq_self_eq_true, if_true]

/-- A scan that succeeds does so with a delimiter and more text behind it. -/
theorem Lexeme.scan?_extend {l : Lexeme} {text : List Char} {s : Split} (h : l.scan? text = some s)
    {tail : List Char} (htail : Ends tail) : l.scan? (text ++ tail) = some (s.extend tail) := by
  have hlocal : Local l.scan? → l.scan? (text ++ tail) = some (s.extend tail) := by
    intro hl
    rw [hl text tail htail, h]
    rfl
  cases l with
  | keyword k => exact hlocal (local_keyword? k)
  | identifier => exact hlocal local_identifier?
  | number => exact hlocal local_number?
  | imaginary => exact hlocal local_imaginary?
  | string => exact stringLiteral?_append h tail

/-- No lexeme begins as a symbol other than the point does. -/
theorem Lexeme.scan?_symbol (l : Lexeme) {s : Symbol} (hs : s ≠ .point) (rest : List Char) :
    l.scan? (s.spelling ++ rest) = none := by
  obtain ⟨more, hmore⟩ := s.spelling_eq_cons
  cases hscan : l.scan? (s.spelling ++ rest) with
  | none => rfl
  | some split =>
    rw [hmore] at hscan
    have hstart := LexemeFamily.isLexemeStart_of_canStart (canStart_of_scan? hscan)
    cases s <;> first | exact absurd rfl hs | exact absurd hstart (by decide)

/-- A symbol at the front of a text that is followed by a delimiter does not reach beyond it. -/
theorem Symbol.prefix_of_prefix_append {y : Symbol} {text tail : List Char} (htext : text ≠ [])
    (htail : Ends tail) (h : y.spelling <+: text ++ tail) : y.spelling <+: text := by
  rcases List.prefix_or_prefix_of_prefix h (List.prefix_append text tail) with hy | ⟨more, hmore⟩
  · exact hy
  · cases more with
    | nil => exact ⟨[], by rw [List.append_nil, ← hmore, List.append_nil]⟩
    | cons c more =>
      -- the delimiter would stand behind the first character of the symbol
      have hc : isDelimiter c = true := by
        rw [← hmore, List.prefix_append_right_inj] at h
        obtain ⟨rest, hrest⟩ := h
        exact htail c (more ++ rest) hrest.symm
      have hmem : c ∈ y.spelling.tail := by
        cases text with
        | nil => exact absurd rfl htext
        | cons d text => rw [← hmore]; simp
      rw [y.not_isDelimiter_tail c hmem] at hc
      cases hc

/-- The next token of a text is still the next one with a delimiter and more text behind it. -/
theorem nextToken?_append {text : List Char} {t : Token} {rest tail : List Char}
    (h : nextToken? text = some (t, rest)) (htail : Ends tail) :
    nextToken? (text ++ tail) = some (t, rest ++ tail) := by
  cases t with
  | lexeme l cs =>
    exact nextToken?_lexeme.mpr (l.scan?_extend (nextToken?_lexeme.mp h) htail)
  | symbol s =>
    obtain ⟨hnone, htext, hlongest⟩ := nextToken?_symbol.mp h
    obtain ⟨more, hmore⟩ := s.spelling_eq_cons
    have hne : text ≠ [] := by rw [htext, hmore]; exact List.cons_ne_nil _ _
    refine nextToken?_symbol.mpr ⟨fun l => ?_, ?_, fun y hy => ?_⟩
    · rw [l.scan?_append htail _ hne, hnone l]
      · rfl
      · rw [htext, hmore]
        intro c rest' heq
        cases heq
        cases s <;> decide
    · rw [htext, List.append_assoc]
    · exact hlongest y (y.prefix_of_prefix_append hne htail hy)

/-- A bracket or a comma is the next token whatever stands behind it. -/
theorem nextToken?_separator {s : Symbol} (hs : s.isSeparator = true) (rest : List Char) :
    nextToken? (s.spelling ++ rest) = some (.symbol s, rest) := by
  obtain ⟨hspelling, -⟩ := Symbol.isDelimiter_of_isSeparator hs
  refine nextToken?_symbol.mpr ⟨fun l => ?_, rfl, fun y hy => ?_⟩
  · exact l.scan?_symbol (by rintro rfl; cases hs) rest
  · obtain ⟨more, hmore⟩ := y.spelling_eq_cons
    obtain ⟨rest', hrest'⟩ := hy
    rw [hmore, hspelling] at hrest'
    obtain rfl := Symbol.eq_of_isSeparator hs (List.cons.inj hrest').1
    exact List.prefix_rfl

/-! ## The tokens of a text -/

/-- The tokens of a text, if it has at most so many. -/
def tokensWithin : Nat → List Char → Option (List Token)
  | 0, _ => none
  | n + 1, text =>
    match text.dropWhile isSpacing with
    | [] => some []
    | c :: cs => (nextToken? (c :: cs)).bind fun next => (tokensWithin n next.2).map (next.1 :: ·)

/-- The tokens of a text, read from left to right. -/
def tokens? (text : List Char) : Option (List Token) := tokensWithin (text.length + 1) text

/-- A text consists of some tokens, with white space between them. -/
inductive Lexed : List Char → List Token → Prop
  | nil {text : List Char} : text.dropWhile isSpacing = [] → Lexed text []
  | cons {text rest : List Char} {t : Token} {ts : List Token} :
      nextToken? (text.dropWhile isSpacing) = some (t, rest) → Lexed rest ts → Lexed text (t :: ts)

theorem nextToken?_nil : nextToken? [] = none := by
  cases h : nextToken? [] with
  | none => rfl
  | some next =>
    obtain ⟨hsplit, hne⟩ := nextToken?_split h
    exact absurd (List.append_eq_nil_iff.mp hsplit.symm).1 hne

theorem tokensWithin_eq_some {n : Nat} {text : List Char} {ts : List Token}
    (hn : text.length < n) : tokensWithin n text = some ts ↔ Lexed text ts := by
  induction n generalizing text ts with
  | zero => omega
  | succ n ih =>
    rw [tokensWithin]
    split
    · next hnil =>
      constructor
      · intro h
        cases h
        exact .nil hnil
      · intro h
        cases h with
        | nil _ => rfl
        | cons hnext _ => rw [hnil, nextToken?_nil] at hnext; cases hnext
    · next c cs hcons =>
      have hlength : ∀ t rest, nextToken? (c :: cs) = some (t, rest) → rest.length < n := by
        intro t rest h
        obtain ⟨hsplit, hne⟩ := nextToken?_split h
        have hle : (text.dropWhile isSpacing).length ≤ text.length :=
          (List.dropWhile_suffix isSpacing).length_le
        have hpos := List.length_pos_iff.mpr hne
        rw [hcons, hsplit, List.length_append] at hle
        omega
      constructor
      · intro h
        obtain ⟨⟨t, rest⟩, hnext, h⟩ := Option.bind_eq_some_iff.mp h
        obtain ⟨ts', hts, rfl⟩ := Option.map_eq_some_iff.mp h
        exact .cons (hcons ▸ hnext) ((ih (hlength t rest hnext)).mp hts)
      · intro h
        cases h with
        | nil hnil => rw [hcons] at hnil; cases hnil
        | @cons _ rest t ts hnext hts =>
          rw [hcons] at hnext
          rw [hnext, Option.bind_some, (ih (hlength t rest hnext)).mpr hts]
          rfl

/-- `tokens?` finds the tokens of every text that has any. -/
theorem tokens?_eq_some {text : List Char} {ts : List Token} :
    tokens? text = some ts ↔ Lexed text ts :=
  tokensWithin_eq_some (Nat.lt_succ_self _)

namespace Lexed

variable {text tail rest : List Char} {t : Token} {ts us : List Token}

theorem empty : Lexed [] [] := .nil rfl

theorem spacing_iff {gap : List Char} (hgap : gap.all isSpacing = true) :
    Lexed (gap ++ text) ts ↔ Lexed text ts := by
  have hdrop : (gap ++ text).dropWhile isSpacing = text.dropWhile isSpacing :=
    List.dropWhile_append_of_pos fun c hc => List.all_eq_true.mp hgap c hc
  constructor <;> intro h
  · cases h with
    | nil h => exact .nil (hdrop ▸ h)
    | cons hnext hts => exact .cons (hdrop ▸ hnext) hts
  · cases h with
    | nil h => exact .nil (hdrop.symm ▸ h)
    | cons hnext hts => exact .cons (hdrop.symm ▸ hnext) hts

theorem dropWhile_iff : Lexed (text.dropWhile isSpacing) ts ↔ Lexed text ts := by
  have h : Lexed (text.takeWhile isSpacing ++ text.dropWhile isSpacing) ts ↔
      Lexed (text.dropWhile isSpacing) ts := spacing_iff List.all_takeWhile
  rw [List.takeWhile_append_dropWhile] at h
  exact h.symm

/-- The tokens of a text that is followed by a delimiter and more text. -/
theorem append (h : Lexed text ts) (htail : Ends tail) (h' : Lexed tail us) :
    Lexed (text ++ tail) (ts ++ us) := by
  induction h with
  | @nil text hnil =>
    have hall : text.all isSpacing = true := by
      rw [← List.takeWhile_append_dropWhile (p := isSpacing) (l := text), hnil, List.append_nil]
      exact List.all_takeWhile
    exact (spacing_iff hall).mpr h'
  | @cons text rest t ts hnext _ ih =>
    have hdrop : (text ++ tail).dropWhile isSpacing = text.dropWhile isSpacing ++ tail := by
      rw [List.dropWhile_append]
      split
      · next hempty =>
        rw [List.isEmpty_iff.mp hempty, nextToken?_nil] at hnext
        cases hnext
      · rfl
    exact .cons (hdrop ▸ nextToken?_append hnext htail) ih

/-- A token in front of a text. -/
theorem of_next (h : nextToken? text = some (t, rest)) (hts : Lexed rest ts) :
    Lexed text (t :: ts) :=
  .cons (by rw [nextToken?_dropWhile h, h]) hts

/-- A lexeme by itself. -/
theorem lexeme {l : Lexeme} {cs : List Char} (h : l.scan? cs = some ⟨cs, []⟩) :
    Lexed cs [.lexeme l cs] :=
  .of_next (nextToken?_lexeme.mpr h) .empty

/-- A bracket or a comma in front of a text. -/
theorem separator {s : Symbol} (hs : s.isSeparator = true) (h : Lexed text ts) :
    Lexed (s.spelling ++ text) (.symbol s :: ts) :=
  of_next (nextToken?_separator hs text) h

end Lexed

end Calculator.Grammar
