/-!
# Lexemes

The smallest parts of an expression that have a spelling of their own: words, identifiers,
numerals and string literals.  `Lexeme.scan?` splits one off the front of a text.

* A word, an identifier and a numeral end where no further letter, digit or underscore follows, so
  a word is never the beginning of a longer identifier.
* A string literal ends at its first quote without a backslash in front, and within its line
  unless a backslash stands before the line's end.
-/

namespace Calculator.Grammar

/-- The words that are no identifiers. -/
inductive Keyword where
  | lambdaWord | ifWord | elseWord | forWord | orWord | andWord | notWord | inWord | isWord
  | trueWord | falseWord | noneWord
deriving DecidableEq

namespace Keyword

/-- How a word is spelled. -/
def spelling : Keyword → String
  | lambdaWord => "lambda"
  | ifWord => "if"
  | elseWord => "else"
  | forWord => "for"
  | orWord => "or"
  | andWord => "and"
  | notWord => "not"
  | inWord => "in"
  | isWord => "is"
  | trueWord => "True"
  | falseWord => "False"
  | noneWord => "None"

/-- All words. -/
def all : List Keyword :=
  [lambdaWord, ifWord, elseWord, forWord, orWord, andWord, notWord, inWord, isWord, trueWord,
    falseWord, noneWord]

theorem mem_all (k : Keyword) : k ∈ all := by
  cases k <;> decide

end Keyword

/-- Whether a character may stand in an identifier. -/
def isIdentifierChar (c : Char) : Bool := c.isAlphanum || c == '_'

/-- Whether a character may stand first in an identifier. -/
def isIdentifierStart (c : Char) : Bool := c.isAlpha || c == '_'

/-- Whether nothing that could belong to an identifier comes first. -/
def endsWord : List Char → Bool
  | [] => true
  | c :: _ => !isIdentifierChar c

/-- The rest of a text behind a spelling at its front. -/
def afterSpelling? : List Char → List Char → Option (List Char)
  | [], text => some text
  | s :: spelling, c :: text => if s = c then afterSpelling? spelling text else none
  | _ :: _, [] => none

/-- A part of a text in front of the rest of it. -/
structure Split where
  front : List Char
  rest : List Char

namespace Split

/-- Continues with a reader of the rest. -/
def andThen (s : Split) (reader : List Char → Option Split) : Option Split :=
  (reader s.rest).map fun t => ⟨s.front ++ t.front, t.rest⟩

/-- Continues with a reader of the rest if it accepts. -/
def andMaybe (s : Split) (reader : List Char → Option Split) : Split :=
  (s.andThen reader).getD s

end Split

/-- A single character of a class. -/
def charOf? (p : Char → Bool) : List Char → Option Split
  | c :: text => if p c then some ⟨[c], text⟩ else none
  | [] => none

/-! ## Numerals -/

/-- As many digits as there are, each with at most one underscore in front. -/
def separatedDigits (isDigit : Char → Bool) : List Char → Split
  | '_' :: d :: text =>
    if isDigit d then
      let more := separatedDigits isDigit text
      ⟨'_' :: d :: more.front, more.rest⟩
    else ⟨[], '_' :: d :: text⟩
  | d :: text =>
    if isDigit d then
      let more := separatedDigits isDigit text
      ⟨d :: more.front, more.rest⟩
    else ⟨[], d :: text⟩
  | [] => ⟨[], []⟩

/-- Decimal digits with single underscores between them. -/
def digits? (text : List Char) : Option Split :=
  match charOf? Char.isDigit text with
  | some first => some (first.andMaybe fun rest => some (separatedDigits Char.isDigit rest))
  | none => none

/-- The letter `e`, an optional sign and digits. -/
def exponent? (text : List Char) : Option Split :=
  match charOf? (fun c => c == 'e' || c == 'E') text with
  | some letter => (letter.andMaybe (charOf? fun c => c == '+' || c == '-')).andThen digits?
  | none => none

/-- Digits with an optional point among, before or behind them and an optional exponent. -/
def decimal? (text : List Char) : Option Split :=
  let point? := charOf? (· == '.')
  match digits? text with
  | some whole =>
    match whole.andThen point? with
    | some pointed => some ((pointed.andMaybe digits?).andMaybe exponent?)
    | none => some (whole.andMaybe exponent?)
  | none =>
    match point? text with
    | some point => (point.andThen digits?).map (·.andMaybe exponent?)
    | none => none

/-- Whether a character is a digit in base 16. -/
def isHexDigit (c : Char) : Bool :=
  c.isDigit || ('a' ≤ c && c ≤ 'f') || ('A' ≤ c && c ≤ 'F')

/-- The digits of the base that a letter behind a leading zero announces. -/
def radixDigit? (letter : Char) : Option (Char → Bool) :=
  match letter.toLower with
  | 'x' => some isHexDigit
  | 'o' => some fun c => '0' ≤ c && c ≤ '7'
  | 'b' => some fun c => c == '0' || c == '1'
  | _ => none

/-- A zero, the letter of a base, and at least one digit of that base. -/
def radixInteger? : List Char → Option Split
  | '0' :: letter :: text =>
    match radixDigit? letter with
    | some isDigit =>
      let ds := separatedDigits isDigit text
      if ds.front.isEmpty then none else some ⟨'0' :: letter :: ds.front, ds.rest⟩
    | none => none
  | _ => none

/-- Keeps a split that does not end within a word. -/
def Split.atWordEnd? (s : Split) : Option Split :=
  if endsWord s.rest then some s else none

/-- A number: an integer in some base or a decimal. -/
def number? (text : List Char) : Option Split :=
  match radixInteger? text with
  | some s => s.atWordEnd?
  | none => (decimal? text).bind Split.atWordEnd?

/-- An imaginary number: a decimal and the letter `j`. -/
def imaginary? (text : List Char) : Option Split :=
  ((decimal? text).bind (·.andThen (charOf? fun c => c == 'j' || c == 'J'))).bind
    Split.atWordEnd?

/-! ## Words, identifiers and string literals -/

/-- A given word. -/
def keyword? (k : Keyword) (text : List Char) : Option Split :=
  match afterSpelling? k.spelling.toList text with
  | some rest => if endsWord rest then some ⟨k.spelling.toList, rest⟩ else none
  | none => none

/-- A letter or underscore with all letters, digits and underscores that follow, unless they are
    a word. -/
def identifier? (text : List Char) : Option Split :=
  let name := text.takeWhile isIdentifierChar
  match name with
  | [] => none
  | c :: _ =>
    if isIdentifierStart c && !(Keyword.all.any fun k => k.spelling.toList == name) then
      some ⟨name, text.dropWhile isIdentifierChar⟩
    else none

/-- The content of a string literal up to what cannot belong to it: the quote, the end of a line,
    or a backslash at the end of the text.  A backslash takes the character after it along. -/
def stringContent (quote : Char) : List Char → Split
  | '\\' :: c :: text =>
    let more := stringContent quote text
    ⟨'\\' :: c :: more.front, more.rest⟩
  | c :: text =>
    if c = quote ∨ c = '\\' ∨ c = '\n' ∨ c = '\r' then ⟨[], c :: text⟩
    else
      let more := stringContent quote text
      ⟨c :: more.front, more.rest⟩
  | [] => ⟨[], []⟩

/-- A string literal with its quotes. -/
def stringLiteral? : List Char → Option Split
  | quote :: text =>
    if quote = '\'' ∨ quote = '"' then
      (Split.mk [quote] text).andMaybe (fun rest => some (stringContent quote rest))
        |>.andThen (charOf? (· == quote))
    else none
  | [] => none

/-! ## All lexemes -/

/-- The kinds of lexemes. -/
inductive Lexeme where
  | keyword (k : Keyword)
  | identifier
  | number
  | imaginary
  | string

/-- Splits a lexeme off the front of a text. -/
def Lexeme.scan? : Lexeme → List Char → Option Split
  | keyword k => keyword? k
  | identifier => identifier?
  | number => number?
  | imaginary => imaginary?
  | string => stringLiteral?

end Calculator.Grammar
