import Calculator.Grammar.Tree
import Calculator.Grammar.Furthest

/-!
# Recognizing a text

`Phrase.run` tries a phrase at a place of a text.  Places lie behind white space, so no phrase
begins with any.  A run ends after at most `fuel` nested steps; `fuelFor` is enough for any text,
because no rule can come back to itself without taking a character.
-/

namespace Calculator.Grammar

/-- The characters that may stand between lexemes. -/
def isSpacing (c : Char) : Bool := c == ' ' || c == '\t' || c == '\r' || c == '\n'

/-- A place in a text: what is left of it and how many characters came before. -/
structure Cursor where
  offset : Nat
  rest : List Char

namespace Cursor

/-- The next place that is not white space. -/
def skipSpacing (c : Cursor) : Cursor :=
  ⟨c.offset + (c.rest.takeWhile isSpacing).length, c.rest.dropWhile isSpacing⟩

/-- The first place of a text. -/
def start (text : List Char) : Cursor := Cursor.skipSpacing ⟨0, text⟩

/-- The place behind a part of the text and the white space after it. -/
def past (c : Cursor) (s : Split) : Cursor :=
  Cursor.skipSpacing ⟨c.offset + s.front.length, s.rest⟩

/-- Splits off a spelling if it comes next. -/
def spelling? (c : Cursor) (spelling : String) : Option Split :=
  (afterSpelling? spelling.toList c.rest).map fun rest => ⟨spelling.toList, rest⟩

end Cursor

/-- How a phrase fared at a place. -/
inductive Outcome where
  /-- It fitted, with these parts, and goes on at this place. -/
  | fits (parts : List Tree) (next : Cursor)
  | fails

/-- A split of the text as an outcome; `keep` says whether it becomes a leaf. -/
def Outcome.ofSplit? (c : Cursor) (keep : Bool) : Option Split → Outcome
  | some s => .fits (if keep then [.leaf s.front] else []) (c.past s)
  | none => .fails

/-- Tries a phrase at a place, with the furthest failure so far.  The answer is missing only if the
    fuel is used up. -/
def Phrase.run : (fuel : Nat) → Phrase → Cursor → Furthest → Option (Outcome × Furthest)
  | 0, _, _, _ => none
  | _ + 1, nothing, c, f => some (.fits [] c, f)
  | _ + 1, atEnd, c, f => some (if c.rest.isEmpty then .fits [] c else .fails, f)
  | _ + 1, lexeme l, c, f => some (.ofSplit? c true (l.scan? c.rest), f)
  | _ + 1, mark s, c, f => some (.ofSplit? c false (c.spelling? s), f)
  | _ + 1, sign ss, c, f => some (.ofSplit? c true (ss.findSome? c.spelling?), f)
  | _ + 1, notNext s, c, f => some (if (c.spelling? s).isNone then .fits [] c else .fails, f)
  | fuel + 1, rule r, c, f =>
    match run fuel r.body c f with
    | some (.fits parts next, f') => some (.fits [.node r c.offset parts] next, f')
    | some (.fails, f') => some (.fails, f.note f' r c.offset)
    | none => none
  | fuel + 1, seq p q, c, f =>
    match run fuel p c f with
    | some (.fits parts next, f') =>
      match run fuel q next f' with
      | some (.fits more next', f'') => some (.fits (parts ++ more) next', f'')
      | failed => failed
    | failed => failed
  | fuel + 1, either p q, c, f =>
    match run fuel p c f with
    | some (.fails, f') => run fuel q c f'
    | answer => answer
  | fuel + 1, many p, c, f =>
    match run fuel p c f with
    | some (.fits parts next, f') =>
      match run fuel (many p) next f' with
      | some (.fits more next', f'') => some (.fits (parts ++ more) next', f'')
      | failed => failed
    | some (.fails, f') => some (.fits [] c, f')
    | none => none

/-- Enough fuel for a text: between two characters there are fewer than 64 nested steps. -/
def fuelFor (text : List Char) : Nat := 64 * (text.length + 1)

/-- The tree of an expression, or the furthest failure in a text that is none. -/
def recognize (text : List Char) : Except Furthest Tree :=
  match wholeText.run (fuelFor text) (Cursor.start text) .start with
  | some (.fits (tree :: _) _, _) => .ok tree
  | some (_, f) => .error f
  | none => .error .start

end Calculator.Grammar
