/-!
# Lines and columns

A line feed ends a line; a carriage return before it belongs to the line that ends.  Lines and
columns count from 1, and columns count characters.
-/

namespace Calculator.Text

/-- A place in a text as a reader finds it. -/
structure Position where
  line : Nat
  column : Nat
deriving DecidableEq

/-- The place of the character that `offset` characters precede. -/
def position (text : List Char) (offset : Nat) : Position :=
  let before := text.take offset
  ⟨before.count '\n' + 1, (before.reverse.takeWhile (· ≠ '\n')).length + 1⟩

example : position ['a', '\r', '\n', 'b', '\r', 'c'] 5 = ⟨2, 3⟩ := by decide

end Calculator.Text
