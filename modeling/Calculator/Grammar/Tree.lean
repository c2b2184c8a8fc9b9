import Calculator.Grammar.Rule

/-!
# Trees

What the grammar finds in a text: a node for each rule that fitted, with the place where it began,
and a leaf for each lexeme and each operator.  Punctuation is not kept.
-/

namespace Calculator.Grammar

/-- The structure of a text according to the rules. -/
inductive Tree where
  | leaf (text : List Char)
  | node (rule : Rule) (offset : Nat) (parts : List Tree)

end Calculator.Grammar
