import Calculator.Decimal.Basic

/-!
# Arities

How many arguments a function takes.
-/

namespace Calculator

/-- The numbers of arguments that a function takes. -/
inductive Arity where
  | exactly (count : Nat)
  | between (least most : Nat)
  | atLeast (least : Nat)
deriving DecidableEq

namespace Arity

/-- Whether a function may be called with so many arguments. -/
def accepts : Arity → Nat → Bool
  | exactly n, count => count == n
  | between least most, count => least ≤ count && count ≤ most
  | atLeast least, count => least ≤ count

/-- A natural number in decimal. -/
def countText (n : Nat) : String := String.ofList (digits n)

/-- The noun after a number of arguments. -/
def noun (n : Nat) : String := if n = 1 then "argument" else "arguments"

/-- An arity in words. -/
def text : Arity → String
  | exactly n => "exactly " ++ countText n ++ " " ++ noun n
  | between least most => "from " ++ countText least ++ " to " ++ countText most ++ " arguments"
  | atLeast least => "at least " ++ countText least ++ " " ++ noun least

end Arity

end Calculator
