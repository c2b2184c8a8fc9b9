import Calculator.Function.Elementary
import Calculator.Function.Rounding
import Calculator.Function.Special
import Calculator.Function.Counting
import Calculator.Function.Classification

/-!
# Whitelists

The names that an expression may refer to: constants as bare names, functions as callees.
Everything else is undefined.
-/

namespace Calculator

/-- The constants and functions that expressions may use. -/
structure Whitelist where
  constants : List (String × Float)
  functions : List Function

namespace Whitelist

/-- The value of a constant. -/
def constant? (w : Whitelist) (name : String) : Option Float := w.constants.lookup name

/-- The function of a name. -/
def function? (w : Whitelist) (name : String) : Option Function :=
  w.functions.find? fun f => f.name == name

/-- Whether a name is a constant or a function. -/
def contains (w : Whitelist) (name : String) : Bool :=
  (w.constant? name).isSome || (w.function? name).isSome

/-- The constants in the order of their names. -/
def sortedConstants (w : Whitelist) : List (String × Float) :=
  w.constants.mergeSort fun a b => a.1 ≤ b.1

/-- The names of the functions, in order. -/
def sortedFunctionNames (w : Whitelist) : List String :=
  (w.functions.map Function.name).mergeSort fun a b => a ≤ b

/-- The names of the calculator. -/
def standard : Whitelist where
  constants :=
    [("pi", Binary64.pi), ("e", Binary64.eulerNumber), ("tau", Binary64.tau),
      ("inf", Binary64.infinity), ("nan", Binary64.nan)]
  functions :=
    Elementary.trigonometric ++ Elementary.exponential ++ Rounding.functions ++
      Special.functions ++ Counting.functions ++ Classification.functions

end Whitelist

end Calculator
