import Calculator.Function.Arity
import Calculator.Decimal.Layout
import Calculator.Value

/-!
# Functions

A function has a name and takes a list of values.  Whether it takes them at all is decided in one
way for all functions: first the number of arguments is checked, then the arguments from left to
right, and only then is the function applied.  Most parameters take any value; `integer`, `natural`
and `magnitude` are those that do not.
-/

namespace Calculator

open Binary64

/-- Why a value is outside of the domain of a function. -/
inductive DomainFault where
  | negative
  | argumentTooLarge
  | resultTooLarge
deriving DecidableEq

/-- What is said about a value outside of the domain. -/
def DomainFault.message : DomainFault → String
  | negative => "not defined for negative values"
  | argumentTooLarge => "argument too large"
  | resultTooLarge => "result too large"

/-- Why a call has no value. -/
inductive CallError where
  | arity (function : String) (expected : Arity) (found : Nat)
  | notIntegral (function : String) (value : Float)
  | domain (function : String) (fault : DomainFault)

/-- What is said about a call without a value. -/
def CallError.message : CallError → String
  | arity function expected found =>
    function ++ "() takes " ++ expected.text ++ " (" ++ Arity.countText found ++ " given)"
  | notIntegral function value =>
    function ++ "() only accepts integral values, got " ++ Decimal.resultText value
  | domain function fault => function ++ "() " ++ fault.message

/-- A function of values. -/
structure Function where
  name : String
  apply : List Value → Except CallError Value

namespace Function

/-! ## What parameters demand -/

/-- An integral value, as an integer. -/
def integer (function : String) (x : Float) : Except CallError Int :=
  if isIntegral x then .ok (toInt x) else .error (.notIntegral function x)

/-- An integer from 0 to below `2^64`. -/
def natural (function : String) (x : Float) : Except CallError Nat :=
  if !isIntegral x then .error (.notIntegral function x)
  else if x < 0.0 then .error (.domain function .negative)
  else if 1 <<< 64 ≤ wholePart x then .error (.domain function .argumentTooLarge)
  else .ok (wholePart x)

/-- The magnitude of an integer, if it is below `2^128`. -/
def magnitude (function : String) (x : Float) : Except CallError Nat :=
  if !isIntegral x then .error (.notIntegral function x)
  else if 1 <<< 128 ≤ wholePart x then .error (.domain function .argumentTooLarge)
  else .ok (wholePart x)

/-! ## Functions of a fixed number of arguments -/

/-- The error for a wrong number of arguments. -/
def wrongCount (function : String) (expected : Arity) (args : List Value) :
    Except CallError Value :=
  .error (.arity function expected args.length)

/-- A function of one value. -/
def ofValue (name : String) (f : Value → Value) : Function where
  name := name
  apply
    | [x] => .ok (f x)
    | args => wrongCount name (.exactly 1) args

/-- A function of two values. -/
def ofValues (name : String) (f : Value → Value → Value) : Function where
  name := name
  apply
    | [x, y] => .ok (f x y)
    | args => wrongCount name (.exactly 2) args

/-- A function of one number, that hands on a NaN and is invalid outside of its domain. -/
def ofReal (name : String) (f : Float → Float) : Function :=
  ofValue name fun x => .result [x] (f x.float)

/-- A function of two numbers, that hands on a NaN and is invalid outside of its domain. -/
def ofReals (name : String) (f : Float → Float → Float) : Function :=
  ofValues name fun x y => .result [x, y] (f x.float y.float)

/-- A function of one number, that hands on a NaN and is the positive NaN outside of its
    domain. -/
def ofRealRestricted (name : String) (f : Float → Float) : Function :=
  ofValue name fun x => .restrictedResult [x] (f x.float)

/-- A function of one number whose only NaN is the positive one. -/
def ofRealUnsigned (name : String) (f : Float → Float) : Function :=
  ofValue name fun x => .ofFloat (f x.float)

/-- A function of two numbers whose only NaN is the positive one. -/
def ofRealsUnsigned (name : String) (f : Float → Float → Float) : Function :=
  ofValues name fun x y => .ofFloat (f x.float y.float)

/-- A property of a number, 1 where it holds and 0 elsewhere. -/
def ofProperty (name : String) (p : Float → Bool) : Function :=
  ofReal name fun x => if p x then 1.0 else 0.0

/-- A function of one natural number. -/
def ofNatural (name : String) (f : Nat → Float) : Function where
  name := name
  apply
    | [x] => do
      let n ← natural name x.float
      return .ofFloat (f n)
    | args => wrongCount name (.exactly 1) args

/-- A function of two natural numbers. -/
def ofNaturals (name : String) (f : Nat → Nat → Float) : Function where
  name := name
  apply
    | [x, y] => do
      let n ← natural name x.float
      let k ← natural name y.float
      return .ofFloat (f n k)
    | args => wrongCount name (.exactly 2) args

end Function

end Calculator
