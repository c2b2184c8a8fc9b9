import Calculator.Binary64.Basic

/-!
# Values

A value is a float that also knows the sign of a NaN, which a float by itself does not show.  The
sign matters to `copysign` alone.  A minus sign turns it around, `fabs` and `copysign` set it, and
any other operation hands on that of the first NaN among its operands; a NaN that an operation
makes out of numbers has a sign of its own.
-/

namespace Calculator

open Binary64

/-- A float, and for a NaN whether its sign is negative. -/
structure Value where
  float : Float
  negativeNaN : Bool
  isNaN_float : negativeNaN = true → float.isNaN = true

namespace Value

/-- A float that has this sign if it is a NaN. -/
def withNaNSign (negative : Bool) (x : Float) : Value :=
  ⟨x, x.isNaN && negative, fun h => (Bool.and_eq_true_iff.1 h).1⟩

/-- The value of a float, positive if it is a NaN. -/
def ofFloat (x : Float) : Value := ⟨x, false, fun h => nomatch h⟩

/-- The value that a bit pattern stands for, with its sign bit also if it is a NaN. -/
def ofBits (bits : UInt64) : Value := withNaNSign (bits.toNat.testBit 63) (Float.ofBits bits)

/-- The sign of a value; set for `-0.0`, for negative numbers and for a negative NaN. -/
def isNegative (v : Value) : Bool :=
  if v.float.isNaN then v.negativeNaN else signBit v.float

/-! ## Operations on the sign -/

/-- The value with the other sign. -/
def neg (v : Value) : Value := withNaNSign (!v.negativeNaN) (-v.float)

/-- The value with a positive sign. -/
def abs (v : Value) : Value := ofFloat v.float.abs

/-- The magnitude of `v` with the sign of `w`. -/
def copySign (v w : Value) : Value :=
  withNaNSign w.isNegative (withSign w.isNegative v.float)

/-! ## Results of other operations -/

/-- Whether the first NaN among some values is negative, if there is a NaN. -/
def nanSign? (values : List Value) : Option Bool :=
  (values.find? fun v => v.float.isNaN).map negativeNaN

/-- The result `x` of an operation.  The NaN of an invalid operation is negative. -/
def result (operands : List Value) (x : Float) : Value :=
  withNaNSign ((nanSign? operands).getD true) x

/-- The result `x` of a function that is the positive NaN outside of its domain. -/
def restrictedResult (operands : List Value) (x : Float) : Value :=
  withNaNSign ((nanSign? operands).getD false) x

@[simp]
theorem float_ofFloat (x : Float) : (ofFloat x).float = x := rfl

@[simp]
theorem float_result (operands : List Value) (x : Float) : (result operands x).float = x := rfl

/-- The sign handed on is of no account where the result is no NaN. -/
theorem result_eq_ofFloat (operands : List Value) {x : Float} (h : x.isNaN = false) :
    result operands x = ofFloat x := by
  simp only [result, withNaNSign, ofFloat, h, Bool.false_and]

end Value

end Calculator
