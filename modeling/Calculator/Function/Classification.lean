import Calculator.Function.Basic

/-!
# Properties of values
-/

namespace Calculator.Classification

/-- By how much of their size two close values may differ. -/
def relativeTolerance : Float := 1e-9

/-- By how much two close values may differ whatever their size. -/
def absoluteTolerance : Float := 0.0

/-- Whether two values are equal or differ by little for the size of one of them.  An infinity is
    close to itself only. -/
def areClose (x y : Float) : Bool :=
  if x == y then true
  else if x.isInf || y.isInf then false
  else
    let difference := (y - x).abs
    difference ≤ (relativeTolerance * y).abs || difference ≤ (relativeTolerance * x).abs ||
      difference ≤ absoluteTolerance

/-- `isclose(x, y)` -/
def iscloseFunction : Function :=
  .ofReals "isclose" fun x y => if areClose x y then 1.0 else 0.0

/-- The functions that say 1 or 0. -/
def functions : List Function :=
  [.ofProperty "isfinite" Float.isFinite, .ofProperty "isinf" Float.isInf,
    .ofProperty "isnan" Float.isNaN, iscloseFunction]

end Calculator.Classification
