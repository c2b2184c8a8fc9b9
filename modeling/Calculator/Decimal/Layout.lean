import Calculator.Decimal.Shortest

/-!
# The text of a value

A value is written with the fewest digits that read back as it.  A `Layout` says when the digits
stand in their places and when an exponent is used instead, and whether a whole number shows that
it is not an integer.  `scientificText` writes a wanted number of significant digits.
-/

namespace Calculator.Decimal

open Calculator.Binary64

/-- How the digits of a value are laid out. -/
structure Layout where
  /-- Whether digits whose first stands at this power of ten are written positionally. -/
  isPositional : Int → Bool
  /-- Whether a whole number in positional form ends in `.0`. -/
  marksWhole : Bool

/-- Results are positional from `1e-4` to below `1e16`, and whole ones end in `.0`. -/
def Layout.result : Layout := ⟨fun leading => -4 ≤ leading && leading < 16, true⟩

/-- Digits always stand in their places, and a whole number shows no point. -/
def Layout.plain : Layout := ⟨fun _ => true, false⟩

/-- A magnitude in a layout. -/
def Layout.magnitude (l : Layout) (d : Decimal) : List Char :=
  if l.isPositional d.leadingExponent then
    if l.marksWhole && 0 ≤ d.exponent then d.positional ++ ['.', '0'] else d.positional
  else d.scientific

/-- A minus sign for a negative value. -/
def signed (negative : Bool) (text : List Char) : List Char :=
  if negative then '-' :: text else text

/-- A value in a layout; zeros keep their sign, a NaN has none. -/
def Layout.text (l : Layout) (x : Float) : List Char :=
  match datum x with
  | .nan => ['N', 'a', 'N']
  | .infinity negative => signed negative ['i', 'n', 'f']
  | .finite negative m k => signed negative (l.magnitude (if m = 0 then ⟨0, 0⟩ else shortest m k))

/-- A value as the calculator prints it. -/
def resultText (x : Float) : String := String.ofList (Layout.result.text x)

/-- A value without exponent and without a point after a whole number. -/
def plainText (x : Float) : String := String.ofList (Layout.plain.text x)

example : [1e-4, 1e15, 0.1, -0.0].map resultText = ["0.0001", "1000000000000000.0", "0.1", "-0.0"] := by
  decide +kernel

example : [1e-5, 1.5e16, 5e-324].map resultText = ["1e-5", "1.5e16", "5e-324"] := by
  decide +kernel

example : [2.0, 1e21, 1e-7, -0.0].map plainText =
    ["2", "1000000000000000000000", "0.0000001", "-0"] := by
  decide +kernel

/-- A value to `count` significant digits, with an exponent. -/
def scientificText (count : Nat) (x : Float) : String :=
  String.ofList <| match datum x with
  | .nan => ['N', 'a', 'N']
  | .infinity negative => signed negative ['i', 'n', 'f']
  | .finite negative m k =>
    if m = 0 then
      let zeros := List.replicate (count - 1) '0'
      let mantissa := if zeros.isEmpty then ['0'] else '0' :: '.' :: zeros
      signed negative (mantissa ++ ['e', '0'])
    else signed negative (rounded count m k).scientific

example : [0.125, 9.995, -0.0].map (scientificText 3) = ["1.25e-1", "9.99e0", "-0.00e0"] := by
  decide +kernel

end Calculator.Decimal
