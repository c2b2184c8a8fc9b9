import Calculator.Binary64.Basic
import Calculator.Decimal.Basic

/-!
# Reading numerals

A numeral is an integer in base 16, 8 or 2 behind `0x`, `0o` or `0b`, or a decimal with an
optional fraction and an optional exponent.  Letters may have either case, and underscores between
digits are left out.  A decimal is read as the binary64 value nearest to it; a numeral in another
base is accumulated digit by digit.
-/

namespace Calculator.Numeral

open Calculator.Binary64

/-- The number that a digit up to `f` stands for. -/
def digitValue? (c : Char) : Option Nat :=
  if '0' ≤ c ∧ c ≤ '9' then some (c.toNat - '0'.toNat)
  else if 'a' ≤ c ∧ c ≤ 'f' then some (c.toNat - 'a'.toNat + 10)
  else none

/-- The natural number that decimal digits stand for. -/
def ofDigits (ds : List Char) : Nat :=
  ds.foldl (fun n c => 10 * n + (c.toNat - '0'.toNat)) 0

/-- The value of digits in base `radix`, accumulated from the left in binary64. -/
def inRadix (radix : Nat) (ds : List Char) : Float :=
  (ds.filterMap digitValue?).foldl (fun x d => x * Float.ofNat radix + Float.ofNat d) 0.0

/-- The binary64 value nearest to `n · 10^k`.  A number of at least `10^310` is past the largest
    value and one below `10^(-330)` nearer to zero than to the smallest, whatever its digits. -/
def nearest (n : Nat) (k : Int) : Float :=
  if n = 0 then 0.0
  else
    let above := k + (digits n).length
    if 310 < above then infinity
    else if above < -330 then 0.0
    else Float.ofScientific n (k < 0) k.natAbs

/-- Digits with an optional sign in front, as they stand in an exponent. -/
def signedDigits? (cs : List Char) : Option Int :=
  let magnitude? := fun (ds : List Char) =>
    if ds.isEmpty || !ds.all Char.isDigit then none else some (ofDigits ds : Int)
  match cs with
  | '+' :: ds => magnitude? ds
  | '-' :: ds => (magnitude? ds).map (- ·)
  | ds => magnitude? ds

/-- The value of `digits . digits e exponent`, in which the point and the exponent may be missing
    and one of the groups of digits around the point may be empty. -/
def decimal? (cs : List Char) : Option Float :=
  let whole := cs.takeWhile Char.isDigit
  let afterWhole := cs.dropWhile Char.isDigit
  let (fraction, rest) := match afterWhole with
    | '.' :: ds => (ds.takeWhile Char.isDigit, ds.dropWhile Char.isDigit)
    | ds => ([], ds)
  if whole.isEmpty && fraction.isEmpty then none
  else
    let scaled := fun (k : Int) => nearest (ofDigits (whole ++ fraction)) (k - fraction.length)
    match rest with
    | [] => some (scaled 0)
    | 'e' :: ds => (signedDigits? ds).map scaled
    | _ => none

/-- The value of a numeral; a NaN for a text that is none. -/
def value (text : List Char) : Float :=
  match (text.filter (· ≠ '_')).map Char.toLower with
  | '0' :: 'x' :: ds => inRadix 16 ds
  | '0' :: 'o' :: ds => inRadix 8 ds
  | '0' :: 'b' :: ds => inRadix 2 ds
  | cs => (decimal? cs).getD nan

end Calculator.Numeral
