import Calculator.Binary64.Remainder
import Calculator.Value
import Calculator.Text.Blank

/-!
# Operators

The signs of the expression language and what they stand for.  Each operator is written as one
symbol and read back from it.
-/

namespace Calculator

/-- Signs in front of one operand. -/
inductive UnaryOperator where
  | negate | identity | invert
deriving DecidableEq

namespace UnaryOperator

/-- How an operator is written. -/
def symbol : UnaryOperator → String
  | negate => "-"
  | identity => "+"
  | invert => "~"

/-- The operator that is written in this way. -/
def ofSymbol? : String → Option UnaryOperator
  | "-" => some negate
  | "+" => some identity
  | "~" => some invert
  | _ => none

/-- What is said about a text that is no operator of this kind. -/
def unknownText (text : String) : String := "Unknown unary operator: " ++ text

/-- Whether the operator is one of the two signs of a number. -/
def isSign : UnaryOperator → Bool
  | negate | identity => true
  | invert => false

/-- The value of a signed number; an inverted one has none. -/
def value? : UnaryOperator → Value → Option Value
  | negate, x => some x.neg
  | identity, x => some x
  | invert, _ => none

theorem ofSymbol?_symbol (op : UnaryOperator) : ofSymbol? op.symbol = some op := by
  cases op <;> rfl

theorem isSome_value? (op : UnaryOperator) (x : Value) : (op.value? x).isSome = op.isSign := by
  cases op <;> rfl

end UnaryOperator

/-- Operators between two operands that compute a value. -/
inductive BinaryOperator where
  | add | subtract | multiply | divide | modulo | power
  | floorDivide | matrixMultiply | bitAnd | bitOr | bitXor | leftShift | rightShift
deriving DecidableEq

namespace BinaryOperator

/-- How an operator is written. -/
def symbol : BinaryOperator → String
  | add => "+"
  | subtract => "-"
  | multiply => "*"
  | divide => "/"
  | modulo => "%"
  | power => "**"
  | floorDivide => "//"
  | matrixMultiply => "@"
  | bitAnd => "&"
  | bitOr => "|"
  | bitXor => "^"
  | leftShift => "<<"
  | rightShift => ">>"

/-- The operator that is written in this way. -/
def ofSymbol? : String → Option BinaryOperator
  | "+" => some add
  | "-" => some subtract
  | "*" => some multiply
  | "/" => some divide
  | "%" => some modulo
  | "**" => some power
  | "//" => some floorDivide
  | "@" => some matrixMultiply
  | "&" => some bitAnd
  | "|" => some bitOr
  | "^" => some bitXor
  | "<<" => some leftShift
  | ">>" => some rightShift
  | _ => none

/-- What is said about a text that is no operator of this kind. -/
def unknownText (text : String) : String := "Unknown operator: " ++ text

/-- Whether the operator is one of the six that numbers have. -/
def isArithmetic : BinaryOperator → Bool
  | add | subtract | multiply | divide | modulo | power => true
  | _ => false

/-- The value of an arithmetic operator: dividing by zero gives an infinity or a NaN, `%` keeps the
    sign of the left operand, and a power that is no real number is a NaN. -/
def value? : BinaryOperator → Float → Float → Option Float
  | add, x, y => some (x + y)
  | subtract, x, y => some (x - y)
  | multiply, x, y => some (x * y)
  | divide, x, y => some (x / y)
  | modulo, x, y => some (Binary64.fmod x y)
  | power, x, y => some (x.pow y)
  | _, _, _ => none

theorem ofSymbol?_symbol (op : BinaryOperator) : ofSymbol? op.symbol = some op := by
  cases op <;> rfl

theorem isSome_value? (op : BinaryOperator) (x y : Float) :
    (op.value? x y).isSome = op.isArithmetic := by
  cases op <;> rfl

end BinaryOperator

/-- Operators that compare two operands. -/
inductive ComparisonOperator where
  | equal | notEqual | lessThan | lessThanOrEqual | greaterThan | greaterThanOrEqual
  | isIn | isNotIn | is | isNot
deriving DecidableEq

namespace ComparisonOperator

/-- How an operator is written. -/
def symbol : ComparisonOperator → String
  | equal => "=="
  | notEqual => "!="
  | lessThan => "<"
  | lessThanOrEqual => "<="
  | greaterThan => ">"
  | greaterThanOrEqual => ">="
  | isIn => "in"
  | isNotIn => "not in"
  | is => "is"
  | isNot => "is not"

/-- The operator that is written in this way, with one space in an operator of two words. -/
def ofSymbol? : String → Option ComparisonOperator
  | "==" => some equal
  | "!=" => some notEqual
  | "<" => some lessThan
  | "<=" => some lessThanOrEqual
  | ">" => some greaterThan
  | ">=" => some greaterThanOrEqual
  | "in" => some isIn
  | "not in" => some isNotIn
  | "is" => some is
  | "is not" => some isNot
  | _ => none

/-- The operator that a text spells, whatever white space stands around and between its words. -/
def ofText? (text : String) : Option ComparisonOperator := ofSymbol? (Text.unspaced text)

/-- What is said about a text that is no operator of this kind. -/
def unknownText (text : String) : String := "Unknown comparison operator: " ++ text

theorem ofSymbol?_symbol (op : ComparisonOperator) : ofSymbol? op.symbol = some op := by
  cases op <;> rfl

end ComparisonOperator

/-- Operators that join two conditions. -/
inductive LogicalOperator where
  | and | or
deriving DecidableEq

namespace LogicalOperator

/-- How an operator is written. -/
def symbol : LogicalOperator → String
  | and => "and"
  | or => "or"

/-- The operator that is written in this way. -/
def ofSymbol? : String → Option LogicalOperator
  | "and" => some and
  | "or" => some or
  | _ => none

theorem ofSymbol?_symbol (op : LogicalOperator) : ofSymbol? op.symbol = some op := by
  cases op <;> rfl

end LogicalOperator

end Calculator
