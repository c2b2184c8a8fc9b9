import Calculator.Expr.Operator
import Calculator.Decimal.Layout
import Calculator.Text.Quoted

/-!
# Expressions

The tree of an expression.  The language is larger than what can be evaluated, so that a text
outside of arithmetic can be refused by name: `describe` says in a few words what the root of a
tree is.
-/

namespace Calculator

/-- Values that are written out. -/
inductive Literal where
  | number (value : Float)
  /-- The text between the quotes, as it stands there. -/
  | string (text : String)
  | boolean (value : Bool)
  | nothing
  | imaginary (value : Float)

/-- What a comprehension builds. -/
inductive ComprehensionKind where
  | list | set | dict | generator
deriving DecidableEq

mutual

/-- An expression. -/
inductive Expr where
  | literal (value : Literal)
  | name (id : String)
  | unary (op : UnaryOperator) (operand : Expr)
  | binary (op : BinaryOperator) (left right : Expr)
  | call (callee : Expr) (args : List Argument)
  | member (base : Expr) (name : String)
  | subscript (base index : Expr)
  | tuple (items : List Expr)
  | list (items : List Expr)
  | set (items : List Expr)
  | dict (entries : List (Expr × Expr))
  | lambda (params : List String) (body : Expr)
  /-- The value of `body` if `test` holds, otherwise that of `orElse`. -/
  | conditional (test body orElse : Expr)
  | compare (op : ComparisonOperator) (left right : Expr)
  | logical (op : LogicalOperator) (left right : Expr)
  | not (operand : Expr)
  /-- A dict comprehension has a `value` beside its `element`, which is the key. -/
  | comprehension (kind : ComprehensionKind) (element : Expr) (value : Option Expr)
      (clauses : List Clause)
  | slice (lower upper step : Option Expr)
  | assignment (target : String) (value : Expr)
  | starred (value : Expr)

/-- An argument of a call. -/
inductive Argument where
  | positional (value : Expr)
  | keyword (name : String) (value : Expr)
  /-- All entries of a mapping as keyword arguments. -/
  | unpacked (mapping : Expr)

/-- One `for` of a comprehension with the conditions that follow it. -/
inductive Clause where
  | mk (targets : List String) (iterable : Expr) (conditions : List Expr)

end

/-- A call of a function by its name, with positional arguments. -/
def Expr.callByName (function : String) (args : List Expr) : Expr :=
  .call (.name function) (args.map .positional)

/-! ## Descriptions -/

/-- What a comprehension is called. -/
def ComprehensionKind.describe : ComprehensionKind → String
  | list => "list comprehension"
  | set => "set comprehension"
  | dict => "dict comprehension"
  | generator => "generator expression"

/-- What a literal is, with its value. -/
def Literal.describe : Literal → String
  | number x => "number " ++ Decimal.resultText x
  | string s => "string literal " ++ Text.quoted s
  | boolean true => "boolean literal True"
  | boolean false => "boolean literal False"
  | nothing => "None literal"
  | imaginary x => "imaginary literal " ++ Decimal.plainText x ++ "j"

/-- What stands at the root of an expression. -/
def Expr.describe : Expr → String
  | literal l => l.describe
  | name id => "name '" ++ id ++ "'"
  | unary op _ => "unary operator " ++ op.symbol
  | binary op _ _ => "binary operator " ++ op.symbol
  | call callee _ => "call to " ++ callee.describe
  | member _ accessed => "attribute access ." ++ accessed
  | subscript _ _ => "subscript"
  | tuple _ => "tuple display"
  | list _ => "list display"
  | set _ => "set display"
  | dict _ => "dict display"
  | lambda _ _ => "lambda expression"
  | conditional _ _ _ => "conditional expression"
  | compare op _ _ => "comparison operator " ++ op.symbol
  | logical op _ _ => "boolean operator " ++ op.symbol
  | not _ => "boolean operator not"
  | comprehension kind _ _ _ => kind.describe
  | slice _ _ _ => "slice"
  | assignment _ _ => "assignment expression"
  | starred _ => "starred expression"

end Calculator
