import Calculator.Parsing
import Calculator.Whitelist

/-!
# Evaluation

Only numbers, constants, signs, the six arithmetic operators and direct calls of functions have a
value.  Every other node is refused before anything below it is looked at; the operands of a node
that is not refused are evaluated from left to right, and the first error ends the evaluation.
-/

namespace Calculator

/-- The value of a signed operand. -/
def UnaryOperator.apply (op : UnaryOperator) (x : Value) : Except EvalError Value :=
  match op.value? x with
  | some y => .ok y
  | none => .error (.unsupported (.construct ("unary operator " ++ op.symbol)))

/-- The value of two operands with an operator between them. -/
def BinaryOperator.apply (op : BinaryOperator) (x y : Value) : Except EvalError Value :=
  match op.value? x.float y.float with
  | some z => .ok (.result [x, y] z)
  | none => .error (.unsupported (.construct ("binary operator " ++ op.symbol)))

/-- The first argument that is not positional, as a reason to refuse a call. -/
def refusedArgument? : List Argument → Option Unsupported
  | [] => none
  | .positional _ :: rest => refusedArgument? rest
  | .keyword name _ :: _ => some (.keywordArgument name)
  | .unpacked _ :: _ => some .unpackedArgument

/-- Refuses an expression by its description. -/
def Expr.refuse (e : Expr) : Except EvalError Value :=
  .error (.unsupported (.construct e.describe))

mutual

/-- The value of an expression. -/
def evaluate (w : Whitelist) : Expr → Except EvalError Value
  | .literal (.number x) => .ok (.ofFloat x)
  | .name id =>
    match w.constant? id with
    | some x => .ok (.ofFloat x)
    | none => .error (.undefinedName id)
  | .unary op operand =>
    if op.isSign then do
      let x ← evaluate w operand
      op.apply x
    else (Expr.unary op operand).refuse
  | .binary op left right =>
    if op.isArithmetic then do
      let x ← evaluate w left
      let y ← evaluate w right
      op.apply x y
    else (Expr.binary op left right).refuse
  | .call (.name id) args =>
    match w.function? id with
    | some f => do
      let xs ← evaluateArguments w args
      match refusedArgument? args with
      | some what => .error (.unsupported what)
      | none => (f.apply xs).mapError .call
    | none => .error (.undefinedName id)
  | .call _ _ => .error (.unsupported .indirectCall)
  | e => e.refuse

/-- The values of the positional arguments among some arguments. -/
def evaluateArguments (w : Whitelist) : List Argument → Except EvalError (List Value)
  | [] => .ok []
  | .positional e :: rest => do
    let x ← evaluate w e
    let xs ← evaluateArguments w rest
    return x :: xs
  | _ :: rest => evaluateArguments w rest

end

/-- The value of an expression given as text, with the names of the calculator. -/
def evaluateText (text : String) : Except EvalError Value := do
  evaluate .standard (← parse text)

end Calculator
