import Calculator.Error
import Calculator.Grammar.Recognizer
import Calculator.Expr.OfTree

/-!
# Parsing

The expression that a text is, or where and why it is none.
-/

namespace Calculator

/-- The fault of a tree without a meaning, and where it begins. -/
def Malformed.fault : Malformed → Nat × SyntaxFault
  | generatorArgument offset => (offset, .generatorArgument)
  | mixedBraces offset => (offset, .mixedBraces)
  | misshapen offset => (offset, .misshapen)

/-- The expression that a text is. -/
def parse (text : String) : Except EvalError Expr :=
  let cs := text.toList
  match Grammar.recognize cs with
  | .error f => .error (.invalidSyntax (Text.position cs f.offset) (.expected f.failed))
  | .ok tree =>
    match Expr.ofTree tree with
    | .ok e => .ok e
    | .error m => .error (.invalidSyntax (Text.position cs m.fault.1) m.fault.2)

end Calculator
