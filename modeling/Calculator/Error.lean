import Calculator.Function.Basic
import Calculator.Grammar.Expected
import Calculator.Text.Position

/-!
# Errors

Why a text or a tree has no value, and what is said about it.
-/

namespace Calculator

/-- Why a text is no expression. -/
inductive SyntaxFault where
  /-- It goes on with something that none of these rules begins with. -/
  | expected (rules : List Grammar.Rule)
  /-- Clauses follow an argument that is not positional. -/
  | generatorArgument
  /-- Only some items of a pair of braces have a value. -/
  | mixedBraces
  /-- Its tree is not one of the grammar. -/
  | misshapen

/-- What is said about a text that is no expression. -/
def SyntaxFault.message : SyntaxFault → String
  | expected rules => Grammar.expectedText rules
  | generatorArgument => "malformed generator argument"
  | mixedBraces => "malformed braced display"
  | misshapen => "malformed expression"

/-- What an expression holds that is not arithmetic. -/
inductive Unsupported where
  /-- A construct, by its description. -/
  | construct (description : String)
  /-- A call of something else than a name. -/
  | indirectCall
  | keywordArgument (name : String)
  | unpackedArgument

/-- How a construct that is not arithmetic is named. -/
def Unsupported.message : Unsupported → String
  | construct description => description
  | indirectCall => "only direct function names allowed"
  | keywordArgument name => "keyword arguments not supported (" ++ name ++ "=...)"
  | unpackedArgument => "keyword arguments not supported (**...)"

/-- Why there is no value. -/
inductive EvalError where
  | invalidSyntax (place : Text.Position) (fault : SyntaxFault)
  | unsupported (what : Unsupported)
  | undefinedName (name : String)
  | call (error : CallError)

/-- What is said about a missing value. -/
def EvalError.message : EvalError → String
  | invalidSyntax place fault =>
    "invalid syntax at line " ++ Arity.countText place.line ++ ", column " ++
      Arity.countText place.column ++ ": " ++ fault.message
  | unsupported what => "unsupported syntax: " ++ what.message
  | undefinedName name => "name '" ++ name ++ "' is not defined"
  | call error => error.message

end Calculator
