import Calculator.Grammar.Rule

/-!
# What was expected

The message about a text that is no expression: the rules that failed furthest, each once and in
the order of the grammar, under names that a reader of expressions knows.
-/

namespace Calculator.Grammar

/-- The name under which a message lists a rule. -/
def Rule.label : Rule → String
  | endOfText => "end of input"
  | expression | lambda | conditional | disjunction | conjunction | negation | comparison
  | bitOr | bitXor | bitAnd | shift | sum | product | factor | power | primary => "expression"
  | number | imaginary => "number"
  | string => "string"
  | identifier | parameters => "identifier"
  | comparisonSign | bitOrSign | bitXorSign | bitAndSign | shiftSign | sumSign | productSign
  | powerSign => "operator"
  | unarySign => "unary operator"
  | arguments => "argument list"
  | keywordArgument | keywordUnpacking => "keyword argument"
  | starred => "starred expression"
  | assignment => "assignment expression"
  | member => "attribute"
  | subscript | indexItem | sliceBounds | sliceUpper | sliceStep => "subscript"
  | parenthesized => "parenthesized expression"
  | list => "list"
  | braces | braceItem => "braced display"
  | clause | targets | condition => "comprehension"
  | comma => "','"
  | forWord => "'for'"
  | ifWord => "'if'"
  | elseWord => "'else'"
  | orWord => "'or'"
  | andWord => "'and'"
  | notWord => "'not'"
  | lambdaWord | inWord | isWord | trueWord | falseWord | noneWord => "token"

/-- All rules, in order. -/
def Rule.all : List Rule :=
  [.endOfText,
    .lambdaWord, .ifWord, .elseWord, .forWord, .orWord, .andWord, .notWord, .inWord, .isWord,
    .trueWord, .falseWord, .noneWord,
    .identifier, .number, .imaginary, .string,
    .comparisonSign, .bitOrSign, .bitXorSign, .bitAndSign, .shiftSign, .sumSign, .productSign,
    .unarySign, .powerSign, .comma,
    .expression, .lambda, .parameters, .conditional, .disjunction, .conjunction, .negation,
    .comparison, .bitOr, .bitXor, .bitAnd, .shift, .sum, .product, .factor, .power, .primary,
    .arguments, .keywordArgument, .keywordUnpacking, .member,
    .subscript, .indexItem, .sliceBounds, .sliceUpper, .sliceStep,
    .parenthesized, .list, .braces, .braceItem, .starred, .assignment,
    .clause, .targets, .condition]

theorem Rule.mem_all (r : Rule) : r ∈ Rule.all := by
  cases r <;> decide

/-- Each of some rules once, in order. -/
def Rule.distinct (rules : List Rule) : List Rule :=
  Rule.all.filter fun r => decide (r ∈ rules)

theorem Rule.mem_distinct {r : Rule} {rules : List Rule} : r ∈ Rule.distinct rules ↔ r ∈ rules := by
  simp [Rule.distinct, Rule.mem_all]

/-- The names of alternatives as a phrase: `a`, `a or b`, `a, b, or c`. -/
def alternatives : List String → String
  | [] => ""
  | [a] => a
  | [a, b] => a ++ " or " ++ b
  | names => String.intercalate ", " names.dropLast ++ ", or " ++ names.getLastD ""

/-- What a message says about the rules that failed furthest. -/
def expectedText (rules : List Rule) : String :=
  match Rule.distinct rules with
  | [] => "unknown parsing error"
  | rules => "expected " ++ alternatives (rules.map Rule.label)

end Calculator.Grammar
