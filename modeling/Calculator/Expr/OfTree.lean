import Calculator.Grammar.Tree
import Calculator.Expr.Basic
import Calculator.Decimal.Numeral

/-!
# From trees to expressions

Each node of a tree has a meaning that is put together from the meanings of its parts, from left
to right and from the inside out.  Two constructs that the grammar admits have none: clauses behind
an argument that is not positional, and braces in which only some items have a value.
-/

namespace Calculator

open Grammar (Rule Tree)

/-- Why a tree is no expression, and where the construct that is to blame begins. -/
inductive Malformed where
  /-- An argument with a name, or an unpacked mapping, with clauses behind it. -/
  | generatorArgument (offset : Nat)
  /-- Braces that mix items with a value and items without one. -/
  | mixedBraces (offset : Nat)
  /-- A node whose parts are not those of its rule. -/
  | misshapen (offset : Nat)

/-- The meaning of a part of a tree. -/
inductive Meaning where
  /-- A word, or the spelling of an operator. -/
  | text (cs : List Char)
  | name (id : String)
  | names (ids : List String)
  | separator
  | comparison (op : ComparisonOperator)
  | expr (e : Expr)
  /-- An argument that is not positional. -/
  | argument (a : Argument)
  /-- An item of braces, with the value that stands behind its colon. -/
  | entry (key : Expr) (value? : Option Expr)
  | clause (c : Clause)
  | condition (e : Expr)
  | upperBound (e : Expr)
  | stepBound (e : Expr)
  | bounds (upper? step? : Option Expr)
  /-- The argument list behind a callee. -/
  | callWith (args : List Argument)
  /-- The name behind the point. -/
  | memberOf (id : String)
  /-- The index behind a base. -/
  | indexedBy (index : Expr)

namespace Meaning

/-! ## Operands and operators -/

/-- The operand that a meaning is. -/
def operand? : Meaning → Option Expr
  | expr e => some e
  | name id => some (.name id)
  | _ => none

/-- Joins a first operand with the operators and operands behind it, from the left. -/
def joinLeft? (join? : Expr → Meaning → Expr → Option Expr) :
    Expr → List Meaning → Option Expr
  | left, [] => some left
  | left, op :: expr right :: rest =>
    (join? left op right).bind fun joined => joinLeft? join? joined rest
  | _, _ => none

/-- A chain of operands with signs between them. -/
def chain? (join? : Expr → Meaning → Expr → Option Expr) : List Meaning → Option Expr
  | expr first :: rest => joinLeft? join? first rest
  | _ => none

/-- Two operands around the sign of a binary operator. -/
def joinBinary? : Expr → Meaning → Expr → Option Expr
  | left, text cs, right =>
    (BinaryOperator.ofSymbol? (String.ofList cs)).map fun op => .binary op left right
  | _, _, _ => none

/-- Two operands around a comparison sign. -/
def joinComparison? : Expr → Meaning → Expr → Option Expr
  | left, comparison op, right => some (.compare op left right)
  | _, _, _ => none

/-- Two operands around the word of a logical operator. -/
def joinLogical? (op : LogicalOperator) : Expr → Meaning → Expr → Option Expr
  | left, text _, right => some (.logical op left right)
  | _, _, _ => none

/-- An operand with one more thing behind it. -/
def follow? : Expr → Meaning → Option Expr
  | callee, callWith args => some (.call callee args)
  | base, memberOf id => some (.member base id)
  | base, indexedBy index => some (.subscript base index)
  | _, _ => none

/-- An operand with all that follows it, from the left. -/
def followAll? : Expr → List Meaning → Option Expr
  | e, [] => some e
  | e, trailer :: rest => (follow? e trailer).bind fun followed => followAll? followed rest

/-! ## Parts of one kind -/

/-- The words of an operator. -/
def words? : List Meaning → Option (List String)
  | [] => some []
  | text cs :: rest => (words? rest).map (String.ofList cs :: ·)
  | _ => none

/-- A list of names. -/
def ids? : List Meaning → Option (List String)
  | [] => some []
  | name id :: rest => (ids? rest).map (id :: ·)
  | _ => none

/-- The items among the parts of a bracket. -/
def items? : List Meaning → Option (List Expr)
  | [] => some []
  | separator :: rest => items? rest
  | expr e :: rest => (items? rest).map (e :: ·)
  | _ => none

/-- The arguments of a call. -/
def arguments? : List Meaning → Option (List Argument)
  | [] => some []
  | argument a :: rest => (arguments? rest).map (a :: ·)
  | expr e :: rest => (arguments? rest).map (.positional e :: ·)
  | _ => none

/-- The items of braces. -/
def entries? : List Meaning → Option (List (Expr × Option Expr))
  | [] => some []
  | entry key value? :: rest => (entries? rest).map ((key, value?) :: ·)
  | _ => none

/-- The clauses of a comprehension; there is at least one. -/
def clauses? : List Meaning → Option (List Clause)
  | [clause c] => some [c]
  | clause c :: rest => (clauses? rest).map (c :: ·)
  | _ => none

/-- The conditions of a clause. -/
def conditions? : List Meaning → Option (List Expr)
  | [] => some []
  | condition e :: rest => (conditions? rest).map (e :: ·)
  | _ => none

/-! ## Brackets -/

/-- One item without a separator stands for itself; any other number of items is a tuple. -/
def group? : List Meaning → Option Expr
  | [expr e] => some e
  | parts => (items? parts).map .tuple

/-- An item with clauses behind it is a comprehension; other parts are `plain?`. -/
def display? (kind : ComprehensionKind) (plain? : List Meaning → Option Expr) :
    List Meaning → Option Expr
  | expr element :: rest =>
    match clauses? rest with
    | some cs => some (.comprehension kind element none cs)
    | none => plain? (expr element :: rest)
  | parts => plain? parts

/-- Braces without clauses are a dict if every item has a value, also if there is no item, and a
    set if no item has one. -/
def plainBraces (offset : Nat) (items : List (Expr × Option Expr)) : Except Malformed Expr :=
  if items.all (·.2.isSome) then
    .ok (.dict (items.filterMap fun (key, value?) => value?.map (key, ·)))
  else if items.all (·.2.isNone) then .ok (.set (items.map (·.1)))
  else .error (.mixedBraces offset)

/-- A comprehension in braces builds a dict if its item has a value. -/
def bracesKind : Option Expr → ComprehensionKind
  | some _ => .dict
  | none => .set

/-- What stands in braces. -/
def ofBraces (offset : Nat) (parts : List Meaning) : Except Malformed Expr :=
  let plain := match entries? parts with
    | some items => plainBraces offset items
    | none => .error (.misshapen offset)
  match parts with
  | entry key value? :: rest =>
    match clauses? rest with
    | some cs => .ok (.comprehension (bracesKind value?) key value? cs)
    | none => plain
  | _ => plain

/-- The arguments of a call; one positional argument may have clauses behind it. -/
def ofArguments (offset : Nat) (parts : List Meaning) : Except Malformed (List Argument) :=
  let plain := match arguments? parts with
    | some args => .ok args
    | none => .error (.misshapen offset)
  match parts with
  | first :: rest =>
    match clauses? rest, first with
    | some cs, expr element => .ok [.positional (.comprehension .generator element none cs)]
    | some _, argument _ => .error (.generatorArgument offset)
    | _, _ => plain
  | [] => plain

/-! ## Other nodes -/

/-- An item of a subscript: an index, or a slice with or without a lower bound. -/
def index? : List Meaning → Option Expr
  | [expr e] => some e
  | [expr lower, bounds upper? step?] => some (.slice (some lower) upper? step?)
  | [bounds upper? step?] => some (.slice none upper? step?)
  | _ => none

/-- The bounds of a slice behind its first colon. -/
def bounds? : List Meaning → Option Meaning
  | [] => some (bounds none none)
  | [upperBound u] => some (bounds (some u) none)
  | [stepBound s] => some (bounds none (some s))
  | [upperBound u, stepBound s] => some (bounds (some u) (some s))
  | _ => none

/-- The meaning of a node of a rule, unless it is one of those that can be malformed. -/
def ofParts? : Rule → List Meaning → Option Meaning
  | .trueWord, [text _] => some (expr (.literal (.boolean true)))
  | .falseWord, [text _] => some (expr (.literal (.boolean false)))
  | .noneWord, [text _] => some (expr (.literal .nothing))
  | .identifier, [text cs] => some (name (String.ofList cs))
  | .number, [text cs] => some (expr (.literal (.number (Numeral.value cs))))
  | .imaginary, [text cs] => some (expr (.literal (.imaginary (Numeral.value cs.dropLast))))
  | .string, [text cs] => some (expr (.literal (.string (String.ofList cs.tail.dropLast))))
  | .comparisonSign, parts =>
    (words? parts).bind fun ws =>
      (ComparisonOperator.ofSymbol? (String.intercalate " " ws)).map comparison
  | .comma, [text _] => some separator
  | .expression, [expr e] => some (expr e)
  | .lambda, [text _, names ids, expr body] => some (expr (.lambda ids body))
  | .lambda, [text _, expr body] => some (expr (.lambda [] body))
  | .parameters, parts => (ids? parts).map names
  | .conditional, [expr e] => some (expr e)
  | .conditional, [expr body, text _, expr test, text _, expr orElse] =>
    some (expr (.conditional test body orElse))
  | .disjunction, parts => (chain? (joinLogical? .or) parts).map expr
  | .conjunction, parts => (chain? (joinLogical? .and) parts).map expr
  | .negation, [text _, expr e] => some (expr (.not e))
  | .negation, [expr e] => some (expr e)
  | .comparison, parts => (chain? joinComparison? parts).map expr
  | .bitOr, parts | .bitXor, parts | .bitAnd, parts | .shift, parts | .sum, parts
  | .product, parts => (chain? joinBinary? parts).map expr
  | .factor, [text cs, expr e] =>
    (UnaryOperator.ofSymbol? (String.ofList cs)).map fun op => expr (.unary op e)
  | .factor, [expr e] => some (expr e)
  | .power, [expr e] => some (expr e)
  | .power, [expr base, text _, expr exponent] => some (expr (.binary .power base exponent))
  | .primary, first :: rest =>
    (operand? first).bind fun e => (followAll? e rest).map expr
  | .keywordArgument, [name id, expr e] => some (argument (.keyword id e))
  | .keywordUnpacking, [text _, expr e] => some (argument (.unpacked e))
  | .member, [name id] => some (memberOf id)
  | .subscript, parts => (group? parts).map indexedBy
  | .indexItem, parts => (index? parts).map expr
  | .sliceBounds, parts => bounds? parts
  | .sliceUpper, [expr e] => some (upperBound e)
  | .sliceStep, [expr e] => some (stepBound e)
  | .parenthesized, parts => (display? .generator group? parts).map expr
  | .list, parts => (display? .list (fun ps => (items? ps).map .list) parts).map expr
  | .braceItem, [expr key] => some (entry key none)
  | .braceItem, [expr key, expr value] => some (entry key (some value))
  | .starred, [text _, expr e] => some (expr (.starred e))
  | .assignment, [name id, expr e] => some (expr (.assignment id e))
  | .clause, text _ :: names ids :: text _ :: expr iterable :: rest =>
    (conditions? rest).map fun cs => clause (.mk ids iterable cs)
  | .targets, parts => (ids? parts).map names
  | .condition, [text _, expr e] => some (condition e)
  | .endOfText, [] => some separator
  | .lambdaWord, [text cs] | .ifWord, [text cs] | .elseWord, [text cs] | .forWord, [text cs]
  | .orWord, [text cs] | .andWord, [text cs] | .notWord, [text cs] | .inWord, [text cs]
  | .isWord, [text cs] | .bitOrSign, [text cs] | .bitXorSign, [text cs]
  | .bitAndSign, [text cs] | .shiftSign, [text cs] | .sumSign, [text cs]
  | .productSign, [text cs] | .unarySign, [text cs] | .powerSign, [text cs] => some (text cs)
  | _, _ => none

/-- The meaning of a node of a rule that begins at `offset`. -/
def ofParts (r : Rule) (offset : Nat) (parts : List Meaning) : Except Malformed Meaning :=
  match r with
  | .arguments => (ofArguments offset parts).map callWith
  | .braces => (ofBraces offset parts).map expr
  | r =>
    match ofParts? r parts with
    | some m => .ok m
    | none => .error (.misshapen offset)

mutual

/-- The meaning of a tree. -/
def ofTree : Tree → Except Malformed Meaning
  | .leaf cs => .ok (text cs)
  | .node r offset parts => do
    let meanings ← ofTrees parts
    ofParts r offset meanings

/-- The meanings of some trees, up to the first that has none. -/
def ofTrees : List Tree → Except Malformed (List Meaning)
  | [] => .ok []
  | t :: ts => do
    let m ← ofTree t
    let ms ← ofTrees ts
    return m :: ms

end

end Meaning

/-- The expression that a tree stands for. -/
def Expr.ofTree (t : Tree) : Except Malformed Expr :=
  match Meaning.ofTree t with
  | .ok (.expr e) => .ok e
  | .ok _ => .error (.misshapen 0)
  | .error m => .error m

end Calculator
