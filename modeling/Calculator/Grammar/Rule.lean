import Calculator.Grammar.Lexeme

/-!
# The grammar

An expression is described by rules, and a rule's body by a `Phrase`: alternatives are tried in
order and the first that fits is taken, repetitions take as much as they can.  White space may
stand between any two lexemes, marks or operators.

Most levels of precedence are one rule each, from the loosest (`lambda`, `conditional`) to the
tightest (`primary`); each is a chain of the next one.
-/

namespace Calculator.Grammar

/-- The rules, in the order in which a message lists what was expected. -/
inductive Rule where
  | endOfText
  -- words
  | lambdaWord | ifWord | elseWord | forWord | orWord | andWord | notWord | inWord | isWord
  | trueWord | falseWord | noneWord
  -- other lexemes
  | identifier | number | imaginary | string
  -- operators
  | comparisonSign | bitOrSign | bitXorSign | bitAndSign | shiftSign | sumSign | productSign
  | unarySign | powerSign | comma
  -- levels of precedence
  | expression | lambda | parameters | conditional | disjunction | conjunction | negation
  | comparison | bitOr | bitXor | bitAnd | shift | sum | product | factor | power | primary
  -- what follows an operand
  | arguments | keywordArgument | keywordUnpacking | member
  | subscript | indexItem | sliceBounds | sliceUpper | sliceStep
  -- brackets and what stands in them
  | parenthesized | list | braces | braceItem | starred | assignment
  | clause | targets | condition
deriving DecidableEq

/-- What the body of a rule is made of. -/
inductive Phrase where
  /-- Nothing at all; always fits. -/
  | nothing
  /-- The end of the text. -/
  | atEnd
  /-- A lexeme, kept as a leaf of the tree. -/
  | lexeme (l : Lexeme)
  /-- A punctuation mark, not kept. -/
  | mark (spelling : String)
  /-- The first of some spellings that fits, kept as a leaf. -/
  | sign (spellings : List String)
  /-- Fits if the mark does not come next, and takes nothing. -/
  | notNext (spelling : String)
  /-- What a rule describes, kept as a node. -/
  | rule (r : Rule)
  | seq (first second : Phrase)
  | either (first second : Phrase)
  /-- As many in a row as there are. -/
  | many (p : Phrase)

namespace Phrase

/-- One phrase after another. -/
def inOrder : List Phrase → Phrase
  | [] => nothing
  | [p] => p
  | p :: ps => seq p (inOrder ps)

/-- The first phrase that fits, out of at least one. -/
def firstOf (p : Phrase) : List Phrase → Phrase
  | [] => p
  | q :: qs => either p (firstOf q qs)

/-- A phrase or nothing. -/
def optional (p : Phrase) : Phrase := either p nothing

/-- At least one in a row. -/
def repeated (p : Phrase) : Phrase := seq p (many p)

/-- A phrase and any number of further ones, each behind a separator. -/
def separated (p separator : Phrase) : Phrase := seq p (many (seq separator p))

end Phrase

open Phrase

/-- Operands of the next level with signs between them. -/
def chain (operand sign : Rule) : Phrase := separated (.rule operand) (.rule sign)

/-- `*x`, `name := x` or a plain expression. -/
def item : Phrase := firstOf (.rule .starred) [.rule .assignment, .rule .expression]

/-- One argument of a call. -/
def argument : Phrase :=
  firstOf (.rule .keywordUnpacking)
    [.rule .starred, .rule .keywordArgument, .rule .assignment, .rule .expression]

/-- What can follow an operand directly. -/
def trailer : Phrase := firstOf (.rule .arguments) [.rule .member, .rule .subscript]

/-- The operands without operators. -/
def atom : Phrase :=
  firstOf (.rule .imaginary)
    [.rule .number, .rule .string, .rule .trueWord, .rule .falseWord, .rule .noneWord,
      .rule .identifier, .rule .parenthesized, .rule .list, .rule .braces]

/-- The inside of a pair of brackets: nothing, one part with clauses, or parts with commas between
    them and possibly one behind the last. -/
def bracketed (opening : String) (part comma : Phrase) (closing : String) : Phrase :=
  inOrder [
    .mark opening,
    optional (.seq part
      (.either (repeated (.rule .clause)) (.seq (many (.seq comma part)) (optional comma)))),
    .mark closing]

/-- The body of each rule. -/
def Rule.body : Rule → Phrase
  | endOfText => .atEnd
  | lambdaWord => .lexeme (.keyword .lambdaWord)
  | ifWord => .lexeme (.keyword .ifWord)
  | elseWord => .lexeme (.keyword .elseWord)
  | forWord => .lexeme (.keyword .forWord)
  | orWord => .lexeme (.keyword .orWord)
  | andWord => .lexeme (.keyword .andWord)
  | notWord => .lexeme (.keyword .notWord)
  | inWord => .lexeme (.keyword .inWord)
  | isWord => .lexeme (.keyword .isWord)
  | trueWord => .lexeme (.keyword .trueWord)
  | falseWord => .lexeme (.keyword .falseWord)
  | noneWord => .lexeme (.keyword .noneWord)
  | identifier => .lexeme .identifier
  | number => .lexeme .number
  | imaginary => .lexeme .imaginary
  | string => .lexeme .string
  | comparisonSign =>
    firstOf (.sign ["==", "!=", "<=", ">=", "<", ">"])
      [.seq (.rule .notWord) (.rule .inWord), .rule .inWord,
        .seq (.rule .isWord) (.rule .notWord), .rule .isWord]
  | bitOrSign => .sign ["|"]
  | bitXorSign => .sign ["^"]
  | bitAndSign => .sign ["&"]
  | shiftSign => .sign ["<<", ">>"]
  | sumSign => .sign ["+", "-"]
  | productSign => .sign ["//", "/", "*", "%", "@"]
  | unarySign => .sign ["+", "-", "~"]
  | powerSign => .sign ["**"]
  | comma => .sign [","]
  | expression => .either (.rule .lambda) (.rule .conditional)
  | lambda =>
    inOrder [.rule .lambdaWord, optional (.rule .parameters), .mark ":", .rule .expression]
  | parameters => separated (.rule .identifier) (.mark ",")
  | conditional =>
    .seq (.rule .disjunction)
      (optional (inOrder
        [.rule .ifWord, .rule .disjunction, .rule .elseWord, .rule .expression]))
  | disjunction => chain .conjunction .orWord
  | conjunction => chain .negation .andWord
  | negation => .either (.seq (.rule .notWord) (.rule .negation)) (.rule .comparison)
  | comparison => chain .bitOr .comparisonSign
  | bitOr => chain .bitXor .bitOrSign
  | bitXor => chain .bitAnd .bitXorSign
  | bitAnd => chain .shift .bitAndSign
  | shift => chain .sum .shiftSign
  | sum => chain .product .sumSign
  | product => chain .factor .productSign
  | factor => .either (.seq (.rule .unarySign) (.rule .factor)) (.rule .power)
  | power => .seq (.rule .primary) (optional (.seq (.rule .powerSign) (.rule .factor)))
  | primary => .seq atom (many trailer)
  | arguments => bracketed "(" argument (.mark ",") ")"
  | keywordArgument =>
    inOrder [.rule .identifier, .mark "=", .notNext "=", .rule .expression]
  | keywordUnpacking => .seq (.sign ["**"]) (.rule .expression)
  | member => .seq (.mark ".") (.rule .identifier)
  | subscript =>
    inOrder [
      .mark "[", .rule .indexItem, many (.seq (.rule .comma) (.rule .indexItem)),
      optional (.rule .comma), .mark "]"]
  | indexItem =>
    .either (.seq (.rule .expression) (optional (.rule .sliceBounds))) (.rule .sliceBounds)
  | sliceBounds =>
    inOrder [
      .mark ":", optional (.rule .sliceUpper),
      optional (.seq (.mark ":") (optional (.rule .sliceStep)))]
  | sliceUpper => .rule .expression
  | sliceStep => .rule .expression
  | parenthesized => bracketed "(" item (.rule .comma) ")"
  | list => bracketed "[" item (.mark ",") "]"
  | braces => bracketed "\x7b" (.rule .braceItem) (.mark ",") "\x7d"
  | braceItem => .seq (.rule .expression) (optional (.seq (.mark ":") (.rule .expression)))
  | starred => .seq (.sign ["*"]) (.rule .expression)
  | assignment => inOrder [.rule .identifier, .mark ":=", .rule .expression]
  | clause =>
    inOrder [
      .rule .forWord, .rule .targets, .rule .inWord, .rule .disjunction,
      many (.rule .condition)]
  | targets => separated (.rule .identifier) (.mark ",")
  | condition => .seq (.rule .ifWord) (.rule .disjunction)

/-- A whole text: an expression and nothing behind it. -/
def wholeText : Phrase := .seq (.rule .expression) (.rule .endOfText)

end Calculator.Grammar
