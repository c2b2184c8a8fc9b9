import Calculator.Proofs.Grammar.Lookahead

/-!
# The grammar without order and greed

`Phrase.Generates` says which tokens a phrase describes, as a context-free grammar does: it takes
any of two alternatives and any number of repetitions.  `Phrase.Derives` says also what they mean.
The recognizer takes the first alternative and as many repetitions as it can.  Both agree because
what comes next always decides: `Rule.first` and `Rule.follow` list what a rule can begin with and
what can follow it, and `Phrase.predictive` checks that an alternative that is tried in vain fails
at once.

Results:
* `predictive_body`: the body of each rule passes the check.
* `Phrase.Generates.ahead_mem`: what the tokens of a phrase begin with.
* `Phrase.Derives.yields`: derived tokens are read by their phrase, wherever something stands behind
  them that can follow the phrase.
-/

namespace Calculator.Grammar

open Ahead (closers)

/-! ## What rules begin with and what follows them -/

namespace Ahead

/-- What can begin an operand. -/
def operands : List Ahead :=
  [name, number, imaginary, string, keyword .trueWord, keyword .falseWord, keyword .noneWord,
    symbol .leftParen, symbol .leftBracket, symbol .leftBrace]

/-- What can begin an operand with a sign. -/
def factors : List Ahead := [symbol .plus, symbol .minus, symbol .tilde] ++ operands

/-- What can begin a condition. -/
def negations : List Ahead := keyword .notWord :: factors

/-- What can begin an expression. -/
def expressions : List Ahead := keyword .lambdaWord :: negations

/-- What can begin a comparison sign. -/
def comparisons : List Ahead :=
  [symbol .doubleEqual, symbol .notEqual, symbol .lessEqual, symbol .greaterEqual, symbol .less,
    symbol .greater, keyword .notWord, keyword .inWord, keyword .isWord, isNot]

/-- What can follow a part of a bracket. -/
def afterPart : List Ahead := closers ++ [symbol .comma, lastComma, keyword .forWord]

/-- What can follow an expression. -/
def afterExpression : List Ahead := [symbol .colon, finish] ++ afterPart

def afterDisjunction : List Ahead := [keyword .ifWord, keyword .elseWord] ++ afterExpression

def afterConjunction : List Ahead := keyword .orWord :: afterDisjunction

def afterNegation : List Ahead := keyword .andWord :: afterConjunction

def afterBitOr : List Ahead := comparisons ++ afterNegation

def afterBitXor : List Ahead := symbol .bar :: afterBitOr

def afterBitAnd : List Ahead := symbol .caret :: afterBitXor

def afterShift : List Ahead := symbol .ampersand :: afterBitAnd

def afterSum : List Ahead := [symbol .shiftLeft, symbol .shiftRight] ++ afterShift

def afterProduct : List Ahead := [symbol .plus, symbol .minus] ++ afterSum

def afterFactor : List Ahead :=
  [symbol .doubleSlash, symbol .slash, symbol .star, symbol .percent, symbol .atSign] ++
    afterProduct

def afterPrimary : List Ahead := symbol .doubleStar :: afterFactor

/-- What can follow an operand. -/
def afterOperand : List Ahead :=
  [symbol .leftParen, symbol .leftBracket, symbol .point] ++ afterPrimary

end Ahead

open Ahead

/-- What a rule can begin with, lexemes and operators apart. -/
def Rule.first : Rule → List Ahead
  | comparisonSign => comparisons
  | expression | sliceUpper | sliceStep | braceItem => expressions
  | lambda => [keyword .lambdaWord]
  | conditional | disjunction | conjunction | negation => negations
  | comparison | bitOr | bitXor | bitAnd | shift | sum | product | factor => factors
  | power | primary => operands
  | parameters | targets => [name]
  | arguments | parenthesized => [symbol .leftParen]
  | keywordArgument => [named]
  | keywordUnpacking => [symbol .doubleStar]
  | member => [symbol .point]
  | subscript | list => [symbol .leftBracket]
  | braces => [symbol .leftBrace]
  | indexItem => symbol .colon :: expressions
  | sliceBounds => [symbol .colon]
  | starred => [symbol .star]
  | assignment => [assigned]
  | clause => [keyword .forWord]
  | condition => [keyword .ifWord]
  | _ => []

/-- What can follow a rule, lexemes and operators apart. -/
def Rule.follow : Rule → List Ahead
  | comparisonSign => factors
  | expression | lambda | conditional => afterExpression
  | disjunction => afterDisjunction
  | conjunction => afterConjunction
  | negation | comparison => afterNegation
  | bitOr => afterBitOr
  | bitXor => afterBitXor
  | bitAnd => afterBitAnd
  | shift => afterShift
  | sum => afterSum
  | product => afterProduct
  | factor | power => afterFactor
  | primary => afterPrimary
  | arguments | member | subscript | parenthesized | list | braces => afterOperand
  | parameters => [symbol .colon]
  | targets => [keyword .inWord]
  | keywordArgument | keywordUnpacking | starred | assignment => afterPart
  | indexItem | sliceBounds | sliceStep => [symbol .comma, lastComma, symbol .rightBracket]
  | sliceUpper => [symbol .colon, symbol .comma, lastComma, symbol .rightBracket]
  | braceItem => [symbol .comma, lastComma, symbol .rightBrace, keyword .forWord]
  | clause => keyword .forWord :: closers
  | condition => [keyword .ifWord, keyword .forWord] ++ closers
  | _ => []

/-! ## The check -/

/-- The characters that make a longer symbol of a symbol. -/
def Symbol.extensions : Symbol → List Char
  | less => ['=', '<']
  | greater => ['=', '>']
  | star => ['*']
  | slash => ['/']
  | colon | equal => ['=']
  | _ => []

/-- Whether a symbol and what comes behind it would be read as something else if they stood
    together. -/
def Symbol.joins (s : Symbol) (k : Ahead) : Bool :=
  match k.symbol? with
  | some y => s.extensions.contains y.head
  | none => s == .point && (k == number || k == imaginary)

namespace Phrase

/-- What a lexeme, a mark or a sign is in front of some cases. -/
def tokenFirst (p : Phrase) (next : List Ahead) : List Ahead :=
  match p with
  | lexeme l => l.aheads next
  | p => p.symbols.flatMap fun s => s.aheads next

/-- What a phrase begins with in front of some cases. -/
def first : Phrase → List Ahead → List Ahead
  | nothing, next | atEnd, next | notNext _, next => next
  | lexeme l, next => (lexeme l).tokenFirst next
  | mark s, next => (mark s).tokenFirst next
  | sign ss, next => (sign ss).tokenFirst next
  | rule r, next =>
    match r.body with
    | lexeme l => (lexeme l).tokenFirst next
    | sign ss => (sign ss).tokenFirst next
    | _ => r.first
  | seq p q, next => p.first (q.first next)
  | either p q, next => p.first next ++ q.first next
  | many p, next => next ++ p.first next

/-- Whether the symbols of a phrase are the same symbols in front of some cases. -/
def apart (p : Phrase) (next : List Ahead) : Bool :=
  p.isSpelled && p.symbols.all fun s => next.all fun k => !s.joins k

/-- Whether the next tokens decide how a phrase is read in front of some cases. -/
def predictive : Phrase → List Ahead → Bool
  | nothing, _ | lexeme _, _ => true
  | atEnd, _ => false
  | mark s, next => (mark s).apart next
  | sign ss, next => (sign ss).apart next
  | notNext s, next => next.all (·.refuses (mark s))
  | rule r, next =>
    match r.body with
    | lexeme _ => true
    | sign ss => (sign ss).apart next
    | _ => next.all r.follow.contains
  | seq p q, next => p.predictive (q.first next) && q.predictive next
  | either p q, next =>
    p.predictive next && q.predictive next && (q.first next).all (·.refuses p)
  | many p, next =>
    p.predictive (next ++ p.first next) &&
      (p.first (next ++ p.first next)).all (next ++ p.first next).contains &&
      next.all (·.refuses p)

end Phrase

/-- Whether a rule is a lexeme or an operator. -/
def Rule.isToken (r : Rule) : Bool :=
  match r.body with
  | .lexeme _ | .sign _ => true
  | _ => false

/-- Whether the tables are right about a rule. -/
def Rule.predictive (r : Rule) : Bool :=
  r.body.predictive r.follow && (r.body.first r.follow).all r.first.contains

theorem predictive_body {r : Rule} (hend : r ≠ .endOfText) (htoken : r.isToken = false) :
    r.predictive = true := by
  cases r <;> first
    | exact absurd rfl hend
    | cases htoken; done
    | decide +kernel

/-- What follows a rule can follow its body, and what its body begins with the rule begins with. -/
theorem exists_predictive_body {r : Rule} {next : List Ahead} {k : Ahead}
    (h : (Phrase.rule r).predictive next = true) (hk : k ∈ next) :
    ∃ next', k ∈ next' ∧ r.body.predictive next' = true ∧
      ∀ k' ∈ r.body.first next', k' ∈ (Phrase.rule r).first next := by
  rw [Phrase.predictive] at h
  split at h
  · next l hl => exact ⟨next, hk, by rw [hl]; rfl, by rw [Phrase.first, hl]; exact fun _ => id⟩
  · next ss hss =>
    exact ⟨next, hk, by rw [hss]; exact h, by rw [Phrase.first, hss]; exact fun _ => id⟩
  · next hlexeme hsign =>
    have hfollow : ∀ k' ∈ next, k' ∈ r.follow := fun k' hk' =>
      List.contains_iff_mem.mp (List.all_eq_true.mp h k' hk')
    have htoken : r.isToken = false := by
      rw [Rule.isToken]
      split
      · next l hl => exact absurd hl (hlexeme l)
      · next ss hss => exact absurd hss (hsign ss)
      · rfl
    have hend : r ≠ .endOfText := by
      rintro rfl
      cases hfollow k hk
    have hbody := predictive_body hend htoken
    rw [Rule.predictive, Bool.and_eq_true] at hbody
    refine ⟨r.follow, hfollow k hk, hbody.1, fun k' hk' => ?_⟩
    rw [Phrase.first]
    split
    · next l hl => exact absurd hl (hlexeme l)
    · next ss hss => exact absurd hss (hsign ss)
    · exact List.contains_iff_mem.mp (List.all_eq_true.mp hbody.2 k' hk')

/-! ## Sentences -/

/-- A phrase describes some tokens.  Which of two alternatives is taken and how often a phrase is
    repeated is left open. -/
inductive Phrase.Generates : Phrase → List Token → Prop
  | nothing : Generates nothing []
  | atEnd : Generates atEnd []
  | lexeme {l : Lexeme} {cs : List Char} : Generates (lexeme l) [.lexeme l cs]
  | mark {s : String} {y : Symbol} : y ∈ (mark s).symbols → Generates (mark s) [.symbol y]
  | sign {ss : List String} {y : Symbol} : y ∈ (sign ss).symbols → Generates (sign ss) [.symbol y]
  | notNext {s : String} : Generates (notNext s) []
  | rule {r : Rule} {ts : List Token} : Generates r.body ts → Generates (rule r) ts
  | seq {p q : Phrase} {ts us : List Token} :
      Generates p ts → Generates q us → Generates (seq p q) (ts ++ us)
  | eitherFirst {p q : Phrase} {ts : List Token} : Generates p ts → Generates (either p q) ts
  | eitherSecond {p q : Phrase} {ts : List Token} : Generates q ts → Generates (either p q) ts
  | manyStop {p : Phrase} : Generates (many p) []
  | manyMore {p : Phrase} {ts us : List Token} :
      Generates p ts → Generates (many p) us → Generates (many p) (ts ++ us)

namespace Phrase

/-- What a repetition begins with can follow the phrase that is repeated. -/
theorem predictive_many {p : Phrase} {next : List Ahead} (h : (many p).predictive next = true) :
    p.predictive ((many p).first next) = true ∧
      (∀ k ∈ p.first ((many p).first next), k ∈ (many p).first next) ∧
      ∀ k ∈ next, k.refuses p = true := by
  rw [predictive, Bool.and_eq_true, Bool.and_eq_true] at h
  obtain ⟨⟨hp, hfirst⟩, hnext⟩ := h
  exact ⟨hp, fun k hk => List.contains_iff_mem.mp (List.all_eq_true.mp hfirst k hk),
    List.all_eq_true.mp hnext⟩

/-- What the tokens of a phrase begin with. -/
theorem Generates.ahead_mem {p : Phrase} {ts us : List Token} {next : List Ahead}
    (h : p.Generates ts) (hp : p.predictive next = true) (hnext : ahead us ∈ next) :
    ahead (ts ++ us) ∈ p.first next := by
  induction h generalizing us next with
  | nothing | atEnd | notNext => exact hnext
  | @lexeme l cs => exact l.ahead_mem_aheads hnext
  | @mark s y hy => exact List.mem_flatMap.mpr ⟨y, hy, y.ahead_mem_aheads hnext⟩
  | @sign ss y hy => exact List.mem_flatMap.mpr ⟨y, hy, y.ahead_mem_aheads hnext⟩
  | rule _ ih =>
    obtain ⟨next', hnext', hbody, hfirst⟩ := exists_predictive_body hp hnext
    exact hfirst _ (ih hbody hnext')
  | seq _ _ ihp ihq =>
    rw [predictive, Bool.and_eq_true] at hp
    rw [List.append_assoc]
    exact ihp hp.1 (ihq hp.2 hnext)
  | eitherFirst _ ih =>
    rw [predictive, Bool.and_eq_true, Bool.and_eq_true] at hp
    exact List.mem_append_left _ (ih hp.1.1 hnext)
  | eitherSecond _ ih =>
    rw [predictive, Bool.and_eq_true, Bool.and_eq_true] at hp
    exact List.mem_append_right _ (ih hp.1.2 hnext)
  | manyStop => exact List.mem_append_left _ hnext
  | manyMore _ _ ihp ihmany =>
    obtain ⟨hstep, hfirst, -⟩ := predictive_many hp
    rw [List.append_assoc]
    exact hfirst _ (ihp hstep (ihmany hp hnext))

/-- A mark that must not come next is refused by whatever may. -/
theorem yields_notNext {s : String} {us : List Token} {next : List Ahead}
    (hp : (notNext s).predictive next = true) (hnext : ahead us ∈ next) {c : Cursor}
    (hc : c.Before us) : (notNext s).Yields c (.fits [] c) := by
  cases yields_fails_of_refuses hc (List.all_eq_true.mp hp _ hnext) with
  | terminal hmark =>
    have hnone : c.spelling? s = none := by
      cases hs : c.spelling? s with
      | none => rfl
      | some split => rw [outcome?, hs] at hmark; cases hmark
    exact .terminal (by rw [outcome?, hnone]; rfl)

end Phrase

/-! ## Derivations -/

/-- A phrase describes some tokens, and these have some meanings.  Which of two alternatives is
    taken and how often a phrase is repeated is left open. -/
inductive Phrase.Derives : Phrase → List Token → List Meaning → Prop
  | nothing : Derives nothing [] []
  | atEnd : Derives atEnd [] []
  | lexeme {l : Lexeme} {cs : List Char} : Derives (lexeme l) [.lexeme l cs] [.text cs]
  | mark {s : String} {y : Symbol} : y ∈ (mark s).symbols → Derives (mark s) [.symbol y] []
  | sign {ss : List String} {y : Symbol} :
      y ∈ (sign ss).symbols → Derives (sign ss) [.symbol y] [.text y.spelling]
  | notNext {s : String} : Derives (notNext s) [] []
  | rule {r : Rule} {ts : List Token} {ms : List Meaning} {m : Meaning} :
      Derives r.body ts ms → (∀ offset, Meaning.ofParts r offset ms = .ok m) →
      Derives (rule r) ts [m]
  | seq {p q : Phrase} {ts us : List Token} {ms ns : List Meaning} :
      Derives p ts ms → Derives q us ns → Derives (seq p q) (ts ++ us) (ms ++ ns)
  | eitherFirst {p q : Phrase} {ts : List Token} {ms : List Meaning} :
      Derives p ts ms → Derives (either p q) ts ms
  | eitherSecond {p q : Phrase} {ts : List Token} {ms : List Meaning} :
      Derives q ts ms → Derives (either p q) ts ms
  | manyStop {p : Phrase} : Derives (many p) [] []
  | manyMore {p : Phrase} {ts us : List Token} {ms ns : List Meaning} :
      Derives p ts ms → Derives (many p) us ns → Derives (many p) (ts ++ us) (ms ++ ns)

namespace Phrase.Derives

variable {p : Phrase} {ts us : List Token} {ms : List Meaning} {next : List Ahead}

/-- What is derived is a sentence of its phrase. -/
theorem generates (h : p.Derives ts ms) : p.Generates ts := by
  induction h with
  | nothing => exact .nothing
  | atEnd => exact .atEnd
  | lexeme => exact .lexeme
  | mark hy => exact .mark hy
  | sign hy => exact .sign hy
  | notNext => exact .notNext
  | rule _ _ ih => exact .rule ih
  | seq _ _ ihp ihq => exact .seq ihp ihq
  | eitherFirst _ ih => exact .eitherFirst ih
  | eitherSecond _ ih => exact .eitherSecond ih
  | manyStop => exact .manyStop
  | manyMore _ _ ihp ihmany => exact .manyMore ihp ihmany

/-- What a derived phrase begins with. -/
theorem ahead_mem (h : p.Derives ts ms) (hp : p.predictive next = true) (hnext : ahead us ∈ next) :
    ahead (ts ++ us) ∈ p.first next :=
  h.generates.ahead_mem hp hnext

/-- Derived tokens are read by their phrase, wherever something stands behind them that can follow
    the phrase. -/
theorem yields (h : p.Derives ts ms) (hp : p.predictive next = true) (hnext : ahead us ∈ next)
    {c : Cursor} (hc : c.Before (ts ++ us)) :
    ∃ parts last, p.Yields c (.fits parts last) ∧ last.Before us ∧
      Meaning.ofTrees parts = .ok ms := by
  induction h generalizing us next c with
  | nothing => exact ⟨[], c, .terminal rfl, hc, rfl⟩
  | atEnd => cases hp
  | lexeme =>
    obtain ⟨last, hyields, hlast⟩ := yields_lexeme hc
    exact ⟨_, last, hyields, hlast, rfl⟩
  | mark hy =>
    obtain ⟨last, hyields, hlast⟩ := yields_mark (mem_symbols_mark.mp hy) hc
    exact ⟨_, last, hyields, hlast, rfl⟩
  | sign hy =>
    rw [predictive, apart, Bool.and_eq_true] at hp
    obtain ⟨last, hyields, hlast⟩ := yields_sign hp.1 hy hc
    exact ⟨_, last, hyields, hlast, rfl⟩
  | notNext => exact ⟨[], c, yields_notNext hp hnext hc, hc, rfl⟩
  | @rule r _ _ m _ hm ih =>
    obtain ⟨next', hnext', hbody, -⟩ := exists_predictive_body hp hnext
    obtain ⟨parts, last, hyields, hlast, hms⟩ := ih hbody hnext' hc
    refine ⟨[.node r c.offset parts], last, .ruleFits hyields, hlast, ?_⟩
    have htree : Meaning.ofTree (.node r c.offset parts) = .ok m := by
      rw [Meaning.ofTree, hms]
      exact hm c.offset
    rw [Meaning.ofTrees, htree]
    rfl
  | seq _ hq ihp ihq =>
    rw [predictive, Bool.and_eq_true] at hp
    rw [List.append_assoc] at hc
    obtain ⟨parts, mid, hyields, hmid, hms⟩ := ihp hp.1 (hq.ahead_mem hp.2 hnext) hc
    obtain ⟨more, last, hyields', hlast, hns⟩ := ihq hp.2 hnext hmid
    exact ⟨_, last, .seq hyields hyields', hlast, ofTrees_append hms hns⟩
  | eitherFirst _ ih =>
    rw [predictive, Bool.and_eq_true, Bool.and_eq_true] at hp
    obtain ⟨parts, last, hyields, hrest⟩ := ih hp.1.1 hnext hc
    exact ⟨parts, last, .eitherFirst hyields, hrest⟩
  | eitherSecond hq ih =>
    rw [predictive, Bool.and_eq_true, Bool.and_eq_true] at hp
    have hfails := yields_fails_of_refuses hc
      (List.all_eq_true.mp hp.2 _ (hq.ahead_mem hp.1.2 hnext))
    obtain ⟨parts, last, hyields, hrest⟩ := ih hp.1.2 hnext hc
    exact ⟨parts, last, .eitherSecond hfails hyields, hrest⟩
  | manyStop =>
    have hfails := yields_fails_of_refuses hc ((predictive_many hp).2.2 _ hnext)
    exact ⟨[], c, .manyStop hfails, hc, rfl⟩
  | manyMore _ hmany ihp ihmany =>
    rw [List.append_assoc] at hc
    obtain ⟨parts, mid, hyields, hmid, hms⟩ :=
      ihp (predictive_many hp).1 (hmany.ahead_mem hp hnext) hc
    obtain ⟨more, last, hyields', hlast, hns⟩ := ihmany hp hnext hmid
    exact ⟨_, last, .manyMore hyields hyields', hlast, ofTrees_append hms hns⟩

end Phrase.Derives

end Calculator.Grammar
