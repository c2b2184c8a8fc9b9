import Calculator.Proofs.Grammar.Matching

/-!
# Texts made of other texts

A text that is parsed keeps its meaning in brackets, as an operand and as an argument of a call,
whatever it consists of.

Results:
* `Level.derives`, `Level.derives_of_le`: derivations along the levels of precedence.
* `Infix.derives`, `derives_unary`: how operators are derived from their operands.
* `parse_trailer`: an operand with one more thing behind it.
* `parse_composed`: what a text that is made of parsed texts is parsed as.
-/

namespace Calculator.Grammar

/-! ## Derivations along the levels -/

section Levels

variable {ℓ k : Level} {ts us : List Token} {m : Meaning} {ms : List Meaning} {e e' : Expr}

/-- An operand of the next level with what stands behind it. -/
theorem Level.derives (hℓ : ℓ ≠ .atom) (hm : ℓ.next.Means m e)
    (hnext : ℓ.next.phrase.Derives ts [m]) (hmore : ℓ.more.Derives us ms)
    (hcombine : ℓ.combine? e ms = some e') : ℓ.phrase.Derives (ts ++ us) [.expr e'] := by
  cases ℓ with
  | atom => exact absurd rfl hℓ
  | argument =>
    obtain ⟨rfl, rfl⟩ := combineNothing?_eq hcombine
    cases hm
    cases hmore
    rw [List.append_nil]
    exact .eitherSecond (.eitherSecond (.eitherSecond (.eitherSecond hnext)))
  | expression =>
    cases hm
    exact .rule (.eitherSecond (.rule (.seq hnext hmore) (ofParts_conditional hcombine)))
      fun _ => rfl
  | negation =>
    obtain ⟨rfl, rfl⟩ := combineNothing?_eq hcombine
    cases hm
    cases hmore
    rw [List.append_nil]
    exact .rule (.eitherSecond hnext) fun _ => rfl
  | factor =>
    obtain ⟨rfl, rfl⟩ := combineNothing?_eq hcombine
    cases hm
    cases hmore
    rw [List.append_nil]
    exact .rule (.eitherSecond hnext) fun _ => rfl
  | power =>
    cases hm
    exact .rule (.seq hnext hmore) (ofParts_power hcombine)
  | primary => exact .rule (.seq hnext hmore) (ofParts_primary hm hcombine)
  | disjunction | conjunction | comparison | bitOr | bitXor | bitAnd | shift | sum | product =>
    cases hm
    exact .rule (.seq hnext hmore) (ofParts_chain (fun _ _ => rfl) hcombine)

theorem Level.derives_more_nil (ℓ : Level) : ℓ.more.Derives [] [] := by
  cases ℓ with
  | argument | negation | factor | atom => exact .nothing
  | expression | power => exact .eitherSecond .nothing
  | _ => exact .manyStop

/-- Tokens of a level are tokens of every looser one. -/
theorem Level.derives_of_le (hm : k.Means m e) (h : k.phrase.Derives ts [m])
    (hrank : ℓ.rank ≤ k.rank) : ∃ m', ℓ.Means m' e ∧ ℓ.phrase.Derives ts [m'] := by
  induction hd : k.rank - ℓ.rank generalizing ℓ with
  | zero =>
    rw [Level.eq_of_rank_eq (show ℓ.rank = k.rank by omega)]
    exact ⟨m, hm, h⟩
  | succ d ih =>
    have hne : ℓ ≠ .atom := by
      rintro rfl
      have : k.rank ≤ Level.atom.rank := by cases k <;> decide
      omega
    have hnext := Level.rank_next hne
    obtain ⟨m', hm', hderives⟩ := ih (ℓ := ℓ.next) (by omega) (by omega)
    have h' := Level.derives hne hm' hderives ℓ.derives_more_nil (ℓ.combine?_nil e)
    rw [List.append_nil] at h'
    exact ⟨.expr e, ℓ.means_expr e, h'⟩

/-- An operand is an expression of every level. -/
theorem derives_of_atom (h : Grammar.atom.Derives ts [.expr e]) (ℓ : Level) :
    ℓ.phrase.Derives ts [.expr e] := by
  by_cases hℓ : ℓ = .atom
  · rw [hℓ]
    exact h
  · have hrank : ℓ.rank ≤ Level.atom.rank := by cases ℓ <;> decide
    obtain ⟨m, hm, hderives⟩ := Level.derives_of_le (k := .atom) (m := .expr e) rfl h hrank
    rw [Level.eq_of_means hℓ hm] at hderives
    exact hderives

end Levels

theorem derives_number (cs : List Char) :
    Grammar.atom.Derives [.lexeme .number cs] [.expr (.literal (.number (Numeral.value cs)))] :=
  .eitherSecond (.eitherFirst (.rule .lexeme fun _ => rfl))

theorem derives_name {ts : List Token} {ms : List Meaning}
    (h : (Phrase.rule .identifier).Derives ts ms) : Grammar.atom.Derives ts ms := by
  iterate 6 refine .eitherSecond ?_
  exact .eitherFirst h

/-! ## Brackets -/

section Brackets

variable {ts us : List Token} {e : Expr} {text tail : List Char}

/-- A first part and others behind commas. -/
theorem derives_inside {part comma : Phrase} {ms ns : List Meaning} (hpart : part.Derives ts ms)
    (hmore : (Phrase.many (.seq comma part)).Derives us ns) :
    (inside part comma).Derives (ts ++ us) (ms ++ ns) := by
  have hparts : (Phrase.seq (.many (.seq comma part)) (Phrase.optional comma)).Derives
      (us ++ []) (ns ++ []) := .seq hmore (.eitherSecond .nothing)
  rw [List.append_nil, List.append_nil] at hparts
  exact .eitherFirst (.seq hpart (.eitherSecond hparts))

theorem derives_bracketed {part comma : Phrase} {ms : List Meaning}
    (h : (inside part comma).Derives ts ms) :
    (bracketed "(" part comma ")").Derives
      (.symbol .leftParen :: (ts ++ [.symbol .rightParen])) ms := by
  have hbracketed : (bracketed "(" part comma ")").Derives
      ([.symbol .leftParen] ++ (ts ++ [.symbol .rightParen])) ([] ++ (ms ++ [])) :=
    .seq (.mark (by decide)) (.seq h (.mark (by decide)))
  rw [List.append_nil] at hbracketed
  exact hbracketed

/-- An expression in brackets is an operand. -/
theorem derives_inBrackets (h : (Phrase.rule .expression).Derives ts [.expr e]) :
    Grammar.atom.Derives (.symbol .leftParen :: (ts ++ [.symbol .rightParen])) [.expr e] := by
  have hitem : item.Derives ts [.expr e] := .eitherSecond (.eitherSecond h)
  have hinside : (inside item (.rule .comma)).Derives (ts ++ []) [.expr e] :=
    derives_inside hitem .manyStop
  rw [List.append_nil] at hinside
  iterate 7 refine .eitherSecond ?_
  exact .eitherFirst (.rule (derives_bracketed hinside) fun _ => rfl)

/-- The tokens of a text in brackets, with more text behind these. -/
theorem Lexed.inBrackets (h : Lexed text ts) (htail : Lexed tail us) :
    Lexed ("(".toList ++ (text ++ (")".toList ++ tail)))
      (.symbol .leftParen :: (ts ++ .symbol .rightParen :: us)) := by
  have hclosing : Lexed (Symbol.rightParen.spelling ++ tail) (.symbol .rightParen :: us) :=
    htail.separator rfl
  have hends : Ends (Symbol.rightParen.spelling ++ tail) := ends_cons tail rfl
  exact (h.append hends hclosing).separator (s := .leftParen) rfl

end Brackets

/-! ## Operators -/

/-- The symbol of an operator between two operands. -/
def Symbol.binary : BinaryOperator → Symbol
  | .add => plus
  | .subtract => minus
  | .multiply => star
  | .divide => slash
  | .modulo => percent
  | .power => doubleStar
  | .floorDivide => doubleSlash
  | .matrixMultiply => atSign
  | .bitAnd => ampersand
  | .bitOr => bar
  | .bitXor => caret
  | .leftShift => shiftLeft
  | .rightShift => shiftRight

/-- The symbol of an operator in front of an operand. -/
def Symbol.unary : UnaryOperator → Symbol
  | .negate => minus
  | .identity => plus
  | .invert => tilde

/-- A word as a token. -/
def Token.keyword (k : Keyword) : Token := .lexeme (.keyword k) k.spelling.toList

theorem derives_keyword {r : Rule} {k : Keyword} (hr : r.body = .lexeme (.keyword k))
    (hm : ∀ offset cs, Meaning.ofParts r offset [.text cs] = .ok (.text cs)) :
    (Phrase.rule r).Derives [.keyword k] [.text k.spelling.toList] :=
  .rule (hr ▸ .lexeme) fun offset => hm offset _

/-- The tokens of a comparison sign. -/
def Token.comparison : ComparisonOperator → List Token
  | .equal => [symbol .doubleEqual]
  | .notEqual => [symbol .notEqual]
  | .lessThan => [symbol .less]
  | .lessThanOrEqual => [symbol .lessEqual]
  | .greaterThan => [symbol .greater]
  | .greaterThanOrEqual => [symbol .greaterEqual]
  | .isIn => [keyword .inWord]
  | .isNotIn => [keyword .notWord, keyword .inWord]
  | .is => [keyword .isWord]
  | .isNot => [keyword .isWord, keyword .notWord]

/-- Operators between two operands. -/
inductive Infix where
  | binary (op : BinaryOperator)
  | comparison (op : ComparisonOperator)
  | logical (op : LogicalOperator)

namespace Infix

/-- How an operator is written. -/
def symbol : Infix → String
  | binary op => op.symbol
  | comparison op => op.symbol
  | logical op => op.symbol

/-- The tokens that an operator is written with. -/
def tokens : Infix → List Token
  | binary op => [.symbol (.binary op)]
  | comparison op => Token.comparison op
  | logical .and => [.keyword .andWord]
  | logical .or => [.keyword .orWord]

/-- An operator with its operands. -/
def apply : Infix → Expr → Expr → Expr
  | binary op, x, y => .binary op x y
  | comparison op, x, y => .compare op x y
  | logical op, x, y => .logical op x y

/-- The level of an operator. -/
def level : Infix → Level
  | binary op => binaryLevel op
  | comparison _ => .comparison
  | logical op => logicalLevel op

/-- What an operator means among the parts of its level. -/
def meaning : Infix → Meaning
  | comparison op => .comparison op
  | op => .text op.symbol.toList

theorem lexed_symbol (op : Infix) : Lexed op.symbol.toList op.tokens := by
  refine tokens?_eq_some.mp ?_
  cases op with
  | binary op => cases op <;> rfl
  | comparison op => cases op <;> rfl
  | logical op => cases op <;> rfl

theorem derives_comparisonSign (op : ComparisonOperator) :
    (Phrase.rule .comparisonSign).Derives (Token.comparison op) [.comparison op] := by
  have hnot := derives_keyword (r := .notWord) rfl fun _ _ => rfl
  have hin := derives_keyword (r := .inWord) rfl fun _ _ => rfl
  have his := derives_keyword (r := .isWord) rfl fun _ _ => rfl
  cases op with
  | isNotIn => exact .rule (.eitherSecond (.eitherFirst (.seq hnot hin))) fun _ => rfl
  | isIn => exact .rule (.eitherSecond (.eitherSecond (.eitherFirst hin))) fun _ => rfl
  | isNot =>
    exact .rule (.eitherSecond (.eitherSecond (.eitherSecond (.eitherFirst (.seq his hnot)))))
      fun _ => rfl
  | is =>
    exact .rule (.eitherSecond (.eitherSecond (.eitherSecond (.eitherSecond his)))) fun _ => rfl
  | _ => exact .rule (.eitherFirst (.sign (by decide))) fun _ => rfl

/-- The sign between the operands of a chain. -/
theorem derives_sign {op : Infix} {r : Rule} (hr : op.level.sign? = some r) :
    (Phrase.rule r).Derives op.tokens [op.meaning] := by
  cases op with
  | binary op => cases op <;> cases hr <;> exact .rule (.sign (by decide)) fun _ => rfl
  | comparison op => cases hr; exact derives_comparisonSign op
  | logical op =>
    cases op <;> cases hr <;> exact .rule .lexeme fun _ => rfl

theorem join_meaning (op : Infix) (x y : Expr) :
    op.level.join x op.meaning y = some (op.apply x y) := by
  cases op with
  | binary op => cases op <;> rfl
  | comparison op => rfl
  | logical op => cases op <;> rfl

/-- An operator between two operands. -/
theorem derives (op : Infix) {ts us : List Token} {x y : Expr}
    (hx : Grammar.atom.Derives ts [.expr x]) (hy : Grammar.atom.Derives us [.expr y]) :
    (Phrase.rule .expression).Derives (ts ++ (op.tokens ++ us)) [.expr (op.apply x y)] := by
  have hatLevel : op.level.phrase.Derives (ts ++ (op.tokens ++ us)) [.expr (op.apply x y)] := by
    cases hsign : op.level.sign? with
    | some r =>
      have hmore : op.level.more.Derives (op.tokens ++ us ++ []) [op.meaning, .expr y] := by
        rw [Level.more_chain hsign]
        exact .manyMore (.seq (derives_sign hsign) (derives_of_atom hy _)) .manyStop
      rw [List.append_nil] at hmore
      refine Level.derives (Level.ne_atom hsign) (Level.means_expr _ x) (derives_of_atom hx _)
        hmore ?_
      rw [Level.combine?_chain hsign, Meaning.joinLeft?, join_meaning]
      rfl
    | none =>
      -- the only operator that does not form a chain
      have hpower : op = .binary .power := by
        cases op with
        | binary op => cases op <;> first | rfl | cases hsign
        | comparison op => cases hsign
        | logical op => cases op <;> cases hsign
      subst hpower
      have hsign : (Phrase.rule .powerSign).Derives [.symbol .doubleStar] [.text ['*', '*']] :=
        .rule (.sign (by decide)) fun _ => rfl
      have hmore : Level.power.more.Derives ([.symbol .doubleStar] ++ us)
          [.text ['*', '*'], .expr y] := .eitherFirst (.seq hsign (derives_of_atom hy .factor))
      exact Level.derives (ℓ := .power) (by decide) rfl (derives_of_atom hx .primary) hmore rfl
  have hrank : Level.expression.rank ≤ op.level.rank := by
    cases op with
    | binary op => cases op <;> decide
    | comparison op => exact Nat.le_of_ble_eq_true rfl
    | logical op => cases op <;> decide
  obtain ⟨m, rfl, hderives⟩ := Level.derives_of_le (Level.means_expr _ _) hatLevel hrank
  exact hderives

end Infix

/-- A sign in front of an operand. -/
theorem derives_unary (op : UnaryOperator) {ts : List Token} {e : Expr}
    (h : (Phrase.rule .factor).Derives ts [.expr e]) :
    (Phrase.rule .expression).Derives (.symbol (.unary op) :: ts) [.expr (.unary op e)] := by
  have hfactor : (Phrase.rule .factor).Derives (.symbol (.unary op) :: ts)
      [.expr (.unary op e)] := by
    have hsign : (Phrase.rule .unarySign).Derives [.symbol (.unary op)]
        [.text op.symbol.toList] := by
      cases op <;> exact .rule (.sign (by decide)) fun _ => rfl
    refine .rule (.eitherFirst (.seq hsign h)) fun _ => ?_
    cases op <;> rfl
  obtain ⟨m, rfl, hderives⟩ :=
    Level.derives_of_le (ℓ := .expression) (Level.means_expr .factor _) hfactor (by decide)
  exact hderives

/-! ## Texts that are parsed -/

/-- A text that is parsed, with the expression that it is. -/
structure Sentence where
  text : String
  expr : Expr
  parsed : parse text = .ok expr

namespace Sentence

/-- The tokens of a text. -/
def tokens (x : Sentence) : List Token := (tokens? x.text.toList).getD []

theorem lexed_derives (x : Sentence) :
    Lexed x.text.toList x.tokens ∧ (Phrase.rule .expression).Derives x.tokens [.expr x.expr] := by
  obtain ⟨ts, hts, hderives⟩ := parse_eq_ok_iff_derives.mp x.parsed
  rw [tokens, hts]
  exact ⟨tokens?_eq_some.mp hts, hderives⟩

/-- The text in brackets. -/
def inBrackets (x : Sentence) : String := "(" ++ x.text ++ ")"

theorem lexed_inBrackets (x : Sentence) {tail : List Char} {us : List Token} (h : Lexed tail us) :
    Lexed (x.inBrackets.toList ++ tail)
      (.symbol .leftParen :: (x.tokens ++ [.symbol .rightParen]) ++ us) := by
  simp only [inBrackets, String.toList_append, List.append_assoc, List.cons_append,
    List.nil_append]
  exact x.lexed_derives.1.inBrackets h

theorem lexed_inBrackets_last (x : Sentence) :
    Lexed x.inBrackets.toList (.symbol .leftParen :: (x.tokens ++ [.symbol .rightParen])) := by
  have hlexed := x.lexed_inBrackets .empty
  rwa [List.append_nil, List.append_nil] at hlexed

theorem derives_inBrackets (x : Sentence) :
    Grammar.atom.Derives (.symbol .leftParen :: (x.tokens ++ [.symbol .rightParen]))
      [.expr x.expr] :=
  Grammar.derives_inBrackets x.lexed_derives.2

theorem ends_inBrackets (x : Sentence) : Ends x.inBrackets.toList := by
  simp only [inBrackets, String.toList_append, List.append_assoc]
  exact ends_cons _ rfl

theorem matches_text (x : Sentence) : (Phrase.rule .expression).Matches x.text [.expr x.expr] :=
  matches_expression_iff.mpr x.parsed

theorem matches_item (x : Sentence) : item.Matches x.text [.expr x.expr] :=
  x.matches_text.second.second

theorem matches_argument (x : Sentence) : argument.Matches x.text [.expr x.expr] :=
  x.matches_text.second.second.second.second

theorem matches_inBrackets (x : Sentence) (ℓ : Level) :
    ℓ.phrase.Matches x.inBrackets [.expr x.expr] :=
  ⟨_, x.lexed_inBrackets_last, derives_of_atom x.derives_inBrackets ℓ⟩

end Sentence

/-! ## Calls -/

theorem NameWord.matches_id (f : NameWord) :
    (Phrase.rule .identifier).Matches f.id [.name f.id] := by
  have hlexed : Lexed f.id.toList [.lexeme .identifier f.chars] := by
    rw [id, String.toList_ofList]
    exact .lexeme f.scanned
  exact ⟨_, hlexed, .rule .lexeme fun _ => rfl⟩

/-- A name is an operand. -/
theorem NameWord.matches_atom (f : NameWord) : Grammar.atom.Matches f.id [.name f.id] := by
  obtain ⟨ts, hts, hname⟩ := f.matches_id
  exact ⟨ts, hts, derives_name hname⟩

/-- The tokens of an operand with one more thing behind it. -/
theorem derives_trailer {ts us : List Token} {m n : Meaning} {e e' : Expr}
    (hoperand : Grammar.atom.Derives ts [m]) (hm : m.operand? = some e)
    (htrailer : trailer.Derives us [n]) (hfollow : Meaning.follow? e n = some e') :
    (Phrase.rule .expression).Derives (ts ++ us) [.expr e'] := by
  have htrailers : Level.primary.more.Derives (us ++ []) [n] := .manyMore htrailer .manyStop
  rw [List.append_nil] at htrailers
  have hcombine : Level.primary.combine? e [n] = some e' := by
    show (Meaning.follow? e n).bind some = some e'
    rw [hfollow, Option.bind_some]
  have hprimary : Level.primary.phrase.Derives (ts ++ us) [.expr e'] :=
    Level.derives (ℓ := .primary) (by decide) hm hoperand htrailers hcombine
  obtain ⟨m, rfl, hexpression⟩ :=
    Level.derives_of_le (ℓ := .expression) (Level.means_expr .primary _) hprimary (by decide)
  exact hexpression

/-- An operand with one more thing behind it. -/
theorem parse_trailer {x y : String} {m n : Meaning} {e e' : Expr}
    (hoperand : Grammar.atom.Matches x [m]) (hm : m.operand? = some e)
    (htrailer : trailer.Matches y [n]) (hends : Ends y.toList)
    (hfollow : Meaning.follow? e n = some e') : parse (x ++ y) = .ok e' := by
  obtain ⟨ts, hts, hatom⟩ := hoperand
  obtain ⟨us, hus, hderives⟩ := htrailer
  refine matches_expression_iff.mp ⟨ts ++ us, ?_, derives_trailer hatom hm hderives hfollow⟩
  rw [String.toList_append]
  exact hts.append hends hus

/-- The arguments of a call, in brackets. -/
theorem matches_arguments {x : String} {ms : List Meaning} {args : List Argument}
    (hx : (inside argument (.mark ",")).Matches x ms)
    (hms : ∀ offset, Meaning.ofArguments offset ms = .ok args) :
    (Phrase.rule .arguments).Matches ("(" ++ x ++ ")") [.callWith args] ∧
      Ends ("(" ++ x ++ ")").toList := by
  have hopening : Separates "(" := ⟨.leftParen, rfl, rfl⟩
  have hclosing : Separates ")" := ⟨.rightParen, rfl, rfl⟩
  refine ⟨.rule (matches_bracketed hopening hclosing hx) fun offset => ?_, ?_⟩
  · exact congrArg (Except.map Meaning.callWith) (hms offset)
  · rw [String.append_assoc]
    exact ends_mark rfl _

/-! ## What is parsed -/

theorem parse_of_derives {text : String} {ts : List Token} {e : Expr}
    (hlexed : Lexed text.toList ts) (h : (Phrase.rule .expression).Derives ts [.expr e]) :
    parse text = .ok e :=
  parse_eq_ok_iff_derives.mpr ⟨ts, tokens?_eq_some.mpr hlexed, h⟩

/-- A name is parsed as itself. -/
theorem parse_name (f : NameWord) : parse f.id = .ok (.name f.id) := by
  obtain ⟨ts, hlexed, hname⟩ := f.matches_atom
  obtain ⟨m, rfl, hexpression⟩ := Level.derives_of_le (k := .atom) (ℓ := .expression)
    (m := .name f.id) (e := .name f.id) rfl hname (by decide)
  exact parse_of_derives hlexed hexpression

/-- A name as a text that is parsed. -/
def NameWord.sentence (f : NameWord) : Sentence := ⟨f.id, .name f.id, parse_name f⟩

theorem parse_inBrackets (x : Sentence) : parse x.inBrackets = .ok x.expr :=
  matches_expression_iff.mp (x.matches_inBrackets .expression)

theorem parse_infix (op : Infix) (x y : Sentence) (before behind : Gap) :
    parse (x.inBrackets ++ before.text ++ op.symbol ++ behind.text ++ y.inBrackets) =
      .ok (op.apply x.expr y.expr) := by
  have hsign := op.lexed_symbol.append (behind.ends y.ends_inBrackets)
    ((Lexed.spacing_iff behind.spacing).mpr y.lexed_inBrackets_last)
  have hlexed := x.lexed_inBrackets ((Lexed.spacing_iff before.spacing).mpr hsign)
  refine parse_of_derives ?_ (op.derives x.derives_inBrackets y.derives_inBrackets)
  simpa only [String.toList_append, List.append_assoc] using hlexed

theorem parse_unary (op : UnaryOperator) (x : Sentence) (behind : Gap) :
    parse (op.symbol ++ behind.text ++ x.inBrackets) = .ok (.unary op x.expr) := by
  have hsign : Lexed op.symbol.toList [.symbol (.unary op)] :=
    tokens?_eq_some.mp (by cases op <;> rfl)
  have hright := x.lexed_inBrackets .empty
  rw [List.append_nil, List.append_nil] at hright
  have hlexed := hsign.append (behind.ends x.ends_inBrackets)
    ((Lexed.spacing_iff behind.spacing).mpr x.lexed_inBrackets_last)
  refine parse_of_derives ?_ (derives_unary op (derives_of_atom x.derives_inBrackets .factor))
  rw [String.toList_append, String.toList_append, List.append_assoc]
  exact hlexed

theorem parse_call (f : NameWord) (args : List Sentence) :
    parse (f.id ++ "(" ++ ",".intercalate (args.map Sentence.text) ++ ")") =
      .ok (.callByName f.id (args.map Sentence.expr)) := by
  have hmeanings := arguments?_map (args.map fun x => .positional x.expr)
  rw [List.map_map] at hmeanings
  obtain ⟨harguments, hends⟩ := matches_arguments
    (matches_inside_mark Sentence.matches_argument args false) (ofArguments_eq hmeanings)
  have hparse := parse_trailer f.matches_atom rfl harguments.first hends rfl
  rw [listed_false, ← String.append_assoc, ← String.append_assoc] at hparse
  rw [hparse, Expr.callByName, List.map_map]
  rfl

/-- What a text that is made of parsed texts is parsed as: brackets change nothing, operators join
    what stands in brackets, and a name in front of texts in brackets is a call. -/
theorem parse_composed :
    (∀ x : Sentence, parse x.inBrackets = .ok x.expr) ∧
    (∀ (op : BinaryOperator) (x y : Sentence) (before behind : Gap),
      parse (x.inBrackets ++ before.text ++ op.symbol ++ behind.text ++ y.inBrackets) =
        .ok (.binary op x.expr y.expr)) ∧
    (∀ (op : ComparisonOperator) (x y : Sentence) (before behind : Gap),
      parse (x.inBrackets ++ before.text ++ op.symbol ++ behind.text ++ y.inBrackets) =
        .ok (.compare op x.expr y.expr)) ∧
    (∀ (op : LogicalOperator) (x y : Sentence) (before behind : Gap),
      parse (x.inBrackets ++ before.text ++ op.symbol ++ behind.text ++ y.inBrackets) =
        .ok (.logical op x.expr y.expr)) ∧
    (∀ (op : UnaryOperator) (x : Sentence) (behind : Gap),
      parse (op.symbol ++ behind.text ++ x.inBrackets) = .ok (.unary op x.expr)) ∧
    ∀ (f : NameWord) (args : List Sentence),
      parse (f.id ++ "(" ++ ",".intercalate (args.map Sentence.text) ++ ")") =
        .ok (.callByName f.id (args.map Sentence.expr)) :=
  ⟨parse_inBrackets, fun op => parse_infix (.binary op), fun op => parse_infix (.comparison op),
    fun op => parse_infix (.logical op), parse_unary, parse_call⟩

/-- Two names as the texts that `(x) not in (xs)`, `f(x,xs)` and the other forms are made of. -/
theorem parse_composed_not_in :
    parse "(x)" = .ok (.name "x") ∧
    parse "(x)*(xs)" = .ok (.binary .multiply (.name "x") (.name "xs")) ∧
    parse "(x) not in (xs)" = .ok (.compare .isNotIn (.name "x") (.name "xs")) ∧
    parse "(x)\nor(xs)" = .ok (.logical .or (.name "x") (.name "xs")) ∧
    parse "- (x)" = .ok (.unary .negate (.name "x")) ∧
    parse "f(x,xs)" = .ok (.callByName "f" [.name "x", .name "xs"]) := by
  let f : NameWord := ⟨['f'], rfl⟩
  let x : NameWord := ⟨['x'], rfl⟩
  let xs : NameWord := ⟨['x', 's'], rfl⟩
  let close : Gap := ⟨"", rfl⟩
  let space : Gap := ⟨" ", rfl⟩
  let line : Gap := ⟨"\n", rfl⟩
  obtain ⟨hbrackets, hbinary, hcomparison, hlogical, hunary, hcall⟩ := parse_composed
  exact ⟨hbrackets x.sentence, hbinary .multiply x.sentence xs.sentence close close,
    hcomparison .isNotIn x.sentence xs.sentence space space,
    hlogical .or x.sentence xs.sentence line close, hunary .negate x.sentence space,
    hcall f [x.sentence, xs.sentence]⟩

end Calculator.Grammar
