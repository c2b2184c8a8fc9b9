import Calculator.Proofs.Grammar.Levels

/-!
# The words of each construct

For each construct of an expression: which words it is written with, and at which level these are
read as that construct when the words of its parts are read at the levels that its grammar asks
for.

Results:
* `closed_number`, `closed_name`, `closed_keyword`, `closed_parenthesized`: atoms.
* `open_binary`, `open_compare`, `open_logical`: operators between two operands.
* `closed_unary`, `closed_not`, `closed_power`: operators that look to the right.
* `open_call`, `open_member`: what follows an operand.
* `closed_conditional`, `closed_lambda`: the loosest constructs.
* `reads_inside`: parts with commas between them, in brackets.
-/

namespace Calculator.Grammar

/-! ## Fixed words -/

namespace Word

def opening : Word := of "(" rfl

def closing : Word := of ")" rfl

def comma : Word := of "," rfl

def colon : Word := of ":" rfl

def dot : Word := of "." rfl

/-- One of the words that are no identifiers. -/
def keyword (k : Keyword) : Word := of k.spelling (by cases k <;> rfl)

/-- The word of a sign in front of an operand. -/
def unary (op : UnaryOperator) : Word := of op.symbol (by cases op <;> rfl)

/-- The word of an operator between two operands. -/
def binary (op : BinaryOperator) : Word := of op.symbol (by cases op <;> rfl)

/-- The words of a comparison; two of these operators have two words. -/
def comparison : ComparisonOperator → List Word
  | .isNotIn => [keyword .notWord, keyword .inWord]
  | .isNot => [keyword .isWord, keyword .notWord]
  | .isIn => [keyword .inWord]
  | .is => [keyword .isWord]
  | .equal => [of "==" rfl]
  | .notEqual => [of "!=" rfl]
  | .lessThan => [of "<" rfl]
  | .lessThanOrEqual => [of "<=" rfl]
  | .greaterThan => [of ">" rfl]
  | .greaterThanOrEqual => [of ">=" rfl]

/-- The word of a logical operator. -/
def logical : LogicalOperator → Word
  | .and => keyword .andWord
  | .or => keyword .orWord

/-- Whether a word begins no construct of a level that is looser. -/
def starts (w : Word) (ℓ : Level) : Bool :=
  Level.all.all fun k => decide (ℓ.rank ≤ k.rank) || k.heads.all w.refuses

theorem starts_cons {w : Word} {ℓ : Level} (h : w.starts ℓ = true) (ws : List Word) :
    Starts ℓ (w :: ws) := by
  intro k hk p hp
  have hw := List.all_eq_true.mp h k k.mem_all
  rw [Bool.or_eq_true, decide_eq_true_eq] at hw
  rcases hw with hle | hw
  · omega
  · exact w.rejects ws (List.all_eq_true.mp hw p hp)

end Word

variable {ws left right : List Word} {e x y : Expr}

/-! ## Numbers, names and words -/

theorem closed_number (n : NumberWord) : Closed .atom [n.word] (.literal (.number n.value)) := by
  intro rest _
  have hheads : (Level.all.all fun k => k.heads.all NumberWord.refuses) = true := by decide
  refine ⟨fun k _ p hp => ?_, .expr (.literal (.number n.value)), rfl, ?_⟩
  · exact n.rejects rest (List.all_eq_true.mp (List.all_eq_true.mp hheads k k.mem_all) p hp)
  · exact n.reads_pruned (reads_either_left (reads_number n rest))

/-- A name is an expression only where it is neither the name of an argument nor given a value. -/
theorem closed_name (a : NameWord) : Closed .atom [a.word] (.name a.id) := by
  intro rest hrest
  have hcontinued := hrest .atom (Nat.le_refl _)
  simp only [Level.tails, List.forall_mem_cons] at hcontinued
  obtain ⟨hassignment, hkeyword, -⟩ := hcontinued
  refine ⟨fun k _ p hp => ?_, .name a.id, rfl, ?_⟩
  · cases k with
    | argument =>
      simp only [Level.heads, List.mem_cons, List.not_mem_nil, or_false] at hp
      rcases hp with rfl | rfl | rfl | rfl
      · exact a.rejects rest (by decide)
      · exact a.rejects rest (by decide)
      · exact rejects_rule (rejects_seq_right (reads_identifier a rest) hkeyword)
      · exact rejects_rule
          (rejects_seq_right (reads_identifier a rest) (rejects_seq_left hassignment))
    | expression | negation | factor =>
      rw [List.mem_singleton.mp hp]
      exact a.rejects rest (by decide)
    | _ => cases hp
  · exact a.reads_pruned (reads_either_left (reads_identifier a rest))

/-- What the words `True`, `False` and `None` stand for. -/
def Keyword.literal? : Keyword → Option Literal
  | trueWord => some (.boolean true)
  | falseWord => some (.boolean false)
  | noneWord => some .nothing
  | _ => none

theorem closed_keyword {k : Keyword} {l : Literal} (hk : k.literal? = some l) :
    Closed .atom [.keyword k] (.literal l) := by
  intro rest _
  refine ⟨?_, .expr (.literal l), rfl, ?_⟩
  · cases k <;> cases hk <;> exact Word.starts_cons (by decide) rest
  · cases k <;> cases hk <;>
      exact Word.reads_pruned _ (reads_either_left (reads_token_rule rest rfl rfl fun _ => rfl))

/-! ## Brackets -/

/-- Words that are read as one part in a pair of brackets. -/
def Part (p : Phrase) (ws : List Word) (m : Meaning) : Prop :=
  ∀ rest, Stops .argument rest → Reads p (ws ++ rest) [m] rest

theorem Closed.part_argument (h : Closed .argument ws e) : Part argument ws (.expr e) :=
  fun _ hrest => h.reads (by decide) hrest

theorem Closed.part_item (h : Closed .expression ws e) : Part item ws (.expr e) := by
  intro rest hrest
  have hexpression : Stops .expression rest := hrest.mono (by decide)
  have hstarts := (h rest hexpression).1 .argument (by decide)
  simp only [Level.heads, List.forall_mem_cons] at hstarts
  obtain ⟨-, hstarred, -, hassignment, -⟩ := hstarts
  exact reads_either_right hstarred
    (reads_either_right hassignment (h.reads (by decide) hexpression))

/-- Some parts, each behind a comma. -/
def continued (parts : List (List Word × Meaning)) : List Word :=
  parts.flatMap fun part => .comma :: part.1

/-- Some meanings, each behind that of a comma. -/
def joined (sep ms : List Meaning) : List Meaning := ms.flatMap fun m => sep ++ [m]

/-- A comma behind the last part, or none. -/
def trailingComma : Bool → List Word
  | true => [.comma]
  | false => []

/-- The inside of a pair of brackets. -/
def inside (part comma : Phrase) : Phrase :=
  Phrase.optional (.seq part
    (.either (Phrase.repeated (.rule .clause)) (.seq (.many (.seq comma part))
      (Phrase.optional comma))))

section Inside

variable {part comma : Phrase} {sep : List Meaning}

theorem stops_comma (rest : List Word) : Stops .argument (.comma :: rest) :=
  Word.stops_cons (by decide) rest

theorem stops_closing (rest : List Word) : Stops .argument (.closing :: rest) :=
  Word.stops_cons (by decide) rest

theorem reads_inside_nil {rest : List Word} (h : Rejects part (.closing :: rest)) :
    Reads (inside part comma) (.closing :: rest) [] (.closing :: rest) :=
  reads_optional_nil (rejects_seq_left h)

theorem stops_continued (parts : List (List Word × Meaning)) {rest : List Word}
    (hrest : Stops .argument rest) : Stops .argument (continued parts ++ rest) := by
  cases parts with
  | nil => exact hrest
  | cons q qs => exact stops_comma _

theorem reads_continued (hcomma : ∀ rest, Reads comma (.comma :: rest) sep rest)
    {parts : List (List Word × Meaning)} (hparts : ∀ q ∈ parts, Part part q.1 q.2)
    {rest : List Word} (hrest : Stops .argument rest) (hend : Rejects (.seq comma part) rest) :
    Reads (.many (.seq comma part)) (continued parts ++ rest)
      (joined sep (parts.map Prod.snd)) rest := by
  induction parts with
  | nil => exact reads_many_nil hend
  | cons q qs ih =>
    have hq := hparts q (List.mem_cons_self ..) (continued qs ++ rest) (stops_continued qs hrest)
    have hqs := ih fun q' hq' => hparts q' (List.mem_cons_of_mem q hq')
    have hstep := reads_many_cons (reads_seq (hcomma (q.1 ++ (continued qs ++ rest))) hq) hqs
    rw [continued, List.map_cons, joined, List.flatMap_cons, List.flatMap_cons, List.cons_append,
      List.cons_append, List.append_assoc]
    exact hstep

/-- Parts with commas between them and possibly one behind the last. -/
theorem reads_inside (hcomma : ∀ rest, Reads comma (.comma :: rest) sep rest)
    {rest : List Word} (hpart : Rejects part (.closing :: rest))
    (hclosing : Rejects comma (.closing :: rest)) (q : List Word × Meaning)
    (qs : List (List Word × Meaning)) (hparts : ∀ q' ∈ q :: qs, Part part q'.1 q'.2)
    (trailing : Bool) :
    Reads (inside part comma)
      (q.1 ++ (continued qs ++ (trailingComma trailing ++ .closing :: rest)))
      (q.2 :: (joined sep (qs.map Prod.snd) ++ if trailing then sep else []))
      (.closing :: rest) := by
  have hstops : Stops .argument (trailingComma trailing ++ .closing :: rest) := by
    cases trailing with
    | true => exact stops_comma _
    | false => exact stops_closing _
  have hend : Rejects (.seq comma part) (trailingComma trailing ++ .closing :: rest) := by
    cases trailing with
    | true => exact rejects_seq_right (hcomma _) hpart
    | false => exact rejects_seq_left hclosing
  have htrailing : Reads (Phrase.optional comma) (trailingComma trailing ++ .closing :: rest)
      (if trailing then sep else []) (.closing :: rest) := by
    cases trailing with
    | true => exact reads_either_left (hcomma _)
    | false => exact reads_optional_nil hclosing
  have hmore := reads_continued hcomma
    (fun q' hq' => hparts q' (List.mem_cons_of_mem q hq')) hstops hend
  have hclause : Rejects (Phrase.repeated (.rule .clause))
      (continued qs ++ (trailingComma trailing ++ .closing :: rest)) := by
    cases qs with
    | nil => cases trailing <;> exact Word.rejects _ _ (by decide)
    | cons q' qs => exact Word.rejects _ _ (by decide)
  have hq := hparts q (List.mem_cons_self ..)
    (continued qs ++ (trailingComma trailing ++ .closing :: rest)) (stops_continued qs hstops)
  exact reads_either_left
    (reads_seq hq (reads_either_right hclause (reads_seq hmore htrailing)))

end Inside

theorem reads_opening (ws : List Word) : Reads (.mark "(") (.opening :: ws) [] ws :=
  reads_token ws rfl rfl

theorem reads_closing (ws : List Word) : Reads (.mark ")") (.closing :: ws) [] ws :=
  reads_token ws rfl rfl

/-- What stands in a pair of brackets is read between them. -/
theorem reads_bracketed {part comma : Phrase} {rest : List Word} {ms : List Meaning}
    (h : Reads (inside part comma) (ws ++ .closing :: rest) ms (.closing :: rest)) :
    Reads (bracketed "(" part comma ")") (.opening :: (ws ++ .closing :: rest)) ms rest := by
  have hread := reads_seq (reads_opening (ws ++ .closing :: rest))
    (reads_seq h (reads_closing rest))
  rw [List.nil_append, List.append_nil] at hread
  exact hread

/-- A pair of brackets as an operand. -/
theorem closed_parenthesized {ms : List Meaning}
    (h : ∀ rest, Reads (inside item (.rule .comma)) (ws ++ .closing :: rest) ms (.closing :: rest))
    (hms : Meaning.ofParts? .parenthesized ms = some (.expr e)) :
    Closed .atom (.opening :: (ws ++ [.closing])) e := by
  intro rest _
  rw [List.cons_append, List.append_assoc]
  refine ⟨Word.starts_cons (by decide) _, .expr e, rfl, ?_⟩
  exact Word.reads_pruned _ (reads_either_left
    (reads_rule (reads_bracketed (h rest)) (ofParts_of_ofParts? hms nofun nofun)))

theorem reads_comma (rest : List Word) :
    Reads (.rule .comma) (.comma :: rest) [.separator] rest :=
  reads_token_rule rest rfl rfl fun _ => rfl

theorem reads_comma_mark (rest : List Word) : Reads (.mark ",") (.comma :: rest) [] rest :=
  reads_token rest rfl rfl

/-- An expression in brackets. -/
theorem closed_group (h : Closed .expression ws e) :
    Closed .atom (.opening :: (ws ++ [.closing])) e := by
  have hparts : ∀ q ∈ [(ws, Meaning.expr e)], Part item q.1 q.2 := by
    intro q hq
    rw [List.mem_singleton.mp hq]
    exact h.part_item
  have hinside : ∀ rest, Reads (inside item (.rule .comma)) (ws ++ .closing :: rest) [.expr e]
      (.closing :: rest) := fun rest =>
    reads_inside reads_comma (Word.rejects _ _ (by decide)) (Word.rejects _ _ (by decide))
      (ws, .expr e) [] hparts false
  exact closed_parenthesized hinside rfl

/-! ## Operators between two operands -/

/-- The level of an operator. -/
def binaryLevel : BinaryOperator → Level
  | .bitOr => .bitOr
  | .bitXor => .bitXor
  | .bitAnd => .bitAnd
  | .leftShift | .rightShift => .shift
  | .add | .subtract => .sum
  | .multiply | .divide | .floorDivide | .modulo | .matrixMultiply => .product
  | .power => .power

theorem open_binary (op : BinaryOperator) (hop : op ≠ .power)
    (hleft : Open (binaryLevel op) left x) (hright : Closed (binaryLevel op).next right y) :
    Open (binaryLevel op) (left ++ .binary op :: right) (.binary op x y) := by
  have hsign : ∃ r, (binaryLevel op).sign? = some r ∧ (Word.binary op).stops (binaryLevel op).next =
      true ∧ ∀ rest, Reads (.rule r) (.binary op :: rest) [.text op.symbol.toList] rest := by
    cases op with
    | power => exact absurd rfl hop
    | _ =>
      exact ⟨_, rfl, by decide, fun rest => reads_token_rule rest rfl rfl fun _ => rfl⟩
  obtain ⟨r, hr, hstops, hread⟩ := hsign
  refine Open.join hr (m := .text op.symbol.toList) hleft hright [.binary op]
    (fun rest => Word.stops_cons hstops rest) (fun rest _ => hread rest) ?_
  cases op <;> rfl

/-- The level of a logical operator. -/
def logicalLevel : LogicalOperator → Level
  | .and => .conjunction
  | .or => .disjunction

theorem open_logical {op : LogicalOperator} (hleft : Open (logicalLevel op) left x)
    (hright : Closed (logicalLevel op).next right y) :
    Open (logicalLevel op) (left ++ .logical op :: right) (.logical op x y) := by
  have hsign : ∃ r, (logicalLevel op).sign? = some r ∧
      (Word.logical op).stops (logicalLevel op).next = true ∧
      ∀ rest, Reads (.rule r) (.logical op :: rest) [.text op.symbol.toList] rest := by
    cases op <;> exact ⟨_, rfl, by decide, fun rest => reads_token_rule rest rfl rfl fun _ => rfl⟩
  obtain ⟨r, hr, hstops, hread⟩ := hsign
  refine Open.join hr (m := .text op.symbol.toList) hleft hright [.logical op]
    (fun rest => Word.stops_cons hstops rest) (fun rest _ => hread rest) ?_
  cases op <;> rfl

theorem reads_keyword (k : Keyword) {r : Rule} (hr : r.body = .lexeme (.keyword k))
    (hm : ∀ offset, Meaning.ofParts r offset [.text k.spelling.toList] =
      .ok (.text k.spelling.toList)) (rest : List Word) :
    Reads (.rule r) (.keyword k :: rest) [.text k.spelling.toList] rest := by
  have htake : r.body.take? (Word.keyword k).chars = some ⟨k.spelling.toList, []⟩ := by
    rw [hr]
    cases k <;> rfl
  refine reads_token_rule rest (by rw [hr]; rfl) htake ?_
  rw [hr]
  exact hm

/-- A comparison sign; `is` ends in front of an operand, since no operand begins with `not`. -/
theorem reads_comparisonSign (op : ComparisonOperator) {rest : List Word}
    (hrest : Starts .bitOr rest) :
    Reads (.rule .comparisonSign) (Word.comparison op ++ rest) [.comparison op] rest := by
  cases op with
  | isIn =>
    exact reads_rule (Word.reads_pruned _ (reads_either_left
      (reads_keyword .inWord rfl (fun _ => rfl) rest))) fun _ => rfl
  | isNotIn =>
    exact reads_rule (Word.reads_pruned _ (reads_either_left
      (reads_seq (reads_keyword .notWord rfl (fun _ => rfl) _)
        (reads_keyword .inWord rfl (fun _ => rfl) rest)))) fun _ => rfl
  | isNot =>
    exact reads_rule (Word.reads_pruned _ (reads_either_left
      (reads_seq (reads_keyword .isWord rfl (fun _ => rfl) _)
        (reads_keyword .notWord rfl (fun _ => rfl) rest)))) fun _ => rfl
  | is =>
    have hnot : Rejects (.rule .notWord) rest := hrest .negation (by decide) _ (.head _)
    have his : Reads (.rule .isWord) (.keyword .isWord :: rest)
        [.text Keyword.isWord.spelling.toList] rest := reads_keyword .isWord rfl (fun _ => rfl) rest
    exact reads_rule (Word.reads_pruned _ (reads_either_right
      (rejects_seq_right his hnot) his)) fun _ => rfl
  | equal | notEqual | lessThan | lessThanOrEqual | greaterThan | greaterThanOrEqual =>
    exact reads_rule (reads_either_left (reads_token rest rfl rfl)) fun _ => rfl

theorem open_compare (op : ComparisonOperator) (hleft : Open .comparison left x)
    (hright : Closed .bitOr right y) :
    Open .comparison (left ++ (Word.comparison op ++ right)) (.compare op x y) := by
  refine Open.join (m := .comparison op) rfl hleft hright (Word.comparison op) ?_ ?_ rfl
  · intro rest
    cases op <;> exact Word.stops_cons (by decide) _
  · intro rest hrest
    exact reads_comparisonSign op hrest

/-! ## Operators that look to the right -/

theorem closed_unary (op : UnaryOperator) (h : Closed .factor ws e) :
    Closed .factor (.unary op :: ws) (.unary op e) := by
  intro rest hrest
  rw [List.cons_append]
  refine ⟨?_, .expr (.unary op e), rfl, ?_⟩
  · cases op <;> exact Word.starts_cons (by decide) _
  · have hsign : Reads (.rule .unarySign) (.unary op :: (ws ++ rest)) [.text op.symbol.toList]
        (ws ++ rest) := by
      cases op <;> exact reads_token_rule _ rfl rfl fun _ => rfl
    have hoperand : Reads (.rule .factor) (ws ++ rest) [.expr e] rest := h.reads (by decide) hrest
    refine reads_rule (reads_either_left (reads_seq hsign hoperand)) fun _ => ?_
    cases op <;> rfl

theorem closed_not (h : Closed .negation ws e) :
    Closed .negation (.keyword .notWord :: ws) (.not e) := by
  intro rest hrest
  rw [List.cons_append]
  refine ⟨Word.starts_cons (by decide) _, .expr (.not e), rfl, ?_⟩
  have hoperand : Reads (.rule .negation) (ws ++ rest) [.expr e] rest := h.reads (by decide) hrest
  exact reads_rule (reads_either_left
    (reads_seq (reads_keyword .notWord rfl (fun _ => rfl) _) hoperand)) fun _ => rfl

theorem closed_power (hbase : Open .power left x) (hexponent : Closed .factor right y) :
    Closed .power (left ++ .binary .power :: right) (.binary .power x y) := by
  intro rest hrest
  rw [List.append_assoc, List.cons_append]
  obtain ⟨hstarts, hread⟩ := hbase (.binary .power :: (right ++ rest))
    (Word.stops_cons (by decide) _)
  have hsign : Reads (.rule .powerSign) (.binary .power :: (right ++ rest)) [.text ['*', '*']]
      (right ++ rest) := reads_token_rule _ rfl rfl fun _ => rfl
  have hstops : Stops .factor rest := Stops.of_next hrest rfl
  have htail := reads_seq hsign (hexponent.reads (by decide) hstops)
  exact ⟨hstarts, .expr (.binary .power x y), rfl, hread _ _ _ (reads_either_left htail) rfl⟩

/-! ## What follows an operand -/

theorem open_member (h : Open .primary ws e) (a : NameWord) :
    Open .primary (ws ++ [.dot, a.word]) (.member e a.id) := by
  intro rest hrest
  rw [List.append_assoc]
  obtain ⟨hstarts, hread⟩ := h (.dot :: a.word :: rest) (Word.stops_cons (by decide) _)
  refine ⟨hstarts, fun ms last e' hmore hcombine => ?_⟩
  have hmember : Reads (.rule .member) (.dot :: a.word :: rest) [.memberOf a.id] rest :=
    reads_rule (reads_seq (reads_token (a.word :: rest) rfl rfl) (reads_identifier a rest))
      fun _ => rfl
  exact hread _ last e' (reads_many_cons (Word.reads_pruned _ (reads_either_left hmember)) hmore)
    hcombine

theorem open_call (h : Open .primary ws e) {inner : List Word} {args : List Argument}
    (hargs : ∀ rest, Reads (.rule .arguments) (.opening :: (inner ++ .closing :: rest))
      [.callWith args] rest) :
    Open .primary (ws ++ .opening :: (inner ++ [.closing])) (.call e args) := by
  intro rest hrest
  rw [List.append_assoc, List.cons_append, List.append_assoc]
  obtain ⟨hstarts, hread⟩ := h (.opening :: (inner ++ .closing :: rest))
    (Word.stops_cons (by decide) _)
  refine ⟨hstarts, fun ms last e' hmore hcombine => ?_⟩
  exact hread _ last e' (reads_many_cons (reads_either_left (hargs rest)) hmore) hcombine

theorem clauses?_eq_none {ms : List Meaning} {args : List Argument}
    (h : Meaning.arguments? ms = some args) : Meaning.clauses? ms = none := by
  cases ms with
  | nil => rfl
  | cons m ms => cases m <;> first | rfl | cases h

/-- Arguments without clauses are themselves. -/
theorem ofArguments_eq {ms : List Meaning} {args : List Argument}
    (h : Meaning.arguments? ms = some args) (offset : Nat) :
    Meaning.ofArguments offset ms = .ok args := by
  have hrest : ∀ m rest, ms = m :: rest → Meaning.clauses? rest = none := by
    rintro m rest rfl
    cases m with
    | expr e =>
      rw [Meaning.arguments?] at h
      obtain ⟨more, hmore, -⟩ := Option.map_eq_some_iff.mp h
      exact clauses?_eq_none hmore
    | argument a =>
      rw [Meaning.arguments?] at h
      obtain ⟨more, hmore, -⟩ := Option.map_eq_some_iff.mp h
      exact clauses?_eq_none hmore
    | _ => cases h
  unfold Meaning.ofArguments
  rw [h]
  cases ms with
  | nil => rfl
  | cons m rest =>
    simp only
    rw [hrest m rest rfl]

/-- What an argument of a call is read as. -/
def argumentMeaning : Argument → Meaning
  | .positional e => .expr e
  | a => .argument a

theorem arguments?_map (as : List Argument) :
    Meaning.arguments? (as.map argumentMeaning) = some as := by
  induction as with
  | nil => rfl
  | cons a as ih =>
    rw [List.map_cons]
    cases a with
    | positional e => rw [argumentMeaning, Meaning.arguments?, ih]; rfl
    | keyword name e => rw [argumentMeaning, Meaning.arguments?, ih]; rfl; exact nofun
    | unpacked e => rw [argumentMeaning, Meaning.arguments?, ih]; rfl; exact nofun

/-- Commas between arguments are not kept. -/
theorem joined_nil (ms : List Meaning) : joined [] ms = ms := by
  induction ms with
  | nil => rfl
  | cons m ms ih => exact congrArg (m :: ·) ih

/-- Commas between items are kept, but are no items. -/
theorem items?_joined (xs : List Expr) (trailing : Bool) :
    Meaning.items? (joined [.separator] (xs.map .expr) ++
      if trailing then [.separator] else []) = some xs := by
  induction xs with
  | nil => cases trailing <;> rfl
  | cons x xs ih =>
    show (Meaning.items? (joined [.separator] (xs.map .expr) ++ _)).map (x :: ·) = _
    rw [ih]
    rfl

/-- Behind a first item that is not the only one, or has a comma behind it, a comma comes next. -/
theorem exists_separator {xs : List Expr} {trailing : Bool} (h : xs ≠ [] ∨ trailing = true) :
    ∃ more, joined [Meaning.separator] (xs.map .expr) ++
      (if trailing then [Meaning.separator] else []) = .separator :: more := by
  cases xs with
  | cons y ys => exact ⟨_, rfl⟩
  | nil =>
    rcases h with h | rfl
    · exact absurd rfl h
    · exact ⟨[], rfl⟩

/-- Items with a comma between or behind them are a tuple. -/
theorem group?_tuple {x : Expr} {xs : List Expr} {trailing : Bool}
    (h : xs ≠ [] ∨ trailing = true) :
    Meaning.group? (.expr x :: (joined [.separator] (xs.map .expr) ++
      if trailing then [.separator] else [])) = some (.tuple (x :: xs)) := by
  have hitems := items?_joined xs trailing
  obtain ⟨more, hmore⟩ := exists_separator h
  rw [hmore] at hitems ⊢
  show ((Meaning.items? (.separator :: more)).map (x :: ·)).map Expr.tuple = _
  rw [hitems]
  rfl

theorem parenthesized_tuple {x : Expr} {xs : List Expr} {trailing : Bool}
    (h : xs ≠ [] ∨ trailing = true) :
    Meaning.ofParts? .parenthesized (.expr x :: (joined [.separator] (xs.map .expr) ++
      if trailing then [.separator] else [])) = some (.expr (.tuple (x :: xs))) := by
  obtain ⟨more, hmore⟩ := exists_separator h
  have hgroup := group?_tuple (x := x) h
  rw [hmore] at hgroup ⊢
  exact congrArg (Option.map Meaning.expr) hgroup

/-- The arguments of a call, in brackets. -/
theorem reads_arguments {inner : List Word} {ms : List Meaning} {args : List Argument}
    (h : ∀ rest, Reads (inside argument (.mark ",")) (inner ++ .closing :: rest) ms
      (.closing :: rest)) (hargs : Meaning.arguments? ms = some args) (rest : List Word) :
    Reads (.rule .arguments) (.opening :: (inner ++ .closing :: rest)) [.callWith args] rest := by
  refine reads_rule (reads_bracketed (h rest)) fun offset => ?_
  show (Meaning.ofArguments offset ms).map Meaning.callWith = _
  rw [ofArguments_eq hargs]
  rfl

/-! ## The loosest constructs -/

theorem closed_conditional {body test orElse : List Word} {b t o : Expr}
    (hbody : Closed .disjunction body b) (htest : Closed .disjunction test t)
    (horElse : Closed .expression orElse o) :
    Closed .expression
      (body ++ .keyword .ifWord :: (test ++ .keyword .elseWord :: orElse))
      (.conditional t b o) := by
  intro rest hrest
  rw [List.append_assoc, List.cons_append, List.append_assoc, List.cons_append]
  have hopen : Open .expression body b := Closed.open (by decide) hbody
  obtain ⟨hstarts, hread⟩ := hopen
    (.keyword .ifWord :: (test ++ .keyword .elseWord :: (orElse ++ rest)))
    (Word.stops_cons (by decide) _)
  have hmiddle : Reads (.rule .disjunction) (test ++ .keyword .elseWord :: (orElse ++ rest))
      [.expr t] (.keyword .elseWord :: (orElse ++ rest)) :=
    htest.reads (by decide) (Word.stops_cons (by decide) _)
  have hlast : Reads (.rule .expression) (orElse ++ rest) [.expr o] rest :=
    horElse.reads (by decide) hrest
  have htail := reads_seq (reads_keyword .ifWord (r := .ifWord) rfl (fun _ => rfl) _)
    (reads_seq hmiddle
      (reads_seq (reads_keyword .elseWord (r := .elseWord) rfl (fun _ => rfl) _) hlast))
  exact ⟨hstarts, .expr (.conditional t b o), rfl, hread _ _ _ (reads_either_left htail) rfl⟩

/-- The names of some parameters, with commas between them. -/
def parameterWords : List NameWord → List Word
  | [] => []
  | a :: as => a.word :: as.flatMap fun a => [.comma, a.word]

theorem ids?_map (as : List NameWord) :
    Meaning.ids? (as.map fun a => .name a.id) = some (as.map NameWord.id) := by
  induction as with
  | nil => rfl
  | cons a as ih =>
    rw [List.map_cons, List.map_cons, Meaning.ids?, ih]
    rfl

theorem reads_parameters (a : NameWord) (as : List NameWord) (rest : List Word) :
    Reads (.rule .parameters) (parameterWords (a :: as) ++ .colon :: rest)
      [.names ((a :: as).map NameWord.id)] (.colon :: rest) := by
  have hmany : Reads (.many (.seq (.mark ",") (.rule .identifier)))
      ((as.flatMap fun a => [Word.comma, a.word]) ++ .colon :: rest)
      (as.map fun a => .name a.id) (.colon :: rest) := by
    induction as with
    | nil => exact reads_many_nil (Word.rejects _ _ (by decide))
    | cons a as ih =>
      exact reads_many_cons (reads_seq (reads_comma_mark _) (reads_identifier a _)) ih
  have hnames : Meaning.ofParts? .parameters ((a :: as).map fun a => .name a.id) =
      some (.names ((a :: as).map NameWord.id)) :=
    congrArg (Option.map Meaning.names) (ids?_map (a :: as))
  exact reads_rule (reads_seq (reads_identifier a _) hmany)
    (ofParts_of_ofParts? hnames nofun nofun)

theorem closed_lambda (as : List NameWord) (h : Closed .expression ws e) :
    Closed .expression (.keyword .lambdaWord :: (parameterWords as ++ .colon :: ws))
      (.lambda (as.map NameWord.id) e) := by
  intro rest hrest
  rw [List.cons_append, List.append_assoc, List.cons_append]
  refine ⟨Word.starts_cons (by decide) _, .expr (.lambda (as.map NameWord.id) e), rfl, ?_⟩
  have hbody : Reads (.seq (.mark ":") (.rule .expression)) (.colon :: (ws ++ rest)) [.expr e]
      rest := reads_seq (reads_token (ws ++ rest) rfl rfl) (h.reads (by decide) hrest)
  have hlambda : Reads (.rule .lambda)
      (.keyword .lambdaWord :: (parameterWords as ++ .colon :: (ws ++ rest)))
      [.expr (.lambda (as.map NameWord.id) e)] rest := by
    have hword := reads_keyword .lambdaWord (r := .lambdaWord) rfl (fun _ => rfl)
      (parameterWords as ++ .colon :: (ws ++ rest))
    cases as with
    | nil =>
      have hnone : Reads (Phrase.optional (.rule .parameters)) (.colon :: (ws ++ rest)) []
          (.colon :: (ws ++ rest)) := reads_optional_nil (Word.rejects _ _ (by decide))
      exact reads_rule (reads_seq hword (reads_seq hnone hbody)) fun _ => rfl
    | cons a as =>
      have hsome := reads_either_left (q := .nothing) (reads_parameters a as (ws ++ rest))
      exact reads_rule (reads_seq hword (reads_seq hsome hbody)) fun _ => rfl
  exact reads_rule (reads_either_left hlambda) fun _ => rfl

end Calculator.Grammar
