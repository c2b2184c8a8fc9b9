import Calculator.Proofs.Grammar.Constructs

/-!
# Writing an expression with few brackets

A `Term` is an expression without displays, subscripts, clauses and special arguments, with the
spelling of its numbers.  It is written with brackets only around a part whose level is looser than
the place of the part admits: the levels of precedence and the sides on which operators associate
decide where that is.

Results:
* `Term.reads`: the words of a term are read as its expression, at its level.
* `parse_render`: so the text of a term is parsed as its expression.
-/

namespace Calculator.Grammar

/-! ## Terms -/

/-- An expression that is written with operators, calls and brackets alone. -/
inductive Term where
  | number (n : NumberWord)
  | name (a : NameWord)
  | boolean (b : Bool)
  | nothing
  | unary (op : UnaryOperator) (operand : Term)
  | binary (op : BinaryOperator) (left right : Term)
  | compare (op : ComparisonOperator) (left right : Term)
  | logical (op : LogicalOperator) (left right : Term)
  | not (operand : Term)
  | conditional (test body orElse : Term)
  | lambda (params : List NameWord) (body : Term)
  | member (base : Term) (accessed : NameWord)
  | call (callee : Term) (args : List Term)

namespace Term

mutual

/-- The expression that a term stands for. -/
def toExpr : Term → Expr
  | number n => .literal (.number n.value)
  | name a => .name a.id
  | boolean b => .literal (.boolean b)
  | nothing => .literal .nothing
  | unary op operand => .unary op operand.toExpr
  | binary op left right => .binary op left.toExpr right.toExpr
  | compare op left right => .compare op left.toExpr right.toExpr
  | logical op left right => .logical op left.toExpr right.toExpr
  | not operand => .not operand.toExpr
  | conditional test body orElse => .conditional test.toExpr body.toExpr orElse.toExpr
  | lambda params body => .lambda (params.map NameWord.id) body.toExpr
  | member base accessed => .member base.toExpr accessed.id
  | call callee args => .call callee.toExpr (toArguments args)

/-- The positional arguments that some terms stand for. -/
def toArguments : List Term → List Argument
  | [] => []
  | t :: ts => .positional t.toExpr :: toArguments ts

end

/-- The level of a term. -/
def level : Term → Level
  | number _ | name _ | boolean _ | nothing => .atom
  | member _ _ | call _ _ => .primary
  | unary _ _ => .factor
  | binary op _ _ => binaryLevel op
  | compare _ _ _ => .comparison
  | not _ => .negation
  | logical op _ _ => logicalLevel op
  | conditional _ _ _ | lambda _ _ => .expression

/-- The words of a part of level `actual` where `required` is the loosest level admitted. -/
def fitted (required actual : Level) (ws : List Word) : List Word :=
  if required.rank ≤ actual.rank then ws else .opening :: (ws ++ [.closing])

/-- The loosest level of a left operand. -/
def leftLevel : BinaryOperator → Level
  | .power => .primary
  | op => binaryLevel op

/-- The loosest level of a right operand. -/
def rightLevel : BinaryOperator → Level
  | .power => .factor
  | op => (binaryLevel op).next

/-- Some words with commas between them. -/
def separated : List (List Word) → List Word
  | [] => []
  | ws :: more => ws ++ more.flatMap fun ws => .comma :: ws

mutual

/-- The words of a term, with brackets only where they are needed. -/
def render : Term → List Word
  | number n => [n.word]
  | name a => [a.word]
  | boolean true => [.keyword .trueWord]
  | boolean false => [.keyword .falseWord]
  | nothing => [.keyword .noneWord]
  | unary op operand => .unary op :: fitted .factor operand.level operand.render
  | binary op left right =>
    fitted (leftLevel op) left.level left.render ++
      .binary op :: fitted (rightLevel op) right.level right.render
  | compare op left right =>
    fitted .comparison left.level left.render ++
      (Word.comparison op ++ fitted .bitOr right.level right.render)
  | logical op left right =>
    fitted (logicalLevel op) left.level left.render ++
      .logical op :: fitted (logicalLevel op).next right.level right.render
  | not operand => .keyword .notWord :: fitted .negation operand.level operand.render
  | conditional test body orElse =>
    fitted .disjunction body.level body.render ++
      .keyword .ifWord :: (fitted .disjunction test.level test.render ++
        .keyword .elseWord :: fitted .expression orElse.level orElse.render)
  | lambda params body =>
    .keyword .lambdaWord :: (parameterWords params ++
      .colon :: fitted .expression body.level body.render)
  | member base accessed =>
    fitted .primary base.level base.render ++ [.dot, accessed.word]
  | call callee args =>
    fitted .primary callee.level callee.render ++
      .opening :: (separated (renderEach args) ++ [.closing])

/-- The words of each argument. -/
def renderEach : List Term → List (List Word)
  | [] => []
  | t :: ts => fitted .expression t.level t.render :: renderEach ts

end

end Term

/-! ## Reading what is written -/

/-- The levels at which an expression can be the first operand of another one. -/
def Level.grows (ℓ : Level) : Bool := ℓ.sign?.isSome || ℓ == .primary

/-- Words that are read as an expression at a level, also with more operands behind them if the
    level has any. -/
structure Stands (ℓ : Level) (ws : List Word) (e : Expr) : Prop where
  closed : Closed ℓ ws e
  grown : ℓ.grows = true → Open ℓ ws e

variable {ws : List Word} {e : Expr} {actual : Level}

theorem Stands.of_open {ℓ : Level} (h : Open ℓ ws e) : Stands ℓ ws e :=
  ⟨h.closed, fun _ => h⟩

theorem Stands.of_closed {ℓ : Level} (h : Closed ℓ ws e) (hℓ : ℓ.grows = false) :
    Stands ℓ ws e :=
  ⟨h, fun hgrows => absurd hgrows (by rw [hℓ]; exact Bool.false_ne_true)⟩

namespace Term

theorem expression_le_level (t : Term) : Level.expression.rank ≤ t.level.rank := by
  cases t with
  | binary op left right => cases op <;> exact Nat.le_of_ble_eq_true rfl
  | logical op left right => cases op <;> exact Nat.le_of_ble_eq_true rfl
  | _ => exact Nat.le_of_ble_eq_true rfl

/-- A part is read where it stands, since brackets make an atom of it. -/
theorem closed_fitted (required : Level) (h : Stands actual ws e)
    (hactual : Level.expression.rank ≤ actual.rank) :
    Closed required (fitted required actual ws) e := by
  rw [fitted]
  split
  · next hle => exact h.closed.loosen hle
  · have hatom : required.rank ≤ Level.atom.rank := by cases required <;> decide
    exact (closed_group (h.closed.loosen hactual)).loosen hatom

theorem open_fitted {required : Level} (hrequired : required.grows = true)
    (h : Stands actual ws e) (hactual : Level.expression.rank ≤ actual.rank) :
    Open required (fitted required actual ws) e := by
  have hatom : required.rank < Level.atom.rank := by
    cases required <;> first | decide | cases hrequired
  rw [fitted]
  split
  · next hle =>
    by_cases heq : required.rank = actual.rank
    · rw [Level.eq_of_rank_eq heq] at hrequired ⊢
      exact h.grown hrequired
    · exact h.closed.open_of_lt (by omega)
  · exact (closed_group (h.closed.loosen hactual)).open_of_lt hatom

/-- The words of each argument and what they mean. -/
def parts : List Term → List (List Word × Meaning)
  | [] => []
  | t :: ts => (fitted .expression t.level t.render, .expr t.toExpr) :: parts ts

theorem map_fst_parts (ts : List Term) : (parts ts).map Prod.fst = renderEach ts := by
  induction ts with
  | nil => rfl
  | cons t ts ih => rw [parts, List.map_cons, ih, renderEach]

theorem separated_eq (q : List Word × Meaning) (qs : List (List Word × Meaning)) :
    separated ((q :: qs).map Prod.fst) = q.1 ++ continued qs := by
  rw [List.map_cons, separated, continued, List.flatMap_map]

theorem map_snd_parts (ts : List Term) :
    (parts ts).map Prod.snd = (toArguments ts).map argumentMeaning := by
  induction ts with
  | nil => rfl
  | cons t ts ih =>
    rw [parts, List.map_cons, ih, toArguments]
    rfl

theorem reads_binary (op : BinaryOperator) {left right : Term}
    (hleft : Stands left.level left.render left.toExpr)
    (hright : Stands right.level right.render right.toExpr) :
    Stands (binary op left right).level (binary op left right).render
      (binary op left right).toExpr := by
  have hgrows : (leftLevel op).grows = true := by cases op <;> rfl
  have hfirst := open_fitted hgrows hleft left.expression_le_level
  have hlast := closed_fitted (rightLevel op) hright right.expression_le_level
  by_cases hop : op = .power
  · -- the only operator that is tighter on its left than on its right
    subst hop
    have hbase : Open .power (fitted .primary left.level left.render) left.toExpr :=
      Closed.open (by decide) hfirst.closed
    exact Stands.of_closed (closed_power hbase hlast) rfl
  · have hlevels : leftLevel op = binaryLevel op ∧ rightLevel op = (binaryLevel op).next := by
      cases op <;> first | exact ⟨rfl, rfl⟩ | exact absurd rfl hop
    rw [hlevels.1] at hfirst
    rw [hlevels.2] at hlast
    rw [render, toExpr, level, hlevels.1, hlevels.2]
    exact Stands.of_open (open_binary op hop hfirst hlast)

theorem reads_logical (op : LogicalOperator) {left right : Term}
    (hleft : Stands left.level left.render left.toExpr)
    (hright : Stands right.level right.render right.toExpr) :
    Stands (logical op left right).level (logical op left right).render
      (logical op left right).toExpr := by
  have hgrows : (logicalLevel op).grows = true := by cases op <;> rfl
  have hfirst := open_fitted hgrows hleft left.expression_le_level
  have hlast := closed_fitted (logicalLevel op).next hright right.expression_le_level
  exact Stands.of_open (open_logical hfirst hlast)

/-- The arguments of a call are read as positional ones, if each of them is. -/
theorem reads_args {ts : List Term} (h : ∀ q ∈ parts ts, Part argument q.1 q.2)
    (rest : List Word) :
    Reads (.rule .arguments) (.opening :: (separated (renderEach ts) ++ .closing :: rest))
      [.callWith (toArguments ts)] rest := by
  rw [← map_fst_parts]
  cases ts with
  | nil =>
    exact reads_arguments (fun rest => reads_inside_nil (Word.rejects _ _ (by decide))) rfl rest
  | cons t ts =>
    have hinside : ∀ rest, Reads (inside argument (.mark ","))
        (separated ((parts (t :: ts)).map Prod.fst) ++ .closing :: rest)
        ((parts (t :: ts)).map Prod.snd) (.closing :: rest) := by
      intro rest
      have hread := reads_inside reads_comma_mark (Word.rejects .closing rest (by decide))
        (Word.rejects .closing rest (by decide)) _ (parts ts) h false
      rw [if_neg Bool.false_ne_true, List.append_nil, joined_nil] at hread
      rw [parts, separated_eq, List.append_assoc]
      exact hread
    rw [map_snd_parts] at hinside
    exact reads_arguments hinside (arguments?_map _) rest

mutual

/-- The words of a term are read as its expression. -/
theorem reads : (t : Term) → Stands t.level t.render t.toExpr
  | number n => Stands.of_closed (closed_number n) rfl
  | name a => Stands.of_closed (closed_name a) rfl
  | boolean true => Stands.of_closed (closed_keyword rfl) rfl
  | boolean false => Stands.of_closed (closed_keyword rfl) rfl
  | nothing => Stands.of_closed (closed_keyword rfl) rfl
  | unary op operand =>
    have h := closed_fitted .factor (reads operand) operand.expression_le_level
    Stands.of_closed (closed_unary op h) rfl
  | binary op left right => reads_binary op (reads left) (reads right)
  | compare op left right =>
    have hleft := open_fitted (rfl : Level.comparison.grows = true) (reads left)
      left.expression_le_level
    have hright := closed_fitted .bitOr (reads right) right.expression_le_level
    Stands.of_open (open_compare op hleft hright)
  | logical op left right => reads_logical op (reads left) (reads right)
  | not operand =>
    have h := closed_fitted .negation (reads operand) operand.expression_le_level
    Stands.of_closed (closed_not h) rfl
  | conditional test body orElse =>
    have htest := closed_fitted .disjunction (reads test) test.expression_le_level
    have hbody := closed_fitted .disjunction (reads body) body.expression_le_level
    have horElse := closed_fitted .expression (reads orElse) orElse.expression_le_level
    Stands.of_closed (closed_conditional hbody htest horElse) rfl
  | lambda params body =>
    have h := closed_fitted .expression (reads body) body.expression_le_level
    Stands.of_closed (closed_lambda params h) rfl
  | member base accessed =>
    have h := open_fitted (rfl : Level.primary.grows = true) (reads base) base.expression_le_level
    Stands.of_open (open_member h accessed)
  | call callee args =>
    have h := open_fitted (rfl : Level.primary.grows = true) (reads callee)
      callee.expression_le_level
    Stands.of_open (open_call h (reads_args (reads_each args)))

/-- Each argument is read as an expression. -/
theorem reads_each : (ts : List Term) → ∀ q ∈ parts ts, Part argument q.1 q.2
  | [] => nofun
  | t :: ts => by
    have h := closed_fitted .expression (reads t) t.expression_le_level
    intro q hq
    rcases List.mem_cons.mp hq with rfl | hq
    · exact (h.loosen (by decide)).part_argument
    · exact reads_each ts q hq

end

end Term

/-- A term that is written with brackets only where they are needed is parsed as its expression. -/
theorem parse_render (t : Term) : parse (text t.render) = .ok t.toExpr := by
  have hclosed := t.reads.closed.loosen t.expression_le_level
  have hread := hclosed.reads (by decide) (stops_nil .expression)
  rw [List.append_nil] at hread
  exact parse_eq_ok hread

-- a sum is looser than a base, a sign is as tight as an exponent
example : text (Term.render (.binary .power
    (.binary .add (.name ⟨['x'], rfl⟩) (.number ⟨['1'], rfl⟩))
    (.unary .negate (.name ⟨['y'], rfl⟩)))) = "( x + 1 ) ** - y" := by decide

end Calculator.Grammar
