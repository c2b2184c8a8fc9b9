import Calculator.Proofs.Grammar.Composition

/-!
# Clauses of comprehensions

A clause is set off by white space; what it runs over and its conditions stand in brackets.

Results:
* `SpacedClause.matches_text`: a clause keeps its targets, what it runs over, and its conditions.
* `matches_clauses`: clauses in a row keep their order.
* `display?_clauses`, `ofBraces_clauses`, `ofArguments_clauses`: a part with clauses behind it is a
  comprehension, of the kind that its brackets say.
-/

namespace Calculator.Grammar

/-! ## Names and conditions -/

theorem matches_keyword (k : Keyword) {r : Rule} (hr : r.body = .lexeme (.keyword k))
    (hm : ∀ offset cs, Meaning.ofParts r offset [.text cs] = .ok (.text cs)) :
    (Phrase.rule r).Matches k.spelling [.text k.spelling.toList] := by
  have hlexed : Lexed k.spelling.toList [.keyword k] :=
    tokens?_eq_some.mp (by cases k <;> rfl)
  exact ⟨_, hlexed, derives_keyword hr hm⟩

/-- A name with white space around it. -/
structure SpacedName where
  before : Gap
  name : NameWord
  behind : Gap

/-- How a name is written. -/
def SpacedName.text (a : SpacedName) : String := a.before.text ++ a.name.id ++ a.behind.text

theorem SpacedName.matches_text (a : SpacedName) :
    (Phrase.rule .identifier).Matches a.text [.name a.name.id] :=
  (a.name.matches_id.behindGap a.before).beforeGap a.behind

/-- A condition of a clause, set off by white space. -/
structure SpacedCondition where
  before : Blank
  behindIf : Gap
  condition : Sentence

/-- How a condition is written. -/
def SpacedCondition.text (c : SpacedCondition) : String :=
  c.before.text ++ "if" ++ c.behindIf.text ++ c.condition.inBrackets

theorem SpacedCondition.matches_text (c : SpacedCondition) :
    (Phrase.rule .condition).Matches c.text [.condition c.condition.expr] := by
  have hif := (matches_keyword .ifWord (r := .ifWord) rfl fun _ _ => rfl).behindGap c.before.toGap
  have hcondition := (c.condition.matches_inBrackets .disjunction).behindGap c.behindIf
  have hends : Ends (c.behindIf.text ++ c.condition.inBrackets).toList := by
    rw [String.toList_append]
    exact c.behindIf.ends c.condition.ends_inBrackets
  rw [text, String.append_assoc]
  exact .rule (hif.seq hcondition hends) fun _ => rfl

theorem SpacedCondition.ends (c : SpacedCondition) (x : String) : Ends (c.text ++ x).toList := by
  rw [text, String.append_assoc, String.append_assoc, String.append_assoc]
  exact c.before.ends _

/-! ## Clauses -/

/-- A clause of a comprehension, set off by white space. -/
structure SpacedClause where
  before : Blank
  behindFor : Blank
  /-- There is at least one target. -/
  target : SpacedName
  targets : List SpacedName
  beforeIn : Blank
  behindIn : Gap
  iterable : Sentence
  conditions : List SpacedCondition

namespace SpacedClause

/-- The targets of a clause, with commas between them. -/
def targetText (c : SpacedClause) : String :=
  ",".intercalate ((c.target :: c.targets).map SpacedName.text)

/-- What a clause runs over, with the conditions behind it. -/
def iterableText (c : SpacedClause) : String :=
  c.behindIn.text ++ c.iterable.inBrackets ++ String.join (c.conditions.map SpacedCondition.text)

/-- How a clause is written. -/
def text (c : SpacedClause) : String :=
  c.before.text ++ "for" ++ (c.behindFor.text ++ c.targetText) ++
    (c.beforeIn.text ++ "in" ++ c.iterableText)

/-- What a clause stands for. -/
def clause (c : SpacedClause) : Clause :=
  .mk ((c.target :: c.targets).map fun a => a.name.id) c.iterable.expr
    (c.conditions.map fun d => d.condition.expr)

theorem matches_targets (c : SpacedClause) :
    (Phrase.rule .targets).Matches c.targetText
      [.names ((c.target :: c.targets).map fun a => a.name.id)] := by
  obtain ⟨hrow, hends⟩ := Phrase.Matches.row (p := .seq (.mark ",") (.rule .identifier))
    (fun a : SpacedName => a.matches_text.behindMark (s := ",") ⟨.comma, rfl, rfl⟩)
    (fun a x => by rw [String.append_assoc]; exact ends_mark rfl _) c.targets
  have hids := ids?_map ((c.target :: c.targets).map SpacedName.name)
  rw [List.map_map, List.map_map, List.map_cons, List.map_cons] at hids
  rw [targetText, List.map_cons, intercalate_comma, List.map_map]
  refine .rule (c.target.matches_text.seq hrow hends) ?_
  rw [← List.map_eq_flatMap]
  exact ofParts_of_ofParts? (congrArg (Option.map Meaning.names) hids) nofun nofun

theorem conditions?_map (es : List Expr) :
    Meaning.conditions? (es.map .condition) = some es := by
  induction es with
  | nil => rfl
  | cons e es ih =>
    rw [List.map_cons, Meaning.conditions?, ih]
    rfl

theorem matches_iterable (c : SpacedClause) :
    (Phrase.seq (.rule .disjunction) (.many (.rule .condition))).Matches c.iterableText
        (.expr c.iterable.expr :: (c.conditions.map fun d => d.condition.expr).map .condition) ∧
      Ends c.iterableText.toList := by
  obtain ⟨hrow, hends⟩ :=
    Phrase.Matches.row SpacedCondition.matches_text SpacedCondition.ends c.conditions
  rw [← List.map_eq_flatMap] at hrow
  rw [iterableText, List.map_map]
  refine ⟨((c.iterable.matches_inBrackets .disjunction).behindGap c.behindIn).seq hrow hends, ?_⟩
  rw [String.toList_append, String.toList_append]
  exact (c.behindIn.ends c.iterable.ends_inBrackets).append hends

/-- A clause is read as what it stands for. -/
theorem matches_text (c : SpacedClause) :
    (Phrase.rule .clause).Matches c.text [.clause c.clause] := by
  obtain ⟨hiterable, hends⟩ := c.matches_iterable
  have hfor := (matches_keyword .forWord (r := .forWord) rfl fun _ _ => rfl).behindGap
    c.before.toGap
  have hin := (matches_keyword .inWord (r := .inWord) rfl fun _ _ => rfl).behindGap
    c.beforeIn.toGap
  have htargets := c.matches_targets.behindGap c.behindFor.toGap
  have hendsIn : Ends (c.beforeIn.text ++ "in" ++ c.iterableText).toList := by
    rw [String.append_assoc]
    exact c.beforeIn.ends _
  have hendsFor : Ends (c.behindFor.text ++ c.targetText ++
      (c.beforeIn.text ++ "in" ++ c.iterableText)).toList := by
    rw [String.append_assoc]
    exact c.behindFor.ends _
  have hparts := hfor.seq (htargets.seq (hin.seq hiterable hends) hendsIn) hendsFor
  rw [← String.append_assoc] at hparts
  have hconditions := conditions?_map (c.conditions.map fun d => d.condition.expr)
  have hclause : Meaning.ofParts? .clause (.text Keyword.forWord.spelling.toList ::
      .names ((c.target :: c.targets).map fun a => a.name.id) ::
      .text Keyword.inWord.spelling.toList :: .expr c.iterable.expr ::
      (c.conditions.map fun d => d.condition.expr).map .condition) = some (.clause c.clause) :=
    congrArg (Option.map fun es => Meaning.clause (.mk _ _ es)) hconditions
  exact .rule hparts (ofParts_of_ofParts? hclause nofun nofun)

theorem ends (c : SpacedClause) (x : String) : Ends (c.text ++ x).toList := by
  rw [text, String.append_assoc, String.append_assoc, String.append_assoc]
  exact c.before.ends _

end SpacedClause

/-- Clauses in a row, of which there is at least one. -/
theorem matches_clauses (c : SpacedClause) (cs : List SpacedClause) :
    (Phrase.repeated (.rule .clause)).Matches (String.join ((c :: cs).map SpacedClause.text))
        (((c :: cs).map SpacedClause.clause).map .clause) ∧
      Ends (String.join ((c :: cs).map SpacedClause.text)).toList := by
  obtain ⟨hrow, hends⟩ := Phrase.Matches.row SpacedClause.matches_text SpacedClause.ends cs
  rw [← List.map_eq_flatMap] at hrow
  rw [List.map_cons, String.join_cons, List.map_map]
  exact ⟨c.matches_text.seq hrow hends, c.ends _⟩

/-- A text with clauses behind it. -/
def withClauses (x : String) (cs : List SpacedClause) : String :=
  x ++ String.join (cs.map SpacedClause.text)

/-- What stands between two brackets, if it is a part with clauses. -/
theorem matches_inside_clauses {part comma : Phrase} {x : String} {m : Meaning}
    (hx : part.Matches x [m]) (c : SpacedClause) (cs : List SpacedClause) :
    (inside part comma).Matches (withClauses x (c :: cs))
      (m :: ((c :: cs).map SpacedClause.clause).map .clause) := by
  obtain ⟨hclauses, hends⟩ := matches_clauses c cs
  exact (hx.seq hclauses.first hends).first

/-! ## Comprehensions -/

section Comprehensions

variable (c : Clause) (cs : List Clause) (e : Expr)

theorem clauses?_map : Meaning.clauses? ((c :: cs).map .clause) = some (c :: cs) := by
  induction cs generalizing c with
  | nil => rfl
  | cons d ds ih =>
    rw [List.map_cons, Meaning.clauses?, ih]
    · rfl
    · exact nofun

/-- An item with clauses behind it. -/
theorem display?_clauses (kind : ComprehensionKind) (plain? : List Meaning → Option Expr) :
    Meaning.display? kind plain? (.expr e :: (c :: cs).map .clause) =
      some (.comprehension kind e none (c :: cs)) := by
  rw [Meaning.display?, clauses?_map]

/-- An item of braces with clauses behind it. -/
theorem ofBraces_clauses (offset : Nat) (value? : Option Expr) :
    Meaning.ofBraces offset (.entry e value? :: (c :: cs).map .clause) =
      .ok (.comprehension (Meaning.bracesKind value?) e value? (c :: cs)) := by
  simp only [Meaning.ofBraces, clauses?_map]

/-- An argument with clauses behind it. -/
theorem ofArguments_clauses (offset : Nat) :
    Meaning.ofArguments offset (.expr e :: (c :: cs).map .clause) =
      .ok [.positional (.comprehension .generator e none (c :: cs))] := by
  simp only [Meaning.ofArguments, clauses?_map]

end Comprehensions

end Calculator.Grammar
