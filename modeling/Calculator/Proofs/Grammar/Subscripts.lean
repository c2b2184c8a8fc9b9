import Calculator.Proofs.Grammar.Composition

/-!
# Subscripts

An index is a text that is parsed, or a slice whose bounds are such texts.  Each bound may be left
out, and so may the second colon if there is no step.

Results:
* `Sentence.keepsColon`: a text that is parsed makes no `:=` of a colon in front of it.
* `IndexItem.matches_text`: what one index means.
* `matches_subscript`: the indices in a pair of brackets.
* `Primary.parse_subscript`: a name, or a text in brackets, with indices behind it.
-/

namespace Calculator.Grammar

/-- No expression begins with an equals sign. -/
theorem Sentence.keepsColon (x : Sentence) : KeepsColon x.text := by
  rw [KeepsColon]
  obtain ⟨hlexed, hderives⟩ := x.lexed_derives
  cases htext : x.text.toList with
  | nil =>
    intro h
    cases h
  | cons c cs =>
    intro hc
    obtain rfl := Option.some.inj hc
    rw [htext] at hlexed
    rcases hlexed.head with hspacing | ⟨y, us, hts, hy⟩ | ⟨l, chars, us, -, hstart⟩
    · exact absurd hspacing (by decide)
    · have hall : (((Phrase.rule .expression).first [.finish]).all fun k =>
          k.symbol?.all fun y => y.head != '=') = true := by decide
      have hfirst : ahead (x.tokens ++ []) ∈ (Phrase.rule .expression).first [.finish] :=
        hderives.ahead_mem predictive_expression (List.mem_singleton_self Ahead.finish)
      have hsymbol := List.all_eq_true.mp hall _ hfirst
      rw [hts, List.cons_append, ahead, Token.ahead, Symbol.symbol?_ahead, Option.all_some,
        bne_iff_ne] at hsymbol
      exact hsymbol hy
    · cases hfamily : l.family <;> rw [hfamily] at hstart <;> exact absurd hstart (by decide)

/-! ## Slices -/

/-- A bound, or nothing. -/
def boundText (x? : Option Sentence) : String := x?.elim "" Sentence.text

/-- The step of a slice behind a second colon, which may stand there also without a step. -/
def stepText : Option Sentence → (secondColon : Bool) → String
  | some x, _ => ":" ++ x.text
  | none, true => ":"
  | none, false => ""

/-- An index, or a slice with some of its bounds. -/
inductive IndexItem where
  | index (x : Sentence)
  | slice (lower? upper? step? : Option Sentence) (secondColon : Bool)

namespace IndexItem

/-- How an index is written. -/
def text : IndexItem → String
  | index x => x.text
  | slice lower? upper? step? secondColon =>
    boundText lower? ++ ":" ++ boundText upper? ++ stepText step? secondColon

/-- What an index stands for. -/
def expr : IndexItem → Expr
  | index x => x.expr
  | slice lower? upper? step? _ =>
    .slice (lower?.map Sentence.expr) (upper?.map Sentence.expr) (step?.map Sentence.expr)

end IndexItem

theorem matches_upper (upper? : Option Sentence) :
    (Phrase.optional (.rule .sliceUpper)).Matches (boundText upper?)
        (upper?.map fun x => .upperBound x.expr).toList ∧
      KeepsColon (boundText upper?) := by
  cases upper? with
  | none => exact ⟨.optional_none, keepsColon_empty⟩
  | some x => exact ⟨.first (.rule x.matches_text fun _ => rfl), x.keepsColon⟩

theorem matches_step (step? : Option Sentence) (secondColon : Bool) :
    (Phrase.optional (.seq (.mark ":") (.optional (.rule .sliceStep)))).Matches
        (stepText step? secondColon) (step?.map fun x => .stepBound x.expr).toList ∧
      Ends (stepText step? secondColon).toList ∧ KeepsColon (stepText step? secondColon) := by
  cases step? with
  | some x =>
    have hstep : (Phrase.optional (.rule .sliceStep)).Matches x.text [.stepBound x.expr] :=
      .first (.rule x.matches_text fun _ => rfl)
    exact ⟨.first (hstep.behindColon x.keepsColon), ends_mark rfl _, keepsColon_colon _⟩
  | none =>
    cases secondColon with
    | true =>
      exact ⟨.first (.behindColon keepsColon_empty .optional_none), ends_cons [] rfl,
        keepsColon_colon ""⟩
    | false => exact ⟨.optional_none, ends_nil, keepsColon_empty⟩

/-- What stands behind the lower bound of a slice. -/
theorem matches_bounds (upper? step? : Option Sentence) (secondColon : Bool) :
    (Phrase.rule .sliceBounds).Matches (":" ++ (boundText upper? ++ stepText step? secondColon))
      [.bounds (upper?.map Sentence.expr) (step?.map Sentence.expr)] := by
  obtain ⟨hupper, hkeeps⟩ := matches_upper upper?
  obtain ⟨hstep, hends, hkeeps'⟩ := matches_step step? secondColon
  refine .rule ((hupper.seq hstep hends).behindColon (hkeeps.append hkeeps')) fun offset => ?_
  cases upper? <;> cases step? <;> rfl

/-- An index is read as what it stands for. -/
theorem IndexItem.matches_text (i : IndexItem) :
    (Phrase.rule .indexItem).Matches i.text [.expr i.expr] := by
  cases i with
  | index x =>
    have hindex := x.matches_text.seq (Phrase.Matches.optional_none (p := .rule .sliceBounds))
      ends_nil
    rw [String.append_empty] at hindex
    exact .rule hindex.first fun _ => rfl
  | slice lower? upper? step? secondColon =>
    have hbounds := matches_bounds upper? step? secondColon
    rw [text, String.append_assoc, String.append_assoc]
    cases lower? with
    | none =>
      rw [boundText, Option.elim_none, String.empty_append]
      exact .rule hbounds.second fun _ => rfl
    | some x =>
      exact .rule (x.matches_text.seq hbounds.first (ends_mark rfl _)).first fun _ => rfl

/-! ## Indices in brackets -/

/-- The index that some items are: one without a comma stands for itself. -/
def indexOf : (items : List Expr) → (trailing : Bool) → Expr
  | [e], false => e
  | es, _ => .tuple es

theorem group?_indexOf (e : Expr) (es : List Expr) (trailing : Bool) :
    Meaning.group? (.expr e :: (joined [.separator] (es.map .expr) ++
      if trailing then [.separator] else [])) = some (indexOf (e :: es) trailing) := by
  cases es with
  | cons e' es => exact group?_tuple (.inl (List.cons_ne_nil e' es))
  | nil =>
    cases trailing with
    | true => rfl
    | false => rfl

/-- Indices with commas between them, in brackets. -/
theorem matches_subscript (i : IndexItem) (is : List IndexItem) (trailing : Bool) :
    (Phrase.rule .subscript).Matches
      ("[" ++ listed ((i :: is).map IndexItem.text) trailing ++ "]")
      [.indexedBy (indexOf ((i :: is).map IndexItem.expr) trailing)] := by
  have hclosing : Separates "]" := ⟨.rightBracket, rfl, rfl⟩
  obtain ⟨hmore, hends⟩ := matches_listedBehind derives_comma IndexItem.matches_text is trailing
  have hrest : Ends (listedBehind (is.map IndexItem.text) trailing ++ "]").toList := by
    rw [String.toList_append]
    exact hends.append hclosing.ends
  have hitems := i.matches_text.seq (hmore.beforeMark hclosing).assoc hrest
  have hindices := hitems.behindMark (s := "[") ⟨.leftBracket, rfl, rfl⟩
  have hgroup := group?_indexOf i.expr (is.map IndexItem.expr) trailing
  rw [List.map_map] at hgroup
  rw [List.map_cons, listed_cons, String.append_assoc, String.append_assoc]
  exact .rule hindices
    (ofParts_of_ofParts? (congrArg (Option.map Meaning.indexedBy) hgroup) nofun nofun)

/-! ## What indices stand behind -/

/-- A name, or a text in brackets. -/
inductive Primary where
  | name (a : NameWord)
  | group (x : Sentence)

namespace Primary

/-- How a primary is written. -/
def text : Primary → String
  | name a => a.id
  | group x => x.inBrackets

/-- What a primary stands for. -/
def expr : Primary → Expr
  | name a => .name a.id
  | group x => x.expr

theorem matches_text (b : Primary) :
    ∃ m, Grammar.atom.Matches b.text [m] ∧ m.operand? = some b.expr := by
  cases b with
  | name a => exact ⟨.name a.id, a.matches_atom, rfl⟩
  | group x => exact ⟨.expr x.expr, x.matches_inBrackets .atom, rfl⟩

/-- A primary with indices behind it. -/
theorem parse_subscript (b : Primary) (i : IndexItem) (is : List IndexItem) (trailing : Bool) :
    parse (b.text ++ "[" ++ listed ((i :: is).map IndexItem.text) trailing ++ "]") =
      .ok (.subscript b.expr (indexOf ((i :: is).map IndexItem.expr) trailing)) := by
  obtain ⟨m, hprimary, hm⟩ := b.matches_text
  have hends :
      Ends ("[" ++ listed ((i :: is).map IndexItem.text) trailing ++ "]").toList := by
    rw [String.append_assoc]
    exact ends_mark rfl _
  have hparse := parse_trailer hprimary hm (matches_subscript i is trailing).second.second hends rfl
  rwa [← String.append_assoc, ← String.append_assoc] at hparse

end Primary

end Calculator.Grammar
