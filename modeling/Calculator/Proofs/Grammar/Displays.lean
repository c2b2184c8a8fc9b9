import Calculator.Proofs.Grammar.Comprehensions
import Calculator.Proofs.Grammar.Malformed
import Calculator.Proofs.Grammar.Subscripts

/-!
# Brackets keep their kind

What a pair of brackets is depends on the brackets, on how many items stand in them, on commas, on
values behind colons and on clauses, and not on what the items are.

Results:
* `parse_tuple`, `parse_list`, `parse_set`, `parse_dict`: items with commas between them.
* `parse_generator`, `parse_listComprehension`, `parse_setComprehension`,
  `parse_dictComprehension`, `Primary.parse_generatorArgument`: an item with clauses behind it.
* `parse_brackets`: all of them, together with subscripts.
-/

namespace Calculator.Grammar

/-! ## Brackets as operands -/

/-- A pair of brackets that is an operand. -/
theorem parse_bracketed {r : Rule} (hr : r ∈ [Rule.parenthesized, .list, .braces])
    {opening closing x : String} {part comma : Phrase} {ms : List Meaning} {e : Expr}
    (hbody : r.body = bracketed opening part comma closing) (hopening : Separates opening)
    (hclosing : Separates closing) (hx : (inside part comma).Matches x ms)
    (hms : ∀ offset, Meaning.ofParts r offset ms = .ok (.expr e)) :
    parse (opening ++ x ++ closing) = .ok e := by
  have hrule : (Phrase.rule r).Matches (opening ++ x ++ closing) [.expr e] :=
    .rule (hbody ▸ matches_bracketed hopening hclosing hx) hms
  have hatom : Grammar.atom.Matches (opening ++ x ++ closing) [.expr e] := by
    simp only [List.mem_cons, List.not_mem_nil, or_false] at hr
    rcases hr with rfl | rfl | rfl
    · iterate 7 refine .second ?_
      exact hrule.first
    · iterate 8 refine .second ?_
      exact hrule.first
    · iterate 9 refine .second ?_
      exact hrule
  obtain ⟨ts, hts, hderives⟩ := hatom
  exact matches_expression_iff.mp ⟨ts, hts, derives_of_atom hderives .expression⟩

section Brackets

variable {x : String} {ms : List Meaning} {e : Expr}

theorem parse_parenthesized (hx : (inside item (.rule .comma)).Matches x ms)
    (hms : Meaning.ofParts? .parenthesized ms = some (.expr e)) :
    parse ("(" ++ x ++ ")") = .ok e :=
  parse_bracketed (r := .parenthesized) (by decide) rfl ⟨.leftParen, rfl, rfl⟩
    ⟨.rightParen, rfl, rfl⟩ hx (ofParts_of_ofParts? hms nofun nofun)

theorem parse_squareBrackets (hx : (inside item (.mark ",")).Matches x ms)
    (hms : Meaning.ofParts? .list ms = some (.expr e)) : parse ("[" ++ x ++ "]") = .ok e :=
  parse_bracketed (r := .list) (by decide) rfl ⟨.leftBracket, rfl, rfl⟩
    ⟨.rightBracket, rfl, rfl⟩ hx (ofParts_of_ofParts? hms nofun nofun)

theorem parse_braces (hx : (inside (.rule .braceItem) (.mark ",")).Matches x ms)
    (hms : ∀ offset, Meaning.ofBraces offset ms = .ok e) :
    parse ("\x7b" ++ x ++ "\x7d") = .ok e := by
  refine parse_bracketed (r := .braces) (by decide) rfl ⟨.leftBrace, rfl, rfl⟩
    ⟨.rightBrace, rfl, rfl⟩ hx fun offset => ?_
  show (Meaning.ofBraces offset ms).map Meaning.expr = _
  rw [hms]
  rfl

end Brackets

/-! ## Items -/

theorem Sentence.matches_braceItem (x : Sentence) :
    (Phrase.rule .braceItem).Matches x.text [.entry x.expr none] := by
  have hitem := x.matches_text.seq (Phrase.Matches.optional_none
    (p := .seq (.mark ":") (.rule .expression))) ends_nil
  rw [String.append_empty] at hitem
  exact .rule hitem fun _ => rfl

/-- An entry of a dict, with a colon behind its key. -/
def entryText (entry : Sentence × Sentence) : String := entry.1.text ++ ":" ++ entry.2.text

theorem matches_entry (entry : Sentence × Sentence) :
    (Phrase.rule .braceItem).Matches (entryText entry)
      [.entry entry.1.expr (some entry.2.expr)] := by
  have hvalue := entry.2.matches_text.behindColon entry.2.keepsColon
  rw [entryText, String.append_assoc]
  exact .rule (entry.1.matches_text.seq hvalue.first (ends_mark rfl _)) fun _ => rfl

/-! ## Tuples and lists -/

/-- One item with a comma behind it, or at least two items. -/
theorem parse_tuple (x : Sentence) (xs : List Sentence) {trailing : Bool}
    (h : xs ≠ [] ∨ trailing = true) :
    parse ("(" ++ listed ((x :: xs).map Sentence.text) trailing ++ ")") =
      .ok (.tuple ((x :: xs).map Sentence.expr)) := by
  have hexprs : xs.map Sentence.expr ≠ [] ∨ trailing = true :=
    h.imp_left (mt List.map_eq_nil_iff.mp)
  have htuple := parenthesized_tuple (x := x.expr) hexprs
  rw [List.map_map] at htuple
  have hinside := matches_inside derives_comma Sentence.matches_item x xs trailing
  exact parse_parenthesized hinside htuple

theorem items?_map (es : List Expr) : Meaning.items? (es.map .expr) = some es := by
  induction es with
  | nil => rfl
  | cons e es ih =>
    rw [List.map_cons, Meaning.items?, ih]
    rfl

/-- Items without clauses are not a comprehension. -/
theorem display?_map (kind : ComprehensionKind) (plain? : List Meaning → Option Expr)
    (es : List Expr) : Meaning.display? kind plain? (es.map .expr) = plain? (es.map .expr) := by
  cases es with
  | nil => rfl
  | cons e es =>
    have hclauses : Meaning.clauses? (es.map .expr) = none := by cases es <;> rfl
    rw [List.map_cons, Meaning.display?, hclauses]

theorem parse_list (xs : List Sentence) (trailing : Bool) :
    parse ("[" ++ listed (xs.map Sentence.text) trailing ++ "]") =
      .ok (.list (xs.map Sentence.expr)) := by
  have hlist : Meaning.ofParts? .list ((xs.map Sentence.expr).map .expr) =
      some (.expr (.list (xs.map Sentence.expr))) := by
    show (Meaning.display? .list _ _).map Meaning.expr = _
    rw [display?_map, items?_map]
    rfl
  rw [List.map_map] at hlist
  exact parse_squareBrackets (matches_inside_mark Sentence.matches_item xs trailing) hlist

/-! ## Sets and dicts -/

theorem plainBraces_set (offset : Nat) (e : Expr) (es : List Expr) :
    Meaning.plainBraces offset ((e :: es).map fun e => (e, none)) = .ok (.set (e :: es)) := by
  rw [Meaning.plainBraces, if_neg (by simp), if_pos (by simp), List.map_map]
  exact congrArg (Except.ok ∘ Expr.set) (List.map_id (e :: es))

theorem plainBraces_dict (offset : Nat) (entries : List (Expr × Expr)) :
    Meaning.plainBraces offset (entries.map fun entry => (entry.1, some entry.2)) =
      .ok (.dict entries) := by
  rw [Meaning.plainBraces, if_pos (by simp), List.filterMap_map]
  exact congrArg (Except.ok ∘ Expr.dict) (List.filterMap_some ..)

theorem parse_set (x : Sentence) (xs : List Sentence) (trailing : Bool) :
    parse ("\x7b" ++ listed ((x :: xs).map Sentence.text) trailing ++ "\x7d") =
      .ok (.set ((x :: xs).map Sentence.expr)) := by
  refine parse_braces (matches_inside_mark Sentence.matches_braceItem (x :: xs) trailing)
    fun offset => ?_
  have hset := plainBraces_set offset x.expr (xs.map Sentence.expr)
  rw [← ofBraces_eq, ← List.map_cons, entryMeanings, List.map_map, List.map_map] at hset
  exact hset

theorem parse_dict (entries : List (Sentence × Sentence)) (trailing : Bool) :
    parse ("\x7b" ++ listed (entries.map entryText) trailing ++ "\x7d") =
      .ok (.dict (entries.map fun entry => (entry.1.expr, entry.2.expr))) := by
  refine parse_braces (matches_inside_mark matches_entry entries trailing) fun offset => ?_
  have hdict := plainBraces_dict offset (entries.map fun entry => (entry.1.expr, entry.2.expr))
  rw [← ofBraces_eq, entryMeanings, List.map_map, List.map_map] at hdict
  exact hdict

/-! ## Comprehensions -/

section Comprehensions

variable (x : Sentence) (c : SpacedClause) (cs : List SpacedClause)

theorem parse_generator :
    parse ("(" ++ withClauses x.text (c :: cs) ++ ")") =
      .ok (.comprehension .generator x.expr none ((c :: cs).map SpacedClause.clause)) :=
  parse_parenthesized (matches_inside_clauses x.matches_item c cs)
    (congrArg (Option.map Meaning.expr) (display?_clauses _ _ _ .generator _))

theorem parse_listComprehension :
    parse ("[" ++ withClauses x.text (c :: cs) ++ "]") =
      .ok (.comprehension .list x.expr none ((c :: cs).map SpacedClause.clause)) :=
  parse_squareBrackets (matches_inside_clauses x.matches_item c cs)
    (congrArg (Option.map Meaning.expr) (display?_clauses _ _ _ .list _))

theorem parse_setComprehension :
    parse ("\x7b" ++ withClauses x.text (c :: cs) ++ "\x7d") =
      .ok (.comprehension .set x.expr none ((c :: cs).map SpacedClause.clause)) :=
  parse_braces (matches_inside_clauses x.matches_braceItem c cs)
    fun offset => ofBraces_clauses _ _ _ offset none

theorem parse_dictComprehension (entry : Sentence × Sentence) :
    parse ("\x7b" ++ withClauses (entryText entry) (c :: cs) ++ "\x7d") =
      .ok (.comprehension .dict entry.1.expr (some entry.2.expr)
        ((c :: cs).map SpacedClause.clause)) :=
  parse_braces (matches_inside_clauses (matches_entry entry) c cs)
    fun offset => ofBraces_clauses _ _ _ offset (some entry.2.expr)

/-- A lone generator as the argument of a call. -/
theorem Primary.parse_generatorArgument (b : Primary) :
    parse (b.text ++ ("(" ++ withClauses x.text (c :: cs) ++ ")")) =
      .ok (.call b.expr
        [.positional (.comprehension .generator x.expr none
          ((c :: cs).map SpacedClause.clause))]) := by
  obtain ⟨m, hprimary, hm⟩ := b.matches_text
  obtain ⟨harguments, hends⟩ := matches_arguments (matches_inside_clauses x.matches_argument c cs)
    (ofArguments_clauses _ _ x.expr)
  exact parse_trailer hprimary hm harguments.first hends rfl

end Comprehensions

/-- Brackets keep their kind.  `()`, one item with a comma and several items are tuples; square
    brackets are lists; braces are dicts if they are empty or have values behind colons, and sets
    otherwise; one index stands for itself, also if it is a slice, and all others are tuples; an
    item with clauses is a comprehension of the kind of its brackets. -/
theorem parse_brackets :
    parse "()" = .ok (.tuple []) ∧
    (∀ x : Sentence, parse ("(" ++ x.text ++ ",)") = .ok (.tuple [x.expr])) ∧
    (∀ (x y : Sentence) (zs : List Sentence) (trailing : Bool),
      parse ("(" ++ listed ((x :: y :: zs).map Sentence.text) trailing ++ ")") =
        .ok (.tuple ((x :: y :: zs).map Sentence.expr))) ∧
    (∀ (xs : List Sentence) (trailing : Bool),
      parse ("[" ++ listed (xs.map Sentence.text) trailing ++ "]") =
        .ok (.list (xs.map Sentence.expr))) ∧
    parse "\x7b\x7d" = .ok (.dict []) ∧
    (∀ (entries : List (Sentence × Sentence)) (trailing : Bool),
      parse ("\x7b" ++ listed (entries.map entryText) trailing ++ "\x7d") =
        .ok (.dict (entries.map fun entry => (entry.1.expr, entry.2.expr)))) ∧
    (∀ (x : Sentence) (xs : List Sentence) (trailing : Bool),
      parse ("\x7b" ++ listed ((x :: xs).map Sentence.text) trailing ++ "\x7d") =
        .ok (.set ((x :: xs).map Sentence.expr))) ∧
    (∀ (b : Primary) (i : IndexItem),
      parse (b.text ++ "[" ++ i.text ++ "]") = .ok (.subscript b.expr i.expr)) ∧
    (∀ (b : Primary) (i : IndexItem),
      parse (b.text ++ "[" ++ i.text ++ ",]") = .ok (.subscript b.expr (.tuple [i.expr]))) ∧
    (∀ (b : Primary) (i j : IndexItem) (ks : List IndexItem) (trailing : Bool),
      parse (b.text ++ "[" ++ listed ((i :: j :: ks).map IndexItem.text) trailing ++ "]") =
        .ok (.subscript b.expr (.tuple ((i :: j :: ks).map IndexItem.expr)))) ∧
    ∀ (x : Sentence) (c : SpacedClause) (cs : List SpacedClause),
      parse ("(" ++ withClauses x.text (c :: cs) ++ ")") =
        .ok (.comprehension .generator x.expr none ((c :: cs).map SpacedClause.clause)) ∧
      parse ("[" ++ withClauses x.text (c :: cs) ++ "]") =
        .ok (.comprehension .list x.expr none ((c :: cs).map SpacedClause.clause)) ∧
      parse ("\x7b" ++ withClauses x.text (c :: cs) ++ "\x7d") =
        .ok (.comprehension .set x.expr none ((c :: cs).map SpacedClause.clause)) ∧
      (∀ value : Sentence,
        parse ("\x7b" ++ withClauses (entryText (x, value)) (c :: cs) ++ "\x7d") =
          .ok (.comprehension .dict x.expr (some value.expr)
            ((c :: cs).map SpacedClause.clause))) ∧
      ∀ b : Primary,
        parse (b.text ++ "(" ++ withClauses x.text (c :: cs) ++ ")") =
          .ok (.call b.expr [.positional (.comprehension .generator x.expr none
            ((c :: cs).map SpacedClause.clause))]) := by
  refine ⟨parse_parenthesized (x := "") .optional_none rfl, fun x => ?_,
    fun x y zs trailing => parse_tuple x (y :: zs) (.inl (List.cons_ne_nil y zs)), parse_list,
    parse_dict [] false, parse_dict, parse_set, fun b i => ?_, fun b i => ?_,
    fun b i j ks trailing => b.parse_subscript i (j :: ks) trailing, fun x c cs =>
      ⟨parse_generator x c cs, parse_listComprehension x c cs, parse_setComprehension x c cs,
        fun value => parse_dictComprehension c cs (x, value), fun b => ?_⟩⟩
  · have hparse := parse_tuple x [] (.inr rfl)
    rw [List.map_singleton, String.append_assoc, listed_single_append, ← String.append_assoc]
      at hparse
    exact hparse
  · have hparse := b.parse_subscript i [] false
    rw [List.map_singleton, listed_false, String.intercalate_singleton] at hparse
    exact hparse
  · have hparse := b.parse_subscript i [] true
    rw [List.map_singleton, String.append_assoc, listed_single_append, ← String.append_assoc]
      at hparse
    exact hparse
  · have hparse := b.parse_generatorArgument x c cs
    rwa [← String.append_assoc, ← String.append_assoc] at hparse

/-- Two names as the items of a tuple, a list and a dict, as a bound, and in a comprehension. -/
theorem parse_brackets_comprehension :
    parse "(x,)" = .ok (.tuple [.name "x"]) ∧
    parse "[x,xs,]" = .ok (.list [.name "x", .name "xs"]) ∧
    parse "\x7bx:xs\x7d" = .ok (.dict [(.name "x", .name "xs")]) ∧
    parse "xs[:x]" = .ok (.subscript (.name "xs") (.slice none (some (.name "x")) none)) ∧
    parse "[x for x in (xs) if (x)]" =
      .ok (.comprehension .list (.name "x") none [.mk ["x"] (.name "xs") [.name "x"]]) := by
  let x : NameWord := ⟨['x'], rfl⟩
  let xs : NameWord := ⟨['x', 's'], rfl⟩
  let space : Blank := ⟨⟨" ", rfl⟩, by decide⟩
  let clause : SpacedClause :=
    { before := space, behindFor := space, target := ⟨⟨"", rfl⟩, x, ⟨"", rfl⟩⟩, targets := [],
      beforeIn := space, behindIn := space.toGap, iterable := xs.sentence,
      conditions := [⟨space, space.toGap, x.sentence⟩] }
  obtain ⟨-, htuple, -, hlist, -, hdict, -, hindex, -, -, hclauses⟩ := parse_brackets
  exact ⟨htuple x.sentence, hlist [x.sentence, xs.sentence] true,
    hdict [(x.sentence, xs.sentence)] false,
    hindex (.name xs) (.slice none (some x.sentence) none false),
    (hclauses x.sentence clause []).2.1⟩

end Calculator.Grammar
