import Mathlib
import Calculator.Expr.OfTree

/-!
# The items of an expression

What an expression names, writes out and applies, in the order of a text: operands around an
operator, the body of a conditional before its test, the parameters of a lambda before its body,
the clauses of a comprehension behind its element.

Results:
* `Meaning.items_ofArguments`, `Meaning.items_ofBraces`: what stands in brackets keeps the items of
  its parts.
* `BinaryOperator.symbol_of_ofSymbol?`: an operator is written as it was read.
-/

namespace Calculator

/-- A name, a literal or an operator. -/
inductive Item where
  | name (id : String)
  | literal (value : Literal)
  | operator (symbol : String)

mutual

/-- The items of an expression, from left to right. -/
def Expr.items : Expr → List Item
  | .literal l => [.literal l]
  | .name id => [.name id]
  | .unary op x => .operator op.symbol :: x.items
  | .binary op l r => l.items ++ .operator op.symbol :: r.items
  | .call callee args => callee.items ++ itemsOfArguments args
  | .member base id => base.items ++ [.name id]
  | .subscript base index => base.items ++ index.items
  | .tuple es | .list es | .set es => itemsOfExprs es
  | .dict entries => itemsOfEntries entries
  | .lambda params body => params.map .name ++ body.items
  | .conditional test body orElse => body.items ++ (test.items ++ orElse.items)
  | .compare op l r => l.items ++ .operator op.symbol :: r.items
  | .logical op l r => l.items ++ .operator op.symbol :: r.items
  | .not x => .operator "not" :: x.items
  | .comprehension _ element value? clauses =>
    element.items ++ (itemsOfOptional value? ++ itemsOfClauses clauses)
  | .slice lower? upper? step? =>
    itemsOfOptional lower? ++ (itemsOfOptional upper? ++ itemsOfOptional step?)
  | .assignment target value => .name target :: value.items
  | .starred x => .operator "*" :: x.items

def Argument.items : Argument → List Item
  | .positional x => x.items
  | .keyword id x => .name id :: x.items
  | .unpacked x => .operator "**" :: x.items

def Clause.items : Clause → List Item
  | .mk targets iterable conditions =>
    targets.map .name ++ (iterable.items ++ itemsOfExprs conditions)

def itemsOfOptional : Option Expr → List Item
  | none => []
  | some x => x.items

def itemsOfExprs : List Expr → List Item
  | [] => []
  | x :: rest => x.items ++ itemsOfExprs rest

def itemsOfEntries : List (Expr × Expr) → List Item
  | [] => []
  | (key, value) :: rest => key.items ++ (value.items ++ itemsOfEntries rest)

def itemsOfArguments : List Argument → List Item
  | [] => []
  | a :: rest => a.items ++ itemsOfArguments rest

def itemsOfClauses : List Clause → List Item
  | [] => []
  | c :: rest => c.items ++ itemsOfClauses rest

end

attribute [simp] Expr.items Argument.items Clause.items itemsOfOptional itemsOfExprs itemsOfEntries
  itemsOfArguments itemsOfClauses

/-! ## Operators and their symbols -/

theorem BinaryOperator.symbol_of_ofSymbol? {s : String} {op : BinaryOperator}
    (h : ofSymbol? s = some op) : op.symbol = s := by
  unfold ofSymbol? at h
  split at h <;> cases h <;> rfl

/-! ## The items of a meaning -/

/-- The words that are no operators where a construct has them between its parts. -/
def separatingWords : List String := ["lambda", "if", "else", "for", "in"]

/-- A word or a sign is an operator unless it only separates parts. -/
def wordItems (word : String) : List Item :=
  if word ∈ separatingWords then [] else [.operator word]

namespace Meaning

/-- The items of what a part means. -/
@[simp] def items : Meaning → List Item
  | text cs => wordItems (String.ofList cs)
  | name id | memberOf id => [.name id]
  | names ids => ids.map .name
  | separator => []
  | comparison op => [.operator op.symbol]
  | expr e | condition e | upperBound e | stepBound e | indexedBy e => e.items
  | argument a => a.items
  | entry key value? => key.items ++ itemsOfOptional value?
  | clause c => c.items
  | bounds upper? step? => itemsOfOptional upper? ++ itemsOfOptional step?
  | callWith args => itemsOfArguments args

theorem items_text (word : String) : (text word.toList).items = wordItems word := by
  rw [items, String.ofList_toList]

variable {ms : List Meaning}

theorem items_ids? {ids : List String} (h : ids? ms = some ids) :
    (names ids).items = ms.flatMap items := by
  induction ms generalizing ids with
  | nil => cases h; rfl
  | cons m ms ih =>
    cases m with
    | name id =>
      obtain ⟨ids', hids, rfl⟩ := Option.map_eq_some_iff.mp h
      rw [List.flatMap_cons, ← ih hids]
      rfl
    | _ => cases h

theorem items_items? {es : List Expr} (h : items? ms = some es) :
    itemsOfExprs es = ms.flatMap items := by
  induction ms generalizing es with
  | nil => cases h; rfl
  | cons m ms ih =>
    cases m with
    | separator => exact ih h
    | expr e =>
      obtain ⟨es', hes, rfl⟩ := Option.map_eq_some_iff.mp h
      rw [itemsOfExprs, ih hes]
      rfl
    | _ => cases h

theorem items_arguments? {args : List Argument} (h : arguments? ms = some args) :
    itemsOfArguments args = ms.flatMap items := by
  induction ms generalizing args with
  | nil => cases h; rfl
  | cons m ms ih =>
    cases m with
    | argument a =>
      obtain ⟨args', hargs, rfl⟩ := Option.map_eq_some_iff.mp h
      rw [itemsOfArguments, ih hargs]
      rfl
    | expr e =>
      obtain ⟨args', hargs, rfl⟩ := Option.map_eq_some_iff.mp h
      rw [itemsOfArguments, ih hargs]
      rfl
    | _ => cases h

theorem items_conditions? {es : List Expr} (h : conditions? ms = some es) :
    itemsOfExprs es = ms.flatMap items := by
  induction ms generalizing es with
  | nil => cases h; rfl
  | cons m ms ih =>
    cases m with
    | condition e =>
      obtain ⟨es', hes, rfl⟩ := Option.map_eq_some_iff.mp h
      rw [itemsOfExprs, ih hes]
      rfl
    | _ => cases h

theorem items_clauses? {cs : List Clause} (h : clauses? ms = some cs) :
    itemsOfClauses cs = ms.flatMap items := by
  induction ms generalizing cs with
  | nil => cases h
  | cons m ms ih =>
    cases m with
    | clause c =>
      cases ms with
      | nil => cases h; rfl
      | cons m' ms =>
        obtain ⟨cs', hcs, rfl⟩ := Option.map_eq_some_iff.mp h
        rw [itemsOfClauses, ih hcs]
        rfl
    | _ => cases h

theorem items_operand? {m : Meaning} {e : Expr} (h : operand? m = some e) : e.items = m.items := by
  cases m <;> cases h <;> rfl

theorem items_follow? {m : Meaning} {x y : Expr} (h : follow? x m = some y) :
    y.items = x.items ++ m.items := by
  cases m <;> cases h <;> simp only [Expr.items, items]

theorem items_followAll? {x y : Expr} (h : followAll? x ms = some y) :
    y.items = x.items ++ ms.flatMap items := by
  induction ms generalizing x with
  | nil => cases h; simp
  | cons m ms ih =>
    obtain ⟨z, hz, hy⟩ := Option.bind_eq_some_iff.mp h
    rw [ih hy, items_follow? hz, List.flatMap_cons, List.append_assoc]

theorem items_group? {e : Expr} (h : group? ms = some e) : e.items = ms.flatMap items := by
  unfold group? at h
  split at h
  · cases h
    simp
  · obtain ⟨es, hes, rfl⟩ := Option.map_eq_some_iff.mp h
    rw [Expr.items, items_items? hes]

theorem items_list? {e : Expr} (h : (items? ms).map Expr.list = some e) :
    e.items = ms.flatMap items := by
  obtain ⟨es, hes, rfl⟩ := Option.map_eq_some_iff.mp h
  rw [Expr.items, items_items? hes]

/-- Parts in brackets, with clauses behind the first or without. -/
theorem items_display? {kind : ComprehensionKind} {plain? : List Meaning → Option Expr}
    (hplain : ∀ ms e, plain? ms = some e → e.items = ms.flatMap items) {e : Expr}
    (h : display? kind plain? ms = some e) : e.items = ms.flatMap items := by
  unfold display? at h
  split at h
  · next element rest =>
    split at h
    · next cs hcs =>
      cases h
      rw [Expr.items, items_clauses? hcs]
      rfl
    · exact hplain _ e h
  · exact hplain _ e h

/-- The arguments of a call keep the items of their parts. -/
theorem items_ofArguments {offset : Nat} {args : List Argument}
    (h : ofArguments offset ms = .ok args) : (callWith args).items = ms.flatMap items := by
  unfold ofArguments at h
  simp only at h
  split at h
  on_goal 1 => split at h
  · next cs element hcs =>
    cases h
    rw [List.flatMap_cons, ← items_clauses? hcs]
    simp
  · cases h
  -- no clauses: the parts are the arguments
  all_goals
    split at h
    · next hargs => cases h; exact items_arguments? hargs
    · cases h

theorem items_entries? {entries : List (Expr × Option Expr)} (h : entries? ms = some entries) :
    (entries.flatMap fun entry => entry.1.items ++ itemsOfOptional entry.2) =
      ms.flatMap items := by
  induction ms generalizing entries with
  | nil => cases h; rfl
  | cons m ms ih =>
    cases m with
    | entry key value? =>
      obtain ⟨entries', hentries, rfl⟩ := Option.map_eq_some_iff.mp h
      rw [List.flatMap_cons, ih hentries]
      rfl
    | _ => cases h

/-- A dict or a set keeps the items of its entries. -/
theorem items_plainBraces {offset : Nat} {entries : List (Expr × Option Expr)} {e : Expr}
    (h : plainBraces offset entries = .ok e) :
    e.items = entries.flatMap fun entry => entry.1.items ++ itemsOfOptional entry.2 := by
  unfold plainBraces at h
  split at h
  · next hall =>
    cases h
    rw [Expr.items]
    induction entries with
    | nil => rfl
    | cons entry entries ih =>
      obtain ⟨key, value?⟩ := entry
      rw [List.all_cons, Bool.and_eq_true] at hall
      obtain ⟨value, rfl⟩ := Option.isSome_iff_exists.mp hall.1
      rw [List.flatMap_cons, ← ih hall.2]
      simp
  · next hsome =>
    clear hsome
    split at h
    · next hall =>
      cases h
      rw [Expr.items]
      induction entries with
      | nil => rfl
      | cons entry entries ih =>
        obtain ⟨key, value?⟩ := entry
        rw [List.all_cons, Bool.and_eq_true] at hall
        cases Option.isNone_iff_eq_none.mp hall.1
        rw [List.flatMap_cons, ← ih hall.2]
        simp
    · cases h

/-- What stands in braces keeps the items of its parts. -/
theorem items_ofBraces {offset : Nat} {e : Expr} (h : ofBraces offset ms = .ok e) :
    e.items = ms.flatMap items := by
  unfold ofBraces at h
  simp only at h
  split at h
  on_goal 1 => split at h
  · next cs hcs =>
    cases h
    rw [Expr.items, items_clauses? hcs]
    simp
  -- no clauses: the parts are the items
  all_goals
    split at h
    · next hentries => rw [items_plainBraces h, items_entries? hentries]
    · cases h

end Meaning

end Calculator
