import Calculator.Proofs.Grammar.Constructs
import Calculator.Proofs.Grammar.Items

/-!
# What the body of a rule consists of

A body puts together what other rules describe.  `Phrase.Describes` says how, for any kind of pieces
that the rules take: trees where a text is recognized, tokens where it is derived.

Results:
* `Phrase.Describes.accumulate`: what holds of the pieces in a body holds of the body.
* `Rule.gives_of_body`: parts of the kinds that a rule asks for have a meaning; this leaves out
  `arguments` and `braces`.
* `Rule.gives_of_ofParts`: a node that has a meaning keeps all items of its parts, and its meaning
  is of the kind that its rule gives.
-/

namespace Calculator.Grammar

/-- What a phrase describes if rules and single lexemes, marks and signs describe what is given:
    some pieces, and what these mean. -/
def Phrase.Describes {α : Type} (Single : Phrase → List α → List Meaning → Prop)
    (R : Rule → List α → Meaning → Prop) : Phrase → List α → List Meaning → Prop
  | rule r, xs, ms => ∃ m, ms = [m] ∧ R r xs m
  | seq p q, xs, ms =>
    ∃ xs₁ xs₂ ms₁ ms₂, xs = xs₁ ++ xs₂ ∧ ms = ms₁ ++ ms₂ ∧
      p.Describes Single R xs₁ ms₁ ∧ q.Describes Single R xs₂ ms₂
  | either p q, xs, ms => p.Describes Single R xs ms ∨ q.Describes Single R xs ms
  | many p, xs, ms =>
    ∃ rows : List (List α × List Meaning), xs = rows.flatMap Prod.fst ∧
      ms = rows.flatMap Prod.snd ∧ ∀ row ∈ rows, p.Describes Single R row.1 row.2
  | p, xs, ms => Single p xs ms

/-! ## Kinds of meanings -/

/-- What a lexeme keeps of the text: a word is always spelled in the same way. -/
def Lexeme.Writes : Lexeme → List Char → Prop
  | keyword k, cs => cs = k.spelling.toList
  | _, _ => True

/-- What a single lexeme, mark or sign means; a mark is not kept. -/
def Phrase.Keeps {α : Type} : Phrase → List α → List Meaning → Prop
  | lexeme l, _, ms => ∃ cs, ms = [.text cs] ∧ l.Writes cs
  | sign ss, _, ms => ∃ s ∈ ss, ms = [.text s.toList]
  | _, xs, ms => xs = [] ∧ ms = []

/-- The kind of meanings that a rule gives. -/
def Rule.Gives (r : Rule) (m : Meaning) : Prop :=
  match r with
  | comma | endOfText => m = .separator
  | identifier => ∃ id, m = .name id
  | trueWord | falseWord | noneWord => ∃ e, m = .expr e
  | comparisonSign => ∃ op, m = .comparison op
  | parameters | targets => ∃ ids, m = .names ids
  | arguments => ∃ args, m = .callWith args
  | keywordArgument | keywordUnpacking => ∃ a, m = .argument a
  | member => ∃ id, m = .memberOf id
  | subscript => ∃ e, m = .indexedBy e
  | sliceBounds => ∃ upper? step?, m = .bounds upper? step?
  | sliceUpper => ∃ e, m = .upperBound e
  | sliceStep => ∃ e, m = .stepBound e
  | braceItem => ∃ key value?, m = .entry key value?
  | clause => ∃ c, m = .clause c
  | condition => ∃ e, m = .condition e
  | r =>
    match r.body with
    | .lexeme (.keyword k) => m = .text k.spelling.toList
    | .sign ss => ∃ s ∈ ss, m = .text s.toList
    | _ => ∃ e, m = .expr e

/-- What a phrase describes, if the rules in it give the kinds of meanings that they should. -/
def Phrase.Consists {α : Type} (p : Phrase) (xs : List α) (ms : List Meaning) : Prop :=
  p.Describes Keeps (fun r _ => r.Gives) xs ms

/-- Whether a phrase is made of some rules and some phrases that have no other phrases in them. -/
def Phrase.consistsOf (single : Phrase → Bool) (rules : Rule → Bool) : Phrase → Bool
  | rule r => rules r
  | seq p q | either p q => p.consistsOf single rules && q.consistsOf single rules
  | many p => p.consistsOf single rules
  | p => single p

/-- Whether a phrase keeps no part of the text itself. -/
def Phrase.keepsNothing : Phrase → Bool
  | lexeme _ | sign _ => false
  | _ => true

/-- Whether a phrase keeps nothing but what some rules describe. -/
def Phrase.keepsOnly (rs : List Rule) (p : Phrase) : Bool := p.consistsOf keepsNothing rs.contains

/-- What holds of nothing and of pieces in a row holds of what a phrase describes, if it holds of
    what the rules and the single phrases in it describe. -/
theorem Phrase.Describes.accumulate {α : Type} {Single : Phrase → List α → List Meaning → Prop}
    {R : Rule → List α → Meaning → Prop} {p : Phrase} {xs : List α} {ms : List Meaning}
    (h : p.Describes Single R xs ms) {single : Phrase → Bool} {rules : Rule → Bool}
    (hp : p.consistsOf single rules = true) {P : List α → List Meaning → Prop} (hnil : P [] [])
    (happend : ∀ xs ms ys ns, P xs ms → P ys ns → P (xs ++ ys) (ms ++ ns))
    (hsingle : ∀ p xs ms, single p = true → Single p xs ms → P xs ms)
    (hrule : ∀ r, rules r = true → ∀ xs m, R r xs m → P xs [m]) : P xs ms := by
  induction p generalizing xs ms with
  | rule r =>
    obtain ⟨m, rfl, hm⟩ := h
    exact hrule r hp xs m hm
  | seq p q ihp ihq =>
    obtain ⟨xs₁, xs₂, ms₁, ms₂, rfl, rfl, h₁, h₂⟩ := h
    rw [consistsOf, Bool.and_eq_true] at hp
    exact happend xs₁ ms₁ xs₂ ms₂ (ihp h₁ hp.1) (ihq h₂ hp.2)
  | either p q ihp ihq =>
    rw [consistsOf, Bool.and_eq_true] at hp
    exact h.elim (fun h => ihp h hp.1) fun h => ihq h hp.2
  | many p ih =>
    obtain ⟨rows, rfl, rfl, hrows⟩ := h
    induction rows with
    | nil => exact hnil
    | cons row rows ihrows =>
      rw [List.forall_mem_cons] at hrows
      exact happend _ _ _ _ (ih hrows.1 hp) (ihrows hrows.2)
  | _ => exact hsingle _ _ _ hp h

section Kinds

variable {α : Type} {xs : List α} {ms : List Meaning}

theorem Phrase.Keeps.forget {p : Phrase} (h : p.Keeps xs ms) : p.Keeps ([] : List α) ms := by
  cases p with
  | lexeme l => exact h
  | sign ss => exact h
  | _ => exact ⟨rfl, h.2⟩

/-- A phrase consists of what its rules give, whatever pieces it takes. -/
theorem Phrase.Describes.consists {Single : Phrase → List α → List Meaning → Prop}
    {R : Rule → List α → Meaning → Prop} {p : Phrase} (h : p.Describes Single R xs ms)
    (hsingle : ∀ p xs ms, Single p xs ms → p.Keeps ([] : List α) ms)
    (hrule : ∀ r xs m, R r xs m → r.Gives m) : p.Consists ([] : List α) ms := by
  induction p generalizing xs ms with
  | rule r =>
    obtain ⟨m, rfl, hm⟩ := h
    exact ⟨m, rfl, hrule r xs m hm⟩
  | seq p q ihp ihq =>
    obtain ⟨xs₁, xs₂, ms₁, ms₂, -, rfl, hp, hq⟩ := h
    exact ⟨[], [], ms₁, ms₂, rfl, rfl, ihp hp, ihq hq⟩
  | either p q ihp ihq => exact h.imp ihp ihq
  | many p ih =>
    obtain ⟨rows, -, rfl, hrows⟩ := h
    refine ⟨rows.map fun row => ([], row.2), by rw [List.flatMap_map]; simp,
      by simp [List.flatMap_map], ?_⟩
    simp only [List.mem_map, forall_exists_index, and_imp, forall_apply_eq_imp_iff₂]
    exact fun row hrow => ih (hrows row hrow)
  | _ => exact hsingle _ _ _ h

theorem Phrase.Keeps.none {p : Phrase} (h : p.Keeps xs ms) (hp : p.keepsNothing = true) :
    xs = [] ∧ ms = [] := by
  cases p <;> first | exact h | cases hp

/-- What holds of nothing and of pieces in a row holds of what a phrase keeps, if it holds of what
    its rules describe. -/
theorem Phrase.Describes.accumulate_kept {R : Rule → List α → Meaning → Prop} {p : Phrase}
    (h : p.Describes Keeps R xs ms) (rs : List Rule) (hp : p.keepsOnly rs = true)
    {P : List α → List Meaning → Prop} (hnil : P [] [])
    (happend : ∀ xs ms ys ns, P xs ms → P ys ns → P (xs ++ ys) (ms ++ ns))
    (hrule : ∀ r ∈ rs, ∀ xs m, R r xs m → P xs [m]) : P xs ms := by
  refine h.accumulate hp hnil happend (fun p xs ms hsingle hkeeps => ?_) fun r hr => ?_
  · obtain ⟨rfl, rfl⟩ := hkeeps.none hsingle
    exact hnil
  · exact hrule r (List.contains_iff_mem.mp hr)

/-- The meanings in a phrase are of the kinds that its rules give. -/
theorem Phrase.Consists.forall_mem {p : Phrase} (h : p.Consists xs ms) (rs : List Rule)
    (hp : p.keepsOnly rs = true) {P : Meaning → Prop} (hrs : ∀ r ∈ rs, ∀ m, r.Gives m → P m) :
    ∀ m ∈ ms, P m := by
  refine Describes.accumulate_kept h rs hp (P := fun _ ms => ∀ m ∈ ms, P m) nofun ?_ ?_
  · intro _ ms _ ns hms hns m hm
    exact (List.mem_append.mp hm).elim (hms m) (hns m)
  · intro r hr _ m hm
    simpa using hrs r hr m hm

/-! ## Parts in a row -/

theorem exists_ids? (h : ∀ m ∈ ms, ∃ id, m = .name id) : ∃ ids, Meaning.ids? ms = some ids := by
  induction ms with
  | nil => exact ⟨[], rfl⟩
  | cons m ms ih =>
    rw [List.forall_mem_cons] at h
    obtain ⟨⟨id, rfl⟩, hms⟩ := h
    obtain ⟨ids, hids⟩ := ih hms
    exact ⟨id :: ids, by rw [Meaning.ids?, hids]; rfl⟩

theorem exists_items? (h : ∀ m ∈ ms, m = .separator ∨ ∃ e, m = .expr e) :
    ∃ es, Meaning.items? ms = some es := by
  induction ms with
  | nil => exact ⟨[], rfl⟩
  | cons m ms ih =>
    rw [List.forall_mem_cons] at h
    obtain ⟨es, hes⟩ := ih h.2
    rcases h.1 with rfl | ⟨e, rfl⟩
    · exact ⟨es, by rw [Meaning.items?, hes]⟩
    · exact ⟨e :: es, by rw [Meaning.items?, hes]; rfl⟩

theorem exists_arguments? (h : ∀ m ∈ ms, (∃ a, m = .argument a) ∨ ∃ e, m = .expr e) :
    ∃ args, Meaning.arguments? ms = some args := by
  induction ms with
  | nil => exact ⟨[], rfl⟩
  | cons m ms ih =>
    rw [List.forall_mem_cons] at h
    obtain ⟨args, hargs⟩ := ih h.2
    rcases h.1 with ⟨a, rfl⟩ | ⟨e, rfl⟩
    · exact ⟨a :: args, by rw [Meaning.arguments?, hargs]; rfl⟩
    · exact ⟨.positional e :: args, by rw [Meaning.arguments?, hargs]; rfl⟩

theorem exists_conditions? (h : ∀ m ∈ ms, ∃ e, m = .condition e) :
    ∃ es, Meaning.conditions? ms = some es := by
  induction ms with
  | nil => exact ⟨[], rfl⟩
  | cons m ms ih =>
    rw [List.forall_mem_cons] at h
    obtain ⟨⟨e, rfl⟩, hms⟩ := h
    obtain ⟨es, hes⟩ := ih hms
    exact ⟨e :: es, by rw [Meaning.conditions?, hes]; rfl⟩

theorem exists_clauses? (hne : ms ≠ []) (h : ∀ m ∈ ms, ∃ c, m = .clause c) :
    ∃ cs, Meaning.clauses? ms = some cs := by
  induction ms with
  | nil => exact absurd rfl hne
  | cons m ms ih =>
    rw [List.forall_mem_cons] at h
    obtain ⟨⟨c, rfl⟩, hms⟩ := h
    cases ms with
    | nil => exact ⟨[c], rfl⟩
    | cons m' ms =>
      obtain ⟨cs, hcs⟩ := ih (List.cons_ne_nil _ _) hms
      exact ⟨c :: cs, by rw [Meaning.clauses?, hcs]; rfl; exact nofun⟩

theorem exists_followAll? (h : ∀ m ∈ ms, ∀ x, ∃ y, Meaning.follow? x m = some y) (x : Expr) :
    ∃ y, Meaning.followAll? x ms = some y := by
  induction ms generalizing x with
  | nil => exact ⟨x, rfl⟩
  | cons m ms ih =>
    rw [List.forall_mem_cons] at h
    obtain ⟨y, hy⟩ := h.1 x
    rw [Meaning.followAll?, hy]
    exact ih h.2 y

theorem exists_group? (h : ∀ m ∈ ms, m = .separator ∨ ∃ e, m = .expr e) :
    ∃ e, Meaning.group? ms = some e := by
  obtain ⟨es, hes⟩ := exists_items? h
  rw [Meaning.group?.eq_def]
  split
  · exact ⟨_, rfl⟩
  · exact ⟨_, by rw [hes]; rfl⟩

theorem exists_list? (h : ∀ m ∈ ms, m = .separator ∨ ∃ e, m = .expr e) :
    ∃ e, (Meaning.items? ms).map Expr.list = some e := by
  obtain ⟨es, hes⟩ := exists_items? h
  exact ⟨.list es, by rw [hes]; rfl⟩

/-- Two operands around one of some signs that are all binary operators. -/
theorem exists_joinBinary? {ss : List String} {m : Meaning}
    (hss : (ss.all fun s =>
      (BinaryOperator.ofSymbol? s).isSome && decide (s ∉ separatingWords)) = true)
    (hm : ∃ s ∈ ss, m = .text s.toList) (x y : Expr) :
    ∃ z, Meaning.joinBinary? x m y = some z ∧ z.items = x.items ++ (m.items ++ y.items) := by
  obtain ⟨s, hs, rfl⟩ := hm
  have hall := List.all_eq_true.mp hss s hs
  rw [Bool.and_eq_true, decide_eq_true_eq] at hall
  obtain ⟨op, hop⟩ := Option.isSome_iff_exists.mp hall.1
  refine ⟨.binary op x y, by rw [Meaning.joinBinary?, String.ofList_toList, hop]; rfl, ?_⟩
  rw [Meaning.items_text, wordItems, if_neg hall.2, ← BinaryOperator.symbol_of_ofSymbol? hop]
  rfl

/-- Two operands around the word of a logical operator. -/
theorem exists_joinLogical? {op : LogicalOperator} {k : Keyword}
    (hk : wordItems k.spelling = [.operator op.symbol]) {m : Meaning}
    (hm : m = .text k.spelling.toList) (x y : Expr) :
    ∃ z, Meaning.joinLogical? op x m y = some z ∧ z.items = x.items ++ (m.items ++ y.items) := by
  rw [hm]
  refine ⟨.logical op x y, rfl, ?_⟩
  rw [Meaning.items_text, hk]
  rfl

/-- A chain of operands has a meaning if any two operands around a sign have one, and it keeps all
    items if these do. -/
theorem exists_chain? (join? : Expr → Meaning → Expr → Option Expr) {operand sign : Rule}
    (hoperand : ∀ m, operand.Gives m → ∃ e, m = .expr e)
    (hjoin : ∀ m, sign.Gives m → ∀ x y, ∃ z, join? x m y = some z ∧
      z.items = x.items ++ (m.items ++ y.items))
    (h : (chain operand sign).Consists xs ms) :
    ∃ e, Meaning.chain? join? ms = some e ∧ e.items = ms.flatMap Meaning.items := by
  obtain ⟨_, _, _, _, -, rfl, ⟨m, rfl, hm⟩, rows, -, rfl, hrows⟩ := h
  obtain ⟨x, rfl⟩ := hoperand m hm
  rw [List.flatMap_append, List.flatMap_singleton]
  show ∃ e, Meaning.joinLeft? join? x (rows.flatMap Prod.snd) = some e ∧ e.items = x.items ++ _
  clear hm
  induction rows generalizing x with
  | nil => exact ⟨x, rfl, by simp⟩
  | cons row rows ih =>
    obtain ⟨_, _, _, _, -, hrow, ⟨s, rfl, hs⟩, ⟨m, rfl, hm⟩⟩ := hrows row (List.mem_cons_self ..)
    obtain ⟨y, rfl⟩ := hoperand m hm
    obtain ⟨z, hz, hitems⟩ := hjoin s hs x y
    obtain ⟨e, he, hitems'⟩ := ih (fun row' hrow' => hrows row' (List.mem_cons_of_mem row hrow')) z
    refine ⟨e, ?_, ?_⟩
    · rw [List.flatMap_cons, hrow]
      show (join? x s y).bind _ = _
      rw [hz]
      exact he
    · rw [hitems', hitems, List.flatMap_cons, hrow]
      simp

/-- What stands in a pair of brackets: nothing, a part with clauses, or a part and others. -/
theorem Phrase.Describes.bracketed {Single : Phrase → List α → List Meaning → Prop}
    {R : Rule → List α → Meaning → Prop}
    (hnone : ∀ p xs ms, p.keepsNothing = true → Single p xs ms → xs = [] ∧ ms = [])
    {opening closing : String} {part comma : Phrase}
    (h : (bracketed opening part comma closing).Describes Single R xs ms) :
    (xs = [] ∧ ms = []) ∨ ∃ xs₁ xs₂ ms₁ ms₂, xs = xs₁ ++ xs₂ ∧ ms = ms₁ ++ ms₂ ∧
      part.Describes Single R xs₁ ms₁ ∧
      ((Phrase.repeated (.rule .clause)).Describes Single R xs₂ ms₂ ∨
        (Phrase.seq (.many (.seq comma part)) (Phrase.optional comma)).Describes Single R
          xs₂ ms₂) := by
  obtain ⟨_, _, _, _, rfl, rfl, hopening, _, _, _, _, rfl, rfl, hinside, hclosing⟩ := h
  obtain ⟨rfl, rfl⟩ := hnone _ _ _ rfl hopening
  obtain ⟨rfl, rfl⟩ := hnone _ _ _ rfl hclosing
  simp only [List.nil_append, List.append_nil]
  rcases hinside with ⟨xs₁, xs₂, ms₁, ms₂, rfl, rfl, hparts⟩ | hnothing
  · exact .inr ⟨xs₁, xs₂, ms₁, ms₂, rfl, rfl, hparts⟩
  · exact .inl (hnone _ _ _ rfl hnothing)

theorem exists_clauses?_of_repeated (h : (Phrase.repeated (.rule .clause)).Consists xs ms) :
    ∃ cs, Meaning.clauses? ms = some cs := by
  refine exists_clauses? ?_ (h.forall_mem [.clause] rfl (by simp [Rule.Gives]))
  obtain ⟨_, _, _, _, -, rfl, ⟨m, rfl, -⟩, -⟩ := h
  exact List.cons_ne_nil _ _

theorem item_gives (h : item.Consists xs ms) : ∃ e, ms = [.expr e] := by
  rcases h with ⟨_, rfl, e, rfl⟩ | ⟨_, rfl, e, rfl⟩ | ⟨_, rfl, e, rfl⟩ <;> exact ⟨e, rfl⟩

/-- Items in a pair of brackets have a meaning, with clauses or without. -/
theorem exists_display? (kind : ComprehensionKind) {plain? : List Meaning → Option Expr}
    (hplain : ∀ ms, (∀ m ∈ ms, m = .separator ∨ ∃ e, m = .expr e) → ∃ e, plain? ms = some e)
    {opening closing : String} {comma : Phrase}
    (hcomma : comma.keepsOnly [.starred, .assignment, .expression, .comma] = true)
    (h : (bracketed opening item comma closing).Consists xs ms) :
    ∃ e, Meaning.display? kind plain? ms = some e := by
  rcases h.bracketed (fun _ _ _ hp h => h.none hp) with
    ⟨-, rfl⟩ | ⟨_, _, _, ms₂, -, rfl, hitem, hclauses | hmore⟩
  · exact hplain [] nofun
  · obtain ⟨e, rfl⟩ := item_gives hitem
    obtain ⟨cs, hcs⟩ := exists_clauses?_of_repeated hclauses
    exact ⟨.comprehension kind e none cs, by simp [Meaning.display?, hcs]⟩
  · obtain ⟨e, rfl⟩ := item_gives hitem
    have hmem : ∀ m ∈ ms₂, m = .separator ∨ ∃ e, m = .expr e := by
      refine Phrase.Consists.forall_mem hmore [.starred, .assignment, .expression, .comma] ?_ ?_
      · simp only [Phrase.keepsOnly, Phrase.optional, Phrase.consistsOf] at hcomma ⊢
        rw [hcomma]
        rfl
      · simp only [List.forall_mem_cons]
        exact ⟨fun _ => .inr, fun _ => .inr, fun _ => .inr, fun _ => .inl, nofun⟩
    obtain ⟨e', he'⟩ := hplain (.expr e :: ms₂) (List.forall_mem_cons.mpr ⟨.inr ⟨e, rfl⟩, hmem⟩)
    cases hcs : Meaning.clauses? ms₂ with
    | some cs => exact ⟨.comprehension kind e none cs, by simp [Meaning.display?, hcs]⟩
    | none => exact ⟨e', by simp [Meaning.display?, hcs, he']⟩

theorem atom_gives (h : atom.Consists xs ms) : ∃ m e, ms = [m] ∧ m.operand? = some e := by
  rcases h with ⟨_, rfl, e, rfl⟩ | ⟨_, rfl, e, rfl⟩ | ⟨_, rfl, e, rfl⟩ | ⟨_, rfl, e, rfl⟩ |
    ⟨_, rfl, e, rfl⟩ | ⟨_, rfl, e, rfl⟩ | ⟨_, rfl, id, rfl⟩ | ⟨_, rfl, e, rfl⟩ | ⟨_, rfl, e, rfl⟩ |
    ⟨_, rfl, e, rfl⟩ <;> exact ⟨_, _, rfl, rfl⟩

end Kinds

/-! ## What rules give -/

/-- Whether a rule reads a word or a sign as something else than an operator. -/
def Rule.rereads : Rule → Bool
  | trueWord | falseWord | noneWord | identifier | number | imaginary | string | comma
  | comparisonSign => true
  | _ => false

/-- What parts of a rule mean.  It is of the kind that the rule gives, and it keeps all items of the
    parts, as far as the rule takes them for what they are. -/
def Rule.Makes (r : Rule) (ms : List Meaning) (m : Meaning) : Prop :=
  Meaning.ofParts? r ms = some m ∧ r.Gives m ∧
    (r.rereads = false → m.items = ms.flatMap Meaning.items)

section Gives

variable {α : Type} {xs : List α} {ms : List Meaning}

/-- A rule for expressions makes what puts its parts together and keeps their items. -/
theorem Rule.makes_expr {r : Rule} {e? : Option Expr}
    (hparts : Meaning.ofParts? r ms = e?.map .expr) (hgives : ∀ e, r.Gives (.expr e))
    (h : ∃ e, e? = some e ∧ e.items = ms.flatMap Meaning.items) : ∃ m, r.Makes ms m := by
  obtain ⟨e, rfl, hitems⟩ := h
  exact ⟨.expr e, hparts, hgives e, fun _ => hitems⟩

/-- A row of identifiers, with or without commas. -/
theorem Rule.makes_names {r : Rule}
    (hparts : ∀ ms, Meaning.ofParts? r ms = (Meaning.ids? ms).map .names)
    (hgives : ∀ ids, r.Gives (.names ids)) (hkept : r.body.keepsOnly [.identifier] = true)
    (h : r.body.Consists xs ms) : ∃ m, r.Makes ms m := by
  have hnames : ∀ m ∈ ms, ∃ id, m = .name id := h.forall_mem [.identifier] hkept (by simp [Gives])
  obtain ⟨ids, hids⟩ := exists_ids? hnames
  exact ⟨.names ids, by rw [hparts, hids]; rfl, hgives ids, fun _ => Meaning.items_ids? hids⟩

/-- A sign of comparison may be made of two words. -/
theorem comparisonSign_makes (h : Rule.comparisonSign.body.Consists xs ms) :
    ∃ m, Rule.comparisonSign.Makes ms m := by
  rcases h with ⟨s, hs, rfl⟩ | ⟨_, _, _, _, -, rfl, ⟨_, rfl, rfl⟩, ⟨_, rfl, rfl⟩⟩ |
    ⟨_, rfl, rfl⟩ | ⟨_, _, _, _, -, rfl, ⟨_, rfl, rfl⟩, ⟨_, rfl, rfl⟩⟩ | ⟨_, rfl, rfl⟩
  · simp only [List.mem_cons, List.not_mem_nil, or_false] at hs
    rcases hs with rfl | rfl | rfl | rfl | rfl | rfl <;> exact ⟨_, rfl, ⟨_, rfl⟩, nofun⟩
  all_goals exact ⟨_, rfl, ⟨_, rfl⟩, nofun⟩

/-- An atom is followed by what each trailer makes of the expression in front of it. -/
theorem primary_makes (h : Rule.primary.body.Consists xs ms) : ∃ m, Rule.primary.Makes ms m := by
  obtain ⟨_, _, _, ms₂, -, rfl, hatom, hmore⟩ := h
  obtain ⟨m, e, rfl, hm⟩ := atom_gives hatom
  have htrailers : ∀ m ∈ ms₂, ∀ x, ∃ y, Meaning.follow? x m = some y := by
    refine Phrase.Consists.forall_mem hmore [.arguments, .member, .subscript] rfl ?_
    simp only [List.forall_mem_cons, Rule.Gives]
    refine ⟨?_, ?_, ?_, nofun⟩ <;> (rintro _ ⟨_, rfl⟩ x; exact ⟨_, rfl⟩)
  obtain ⟨e', he'⟩ := exists_followAll? htrailers e
  refine ⟨.expr e', ?_, ⟨e', rfl⟩, fun _ => ?_⟩
  · show m.operand?.bind (fun e => (Meaning.followAll? e ms₂).map Meaning.expr) = _
    rw [hm, Option.bind_some, he']
    rfl
  · rw [List.flatMap_append, List.flatMap_singleton, ← Meaning.items_operand? hm]
    exact Meaning.items_followAll? he'

/-- A clause has targets, what they are taken from, and any number of conditions. -/
theorem clause_makes (h : Rule.clause.body.Consists xs ms) : ∃ m, Rule.clause.Makes ms m := by
  obtain ⟨_, _, _, _, -, rfl, ⟨_, rfl, rfl⟩, _, _, _, _, -, rfl, ⟨_, rfl, ids, rfl⟩, _, _, _, _,
    -, rfl, ⟨_, rfl, rfl⟩, _, _, _, ms₂, -, rfl, ⟨_, rfl, e, rfl⟩, hmore⟩ := h
  have hconditions : ∀ m ∈ ms₂, ∃ e, m = .condition e :=
    Phrase.Consists.forall_mem hmore [.condition] rfl (by simp [Rule.Gives])
  obtain ⟨es, hes⟩ := exists_conditions? hconditions
  refine ⟨.clause (.mk ids e es),
    congrArg (Option.map fun cs => Meaning.clause (.mk ids e cs)) hes, ⟨_, rfl⟩, fun _ => ?_⟩
  simp [Meaning.items_conditions? hes, wordItems, separatingWords, Keyword.spelling]

/-- Parts of the kinds that a rule asks for have a meaning, which is of the kind that the rule gives
    and keeps all items of the parts. -/
theorem Rule.gives_of_body {r : Rule} (harguments : r ≠ .arguments) (hbraces : r ≠ .braces)
    (h : r.body.Consists xs ms) : ∃ m, r.Makes ms m := by
  cases r with
  | endOfText => obtain ⟨-, rfl⟩ := h; exact ⟨_, rfl, rfl, fun _ => rfl⟩
  | lambdaWord | ifWord | elseWord | forWord | orWord | andWord | notWord | inWord | isWord =>
    obtain ⟨cs, rfl, rfl⟩ := h
    exact ⟨_, rfl, rfl, fun _ => by simp⟩
  | trueWord | falseWord | noneWord | identifier | number | imaginary | string =>
    obtain ⟨cs, rfl, -⟩ := h
    exact ⟨_, rfl, ⟨_, rfl⟩, nofun⟩
  | bitOrSign | bitXorSign | bitAndSign | shiftSign | sumSign | productSign | unarySign
  | powerSign =>
    obtain ⟨s, hs, rfl⟩ := h
    exact ⟨_, rfl, ⟨s, hs, rfl⟩, fun _ => by simp⟩
  | comma => obtain ⟨s, -, rfl⟩ := h; exact ⟨_, rfl, rfl, nofun⟩
  | comparisonSign => exact comparisonSign_makes h
  | expression =>
    rcases h with ⟨_, rfl, e, rfl⟩ | ⟨_, rfl, e, rfl⟩ <;>
      exact ⟨_, rfl, ⟨e, rfl⟩, fun _ => by simp⟩
  | lambda =>
    obtain ⟨_, _, _, _, -, rfl, ⟨_, rfl, rfl⟩, _, _, _, _, -, rfl, hparameters,
      _, _, _, _, -, rfl, ⟨-, rfl⟩, ⟨_, rfl, e, rfl⟩⟩ := h
    rcases hparameters with ⟨_, rfl, ids, rfl⟩ | ⟨-, rfl⟩ <;>
      exact ⟨_, rfl, ⟨_, rfl⟩, fun _ => by simp [wordItems, separatingWords, Keyword.spelling]⟩
  | parameters | targets => exact makes_names (fun _ => rfl) (fun ids => ⟨ids, rfl⟩) rfl h
  | conditional =>
    obtain ⟨_, _, _, _, -, rfl, ⟨_, rfl, e, rfl⟩, ⟨_, _, _, _, -, rfl, ⟨_, rfl, rfl⟩, _, _, _, _, -,
      rfl, ⟨_, rfl, test, rfl⟩, _, _, _, _, -, rfl, ⟨_, rfl, rfl⟩, ⟨_, rfl, orElse, rfl⟩⟩ |
      ⟨-, rfl⟩⟩ := h
    all_goals
      exact ⟨_, rfl, ⟨_, rfl⟩, fun _ => by simp [wordItems, separatingWords, Keyword.spelling]⟩
  | disjunction =>
    have hjoined := exists_chain? (Meaning.joinLogical? .or) (fun _ => id)
      (by exact fun m hm => exists_joinLogical? rfl hm) h
    exact makes_expr rfl (fun e => ⟨e, rfl⟩) hjoined
  | conjunction =>
    have hjoined := exists_chain? (Meaning.joinLogical? .and) (fun _ => id)
      (by exact fun m hm => exists_joinLogical? rfl hm) h
    exact makes_expr rfl (fun e => ⟨e, rfl⟩) hjoined
  | comparison =>
    have hjoined := exists_chain? Meaning.joinComparison? (fun _ => id)
      (by rintro _ ⟨op, rfl⟩ x y; exact ⟨_, rfl, rfl⟩) h
    exact makes_expr rfl (fun e => ⟨e, rfl⟩) hjoined
  | bitOr | bitXor | bitAnd | shift | sum | product =>
    have hjoined := exists_chain? Meaning.joinBinary? (fun _ => id)
      (by exact fun m hm => exists_joinBinary? rfl hm) h
    exact makes_expr rfl (fun e => ⟨e, rfl⟩) hjoined
  | negation =>
    rcases h with ⟨_, _, _, _, -, rfl, ⟨_, rfl, rfl⟩, ⟨_, rfl, e, rfl⟩⟩ | ⟨_, rfl, e, rfl⟩ <;>
      exact ⟨_, rfl, ⟨_, rfl⟩, fun _ => by simp [wordItems, separatingWords, Keyword.spelling]⟩
  | factor =>
    rcases h with ⟨_, _, _, _, -, rfl, ⟨_, rfl, s, hs, rfl⟩, ⟨_, rfl, e, rfl⟩⟩ | ⟨_, rfl, e, rfl⟩
    · simp only [List.mem_cons, List.not_mem_nil, or_false] at hs
      rcases hs with rfl | rfl | rfl <;>
        exact ⟨_, rfl, ⟨_, rfl⟩, fun _ => by
          simp [wordItems, separatingWords, UnaryOperator.symbol]⟩
    · exact ⟨_, rfl, ⟨_, rfl⟩, fun _ => by simp⟩
  | power =>
    obtain ⟨_, _, _, _, -, rfl, ⟨_, rfl, e, rfl⟩, ⟨_, _, _, _, -, rfl, ⟨_, rfl, s, hs, rfl⟩,
      ⟨_, rfl, exponent, rfl⟩⟩ | ⟨-, rfl⟩⟩ := h
    · cases List.mem_singleton.mp hs
      exact ⟨_, rfl, ⟨_, rfl⟩, fun _ => by simp [wordItems, separatingWords, BinaryOperator.symbol]⟩
    · exact ⟨_, rfl, ⟨_, rfl⟩, fun _ => by simp⟩
  | primary => exact primary_makes h
  | arguments => exact absurd rfl harguments
  | keywordArgument =>
    obtain ⟨_, _, _, _, -, rfl, ⟨_, rfl, id, rfl⟩, _, _, _, _, -, rfl, ⟨-, rfl⟩, _, _, _, _, -, rfl,
      ⟨-, rfl⟩, ⟨_, rfl, e, rfl⟩⟩ := h
    exact ⟨_, rfl, ⟨_, rfl⟩, fun _ => by simp⟩
  | keywordUnpacking =>
    obtain ⟨_, _, _, _, -, rfl, ⟨s, hs, rfl⟩, ⟨_, rfl, e, rfl⟩⟩ := h
    cases List.mem_singleton.mp hs
    exact ⟨_, rfl, ⟨_, rfl⟩, fun _ => by simp [wordItems, separatingWords]⟩
  | starred =>
    obtain ⟨_, _, _, _, -, rfl, ⟨s, hs, rfl⟩, ⟨_, rfl, e, rfl⟩⟩ := h
    cases List.mem_singleton.mp hs
    exact ⟨_, rfl, ⟨_, rfl⟩, fun _ => by simp [wordItems, separatingWords]⟩
  | member =>
    obtain ⟨_, _, _, _, -, rfl, ⟨-, rfl⟩, ⟨_, rfl, id, rfl⟩⟩ := h
    exact ⟨_, rfl, ⟨_, rfl⟩, fun _ => rfl⟩
  | subscript =>
    have hmem : ∀ m ∈ ms, m = .separator ∨ ∃ e, m = .expr e :=
      h.forall_mem [.indexItem, .comma] rfl <|
        List.forall_mem_cons.mpr ⟨fun _ => .inr, List.forall_mem_cons.mpr ⟨fun _ => .inl, nofun⟩⟩
    obtain ⟨e, he⟩ := exists_group? hmem
    exact ⟨.indexedBy e, congrArg (Option.map Meaning.indexedBy) he, ⟨e, rfl⟩,
      fun _ => Meaning.items_group? he⟩
  | indexItem =>
    rcases h with ⟨_, _, _, _, -, rfl, ⟨_, rfl, e, rfl⟩, ⟨_, rfl, _, _, rfl⟩ | ⟨-, rfl⟩⟩ |
      ⟨_, rfl, _, _, rfl⟩
    all_goals exact ⟨_, rfl, ⟨_, rfl⟩, fun _ => by simp⟩
  | sliceBounds =>
    obtain ⟨_, _, _, _, -, rfl, ⟨-, rfl⟩, _, _, _, _, -, rfl, ⟨_, rfl, u, rfl⟩ | ⟨-, rfl⟩,
      ⟨_, _, _, _, -, rfl, ⟨-, rfl⟩, ⟨_, rfl, s, rfl⟩ | ⟨-, rfl⟩⟩ | ⟨-, rfl⟩⟩ := h
    all_goals exact ⟨_, rfl, ⟨_, _, rfl⟩, fun _ => by simp⟩
  | sliceUpper | sliceStep =>
    obtain ⟨_, rfl, e, rfl⟩ := h
    exact ⟨_, rfl, ⟨e, rfl⟩, fun _ => by simp⟩
  | parenthesized =>
    obtain ⟨e, he⟩ := exists_display? .generator (fun _ => exists_group?) rfl h
    exact makes_expr rfl (fun e => ⟨e, rfl⟩)
      ⟨e, he, Meaning.items_display? (fun _ _ => Meaning.items_group?) he⟩
  | list =>
    obtain ⟨e, he⟩ := exists_display? .list (fun _ => exists_list?) rfl h
    exact makes_expr rfl (fun e => ⟨e, rfl⟩)
      ⟨e, he, Meaning.items_display? (fun _ _ => Meaning.items_list?) he⟩
  | braces => exact absurd rfl hbraces
  | braceItem =>
    obtain ⟨_, _, _, _, -, rfl, ⟨_, rfl, e, rfl⟩,
      ⟨_, _, _, _, -, rfl, ⟨-, rfl⟩, ⟨_, rfl, v, rfl⟩⟩ | ⟨-, rfl⟩⟩ := h
    all_goals exact ⟨_, rfl, ⟨_, _, rfl⟩, fun _ => by simp⟩
  | assignment =>
    obtain ⟨_, _, _, _, -, rfl, ⟨_, rfl, id, rfl⟩, _, _, _, _, -, rfl, ⟨-, rfl⟩,
      ⟨_, rfl, e, rfl⟩⟩ := h
    exact ⟨_, rfl, ⟨_, rfl⟩, fun _ => by simp⟩
  | clause => exact clause_makes h
  | condition =>
    obtain ⟨_, _, _, _, -, rfl, ⟨_, rfl, rfl⟩, ⟨_, rfl, e, rfl⟩⟩ := h
    exact ⟨_, rfl, ⟨e, rfl⟩, fun _ => by simp [wordItems, separatingWords, Keyword.spelling]⟩

/-- A node that has a meaning keeps all items of its parts, and its meaning is of the kind that its
    rule gives. -/
theorem Rule.gives_of_ofParts {r : Rule} (h : r.body.Consists xs ms) {offset : Nat} {m : Meaning}
    (hm : Meaning.ofParts r offset ms = .ok m) :
    r.Gives m ∧ (r.rereads = false → m.items = ms.flatMap Meaning.items) := by
  by_cases harguments : r = .arguments
  · subst harguments
    obtain ⟨args, hargs, rfl⟩ := exists_of_map_eq_ok hm
    exact ⟨⟨args, rfl⟩, fun _ => Meaning.items_ofArguments hargs⟩
  · by_cases hbraces : r = .braces
    · subst hbraces
      obtain ⟨e, he, rfl⟩ := exists_of_map_eq_ok hm
      exact ⟨⟨e, rfl⟩, fun _ => Meaning.items_ofBraces he⟩
    · obtain ⟨m', hm', hgives⟩ := gives_of_body harguments hbraces h
      rw [ofParts_of_ofParts? hm' harguments hbraces] at hm
      cases hm
      exact hgives

end Gives

end Calculator.Grammar
