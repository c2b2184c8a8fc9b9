import Calculator.Proofs.Grammar.Brackets
import Calculator.Proofs.Grammar.Shapes
import Calculator.Proofs.Grammar.Tokenwise

/-!
# Texts without an expression

The grammar admits two constructs that have no meaning: clauses behind an argument that is not
positional, and braces in which only some items have a value.  A text that is recognized is an
expression unless it holds one of them, and then the one that closes first is to blame.

Results:
* `Bracket.ofParts_or_offends`: parts that have a meaning make up a node that has one, unless the
  node offends.
* `Phrase.Yields.settled`: what a phrase takes has a meaning, or the offence that closes first is
  found.
* `parse_of_recognized`: a text that is recognized is an expression, or it is malformed where its
  first offence opens.
-/

namespace Calculator.Grammar

/-! ## Offences -/

/-- Whether a tree is an argument with a name or an unpacked mapping. -/
def Tree.isKeyword : Tree → Bool
  | .node .keywordArgument _ _ | .node .keywordUnpacking _ _ => true
  | _ => false

/-- Whether a tree is a clause of a comprehension. -/
def Tree.isClause : Tree → Bool
  | .node .clause _ _ => true
  | _ => false

/-- For an item of braces, whether a value stands behind its key. -/
def Tree.hasValue? : Tree → Option Bool
  | .node .braceItem _ parts => some (decide (parts.length = 2))
  | _ => none

/-- What is wrong with a bracket: in a call, a clause follows an argument that is not positional;
    in braces without clauses, one item has a value and another one has none. -/
inductive Bracket.Offends (b : Bracket) : SyntaxFault → Prop
  | generatorArgument {before after : List Tree} {a c : Tree} :
      b.rule = .arguments → b.parts = before ++ a :: c :: after → a.isKeyword = true →
      c.isClause = true → Offends b .generatorArgument
  | mixedBraces {x y : Tree} :
      b.rule = .braces → (∀ t ∈ b.parts, t.isClause = false) → x ∈ b.parts →
      x.hasValue? = some true → y ∈ b.parts → y.hasValue? = some false → Offends b .mixedBraces

theorem Bracket.Offends.congr {b b' : Bracket} {fault : SyntaxFault} (h : b.Offends fault)
    (hrule : b'.rule = b.rule) (hparts : b'.parts = b.parts) : b'.Offends fault := by
  cases h with
  | generatorArgument hb hbparts ha hc =>
    exact .generatorArgument (hrule.trans hb) (hparts.trans hbparts) ha hc
  | mixedBraces hb hclauses hx hx' hy hy' =>
    rw [← hparts] at hclauses hx hy
    exact .mixedBraces (hrule.trans hb) hclauses hx hx' hy hy'

theorem Bracket.Offends.body {b : Bracket} {fault : SyntaxFault} (h : b.Offends fault) :
    ∃ opening part comma closing, b.rule.body = bracketed opening part comma closing := by
  cases h with
  | generatorArgument hb => exact ⟨_, _, _, _, by rw [hb]; rfl⟩
  | mixedBraces hb => exact ⟨_, _, _, _, by rw [hb]; rfl⟩

/-- No bracket that a phrase takes from a text offends. -/
def Phrase.Sound (p : Phrase) (c : Cursor) : Prop :=
  ∀ b fault, p.Holds c b → ¬ b.Offends fault

/-- A bracket that a phrase takes from a text offends, and closes before every other one that
    does. -/
structure Phrase.FirstOffence (p : Phrase) (c : Cursor) (b : Bracket) (fault : SyntaxFault) :
    Prop where
  holds : p.Holds c b
  offends : b.Offends fault
  first : ∀ b' fault', p.Holds c b' → b'.Offends fault' →
    b' = b ∨ b.closing.offset < b'.closing.offset

/-! ## What the nodes of a tree show -/

/-- What the node of a rule means; the node of an item of braces shows whether it has a value. -/
def Rule.Shows (r : Rule) (xs : List Tree) (m : Meaning) : Prop :=
  r.Gives m ∧ ∃ offset parts, xs = [.node r offset parts] ∧
    ∀ key value?, m = .entry key value? →
      (Tree.node r offset parts).hasValue? = some value?.isSome

theorem Rule.eq_braceItem_of_gives {r : Rule} {key : Expr} {value? : Option Expr}
    (h : r.Gives (.entry key value?)) : r = .braceItem := by
  cases r <;> first
    | rfl
    | (rcases h with ⟨⟩; done)
    | (rcases h with ⟨_, ⟨⟩⟩; done)
    | rcases h with ⟨_, _, ⟨⟩⟩

section Nodes

variable {r : Rule} {xs parts : List Tree} {ms : List Meaning}

theorem Phrase.Describes.gives {p : Phrase} (h : p.Describes Keeps Rule.Shows xs ms) :
    p.Consists ([] : List Tree) ms :=
  h.consists (fun _ _ _ => Keeps.forget) fun _ _ _ h => h.1

/-- The node of a rule whose parts always have a meaning. -/
theorem Rule.shows_of_body (harguments : r ≠ .arguments) (hbraces : r ≠ .braces)
    (h : r.body.Describes Phrase.Keeps Rule.Shows parts ms) (offset : Nat) :
    ∃ m, Meaning.ofParts? r ms = some m ∧ r.Shows [.node r offset parts] m := by
  obtain ⟨m, hm, hgives, -⟩ := gives_of_body harguments hbraces h.gives
  refine ⟨m, hm, hgives, offset, parts, rfl, ?_⟩
  rintro key value? rfl
  cases eq_braceItem_of_gives hgives
  obtain ⟨_, _, _, _, rfl, rfl, ⟨_, rfl, ⟨e, rfl⟩, _, _, rfl, -⟩,
    ⟨_, _, _, _, rfl, rfl, ⟨rfl, rfl⟩, ⟨_, rfl, ⟨v, rfl⟩, _, _, rfl, -⟩⟩ | ⟨rfl, rfl⟩⟩ := h
  all_goals cases hm; rfl

end Nodes

/-! ## Arguments -/

section Arguments

variable {xs : List Tree} {ms : List Meaning}

/-- A call in which each argument is positional, or in which there is no clause. -/
theorem Bracket.not_offends_of_arguments {b : Bracket} (hrule : b.rule = .arguments)
    (h : (∀ t ∈ b.parts, t.isKeyword = false) ∨ ∀ t ∈ b.parts, t.isClause = false)
    (fault : SyntaxFault) : ¬ b.Offends fault := by
  intro hoffends
  cases hoffends with
  | @generatorArgument _ _ a c _ hparts ha hc =>
    rcases h with h | h
    · have hfalse := h a (by simp [hparts])
      rw [ha] at hfalse
      cases hfalse
    · have hfalse := h c (by simp [hparts])
      rw [hc] at hfalse
      cases hfalse
  | mixedBraces hbraces => rw [hrule] at hbraces; cases hbraces

/-- The trees of clauses, of which there is one at least. -/
theorem exists_clauses_of_repeated
    (h : (Phrase.repeated (.rule .clause)).Describes Phrase.Keeps Rule.Shows xs ms) :
    ∃ c more, xs = c :: more ∧ ∀ t ∈ xs, t.isClause = true ∧ t.isKeyword = false := by
  have hall : ∀ t ∈ xs, t.isClause = true ∧ t.isKeyword = false := by
    refine h.accumulate_kept [.clause] rfl
      (P := fun xs _ => ∀ t ∈ xs, t.isClause = true ∧ t.isKeyword = false) nofun ?_ ?_
    · exact fun xs _ ys _ hxs hys t ht => (List.mem_append.mp ht).elim (hxs t) (hys t)
    · rintro r hr _ m ⟨-, offset, parts, rfl, -⟩
      cases List.mem_singleton.mp hr
      simp [Tree.isClause, Tree.isKeyword]
  obtain ⟨_, _, _, _, rfl, -, ⟨_, -, -, _, _, rfl, -⟩, -⟩ := h
  exact ⟨_, _, rfl, hall⟩

/-- An argument is no clause; it is positional unless it is a keyword. -/
theorem argument_shows (h : argument.Describes Phrase.Keeps Rule.Shows xs ms) :
    ∃ t m, xs = [t] ∧ ms = [m] ∧ t.isClause = false ∧
      ((t.isKeyword = true ∧ ∃ a, m = .argument a) ∨
        (t.isKeyword = false ∧ ∃ e, m = .expr e)) := by
  rcases h with ⟨m, rfl, hm, _, _, rfl, -⟩ | ⟨m, rfl, hm, _, _, rfl, -⟩ |
    ⟨m, rfl, hm, _, _, rfl, -⟩ | ⟨m, rfl, hm, _, _, rfl, -⟩ | ⟨m, rfl, hm, _, _, rfl, -⟩
  · exact ⟨_, m, rfl, rfl, rfl, .inl ⟨rfl, hm⟩⟩
  · exact ⟨_, m, rfl, rfl, rfl, .inr ⟨rfl, hm⟩⟩
  · exact ⟨_, m, rfl, rfl, rfl, .inl ⟨rfl, hm⟩⟩
  · exact ⟨_, m, rfl, rfl, rfl, .inr ⟨rfl, hm⟩⟩
  · exact ⟨_, m, rfl, rfl, rfl, .inr ⟨rfl, hm⟩⟩

/-- Further arguments are no clauses. -/
theorem arguments_show
    (h : (Phrase.seq (.many (.seq (.mark ",") argument)) (Phrase.optional (.mark ","))).Describes
      Phrase.Keeps Rule.Shows xs ms) :
    (∀ t ∈ xs, t.isClause = false) ∧ ∀ m ∈ ms, (∃ a, m = .argument a) ∨ ∃ e, m = .expr e := by
  refine h.accumulate_kept
    [.keywordUnpacking, .starred, .keywordArgument, .assignment, .expression] rfl
    (P := fun xs ms => (∀ t ∈ xs, t.isClause = false) ∧
      ∀ m ∈ ms, (∃ a, m = .argument a) ∨ ∃ e, m = .expr e) ⟨nofun, nofun⟩ ?_ ?_
  · simp only [List.forall_mem_append]
    exact fun _ _ _ _ h h' => ⟨⟨h.1, h'.1⟩, h.2, h'.2⟩
  · rintro r hr _ m ⟨hm, offset, parts, rfl, -⟩
    simp only [List.mem_cons, List.not_mem_nil, or_false] at hr
    rw [List.forall_mem_singleton, List.forall_mem_singleton]
    rcases hr with rfl | rfl | rfl | rfl | rfl
    · exact ⟨rfl, .inl hm⟩
    · exact ⟨rfl, .inr hm⟩
    · exact ⟨rfl, .inl hm⟩
    · exact ⟨rfl, .inr hm⟩
    · exact ⟨rfl, .inr hm⟩

/-- Arguments have a meaning unless they offend. -/
theorem ofArguments_or_offends {b : Bracket}
    (h : b.rule.body.Describes Phrase.Keeps Rule.Shows b.parts ms) (hrule : b.rule = .arguments)
    (offset : Nat) :
    (∃ args, Meaning.ofArguments offset ms = .ok args ∧ ∀ fault, ¬ b.Offends fault) ∨
      (Meaning.ofArguments offset ms = .error (.generatorArgument offset) ∧
        b.Offends .generatorArgument) := by
  rw [hrule] at h
  rcases h.bracketed (fun _ _ _ hp h => h.none hp) with
    ⟨hparts, rfl⟩ | ⟨_, xs₂, _, ms₂, hparts, rfl, hargument, hclauses | hmore⟩
  · have hnone : ∀ t ∈ b.parts, t.isClause = false := by simp [hparts]
    exact .inl ⟨[], rfl, Bracket.not_offends_of_arguments hrule (.inr hnone)⟩
  · obtain ⟨t, m, rfl, rfl, -, hm⟩ := argument_shows hargument
    obtain ⟨cs, hcs⟩ := exists_clauses?_of_repeated hclauses.gives
    obtain ⟨c, more, rfl, hall⟩ := exists_clauses_of_repeated hclauses
    rcases hm with ⟨hkeyword, a, rfl⟩ | ⟨hkeyword, e, rfl⟩
    · have hparts' : b.parts = [] ++ t :: c :: more := hparts
      have hc := (hall c (List.mem_cons_self ..)).1
      exact .inr ⟨by simp [Meaning.ofArguments, hcs], .generatorArgument hrule hparts' hkeyword hc⟩
    · have hpositional : ∀ t ∈ b.parts, t.isKeyword = false := by
        rw [hparts, List.singleton_append, List.forall_mem_cons]
        exact ⟨hkeyword, fun t ht => (hall t ht).2⟩
      refine .inl ⟨[.positional (.comprehension .generator e none cs)], ?_,
        Bracket.not_offends_of_arguments hrule (.inl hpositional)⟩
      simp [Meaning.ofArguments, hcs]
  · obtain ⟨t, m, rfl, rfl, hclause, hm⟩ := argument_shows hargument
    obtain ⟨hclauses, hms⟩ := arguments_show hmore
    have hm' : (∃ a, m = .argument a) ∨ ∃ e, m = .expr e := hm.imp (·.2) (·.2)
    have hnone : ∀ t ∈ b.parts, t.isClause = false := by
      rw [hparts, List.singleton_append, List.forall_mem_cons]
      exact ⟨hclause, hclauses⟩
    obtain ⟨args, hargs⟩ := exists_arguments? (List.forall_mem_cons.mpr ⟨hm', hms⟩)
    exact .inl ⟨args, ofArguments_eq hargs offset,
      Bracket.not_offends_of_arguments hrule (.inr hnone)⟩

end Arguments

/-! ## Braces -/

section Braces

variable {xs : List Tree} {ms : List Meaning}

/-- Items of braces. -/
def entryMeanings (items : List (Expr × Option Expr)) : List Meaning :=
  items.map fun item => .entry item.1 item.2

theorem entries?_map (items : List (Expr × Option Expr)) :
    Meaning.entries? (entryMeanings items) = some items := by
  induction items with
  | nil => rfl
  | cons item items ih =>
    show (Meaning.entries? (entryMeanings items)).map (item :: ·) = _
    rw [ih]
    rfl

/-- Braces without clauses. -/
theorem ofBraces_eq (offset : Nat) (items : List (Expr × Option Expr)) :
    Meaning.ofBraces offset (entryMeanings items) = Meaning.plainBraces offset items := by
  cases items with
  | nil => rfl
  | cons item items =>
    have hclauses : Meaning.clauses? (entryMeanings items) = none := by
      cases items <;> rfl
    have hentries := entries?_map (item :: items)
    rw [entryMeanings, List.map_cons, ← entryMeanings] at hentries ⊢
    simp only [Meaning.ofBraces, hclauses, hentries]

/-- The nodes of items show which of them have a value. -/
def BraceItems (xs : List Tree) (ms : List Meaning) : Prop :=
  ∃ items, ms = entryMeanings items ∧ xs.map Tree.hasValue? = items.map (some ·.2.isSome)

theorem BraceItems.append {ys : List Tree} {ns : List Meaning} (h : BraceItems xs ms)
    (h' : BraceItems ys ns) :
    BraceItems (xs ++ ys) (ms ++ ns) := by
  obtain ⟨items, rfl, hxs⟩ := h
  obtain ⟨items', rfl, hys⟩ := h'
  exact ⟨items ++ items', by simp [entryMeanings], by simp [hxs, hys]⟩

theorem item_shows {r : Rule} (hr : r ∈ [Rule.braceItem]) {m : Meaning} (h : r.Shows xs m) :
    BraceItems xs [m] := by
  obtain ⟨hm, offset, parts, rfl, hvalue⟩ := h
  cases List.mem_singleton.mp hr
  obtain ⟨key, value?, rfl⟩ := hm
  exact ⟨[(key, value?)], rfl, by simp [hvalue key value? rfl]⟩

theorem items_show
    (h : (Phrase.seq (.many (.seq (.mark ",") (.rule .braceItem)))
      (Phrase.optional (.mark ","))).Describes Phrase.Keeps Rule.Shows xs ms) : BraceItems xs ms :=
  h.accumulate_kept [.braceItem] rfl ⟨[], rfl, rfl⟩ (fun _ _ _ _ => BraceItems.append)
    fun _ hr _ _ => item_shows hr

/-- Braces offend only if one item has a value, another one has none and there is no clause. -/
theorem Bracket.not_offends_of_braces {b : Bracket} (hrule : b.rule = .braces)
    (h : (∃ t ∈ b.parts, t.isClause = true) ∨ ∃ v, ∀ t ∈ b.parts, t.hasValue? ≠ some v)
    (fault : SyntaxFault) : ¬ b.Offends fault := by
  intro hoffends
  cases hoffends with
  | generatorArgument harguments => rw [hrule] at harguments; cases harguments
  | @mixedBraces x y _ hclauses hx hx' hy hy' =>
    rcases h with ⟨t, ht, hclause⟩ | ⟨v, hv⟩
    · rw [hclauses t ht] at hclause
      cases hclause
    · cases v with
      | true => exact hv x hx hx'
      | false => exact hv y hy hy'

theorem Tree.not_isClause_of_hasValue? {t : Tree} {v : Bool} (h : t.hasValue? = some v) :
    t.isClause = false := by
  unfold Tree.hasValue? at h
  split at h
  · rfl
  · cases h

/-- Items without clauses have a meaning unless they offend. -/
theorem plainBraces_or_offends {b : Bracket} (hrule : b.rule = .braces)
    {items : List (Expr × Option Expr)}
    (h : b.parts.map Tree.hasValue? = items.map (some ·.2.isSome)) (offset : Nat) :
    (∃ e, Meaning.plainBraces offset items = .ok e ∧ ∀ fault, ¬ b.Offends fault) ∨
      (Meaning.plainBraces offset items = .error (.mixedBraces offset) ∧
        b.Offends .mixedBraces) := by
  have hmem : ∀ v, (∃ t ∈ b.parts, t.hasValue? = some v) ↔ ∃ item ∈ items, item.2.isSome = v := by
    intro v
    rw [← List.mem_map, h, List.mem_map]
    simp
  unfold Meaning.plainBraces
  split
  · next hall =>
    refine .inl ⟨_, rfl, Bracket.not_offends_of_braces hrule (.inr ⟨false, fun t ht hvalue => ?_⟩)⟩
    obtain ⟨item, hitem, hnone⟩ := (hmem false).mp ⟨t, ht, hvalue⟩
    rw [List.all_eq_true.mp hall item hitem] at hnone
    cases hnone
  · next hsome =>
    split
    · next hall =>
      refine .inl ⟨_, rfl, Bracket.not_offends_of_braces hrule (.inr ⟨true, fun t ht hvalue => ?_⟩)⟩
      obtain ⟨item, hitem, hsome⟩ := (hmem true).mp ⟨t, ht, hvalue⟩
      have hnone := List.all_eq_true.mp hall item hitem
      simp_all
    · next hnone =>
      have hvalued : ∃ item ∈ items, item.2.isSome = true := by
        simpa [Option.isSome_iff_ne_none] using hnone
      have hplain : ∃ item ∈ items, item.2.isSome = false := by simpa using hsome
      obtain ⟨x, hx, hx'⟩ := (hmem true).mpr hvalued
      obtain ⟨y, hy, hy'⟩ := (hmem false).mpr hplain
      refine .inr ⟨rfl, .mixedBraces hrule (fun t ht => ?_) hx hx' hy hy'⟩
      have ht' : t.hasValue? ∈ b.parts.map Tree.hasValue? := List.mem_map_of_mem ht
      rw [h, List.mem_map] at ht'
      obtain ⟨item, -, hvalue⟩ := ht'
      exact Tree.not_isClause_of_hasValue? hvalue.symm

/-- Braces have a meaning unless they offend. -/
theorem ofBraces_or_offends {b : Bracket}
    (h : b.rule.body.Describes Phrase.Keeps Rule.Shows b.parts ms) (hrule : b.rule = .braces)
    (offset : Nat) :
    (∃ e, Meaning.ofBraces offset ms = .ok e ∧ ∀ fault, ¬ b.Offends fault) ∨
      (Meaning.ofBraces offset ms = .error (.mixedBraces offset) ∧ b.Offends .mixedBraces) := by
  rw [hrule] at h
  rcases h.bracketed (fun _ _ _ hp h => h.none hp) with
    ⟨hparts, rfl⟩ | ⟨xs₁, xs₂, _, ms₂, hparts, rfl, ⟨m, rfl, hitem⟩, hclauses | hmore⟩
  · have hnone : ∀ t ∈ b.parts, t.hasValue? ≠ some true := by simp [hparts]
    exact .inl ⟨.dict [], rfl, Bracket.not_offends_of_braces hrule (.inr ⟨true, hnone⟩)⟩
  · obtain ⟨key, value?, rfl⟩ := hitem.1
    obtain ⟨cs, hcs⟩ := exists_clauses?_of_repeated hclauses.gives
    obtain ⟨c, more, rfl, hall⟩ := exists_clauses_of_repeated hclauses
    have hclause : ∃ t ∈ b.parts, t.isClause = true :=
      ⟨c, by simp [hparts], (hall c (List.mem_cons_self ..)).1⟩
    refine .inl ⟨.comprehension (Meaning.bracesKind value?) key value? cs, ?_,
      Bracket.not_offends_of_braces hrule (.inl hclause)⟩
    simp [Meaning.ofBraces, hcs]
  · obtain ⟨items, hitems, hparts'⟩ := (item_shows (List.mem_singleton_self _) hitem).append
      (items_show hmore)
    rw [← hparts] at hparts'
    rw [hitems, ofBraces_eq]
    exact plainBraces_or_offends hrule hparts' offset

end Braces

/-! ## Nodes -/

/-- Parts that have a meaning make up a node that has one, unless the node offends. -/
theorem Bracket.ofParts_or_offends {b : Bracket} {ms : List Meaning}
    (h : b.rule.body.Describes Phrase.Keeps Rule.Shows b.parts ms) (offset : Nat) :
    (∃ m, Meaning.ofParts b.rule offset ms = .ok m ∧
        b.rule.Shows [.node b.rule offset b.parts] m ∧ ∀ fault, ¬ b.Offends fault) ∨
      ∃ fault m, b.Offends fault ∧ Meaning.ofParts b.rule offset ms = .error m ∧
        m.fault = (offset, fault) := by
  by_cases harguments : b.rule = .arguments
  · rcases ofArguments_or_offends h harguments offset with
      ⟨args, hargs, hsound⟩ | ⟨herror, hoffends⟩
    · refine .inl ⟨.callWith args, ?_, ?_, hsound⟩
      · rw [harguments, Meaning.ofParts, hargs]
        rfl
      · rw [harguments]
        exact ⟨⟨args, rfl⟩, offset, b.parts, rfl, nofun⟩
    · refine .inr ⟨_, .generatorArgument offset, hoffends, ?_, rfl⟩
      rw [harguments, Meaning.ofParts, herror]
      rfl
  · by_cases hbraces : b.rule = .braces
    · rcases ofBraces_or_offends h hbraces offset with ⟨e, he, hsound⟩ | ⟨herror, hoffends⟩
      · refine .inl ⟨.expr e, ?_, ?_, hsound⟩
        · rw [hbraces, Meaning.ofParts, he]
          rfl
        · rw [hbraces]
          exact ⟨⟨e, rfl⟩, offset, b.parts, rfl, nofun⟩
      · refine .inr ⟨_, .mixedBraces offset, hoffends, ?_, rfl⟩
        rw [hbraces, Meaning.ofParts, herror]
        rfl
    · obtain ⟨m, hm, hshows⟩ := Rule.shows_of_body harguments hbraces h offset
      refine .inl ⟨m, ofParts_of_ofParts? hm harguments hbraces offset, hshows, ?_⟩
      rintro fault (⟨h, -⟩ | ⟨h, -⟩)
      · exact harguments h
      · exact hbraces h

/-! ## What a phrase takes -/

section Taken

variable {p : Phrase} {c next : Cursor} {parts more : List Tree}

theorem ofTrees_append_eq_error {fault : Malformed} {us : List Tree}
    (h : Meaning.ofTrees parts = .error fault) : Meaning.ofTrees (parts ++ us) = .error fault := by
  induction parts with
  | nil => cases h
  | cons t ts ih =>
    rw [Meaning.ofTrees] at h
    rw [List.cons_append, Meaning.ofTrees]
    cases hm : Meaning.ofTree t with
    | error fault' => rw [hm] at h; exact h
    | ok m =>
      cases hms : Meaning.ofTrees ts with
      | ok ms => rw [hm, hms] at h; cases h
      | error fault' =>
        rw [hm, hms] at h
        cases h
        rw [ih hms]
        rfl

theorem ofTrees_append_eq_error_of_ok {fault : Malformed} {ms : List Meaning}
    (h : Meaning.ofTrees parts = .ok ms) (h' : Meaning.ofTrees more = .error fault) :
    Meaning.ofTrees (parts ++ more) = .error fault := by
  induction parts generalizing ms with
  | nil => exact h'
  | cons t ts ih =>
    obtain ⟨m, ns, rfl, hm, hns⟩ := ofTrees_cons h
    rw [List.cons_append, Meaning.ofTrees, hm, ih hns]
    rfl

/-- What a single lexeme, mark or sign keeps of a text. -/
theorem Phrase.keeps_of_outcome? (h : p.outcome? c = some (.fits parts next)) :
    ∃ ms, Meaning.ofTrees parts = .ok ms ∧ p.Describes Keeps Rule.Shows parts ms := by
  cases p with
  | nothing => cases h; exact ⟨[], rfl, rfl, rfl⟩
  | atEnd | notNext s =>
    have h := Option.some.inj h
    split at h
    · cases h; exact ⟨[], rfl, rfl, rfl⟩
    · cases h
  | lexeme l =>
    have h := Option.some.inj h
    cases hs : l.scan? c.rest with
    | none => rw [hs] at h; cases h
    | some s =>
      rw [hs] at h
      cases h
      refine ⟨[.text s.front], rfl, s.front, rfl, ?_⟩
      cases l with
      | keyword k => rw [(keyword?_eq_some hs).1]; rfl
      | _ => trivial
  | mark s =>
    have h := Option.some.inj h
    cases hs : c.spelling? s with
    | none => rw [hs] at h; cases h
    | some split => rw [hs] at h; cases h; exact ⟨[], rfl, rfl, rfl⟩
  | sign ss =>
    have h := Option.some.inj h
    cases hs : ss.findSome? c.spelling? with
    | none => rw [hs] at h; cases h
    | some split =>
      rw [hs] at h
      cases h
      obtain ⟨s, hmem, hspelling⟩ := List.exists_of_findSome?_eq_some hs
      refine ⟨[.text split.front], rfl, s, hmem, ?_⟩
      rw [(Cursor.spelling?_eq_some hspelling).1]
  | _ => cases h

/-- What is known of what a phrase takes: it has a meaning, or the offence that closes first is
    what its trees are said to be malformed for. -/
def Phrase.Settled (p : Phrase) (c : Cursor) (parts : List Tree) : Prop :=
  (∃ ms, Meaning.ofTrees parts = .ok ms ∧ p.Describes Keeps Rule.Shows parts ms ∧ p.Sound c) ∨
    ∃ b fault m, p.FirstOffence c b fault ∧ Meaning.ofTrees parts = .error m ∧
      m.fault = (b.opening.offset, fault)

/-- Of two phrases that hold the same brackets, as much is known. -/
theorem Phrase.Settled.congr {q : Phrase} (h : p.Settled c parts)
    (hholds : ∀ b, q.Holds c b ↔ p.Holds c b)
    (hdescribes : ∀ ms, p.Describes Keeps Rule.Shows parts ms →
      q.Describes Keeps Rule.Shows parts ms) : q.Settled c parts := by
  rcases h with ⟨ms, hms, hp, hsound⟩ | ⟨b, fault, m, ⟨hb, hoffends, hfirst⟩, herror, hm⟩
  · exact .inl ⟨ms, hms, hdescribes ms hp, fun b fault hb => hsound b fault ((hholds b).mp hb)⟩
  · refine .inr ⟨b, fault, m, ⟨(hholds b).mpr hb, hoffends, ?_⟩, herror, hm⟩
    exact fun b' fault' hb' => hfirst b' fault' ((hholds b').mp hb')

/-- The first offence in a row stands in the first part that has one: the brackets of a part close
    before the next part begins. -/
theorem Phrase.Settled.seq {q : Phrase} {mid : Cursor} (hp : p.Yields c (.fits parts mid))
    (hq : q.Yields mid (.fits more next)) (h : p.Settled c parts) (h' : q.Settled mid more) :
    (seq p q).Settled c (parts ++ more) := by
  have hholds : ∀ b, (Phrase.seq p q).Holds c b → p.Holds c b ∨ q.Holds mid b := by
    intro b hb
    cases hb with
    | seqFirst hb => exact .inl hb
    | seqSecond hp' hb =>
      cases hp.unique hp'
      exact .inr hb
  rcases h with ⟨ms, hms, hdescribes, hsound⟩ | ⟨b, fault, m, hfirst, herror, hm⟩
  · rcases h' with ⟨ns, hns, hdescribes', hsound'⟩ | ⟨b, fault, m, hfirst, herror, hm⟩
    · refine .inl ⟨ms ++ ns, ofTrees_append hms hns,
        ⟨_, _, _, _, rfl, rfl, hdescribes, hdescribes'⟩, fun b fault hb => ?_⟩
      exact (hholds b hb).elim (hsound b fault) (hsound' b fault)
    · refine .inr ⟨b, fault, m, ⟨.seqSecond hp hfirst.holds, hfirst.offends, ?_⟩,
        ofTrees_append_eq_error_of_ok hms herror, hm⟩
      intro b' fault' hb' hoffends
      rcases hholds b' hb' with hb' | hb'
      · exact absurd hoffends (hsound b' fault' hb')
      · exact hfirst.first b' fault' hb' hoffends
  · refine .inr ⟨b, fault, m, ⟨.seqFirst hfirst.holds, hfirst.offends, ?_⟩,
      ofTrees_append_eq_error herror, hm⟩
    intro b' fault' hb' hoffends
    rcases hholds b' hb' with hb' | hb'
    · exact hfirst.first b' fault' hb' hoffends
    · have hbefore := (hfirst.holds.within hp).closes
      have hafter := hb'.within hq
      have hle := hafter.leads.offset_le
      have hlt := hafter.opens
      exact .inr (by omega)

theorem ofTrees_node_eq (r : Rule) (offset : Nat) (parts : List Tree) :
    Meaning.ofTrees [.node r offset parts] =
      (Meaning.ofTrees parts >>= Meaning.ofParts r offset >>= fun m => .ok [m]) := by
  rw [Meaning.ofTrees, Meaning.ofTree]
  rfl

/-- A bracket that offends closes behind those that stand in it. -/
theorem Phrase.FirstOffence.rule {r : Rule} {b : Bracket} {fault : SyntaxFault}
    (h : r.body.FirstOffence c b fault) : (rule r).FirstOffence c b fault := by
  refine ⟨.body h.holds, h.offends, fun b' fault' hb' hoffends => ?_⟩
  cases hb' with
  | body hb' => exact h.first b' fault' hb' hoffends
  | bracket hbody hopening hinside _ =>
    rcases (Holds.body h.holds).eq_or_inside hbody hopening hinside with rfl | hinner
    · exact .inl rfl
    · exact .inr (hinner.within hinside).closes

/-- A bracket that offends is the first one if none that stand in it do. -/
theorem Phrase.Sound.exists_firstOffence {r : Rule} {fault : SyntaxFault} (h : r.body.Sound c)
    (hyields : r.body.Yields c (.fits parts next))
    (hoffends : Bracket.Offends ⟨r, c, next, parts⟩ fault) :
    ∃ last, (rule r).FirstOffence c ⟨r, c, last, parts⟩ fault := by
  obtain ⟨opening, part, comma, closing, hbody⟩ := hoffends.body
  replace hbody : r.body = bracketed opening part comma closing := hbody
  rw [hbody] at h hyields
  obtain ⟨first, last, hopening, hinside, hclosing⟩ := hyields.bracketed
  refine ⟨last, .bracket hbody hopening hinside hclosing, hoffends.congr rfl rfl, ?_⟩
  intro b' fault' hb' hoffends'
  rcases hb'.eq_or_inside hbody hopening hinside with rfl | hinner
  · exact .inl rfl
  · exact absurd hoffends' (h b' fault' (.seqSecond hopening (.seqFirst hinner)))

theorem Phrase.Settled.rule {r : Rule} (hbody : r.body.Yields c (.fits parts next))
    (h : r.body.Settled c parts) : (rule r).Settled c [.node r c.offset parts] := by
  have hofTrees := ofTrees_node_eq r c.offset parts
  rcases h with ⟨ms, hms, hdescribes, hsound⟩ | ⟨b, fault, m, hfirst, herror, hm⟩
  · rw [hms] at hofTrees
    rcases Bracket.ofParts_or_offends (b := ⟨r, c, next, parts⟩) hdescribes c.offset with
      ⟨m, hm, hshows, hnot⟩ | ⟨fault, m, hoffends, herror, hm⟩
    · refine .inl ⟨[m], ?_, ⟨m, rfl, hshows⟩, fun b fault hb hoffends => ?_⟩
      · rw [hofTrees]
        exact congrArg (· >>= _) hm
      · rcases hb.rule_cases hbody with hb | ⟨hrule, -, hparts⟩
        · exact hsound b fault hb hoffends
        · exact hnot fault (hoffends.congr hrule.symm hparts.symm)
    · obtain ⟨last, hfirst⟩ := hsound.exists_firstOffence hbody hoffends
      refine .inr ⟨_, fault, m, hfirst, ?_, hm⟩
      rw [hofTrees]
      exact congrArg (· >>= _) herror
  · rw [herror] at hofTrees
    exact .inr ⟨b, fault, m, hfirst.rule, hofTrees, hm⟩

/-- What a phrase takes from a text has a meaning, or the offence that closes first is found. -/
theorem Phrase.Yields.settled (h : p.Yields c (.fits parts next)) : p.Settled c parts := by
  generalize ho : Outcome.fits parts next = o at h
  induction h generalizing parts next with
  | @terminal p c o h =>
    obtain ⟨ms, hms, hkeeps⟩ := keeps_of_outcome? (ho ▸ h)
    refine .inl ⟨ms, hms, hkeeps, fun b fault hb => ?_⟩
    cases hb <;> cases h
  | ruleFits hbody ih => cases ho; exact (ih rfl).rule hbody
  | seq hp hq ihp ihq => cases ho; exact (ihp rfl).seq hp hq (ihq rfl)
  | eitherFirst hp ih =>
    refine (ih ho).congr (fun b => ⟨fun hb => ?_, .eitherFirst hp⟩) fun _ => .inl
    cases hb with
    | eitherFirst _ hb => exact hb
    | eitherSecond hfails _ => cases hp.unique hfails
  | eitherSecond hfails _ _ ih =>
    refine (ih ho).congr (fun b => ⟨fun hb => ?_, .eitherSecond hfails⟩) fun _ => .inr
    cases hb with
    | eitherFirst hp _ => cases hp.unique hfails
    | eitherSecond _ hb => exact hb
  | manyStop hfails _ =>
    cases ho
    refine .inl ⟨[], rfl, ⟨[], rfl, rfl, nofun⟩, fun b fault hb => ?_⟩
    cases hb with
    | manyFirst hp _ => cases hp.unique hfails
    | manyMore hp _ => cases hp.unique hfails
  | @manyMore p c mid last _ _ hp hmany ihp ihmany =>
    cases ho
    refine ((ihp rfl).seq hp hmany (ihmany rfl)).congr (fun b => ⟨fun hb => ?_, fun hb => ?_⟩) ?_
    · cases hb with
      | manyFirst _ hb => exact .seqFirst hb
      | manyMore hp' hb => exact .seqSecond hp' hb
    · cases hb with
      | seqFirst hb => exact .manyFirst hp hb
      | seqSecond hp' hb => exact .manyMore hp' hb
    · rintro _ ⟨xs₁, _, ms₁, _, hparts, rfl, hfirst, rows, rfl, rfl, hrows⟩
      rw [hparts]
      exact ⟨(xs₁, ms₁) :: rows, rfl, rfl, List.forall_mem_cons.mpr ⟨hfirst, hrows⟩⟩
  | _ => cases ho

end Taken

/-! ## Whole texts -/

/-- How an offence stands in a text and what is said about it. -/
inductive Bracket.Reported (text : List Char) (b : Bracket) (fault : SyntaxFault) : Prop
  | generatorArgument : b.rule = .arguments → text[b.opening.offset]? = some '(' →
      text[b.closing.offset]? = some ')' → fault.message = "malformed generator argument" →
      Reported text b fault
  | mixedBraces : b.rule = .braces → text[b.opening.offset]? = some '\x7b' →
      text[b.closing.offset]? = some '\x7d' → fault.message = "malformed braced display" →
      Reported text b fault

theorem Phrase.FirstOffence.reported {p : Phrase} {text : List Char} {next : Cursor}
    {parts : List Tree} {b : Bracket} {fault : SyntaxFault}
    (h : p.FirstOffence (.start text) b fault) (hp : p.Yields (.start text) (.fits parts next)) :
    b.Reported text fault := by
  have hmarks := h.holds.getElem? hp
  cases h.offends with
  | generatorArgument hrule =>
    rw [hrule] at hmarks
    exact .generatorArgument hrule hmarks.1 hmarks.2 rfl
  | mixedBraces hrule =>
    rw [hrule] at hmarks
    exact .mixedBraces hrule hmarks.1 hmarks.2 rfl

/-- A text that is recognized is an expression if no bracket in it offends, and otherwise it is
    malformed where the offence that closes first opens. -/
theorem parse_of_recognized {text : String} {tree : Tree}
    (h : recognize text.toList = .ok tree) :
    ((∃ e, parse text = .ok e) ∧ (Phrase.rule .expression).Sound (.start text.toList)) ∨
      ∃ b fault, (Phrase.rule .expression).FirstOffence (.start text.toList) b fault ∧
        b.Reported text.toList fault ∧
        parse text =
          .error (.invalidSyntax (Text.position text.toList b.opening.offset) fault) := by
  obtain ⟨last, hyields, -⟩ := recognize_eq_ok.mp h
  rcases hyields.settled with ⟨ms, hms, hdescribes, hsound⟩ | ⟨b, fault, m, hfirst, herror, hm⟩
  · obtain ⟨m, rfl, ⟨e, rfl⟩, -⟩ := hdescribes
    obtain ⟨_, heq, htree⟩ := ofTrees_eq_singleton hms
    cases heq
    exact .inl ⟨⟨e, parse_eq_ok_iff_recognize.mpr ⟨tree, h, htree⟩⟩, hsound⟩
  · refine .inr ⟨b, fault, hfirst, hfirst.reported hyields, ?_⟩
    have htree : Meaning.ofTree tree = .error m := by
      rw [Meaning.ofTrees] at herror
      cases htree : Meaning.ofTree tree with
      | error m' => rw [htree] at herror; cases herror; rfl
      | ok m' => rw [htree] at herror; cases herror
    unfold parse Expr.ofTree
    simp only [h, htree, hm]

/-- Of two offences the one inside closes first. -/
theorem parse_of_recognized_nested :
    (∃ tree, recognize "f(a=\x7bb:c,d\x7d for x in y)".toList = .ok tree) ∧
      ∃ b, (Phrase.rule .expression).FirstOffence
          (.start "f(a=\x7bb:c,d\x7d for x in y)".toList) b .mixedBraces ∧
        Text.position "f(a=\x7bb:c,d\x7d for x in y)".toList b.opening.offset = ⟨1, 5⟩ := by
  have hok : (recognize "f(a=\x7bb:c,d\x7d for x in y)".toList).isOk = true := by decide +kernel
  have hplace : (match parse "f(a=\x7bb:c,d\x7d for x in y)" with
      | .error (.invalidSyntax place .mixedBraces) => some place
      | _ => none) = some ⟨1, 5⟩ := by decide +kernel
  cases htree : recognize "f(a=\x7bb:c,d\x7d for x in y)".toList with
  | error f => rw [htree] at hok; cases hok
  | ok tree =>
    refine ⟨⟨tree, rfl⟩, ?_⟩
    rcases parse_of_recognized htree with ⟨⟨e, he⟩, -⟩ | ⟨b, fault, hfirst, -, herror⟩
    · rw [he] at hplace
      cases hplace
    · rw [herror] at hplace
      cases fault with
      | mixedBraces => exact ⟨b, hfirst, Option.some.inj hplace⟩
      | _ => cases hplace

end Calculator.Grammar
