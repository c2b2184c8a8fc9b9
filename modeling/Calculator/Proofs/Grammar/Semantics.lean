import Calculator.Proofs.Grammar.Scanning

/-!
# The meaning of phrases without fuel

`Phrase.Yields` says how a phrase fares at a place, by one rule for each way in which a phrase is
put together; neither fuel nor earlier failures have a part in it.

Results:
* `Phrase.Yields.unique`: a phrase fares in one way at most.
* `Phrase.yields_of_run`: a run that ends finds out how.
* `Phrase.exists_run`: a run with enough fuel ends; `fuelFor` is enough for any text, since a rule
  comes back to itself only behind a character that it has taken.
* `recognize_of_fits`, `recognize_of_fails`: so `recognize` gives the tree that `wholeText` yields.
-/

namespace Calculator.Grammar

/-! ## How a phrase fares -/

/-- How a phrase that has no other phrases in it fares at a place. -/
def Phrase.outcome? : Phrase → Cursor → Option Outcome
  | nothing, c => some (.fits [] c)
  | atEnd, c => some (if c.rest.isEmpty then .fits [] c else .fails)
  | lexeme l, c => some (.ofSplit? c true (l.scan? c.rest))
  | mark s, c => some (.ofSplit? c false (c.spelling? s))
  | sign ss, c => some (.ofSplit? c true (ss.findSome? c.spelling?))
  | notNext s, c => some (if (c.spelling? s).isNone then .fits [] c else .fails)
  | _, _ => none

/-- How a phrase fares at a place. -/
inductive Phrase.Yields : Phrase → Cursor → Outcome → Prop
  | terminal {p : Phrase} {c : Cursor} {o : Outcome} : p.outcome? c = some o → Yields p c o
  | ruleFits {r : Rule} {c next : Cursor} {parts : List Tree} :
      Yields r.body c (.fits parts next) →
      Yields (.rule r) c (.fits [.node r c.offset parts] next)
  | ruleFails {r : Rule} {c : Cursor} : Yields r.body c .fails → Yields (.rule r) c .fails
  | seq {p q : Phrase} {c next last : Cursor} {parts more : List Tree} :
      Yields p c (.fits parts next) → Yields q next (.fits more last) →
      Yields (.seq p q) c (.fits (parts ++ more) last)
  | seqFirst {p q : Phrase} {c : Cursor} : Yields p c .fails → Yields (.seq p q) c .fails
  | seqSecond {p q : Phrase} {c next : Cursor} {parts : List Tree} :
      Yields p c (.fits parts next) → Yields q next .fails → Yields (.seq p q) c .fails
  | eitherFirst {p q : Phrase} {c next : Cursor} {parts : List Tree} :
      Yields p c (.fits parts next) → Yields (.either p q) c (.fits parts next)
  | eitherSecond {p q : Phrase} {c : Cursor} {o : Outcome} :
      Yields p c .fails → Yields q c o → Yields (.either p q) c o
  | manyStop {p : Phrase} {c : Cursor} : Yields p c .fails → Yields (.many p) c (.fits [] c)
  | manyMore {p : Phrase} {c next last : Cursor} {parts more : List Tree} :
      Yields p c (.fits parts next) → Yields (.many p) next (.fits more last) →
      Yields (.many p) c (.fits (parts ++ more) last)

/-- A phrase fares in one way at most. -/
theorem Phrase.Yields.unique {p : Phrase} {c : Cursor} {o o' : Outcome} (h : p.Yields c o)
    (h' : p.Yields c o') : o = o' := by
  induction h generalizing o' with
  | terminal ho =>
    cases h' with
    | terminal ho' => exact Option.some.inj (ho.symm.trans ho')
    | _ => cases ho
  | ruleFits _ ih =>
    cases h' with
    | terminal ho' => cases ho'
    | ruleFits hbody => cases ih hbody; rfl
    | ruleFails hbody => cases ih hbody
  | ruleFails _ ih =>
    cases h' with
    | terminal ho' => cases ho'
    | ruleFits hbody => cases ih hbody
    | ruleFails _ => rfl
  | seq _ _ ihp ihq =>
    cases h' with
    | terminal ho' => cases ho'
    | seq hp hq => cases ihp hp; cases ihq hq; rfl
    | seqFirst hp => cases ihp hp
    | seqSecond hp hq => cases ihp hp; cases ihq hq
  | seqFirst _ ihp =>
    cases h' with
    | terminal ho' => cases ho'
    | seq hp _ => cases ihp hp
    | seqFirst _ => rfl
    | seqSecond _ _ => rfl
  | seqSecond _ _ ihp ihq =>
    cases h' with
    | terminal ho' => cases ho'
    | seq hp hq => cases ihp hp; cases ihq hq
    | seqFirst _ => rfl
    | seqSecond _ _ => rfl
  | eitherFirst _ ihp =>
    cases h' with
    | terminal ho' => cases ho'
    | eitherFirst hp => exact ihp hp
    | eitherSecond hp _ => cases ihp hp
  | eitherSecond _ _ ihp ihq =>
    cases h' with
    | terminal ho' => cases ho'
    | eitherFirst hp => cases ihp hp
    | eitherSecond _ hq => exact ihq hq
  | manyStop _ ih =>
    cases h' with
    | terminal ho' => cases ho'
    | manyStop _ => rfl
    | manyMore hp _ => cases ih hp
  | manyMore _ _ ihp ihmany =>
    cases h' with
    | terminal ho' => cases ho'
    | manyStop hp => cases ihp hp
    | manyMore hp hmany => cases ihp hp; cases ihmany hmany; rfl

/-! ## Runs -/

theorem Phrase.run_terminal {p : Phrase} {c : Cursor} {o : Outcome} (h : p.outcome? c = some o)
    (fuel : Nat) (f : Furthest) : p.run (fuel + 1) c f = some (o, f) := by
  cases p <;> cases h <;> rfl

/-- A repetition never fails. -/
theorem Phrase.run_many_ne_fails (p : Phrase) (fuel : Nat) (c : Cursor) (f f' : Furthest) :
    (many p).run fuel c f ≠ some (.fails, f') := by
  induction fuel generalizing c f with
  | zero => exact nofun
  | succ fuel ih =>
    rw [run]
    split
    · next parts next f₁ _ =>
      split
      · exact nofun
      · exact ih next f₁
    · exact nofun
    · exact nofun

/-- A run that ends finds out how the phrase fares. -/
theorem Phrase.yields_of_run {fuel : Nat} {p : Phrase} {c : Cursor} {f f' : Furthest} {o : Outcome}
    (h : p.run fuel c f = some (o, f')) : p.Yields c o := by
  induction fuel generalizing p c f f' o with
  | zero => cases h
  | succ fuel ih =>
    cases p with
    | rule r =>
      rw [run] at h
      split at h
      · next hbody => cases h; exact .ruleFits (ih hbody)
      · next hbody => cases h; exact .ruleFails (ih hbody)
      · cases h
    | seq p q =>
      rw [run] at h
      split at h
      · next hp =>
        split at h
        · next hq => cases h; exact .seq (ih hp) (ih hq)
        · next hq =>
          cases o with
          | fits more last => exact absurd h (hq more last f')
          | fails => exact .seqSecond (ih hp) (ih h)
      · next hp =>
        cases o with
        | fits parts next => exact absurd h (hp parts next f')
        | fails => exact .seqFirst (ih h)
    | either p q =>
      rw [run] at h
      split at h
      · next hp => exact .eitherSecond (ih hp) (ih h)
      · next hp =>
        cases o with
        | fits parts next => exact .eitherFirst (ih h)
        | fails => exact absurd h (hp f')
    | many p =>
      rw [run] at h
      split at h
      · next hp =>
        split at h
        · next hmany => cases h; exact .manyMore (ih hp) (ih hmany)
        · next hmany =>
          cases o with
          | fits more last => exact absurd h (hmany more last f')
          | fails => exact absurd h (run_many_ne_fails p fuel _ _ f')
      · next hp => cases h; exact .manyStop (ih hp)
      · cases h
    | _ => cases h; exact .terminal rfl

/-! ## Progress -/

theorem Cursor.length_skipSpacing_le (c : Cursor) :
    c.skipSpacing.rest.length ≤ c.rest.length :=
  (List.dropWhile_suffix isSpacing).length_le

theorem Cursor.length_past_le (c : Cursor) (s : Split) :
    (c.past s).rest.length ≤ s.rest.length :=
  Cursor.length_skipSpacing_le _

/-- The place behind a part of the text that is not empty. -/
theorem Cursor.length_past_lt {c : Cursor} {s : Split} (hs : s.Of c.rest) (hne : s.front ≠ []) :
    (c.past s).rest.length < c.rest.length := by
  have hle := c.length_past_le s
  have hlength : c.rest.length = s.front.length + s.rest.length := by
    rw [show c.rest = s.front ++ s.rest from hs, List.length_append]
  have hfront := List.length_pos_iff.mpr hne
  omega

theorem Cursor.spelling?_eq_some {c : Cursor} {spelling : String} {s : Split}
    (h : c.spelling? spelling = some s) : s.front = spelling.toList ∧ s.Of c.rest := by
  obtain ⟨rest, hrest, rfl⟩ := Option.map_eq_some_iff.mp h
  exact ⟨rfl, afterSpelling?_eq_some.mp hrest⟩

/-- Whether a phrase may fit without taking a character. -/
def Phrase.nullable : Phrase → Bool
  | nothing | atEnd | notNext _ | many _ => true
  | lexeme _ => false
  | mark s => s.isEmpty
  | sign ss => ss.any (·.isEmpty)
  | rule r => decide (r = .endOfText)
  | seq p q => p.nullable && q.nullable
  | either p q => p.nullable || q.nullable

theorem Rule.nullable_body {r : Rule} (h : r ≠ .endOfText) : r.body.nullable = false := by
  cases r <;> first | rfl | exact absurd rfl h

theorem Phrase.outcome?_length {p : Phrase} {c next : Cursor} {parts : List Tree}
    (h : p.outcome? c = some (.fits parts next)) :
    next.rest.length ≤ c.rest.length ∧
      (p.nullable = false → next.rest.length < c.rest.length) := by
  -- a part of the text that is not empty is passed by
  have hpast : ∀ s : Split, s.Of c.rest → s.front ≠ [] → next = c.past s →
      next.rest.length < c.rest.length := fun s hs hne heq => heq ▸ Cursor.length_past_lt hs hne
  have hempty : ∀ s : Split, s.Of c.rest → next = c.past s →
      next.rest.length ≤ c.rest.length := by
    intro s hs heq
    have hle := c.length_past_le s
    rw [heq, show c.rest = s.front ++ s.rest from hs, List.length_append]
    omega
  cases p with
  | nothing => cases h; exact ⟨Nat.le_refl _, nofun⟩
  | atEnd =>
    have h := Option.some.inj h
    split at h
    · cases h; exact ⟨Nat.le_refl _, nofun⟩
    · cases h
  | notNext s =>
    have h := Option.some.inj h
    split at h
    · cases h; exact ⟨Nat.le_refl _, nofun⟩
    · cases h
  | lexeme l =>
    have h := Option.some.inj h
    cases hs : l.scan? c.rest with
    | none => rw [hs] at h; cases h
    | some s =>
      rw [hs] at h
      cases h
      have hlt := hpast s (l.exact_scan? _ s hs) (l.consuming_scan? _ s hs) rfl
      exact ⟨Nat.le_of_lt hlt, fun _ => hlt⟩
  | mark spelling =>
    have h := Option.some.inj h
    cases hs : c.spelling? spelling with
    | none => rw [hs] at h; cases h
    | some s =>
      rw [hs] at h
      cases h
      obtain ⟨hfront, hof⟩ := Cursor.spelling?_eq_some hs
      refine ⟨hempty s hof rfl, fun hne => hpast s hof ?_ rfl⟩
      rw [hfront]
      intro hnil
      rw [nullable, String.toList_eq_nil_iff.mp hnil] at hne
      cases hne
  | sign spellings =>
    have h := Option.some.inj h
    cases hs : spellings.findSome? c.spelling? with
    | none => rw [hs] at h; cases h
    | some s =>
      rw [hs] at h
      cases h
      obtain ⟨spelling, hmem, hspelling⟩ := List.exists_of_findSome?_eq_some hs
      obtain ⟨hfront, hof⟩ := Cursor.spelling?_eq_some hspelling
      refine ⟨hempty s hof rfl, fun hne => hpast s hof ?_ rfl⟩
      rw [hfront]
      intro hnil
      rw [nullable, List.any_eq_false] at hne
      exact hne spelling hmem (by rw [String.toList_eq_nil_iff.mp hnil]; rfl)
  | _ => cases h

/-- A phrase goes on behind what it takes, and takes something unless it may fit on nothing. -/
theorem Phrase.Yields.length {p : Phrase} {c next : Cursor} {parts : List Tree}
    (h : p.Yields c (.fits parts next)) :
    next.rest.length ≤ c.rest.length ∧
      (p.nullable = false → next.rest.length < c.rest.length) := by
  generalize ho : Outcome.fits parts next = o at h
  induction h generalizing parts next with
  | terminal hp =>
    rw [← ho] at hp
    exact outcome?_length hp
  | @ruleFits r c last parts' hbody ih =>
    cases ho
    obtain ⟨hle, hlt⟩ := ih rfl
    refine ⟨hle, fun hne => hlt (Rule.nullable_body ?_)⟩
    rintro rfl
    cases hne
  | seq _ _ ihp ihq =>
    cases ho
    obtain ⟨hp, hp'⟩ := ihp rfl
    obtain ⟨hq, hq'⟩ := ihq rfl
    refine ⟨by omega, fun hne => ?_⟩
    rw [nullable, Bool.and_eq_false_iff] at hne
    rcases hne with hne | hne
    · have := hp' hne
      omega
    · have := hq' hne
      omega
  | eitherFirst _ ih =>
    obtain ⟨hle, hlt⟩ := ih ho
    refine ⟨hle, fun hne => hlt ?_⟩
    rw [nullable, Bool.or_eq_false_iff] at hne
    exact hne.1
  | eitherSecond _ _ _ ih =>
    obtain ⟨hle, hlt⟩ := ih ho
    refine ⟨hle, fun hne => hlt ?_⟩
    rw [nullable, Bool.or_eq_false_iff] at hne
    exact hne.2
  | manyStop _ _ => cases ho; exact ⟨Nat.le_refl _, nofun⟩
  | manyMore _ _ ihp ihmany =>
    cases ho
    obtain ⟨hp, -⟩ := ihp rfl
    obtain ⟨hmany, -⟩ := ihmany rfl
    exact ⟨by omega, nofun⟩
  | _ => cases ho

/-! ## Enough fuel -/

/-- How many steps are nested in a rule before a character is taken. -/
def Rule.depth : Rule → Nat
  | comparisonSign => 7
  | expression => 41
  | conditional => 39
  | disjunction => 37
  | conjunction => 35
  | negation => 33
  | comparison => 31
  | bitOr => 29
  | bitXor => 27
  | bitAnd => 25
  | shift => 23
  | sum => 21
  | product => 19
  | factor => 17
  | power => 15
  | primary => 13
  | indexItem => 44
  | sliceUpper | sliceStep => 42
  | braceItem => 43
  | lambda | parameters | keywordArgument | assignment | clause | targets | condition => 3
  | arguments | keywordUnpacking | member | subscript | sliceBounds | parenthesized | list | braces
  | starred => 2
  | _ => 1

/-- How many steps are nested in a phrase before a character is taken. -/
def Phrase.depth : Phrase → Nat
  | rule r => r.depth + 1
  | seq p q => max p.depth (if p.nullable then q.depth else 0) + 1
  | either p q => max p.depth q.depth + 1
  | many p => p.depth + 1
  | _ => 1

/-- Whether a phrase repeats only what takes a character, and goes on behind a part of it with
    fewer nested steps than `fuelFor` has for one character. -/
def Phrase.guarded : Phrase → Bool
  | seq p q => p.guarded && q.guarded && decide (q.depth ≤ 64)
  | either p q => p.guarded && q.guarded
  | many p => p.guarded && !p.nullable
  | _ => true

theorem Phrase.depth_pos (p : Phrase) : 0 < p.depth := by
  cases p <;> exact Nat.succ_pos _

theorem Rule.depth_body_le (r : Rule) : r.body.depth ≤ r.depth := by
  cases r <;> decide

theorem Rule.guarded_body (r : Rule) : r.body.guarded = true := by
  cases r <;> decide

/-- A run with enough fuel ends: between two characters the steps are nested no deeper than the
    phrase is. -/
theorem Phrase.exists_run {fuel : Nat} {p : Phrase} (hp : p.guarded = true) {c : Cursor}
    (hfuel : p.depth + 64 * c.rest.length ≤ fuel) (f : Furthest) :
    ∃ answer, p.run fuel c f = some answer := by
  induction fuel generalizing p c f with
  | zero =>
    have := p.depth_pos
    omega
  | succ fuel ih =>
    cases p with
    | rule r =>
      rw [depth] at hfuel
      have hbody := r.depth_body_le
      obtain ⟨⟨o, f'⟩, hrun⟩ := ih r.guarded_body (c := c) (by omega) f
      rw [run, hrun]
      cases o with
      | fits parts next => exact ⟨_, rfl⟩
      | fails => exact ⟨_, rfl⟩
    | seq p q =>
      rw [guarded, Bool.and_eq_true, Bool.and_eq_true, decide_eq_true_eq] at hp
      obtain ⟨⟨hp, hq⟩, hdepth⟩ := hp
      rw [depth] at hfuel
      obtain ⟨⟨o, f'⟩, hrun⟩ := ih hp (c := c) (by omega) f
      rw [run, hrun]
      cases o with
      | fails => exact ⟨_, rfl⟩
      | fits parts next =>
        obtain ⟨hle, hlt⟩ := (yields_of_run hrun).length
        have hnext : q.depth + 64 * next.rest.length ≤ fuel := by
          cases hnull : p.nullable with
          | true =>
            rw [hnull, if_pos rfl] at hfuel
            omega
          | false =>
            have := hlt hnull
            omega
        obtain ⟨⟨o, f''⟩, hrun'⟩ := ih hq hnext f'
        simp only [hrun']
        cases o with
        | fits more last => exact ⟨_, rfl⟩
        | fails => exact ⟨_, rfl⟩
    | either p q =>
      rw [guarded, Bool.and_eq_true] at hp
      rw [depth] at hfuel
      obtain ⟨⟨o, f'⟩, hrun⟩ := ih hp.1 (c := c) (by omega) f
      rw [run, hrun]
      cases o with
      | fits parts next => exact ⟨_, rfl⟩
      | fails => exact ih hp.2 (by omega) f'
    | many p =>
      have hmany := hp
      rw [guarded, Bool.and_eq_true, Bool.not_eq_true'] at hp
      rw [depth] at hfuel
      obtain ⟨⟨o, f'⟩, hrun⟩ := ih hp.1 (c := c) (by omega) f
      rw [run, hrun]
      cases o with
      | fails => exact ⟨_, rfl⟩
      | fits parts next =>
        have hlt := (yields_of_run hrun).length.2 hp.2
        obtain ⟨⟨o, f''⟩, hrun'⟩ := ih hmany (c := next) (by rw [depth]; omega) f'
        simp only [hrun']
        cases o with
        | fits more last => exact ⟨_, rfl⟩
        | fails => exact ⟨_, rfl⟩
    | _ => exact ⟨_, run_terminal rfl fuel f⟩

/-! ## Recognizing a text -/

/-- A run over a whole text ends. -/
theorem exists_answer_wholeText (text : List Char) :
    ∃ o f, wholeText.run (fuelFor text) (Cursor.start text) .start = some (o, f) := by
  have hlength : (Cursor.start text).rest.length ≤ text.length :=
    Cursor.length_skipSpacing_le ⟨0, text⟩
  have hdepth : wholeText.depth ≤ 64 := by decide
  have hfuel : wholeText.depth + 64 * (Cursor.start text).rest.length ≤ fuelFor text := by
    rw [fuelFor]
    omega
  obtain ⟨⟨o, f⟩, hrun⟩ := Phrase.exists_run (by decide) hfuel .start
  exact ⟨o, f, hrun⟩

/-- It finds out how the text fares. -/
theorem exists_run_wholeText {text : List Char} {o : Outcome}
    (h : wholeText.Yields (Cursor.start text) o) :
    ∃ f, wholeText.run (fuelFor text) (Cursor.start text) .start = some (o, f) := by
  obtain ⟨o', f, hrun⟩ := exists_answer_wholeText text
  rw [h.unique (Phrase.yields_of_run hrun)]
  exact ⟨f, hrun⟩

theorem recognize_of_fits {text : List Char} {tree : Tree} {more : List Tree} {next : Cursor}
    (h : wholeText.Yields (Cursor.start text) (.fits (tree :: more) next)) :
    recognize text = .ok tree := by
  obtain ⟨f, hrun⟩ := exists_run_wholeText h
  rw [recognize, hrun]

theorem recognize_of_fails {text : List Char}
    (h : wholeText.Yields (Cursor.start text) .fails) : ∃ f, recognize text = .error f := by
  obtain ⟨f, hrun⟩ := exists_run_wholeText h
  exact ⟨f, by rw [recognize, hrun]⟩

end Calculator.Grammar
