import Calculator.Proofs.Grammar.Constructs

/-!
# Brackets in a text

A call and a display stand in a pair of brackets.  `Phrase.Holds` says which of them a phrase takes
from a text, at any depth, and where the two brackets stand.

Results:
* `Phrase.Yields.leadsTo`: a phrase goes on behind the characters that it takes.
* `Phrase.Holds.within`: what a phrase holds opens, closes and ends within what the phrase takes.
* `Phrase.Holds.eq_or_inside`: what the rule of a bracket holds is that bracket or stands in it.
* `Phrase.Holds.getElem?`: the brackets that a phrase holds are characters of the text.
-/

namespace Calculator.Grammar

/-! ## From one place to another -/

/-- Whether a place comes from another one by taking what stands between them. -/
def Cursor.LeadsTo (c next : Cursor) : Prop :=
  ∃ taken, c.rest = taken ++ next.rest ∧ next.offset = c.offset + taken.length

namespace Cursor.LeadsTo

variable {c mid next : Cursor}

theorem refl (c : Cursor) : c.LeadsTo c := ⟨[], rfl, rfl⟩

theorem trans (h : c.LeadsTo mid) (h' : mid.LeadsTo next) : c.LeadsTo next := by
  obtain ⟨front, hfront, hmid⟩ := h
  obtain ⟨back, hback, hnext⟩ := h'
  refine ⟨front ++ back, by rw [hfront, hback, List.append_assoc], ?_⟩
  rw [List.length_append]
  omega

theorem offset_le (h : c.LeadsTo next) : c.offset ≤ next.offset := by
  obtain ⟨taken, -, hnext⟩ := h
  omega

theorem offset_lt (h : c.LeadsTo next) (hlength : next.rest.length < c.rest.length) :
    c.offset < next.offset := by
  obtain ⟨taken, hrest, hnext⟩ := h
  rw [hrest, List.length_append] at hlength
  omega

theorem skipSpacing (c : Cursor) : c.LeadsTo c.skipSpacing :=
  ⟨c.rest.takeWhile isSpacing, List.takeWhile_append_dropWhile.symm, rfl⟩

theorem past {s : Split} (hs : s.Of c.rest) : c.LeadsTo (c.past s) := by
  have hfront : c.LeadsTo ⟨c.offset + s.front.length, s.rest⟩ := ⟨s.front, hs, rfl⟩
  exact hfront.trans (skipSpacing _)

/-- The character at a place is the one that so many others precede. -/
theorem getElem?_eq {text : List Char} (h : (Cursor.mk 0 text).LeadsTo c) :
    text[c.offset]? = c.rest.head? := by
  obtain ⟨taken, htext, hoffset⟩ := h
  simp only [Nat.zero_add] at hoffset htext
  rw [htext, hoffset, List.getElem?_append_right (Nat.le_refl _), Nat.sub_self,
    List.head?_eq_getElem?]

end Cursor.LeadsTo

theorem Phrase.leadsTo_of_outcome? {p : Phrase} {c next : Cursor} {parts : List Tree}
    (h : p.outcome? c = some (.fits parts next)) : c.LeadsTo next := by
  have hsplit : ∀ (keep : Bool) (s? : Option Split), (∀ s, s? = some s → s.Of c.rest) →
      Outcome.ofSplit? c keep s? = .fits parts next → c.LeadsTo next := by
    intro keep s? hs heq
    cases s? with
    | none => cases heq
    | some s => cases heq; exact .past (hs s rfl)
  cases p with
  | nothing => cases h; exact .refl c
  | atEnd | notNext s =>
    have h := Option.some.inj h
    split at h
    · cases h; exact .refl c
    · cases h
  | lexeme l => exact hsplit _ _ (l.exact_scan? c.rest) (Option.some.inj h)
  | mark s =>
    exact hsplit _ _ (fun _ hs => (Cursor.spelling?_eq_some hs).2) (Option.some.inj h)
  | sign ss =>
    refine hsplit _ _ (fun _ hs => ?_) (Option.some.inj h)
    obtain ⟨_, -, hspelling⟩ := List.exists_of_findSome?_eq_some hs
    exact (Cursor.spelling?_eq_some hspelling).2
  | _ => cases h

/-- A phrase goes on behind the characters that it takes. -/
theorem Phrase.Yields.leadsTo {p : Phrase} {c next : Cursor} {parts : List Tree}
    (h : p.Yields c (.fits parts next)) : c.LeadsTo next := by
  generalize ho : Outcome.fits parts next = o at h
  induction h generalizing parts next with
  | terminal h => exact leadsTo_of_outcome? (ho ▸ h)
  | ruleFits _ ih => cases ho; exact ih rfl
  | seq _ _ ihp ihq => cases ho; exact (ihp rfl).trans (ihq rfl)
  | eitherFirst _ ih => exact ih ho
  | eitherSecond _ _ _ ih => exact ih ho
  | manyStop _ _ => cases ho; exact .refl _
  | manyMore _ _ ihp ihmany => cases ho; exact (ihp rfl).trans (ihmany rfl)
  | _ => cases ho

/-! ## Brackets -/

/-- What stands in a pair of brackets: the rule that it fits, the places of both brackets and the
    parts between them. -/
structure Bracket where
  rule : Rule
  opening : Cursor
  closing : Cursor
  parts : List Tree

/-- The characters around what a rule describes. -/
def Rule.marks : Rule → Char × Char
  | .list => ('[', ']')
  | .braces => ('\x7b', '\x7d')
  | _ => ('(', ')')

theorem Rule.marks_of_body {r : Rule} {opening closing : String} {part comma : Phrase}
    (h : r.body = bracketed opening part comma closing) :
    opening.toList = [r.marks.1] ∧ closing.toList = [r.marks.2] := by
  cases r <;> cases h <;> exact ⟨rfl, rfl⟩

/-- A bracket that a phrase takes from a text, if the phrase fits there. -/
inductive Phrase.Holds : Phrase → Cursor → Bracket → Prop
  | bracket {r : Rule} {opening closing : String} {part comma : Phrase} {c first last next : Cursor}
      {parts : List Tree} :
      r.body = bracketed opening part comma closing →
      (mark opening).Yields c (.fits [] first) →
      (inside part comma).Yields first (.fits parts last) →
      (mark closing).Yields last (.fits [] next) →
      Holds (.rule r) c ⟨r, c, last, parts⟩
  | body {r : Rule} {c : Cursor} {b : Bracket} : Holds r.body c b → Holds (.rule r) c b
  | seqFirst {p q : Phrase} {c : Cursor} {b : Bracket} : Holds p c b → Holds (.seq p q) c b
  | seqSecond {p q : Phrase} {c next : Cursor} {parts : List Tree} {b : Bracket} :
      Yields p c (.fits parts next) → Holds q next b → Holds (.seq p q) c b
  | eitherFirst {p q : Phrase} {c next : Cursor} {parts : List Tree} {b : Bracket} :
      Yields p c (.fits parts next) → Holds p c b → Holds (.either p q) c b
  | eitherSecond {p q : Phrase} {c : Cursor} {b : Bracket} :
      Yields p c .fails → Holds q c b → Holds (.either p q) c b
  | manyFirst {p : Phrase} {c next : Cursor} {parts : List Tree} {b : Bracket} :
      Yields p c (.fits parts next) → Holds p c b → Holds (.many p) c b
  | manyMore {p : Phrase} {c next : Cursor} {parts : List Tree} {b : Bracket} :
      Yields p c (.fits parts next) → Holds (.many p) next b → Holds (.many p) c b

/-- A bracket that opens, closes and ends between two places. -/
structure Bracket.Within (b : Bracket) (c next : Cursor) : Prop where
  leads : c.LeadsTo b.opening
  encloses : b.opening.LeadsTo b.closing
  opens : b.opening.offset < b.closing.offset
  closes : b.closing.offset < next.offset

section Places

variable {c first last next : Cursor} {parts : List Tree} {b : Bracket}

theorem Bracket.Within.mono (h : b.Within first last) (hfirst : c.LeadsTo first)
    (hlast : last.LeadsTo next) : b.Within c next :=
  ⟨hfirst.trans h.leads, h.encloses, h.opens, Nat.lt_of_lt_of_le h.closes hlast.offset_le⟩

/-- A mark is not empty. -/
theorem offset_lt_of_mark {s : String} {x : Char} (hs : s.toList = [x])
    (h : (Phrase.mark s).Yields c (.fits parts next)) : c.offset < next.offset := by
  have hne : (Phrase.mark s).nullable = false := by
    have hempty : s ≠ "" := by
      rintro rfl
      cases hs
    simpa [Phrase.nullable] using hempty
  exact h.leadsTo.offset_lt (h.length.2 hne)

/-- What a phrase holds opens, closes and ends within what the phrase takes. -/
theorem Phrase.Holds.within {p : Phrase} (h : p.Holds c b) (hp : p.Yields c (.fits parts next)) :
    b.Within c next := by
  induction h generalizing parts next with
  | @bracket r opening closing part comma c _ _ next' parts' hbody hopening hinside hclosing =>
    obtain ⟨hopen, hclose⟩ := r.marks_of_body hbody
    have hfirst := offset_lt_of_mark hopen hopening
    have hlast := hinside.leadsTo.offset_le
    have hyields : (bracketed opening part comma closing).Yields c
        (.fits ([] ++ (parts' ++ [])) next') := .seq hopening (.seq hinside hclosing)
    rw [← hbody] at hyields
    cases hp.unique (.ruleFits hyields)
    exact ⟨.refl c, hopening.leadsTo.trans hinside.leadsTo, Nat.lt_of_lt_of_le hfirst hlast,
      offset_lt_of_mark hclose hclosing⟩
  | body _ ih =>
    cases hp with
    | terminal hp => cases hp
    | ruleFits hbody => exact ih hbody
  | seqFirst _ ih =>
    cases hp with
    | terminal hp => cases hp
    | seq hfirst hsecond => exact (ih hfirst).mono (.refl _) hsecond.leadsTo
  | seqSecond hfirst _ ih =>
    cases hp with
    | terminal hp => cases hp
    | seq hfirst' hsecond =>
      cases hfirst.unique hfirst'
      exact (ih hsecond).mono hfirst.leadsTo (.refl _)
  | eitherFirst hfirst _ ih =>
    cases hp with
    | terminal hp => cases hp
    | eitherFirst hfirst' => exact ih hfirst'
    | eitherSecond hfails _ => cases hfirst.unique hfails
  | eitherSecond hfails _ ih =>
    cases hp with
    | terminal hp => cases hp
    | eitherFirst hfirst => cases hfails.unique hfirst
    | eitherSecond _ hsecond => exact ih hsecond
  | manyFirst hfirst _ ih =>
    cases hp with
    | terminal hp => cases hp
    | manyStop hfails => cases hfirst.unique hfails
    | manyMore hfirst' hmore => exact (ih hfirst').mono (.refl _) hmore.leadsTo
  | manyMore hfirst _ ih =>
    cases hp with
    | terminal hp => cases hp
    | manyStop hfails => cases hfirst.unique hfails
    | manyMore hfirst' hmore =>
      cases hfirst.unique hfirst'
      exact (ih hmore).mono hfirst.leadsTo (.refl _)

/-- A pair of brackets and what stands in it. -/
theorem Phrase.Yields.bracketed {opening closing : String} {part comma : Phrase}
    (h : (bracketed opening part comma closing).Yields c (.fits parts next)) :
    ∃ first last, (mark opening).Yields c (.fits [] first) ∧
      (inside part comma).Yields first (.fits parts last) ∧
      (mark closing).Yields last (.fits [] next) := by
  have hmark : ∀ {s : String} {c next : Cursor} {parts : List Tree},
      (mark s).Yields c (.fits parts next) → parts = [] := by
    intro s c next parts h
    cases h with
    | terminal h =>
      have h := Option.some.inj h
      cases hs : c.spelling? s with
      | none => rw [hs] at h; cases h
      | some split => rw [hs] at h; cases h; rfl
  cases h with
  | terminal h => cases h
  | seq hopening h =>
    cases h with
    | terminal h => cases h
    | seq hinside hclosing =>
      cases hmark hopening
      cases hmark hclosing
      refine ⟨_, _, hopening, ?_, hclosing⟩
      rw [List.nil_append, List.append_nil]
      exact hinside

theorem Phrase.not_holds_mark {s : String} : ¬ (mark s).Holds c b := nofun

/-- What the rule of a bracket holds is that bracket or stands in it. -/
theorem Phrase.Holds.eq_or_inside {r : Rule} {opening closing : String} {part comma : Phrase}
    (h : (rule r).Holds c b) (hbody : r.body = bracketed opening part comma closing)
    (hopening : (mark opening).Yields c (.fits [] first))
    (hinside : (inside part comma).Yields first (.fits parts last)) :
    b = ⟨r, c, last, parts⟩ ∨ (inside part comma).Holds first b := by
  cases h with
  | bracket hbody' hopening' hinside' _ =>
    cases hbody.symm.trans hbody'
    cases hopening.unique hopening'
    cases hinside.unique hinside'
    exact .inl rfl
  | body h =>
    rw [hbody] at h
    cases h with
    | seqFirst h => exact absurd h not_holds_mark
    | seqSecond hopening' h =>
      cases hopening.unique hopening'
      cases h with
      | seqFirst h => exact .inr h
      | seqSecond _ h => exact absurd h not_holds_mark

/-- What a rule holds stands in its body, or is what the rule takes. -/
theorem Phrase.Holds.rule_cases {r : Rule} (h : (rule r).Holds c b)
    (hbody : r.body.Yields c (.fits parts next)) :
    r.body.Holds c b ∨ (b.rule = r ∧ b.opening = c ∧ b.parts = parts) := by
  cases h with
  | body h => exact .inl h
  | bracket hbracketed hopening hinside hclosing =>
    rw [hbracketed] at hbody
    cases hbody.unique (.seq hopening (.seq hinside hclosing))
    exact .inr ⟨rfl, rfl, by simp⟩

/-! ## The characters of a text -/

theorem head?_of_mark {s : String} {x : Char} (hs : s.toList = [x])
    (h : (Phrase.mark s).Yields c (.fits parts next)) : c.rest.head? = some x := by
  cases h with
  | terminal h =>
    have h := Option.some.inj h
    cases hsplit : c.spelling? s with
    | none => rw [hsplit] at h; cases h
    | some split =>
      obtain ⟨hfront, hrest⟩ := Cursor.spelling?_eq_some hsplit
      rw [show c.rest = split.front ++ split.rest from hrest, hfront, hs]
      rfl

/-- A bracket begins and ends with the characters of its rule. -/
theorem Phrase.Holds.head? {p : Phrase} (h : p.Holds c b) :
    b.opening.rest.head? = some b.rule.marks.1 ∧ b.closing.rest.head? = some b.rule.marks.2 := by
  induction h with
  | @bracket r _ _ _ _ _ _ _ _ _ hbody hopening _ hclosing =>
    obtain ⟨hopen, hclose⟩ := r.marks_of_body hbody
    exact ⟨head?_of_mark hopen hopening, head?_of_mark hclose hclosing⟩
  | _ => assumption

/-- The brackets that a phrase holds are characters of the text. -/
theorem Phrase.Holds.getElem? {p : Phrase} {text : List Char}
    (h : p.Holds (.start text) b) (hp : p.Yields (.start text) (.fits parts next)) :
    text[b.opening.offset]? = some b.rule.marks.1 ∧
      text[b.closing.offset]? = some b.rule.marks.2 := by
  have hwithin := h.within hp
  have hopening := (Cursor.LeadsTo.skipSpacing ⟨0, text⟩).trans hwithin.leads
  rw [hopening.getElem?_eq, (hopening.trans hwithin.encloses).getElem?_eq]
  exact h.head?

end Places

end Calculator.Grammar
