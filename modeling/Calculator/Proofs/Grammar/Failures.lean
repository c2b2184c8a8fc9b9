import Calculator.Proofs.Grammar.Brackets
import Calculator.Proofs.Grammar.Viability

/-!
# The rules that a message lists

While a text is tried, the furthest failures are cut back, replaced and added to whenever a rule
fails.  What is known in the end are still rules that were tried at one place and failed there, and
there is at least one of them for every text that is not accepted.

Results:
* `Phrase.Calls`: which rules are tried at which places.
* `Phrase.run_invariant`: what each failure keeps, a whole run keeps.
* `recorded_note`, `Phrase.recorded_of_run`: all rules that are known have failed at the place that
  is known.
* `Phrase.failed_ne_nil_of_run`: some rule is known once a rule has failed.
* `offset_le_of_error`: the place that is reported is the furthest one where a rule has failed.
* `recognize_error_recorded`: what is known of a text that is not accepted.
-/

namespace Calculator.Grammar

/-! ## Places -/

/-- What is left of a text at a place is what stands behind so many characters. -/
theorem Cursor.LeadsTo.rest_eq {text : List Char} {c : Cursor}
    (h : (Cursor.mk 0 text).LeadsTo c) :
    c.rest = text.drop c.offset ∧ c.offset ≤ text.length := by
  obtain ⟨taken, htext, hoffset⟩ := h
  rw [Nat.zero_add] at hoffset
  rw [hoffset, show text = taken ++ c.rest from htext, List.drop_left, List.length_append]
  exact ⟨rfl, Nat.le_add_right _ _⟩

/-! ## Calls -/

/-- Which rules are tried at which places while a phrase is tried at a place. -/
inductive Phrase.Calls : Phrase → Cursor → Rule → Cursor → Prop
  | self {r : Rule} {c : Cursor} : Calls (.rule r) c r c
  | body {r s : Rule} {c d : Cursor} : Calls r.body c s d → Calls (.rule r) c s d
  | seqFirst {p q : Phrase} {s : Rule} {c d : Cursor} : Calls p c s d → Calls (.seq p q) c s d
  | seqSecond {p q : Phrase} {s : Rule} {c mid d : Cursor} {parts : List Tree} :
      p.Yields c (.fits parts mid) → Calls q mid s d → Calls (.seq p q) c s d
  | eitherFirst {p q : Phrase} {s : Rule} {c d : Cursor} :
      Calls p c s d → Calls (.either p q) c s d
  | eitherSecond {p q : Phrase} {s : Rule} {c d : Cursor} :
      p.Yields c .fails → Calls q c s d → Calls (.either p q) c s d
  | manyFirst {p : Phrase} {s : Rule} {c d : Cursor} : Calls p c s d → Calls (.many p) c s d
  | manyMore {p : Phrase} {s : Rule} {c mid d : Cursor} {parts : List Tree} :
      p.Yields c (.fits parts mid) → Calls (.many p) mid s d → Calls (.many p) c s d

namespace Phrase

variable {p q : Phrase} {c mid place : Cursor} {r : Rule} {fuel : Nat} {f f' : Furthest}
  {o : Outcome}

/-- Rules are tried behind what has been taken before. -/
theorem Calls.leadsTo (h : p.Calls c r place) : c.LeadsTo place := by
  induction h with
  | self => exact .refl _
  | body _ ih | seqFirst _ ih | eitherFirst _ ih | eitherSecond _ _ ih | manyFirst _ ih => exact ih
  | seqSecond hp _ ih | manyMore hp _ ih => exact hp.leadsTo.trans ih

/-- Whether a rule that is tried fails there. -/
def FailsIn (p : Phrase) (c : Cursor) (r : Rule) (place : Cursor) : Prop :=
  p.Calls c r place ∧ (rule r).Yields place .fails

/-- Whether a property is kept by noting any rule that fails while a phrase is tried. -/
def Preserves (p : Phrase) (c : Cursor) (P : Furthest → Prop) : Prop :=
  ∀ r place (before after : Furthest), p.FailsIn c r place → P after →
    P (before.note after r place.offset)

theorem Preserves.of_calls {P : Furthest → Prop} (h : p.Preserves c P)
    (hcalls : ∀ {r place}, q.Calls mid r place → p.Calls c r place) : q.Preserves mid P :=
  fun r place before after hr => h r place before after ⟨hcalls hr.1, hr.2⟩

/-- What each failure keeps, a whole run keeps. -/
theorem run_invariant {P : Furthest → Prop} (hP : p.Preserves c P)
    (hrun : p.run fuel c f = some (o, f')) (hf : P f) : P f' := by
  induction fuel generalizing p c f f' o with
  | zero => cases hrun
  | succ fuel ih =>
    cases p with
    | rule r =>
      have hbody : r.body.Preserves c P := hP.of_calls .body
      rw [run] at hrun
      split at hrun
      · next hfits => cases hrun; exact ih hbody hfits hf
      · next hfails =>
        cases hrun
        have hrule : (rule r).FailsIn c r c := ⟨.self, .ruleFails (yields_of_run hfails)⟩
        exact hP r c f _ hrule (ih hbody hfails hf)
      · cases hrun
    | seq p q =>
      have hfirst : p.Preserves c P := hP.of_calls .seqFirst
      rcases run_seq hrun with ⟨hp, -⟩ | ⟨parts, mid, f₁, hp, hq⟩
      · exact ih hfirst hp hf
      · have hsecond : q.Preserves mid P := hP.of_calls (.seqSecond (yields_of_run hp))
        have hmid := ih hfirst hp hf
        rcases hq with ⟨hq, -⟩ | ⟨more, last, hq, -⟩
        · exact ih hsecond hq hmid
        · exact ih hsecond hq hmid
    | either p q =>
      have hfirst : p.Preserves c P := hP.of_calls .eitherFirst
      rw [run] at hrun
      split at hrun
      · next hp =>
        have hsecond : q.Preserves c P := hP.of_calls (.eitherSecond (yields_of_run hp))
        exact ih hsecond hrun (ih hfirst hp hf)
      · exact ih hfirst hrun hf
    | many p =>
      have hfirst : p.Preserves c P := hP.of_calls .manyFirst
      rcases run_many hrun with ⟨hp, -⟩ | ⟨parts, mid, f₁, more, last, hp, hmany, -⟩
      · exact ih hfirst hp hf
      · have hagain : (many p).Preserves mid P := hP.of_calls (.manyMore (yields_of_run hp))
        exact ih hagain hmany (ih hfirst hp hf)
    | _ => cases hrun; exact hf

end Phrase

/-! ## What is known -/

/-- All rules that are known have failed at the place that is known, while a phrase was tried. -/
def Furthest.Recorded (f : Furthest) (p : Phrase) (c : Cursor) : Prop :=
  ∀ r ∈ f.failed, ∃ place, p.FailsIn c r place ∧ place.offset = f.offset

/-- Nothing is known to have failed behind the beginning without a rule that failed there. -/
def Furthest.Founded (f : Furthest) : Prop := f.failed = [] → f.offset = 0

section Notes

variable {p : Phrase} {c place : Cursor} {r : Rule} {before after : Furthest} {offset : Nat}

/-- One more failure leaves rules that have failed there. -/
theorem recorded_note (hr : p.FailsIn c r place) (hafter : after.Recorded p c) :
    (before.note after r place.offset).Recorded p c := by
  unfold Furthest.note
  dsimp only
  split_ifs with hone hsame hfurther
  · exact hafter
  · -- the rules known before are kept, and one is added
    intro s hs
    rcases List.mem_append.mp hs with hs | hs
    · obtain ⟨place', hfails, hplace⟩ := hafter s (List.mem_of_mem_take hs)
      exact ⟨place', hfails, hplace.trans hsame.symm⟩
    · obtain rfl := List.mem_singleton.mp hs
      exact ⟨place, hr, rfl⟩
  · intro s hs
    obtain rfl := List.mem_singleton.mp hs
    exact ⟨place, hr, rfl⟩
  · exact hafter

/-- The place that is known is never further back than a failure. -/
theorem Furthest.le_offset_note (before after : Furthest) (r : Rule) (offset : Nat) :
    after.offset ≤ (before.note after r offset).offset ∧
      offset ≤ (before.note after r offset).offset := by
  unfold note
  dsimp only
  split_ifs with hone hsame hfurther
  · -- a rule is known at the place where this one was begun
    have hplace : after.offset = offset := by
      by_contra hne
      rw [countAt, if_neg hne] at hone
      omega
    omega
  · exact ⟨hsame.ge, le_rfl⟩
  · exact ⟨hfurther.le, le_rfl⟩
  · omega

/-- Once a failure has been noted, some rule is known. -/
theorem failed_note_ne_nil (hafter : after.Founded) :
    (before.note after r offset).failed ≠ [] := by
  unfold Furthest.note
  dsimp only
  split_ifs with hone hsame hfurther
  · -- exactly one rule has been added at the place
    intro hnil
    rw [Furthest.countAt, hnil, List.length_nil, ite_self] at hone
    cases hone
  · exact List.append_ne_nil_of_right_ne_nil _ (List.cons_ne_nil r [])
  · exact List.cons_ne_nil r []
  · intro hnil
    have hzero := hafter hnil
    omega

theorem founded_note (hafter : after.Founded) : (before.note after r offset).Founded :=
  fun hnil => absurd hnil (failed_note_ne_nil hafter)

end Notes

section Runs

variable {p : Phrase} {c : Cursor} {r : Rule} {fuel : Nat} {f f' : Furthest} {o : Outcome}

theorem Phrase.recorded_of_run (hrun : p.run fuel c f = some (o, f')) (hf : f.Recorded p c) :
    f'.Recorded p c :=
  run_invariant (P := fun g => g.Recorded p c) (fun _ _ _ _ => recorded_note) hrun hf

theorem Phrase.founded_of_run (hrun : p.run fuel c f = some (o, f')) (hf : f.Founded) :
    f'.Founded :=
  run_invariant (fun _ _ _ _ _ => founded_note) hrun hf

theorem Phrase.offset_le_of_run (hrun : p.run fuel c f = some (o, f')) : f.offset ≤ f'.offset :=
  run_invariant (P := fun g => f.offset ≤ g.offset)
    (fun r place before after _ hafter =>
      hafter.trans (before.le_offset_note after r place.offset).1) hrun le_rfl

/-- No rule that was tried has failed behind the place that is known. -/
theorem Phrase.FailsIn.offset_le {place : Cursor} (h : p.FailsIn c r place)
    (hrun : p.run fuel c f = some (o, f')) : place.offset ≤ f'.offset := by
  obtain ⟨hcalls, hfails⟩ := h
  induction fuel generalizing p c f f' o with
  | zero => cases hrun
  | succ fuel ih =>
    cases hcalls with
    | self =>
      rw [run] at hrun
      split at hrun
      · next hbody => cases hfails.unique (.ruleFits (yields_of_run hbody))
      · cases hrun
        exact (f.le_offset_note _ _ _).2
      · cases hrun
    | body hcalls =>
      rw [run] at hrun
      split at hrun
      · next hbody => cases hrun; exact ih hbody hcalls
      · next hbody =>
        cases hrun
        exact (ih hbody hcalls).trans (f.le_offset_note _ _ _).1
      · cases hrun
    | seqFirst hcalls =>
      rcases run_seq hrun with ⟨hp, -⟩ | ⟨parts, mid, f₁, hp, ⟨hq, -⟩ | ⟨more, last, hq, -⟩⟩
      · exact ih hp hcalls
      · exact (ih hp hcalls).trans (offset_le_of_run hq)
      · exact (ih hp hcalls).trans (offset_le_of_run hq)
    | seqSecond hyields hcalls =>
      rcases run_seq hrun with ⟨hp, -⟩ | ⟨parts, mid, f₁, hp, hq⟩
      · cases hyields.unique (yields_of_run hp)
      · cases hyields.unique (yields_of_run hp)
        rcases hq with ⟨hq, -⟩ | ⟨more, last, hq, -⟩
        · exact ih hq hcalls
        · exact ih hq hcalls
    | eitherFirst hcalls =>
      rw [run] at hrun
      split at hrun
      · next hp => exact (ih hp hcalls).trans (offset_le_of_run hrun)
      · exact ih hrun hcalls
    | eitherSecond hyields hcalls =>
      rw [run] at hrun
      split at hrun
      · exact ih hrun hcalls
      · next hp =>
        cases hyields.unique (yields_of_run hrun)
        exact absurd hrun (hp f')
    | manyFirst hcalls =>
      rcases run_many hrun with ⟨hp, -⟩ | ⟨parts, mid, f₁, more, last, hp, hmany, -⟩
      · exact ih hp hcalls
      · exact (ih hp hcalls).trans (offset_le_of_run hmany)
    | manyMore hyields hcalls =>
      rcases run_many hrun with ⟨hp, -⟩ | ⟨parts, mid, f₁, more, last, hp, hmany, -⟩
      · cases hyields.unique (yields_of_run hp)
      · cases hyields.unique (yields_of_run hp)
        exact ih hmany hcalls

/-- Once a rule has failed, some rule is known. -/
theorem Phrase.failed_ne_nil_of_run (hrun : (rule r).run fuel c f = some (.fails, f'))
    (hf : f.Founded) : f'.failed ≠ [] := by
  cases fuel with
  | zero => cases hrun
  | succ fuel =>
    rw [run] at hrun
    split at hrun
    · cases hrun
    · next hbody =>
      cases hrun
      exact failed_note_ne_nil (founded_of_run hbody hf)
    · cases hrun

/-- So is some rule once a whole text has failed, at its expression or behind it. -/
theorem failed_ne_nil_of_wholeText (hrun : wholeText.run fuel c f = some (.fails, f'))
    (hf : f.Founded) : f'.failed ≠ [] := by
  cases fuel with
  | zero => cases hrun
  | succ fuel =>
    rcases Phrase.run_seq hrun with ⟨hp, -⟩ | ⟨parts, mid, f₁, hp, ⟨hq, -⟩ | ⟨more, last, -, ho⟩⟩
    · exact Phrase.failed_ne_nil_of_run hp hf
    · exact Phrase.failed_ne_nil_of_run hq (Phrase.founded_of_run hp hf)
    · cases ho

end Runs

/-! ## Texts that are not accepted -/

/-- A text that is not accepted has been tried to the end, and has failed. -/
theorem run_of_error {text : List Char} {f : Furthest} (h : recognize text = .error f) :
    wholeText.run (fuelFor text) (Cursor.start text) .start = some (.fails, f) := by
  obtain ⟨o, f', hrun⟩ := exists_answer_wholeText text
  rw [recognize, hrun] at h
  cases o with
  | fails => cases h; exact hrun
  | fits parts next =>
    cases Phrase.yields_of_run hrun with
    | terminal hterminal => cases hterminal
    | seq hexpression _ =>
      cases hexpression with
      | terminal hterminal => cases hterminal
      | ruleFits _ => cases h

/-- No rule that was tried has failed behind the place that is reported. -/
theorem offset_le_of_error {text : List Char} {f : Furthest} (h : recognize text = .error f)
    {r : Rule} {place : Cursor} (hr : wholeText.FailsIn (.start text) r place) :
    place.offset ≤ f.offset :=
  hr.offset_le (run_of_error h)

theorem expectedText_ne_unknown {rules : List Rule} (h : rules ≠ []) :
    expectedText rules ≠ "unknown parsing error" := by
  obtain ⟨r, more, rfl⟩ := List.exists_cons_of_ne_nil h
  have hmem : r ∈ Rule.distinct (r :: more) := Rule.mem_distinct.mpr List.mem_cons_self
  unfold expectedText
  split
  · next hnil => rw [hnil] at hmem; cases hmem
  · intro heq
    have hhead := congrArg (fun s : String => s.toList.head?) heq
    rw [String.toList_append] at hhead
    cases hhead

/-- What is known of a text that is not accepted: a place in the text, and at least one rule, each
    of which was tried at exactly that place and failed there.  So there is something to say about
    the text. -/
theorem recognize_error_recorded {text : String} {f : Furthest}
    (h : recognize text.toList = .error f) :
    f.offset ≤ text.toList.length ∧ f.failed ≠ [] ∧
      (∀ r ∈ f.failed, ∃ place, wholeText.FailsIn (.start text.toList) r place ∧
        place.offset = f.offset ∧ place.rest = text.toList.drop f.offset) ∧
      parse text =
        .error (.invalidSyntax (Text.position text.toList f.offset) (.expected f.failed)) ∧
      (SyntaxFault.expected f.failed).message ≠ "unknown parsing error" := by
  have hrun := run_of_error h
  have hfailed : f.failed ≠ [] := failed_ne_nil_of_wholeText hrun fun _ => rfl
  have hrecorded : f.Recorded wholeText (.start text.toList) :=
    Phrase.recorded_of_run hrun fun _ hr => nomatch hr
  have hplace : ∀ r ∈ f.failed, ∃ place, wholeText.FailsIn (.start text.toList) r place ∧
      place.offset = f.offset ∧ place.rest = text.toList.drop f.offset ∧
        f.offset ≤ text.toList.length := by
    intro r hr
    obtain ⟨place, hfails, hoffset⟩ := hrecorded r hr
    have hleads := (Cursor.LeadsTo.skipSpacing ⟨0, text.toList⟩).trans hfails.1.leadsTo
    obtain ⟨hrest, hle⟩ := hleads.rest_eq
    rw [hoffset] at hrest hle
    exact ⟨place, hfails, hoffset, hrest, hle⟩
  obtain ⟨r, hr⟩ := List.exists_mem_of_ne_nil _ hfailed
  obtain ⟨-, -, -, -, hle⟩ := hplace r hr
  refine ⟨hle, hfailed, fun r hr => ?_, ?_, expectedText_ne_unknown hfailed⟩
  · obtain ⟨place, hfails, hoffset, hrest, -⟩ := hplace r hr
    exact ⟨place, hfails, hoffset, hrest⟩
  · unfold parse
    dsimp only
    rw [h]

/-- A second sign stands where an operand should: rules have failed in front of it. -/
theorem recognize_error_recorded_sign :
    ∃ f, recognize "1 + * 2".toList = .error f ∧ f.failed ≠ [] ∧
      (∃ r ∈ f.failed, ∃ place, wholeText.FailsIn (.start "1 + * 2".toList) r place ∧
        place.offset = 4 ∧ place.rest = "* 2".toList) ∧
      (SyntaxFault.expected f.failed).message ≠ "unknown parsing error" := by
  have hoffset : ((recognize "1 + * 2".toList).mapError Furthest.offset).map (fun _ => ()) =
      .error 4 := by decide +kernel
  have hdrop : "1 + * 2".toList.drop 4 = "* 2".toList := by decide
  cases hrecognize : recognize "1 + * 2".toList with
  | ok tree => rw [hrecognize] at hoffset; cases hoffset
  | error f =>
    rw [hrecognize] at hoffset
    have hf : f.offset = 4 := Except.error.inj hoffset
    obtain ⟨-, hfailed, hplaces, -, hmessage⟩ := recognize_error_recorded hrecognize
    obtain ⟨r, hr⟩ := List.exists_mem_of_ne_nil _ hfailed
    obtain ⟨place, hfails, hplace, hrest⟩ := hplaces r hr
    rw [hf] at hplace hrest
    exact ⟨f, rfl, hfailed, ⟨r, hr, place, hfails, hplace, hrest.trans hdrop⟩, hmessage⟩

end Calculator.Grammar
