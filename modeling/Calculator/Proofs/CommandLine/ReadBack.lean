import Calculator.Proofs.CommandLine.Words
import Calculator.Proofs.Evaluation.ReadBack

/-!
# Results on the command line

What a run writes to the standard output is the usage, the version or a value.  The text of a value
gives no option, so that a run on it alone evaluates it.

Results:
* `runAfter_success`: what a run that succeeds has written.
* `run_resultText`: a run on the text of a value is an evaluation of it.
* `result_reads_back`: every value but the NaN is that of its own text, and a run on the line that
  another run has written as its result writes the same line.
-/

namespace Calculator.CommandLine

open Decimal

/-! ## What a run writes -/

theorem Outcome.failure_ne_success (e s : String) : Outcome.failure e ≠ .success s :=
  fun h => absurd (congrArg Outcome.code h) (by simp [failure, success])

theorem Outcome.success_injective {s t : String} (h : Outcome.success s = .success t) : s = t :=
  congrArg Outcome.stdout h

/-- What an evaluation that succeeds writes is the text of a value. -/
theorem calculate_success {expression s : String} (h : calculate expression = .success s) :
    ∃ v : Value, s = resultText v.float ++ "\n" := by
  unfold calculate at h
  split at h
  · next v _ => exact ⟨v, (Outcome.success_injective h).symm⟩
  · exact absurd h (Outcome.failure_ne_success _ _)

theorem calculateWords_success {helpAsked : Bool} {words : List String} {s : String}
    (h : calculateWords helpAsked words = .success s) :
    s = usage ∨ ∃ v : Value, s = resultText v.float ++ "\n" := by
  unfold calculateWords at h
  split_ifs at h
  · exact .inl (Outcome.success_injective h).symm
  · exact .inr (calculate_success h)

theorem applyFlags_success {helpAsked : Bool} {flags : List Flag} {s : String}
    (h : applyFlags helpAsked flags = .error (.success s)) : s = versionText := by
  induction flags generalizing helpAsked with
  | nil => cases h
  | cons flag rest ih =>
    cases flag with
    | help =>
      rw [applyFlags] at h
      split_ifs at h
      · exact absurd (Except.error.inj h) (Outcome.failure_ne_success _ _)
      · exact ih h
    | version => exact (Outcome.success_injective (Except.error.inj h)).symm

/-- A run that succeeds has written the usage, the version or the text of a value. -/
theorem runAfter_success {helpAsked : Bool} {args : List String} {s : String}
    (h : runAfter helpAsked args = .success s) :
    s = usage ∨ s = versionText ∨ ∃ v : Value, s = resultText v.float ++ "\n" := by
  induction args generalizing helpAsked with
  | nil => exact (calculateWords_success h).imp_right .inr
  | cons arg rest ih =>
    rw [runAfter] at h
    split_ifs at h
    · exact (calculateWords_success h).imp_right .inr
    · split at h
      · split at h
        · exact ih h
        · next houtcome => exact .inr (.inl (applyFlags_success (h ▸ houtcome)))
      · exact absurd h (Outcome.failure_ne_success _ _)
      · exact (calculateWords_success h).imp_right .inr

/-! ## The text of a value as an argument -/

/-- An option starts with a minus sign and another one or the letter of an option. -/
theorem exists_of_isOption {arg : String} (h : isOption arg = true) : ∃ c cs,
    arg.toList = '-' :: c :: cs ∧ (c = '-' ∨ Flag.ofLetter? c ≠ none) := by
  rcases (Bool.or_eq_true _ _).mp h with h | h
  · unfold flags? at h
    split_ifs at h with hhelp hversion
    · exact ⟨'-', _, by rw [hhelp]; rfl, .inl rfl⟩
    · exact ⟨'-', _, by rw [hversion]; rfl, .inl rfl⟩
    · split at h
      · next letter letters heq =>
        refine ⟨letter, letters, heq, .inr fun hletter => ?_⟩
        rw [List.mapM_cons, hletter] at h
        cases h
      · cases h
  · obtain ⟨⟨flag, value⟩, hvalue⟩ := Option.isSome_iff_exists.mp h
    obtain ⟨given, -, hgiven⟩ := List.exists_of_findSome?_eq_some hvalue
    obtain ⟨rest, hrest, -⟩ := Option.map_eq_some_iff.mp hgiven
    rw [Grammar.afterSpelling?_eq_some] at hrest
    cases given <;> exact ⟨'-', _, hrest, .inl rfl⟩

theorem resultText_of_isNaN {x : Float} (h : x.isNaN = true) : resultText x = "NaN" := by
  rw [Binary64.isNaN_eq] at h
  rw [resultText, Layout.text]
  cases hd : Binary64.datum x with
  | nan => rfl
  | infinity | finite =>
    rw [hd] at h
    cases h

/-- The text of a value starts with a digit or the first letter of infinity, behind a minus sign
    if it is negative. -/
theorem exists_text {x : Float} (h : x.isNaN = false) : ∃ negative c cs,
    (resultText x).toList = signed negative (c :: cs) ∧ (c.isDigit = true ∨ c = 'i') := by
  rw [resultText, String.toList_ofList]
  rw [Binary64.isNaN_eq] at h
  unfold Layout.text
  cases hd : Binary64.datum x with
  | nan =>
    rw [hd] at h
    cases h
  | infinity negative => exact ⟨negative, 'i', ['n', 'f'], rfl, .inr rfl⟩
  | finite negative m k =>
    obtain ⟨w, hw, -⟩ := exists_written (if m = 0 then ⟨0, 0⟩ else shortest m k)
    obtain ⟨c, cs, hcs⟩ := List.exists_cons_of_ne_nil w.whole_ne_nil
    refine ⟨negative, c, cs ++ (w.fractionText ++ w.exponentText), ?_, .inl ?_⟩
    · show signed negative _ = _
      rw [hw, Written.chars, hcs, List.cons_append]
    · exact w.isDigit_whole c (by rw [hcs]; simp)

/-- The text of a value gives no option. -/
theorem isOption_resultText {x : Float} (h : x.isNaN = false) :
    isOption (resultText x) = false := by
  obtain ⟨negative, c, cs, htext, hc⟩ := exists_text h
  by_contra hoption
  obtain ⟨c', cs', hstart, hc'⟩ := exists_of_isOption (Bool.eq_true_of_not_eq_false hoption)
  have hletter : Flag.ofLetter? c = none := by
    unfold Flag.ofLetter?
    split
    · exact absurd hc (by decide)
    · exact absurd hc (by decide)
    · rfl
  rw [htext] at hstart
  cases negative with
  | false =>
    rw [(List.cons.inj hstart).1] at hc
    exact absurd hc (by decide)
  | true =>
    obtain rfl : c = c' := (List.cons.inj (List.cons.inj hstart).2).1
    rcases hc' with rfl | hsome
    · exact absurd hc (by decide)
    · exact hsome hletter

theorem resultText_ne_dashes {x : Float} (h : x.isNaN = false) : resultText x ≠ "--" := by
  obtain ⟨negative, c, cs, htext, hc⟩ := exists_text h
  intro heq
  have hdashes : signed negative (c :: cs) = ['-', '-'] := by
    rw [← htext, heq]
    rfl
  have hdash : c = '-' := by
    cases negative with
    | false => exact (List.cons.inj hdashes).1
    | true => exact (List.cons.inj (List.cons.inj hdashes).2).1
  rw [hdash] at hc
  exact absurd hc (by decide)

/-- The text of a value is a word. -/
theorem expressionWords?_resultText {x : Float} (h : x.isNaN = false) :
    expressionWords? [resultText x] = some [resultText x] := by
  have hoption := isOption_resultText h
  unfold expressionWords?
  split
  · next heq => cases heq
  · next heq => exact absurd (List.cons.inj heq).1 (resultText_ne_dashes h)
  · next heq =>
    rw [← heq, ← (List.cons.inj heq).1, hoption]
    rfl

theorem calculate_of_ok {expression : String} {v : Value} (h : evaluateText expression = .ok v) :
    calculate expression = .success (resultText v.float ++ "\n") := by
  unfold calculate
  split
  · next heq => rw [Except.ok.inj (heq.symm.trans h)]
  · next heq => exact absurd (heq.symm.trans h) nofun

/-- A run on the text of a value is an evaluation of it. -/
theorem run_resultText {x : Float} (h : x.isNaN = false) :
    run [resultText x] = .success (resultText x ++ "\n") := by
  rw [run_of_words (expressionWords?_resultText h), String.intercalate_singleton,
    calculate_of_ok (evaluateText_resultText h), Value.float_ofFloat]

/-- The text of a value other than the NaN has that value, bit for bit; hence a run on a line that
    another run has written as its result writes that line. -/
theorem result_reads_back :
    (∀ x : Float, x.isNaN = false → evaluateText (resultText x) = .ok (.ofFloat x)) ∧
    ∀ (args : List String) (line : String), run args = ⟨0, line ++ "\n", ""⟩ →
      line ++ "\n" ≠ usage → line ++ "\n" ≠ versionText → line ≠ "NaN" →
        run [line] = ⟨0, line ++ "\n", ""⟩ := by
  refine ⟨fun x hx => evaluateText_resultText hx, fun args line hrun husage hversion hnan => ?_⟩
  obtain ⟨v, hv⟩ := ((runAfter_success hrun).resolve_left husage).resolve_left hversion
  obtain rfl : line = resultText v.float := (String.append_left_inj "\n").mp hv
  have hnumber : v.float.isNaN = false := by
    by_contra hisNaN
    exact hnan (resultText_of_isNaN (Bool.eq_true_of_not_eq_false hisNaN))
  exact run_resultText hnumber

/-- A negative zero and the quotient of `1` and `-3`. -/
theorem result_reads_back_negative :
    evaluateText (resultText (-0.0)) = .ok (.ofFloat (-0.0)) ∧
    run ["1", "/", "-3"] = ⟨0, "-0.3333333333333333\n", ""⟩ ∧
    run ["-0.3333333333333333"] = ⟨0, "-0.3333333333333333\n", ""⟩ := by
  have hrun : run ["1", "/", "-3"] = ⟨0, "-0.3333333333333333" ++ "\n", ""⟩ := by decide +kernel
  exact ⟨result_reads_back.1 (-0.0) (by decide +kernel), hrun,
    result_reads_back.2 _ "-0.3333333333333333" hrun (by decide) (by decide) (by decide)⟩

end Calculator.CommandLine
