import Calculator.CommandLine
import Calculator.Proofs.Evaluation.Messages

/-!
# What a run writes for an expression

A run on words writes one line: the value of the expression that they are, or what is wrong with it.

Results:
* `run_of_words`: words in front of which no option stands are evaluated as one expression.
* `run_writes_line`: the output of such a run is a single line, and so is its error output.
-/

namespace Calculator.CommandLine

/-- Whether an argument in front of the first word gives an option. -/
def isOption (arg : String) : Bool := (flags? arg).isSome || (attachedValue? arg).isSome

/-- The words of an expression, if there are any and no option stands in front of them. -/
def expressionWords? : List String → Option (List String)
  | [] => none
  | "--" :: words => if words.isEmpty then none else some words
  | arg :: rest => if isOption arg then none else some (arg :: rest)

/-- Words in front of which no option stands are evaluated as one expression. -/
theorem run_of_words {args words : List String} (h : expressionWords? args = some words) :
    run args = calculate (" ".intercalate words) := by
  have hcalculate : ∀ {ws : List String}, ws.isEmpty = false →
      calculateWords false ws = calculate (" ".intercalate ws) := by
    intro ws hws
    simp [calculateWords, hws]
  unfold expressionWords? at h
  split at h
  · cases h
  · next rest =>
    split at h
    · cases h
    · next hrest =>
      cases h
      rw [run, runAfter, if_pos rfl]
      exact hcalculate (by simpa using hrest)
  · next arg rest harg =>
    split at h
    · cases h
    · next hoption =>
      cases h
      rw [isOption, Bool.or_eq_true, not_or, Bool.not_eq_true, Option.isSome_eq_false_iff,
        Bool.not_eq_true, Option.isSome_eq_false_iff, Option.isNone_iff_eq_none,
        Option.isNone_iff_eq_none] at hoption
      rw [run, runAfter, if_neg harg, hoption.1, hoption.2]
      exact hcalculate rfl

/-- A text whose only line feed is its last character. -/
def IsLine (s : String) : Prop := ∃ body, OneLine body ∧ s = body ++ "\n"

/-- A run on words writes the value of the expression that they are, or what is wrong with it, and
    in either case a single line, whatever the words are. -/
theorem run_writes_line {args words : List String} (h : expressionWords? args = some words) :
    (∀ v, evaluateText (" ".intercalate words) = .ok v →
      run args = ⟨0, Decimal.resultText v.float ++ "\n", ""⟩ ∧ IsLine (run args).stdout) ∧
    (∀ err, evaluateText (" ".intercalate words) = .error err →
      run args = ⟨2, "", "error: " ++ err.message ++ "\n"⟩ ∧ IsLine (run args).stderr) := by
  rw [run_of_words h]
  unfold calculate
  refine ⟨fun v hv => ?_, fun err herr => ?_⟩
  · rw [hv]
    exact ⟨rfl, _, Decimal.oneLine_resultText v.float, rfl⟩
  · rw [herr]
    exact ⟨rfl, _, OneLine.append_iff.mpr ⟨by decide, evaluateText_oneLine herr⟩, rfl⟩

/-- A string literal over two lines, with a control character and a quote in it, is quoted on one
    line. -/
theorem run_writes_line_string :
    run ["--", "\"\\\n", "\x07'\""] =
      ⟨2, "", "error: unsupported syntax: string literal \"\\\\\\n \\u\x7b7\x7d'\"\n"⟩ ∧
    IsLine (run ["--", "\"\\\n", "\x07'\""]).stderr := by
  have hfails : (evaluateText (" ".intercalate ["\"\\\n", "\x07'\""])).isOk = false := by
    decide +kernel
  have hwords : expressionWords? ["--", "\"\\\n", "\x07'\""] = some ["\"\\\n", "\x07'\""] := rfl
  refine ⟨by decide +kernel, ?_⟩
  cases heval : evaluateText (" ".intercalate ["\"\\\n", "\x07'\""]) with
  | ok v => rw [heval] at hfails; cases hfails
  | error err => exact ((run_writes_line hwords).2 err heval).2

end Calculator.CommandLine
