import Calculator.Proofs.Checked.Counting
import Calculator.Proofs.Checked.Rounding
import Calculator.Proofs.Checked.Special

/-!
# The functions of the calculator on machine words

Every function that an expression can call, with its operations on words and lists checked.

Results:
* `implements_functions`: each of them gives the answers of the function that it stands for.
* `functions_never_fault`: none of them ever faults, and arguments are converted to the very numbers
  that they are.
-/

namespace Calculator.Checked

open Binary64 CheckedFunction

/-- The functions of angles and the hyperbolic functions. -/
def trigonometric : List CheckedFunction :=
  [straight₁ (.ofReal "sin" Float.sin), straight₁ (.ofReal "cos" Float.cos),
    straight₁ (.ofReal "tan" Float.tan), straight₁ (.ofRealRestricted "asin" Float.asin),
    straight₁ (.ofRealRestricted "acos" Float.acos), straight₁ (.ofReal "atan" Float.atan),
    straight₂ (.ofReals "atan2" Float.atan2), straight₁ (.ofReal "sinh" Float.sinh),
    straight₁ (.ofReal "cosh" Float.cosh), straight₁ (.ofReal "tanh" Float.tanh),
    straight₁ (.ofReal "asinh" Float.asinh), straight₁ (.ofRealRestricted "acosh" Float.acosh),
    straight₁ (.ofReal "atanh" Elementary.inverseTanh),
    straight₁ (.ofReal "degrees" Elementary.degrees),
    straight₁ (.ofReal "radians" Elementary.radians), straight Elementary.hypotFunction]

/-- Powers, roots and logarithms. -/
def exponential : List CheckedFunction :=
  [straight₁ (.ofReal "exp" Float.exp), straight₁ (.ofReal "exp2" Float.exp2),
    straight₁ (.ofReal "expm1" Elementary.expMinusOne), straight Elementary.logFunction,
    straight₁ (.ofReal "log2" Float.log2), straight₁ (.ofRealRestricted "log10" Float.log10),
    straight₁ (.ofReal "log1p" Elementary.logOnePlus), straight₂ (.ofReals "pow" Float.pow),
    straight₁ (.ofReal "sqrt" Float.sqrt), straight₁ (.ofReal "cbrt" Float.cbrt)]

/-- The functions that round or take values apart. -/
def rounding : List CheckedFunction :=
  [straight₁ (.ofReal "ceil" ceil), straight₁ (.ofReal "floor" floor),
    straight₁ (.ofReal "trunc" trunc), straight₁ (.ofValue "fabs" Value.abs),
    straight₂ (.ofValues "copysign" Value.copySign), straight₂ (.ofReals "fmod" fmod),
    straight₂ (.ofRealsUnsigned "remainder" remainder), ldexpFunction,
    ofRealsUnsigned "nextafter" stepToward, ofRealUnsigned "ulp" ulp]

/-- The special functions. -/
def special : List CheckedFunction :=
  [ofRealUnsigned "gamma" gamma, ofRealUnsigned "lgamma" logGamma, ofRealUnsigned "erf" erf,
    ofRealUnsigned "erfc" erfc]

/-- The functions of integers. -/
def counting : List CheckedFunction :=
  [factorialFunction, combFunction, permFunction, gcdFunction, lcmFunction, isqrtFunction]

/-- The functions that say 1 or 0. -/
def classification : List CheckedFunction :=
  [straight₁ (.ofProperty "isfinite" Float.isFinite), straight₁ (.ofProperty "isinf" Float.isInf),
    straight₁ (.ofProperty "isnan" Float.isNaN), straight₂ Classification.iscloseFunction]

/-- The functions of the calculator. -/
def functions : List CheckedFunction :=
  trigonometric ++ exponential ++ rounding ++ special ++ counting ++ classification

/-! ## The answers of the functions -/

theorem implements_special : List.Forall₂ Implements special Special.functions :=
  .cons (implements_ofRealUnsigned gamma_eq) <| .cons (implements_ofRealUnsigned logGamma_eq) <|
    .cons (implements_ofRealUnsigned erf_eq) <| .cons (implements_ofRealUnsigned erfc_eq) .nil

theorem implements_counting : List.Forall₂ Implements counting Counting.functions :=
  .cons implements_factorial <| .cons implements_comb <| .cons implements_perm <|
    .cons implements_gcd <| .cons implements_lcm <| .cons implements_isqrt .nil

/-- Each checked function gives the answers of the function that it stands for. -/
theorem implements_functions :
    List.Forall₂ Implements functions Whitelist.standard.functions := by
  refine List.rel_append (List.rel_append (List.rel_append (List.rel_append
    (List.rel_append ?_ ?_) ?_) implements_special) implements_counting) ?_
  -- most functions of the groups that are left compute with values only
  all_goals
    repeat' apply List.Forall₂.cons
  all_goals first
    | exact .nil
    | exact implements_straight _
    | exact implements_straight₁ (Function.takesExactly_ofValue _ _)
    | exact implements_straight₂ (Function.takesExactly_ofValues _ _)
    | exact implements_ldexp
    | exact implements_ofRealsUnsigned stepToward_eq
    | exact implements_ofRealUnsigned ulp_eq

theorem exists_implements {cs : List CheckedFunction} {fs : List Function}
    (h : List.Forall₂ Implements cs fs) {f : Function} (hf : f ∈ fs) :
    ∃ c ∈ cs, c.Implements f := by
  induction h with
  | nil => cases hf
  | cons hc _ ih =>
    rcases List.mem_cons.mp hf with rfl | hf
    · exact ⟨_, List.mem_cons_self, hc⟩
    · obtain ⟨c, hmem, himplements⟩ := ih hf
      exact ⟨c, List.mem_cons_of_mem _ hmem, himplements⟩

/-- Every function of the calculator gives its answers, whatever it is called with, without an index
    out of range, an overflow, a division by zero or a call too deep; and where it converts an
    argument to an integer, the integer is the number of the argument. -/
theorem functions_never_fault :
    (∀ f ∈ Whitelist.standard.functions, ∃ c ∈ functions, c.name = f.name ∧ ∀ args,
      c.call args = answer (f.apply args) ∧ ∀ fault, c.call args ≠ .error (.fault fault)) ∧
    (∀ name x n, Function.natural name x = .ok n → number? x = some (n : ℚ) ∧ n < 2 ^ 64) ∧
    ∀ name x n, Function.magnitude name x = .ok n → number? x.abs = some (n : ℚ) ∧ n < 2 ^ 128 := by
  refine ⟨fun f hf => ?_, fun _ _ _ => number?_of_natural, fun _ _ _ => number?_of_magnitude⟩
  obtain ⟨c, hc, himplements⟩ := exists_implements implements_functions hf
  refine ⟨c, hc, himplements.name_eq, fun args => ⟨himplements.call_eq args, fun fault => ?_⟩⟩
  rw [himplements.call_eq]
  exact answer_ne_fault _ fault

/-- The root of the largest value below `2^64`, and the conversions of an integer and of the
    magnitude of a negative one. -/
theorem functions_never_fault_isqrt :
    (∃ c ∈ functions, c.name = "isqrt" ∧
      ∀ fault, c.call [.ofFloat 18446744073709549568.0] ≠ .error (.fault fault)) ∧
    number? 170.0 = some 170 ∧ number? (-12.0 : Float).abs = some 12 := by
  obtain ⟨hfunctions, hnatural, hmagnitude⟩ := functions_never_fault
  have hisqrt : Counting.isqrtFunction ∈ Whitelist.standard.functions := by
    simp [Whitelist.standard, Counting.functions]
  have h170 : Function.natural "factorial" 170.0 = .ok 170 := by rfl
  have h12 : Function.magnitude "gcd" (-12.0) = .ok 12 := by rfl
  obtain ⟨c, hc, hname, hcall⟩ := hfunctions Counting.isqrtFunction hisqrt
  exact ⟨⟨c, hc, hname, (hcall _).2⟩, by exact_mod_cast (hnatural _ _ _ h170).1,
    by exact_mod_cast (hmagnitude _ _ _ h12).1⟩

end Calculator.Checked
