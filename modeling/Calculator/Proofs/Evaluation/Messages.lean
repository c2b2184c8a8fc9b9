import Calculator.Proofs.Evaluation.Walk
import Calculator.Proofs.Grammar.Occurrences

/-!
# Errors on one line

What is said about an expression without a value quotes names, operators and literals of the
expression.  None of these brings a line feed along: names are words, numbers are written in digits,
and the line feeds of a string literal are escaped.

Results:
* `Text.oneLine_quoted`, `Decimal.oneLine_resultText`: quoted text and values stand on one line.
* `Function.blamesItself_of_mem_standard`: a function of the calculator raises errors under its own
  name.
* `Expr.oneLine_describe`: a description is on one line if the names in the expression are.
* `evaluateText_oneLine`: so is what is said about any text that has no value.
-/

namespace Calculator

/-- A text without a line feed. -/
def OneLine (s : String) : Prop := '\n' ∉ s.toList

instance (s : String) : Decidable (OneLine s) := inferInstanceAs (Decidable (¬ _))

namespace OneLine

variable {s t : String}

@[simp]
theorem append_iff : OneLine (s ++ t) ↔ OneLine s ∧ OneLine t := by
  simp [OneLine, String.toList_append]

@[simp]
theorem ofList_iff {cs : List Char} : OneLine (String.ofList cs) ↔ '\n' ∉ cs := by
  simp [OneLine]

theorem intercalate {sep : String} {parts : List String} (hsep : OneLine sep)
    (hparts : ∀ s ∈ parts, OneLine s) : OneLine (sep.intercalate parts) := by
  induction parts with
  | nil => exact List.not_mem_nil
  | cons s rest ih =>
    rw [List.forall_mem_cons] at hparts
    by_cases hrest : rest = []
    · rw [hrest, String.intercalate_singleton]
      exact hparts.1
    · rw [String.intercalate_cons_of_ne_nil hrest, append_iff, append_iff]
      exact ⟨⟨hparts.1, hsep⟩, ih hparts.2⟩

end OneLine

/-! ## Numbers -/

/-- The digits of a number in some base are those below the base. -/
theorem exists_digit_of_mem_toDigits {b : Nat} (hb : 1 < b) {n : Nat} {c : Char}
    (hc : c ∈ Nat.toDigits b n) : ∃ d < b, c = d.digitChar := by
  induction n using Nat.strongRecOn with
  | ind n ih =>
    rw [Nat.toDigits_eq_if hb] at hc
    split at hc
    · next hn => exact ⟨n, hn, List.mem_singleton.mp hc⟩
    · next hn =>
      rcases List.mem_append.mp hc with hc | hc
      · exact ih (n / b) (Nat.div_lt_self (by omega) hb) hc
      · exact ⟨n % b, Nat.mod_lt _ (by omega), List.mem_singleton.mp hc⟩

theorem newline_not_mem_toDigits {b : Nat} (hb : 1 < b) (hb' : b ≤ 16) (n : Nat) :
    '\n' ∉ Nat.toDigits b n := by
  intro h
  obtain ⟨d, hd, heq⟩ := exists_digit_of_mem_toDigits hb h
  have hall : ∀ d < 16, '\n' ≠ Nat.digitChar d := by decide
  exact hall d (by omega) heq

theorem newline_not_mem_digits (n : Nat) : '\n' ∉ digits n :=
  newline_not_mem_toDigits (by decide) (by decide) n

theorem newline_not_mem_integerText (n : Int) : '\n' ∉ integerText n := by
  unfold integerText
  split <;> simp [newline_not_mem_digits]

theorem Arity.oneLine_countText (n : Nat) : OneLine (countText n) :=
  OneLine.ofList_iff.mpr (newline_not_mem_digits n)

theorem Arity.oneLine_text (a : Arity) : OneLine a.text := by
  have hnoun : ∀ n, OneLine (noun n) := fun n => by
    unfold noun
    split <;> decide
  cases a <;> simp only [text, OneLine.append_iff, hnoun, oneLine_countText, and_true] <;> decide

namespace Decimal

theorem newline_not_mem_positional (d : Decimal) : '\n' ∉ d.positional := by
  have hdigits := newline_not_mem_digits d.significand
  unfold positional
  dsimp only
  split_ifs
  · simp [hdigits]
  · simp only [List.mem_append, List.mem_cons, not_or]
    exact ⟨fun h => hdigits (List.mem_of_mem_take h), by decide,
      fun h => hdigits (List.mem_of_mem_drop h)⟩
  · simp [hdigits]

theorem newline_not_mem_scientific (d : Decimal) : '\n' ∉ d.scientific := by
  have hdigits := newline_not_mem_digits d.significand
  unfold scientific
  dsimp only
  split <;> simp_all [newline_not_mem_integerText]

/-- A value in a layout is written on one line. -/
theorem Layout.newline_not_mem_text (l : Layout) (x : Float) : '\n' ∉ l.text x := by
  have hsigned : ∀ negative cs, '\n' ∉ cs → '\n' ∉ signed negative cs := by
    intro negative cs hcs
    unfold signed
    split <;> simp [hcs]
  have hmagnitude : ∀ d, '\n' ∉ l.magnitude d := by
    intro d
    unfold magnitude
    split_ifs <;> simp [newline_not_mem_positional, newline_not_mem_scientific]
  unfold text
  split
  · decide
  · exact hsigned _ _ (by decide)
  · exact hsigned _ _ (hmagnitude _)

theorem oneLine_resultText (x : Float) : OneLine (resultText x) :=
  OneLine.ofList_iff.mpr (Layout.result.newline_not_mem_text x)

theorem oneLine_plainText (x : Float) : OneLine (plainText x) :=
  OneLine.ofList_iff.mpr (Layout.plain.newline_not_mem_text x)

end Decimal

/-! ## Quoted text -/

namespace Text

theorem newline_not_mem_quotedChar (c : Char) : '\n' ∉ quotedChar c := by
  have hcode : '\n' ∉ ['\\', 'u', '\x7b'] ++ hexadecimal c.toNat ++ ['\x7d'] := by
    have hhex : '\n' ∉ hexadecimal c.toNat := newline_not_mem_toDigits (by decide) (by decide) _
    simp [hhex]
  unfold quotedChar
  by_cases hc : c = '\n'
  · subst hc
    decide
  · have hself : '\n' ∉ [c] := fun h => hc (List.mem_singleton.mp h).symm
    split_ifs <;> first | decide | exact hself | exact hcode

/-- A quoted text is on one line, whatever characters are in it. -/
theorem oneLine_quoted (s : String) : OneLine (quoted s) := by
  have hchars : '\n' ∉ s.toList.flatMap quotedChar := by
    intro h
    obtain ⟨c, -, hc⟩ := List.mem_flatMap.mp h
    exact newline_not_mem_quotedChar c hc
  rw [quoted, OneLine.ofList_iff]
  simp [hchars]

end Text

/-! ## Errors of syntax and of calls -/

theorem Grammar.oneLine_alternatives {names : List String} (h : ∀ s ∈ names, OneLine s) :
    OneLine (alternatives names) := by
  unfold alternatives
  split
  · decide
  · exact h _ (List.mem_singleton_self _)
  · next a b =>
    simp only [List.mem_cons, List.not_mem_nil, or_false, forall_eq_or_imp, forall_eq] at h
    simp only [OneLine.append_iff]
    exact ⟨⟨h.1, by decide⟩, h.2⟩
  · simp only [OneLine.append_iff]
    refine ⟨⟨.intercalate (by decide) fun s hs => h s (List.dropLast_subset _ hs), by decide⟩, ?_⟩
    rw [List.getLastD_eq_getLast?]
    cases hlast : names.getLast? with
    | none => decide
    | some s => exact h s (List.mem_of_getLast? hlast)

theorem SyntaxFault.oneLine_message (fault : SyntaxFault) : OneLine fault.message := by
  have hlabel : ∀ r : Grammar.Rule, OneLine r.label := fun r => by cases r <;> decide
  cases fault with
  | expected rules =>
    show OneLine (Grammar.expectedText rules)
    unfold Grammar.expectedText
    split
    · decide
    · rw [OneLine.append_iff]
      refine ⟨by decide, Grammar.oneLine_alternatives fun s hs => ?_⟩
      obtain ⟨r, -, rfl⟩ := List.mem_map.mp hs
      exact hlabel r
  | _ => decide

/-- The function that an error of a call is about. -/
def CallError.function : CallError → String
  | arity function _ _ | notIntegral function _ | domain function _ => function

theorem CallError.oneLine_message {err : CallError} (h : OneLine err.function) :
    OneLine err.message := by
  cases err with
  | arity function expected found =>
    simp only [message, OneLine.append_iff]
    exact ⟨⟨⟨⟨⟨h, by decide⟩, expected.oneLine_text⟩, by decide⟩, Arity.oneLine_countText found⟩,
      by decide⟩
  | notIntegral function value =>
    simp only [message, OneLine.append_iff]
    exact ⟨⟨h, by decide⟩, Decimal.oneLine_resultText value⟩
  | domain function fault =>
    simp only [message, OneLine.append_iff]
    exact ⟨⟨h, by decide⟩, by cases fault <;> decide⟩

/-! ## Which errors are raised -/

/-- A computation all of whose errors are of some kind. -/
def Raises {ε α : Type} (kind : ε → Prop) (x : Except ε α) : Prop :=
  ∀ err, x = .error err → kind err

namespace Raises

variable {ε ε' α β : Type} {kind : ε → Prop}

theorem ok (a : α) : Raises kind (.ok a) := nofun

theorem error {err : ε} (h : kind err) : Raises kind (.error err : Except ε α) := by
  intro err' heq
  cases heq
  exact h

theorem bind {x : Except ε α} {f : α → Except ε β} (hx : Raises kind x)
    (hf : ∀ a, Raises kind (f a)) : Raises kind (x >>= f) := by
  cases x with
  | error err => exact error (hx err rfl)
  | ok a => exact hf a

theorem mapM {f : α → Except ε β} (h : ∀ a, Raises kind (f a)) (as : List α) :
    Raises kind (as.mapM f) := by
  induction as with
  | nil => exact ok []
  | cons a as ih =>
    rw [List.mapM_cons]
    exact (h a).bind fun b => ih.bind fun bs => ok (b :: bs)

theorem mapError {kind' : ε' → Prop} {f : ε → ε'} {x : Except ε α}
    (h : Raises (fun err => kind' (f err)) x) : Raises kind' (x.mapError f) := by
  cases x with
  | error err => exact error (h err rfl)
  | ok a => exact ok a

end Raises

/-- A computation that raises errors under one name only. -/
abbrev Blames {α : Type} (name : String) (x : Except CallError α) : Prop :=
  Raises (fun err => err.function = name) x

namespace Function

theorem blames_integer (name : String) (x : Float) : Blames name (integer name x) := by
  unfold integer
  split
  · exact .ok _
  · exact .error rfl

theorem blames_natural (name : String) (x : Float) : Blames name (natural name x) := by
  unfold natural
  split_ifs
  · exact .error rfl
  · exact .error rfl
  · exact .error rfl
  · exact .ok _

theorem blames_magnitude (name : String) (x : Float) : Blames name (magnitude name x) := by
  unfold magnitude
  split_ifs
  · exact .error rfl
  · exact .error rfl
  · exact .ok _

/-- A function that raises errors under its own name. -/
def BlamesItself (f : Function) : Prop := ∀ xs, Blames f.name (f.apply xs)

theorem blamesItself_ofValue (name : String) (f : Value → Value) :
    (ofValue name f).BlamesItself := by
  intro xs
  match xs with
  | [] => exact .error rfl
  | [x] => exact .ok _
  | _ :: _ :: _ => exact .error rfl

theorem blamesItself_ofValues (name : String) (f : Value → Value → Value) :
    (ofValues name f).BlamesItself := by
  intro xs
  match xs with
  | [] => exact .error rfl
  | [_] => exact .error rfl
  | [x, y] => exact .ok _
  | _ :: _ :: _ :: _ => exact .error rfl

theorem blamesItself_ofNatural (name : String) (f : Nat → Float) :
    (ofNatural name f).BlamesItself := by
  intro xs
  match xs with
  | [] => exact .error rfl
  | [x] => exact (blames_natural name x.float).bind fun n => .ok _
  | _ :: _ :: _ => exact .error rfl

theorem blamesItself_ofNaturals (name : String) (f : Nat → Nat → Float) :
    (ofNaturals name f).BlamesItself := by
  intro xs
  match xs with
  | [] => exact .error rfl
  | [_] => exact .error rfl
  | [x, y] =>
    exact (blames_natural name x.float).bind fun n =>
      (blames_natural name y.float).bind fun k => .ok _
  | _ :: _ :: _ :: _ => exact .error rfl

theorem blamesItself_log : Elementary.logFunction.BlamesItself := by
  intro xs
  match xs with
  | [] => exact .error rfl
  | [x] => exact .ok _
  | [x, base] => exact .ok _
  | _ :: _ :: _ :: _ => exact .error rfl

theorem blamesItself_ldexp : Rounding.ldexpFunction.BlamesItself := by
  intro xs
  match xs with
  | [] => exact .error rfl
  | [_] => exact .error rfl
  | [x, i] => exact (blames_integer "ldexp" i.float).bind fun k => .ok _
  | _ :: _ :: _ :: _ => exact .error rfl

theorem blamesItself_perm : Counting.permFunction.BlamesItself := by
  intro xs
  match xs with
  | [] => exact .error rfl
  | [x] => exact (blames_natural "perm" x.float).bind fun n => .ok _
  | [x, y] =>
    exact (blames_natural "perm" x.float).bind fun n =>
      (blames_natural "perm" y.float).bind fun k => .ok _
  | _ :: _ :: _ :: _ => exact .error rfl

theorem blamesItself_gcd : Counting.gcdFunction.BlamesItself := by
  have hdivisor : ∀ xs divisor, Blames "gcd" (Counting.commonDivisor xs divisor) := by
    intro xs
    induction xs with
    | nil => exact fun divisor => .ok divisor
    | cons x xs ih => exact fun divisor => (blames_magnitude "gcd" x).bind fun m => ih _
  exact fun xs => (hdivisor _ 0).bind fun divisor => .ok _

theorem blamesItself_lcm : Counting.lcmFunction.BlamesItself := by
  have hmultiple : ∀ ms multiple, Blames "lcm" (Counting.commonMultiple ms multiple) := by
    intro ms
    induction ms with
    | nil => exact fun multiple => .ok multiple
    | cons m ms ih =>
      intro multiple
      unfold Counting.commonMultiple
      dsimp only
      split
      · exact ih _
      · exact .error rfl
  intro xs
  refine (Raises.mapM (blames_magnitude "lcm") _).bind fun ms => ?_
  split
  · exact .ok _
  · exact (hmultiple ms 1).bind fun multiple => .ok _

/-- The ways in which the functions of the calculator take their arguments. -/
inductive Takes : Function → Prop
  | value (name : String) (f : Value → Value) : Takes (ofValue name f)
  | values (name : String) (f : Value → Value → Value) : Takes (ofValues name f)
  | natural (name : String) (f : Nat → Float) : Takes (ofNatural name f)
  | naturals (name : String) (f : Nat → Nat → Float) : Takes (ofNaturals name f)
  | hypot : Takes Elementary.hypotFunction
  | log : Takes Elementary.logFunction
  | ldexp : Takes Rounding.ldexpFunction
  | perm : Takes Counting.permFunction
  | gcd : Takes Counting.gcdFunction
  | lcm : Takes Counting.lcmFunction

theorem takes_of_mem_standard : ∀ f ∈ Whitelist.standard.functions, f.Takes := by
  have htrigonometric : ∀ f ∈ Elementary.trigonometric, f.Takes := by
    simp only [Elementary.trigonometric, List.forall_mem_cons]
    exact ⟨.value .., .value .., .value .., .value .., .value .., .value .., .values .., .value ..,
      .value .., .value .., .value .., .value .., .value .., .value .., .value .., .hypot, nofun⟩
  have hexponential : ∀ f ∈ Elementary.exponential, f.Takes := by
    simp only [Elementary.exponential, List.forall_mem_cons]
    exact ⟨.value .., .value .., .value .., .log, .value .., .value .., .value .., .values ..,
      .value .., .value .., nofun⟩
  have hrounding : ∀ f ∈ Rounding.functions, f.Takes := by
    simp only [Rounding.functions, List.forall_mem_cons]
    exact ⟨.value .., .value .., .value .., .value .., .values .., .values .., .values .., .ldexp,
      .values .., .value .., nofun⟩
  have hspecial : ∀ f ∈ Special.functions, f.Takes := by
    simp only [Special.functions, List.forall_mem_cons]
    exact ⟨.value .., .value .., .value .., .value .., nofun⟩
  have hcounting : ∀ f ∈ Counting.functions, f.Takes := by
    simp only [Counting.functions, List.forall_mem_cons]
    exact ⟨.natural .., .naturals .., .perm, .gcd, .lcm, .natural .., nofun⟩
  have hclassification : ∀ f ∈ Classification.functions, f.Takes := by
    simp only [Classification.functions, List.forall_mem_cons]
    exact ⟨.value .., .value .., .value .., .values .., nofun⟩
  simp only [Whitelist.standard, List.forall_mem_append]
  exact ⟨⟨⟨⟨⟨htrigonometric, hexponential⟩, hrounding⟩, hspecial⟩, hcounting⟩, hclassification⟩

/-- A function of the calculator raises errors under its own name. -/
theorem blamesItself_of_mem_standard {f : Function} (h : f ∈ Whitelist.standard.functions) :
    f.BlamesItself := by
  cases takes_of_mem_standard f h with
  | value name f => exact blamesItself_ofValue name f
  | values name f => exact blamesItself_ofValues name f
  | natural name f => exact blamesItself_ofNatural name f
  | naturals name f => exact blamesItself_ofNaturals name f
  | hypot => exact fun xs => .ok _
  | log => exact blamesItself_log
  | ldexp => exact blamesItself_ldexp
  | perm => exact blamesItself_perm
  | gcd => exact blamesItself_gcd
  | lcm => exact blamesItself_lcm

/-- What a function of the calculator says about its arguments is on one line. -/
theorem oneLine_of_mem_standard {f : Function} (h : f ∈ Whitelist.standard.functions)
    {xs : List Value} {err : CallError} (herr : f.apply xs = .error err) : OneLine err.message := by
  have hnames : ∀ name ∈ Whitelist.standard.functions.map Function.name, OneLine name := by decide
  refine CallError.oneLine_message ?_
  rw [blamesItself_of_mem_standard h xs err herr]
  exact hnames f.name (List.mem_map_of_mem h)

end Function

/-! ## Expressions -/

/-- An expression whose names are written on one line. -/
def Expr.NamesOneLine (e : Expr) : Prop := ∀ id, Item.name id ∈ e.items → OneLine id

theorem UnaryOperator.oneLine_symbol (op : UnaryOperator) : OneLine op.symbol := by
  cases op <;> decide

theorem BinaryOperator.oneLine_symbol (op : BinaryOperator) : OneLine op.symbol := by
  cases op <;> decide

theorem ComparisonOperator.oneLine_symbol (op : ComparisonOperator) : OneLine op.symbol := by
  cases op <;> decide

theorem LogicalOperator.oneLine_symbol (op : LogicalOperator) : OneLine op.symbol := by
  cases op <;> decide

theorem Literal.oneLine_describe (l : Literal) : OneLine l.describe := by
  cases l with
  | number x => exact OneLine.append_iff.mpr ⟨by decide, Decimal.oneLine_resultText x⟩
  | string s => exact OneLine.append_iff.mpr ⟨by decide, Text.oneLine_quoted s⟩
  | boolean b => cases b <;> decide
  | nothing => decide
  | imaginary x =>
    have hvalue : OneLine ("imaginary literal " ++ Decimal.plainText x) :=
      OneLine.append_iff.mpr ⟨by decide, Decimal.oneLine_plainText x⟩
    exact OneLine.append_iff.mpr ⟨hvalue, by decide⟩

/-- A description is on one line if the names in the expression are. -/
theorem Expr.oneLine_describe {e : Expr} (h : e.NamesOneLine) : OneLine e.describe := by
  fun_induction Expr.describe e with
  | case1 l => exact l.oneLine_describe
  | case2 id =>
    simp only [OneLine.append_iff]
    exact ⟨⟨by decide, h id (by simp)⟩, by decide⟩
  | case3 op x => exact OneLine.append_iff.mpr ⟨by decide, op.oneLine_symbol⟩
  | case4 op l r => exact OneLine.append_iff.mpr ⟨by decide, op.oneLine_symbol⟩
  | case5 callee args ih =>
    exact OneLine.append_iff.mpr ⟨by decide, ih fun id hid => h id (by simp [hid])⟩
  | case6 base id => exact OneLine.append_iff.mpr ⟨by decide, h id (by simp)⟩
  | case14 op l r => exact OneLine.append_iff.mpr ⟨by decide, op.oneLine_symbol⟩
  | case15 op l r => exact OneLine.append_iff.mpr ⟨by decide, op.oneLine_symbol⟩
  | case17 kind => cases kind <;> decide
  | _ => decide

namespace EvalError

theorem oneLine_undefinedName {id : String} (h : OneLine id) :
    OneLine (undefinedName id).message := by
  show OneLine ("name '" ++ id ++ "' is not defined")
  simp only [OneLine.append_iff]
  exact ⟨⟨by decide, h⟩, by decide⟩

theorem oneLine_unsupported {what : Unsupported} (h : OneLine what.message) :
    OneLine (unsupported what).message :=
  OneLine.append_iff.mpr ⟨by decide, h⟩

theorem oneLine_invalidSyntax (place : Text.Position) (fault : SyntaxFault) :
    OneLine (invalidSyntax place fault).message := by
  show OneLine ("invalid syntax at line " ++ _ ++ ", column " ++ _ ++ ": " ++ fault.message)
  simp only [OneLine.append_iff]
  exact ⟨⟨⟨⟨⟨by decide, Arity.oneLine_countText _⟩, by decide⟩, Arity.oneLine_countText _⟩,
    by decide⟩, fault.oneLine_message⟩

end EvalError

/-- A refused call names at most the keyword of one of its arguments. -/
theorem Argument.oneLine_refusal {args : List Argument} {what : Unsupported}
    (hargs : ∀ id, Item.name id ∈ itemsOfArguments args → OneLine id)
    (h : refusedArgument? args = some what) : OneLine what.message := by
  induction args with
  | nil => cases h
  | cons a rest ih =>
    cases a with
    | positional e => exact ih (fun id hid => hargs id (by simp [hid])) h
    | keyword name e =>
      cases h
      show OneLine ("keyword arguments not supported (" ++ name ++ "=...)")
      simp only [OneLine.append_iff]
      exact ⟨⟨by decide, hargs name (by simp)⟩, by decide⟩
    | unpacked e =>
      cases h
      decide

/-- Both halves of the induction, for expressions and for the arguments of a call. -/
theorem evaluate_oneLine_aux :
    (∀ e : Expr, e.NamesOneLine →
      Raises (fun err => OneLine err.message) (evaluate .standard e)) ∧
    (∀ args : List Argument, (∀ id, Item.name id ∈ itemsOfArguments args → OneLine id) →
      Raises (fun err => OneLine err.message) (evaluateArguments .standard args)) := by
  refine evaluate_induction .standard ?number ?constant ?unknownName ?signed ?unsigned ?arithmetic
    ?otherOperator ?call ?unknownFunction ?indirect ?foreign ?nil ?positional ?named
  case number =>
    intro x _
    rw [evaluate_number]
    exact .ok _
  case constant =>
    intro id x hx _
    rw [evaluate_constant hx]
    exact .ok _
  case unknownName =>
    intro id hx hnames
    rw [evaluate_unknownName hx]
    exact .error (EvalError.oneLine_undefinedName (hnames id (by simp)))
  case signed =>
    intro op x hop ih hnames
    rw [evaluate_signed hop]
    refine (ih fun id hid => hnames id (by simp [hid])).bind fun y => ?_
    obtain ⟨z, -, happly⟩ := UnaryOperator.apply_eq_ok hop y
    rw [happly]
    exact .ok z
  case unsigned =>
    intro op x hop hnames
    rw [evaluate_unsigned hop]
    exact .error (EvalError.oneLine_unsupported (Expr.oneLine_describe hnames))
  case arithmetic =>
    intro op l r hop ihl ihr hnames
    rw [evaluate_arithmetic hop]
    refine (ihl fun id hid => hnames id (by simp [hid])).bind fun x =>
      (ihr fun id hid => hnames id (by simp [hid])).bind fun y => ?_
    obtain ⟨z, -, happly⟩ := BinaryOperator.apply_eq_ok hop x y
    rw [happly]
    exact .ok _
  case otherOperator =>
    intro op l r hop hnames
    rw [evaluate_otherOperator hop]
    exact .error (EvalError.oneLine_unsupported (Expr.oneLine_describe hnames))
  case call =>
    intro id args f hf ih hnames
    have hargs : ∀ id', Item.name id' ∈ itemsOfArguments args → OneLine id' :=
      fun id' hid => hnames id' (by simp [hid])
    cases hr : refusedArgument? args with
    | some what =>
      rw [evaluate_refusedCall hf hr]
      exact (ih hargs).bind fun _ =>
        .error (EvalError.oneLine_unsupported (Argument.oneLine_refusal hargs hr))
    | none =>
      rw [evaluate_call hf hr]
      exact (ih hargs).bind fun xs => .mapError fun err =>
        Function.oneLine_of_mem_standard (List.mem_of_find?_eq_some hf)
  case unknownFunction =>
    intro id args hf hnames
    rw [evaluate_unknownFunction hf]
    exact .error (EvalError.oneLine_undefinedName (hnames id (by simp)))
  case indirect =>
    intro callee args hcallee _
    have hwhat : OneLine Unsupported.indirectCall.message := by decide
    rw [evaluate_indirect hcallee]
    exact .error (EvalError.oneLine_unsupported hwhat)
  case foreign =>
    intro e he hnames
    rw [evaluate_foreign he]
    exact .error (EvalError.oneLine_unsupported (Expr.oneLine_describe hnames))
  case nil =>
    intro _
    rw [evaluateArguments_nil]
    exact .ok []
  case positional =>
    intro e rest ihe ihrest hnames
    rw [evaluateArguments_positional]
    exact (ihe fun id hid => hnames id (by simp [hid])).bind fun x =>
      (ihrest fun id hid => hnames id (by simp [hid])).bind fun xs => .ok (x :: xs)
  case named =>
    intro a rest ha ih hnames
    rw [evaluateArguments_named ha]
    exact ih fun id hid => hnames id (by simp [hid])

/-! ## Texts -/

namespace Grammar

/-- The name of a token is a word. -/
theorem Lexed.newline_not_mem {text : List Char} {ts : List Token} (h : Lexed text ts) :
    ∀ cs, Token.lexeme .identifier cs ∈ ts → '\n' ∉ cs := by
  intro cs hcs hnewline
  obtain ⟨text', rest, hscan⟩ := h.exists_scan? hcs
  have hword := (identifier?_eq_some hscan).1
  cases hword
  cases List.all_eq_true.mp (List.all_takeWhile) _ hnewline

theorem Token.eq_identifier_of_mem_items {t : Token} {id : String} (h : Item.name id ∈ t.items) :
    ∃ cs, t = .lexeme .identifier cs ∧ id = String.ofList cs := by
  cases t with
  | symbol y =>
    rw [items] at h
    split at h
    · cases List.mem_singleton.mp h
    · cases h
  | lexeme l cs =>
    cases l with
    | keyword k => cases k <;> simp [items, Keyword.items] at h
    | identifier => exact ⟨cs, rfl, by simpa [items] using h⟩
    | _ => simp [items] at h

/-- The names among the items of some tokens are those of the identifiers. -/
theorem exists_identifier_of_mem_itemsOfTokens {targets : Bool} {ts : List Token} {id : String}
    (h : Item.name id ∈ itemsOfTokens targets ts) :
    ∃ cs, Token.lexeme .identifier cs ∈ ts ∧ id = String.ofList cs := by
  obtain ⟨t, ht, hid⟩ := exists_mem_items h fun _ => nofun
  obtain ⟨cs, rfl, rfl⟩ := t.eq_identifier_of_mem_items hid
  exact ⟨cs, ht, rfl⟩

theorem namesOneLine_of_parse {text : String} {e : Expr} (h : parse text = .ok e) :
    e.NamesOneLine := by
  obtain ⟨ts, hlexed, haccounted⟩ := accounted_of_parse h
  have hitems : itemsOfTokens false ts = e.items := haccounted.itemsOfTokens_eq
  intro id hid
  rw [← hitems] at hid
  obtain ⟨cs, hcs, rfl⟩ := exists_identifier_of_mem_itemsOfTokens hid
  exact OneLine.ofList_iff.mpr (hlexed.newline_not_mem cs hcs)

end Grammar

theorem parse_oneLine (text : String) :
    Raises (fun err => OneLine err.message) (parse text) := by
  unfold parse
  dsimp only
  split
  · exact .error (EvalError.oneLine_invalidSyntax _ _)
  · split
    · exact .ok _
    · exact .error (EvalError.oneLine_invalidSyntax _ _)

/-- What is said about a text without a value is on one line, whatever the text is. -/
theorem evaluateText_oneLine {text : String} {err : EvalError}
    (h : evaluateText text = .error err) : OneLine err.message := by
  unfold evaluateText at h
  cases hparse : parse text with
  | error fault =>
    rw [hparse] at h
    cases h
    exact parse_oneLine text err hparse
  | ok e =>
    rw [hparse] at h
    exact evaluate_oneLine_aux.1 e (Grammar.namesOneLine_of_parse hparse) err h

end Calculator
