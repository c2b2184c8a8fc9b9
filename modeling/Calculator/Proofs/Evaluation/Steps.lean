import Calculator.Evaluation

/-!
# Single steps of the evaluation

What one operator, one argument list and one node contribute to an evaluation.  Every proof about
`evaluate` goes through the lemmas of this file, one for each of its cases, and through the
induction over these cases.

* `Except.bind_eq_ok`: a computation that continues another one.
* `UnaryOperator.isSign_iff`, `BinaryOperator.isArithmetic_iff`: the operators that are let through.
* `UnaryOperator.apply_eq_ok`, `BinaryOperator.apply_eq_ok`: they have a value for all operands.
* `refusedArgument?_eq_none`, `refusedArgument?_eq_findSome?`: which argument refuses a call.
* `evaluate_number`, ..., `evaluate_foreign`: what the evaluation does at each kind of node.
* `evaluate_induction`: the induction along the evaluation.
-/

namespace Calculator

/-! ## Sequencing -/

theorem Except.bind_eq_ok {ε α β : Type} {x : Except ε α} {f : α → Except ε β} {b : β} :
    x >>= f = .ok b ↔ ∃ a, x = .ok a ∧ f a = .ok b := by
  cases x with
  | error e => simp [bind, Except.bind]
  | ok a => simp [bind, Except.bind]

/-! ## Operators -/

theorem UnaryOperator.isSign_iff (op : UnaryOperator) :
    op.isSign = true ↔ op ∈ [.negate, .identity] := by
  cases op <;> decide

theorem BinaryOperator.isArithmetic_iff (op : BinaryOperator) :
    op.isArithmetic = true ↔ op ∈ [.add, .subtract, .multiply, .divide, .modulo, .power] := by
  cases op <;> decide

theorem UnaryOperator.apply_eq_ok {op : UnaryOperator} (h : op.isSign = true) (x : Value) :
    ∃ y, op.value? x = some y ∧ op.apply x = .ok y := by
  rw [← op.isSome_value? x] at h
  obtain ⟨y, hy⟩ := Option.isSome_iff_exists.mp h
  exact ⟨y, hy, by rw [apply, hy]⟩

theorem BinaryOperator.apply_eq_ok {op : BinaryOperator} (h : op.isArithmetic = true)
    (x y : Value) :
    ∃ z, op.value? x.float y.float = some z ∧ op.apply x y = .ok (.result [x, y] z) := by
  rw [← op.isSome_value? x.float y.float] at h
  obtain ⟨z, hz⟩ := Option.isSome_iff_exists.mp h
  exact ⟨z, hz, by rw [apply, hz]⟩

/-! ## Arguments -/

/-- Why an argument refuses the call that holds it. -/
def Argument.refusal? : Argument → Option Unsupported
  | positional _ => none
  | keyword name _ => some (.keywordArgument name)
  | unpacked _ => some .unpackedArgument

/-- It is the first argument that is not positional that refuses a call. -/
theorem refusedArgument?_eq_findSome? (args : List Argument) :
    refusedArgument? args = args.findSome? Argument.refusal? := by
  induction args with
  | nil => rfl
  | cons a rest ih =>
    cases a with
    | positional e => exact ih
    | keyword name e => rfl
    | unpacked e => rfl

theorem refusedArgument?_map_positional (es : List Expr) :
    refusedArgument? (es.map .positional) = none := by
  induction es with
  | nil => rfl
  | cons e es ih => exact ih

/-- A call is refused for no argument only if all of them are positional. -/
theorem refusedArgument?_eq_none {args : List Argument} (h : refusedArgument? args = none) :
    ∃ es : List Expr, args = es.map .positional := by
  induction args with
  | nil => exact ⟨[], rfl⟩
  | cons a rest ih =>
    cases a with
    | positional e =>
      obtain ⟨es, rfl⟩ := ih h
      exact ⟨e :: es, rfl⟩
    | keyword name e => cases h
    | unpacked e => cases h

/-! ## Nodes with a value -/

section Nodes

variable {w : Whitelist}

theorem evaluate_number (w : Whitelist) (x : Float) :
    evaluate w (.literal (.number x)) = .ok (.ofFloat x) := rfl

theorem evaluate_name (w : Whitelist) (id : String) :
    evaluate w (.name id) =
      match w.constant? id with
      | some x => .ok (.ofFloat x)
      | none => .error (.undefinedName id) := rfl

theorem evaluate_constant {id : String} {x : Float} (h : w.constant? id = some x) :
    evaluate w (.name id) = .ok (.ofFloat x) := by
  rw [evaluate_name, h]

theorem evaluate_signed {op : UnaryOperator} (h : op.isSign = true) (x : Expr) :
    evaluate w (.unary op x) = evaluate w x >>= op.apply :=
  if_pos h

theorem evaluate_arithmetic {op : BinaryOperator} (h : op.isArithmetic = true) (l r : Expr) :
    evaluate w (.binary op l r) =
      evaluate w l >>= fun x => evaluate w r >>= fun y => op.apply x y :=
  if_pos h

theorem evaluate_callOfName (w : Whitelist) (id : String) (args : List Argument) :
    evaluate w (.call (.name id) args) =
      match w.function? id with
      | some f =>
        evaluateArguments w args >>= fun xs =>
          match refusedArgument? args with
          | some what => .error (.unsupported what)
          | none => (f.apply xs).mapError .call
      | none => .error (.undefinedName id) := rfl

/-- A function is applied if all its arguments are positional. -/
theorem evaluate_call {id : String} {args : List Argument} {f : Function}
    (hf : w.function? id = some f) (hargs : refusedArgument? args = none) :
    evaluate w (.call (.name id) args) =
      evaluateArguments w args >>= fun xs => (f.apply xs).mapError .call := by
  rw [evaluate_callOfName, hf, hargs]

theorem evaluate_callByName {id : String} {f : Function} (hf : w.function? id = some f)
    (es : List Expr) :
    evaluate w (.callByName id es) =
      evaluateArguments w (es.map .positional) >>= fun xs => (f.apply xs).mapError .call :=
  evaluate_call hf (refusedArgument?_map_positional es)

/-! ## Refused nodes -/

theorem evaluate_unknownName {id : String} (h : w.constant? id = none) :
    evaluate w (.name id) = .error (.undefinedName id) := by
  rw [evaluate_name, h]

theorem evaluate_unsigned {op : UnaryOperator} (h : op.isSign = false) (x : Expr) :
    evaluate w (.unary op x) =
      .error (.unsupported (.construct (Expr.unary op x).describe)) :=
  if_neg (Bool.eq_false_iff.mp h)

theorem evaluate_otherOperator {op : BinaryOperator} (h : op.isArithmetic = false) (l r : Expr) :
    evaluate w (.binary op l r) =
      .error (.unsupported (.construct (Expr.binary op l r).describe)) :=
  if_neg (Bool.eq_false_iff.mp h)

/-- A call is refused for an argument only after the positional ones have been evaluated. -/
theorem evaluate_refusedCall {id : String} {args : List Argument} {f : Function}
    {what : Unsupported} (hf : w.function? id = some f)
    (hargs : refusedArgument? args = some what) :
    evaluate w (.call (.name id) args) =
      evaluateArguments w args >>= fun _ => .error (.unsupported what) := by
  rw [evaluate_callOfName, hf, hargs]

theorem evaluate_unknownFunction {id : String} (h : w.function? id = none)
    (args : List Argument) :
    evaluate w (.call (.name id) args) = .error (.undefinedName id) := by
  rw [evaluate_callOfName, h]

theorem evaluate_indirect {callee : Expr} (h : ∀ id, callee ≠ .name id) (args : List Argument) :
    evaluate w (.call callee args) = .error (.unsupported .indirectCall) := by
  cases callee with
  | name id => exact absurd rfl (h id)
  | _ => rfl

/-- Whether an expression is of a kind that is no arithmetic whatever it holds. -/
def Expr.isForeign : Expr → Bool
  | .literal (.number _) | .name _ | .unary _ _ | .binary _ _ _ | .call _ _ => false
  | _ => true

theorem evaluate_foreign {e : Expr} (h : e.isForeign = true) :
    evaluate w e = .error (.unsupported (.construct e.describe)) := by
  cases e with
  | literal l =>
    cases l with
    | number x => cases h
    | _ => rfl
  | name id => cases h
  | unary op x => cases h
  | binary op l r => cases h
  | call callee args => cases h
  | _ => rfl

/-! ## Argument lists -/

theorem evaluateArguments_nil (w : Whitelist) : evaluateArguments w [] = .ok [] := rfl

theorem evaluateArguments_positional (e : Expr) (rest : List Argument) :
    evaluateArguments w (.positional e :: rest) =
      evaluate w e >>= fun x => evaluateArguments w rest >>= fun xs => .ok (x :: xs) := rfl

theorem evaluateArguments_named {a : Argument} (h : ∀ e, a ≠ .positional e)
    (rest : List Argument) : evaluateArguments w (a :: rest) = evaluateArguments w rest := by
  cases a with
  | positional e => exact absurd rfl (h e)
  | keyword name e => rfl
  | unpacked e => rfl

end Nodes

/-! ## Induction -/

/-- The induction along the evaluation: over the operands and positional arguments of the nodes
    that are not refused. -/
theorem evaluate_induction (w : Whitelist) {P : Expr → Prop} {Q : List Argument → Prop}
    (number : ∀ x, P (.literal (.number x)))
    (constant : ∀ id x, w.constant? id = some x → P (.name id))
    (unknownName : ∀ id, w.constant? id = none → P (.name id))
    (signed : ∀ op x, op.isSign = true → P x → P (.unary op x))
    (unsigned : ∀ op x, op.isSign = false → P (.unary op x))
    (arithmetic : ∀ op l r, op.isArithmetic = true → P l → P r → P (.binary op l r))
    (otherOperator : ∀ op l r, op.isArithmetic = false → P (.binary op l r))
    (call : ∀ id args f, w.function? id = some f → Q args → P (.call (.name id) args))
    (unknownFunction : ∀ id args, w.function? id = none → P (.call (.name id) args))
    (indirect : ∀ callee args, (∀ id, callee ≠ .name id) → P (.call callee args))
    (foreign : ∀ e, e.isForeign = true → P e)
    (nil : Q [])
    (positional : ∀ e rest, P e → Q rest → Q (.positional e :: rest))
    (named : ∀ a rest, (∀ e, a ≠ .positional e) → Q rest → Q (a :: rest)) :
    (∀ e, P e) ∧ ∀ args, Q args := by
  refine evaluate.mutual_induct w P Q number constant unknownName signed
    (fun op x h => unsigned op x (Bool.eq_false_iff.mpr h)) arithmetic
    (fun op l r h => otherOperator op l r (Bool.eq_false_iff.mpr h)) call unknownFunction indirect
    ?_ nil positional named
  intro e hnumber hname hunary hbinary _ hcall
  refine foreign e ?_
  cases e with
  | literal l =>
    cases l with
    | number x => exact (hnumber x rfl).elim
    | _ => rfl
  | name id => exact (hname id rfl).elim
  | unary op x => exact (hunary op x rfl).elim
  | binary op l r => exact (hbinary op l r rfl).elim
  | call callee args => exact (hcall callee args rfl).elim
  | _ => rfl

end Calculator
