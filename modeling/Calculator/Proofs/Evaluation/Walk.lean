import Calculator.Proofs.Evaluation.Steps

/-!
# The walk of an expression

An expression is checked in one fixed order.  A node is entered first and may reject itself; then
its operands are walked from left to right, for a call the positional arguments only; then a call
is refused by its first argument that is not positional; at last the operator or the function is
applied to the values of the operands.

`Expr.walk` lists these visits for a whole expression, `Visit.fault?` says of each one on its own
whether it fails, and `Expr.value?` is the value that a walk without failures arrives at.  None of
them refers to `evaluate`.

Results:
* `evaluate_eq_error_iff`: the error of an evaluation is that of the first visit that fails.
* `evaluate_eq_ok_iff`: there is a value if and only if no visit fails.
-/

namespace Calculator

/-! ## Places -/

/-- The way from a node to one of its children. -/
inductive Branch where
  | operand | left | right | callee | argument (i : Nat) | base | index | item (i : Nat)
  | key (i : Nat) | entryValue (i : Nat) | body | test | orElse | element | elementValue
  | iterable (i : Nat) | condition (i j : Nat) | lower | upper | step | assigned
deriving DecidableEq

/-- The place of a subtree: the branches that lead to it from the root. -/
abbrev Path := List Branch

/-! ## Values -/

mutual

/-- The value of an expression of arithmetic, if no function refuses its arguments. -/
def Expr.value? (w : Whitelist) : Expr → Option Value
  | .literal (.number x) => some (.ofFloat x)
  | .name id => (w.constant? id).map .ofFloat
  | .unary op x => (x.value? w).bind op.value?
  | .binary op l r =>
    (l.value? w).bind fun x => (r.value? w).bind fun y =>
      (op.value? x.float y.float).map (.result [x, y])
  | .call (.name id) args =>
    (w.function? id).bind fun f => (positionalValues? w args).bind fun xs => (f.apply xs).toOption
  | _ => none

/-- The values of the positional arguments. -/
def positionalValues? (w : Whitelist) : List Argument → Option (List Value)
  | [] => some []
  | .positional e :: rest =>
    (e.value? w).bind fun x => (positionalValues? w rest).map (x :: ·)
  | _ :: rest => positionalValues? w rest

end

/-! ## Visits -/

/-- What a visit does at its node. -/
inductive Stage where
  | enter
  /-- Looks for an argument that is not positional. -/
  | checkArguments
  | apply
deriving DecidableEq

/-- One point of the walk of an expression. -/
structure Visit where
  path : Path
  node : Expr
  stage : Stage

/-- A visit, as a part of the walk of the node above. -/
def Visit.below (b : Branch) (v : Visit) : Visit := { v with path := b :: v.path }

mutual

/-- All visits of an expression, in order. -/
def Expr.walk : Expr → List Visit
  | .unary op x =>
    ⟨[], .unary op x, .enter⟩ ::
      (x.walk.map (.below .operand) ++ [⟨[], .unary op x, .apply⟩])
  | .binary op l r =>
    ⟨[], .binary op l r, .enter⟩ ::
      (l.walk.map (.below .left) ++ (r.walk.map (.below .right) ++ [⟨[], .binary op l r, .apply⟩]))
  | .call callee args =>
    ⟨[], .call callee args, .enter⟩ ::
      (walkArguments 0 args ++
        [⟨[], .call callee args, .checkArguments⟩, ⟨[], .call callee args, .apply⟩])
  | e => [⟨[], e, .enter⟩]

/-- The visits of the positional arguments, the first of which is the one with number `i`. -/
def walkArguments (i : Nat) : List Argument → List Visit
  | [] => []
  | .positional e :: rest => e.walk.map (.below (.argument i)) ++ walkArguments (i + 1) rest
  | _ :: rest => walkArguments (i + 1) rest

end

/-! ## Faults -/

/-- Why a node rejects itself, whatever its operands are. -/
def Expr.rejection? (w : Whitelist) : Expr → Option EvalError
  | .literal (.number _) => none
  | .name id => if (w.constant? id).isSome then none else some (.undefinedName id)
  | .unary op x =>
    if op ∈ [.negate, .identity] then none
    else some (.unsupported (.construct (Expr.unary op x).describe))
  | .binary op l r =>
    if op ∈ [.add, .subtract, .multiply, .divide, .modulo, .power] then none
    else some (.unsupported (.construct (Expr.binary op l r).describe))
  | .call (.name id) _ => if (w.function? id).isSome then none else some (.undefinedName id)
  | .call _ _ => some (.unsupported .indirectCall)
  | e => some (.unsupported (.construct e.describe))

/-- The error of a computation. -/
def Except.failure? {ε α : Type} : Except ε α → Option ε
  | .ok _ => none
  | .error e => some e

/-- Why an operator or a function cannot be applied to the values of its operands. -/
def Expr.applicationFault? (w : Whitelist) : Expr → Option EvalError
  | .unary op x => (x.value? w).bind fun y => Except.failure? (op.apply y)
  | .binary op l r =>
    (l.value? w).bind fun x => (r.value? w).bind fun y => Except.failure? (op.apply x y)
  | .call (.name id) args =>
    (w.function? id).bind fun f => (positionalValues? w args).bind fun xs =>
      (Except.failure? (f.apply xs)).map .call
  | _ => none

/-- Why a call is refused for one of its arguments. -/
def Expr.argumentFault? : Expr → Option EvalError
  | .call _ args => (args.findSome? Argument.refusal?).map .unsupported
  | _ => none

/-- Why a visit fails, if it does. -/
def Visit.fault? (w : Whitelist) (v : Visit) : Option EvalError :=
  match v.stage with
  | .enter => v.node.rejection? w
  | .checkArguments => v.node.argumentFault?
  | .apply => v.node.applicationFault? w

/-- The fault of the first visit that fails. -/
def Expr.firstFault? (w : Whitelist) (e : Expr) : Option EvalError :=
  e.walk.findSome? (Visit.fault? w)

@[simp]
theorem Visit.fault?_enter (w : Whitelist) (path : Path) (e : Expr) :
    Visit.fault? w ⟨path, e, .enter⟩ = e.rejection? w := rfl

@[simp]
theorem Visit.fault?_checkArguments (w : Whitelist) (path : Path) (e : Expr) :
    Visit.fault? w ⟨path, e, .checkArguments⟩ = e.argumentFault? := rfl

@[simp]
theorem Visit.fault?_apply (w : Whitelist) (path : Path) (e : Expr) :
    Visit.fault? w ⟨path, e, .apply⟩ = e.applicationFault? w := rfl

@[simp]
theorem Visit.fault?_below (w : Whitelist) (b : Branch) (v : Visit) :
    (v.below b).fault? w = v.fault? w := rfl

/-- The place of a node has no part in whether a visit fails. -/
theorem findSome?_map_below (w : Whitelist) (b : Branch) (visits : List Visit) :
    (visits.map (.below b)).findSome? (Visit.fault? w) = visits.findSome? (Visit.fault? w) := by
  rw [List.findSome?_map]
  rfl

/-! ## The walk decides the evaluation -/

/-- A computation ends as its first fault and its value say. -/
def Agrees {α : Type} (x : Except EvalError α) (fault? : Option EvalError) (value? : Option α) :
    Prop :=
  match x with
  | .ok v => fault? = none ∧ value? = some v
  | .error err => fault? = some err

/-- One computation after another, with the faults of the first in front of those of the second. -/
theorem Agrees.bind {α β : Type} {x : Except EvalError α} {k : α → Except EvalError β}
    {xFault? kFault? : Option EvalError} {xValue? : Option α} {value? : Option β}
    (hx : Agrees x xFault? xValue?)
    (hk : ∀ a, xValue? = some a → Agrees (k a) kFault? value?) :
    Agrees (x >>= k) (xFault?.or kFault?) value? := by
  cases x with
  | error err =>
    rw [show xFault? = some err from hx]
    rfl
  | ok a =>
    obtain ⟨hfault, hvalue⟩ := hx
    rw [hfault]
    exact hk a hvalue

/-- A node that does not reject itself is entered without a fault. -/
theorem findSome?_enter {w : Whitelist} {path : Path} {e : Expr} (h : e.rejection? w = none) :
    [⟨path, e, .enter⟩].findSome? (Visit.fault? w) = none := by
  rw [List.findSome?_singleton, Visit.fault?_enter, h]

/-- A node that rejects itself ends the walk where it begins. -/
theorem Expr.firstFault?_of_rejection {w : Whitelist} {e : Expr} {err : EvalError}
    (h : e.rejection? w = some err) : e.firstFault? w = some err := by
  have hwalk : ∃ rest, e.walk = ⟨[], e, .enter⟩ :: rest := by
    cases e <;> exact ⟨_, rfl⟩
  obtain ⟨rest, hrest⟩ := hwalk
  simp only [firstFault?, hrest, List.findSome?_cons, Visit.fault?_enter, h]

/-- A node that is refused for the reason that it rejects itself for. -/
theorem Expr.agrees_of_rejection {w : Whitelist} {e : Expr} {err : EvalError}
    (he : evaluate w e = .error err) (h : e.rejection? w = some err) :
    Agrees (evaluate w e) (e.firstFault? w) (e.value? w) := by
  rw [he, firstFault?_of_rejection h]
  rfl

/-- What is left to check at a node that does not reject itself. -/
theorem Expr.firstFault?_of_entered {w : Whitelist} {e : Expr} {rest : List Visit}
    (hwalk : e.walk = ⟨[], e, .enter⟩ :: rest) (h : e.rejection? w = none) :
    e.firstFault? w = rest.findSome? (Visit.fault? w) := by
  simp only [firstFault?, hwalk, List.findSome?_cons, Visit.fault?_enter, h]

theorem Expr.rejection?_signed {w : Whitelist} {op : UnaryOperator} (h : op.isSign = true)
    (x : Expr) : (Expr.unary op x).rejection? w = none :=
  if_pos (op.isSign_iff.mp h)

theorem Expr.rejection?_arithmetic {w : Whitelist} {op : BinaryOperator}
    (h : op.isArithmetic = true) (l r : Expr) : (Expr.binary op l r).rejection? w = none :=
  if_pos (op.isArithmetic_iff.mp h)

theorem Expr.rejection?_call {w : Whitelist} {id : String} {f : Function}
    (h : w.function? id = some f) (args : List Argument) :
    (Expr.call (.name id) args).rejection? w = none :=
  if_pos (by rw [h]; rfl)

theorem Expr.rejection?_foreign {w : Whitelist} {e : Expr} (h : e.isForeign = true) :
    e.rejection? w = some (.unsupported (.construct e.describe)) := by
  cases e with
  | literal l =>
    cases l with
    | number x => cases h
    | _ => rfl
  | name id => cases h
  | unary op x => cases h
  | binary op l r => cases h
  | call callee args => cases h
  | _ => rfl

theorem Expr.firstFault?_unary {w : Whitelist} {op : UnaryOperator} {x : Expr}
    (hop : op.isSign = true) :
    (Expr.unary op x).firstFault? w =
      (x.firstFault? w).or ((Expr.unary op x).applicationFault? w) := by
  rw [firstFault?_of_entered (by rw [walk]) (rejection?_signed hop x), List.findSome?_append,
    findSome?_map_below, List.findSome?_singleton, Visit.fault?_apply, ← firstFault?]

theorem Expr.firstFault?_binary {w : Whitelist} {op : BinaryOperator} {l r : Expr}
    (hop : op.isArithmetic = true) :
    (Expr.binary op l r).firstFault? w =
      ((l.firstFault? w).or
        ((r.firstFault? w).or ((Expr.binary op l r).applicationFault? w))) := by
  rw [firstFault?_of_entered (by rw [walk]) (rejection?_arithmetic hop l r),
    List.findSome?_append, List.findSome?_append, findSome?_map_below, findSome?_map_below,
    List.findSome?_singleton, Visit.fault?_apply, ← firstFault?, ← firstFault?]

theorem Expr.firstFault?_call {w : Whitelist} {id : String} {args : List Argument} {f : Function}
    (hf : w.function? id = some f) :
    (Expr.call (.name id) args).firstFault? w =
      ((walkArguments 0 args).findSome? (Visit.fault? w)).or
        (((Expr.call (.name id) args).argumentFault?).or
          ((Expr.call (.name id) args).applicationFault? w)) := by
  rw [firstFault?_of_entered (by rw [walk]) (rejection?_call hf args), List.findSome?_append,
    List.findSome?_cons, List.findSome?_singleton, Visit.fault?_apply, Visit.fault?_checkArguments]
  cases (Expr.call (.name id) args).argumentFault? <;> rfl

theorem findSome?_walkArguments_positional {w : Whitelist} (i : Nat) (e : Expr)
    (rest : List Argument) :
    (walkArguments i (.positional e :: rest)).findSome? (Visit.fault? w) =
      (e.firstFault? w).or ((walkArguments (i + 1) rest).findSome? (Visit.fault? w)) := by
  rw [walkArguments, List.findSome?_append, findSome?_map_below, ← Expr.firstFault?]

/-- Both halves of the induction, for expressions and for the arguments of a call. -/
theorem evaluate_agrees_aux (w : Whitelist) :
    (∀ e : Expr, Agrees (evaluate w e) (e.firstFault? w) (e.value? w)) ∧
    (∀ (args : List Argument) (i : Nat),
      Agrees (evaluateArguments w args) ((walkArguments i args).findSome? (Visit.fault? w))
        (positionalValues? w args)) := by
  refine evaluate_induction w ?number ?constant ?unknownName ?signed ?unsigned ?arithmetic
    ?otherOperator ?call ?unknownFunction ?indirect ?foreign ?nil ?positional ?named
  case number =>
    intro x
    rw [evaluate_number]
    exact ⟨rfl, rfl⟩
  case constant =>
    intro id x hx
    rw [evaluate_constant hx, Expr.firstFault?_of_entered rfl (by simp [Expr.rejection?, hx])]
    exact ⟨rfl, by rw [Expr.value?, hx]; rfl⟩
  case unknownName =>
    intro id hx
    have hrejection : (Expr.name id).rejection? w = some (.undefinedName id) :=
      if_neg (by rw [hx]; exact Bool.false_ne_true)
    exact Expr.agrees_of_rejection (evaluate_unknownName hx) hrejection
  case signed =>
    intro op x hop ih
    rw [evaluate_signed hop, Expr.firstFault?_unary hop]
    refine ih.bind fun y hy => ?_
    obtain ⟨z, hz, happly⟩ := UnaryOperator.apply_eq_ok hop y
    rw [happly, Expr.value?, Expr.applicationFault?, hy, Option.bind_some, Option.bind_some, happly]
    exact ⟨rfl, hz⟩
  case unsigned =>
    intro op x hop
    have hrejection : (Expr.unary op x).rejection? w =
        some (.unsupported (.construct (Expr.unary op x).describe)) :=
      if_neg fun h => Bool.eq_false_iff.mp hop (op.isSign_iff.mpr h)
    exact Expr.agrees_of_rejection (evaluate_unsigned hop x) hrejection
  case arithmetic =>
    intro op l r hop ihl ihr
    rw [evaluate_arithmetic hop, Expr.firstFault?_binary hop]
    refine ihl.bind fun x hx => ihr.bind fun y hy => ?_
    obtain ⟨z, hz, happly⟩ := BinaryOperator.apply_eq_ok hop x y
    rw [happly, Expr.value?, Expr.applicationFault?, hx, hy]
    simp only [Option.bind_some, happly, hz]
    exact ⟨rfl, rfl⟩
  case otherOperator =>
    intro op l r hop
    have hrejection : (Expr.binary op l r).rejection? w =
        some (.unsupported (.construct (Expr.binary op l r).describe)) :=
      if_neg fun h => Bool.eq_false_iff.mp hop (op.isArithmetic_iff.mpr h)
    exact Expr.agrees_of_rejection (evaluate_otherOperator hop l r) hrejection
  case call =>
    intro id args f hf ih
    rw [Expr.firstFault?_call hf, Expr.argumentFault?, ← refusedArgument?_eq_findSome?]
    cases hr : refusedArgument? args with
    | some what =>
      rw [evaluate_refusedCall hf hr]
      exact (ih 0).bind fun _ _ => rfl
    | none =>
      rw [evaluate_call hf hr]
      refine (ih 0).bind fun xs hxs => ?_
      rw [Expr.value?, Expr.applicationFault?, hf, hxs]
      simp only [Option.bind_some]
      cases f.apply xs with
      | ok v => exact ⟨rfl, rfl⟩
      | error reason => rfl
  case unknownFunction =>
    intro id args hf
    have hrejection : (Expr.call (.name id) args).rejection? w = some (.undefinedName id) :=
      if_neg (by rw [hf]; exact Bool.false_ne_true)
    exact Expr.agrees_of_rejection (evaluate_unknownFunction hf args) hrejection
  case indirect =>
    intro callee args hcallee
    have hrejection : (Expr.call callee args).rejection? w =
        some (.unsupported .indirectCall) := by
      rw [Expr.rejection?]
      exact hcallee
    exact Expr.agrees_of_rejection (evaluate_indirect hcallee args) hrejection
  case foreign =>
    intro e he
    exact Expr.agrees_of_rejection (evaluate_foreign he) (Expr.rejection?_foreign he)
  case nil =>
    intro i
    rw [evaluateArguments_nil]
    exact ⟨rfl, rfl⟩
  case positional =>
    intro e rest ihe ihrest i
    rw [evaluateArguments_positional, findSome?_walkArguments_positional, positionalValues?]
    refine ihe.bind fun x hx => ?_
    rw [hx, Option.bind_some]
    cases hxs : evaluateArguments w rest with
    | error err =>
      have hrest := ihrest (i + 1)
      rw [hxs] at hrest
      exact hrest
    | ok xs =>
      have hrest := ihrest (i + 1)
      rw [hxs] at hrest
      exact ⟨hrest.1, by rw [hrest.2]; rfl⟩
  case named =>
    intro a rest ha ih i
    rw [evaluateArguments_named ha, walkArguments, positionalValues?]
    · exact ih (i + 1)
    all_goals exact ha

/-- An evaluation ends as the walk says. -/
theorem evaluate_agrees (w : Whitelist) (e : Expr) :
    Agrees (evaluate w e) (e.firstFault? w) (e.value? w) :=
  (evaluate_agrees_aux w).1 e

/-- The error of an evaluation is that of the first visit that fails. -/
theorem evaluate_eq_error_iff (w : Whitelist) (e : Expr) (err : EvalError) :
    evaluate w e = .error err ↔ e.firstFault? w = some err := by
  have h := evaluate_agrees w e
  cases he : evaluate w e with
  | error err' =>
    rw [he] at h
    rw [show e.firstFault? w = some err' from h, Except.error.injEq, Option.some.injEq]
  | ok v =>
    rw [he] at h
    rw [h.1]
    exact ⟨nofun, nofun⟩

/-- There is a value if and only if no visit fails. -/
theorem evaluate_eq_ok_iff (w : Whitelist) (e : Expr) (v : Value) :
    evaluate w e = .ok v ↔ e.firstFault? w = none ∧ e.value? w = some v := by
  have h := evaluate_agrees w e
  cases he : evaluate w e with
  | error err =>
    rw [he] at h
    rw [show e.firstFault? w = some err from h]
    exact ⟨nofun, fun hv => nomatch hv.1⟩
  | ok u =>
    rw [he] at h
    rw [h.1, h.2, Except.ok.injEq, Option.some.injEq, and_iff_right rfl]

end Calculator
