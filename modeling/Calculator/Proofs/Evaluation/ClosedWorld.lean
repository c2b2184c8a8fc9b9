import Calculator.Proofs.Evaluation.Steps

/-!
# The closed world of the evaluator

An expression is pure if it is built from numbers, constants, the signs `-` and `+`, the six
arithmetic operators and calls of whitelisted functions with positional arguments.

Results:
* `Expr.pure_of_evaluate`: only a pure expression has a value.
* `Expr.Pure.evaluate_cases`: a pure expression has a value, or a function that it calls refuses
  the values it is called with.
* `evaluate_closed`: both together, for every expression and every whitelist.
-/

namespace Calculator

/-- Expressions of arithmetic over the names of a whitelist. -/
inductive Expr.Pure (w : Whitelist) : Expr → Prop
  | number (x : Float) : Pure w (.literal (.number x))
  | constant {id : String} : (w.constant? id).isSome → Pure w (.name id)
  | signed {op : UnaryOperator} {x : Expr} :
      op ∈ [.negate, .identity] → Pure w x → Pure w (.unary op x)
  | arithmetic {op : BinaryOperator} {l r : Expr} :
      op ∈ [.add, .subtract, .multiply, .divide, .modulo, .power] →
      Pure w l → Pure w r → Pure w (.binary op l r)
  | call {id : String} {args : List Expr} :
      (w.function? id).isSome → (∀ e ∈ args, Pure w e) → Pure w (.callByName id args)

/-- A function that an expression calls refuses some values for this reason. -/
inductive Expr.Raises (w : Whitelist) (reason : CallError) : Expr → Prop
  | signed {op : UnaryOperator} {x : Expr} : Raises w reason x → Raises w reason (.unary op x)
  | left {op : BinaryOperator} {l r : Expr} : Raises w reason l → Raises w reason (.binary op l r)
  | right {op : BinaryOperator} {l r : Expr} :
      Raises w reason r → Raises w reason (.binary op l r)
  | argument {id : String} {args : List Expr} {e : Expr} :
      e ∈ args → Raises w reason e → Raises w reason (.callByName id args)
  | call {id : String} {args : List Expr} {f : Function} {xs : List Value} :
      w.function? id = some f → f.apply xs = .error reason → Raises w reason (.callByName id args)

/-! ## Only pure expressions have a value -/

/-- Both halves of the induction: an expression with a value is pure, and so are the arguments of
    a call that is not refused. -/
theorem Expr.pure_of_evaluate_aux (w : Whitelist) :
    (∀ (e : Expr) (v : Value), evaluate w e = .ok v → e.Pure w) ∧
    (∀ (args : List Argument) (xs : List Value), evaluateArguments w args = .ok xs →
      ∀ es : List Expr, args = es.map .positional → ∀ e ∈ es, e.Pure w) := by
  refine evaluate_induction w ?number ?constant ?unknownName ?signed ?unsigned ?arithmetic
    ?otherOperator ?call ?unknownFunction ?indirect ?foreign ?nil ?positional ?named
  case number =>
    intro x v _
    exact .number x
  case constant =>
    intro id x hx v _
    exact .constant (by rw [hx]; rfl)
  case unknownName =>
    intro id hx v h
    rw [evaluate_unknownName hx] at h
    cases h
  case signed =>
    intro op x hop ih v h
    rw [evaluate_signed hop, Except.bind_eq_ok] at h
    obtain ⟨y, hy, -⟩ := h
    exact .signed (op.isSign_iff.mp hop) (ih y hy)
  case unsigned =>
    intro op x hop v h
    rw [evaluate_unsigned hop] at h
    cases h
  case arithmetic =>
    intro op l r hop ihl ihr v h
    rw [evaluate_arithmetic hop, Except.bind_eq_ok] at h
    obtain ⟨x, hx, h⟩ := h
    rw [Except.bind_eq_ok] at h
    obtain ⟨y, hy, -⟩ := h
    exact .arithmetic (op.isArithmetic_iff.mp hop) (ihl x hx) (ihr y hy)
  case otherOperator =>
    intro op l r hop v h
    rw [evaluate_otherOperator hop] at h
    cases h
  case call =>
    intro id args f hf ih v h
    cases hr : refusedArgument? args with
    | some what =>
      rw [evaluate_refusedCall hf hr, Except.bind_eq_ok] at h
      obtain ⟨xs, -, h⟩ := h
      cases h
    | none =>
      rw [evaluate_call hf hr, Except.bind_eq_ok] at h
      obtain ⟨xs, hxs, -⟩ := h
      obtain ⟨es, rfl⟩ := refusedArgument?_eq_none hr
      exact .call (by rw [hf]; rfl) (ih xs hxs es rfl)
  case unknownFunction =>
    intro id args hf v h
    rw [evaluate_unknownFunction hf] at h
    cases h
  case indirect =>
    intro callee args hcallee v h
    rw [evaluate_indirect hcallee] at h
    cases h
  case foreign =>
    intro e he v h
    rw [evaluate_foreign he] at h
    cases h
  case nil =>
    intro xs _ es hes e he
    cases es with
    | nil => cases he
    | cons _ _ => cases hes
  case positional =>
    intro e rest ihe ihrest xs h es hes
    cases es with
    | nil => cases hes
    | cons e' es =>
      rw [List.map_cons, List.cons.injEq, Argument.positional.injEq] at hes
      obtain ⟨rfl, rfl⟩ := hes
      rw [evaluateArguments_positional, Except.bind_eq_ok] at h
      obtain ⟨x, hx, h⟩ := h
      obtain ⟨ys, hys, -⟩ := Except.bind_eq_ok.mp h
      intro a ha
      rcases List.mem_cons.mp ha with rfl | ha
      · exact ihe x hx
      · exact ihrest ys hys es rfl a ha
  case named =>
    intro a rest ha ih xs h es hes
    cases es with
    | nil => cases hes
    | cons e es =>
      rw [List.map_cons, List.cons.injEq] at hes
      exact absurd hes.1 (ha e)

/-- Only a pure expression has a value. -/
theorem Expr.pure_of_evaluate {w : Whitelist} {e : Expr} {v : Value}
    (h : evaluate w e = .ok v) : e.Pure w :=
  (pure_of_evaluate_aux w).1 e v h

/-! ## Pure expressions fail in calls only -/

/-- The outcomes that a pure expression may have. -/
def Expr.Settled (w : Whitelist) (e : Expr) : Prop :=
  (∃ v, evaluate w e = .ok v) ∨ ∃ reason, e.Raises w reason ∧ evaluate w e = .error (.call reason)

/-- If every argument is settled, the arguments have values or a function that one of them calls
    refuses its own. -/
theorem evaluateArguments_settled {w : Whitelist} {es : List Expr}
    (h : ∀ e ∈ es, e.Settled w) :
    (∃ xs, evaluateArguments w (es.map .positional) = .ok xs) ∨
    ∃ reason, (∃ e ∈ es, e.Raises w reason) ∧
      evaluateArguments w (es.map .positional) = .error (.call reason) := by
  induction es with
  | nil => exact .inl ⟨[], evaluateArguments_nil w⟩
  | cons e es ih =>
    rw [List.map_cons, evaluateArguments_positional]
    rcases h e (List.mem_cons_self ..) with ⟨x, hx⟩ | ⟨reason, hraises, hx⟩
    · rw [hx]
      rcases ih fun e' he' => h e' (List.mem_cons_of_mem _ he') with
        ⟨xs, hxs⟩ | ⟨reason, ⟨e', he', hraises⟩, hxs⟩
      · exact .inl ⟨x :: xs, by rw [hxs]; rfl⟩
      · exact .inr ⟨reason, ⟨e', List.mem_cons_of_mem _ he', hraises⟩, by rw [hxs]; rfl⟩
    · exact .inr ⟨reason, ⟨e, List.mem_cons_self .., hraises⟩, by rw [hx]; rfl⟩

/-- A pure expression has a value, or a function that it calls refuses the values it is called
    with. -/
theorem Expr.Pure.evaluate_cases {w : Whitelist} {e : Expr} (h : e.Pure w) : e.Settled w := by
  induction h with
  | number x => exact .inl ⟨.ofFloat x, evaluate_number w x⟩
  | @constant id hid =>
    obtain ⟨x, hx⟩ := Option.isSome_iff_exists.mp hid
    exact .inl ⟨.ofFloat x, evaluate_constant hx⟩
  | @signed op x hop _ ih =>
    have hsign := op.isSign_iff.mpr hop
    rcases ih with ⟨y, hy⟩ | ⟨reason, hraises, hy⟩
    · obtain ⟨z, -, hz⟩ := UnaryOperator.apply_eq_ok hsign y
      exact .inl ⟨z, by rw [evaluate_signed hsign, hy]; exact hz⟩
    · exact .inr ⟨reason, .signed hraises, by rw [evaluate_signed hsign, hy]; rfl⟩
  | @arithmetic op l r hop _ _ ihl ihr =>
    have harith := op.isArithmetic_iff.mpr hop
    rcases ihl with ⟨x, hx⟩ | ⟨reason, hraises, hx⟩
    · rcases ihr with ⟨y, hy⟩ | ⟨reason, hraises, hy⟩
      · obtain ⟨z, -, hz⟩ := BinaryOperator.apply_eq_ok harith x y
        exact .inl ⟨.result [x, y] z, by rw [evaluate_arithmetic harith, hx, hy]; exact hz⟩
      · exact .inr ⟨reason, .right hraises, by rw [evaluate_arithmetic harith, hx, hy]; rfl⟩
    · exact .inr ⟨reason, .left hraises, by rw [evaluate_arithmetic harith, hx]; rfl⟩
  | @call id es hid _ ih =>
    obtain ⟨f, hf⟩ := Option.isSome_iff_exists.mp hid
    rcases evaluateArguments_settled ih with ⟨xs, hxs⟩ | ⟨reason, ⟨e, he, hraises⟩, hxs⟩
    · have hcall : evaluate w (.callByName id es) = (f.apply xs).mapError .call := by
        rw [evaluate_callByName hf, hxs]
        rfl
      cases hv : f.apply xs with
      | ok v => exact .inl ⟨v, by rw [hcall, hv]; rfl⟩
      | error reason => exact .inr ⟨reason, .call hf hv, by rw [hcall, hv]; rfl⟩
    · exact .inr ⟨reason, .argument he hraises, by rw [evaluate_callByName hf, hxs]; rfl⟩

/-! ## The closed world -/

/-- Only pure expressions have a value, and a pure expression fails in no other way than that a
    function which it calls refuses its arguments: it holds nothing unsupported, no undefined name
    and nothing that is no expression. -/
theorem evaluate_closed (w : Whitelist) (e : Expr) :
    (∀ v, evaluate w e = .ok v → e.Pure w) ∧
    (e.Pure w → (∃ v, evaluate w e = .ok v) ∨
      ∃ reason, e.Raises w reason ∧ evaluate w e = .error (.call reason)) :=
  ⟨fun _ h => Expr.pure_of_evaluate h, fun h => h.evaluate_cases⟩

/-- `-fabs(-2.5) ** tau` has a value and is therefore pure; `gcd(2.5)` is pure and is refused. -/
theorem evaluate_closed_fabs_gcd :
    (∃ v, evaluate .standard (.unary .negate (.binary .power
        (.callByName "fabs" [.unary .negate (.literal (.number 2.5))]) (.name "tau"))) = .ok v ∧
      Expr.Pure .standard (.unary .negate (.binary .power
        (.callByName "fabs" [.unary .negate (.literal (.number 2.5))]) (.name "tau")))) ∧
    Expr.Pure .standard (.callByName "gcd" [.literal (.number 2.5)]) ∧
    ((∃ v, evaluate .standard (.callByName "gcd" [.literal (.number 2.5)]) = .ok v) ∨
      ∃ reason, Expr.Raises .standard reason (.callByName "gcd" [.literal (.number 2.5)]) ∧
        evaluate .standard (.callByName "gcd" [.literal (.number 2.5)]) =
          .error (.call reason)) := by
  refine ⟨⟨_, rfl, (evaluate_closed _ _).1 _ rfl⟩, ?_, ?_⟩
  · exact .call rfl fun e he => by rw [List.mem_singleton.mp he]; exact .number 2.5
  · exact (evaluate_closed _ _).2
      (.call rfl fun e he => by rw [List.mem_singleton.mp he]; exact .number 2.5)

end Calculator
