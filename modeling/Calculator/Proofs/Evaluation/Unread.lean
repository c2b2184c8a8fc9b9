import Calculator.Proofs.Evaluation.Walk

/-!
# What an evaluation does not read

The walk of an expression ends at its first visit that fails.  A subtree that is not entered until
then has no part in the outcome: it lies behind that visit, or below a node that rejected itself,
or it is the value of an argument that is not positional.  The callee of a call is not entered
either, but whether it is a name, and which one, is read when the call is entered.

Results:
* `evaluate_replace`: trees in the place of unread subtrees leave the evaluation as it is.
* `evaluate_first_fault`: the first fault of the walk decides the evaluation, and nothing unread
  does.
-/

namespace Calculator

/-! ## Replacing subtrees -/

/-- Trees to put in the place of subtrees. -/
abbrev Edit := Path → Option Expr

/-- What an edit does below a branch. -/
def Edit.below (b : Branch) (edit : Edit) : Edit := fun path => edit (b :: path)

mutual

/-- The expression with other trees in the places that an edit names. -/
def Expr.replace (edit : Edit) : Expr → Expr
  | .literal l => (edit []).getD (.literal l)
  | .name id => (edit []).getD (.name id)
  | .unary op x => (edit []).getD (.unary op (x.replace (edit.below .operand)))
  | .binary op l r =>
    (edit []).getD (.binary op (l.replace (edit.below .left)) (r.replace (edit.below .right)))
  | .call callee args =>
    (edit []).getD (.call (callee.replace (edit.below .callee)) (replaceArguments edit 0 args))
  | .member base id => (edit []).getD (.member (base.replace (edit.below .base)) id)
  | .subscript base index =>
    (edit []).getD
      (.subscript (base.replace (edit.below .base)) (index.replace (edit.below .index)))
  | .tuple items => (edit []).getD (.tuple (replaceItems edit .item 0 items))
  | .list items => (edit []).getD (.list (replaceItems edit .item 0 items))
  | .set items => (edit []).getD (.set (replaceItems edit .item 0 items))
  | .dict entries => (edit []).getD (.dict (replaceEntries edit 0 entries))
  | .lambda params body => (edit []).getD (.lambda params (body.replace (edit.below .body)))
  | .conditional test body orElse =>
    (edit []).getD
      (.conditional (test.replace (edit.below .test)) (body.replace (edit.below .body))
        (orElse.replace (edit.below .orElse)))
  | .compare op l r =>
    (edit []).getD (.compare op (l.replace (edit.below .left)) (r.replace (edit.below .right)))
  | .logical op l r =>
    (edit []).getD (.logical op (l.replace (edit.below .left)) (r.replace (edit.below .right)))
  | .not x => (edit []).getD (.not (x.replace (edit.below .operand)))
  | .comprehension kind element value? clauses =>
    (edit []).getD
      (.comprehension kind (element.replace (edit.below .element))
        (replaceOptional (edit.below .elementValue) value?) (replaceClauses edit 0 clauses))
  | .slice lower? upper? step? =>
    (edit []).getD
      (.slice (replaceOptional (edit.below .lower) lower?)
        (replaceOptional (edit.below .upper) upper?) (replaceOptional (edit.below .step) step?))
  | .assignment target value =>
    (edit []).getD (.assignment target (value.replace (edit.below .assigned)))
  | .starred x => (edit []).getD (.starred (x.replace (edit.below .operand)))

def replaceOptional (edit : Edit) : Option Expr → Option Expr
  | none => none
  | some e => some (e.replace edit)

def replaceItems (edit : Edit) (branch : Nat → Branch) (i : Nat) : List Expr → List Expr
  | [] => []
  | e :: rest => e.replace (edit.below (branch i)) :: replaceItems edit branch (i + 1) rest

def replaceEntries (edit : Edit) (i : Nat) : List (Expr × Expr) → List (Expr × Expr)
  | [] => []
  | (key, value) :: rest =>
    (key.replace (edit.below (.key i)), value.replace (edit.below (.entryValue i))) ::
      replaceEntries edit (i + 1) rest

def replaceArguments (edit : Edit) (i : Nat) : List Argument → List Argument
  | [] => []
  | .positional e :: rest =>
    .positional (e.replace (edit.below (.argument i))) :: replaceArguments edit (i + 1) rest
  | .keyword id e :: rest =>
    .keyword id (e.replace (edit.below (.argument i))) :: replaceArguments edit (i + 1) rest
  | .unpacked e :: rest =>
    .unpacked (e.replace (edit.below (.argument i))) :: replaceArguments edit (i + 1) rest

def replaceClauses (edit : Edit) (i : Nat) : List Clause → List Clause
  | [] => []
  | .mk targets iterable conditions :: rest =>
    .mk targets (iterable.replace (edit.below (.iterable i)))
      (replaceItems edit (.condition i) 0 conditions) :: replaceClauses edit (i + 1) rest

end

/-! ## Places that are read -/

/-- The places that are entered up to the first visit that fails. -/
def enteredPaths (w : Whitelist) : List Visit → List Path
  | [] => []
  | v :: rest =>
    (if v.stage = .enter then [v.path] else []) ++
      (if (v.fault? w).isSome then [] else enteredPaths w rest)

/-- A place that is neither entered nor the callee of a call that is entered. -/
def UnreadIn (w : Whitelist) (visits : List Visit) (path : Path) : Prop :=
  path ∉ enteredPaths w visits ∧ ∀ call ∈ enteredPaths w visits, path ≠ call ++ [.callee]

instance (w : Whitelist) (visits : List Visit) (path : Path) :
    Decidable (UnreadIn w visits path) :=
  inferInstanceAs (Decidable (_ ∧ _))

/-- A place that the evaluation of an expression does not read. -/
def Unread (w : Whitelist) (e : Expr) (path : Path) : Prop := UnreadIn w e.walk path

instance (w : Whitelist) (e : Expr) (path : Path) : Decidable (Unread w e path) :=
  inferInstanceAs (Decidable (UnreadIn w e.walk path))

theorem enteredPaths_append (w : Whitelist) (visits more : List Visit) :
    enteredPaths w (visits ++ more) =
      enteredPaths w visits ++
        (if (visits.findSome? (Visit.fault? w)).isSome then [] else enteredPaths w more) := by
  induction visits with
  | nil => rfl
  | cons v rest ih =>
    rw [List.cons_append, enteredPaths, enteredPaths, ih, List.append_assoc, List.findSome?_cons]
    cases hv : v.fault? w with
    | none => rfl
    | some err => rfl

theorem enteredPaths_map_below (w : Whitelist) (b : Branch) (visits : List Visit) :
    enteredPaths w (visits.map (.below b)) = (enteredPaths w visits).map (b :: ·) := by
  induction visits with
  | nil => rfl
  | cons v rest ih =>
    rw [List.map_cons, enteredPaths, enteredPaths, ih, Visit.fault?_below, List.map_append]
    congr 1
    · rw [apply_ite (List.map (b :: ·))]
      rfl
    · rw [apply_ite (List.map (b :: ·))]
      rfl

/-- A part of the walk reads no more than the whole walk does. -/
theorem UnreadIn.of_part {w : Whitelist} {visits part : List Visit} {path : Path}
    (hpart : ∀ path ∈ enteredPaths w part, path ∈ enteredPaths w visits)
    (h : UnreadIn w visits path) : UnreadIn w part path :=
  ⟨fun hpath => h.1 (hpart path hpath), fun call hcall => h.2 call (hpart call hcall)⟩

/-- The walk of a child reads no more of it than the whole walk does. -/
theorem UnreadIn.of_below {w : Whitelist} {visits part : List Visit} {b : Branch} {path : Path}
    (hpart : ∀ path ∈ enteredPaths w (part.map (.below b)), path ∈ enteredPaths w visits)
    (h : UnreadIn w visits (b :: path)) : UnreadIn w part path := by
  have hchild := h.of_part hpart
  rw [UnreadIn, enteredPaths_map_below] at hchild
  refine ⟨fun hpath => hchild.1 (List.mem_map_of_mem hpath), fun call hcall heq => ?_⟩
  exact hchild.2 (b :: call) (List.mem_map_of_mem hcall) (by rw [heq, List.cons_append])

/-- A part of the walk is read when the visits in front of it do not fail. -/
theorem mem_enteredPaths_of_part {w : Whitelist} {before part after : List Visit} {path : Path}
    (hbefore : before.findSome? (Visit.fault? w) = none) (h : path ∈ enteredPaths w part) :
    path ∈ enteredPaths w (before ++ (part ++ after)) := by
  rw [enteredPaths_append, hbefore, enteredPaths_append]
  exact List.mem_append_right _ (List.mem_append_left _ h)

/-- The root of an expression is read. -/
theorem nil_mem_enteredPaths (w : Whitelist) (e : Expr) : [] ∈ enteredPaths w e.walk := by
  have hwalk : ∃ rest, e.walk = ⟨[], e, .enter⟩ :: rest := by
    cases e <;> exact ⟨_, rfl⟩
  obtain ⟨rest, hrest⟩ := hwalk
  rw [hrest]
  exact List.mem_append_left _ (List.mem_singleton_self _)

/-! ## Edits of unread places -/

/-- An edit that leaves all that is read as it is. -/
def Edit.Spares (w : Whitelist) (edit : Edit) (visits : List Visit) : Prop :=
  ∀ path, (edit path).isSome → UnreadIn w visits path

theorem Edit.Spares.root {w : Whitelist} {edit : Edit} {e : Expr} (h : edit.Spares w e.walk) :
    edit [] = none := by
  cases hroot : edit [] with
  | none => rfl
  | some t => exact absurd (nil_mem_enteredPaths w e) (h [] (by rw [hroot]; rfl)).1

/-- The callee of a call is spared as well. -/
theorem Edit.Spares.callee {w : Whitelist} {edit : Edit} {e : Expr} (h : edit.Spares w e.walk) :
    edit.below .callee [] = none := by
  cases hcallee : edit [.callee] with
  | none => exact hcallee
  | some t =>
    exact absurd rfl ((h [.callee] (by rw [hcallee]; rfl)).2 [] (nil_mem_enteredPaths w e))

/-- Below a branch, an edit spares what is read of the child there. -/
theorem Edit.Spares.below {w : Whitelist} {edit : Edit} {visits part after : List Visit}
    (h : edit.Spares w visits) (b : Branch) (before : List Visit)
    (hvisits : visits = before ++ (part.map (.below b) ++ after))
    (hbefore : before.findSome? (Visit.fault? w) = none) : (edit.below b).Spares w part := by
  intro path hpath
  refine (h (b :: path) hpath).of_below fun path hmem => ?_
  rw [hvisits]
  exact mem_enteredPaths_of_part hbefore hmem

theorem Edit.Spares.part {w : Whitelist} {edit : Edit} {visits part after : List Visit}
    (h : edit.Spares w visits) (before : List Visit) (hvisits : visits = before ++ (part ++ after))
    (hbefore : before.findSome? (Visit.fault? w) = none) : edit.Spares w part := by
  intro path hpath
  refine (h path hpath).of_part fun path hmem => ?_
  rw [hvisits]
  exact mem_enteredPaths_of_part hbefore hmem

/-- An edit that spares the root of an expression that is no name makes no name of it. -/
theorem Expr.replace_ne_name {edit : Edit} {e : Expr} (hroot : edit [] = none)
    (h : ∀ id, e ≠ .name id) (id : String) : e.replace edit ≠ .name id := by
  cases e with
  | name id' => exact absurd rfl (h id')
  | _ => rw [replace, hroot]; exact nofun

/-- An edit that spares the root of an expression that is no arithmetic makes none of it, and does
    not change what the root is called. -/
theorem Expr.replace_foreign {edit : Edit} {e : Expr} (hroot : edit [] = none)
    (h : e.isForeign = true) :
    (e.replace edit).isForeign = true ∧ (e.replace edit).describe = e.describe := by
  cases e with
  | literal l =>
    rw [replace, hroot]
    exact ⟨h, rfl⟩
  | name id => cases h
  | unary op x => cases h
  | binary op l r => cases h
  | call callee args => cases h
  | _ =>
    rw [replace, hroot]
    exact ⟨rfl, rfl⟩

theorem refusedArgument?_replaceArguments (edit : Edit) (args : List Argument) (i : Nat) :
    refusedArgument? (replaceArguments edit i args) = refusedArgument? args := by
  induction args generalizing i with
  | nil => rfl
  | cons a rest ih =>
    cases a with
    | positional e => exact ih (i + 1)
    | keyword id e => rfl
    | unpacked e => rfl

/-! ## The evaluation of an edited expression -/

/-- Both halves of the induction, for expressions and for the arguments of a call. -/
theorem evaluate_replace_aux (w : Whitelist) :
    (∀ (e : Expr) (edit : Edit), edit.Spares w e.walk →
      evaluate w (e.replace edit) = evaluate w e) ∧
    (∀ (args : List Argument) (edit : Edit) (i : Nat), edit.Spares w (walkArguments i args) →
      evaluateArguments w (replaceArguments edit i args) = evaluateArguments w args) := by
  refine evaluate_induction w ?number ?constant ?unknownName ?signed ?unsigned ?arithmetic
    ?otherOperator ?call ?unknownFunction ?indirect ?foreign ?nil ?positional ?named
  case number =>
    intro x edit h
    rw [Expr.replace, h.root, Option.getD_none]
  case constant =>
    intro id x hx edit h
    rw [Expr.replace, h.root, Option.getD_none]
  case unknownName =>
    intro id hx edit h
    rw [Expr.replace, h.root, Option.getD_none]
  case signed =>
    intro op x hop ih edit h
    have hx := ih _ (h.below .operand [⟨[], .unary op x, .enter⟩] rfl
      (findSome?_enter (Expr.rejection?_signed hop x)))
    rw [Expr.replace, h.root, Option.getD_none, evaluate_signed hop, evaluate_signed hop, hx]
  case unsigned =>
    intro op x hop edit h
    rw [Expr.replace, h.root, Option.getD_none, evaluate_unsigned hop, evaluate_unsigned hop]
    rfl
  case arithmetic =>
    intro op l r hop ihl ihr edit h
    have henter : (Expr.binary op l r).rejection? w = none := Expr.rejection?_arithmetic hop l r
    have hl := ihl _ (h.below .left [⟨[], .binary op l r, .enter⟩] rfl (findSome?_enter henter))
    rw [Expr.replace, h.root, Option.getD_none, evaluate_arithmetic hop, evaluate_arithmetic hop,
      hl]
    cases hx : evaluate w l with
    | error err => rfl
    | ok x =>
      -- the right operand is read only now that the left one has a value
      have hleft : l.firstFault? w = none := ((evaluate_eq_ok_iff w l x).mp hx).1
      have hr := ihr _ (h.below .right (⟨[], .binary op l r, .enter⟩ :: l.walk.map (.below .left))
        (by rw [Expr.walk, List.cons_append])
        (by rw [List.findSome?_cons, Visit.fault?_enter, henter, findSome?_map_below]; exact hleft))
      rw [hr]
  case otherOperator =>
    intro op l r hop edit h
    rw [Expr.replace, h.root, Option.getD_none, evaluate_otherOperator hop,
      evaluate_otherOperator hop]
    rfl
  case call =>
    intro id args f hf ih edit h
    have hargs := ih edit 0 (h.part [⟨[], .call (.name id) args, .enter⟩] rfl
      (findSome?_enter (Expr.rejection?_call hf args)))
    have hedited := refusedArgument?_replaceArguments edit args 0
    rw [Expr.replace, h.root, Option.getD_none, Expr.replace, h.callee, Option.getD_none]
    cases hr : refusedArgument? args with
    | some what =>
      rw [evaluate_refusedCall hf hr, evaluate_refusedCall hf (hedited.trans hr), hargs]
    | none => rw [evaluate_call hf hr, evaluate_call hf (hedited.trans hr), hargs]
  case unknownFunction =>
    intro id args hf edit h
    rw [Expr.replace, h.root, Option.getD_none, Expr.replace, h.callee, Option.getD_none,
      evaluate_unknownFunction hf, evaluate_unknownFunction hf]
  case indirect =>
    intro callee args hcallee edit h
    rw [Expr.replace, h.root, Option.getD_none, evaluate_indirect hcallee,
      evaluate_indirect (Expr.replace_ne_name h.callee hcallee)]
  case foreign =>
    intro e he edit h
    obtain ⟨hforeign, hdescribe⟩ := Expr.replace_foreign h.root he
    rw [evaluate_foreign he, evaluate_foreign hforeign, hdescribe]
  case nil =>
    intro edit i h
    rw [replaceArguments]
  case positional =>
    intro e rest ihe ihrest edit i h
    have he := ihe _ (h.below (.argument i) [] (by rw [walkArguments]; rfl) rfl)
    rw [replaceArguments, evaluateArguments_positional, evaluateArguments_positional, he]
    cases hx : evaluate w e with
    | error err => rfl
    | ok x =>
      have hfirst : e.firstFault? w = none := ((evaluate_eq_ok_iff w e x).mp hx).1
      have hrest := ihrest edit (i + 1) (h.part (e.walk.map (.below (.argument i)))
        (by rw [walkArguments]; exact congrArg _ (List.append_nil _).symm)
        (by rw [findSome?_map_below]; exact hfirst))
      rw [hrest]
  case named =>
    intro a rest ha ih edit i h
    have hrest := ih edit (i + 1) (by rw [walkArguments] at h; exact h; exact ha)
    rw [evaluateArguments_named ha]
    cases a with
    | positional e => exact absurd rfl (ha e)
    | keyword id e =>
      rw [replaceArguments, evaluateArguments_named (by intro _ h; cases h), hrest]
    | unpacked e =>
      rw [replaceArguments, evaluateArguments_named (by intro _ h; cases h), hrest]

/-- Trees in the place of unread subtrees leave the evaluation as it is. -/
theorem evaluate_replace {w : Whitelist} {e : Expr} {edit : Edit}
    (h : ∀ path, (edit path).isSome → Unread w e path) :
    evaluate w (e.replace edit) = evaluate w e :=
  (evaluate_replace_aux w).1 e edit h

/-! ## The first fault -/

/-- An evaluation has the error of the first visit of its walk that fails, or a value if none
    fails; and it is the same for all trees in the place of the subtrees that it does not read. -/
theorem evaluate_first_fault (w : Whitelist) (e : Expr) :
    (∀ err, evaluate w e = .error err ↔ e.firstFault? w = some err) ∧
    (∀ v, evaluate w e = .ok v ↔ e.firstFault? w = none ∧ e.value? w = some v) ∧
    ∀ edit : Edit, (∀ path, (edit path).isSome → Unread w e path) →
      evaluate w (e.replace edit) = evaluate w e :=
  ⟨evaluate_eq_error_iff w e, evaluate_eq_ok_iff w e, fun _ h => evaluate_replace h⟩

/-- `log(unknown, base=2, 1 // 2)` fails at its first argument, whatever the other two are. -/
theorem evaluate_first_fault_log :
    evaluate .standard (.call (.name "log")
      [.positional (.name "unknown"), .keyword "base" (.literal (.number 2)),
        .positional (.binary .floorDivide (.literal (.number 1)) (.literal (.number 2)))]) =
      .error (.undefinedName "unknown") ∧
    evaluate .standard (Expr.replace
      (fun path => if path = [.argument 1] then some (.name "x")
        else if path = [.argument 2, .left] then some (.tuple []) else none)
      (.call (.name "log")
        [.positional (.name "unknown"), .keyword "base" (.literal (.number 2)),
          .positional (.binary .floorDivide (.literal (.number 1)) (.literal (.number 2)))])) =
      .error (.undefinedName "unknown") := by
  have herror := ((evaluate_first_fault .standard (.call (.name "log")
    [.positional (.name "unknown"), .keyword "base" (.literal (.number 2)),
      .positional (.binary .floorDivide (.literal (.number 1)) (.literal (.number 2)))])).1
    (.undefinedName "unknown")).mpr rfl
  refine ⟨herror, ((evaluate_first_fault _ _).2.2 _ fun path hpath => ?_).trans herror⟩
  split at hpath
  · next heq => rw [heq]; decide
  · split at hpath
    · next heq => rw [heq]; decide
    · cases hpath

end Calculator
