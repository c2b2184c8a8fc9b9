import Calculator.Proofs.Grammar.Vocabulary

/-!
# Levels of precedence

An expression is read level by level.  At each level an operand of the next tighter level is
preceded by what can only begin a looser one (`Level.heads`) and may be continued (`Level.tails`).

Words are read as an expression at a level in two ways: `Closed` words where nothing behind them
continues the expression, and `Open` words where more operands of the same level may follow.

Results:
* `Closed.open`, `Open.closed`: an operand is an expression of the next looser level.
* `Open.join`: an operator and a tighter operand behind an expression of a chain.
* `Closed.loosen`, `Closed.open_of_lt`: words of a tight level are words of every looser one.
-/

namespace Calculator.Grammar

/-! ## The levels -/

/-- The levels, from the loosest to the tightest. -/
inductive Level where
  | argument | expression | disjunction | conjunction | negation | comparison | bitOr | bitXor
  | bitAnd | shift | sum | product | factor | power | primary | atom
deriving DecidableEq

namespace Level

/-- How tight a level is. -/
def rank : Level → Nat
  | argument => 0
  | expression => 1
  | disjunction => 2
  | conjunction => 3
  | negation => 4
  | comparison => 5
  | bitOr => 6
  | bitXor => 7
  | bitAnd => 8
  | shift => 9
  | sum => 10
  | product => 11
  | factor => 12
  | power => 13
  | primary => 14
  | atom => 15

/-- The next tighter level. -/
def next : Level → Level
  | argument => expression
  | expression => disjunction
  | disjunction => conjunction
  | conjunction => negation
  | negation => comparison
  | comparison => bitOr
  | bitOr => bitXor
  | bitXor => bitAnd
  | bitAnd => shift
  | shift => sum
  | sum => product
  | product => factor
  | factor => power
  | power => primary
  | primary => atom
  | atom => atom

/-- All levels. -/
def all : List Level :=
  [argument, expression, disjunction, conjunction, negation, comparison, bitOr, bitXor, bitAnd,
    shift, sum, product, factor, power, primary, atom]

theorem mem_all (ℓ : Level) : ℓ ∈ all := by
  cases ℓ <;> decide

theorem rank_next {ℓ : Level} (h : ℓ ≠ .atom) : ℓ.next.rank = ℓ.rank + 1 := by
  cases ℓ <;> first | rfl | exact absurd rfl h

theorem rank_le_next (ℓ : Level) : ℓ.rank ≤ ℓ.next.rank := by
  cases ℓ <;> decide

theorem eq_of_rank_eq {ℓ k : Level} (h : ℓ.rank = k.rank) : ℓ = k := by
  cases ℓ <;> cases k <;> first | rfl | exact absurd h (by decide)

/-- What is read at a level. -/
def phrase : Level → Phrase
  | argument => Grammar.argument
  | expression => .rule .expression
  | disjunction => .rule .disjunction
  | conjunction => .rule .conjunction
  | negation => .rule .negation
  | comparison => .rule .comparison
  | bitOr => .rule .bitOr
  | bitXor => .rule .bitXor
  | bitAnd => .rule .bitAnd
  | shift => .rule .shift
  | sum => .rule .sum
  | product => .rule .product
  | factor => .rule .factor
  | power => .rule .power
  | primary => .rule .primary
  | atom => Grammar.atom

/-- What is tried at a level before an operand of the next one. -/
def heads : Level → List Phrase
  | argument =>
    [.rule .keywordUnpacking, .rule .starred, .rule .keywordArgument, .rule .assignment]
  | expression => [.rule .lambda]
  | negation => [.rule .notWord]
  | factor => [.rule .unarySign]
  | _ => []

/-- The test and the other value behind the value of a conditional. -/
def conditionalTail : Phrase :=
  Phrase.inOrder [.rule .ifWord, .rule .disjunction, .rule .elseWord, .rule .expression]

/-- The sign between the operands of a level that is a chain. -/
def sign? : Level → Option Rule
  | disjunction => some .orWord
  | conjunction => some .andWord
  | comparison => some .comparisonSign
  | bitOr => some .bitOrSign
  | bitXor => some .bitXorSign
  | bitAnd => some .bitAndSign
  | shift => some .shiftSign
  | sum => some .sumSign
  | product => some .productSign
  | _ => none

/-- What can continue an operand at a level; a name is also continued where it names an argument
    or is given a value. -/
def tails (ℓ : Level) : List Phrase :=
  match ℓ with
  | expression => [conditionalTail]
  | power => [.seq (.rule .powerSign) (.rule .factor)]
  | primary => [trailer]
  | atom => [.mark ":=", .seq (.mark "=") (.seq (.notNext "=") (.rule .expression))]
  | ℓ =>
    match ℓ.sign? with
    | some r => [.seq (.rule r) ℓ.next.phrase]
    | none => []

/-- What is read behind the first operand of a level. -/
def more (ℓ : Level) : Phrase :=
  match ℓ with
  | expression => Phrase.optional conditionalTail
  | power => Phrase.optional (.seq (.rule .powerSign) (.rule .factor))
  | primary => .many trailer
  | ℓ =>
    match ℓ.sign? with
    | some r => .many (.seq (.rule r) ℓ.next.phrase)
    | none => .nothing

/-- Two operands around the sign of a level that is a chain. -/
def join : Level → Expr → Meaning → Expr → Option Expr
  | disjunction => Meaning.joinLogical? .or
  | conjunction => Meaning.joinLogical? .and
  | comparison => Meaning.joinComparison?
  | _ => Meaning.joinBinary?

/-- The value, the test and the other value of a conditional; or the value alone. -/
def combineConditional? (e : Expr) : List Meaning → Option Expr
  | [] => some e
  | [.text _, .expr test, .text _, .expr orElse] => some (.conditional test e orElse)
  | _ => none

/-- A base and its exponent; or the base alone. -/
def combinePower? (e : Expr) : List Meaning → Option Expr
  | [] => some e
  | [.text _, .expr exponent] => some (.binary .power e exponent)
  | _ => none

/-- An operand alone. -/
def combineNothing? (e : Expr) : List Meaning → Option Expr
  | [] => some e
  | _ => none

/-- A first operand with what is read behind it. -/
def combine? (ℓ : Level) (e : Expr) (ms : List Meaning) : Option Expr :=
  match ℓ with
  | expression => combineConditional? e ms
  | power => combinePower? e ms
  | primary => Meaning.followAll? e ms
  | ℓ => if ℓ.sign?.isSome then Meaning.joinLeft? ℓ.join e ms else combineNothing? e ms

/-- Whether a meaning stands for an expression that is read at a level: an atom may be a name. -/
def Means : Level → Meaning → Expr → Prop
  | atom, m, e => m.operand? = some e
  | _, m, e => m = .expr e

theorem means_expr (ℓ : Level) (e : Expr) : ℓ.Means (.expr e) e := by
  cases ℓ <;> rfl

theorem eq_of_means {ℓ : Level} (h : ℓ ≠ .atom) {m : Meaning} {e : Expr} (hm : ℓ.Means m e) :
    m = .expr e := by
  cases ℓ <;> first | exact hm | exact absurd rfl h

theorem more_chain {ℓ : Level} {r : Rule} (h : ℓ.sign? = some r) :
    ℓ.more = .many (.seq (.rule r) ℓ.next.phrase) := by
  cases ℓ <;> cases h <;> rfl

theorem combine?_chain {ℓ : Level} {r : Rule} (h : ℓ.sign? = some r) (e : Expr)
    (ms : List Meaning) : ℓ.combine? e ms = Meaning.joinLeft? ℓ.join e ms := by
  cases ℓ <;> cases h <;> rfl

theorem combine?_nil (ℓ : Level) (e : Expr) : ℓ.combine? e [] = some e := by
  cases ℓ <;> rfl

theorem next_ne_atom {ℓ : Level} {r : Rule} (h : ℓ.sign? = some r) : ℓ.next ≠ .atom := by
  cases ℓ <;> cases h <;> decide

theorem ne_atom {ℓ : Level} {r : Rule} (h : ℓ.sign? = some r) : ℓ ≠ .atom := by
  rintro rfl
  cases h

end Level

/-! ## Reading a level -/

section Reading

variable {ws mid left : List Word} {e e' : Expr} {m : Meaning} {ms : List Meaning}

/-- Nothing behind a phrase. -/
theorem reads_of_nothing {p : Phrase} (hp : Reads p ws ms mid) {ns : List Meaning}
    (hnothing : Reads .nothing mid ns left) : Reads p ws ms left := by
  intro c hc
  obtain ⟨parts, next, hyields, hnext, hms⟩ := hp c hc
  obtain ⟨parts', last, hyields', hlast, -⟩ := hnothing next hnext
  cases hyields' with
  | terminal h =>
    cases h
    exact ⟨parts, next, hyields, hlast, hms⟩

/-- Nodes of most rules have a meaning wherever they begin. -/
theorem ofParts_of_ofParts? {r : Rule} {ms : List Meaning} {m : Meaning}
    (h : Meaning.ofParts? r ms = some m) (harguments : r ≠ .arguments) (hbraces : r ≠ .braces)
    (offset : Nat) : Meaning.ofParts r offset ms = .ok m := by
  unfold Meaning.ofParts
  split
  · exact absurd rfl harguments
  · exact absurd rfl hbraces
  · rw [h]

theorem ofParts_chain {r : Rule} {join : Expr → Meaning → Expr → Option Expr}
    (hr : ∀ offset parts, Meaning.ofParts r offset parts =
      match (Meaning.chain? join parts).map Meaning.expr with
      | some m => .ok m
      | none => .error (.misshapen offset))
    (h : Meaning.joinLeft? join e ms = some e') (offset : Nat) :
    Meaning.ofParts r offset (.expr e :: ms) = .ok (.expr e') := by
  rw [hr, Meaning.chain?, h]
  rfl

theorem ofParts_conditional (h : Level.combineConditional? e ms = some e') (offset : Nat) :
    Meaning.ofParts .conditional offset (.expr e :: ms) = .ok (.expr e') := by
  rw [Level.combineConditional?.eq_def] at h
  split at h
  · cases h
    rfl
  · cases h
    rfl
  · cases h

theorem ofParts_power (h : Level.combinePower? e ms = some e') (offset : Nat) :
    Meaning.ofParts .power offset (.expr e :: ms) = .ok (.expr e') := by
  rw [Level.combinePower?.eq_def] at h
  split at h
  · cases h
    rfl
  · cases h
    rfl
  · cases h

theorem ofParts_primary (hm : m.operand? = some e) (h : Meaning.followAll? e ms = some e')
    (offset : Nat) : Meaning.ofParts .primary offset (m :: ms) = .ok (.expr e') := by
  refine ofParts_of_ofParts? (r := .primary) ?_ nofun nofun offset
  show (m.operand?.bind fun e => (Meaning.followAll? e ms).map Meaning.expr) = _
  rw [hm, Option.bind_some, h]
  rfl

theorem combineNothing?_eq (h : Level.combineNothing? e ms = some e') : ms = [] ∧ e' = e := by
  rw [Level.combineNothing?.eq_def] at h
  split at h
  · exact ⟨rfl, (Option.some.inj h).symm⟩
  · cases h

/-- An operand of the next level and what is read behind it, where nothing else comes first. -/
theorem Level.reads (ℓ : Level) (hℓ : ℓ ≠ .atom) (hheads : ∀ p ∈ ℓ.heads, Rejects p ws)
    (hm : ℓ.next.Means m e) (hnext : Reads ℓ.next.phrase ws [m] mid)
    (hmore : Reads ℓ.more mid ms left) (hcombine : ℓ.combine? e ms = some e') :
    Reads ℓ.phrase ws [.expr e'] left := by
  cases ℓ with
  | atom => exact absurd rfl hℓ
  | argument =>
    obtain ⟨rfl, rfl⟩ := combineNothing?_eq hcombine
    cases hm
    have hread : Reads (.rule .expression) ws [.expr e'] left := reads_of_nothing hnext hmore
    simp only [Level.heads, List.forall_mem_cons] at hheads
    obtain ⟨hunpacking, hstarred, hkeyword, hassignment, -⟩ := hheads
    exact reads_either_right hunpacking (reads_either_right hstarred
      (reads_either_right hkeyword (reads_either_right hassignment hread)))
  | expression =>
    cases hm
    have hread : Reads (.rule .conditional) ws [.expr e'] left :=
      reads_rule (reads_seq hnext hmore) (ofParts_conditional hcombine)
    exact reads_rule (reads_either_right (hheads _ (.head _)) hread) fun _ => rfl
  | negation =>
    obtain ⟨rfl, rfl⟩ := combineNothing?_eq hcombine
    cases hm
    refine reads_rule (reads_either_right ?_ (reads_of_nothing hnext hmore)) fun _ => rfl
    exact rejects_seq_left (hheads _ (.head _))
  | factor =>
    obtain ⟨rfl, rfl⟩ := combineNothing?_eq hcombine
    cases hm
    refine reads_rule (reads_either_right ?_ (reads_of_nothing hnext hmore)) fun _ => rfl
    exact rejects_seq_left (hheads _ (.head _))
  | power =>
    cases hm
    exact reads_rule (reads_seq hnext hmore) (ofParts_power hcombine)
  | primary => exact reads_rule (reads_seq hnext hmore) (ofParts_primary hm hcombine)
  | disjunction | conjunction | comparison | bitOr | bitXor | bitAnd | shift | sum | product =>
    cases hm
    exact reads_rule (reads_seq hnext hmore) (ofParts_chain (fun _ _ => rfl) hcombine)

/-- Where neither an operand of the next level nor anything else comes first, nothing is read. -/
theorem Level.rejects (ℓ : Level) (hheads : ∀ p ∈ ℓ.heads, Rejects p ws)
    (hnext : Rejects ℓ.next.phrase ws) : Rejects ℓ.phrase ws := by
  cases ℓ with
  | atom => exact hnext
  | argument =>
    simp only [Level.heads, List.forall_mem_cons] at hheads
    obtain ⟨hunpacking, hstarred, hkeyword, hassignment, -⟩ := hheads
    exact rejects_either hunpacking (rejects_either hstarred
      (rejects_either hkeyword (rejects_either hassignment hnext)))
  | expression =>
    have hconditional : Rejects (.rule .conditional) ws := rejects_rule (rejects_seq_left hnext)
    exact rejects_rule (rejects_either (hheads _ (.head _)) hconditional)
  | negation | factor =>
    exact rejects_rule (rejects_either (rejects_seq_left (hheads _ (.head _))) hnext)
  | disjunction | conjunction | comparison | bitOr | bitXor | bitAnd | shift | sum | product
  | power | primary => exact rejects_rule (rejects_seq_left hnext)

/-- Where an operand is not continued, nothing is read behind it. -/
theorem Level.reads_more_nil {ℓ : Level} (htails : ∀ p ∈ ℓ.tails, Rejects p ws) :
    Reads ℓ.more ws [] ws := by
  cases ℓ with
  | argument | negation | factor | atom => exact reads_nothing ws
  | expression | power => exact reads_optional_nil (htails _ (.head _))
  | primary | disjunction | conjunction | comparison | bitOr | bitXor | bitAnd | shift | sum
  | product => exact reads_many_nil (htails _ (.head _))

end Reading

/-! ## Words at a level -/

/-- What stands behind an expression of a level continues it at no level that is as tight. -/
def Stops (ℓ : Level) (rest : List Word) : Prop :=
  ∀ k : Level, ℓ.rank ≤ k.rank → ∀ p ∈ k.tails, Rejects p rest

/-- No looser level begins with anything but an operand. -/
def Starts (ℓ : Level) (ws : List Word) : Prop :=
  ∀ k : Level, k.rank < ℓ.rank → ∀ p ∈ k.heads, Rejects p ws

/-- Words that are read as an expression at a level wherever it is not continued. -/
def Closed (ℓ : Level) (ws : List Word) (e : Expr) : Prop :=
  ∀ rest, Stops ℓ rest →
    Starts ℓ (ws ++ rest) ∧ ∃ m, ℓ.Means m e ∧ Reads ℓ.phrase (ws ++ rest) [m] rest

/-- Words that are read as an expression to which more operands of the same level may be joined. -/
def Open (ℓ : Level) (ws : List Word) (e : Expr) : Prop :=
  ∀ rest, Stops ℓ.next rest →
    Starts ℓ (ws ++ rest) ∧ ∀ ms left e', Reads ℓ.more rest ms left → ℓ.combine? e ms = some e' →
      Reads ℓ.phrase (ws ++ rest) [.expr e'] left

theorem Stops.mono {ℓ k : Level} {rest : List Word} (h : Stops ℓ rest) (hk : ℓ.rank ≤ k.rank) :
    Stops k rest := fun j hj => h j (Nat.le_trans hk hj)

/-- A level whose operands are not continued by more of them adds nothing to the next one. -/
theorem Stops.of_next {ℓ : Level} {rest : List Word} (h : Stops ℓ.next rest)
    (hℓ : ℓ.tails = []) : Stops ℓ rest := by
  intro k hk p hp
  by_cases heq : k = ℓ
  · rw [heq, hℓ] at hp
    cases hp
  · have hrank : ℓ.rank ≠ k.rank := fun h => heq (Level.eq_of_rank_eq h).symm
    have hnext : ℓ.next.rank ≤ ℓ.rank + 1 := by cases ℓ <;> decide
    exact h k (by omega) p hp

theorem Starts.mono {ℓ k : Level} {ws : List Word} (h : Starts ℓ ws) (hk : k.rank ≤ ℓ.rank) :
    Starts k ws := fun j hj => h j (Nat.lt_of_lt_of_le hj hk)

/-- At the end of a text nothing is continued. -/
theorem stops_nil (ℓ : Level) : Stops ℓ [] := by
  have hall : (Level.all.all fun k => k.tails.all endRefuses) = true := by decide
  intro k _ p hp
  exact rejects_nil (List.all_eq_true.mp (List.all_eq_true.mp hall k k.mem_all) p hp)

/-- Whether a word continues nothing at any level that is as tight. -/
def Word.stops (w : Word) (ℓ : Level) : Bool :=
  Level.all.all fun k => decide (k.rank < ℓ.rank) || k.tails.all w.refuses

theorem Word.stops_cons {w : Word} {ℓ : Level} (h : w.stops ℓ = true) (ws : List Word) :
    Stops ℓ (w :: ws) := by
  intro k hk p hp
  have hw := List.all_eq_true.mp h k k.mem_all
  rw [Bool.or_eq_true, decide_eq_true_eq] at hw
  rcases hw with hlt | hw
  · omega
  · exact w.rejects ws (List.all_eq_true.mp hw p hp)

variable {ℓ : Level} {ws : List Word} {e : Expr}

theorem Closed.reads (h : Closed ℓ ws e) (hℓ : ℓ ≠ .atom) {rest : List Word}
    (hrest : Stops ℓ rest) : Reads ℓ.phrase (ws ++ rest) [.expr e] rest := by
  obtain ⟨-, m, hm, hread⟩ := h rest hrest
  rw [Level.eq_of_means hℓ hm] at hread
  exact hread

theorem Closed.open (hℓ : ℓ ≠ .atom) (h : Closed ℓ.next ws e) : Open ℓ ws e := by
  intro rest hrest
  obtain ⟨hstarts, m, hm, hread⟩ := h rest hrest
  have hrank := Level.rank_next hℓ
  refine ⟨hstarts.mono (by omega), fun ms left e' hmore hcombine => ?_⟩
  exact ℓ.reads hℓ (hstarts ℓ (by omega)) hm hread hmore hcombine

theorem Open.closed (h : Open ℓ ws e) : Closed ℓ ws e := by
  intro rest hrest
  obtain ⟨hstarts, hread⟩ := h rest (hrest.mono ℓ.rank_le_next)
  have hmore : Reads ℓ.more rest [] rest := Level.reads_more_nil (hrest ℓ (Nat.le_refl _))
  exact ⟨hstarts, .expr e, ℓ.means_expr e, hread [] rest e hmore (ℓ.combine?_nil e)⟩

/-- Words of a level are words of every looser one. -/
theorem Closed.loosen {k : Level} (h : Closed k ws e) (hℓ : ℓ.rank ≤ k.rank) :
    Closed ℓ ws e := by
  -- one level at a time, each an operand of the next looser one
  induction hd : k.rank - ℓ.rank generalizing ℓ with
  | zero =>
    rw [Level.eq_of_rank_eq (show ℓ.rank = k.rank by omega)]
    exact h
  | succ d ih =>
    have hne : ℓ ≠ .atom := by
      rintro rfl
      have : k.rank ≤ Level.atom.rank := by cases k <;> decide
      omega
    have hrank := Level.rank_next hne
    exact Open.closed (Closed.open hne (ih (by omega) (by omega)))

/-- Words of a level are operands of every looser one. -/
theorem Closed.open_of_lt {k : Level} (h : Closed k ws e) (hℓ : ℓ.rank < k.rank) :
    Open ℓ ws e := by
  have hne : ℓ ≠ .atom := by
    rintro rfl
    have : k.rank ≤ Level.atom.rank := by cases k <;> decide
    omega
  have hrank := Level.rank_next hne
  exact Closed.open hne (h.loosen (by omega))

/-- A sign and an operand of the next level behind an expression of a chain. -/
theorem Open.join {r : Rule} (hsign : ℓ.sign? = some r) {left right : List Word} {x y z : Expr}
    {m : Meaning} (hleft : Open ℓ left x) (hright : Closed ℓ.next right y) (ops : List Word)
    (hstops : ∀ rest, Stops ℓ.next (ops ++ rest))
    (hops : ∀ rest, Starts ℓ.next rest → Reads (.rule r) (ops ++ rest) [m] rest)
    (hjoin : ℓ.join x m y = some z) : Open ℓ (left ++ (ops ++ right)) z := by
  intro rest hrest
  rw [List.append_assoc, List.append_assoc]
  obtain ⟨hstarts, hread⟩ := hleft (ops ++ (right ++ rest)) (hstops _)
  refine ⟨hstarts, fun ms last e' hmore hcombine => ?_⟩
  have hstep : Reads (.seq (.rule r) ℓ.next.phrase) (ops ++ (right ++ rest)) [m, .expr y] rest :=
    reads_seq (hops _ (hright rest hrest).1) (hright.reads (Level.next_ne_atom hsign) hrest)
  rw [Level.more_chain hsign] at hmore hread
  refine hread ([m, .expr y] ++ ms) last e' (reads_many_cons hstep hmore) ?_
  rw [Level.combine?_chain hsign] at hcombine ⊢
  rw [List.cons_append, List.cons_append, List.nil_append, Meaning.joinLeft?, hjoin]
  exact hcombine

end Calculator.Grammar
