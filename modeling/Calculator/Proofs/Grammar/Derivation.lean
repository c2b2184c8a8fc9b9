import Calculator.Proofs.Grammar.Arithmetic

/-!
# The recognizer finds a derivation

On a list of arithmetic tokens every phrase of the grammar either reads the tokens of a derivation
or fails: `Decided` says so, for one phrase after another from the brackets to the loosest level.
The recursion through the brackets is an induction on the number of tokens.

Together with the completeness of reading this makes the recognizer decide the context-free
grammar.

Results:
* `decided_expression`: an expression reads a derived sum at the front of the tokens, or fails.
* `parse_eq_ok_iff`: a list of tokens is parsed as an expression exactly if it is derived with it.
-/

namespace Calculator.Grammar.Arithmetic

/-! ## First tokens -/

/-- Whether a phrase fails on a token because of what it looks for first. -/
def Token.refuses : Token → Phrase → Bool
  | number _ => NumberWord.refuses
  | name _ => NameWord.refuses
  | t => t.word.refuses

/-- Whether a phrase fails on some tokens because of what it looks for first. -/
def refuses : List Token → Phrase → Bool
  | [] => endRefuses
  | t :: _ => t.refuses

theorem rejects {ts : List Token} {p : Phrase} (h : refuses ts p = true) :
    Rejects p (words ts) := by
  cases ts with
  | nil => exact rejects_nil h
  | cons t ts =>
    cases t with
    | number n => exact n.rejects _ h
    | name a => exact a.rejects _ h
    | _ => exact Word.rejects _ _ h

/-- A phrase that no token of arithmetic begins. -/
theorem rejects_foreign {p : Phrase} (hend : endRefuses p = true)
    (htoken : ∀ t : Token, t.refuses p = true) (ts : List Token) : Rejects p (words ts) := by
  cases ts with
  | nil => exact rejects hend
  | cons t ts => exact rejects (htoken t)

/-- Neither in front of an operand of arithmetic nor behind it there is anything of a level looser
    than a sum. -/
theorem refuses_looser (t : Token) : (Level.all.all fun ℓ =>
    decide (Level.sum.rank ≤ ℓ.rank) || decide (ℓ = .argument) ||
      (ℓ.heads ++ ℓ.tails).all t.refuses) = true := by
  cases t <;> rfl

theorem endRefuses_looser :
    (Level.all.all fun ℓ => (ℓ.heads ++ ℓ.tails).all endRefuses) = true := by
  decide

theorem rejects_looser {ℓ : Level} (hsum : ℓ.rank < Level.sum.rank) (hargument : ℓ ≠ .argument)
    (ts : List Token) : ∀ p ∈ ℓ.heads ++ ℓ.tails, Rejects p (words ts) := by
  intro p hp
  refine rejects_foreign ?_ (fun t => ?_) ts
  · exact List.all_eq_true.mp (List.all_eq_true.mp endRefuses_looser ℓ ℓ.mem_all) p hp
  · have ht := List.all_eq_true.mp (refuses_looser t) ℓ ℓ.mem_all
    rw [decide_eq_false (by omega), decide_eq_false hargument, Bool.false_or, Bool.false_or] at ht
    exact List.all_eq_true.mp ht p hp

/-! ## Deciding a phrase -/

/-- A phrase reads tokens that stand for something, or fails. -/
def Decided {α : Type} (D : List Token → α → Prop) (p : Phrase) (meaning : α → Meaning)
    (ts : List Token) : Prop :=
  (∃ front rest v, ts = front ++ rest ∧ D front v ∧
    Reads p (words ts) [meaning v] (words rest)) ∨ Rejects p (words ts)

/-- An operand of the next level is decided where it is read at a looser one. -/
theorem Decided.loosen {ℓ : Level} (hℓ : ℓ.next ≠ .atom) {D : List Token → Expr → Prop}
    {ts : List Token} (hheads : ∀ p ∈ ℓ.heads, Rejects p (words ts))
    (htails : ∀ rest, ∀ p ∈ ℓ.tails, Rejects p (words rest))
    (h : Decided D ℓ.next.phrase .expr ts) : Decided D ℓ.phrase .expr ts := by
  have hne : ℓ ≠ .atom := by
    rintro rfl
    exact hℓ rfl
  rcases h with ⟨front, rest, x, hts, hD, hread⟩ | hrejects
  · refine .inl ⟨front, rest, x, hts, hD, ?_⟩
    exact ℓ.reads hne hheads (ℓ.next.means_expr x) hread
      (Level.reads_more_nil (htails rest)) (ℓ.combine?_nil x)
  · exact .inr (ℓ.rejects hheads hrejects)

/-- A sum is decided as an expression. -/
theorem decided_expression_of_sum {ts : List Token}
    (h : Decided (Derives .sum) (.rule .sum) .expr ts) :
    Decided (Derives .sum) (.rule .expression) .expr ts := by
  have hstep : ∀ ℓ : Level, ℓ.rank < Level.sum.rank → ℓ ≠ .argument →
      Decided (Derives .sum) ℓ.next.phrase .expr ts → Decided (Derives .sum) ℓ.phrase .expr ts := by
    intro ℓ hsum hargument hnext
    refine hnext.loosen ?_ ?_ ?_
    · cases ℓ <;> first | decide | exact absurd hsum (by decide)
    · exact fun p hp => rejects_looser hsum hargument ts p (List.mem_append_left _ hp)
    · exact fun rest p hp => rejects_looser hsum hargument rest p (List.mem_append_right _ hp)
  have hshift := hstep .shift (by decide) nofun h
  have hbitAnd := hstep .bitAnd (by decide) nofun hshift
  have hbitXor := hstep .bitXor (by decide) nofun hbitAnd
  have hbitOr := hstep .bitOr (by decide) nofun hbitXor
  have hcomparison := hstep .comparison (by decide) nofun hbitOr
  have hnegation := hstep .negation (by decide) nofun hcomparison
  have hconjunction := hstep .conjunction (by decide) nofun hnegation
  have hdisjunction := hstep .disjunction (by decide) nofun hconjunction
  exact hstep .expression (by decide) nofun hdisjunction

/-! ## Sums and products -/

/-- The operators of a chain: what their signs mean, what they build, and that no other token is
    taken for one of them. -/
structure Operators (ℓ : Level) (r : Rule) (op? : Token → Option BinaryOperator)
    (D operand : List Token → Expr → Prop) : Prop where
  sign : ℓ.sign? = some r
  reads : ∀ t op, op? t = some op → ∃ m, (∀ ws, Reads (.rule r) (t.word :: ws) [m] ws) ∧
    ∀ x y, ℓ.join x m y = some (.binary op x y)
  stop : Rejects (.seq (.rule r) ℓ.next.phrase) []
  rejects : ∀ t, op? t = none → ∀ ts, Rejects (.seq (.rule r) ℓ.next.phrase) (words (t :: ts))
  more : ∀ l t r op x y, D l x → op? t = some op → operand r y → D (l ++ t :: r) (.binary op x y)

section Chain

variable {ℓ : Level} {r : Rule} {op? : Token → Option BinaryOperator}
  {D operand : List Token → Expr → Prop}

/-- More operands of a chain, as long as there is another one behind a sign. -/
theorem Operators.decided_more (h : Operators ℓ r op? D operand) {n : Nat}
    (hoperand : ∀ ts, ts.length < n → Decided operand ℓ.next.phrase .expr ts) {rest : List Token}
    (hlength : rest.length ≤ n) {front : List Token} {x : Expr} (hfront : D front x) :
    ∃ middle last ms x', rest = middle ++ last ∧ Reads ℓ.more (words rest) ms (words last) ∧
      ℓ.combine? x ms = some x' ∧ D (front ++ middle) x' := by
  -- each round takes a sign, so there are fewer tokens behind it
  induction hk : rest.length using Nat.strongRecOn generalizing rest front x with | ind k ih
  rw [Level.more_chain h.sign]
  have hstop : Rejects (.seq (.rule r) ℓ.next.phrase) (words rest) →
      ∃ middle last ms x', rest = middle ++ last ∧
        Reads (.many (.seq (.rule r) ℓ.next.phrase)) (words rest) ms (words last) ∧
        ℓ.combine? x ms = some x' ∧ D (front ++ middle) x' := fun hrejects =>
    ⟨[], rest, [], x, rfl, reads_many_nil hrejects, ℓ.combine?_nil x, by
      rw [List.append_nil]
      exact hfront⟩
  cases rest with
  | nil => exact hstop h.stop
  | cons t rest =>
    cases hop : op? t with
    | none => exact hstop (h.rejects t hop rest)
    | some op =>
      obtain ⟨m, hsign, hjoin⟩ := h.reads t op hop
      rw [List.length_cons] at hlength hk
      rcases hoperand rest (by omega) with ⟨operands, last, y, hrest, hy, hread⟩ | hrejects
      · have hlast : last.length < k := by
          rw [← hk, hrest, List.length_append]
          omega
        have hmore := h.more front t operands op x y hfront hop hy
        obtain ⟨middle, last', ms, x', hlast', hreads, hcombine, hx'⟩ :=
          ih last.length hlast (by omega) hmore rfl
        rw [Level.more_chain h.sign] at hreads
        refine ⟨t :: operands ++ middle, last', [m, .expr y] ++ ms, x', ?_, ?_, ?_, ?_⟩
        · rw [hrest, hlast', List.cons_append, List.cons_append, List.append_assoc]
        · exact reads_many_cons (reads_seq (hsign _) hread) hreads
        · rw [Level.combine?_chain h.sign] at hcombine ⊢
          show ((ℓ.join x m y).bind fun z => Meaning.joinLeft? ℓ.join z ms) = _
          rw [hjoin]
          exact hcombine
        · rw [← List.append_assoc]
          exact hx'
      · exact hstop (rejects_seq_right (hsign _) hrejects)

/-- A chain is decided if its operands are. -/
theorem Operators.decided (h : Operators ℓ r op? D operand) (hheads : ℓ.heads = []) {n : Nat}
    (one : ∀ ts x, operand ts x → D ts x)
    (hoperand : ∀ ts, ts.length ≤ n → Decided operand ℓ.next.phrase .expr ts) {ts : List Token}
    (hlength : ts.length ≤ n) : Decided D ℓ.phrase .expr ts := by
  have hnone : ∀ p ∈ ℓ.heads, Rejects p (words ts) := by
    rw [hheads]
    nofun
  rcases hoperand ts hlength with ⟨front, rest, x, hts, hx, hread⟩ | hrejects
  · have hrest : rest.length ≤ n := by
      rw [hts, List.length_append] at hlength
      omega
    obtain ⟨middle, last, ms, x', hlast, hmore, hcombine, hx'⟩ :=
      h.decided_more (fun ts hts => hoperand ts (Nat.le_of_lt hts)) hrest (one front x hx)
    refine .inl ⟨front ++ middle, last, x', ?_, hx', ?_⟩
    · rw [hts, hlast, List.append_assoc]
    · exact ℓ.reads (Level.ne_atom h.sign) hnone (ℓ.next.means_expr x)
        hread hmore hcombine
  · exact .inr (ℓ.rejects hnone hrejects)

end Chain

theorem sumOperators :
    Operators .sum .sumSign Token.sumOperator? (Derives .sum) (Derives .product) where
  sign := rfl
  reads t op hop := by
    cases t <;> cases hop
    · exact ⟨.text ['+'], fun ws => reads_token_rule ws rfl rfl fun _ => rfl, fun _ _ => rfl⟩
    · exact ⟨.text ['-'], fun ws => reads_token_rule ws rfl rfl fun _ => rfl, fun _ _ => rfl⟩
  stop := rejects_nil (by decide)
  rejects t hop ts := rejects (by cases t <;> first | rfl | cases hop)
  more _ _ _ _ _ _ hl hop hr := .sumMore hl hop hr

/-- Of the word `**` a product takes only the first character, and no operand begins with the
    second one. -/
theorem rejects_productSign_power (ts : List Token) :
    Rejects (.seq (.rule .productSign) (.rule .factor)) (words (.power :: ts)) := by
  have hsign : Reads (.rule .productSign) (words (.power :: ts)) [.text ['*']]
      (words (.times :: ts)) :=
    reads_rule (reads_token_within (words ts) rfl rfl) fun _ => rfl
  exact rejects_seq_right hsign (rejects rfl)

theorem productOperators :
    Operators .product .productSign Token.productOperator? (Derives .product)
      (Derives .factor) where
  sign := rfl
  reads t op hop := by
    cases t <;> cases hop
    · exact ⟨.text ['*'], fun ws => reads_token_rule ws rfl rfl fun _ => rfl, fun _ _ => rfl⟩
    · exact ⟨.text ['/'], fun ws => reads_token_rule ws rfl rfl fun _ => rfl, fun _ _ => rfl⟩
    · exact ⟨.text ['%'], fun ws => reads_token_rule ws rfl rfl fun _ => rfl, fun _ _ => rfl⟩
  stop := rejects_nil (by decide)
  rejects t hop ts := by
    cases t with
    | power => exact rejects_productSign_power ts
    | times => cases hop
    | divide => cases hop
    | modulo => cases hop
    | _ => exact rejects rfl
  more _ _ _ _ _ _ hl hop hr := .productMore hl hop hr

/-! ## Powers and signs -/

theorem decided_power {n : Nat}
    (hprimary : ∀ ts, ts.length ≤ n → Decided (Derives .primary) (.rule .primary) .expr ts)
    {ts : List Token} (hlength : ts.length ≤ n)
    (hfactor : ∀ us : List Token, us.length < ts.length →
      Decided (Derives .factor) (.rule .factor) .expr us) :
    Decided (Derives .power) (.rule .power) .expr ts := by
  rcases hprimary ts hlength with ⟨front, rest, x, hts, hx, hread⟩ | hrejects
  · have halone : Rejects (.seq (.rule .powerSign) (.rule .factor)) (words rest) →
        Decided (Derives .power) (.rule .power) .expr ts := fun hstop =>
      .inl ⟨front, rest, x, hts, .powerOne hx, Level.reads .power nofun nofun rfl hread
        (reads_optional_nil hstop) rfl⟩
    cases rest with
    | nil => exact halone (rejects rfl)
    | cons t rest =>
      cases t with
      | power =>
        have hsign : Reads (.rule .powerSign) (words (.power :: rest)) [.text ['*', '*']]
            (words rest) := reads_token_rule _ rfl rfl fun _ => rfl
        have hshort : rest.length < ts.length := by
          rw [hts, List.length_append, List.length_cons]
          omega
        rcases hfactor rest hshort with ⟨exponent, last, y, hrest, hy, hexponent⟩ | hstop
        · refine .inl ⟨front ++ .power :: exponent, last, .binary .power x y, ?_,
            .powerMore hx hy, ?_⟩
          · rw [hts, hrest, List.append_assoc, List.cons_append]
          · exact Level.reads .power nofun nofun rfl hread
              (reads_either_left (reads_seq hsign hexponent)) rfl
        · exact halone (rejects_seq_right hsign hstop)
      | _ => exact halone (rejects rfl)
  · exact .inr (Level.rejects .power nofun hrejects)

theorem decided_factor {n : Nat}
    (hprimary : ∀ ts, ts.length ≤ n → Decided (Derives .primary) (.rule .primary) .expr ts)
    {ts : List Token} (hlength : ts.length ≤ n) :
    Decided (Derives .factor) (.rule .factor) .expr ts := by
  induction hk : ts.length using Nat.strongRecOn generalizing ts with | ind k ih
  have hfactor : ∀ us : List Token, us.length < ts.length →
      Decided (Derives .factor) (.rule .factor) .expr us := fun us hus =>
    ih us.length (by omega) (by omega) rfl
  have hpower := decided_power hprimary hlength hfactor
  -- a power is tried only where no sign has been taken
  have hunsigned : Rejects (.rule .unarySign) (words ts) →
      Decided (Derives .factor) (.rule .factor) .expr ts := by
    intro hsign
    have hheads : ∀ p ∈ Level.factor.heads, Rejects p (words ts) := by
      intro p hp
      rw [List.mem_singleton.mp hp]
      exact hsign
    rcases hpower with ⟨front, rest, x, hts, hx, hread⟩ | hrejects
    · exact .inl ⟨front, rest, x, hts, .factorOne hx,
        Level.reads .factor nofun hheads rfl hread (reads_nothing _) rfl⟩
    · exact .inr (Level.rejects .factor hheads hrejects)
  cases ts with
  | nil => exact hunsigned (rejects rfl)
  | cons t ts =>
    cases hop : t.sign? with
    | none => exact hunsigned (rejects (by cases t <;> first | rfl | cases hop))
    | some op =>
      have hsign : Reads (.rule .unarySign) (words (t :: ts)) [.text op.symbol.toList]
          (words ts) := by
        cases t <;> cases hop <;> exact reads_token_rule _ rfl rfl fun _ => rfl
      rcases hfactor ts (Nat.lt_succ_self _) with ⟨front, rest, x, hts, hx, hread⟩ | hrejects
      · refine .inl ⟨t :: front, rest, .unary op x, ?_, .factorSign hop hx, ?_⟩
        · rw [hts, List.cons_append]
        · refine reads_rule (reads_either_left (reads_seq hsign hread)) fun _ => ?_
          cases op <;> rfl
      · -- a sign in vain: no power begins with one either
        have hpowerRejects : Rejects (.rule .power) (words (t :: ts)) := by
          cases t <;> cases hop <;> exact rejects rfl
        exact .inr (rejects_rule (rejects_either (rejects_seq_right hsign hrejects) hpowerRejects))

/-! ## Brackets -/

/-- Something in a pair of brackets. -/
def Bracketed {α : Type} (D : List Token → α → Prop) (ts : List Token) (v : α) : Prop :=
  ∃ inner, ts = .opening :: (inner ++ [.closing]) ∧ D inner v

/-- The tokens of a comma behind the last part, or none. -/
def trailing : Bool → List Token
  | true => [.comma]
  | false => []

/-- The inside of a pair of brackets is read as nothing, or as listed parts with or without a comma
    behind the last one. -/
def DecidedInside {α : Type} (L : List Token → List α → Prop) (part comma : Phrase)
    (sep : List Meaning) (meaning : α → Meaning) (ts : List Token) : Prop :=
  Reads (inside part comma) (words ts) [] (words ts) ∨
    ∃ front b rest v vs, ts = front ++ trailing b ++ rest ∧ L front (v :: vs) ∧
      Reads (inside part comma) (words ts)
        (meaning v :: (joined sep (vs.map meaning) ++ if b then sep else [])) (words rest)

section Inside

variable {α : Type} {D : List Token → α → Prop} {L : List Token → List α → Prop}
  {part comma : Phrase} {sep : List Meaning} {meaning : α → Meaning}

/-- More parts, as long as there is another one behind a comma. -/
theorem decided_continued (hone : ∀ ts v, D ts v → L ts [v])
    (hmore : ∀ l r v vs, D l v → L r vs → L (l ++ .comma :: r) (v :: vs))
    (hcomma : ∀ rest, Reads comma (.comma :: rest) sep rest)
    (hother : ∀ ts, (∀ us, ts ≠ .comma :: us) → Rejects comma (words ts)) {n : Nat}
    (hpart : ∀ ts, ts.length < n → Decided D part meaning ts) {rest : List Token}
    (hlength : rest.length < n) :
    ∃ middle last vs, rest = middle ++ last ∧
      Reads (.many (.seq comma part)) (words rest) (joined sep (vs.map meaning)) (words last) ∧
      ∀ front v, D front v → L (front ++ middle) (v :: vs) := by
  -- what is joined to the parts so far is known only behind the last one, so `L` is stated for
  -- whatever part stands in front
  induction hk : rest.length using Nat.strongRecOn generalizing rest with | ind k ih
  have hstop : Rejects (.seq comma part) (words rest) →
      ∃ middle last vs, rest = middle ++ last ∧
        Reads (.many (.seq comma part)) (words rest) (joined sep (vs.map meaning)) (words last) ∧
        ∀ front v, D front v → L (front ++ middle) (v :: vs) := by
    intro hrejects
    refine ⟨[], rest, [], rfl, reads_many_nil hrejects, fun front v hv => ?_⟩
    rw [List.append_nil]
    exact hone front v hv
  by_cases hrest : ∃ us, rest = .comma :: us
  · obtain ⟨us, rfl⟩ := hrest
    rw [List.length_cons] at hlength hk
    rcases hpart us (by omega) with ⟨front, last, v, hus, hv, hread⟩ | hrejects
    · have hlast : last.length < k := by
        rw [← hk, hus, List.length_append]
        omega
      obtain ⟨middle, last', vs, hlast', hreads, hall⟩ := ih last.length hlast (by omega) rfl
      refine ⟨.comma :: (front ++ middle), last', v :: vs, ?_, ?_, fun l w hw => ?_⟩
      · rw [hus, hlast', List.cons_append, List.append_assoc]
      · exact reads_many_cons (reads_seq (hcomma _) hread) hreads
      · exact hmore l (front ++ middle) w (v :: vs) hw (hall front v hv)
    · exact hstop (rejects_seq_right (hcomma _) hrejects)
  · exact hstop (rejects_seq_left (hother rest fun us hus => hrest ⟨us, hus⟩))

/-- What stands in brackets is nothing, or some parts and possibly a comma behind the last. -/
theorem decided_inside (hone : ∀ ts v, D ts v → L ts [v])
    (hmore : ∀ l r v vs, D l v → L r vs → L (l ++ .comma :: r) (v :: vs))
    (hcomma : ∀ rest, Reads comma (.comma :: rest) sep rest)
    (hother : ∀ ts, (∀ us, ts ≠ .comma :: us) → Rejects comma (words ts)) {n : Nat}
    (hpart : ∀ ts, ts.length < n → Decided D part meaning ts) {ts : List Token}
    (hlength : ts.length < n) : DecidedInside L part comma sep meaning ts := by
  rcases hpart ts hlength with ⟨front, rest, v, hts, hv, hread⟩ | hrejects
  · have hrest : rest.length < n := by
      rw [hts, List.length_append] at hlength
      omega
    obtain ⟨middle, last, vs, hlast, hreads, hall⟩ :=
      decided_continued hone hmore hcomma hother hpart hrest
    have hclause : Rejects (Phrase.repeated (.rule .clause)) (words rest) :=
      rejects_foreign rfl (fun t => by cases t <;> rfl) rest
    have hstep : ∀ {ns left}, Reads (Phrase.optional comma) (words last) ns left →
        Reads (inside part comma) (words ts)
          (meaning v :: (joined sep (vs.map meaning) ++ ns)) left := fun hcommas =>
      reads_either_left
        (reads_seq hread (reads_either_right hclause (reads_seq hreads hcommas)))
    right
    by_cases hlastComma : ∃ us, last = .comma :: us
    · obtain ⟨us, rfl⟩ := hlastComma
      refine ⟨front ++ middle, true, us, v, vs, ?_, hall front v hv, ?_⟩
      · rw [hts, hlast, trailing, List.append_assoc, List.append_assoc]
        rfl
      · exact hstep (reads_either_left (hcomma (words us)))
    · refine ⟨front ++ middle, false, last, v, vs, ?_, hall front v hv, ?_⟩
      · rw [hts, hlast, trailing, List.append_nil, List.append_assoc]
      · exact hstep (reads_optional_nil (hother last fun us hus => hlastComma ⟨us, hus⟩))
  · exact .inl (reads_optional_nil (rejects_seq_left hrejects))

/-- A rule for brackets is decided if what stands in them is. -/
theorem decided_bracketed {β : Type} {r : Rule} {E : List Token → β → Prop} {μ : β → Meaning}
    (hr : r.body = bracketed "(" part comma ")") {ts : List Token}
    (h : DecidedInside L part comma sep meaning ts)
    (hnone : ∃ w, E [] w ∧ ∀ offset, Meaning.ofParts r offset [] = .ok (μ w))
    (hsome : ∀ front b v vs, L front (v :: vs) → ∃ w, E (front ++ trailing b) w ∧
      ∀ offset, Meaning.ofParts r offset
        (meaning v :: (joined sep (vs.map meaning) ++ if b then sep else [])) = .ok (μ w)) :
    Decided (Bracketed E) (.rule r) μ (.opening :: ts) := by
  -- whatever has been read, a closing bracket must come next
  have hclose : ∀ {inner rest ms w}, ts = inner ++ rest →
      Reads (inside part comma) (words ts) ms (words rest) → E inner w →
      (∀ offset, Meaning.ofParts r offset ms = .ok (μ w)) →
      Decided (Bracketed E) (.rule r) μ (.opening :: ts) := by
    intro inner rest ms w hts hread hw hm
    by_cases hrest : ∃ us, rest = .closing :: us
    · obtain ⟨us, rfl⟩ := hrest
      have hbody : Reads r.body (words (.opening :: ts)) ms (words us) := by
        have hseq := reads_seq (reads_opening (words ts))
          (reads_seq hread (reads_closing (words us)))
        rw [List.nil_append, List.append_nil] at hseq
        rw [hr]
        exact hseq
      refine .inl ⟨.opening :: (inner ++ [.closing]), us, w, ?_, ⟨inner, rfl, hw⟩,
        reads_rule hbody hm⟩
      rw [hts, List.cons_append, List.append_assoc]
      rfl
    · have hclosing : Rejects (.mark ")") (words rest) := by
        cases rest with
        | nil => exact rejects rfl
        | cons t rest =>
          cases t with
          | closing => exact absurd ⟨rest, rfl⟩ hrest
          | _ => exact rejects rfl
      refine .inr (rejects_rule ?_)
      rw [hr]
      exact rejects_seq_right (reads_opening (words ts)) (rejects_seq_right hread hclosing)
  rcases h with hread | ⟨front, b, rest, v, vs, hts, hL, hread⟩
  · obtain ⟨w, hw, hm⟩ := hnone
    exact hclose (List.nil_append ts).symm hread hw hm
  · obtain ⟨w, hw, hm⟩ := hsome front b v vs hL
    exact hclose hts hread hw hm

end Inside

/-! ## Items and arguments -/

/-- A name is followed by neither of the signs that would make it a target. -/
theorem rejects_target {r : Rule} {q : Phrase} {s : String}
    (hr : r.body = .seq (.rule .identifier) (.seq (.mark s) q))
    (hend : endRefuses (.mark s) = true) (htoken : ∀ t : Token, t.refuses (.mark s) = true)
    (ts : List Token) : Rejects (.rule r) (words ts) := by
  refine rejects_rule ?_
  rw [hr]
  cases ts with
  | nil => exact rejects rfl
  | cons t ts =>
    cases t with
    | name a =>
      exact rejects_seq_right (reads_identifier a (words ts))
        (rejects_seq_left (rejects_foreign hend htoken ts))
    | _ => exact rejects rfl

theorem rejects_assignment (ts : List Token) : Rejects (.rule .assignment) (words ts) :=
  rejects_target rfl rfl (fun t => by cases t <;> rfl) ts

theorem rejects_keywordArgument (ts : List Token) : Rejects (.rule .keywordArgument) (words ts) :=
  rejects_target rfl rfl (fun t => by cases t <;> rfl) ts

theorem rejects_comma (ts : List Token) (hts : ∀ us, ts ≠ .comma :: us) :
    Rejects (.rule .comma) (words ts) ∧ Rejects (.mark ",") (words ts) := by
  cases ts with
  | nil => exact ⟨rejects rfl, rejects rfl⟩
  | cons t ts =>
    cases t with
    | comma => exact absurd rfl (hts ts)
    | _ => exact ⟨rejects rfl, rejects rfl⟩

/-- What a list of items in brackets stands for. -/
theorem exists_group {front : List Token} (b : Bool) {x : Expr} {xs : List Expr}
    (h : Derives .items front (x :: xs)) : ∃ y, Derives .group (front ++ trailing b) y ∧
      Meaning.ofParts? .parenthesized (.expr x :: (joined [.separator] (xs.map .expr) ++
        if b then [.separator] else [])) = some (.expr y) := by
  cases b with
  | true => exact ⟨.tuple (x :: xs), .groupTrailing h, parenthesized_tuple (.inr rfl)⟩
  | false =>
    rw [trailing, List.append_nil]
    cases xs with
    | nil =>
      cases h with
      | itemsOne hitem => exact ⟨x, .groupOne hitem, rfl⟩
      | itemsMore _ hnone => cases hnone
    | cons y ys =>
      exact ⟨.tuple (x :: y :: ys), .groupMany h (Nat.le_add_left 2 ys.length),
        parenthesized_tuple (.inl (List.cons_ne_nil y ys))⟩

/-- A sum behind a token that says what it is used for. -/
def Prefixed {α : Type} (t : Token) (use : Expr → α) (ts : List Token) (v : α) : Prop :=
  ∃ inner x, ts = t :: inner ∧ v = use x ∧ Derives .sum inner x

section Parts

variable {n : Nat}
  (hsum : ∀ ts, ts.length < n → Decided (Derives .sum) (.rule .expression) .expr ts)
  {ts : List Token}

include hsum

theorem decided_prefixed {α : Type} {r : Rule} {s : String} {t : Token} {use : Expr → α}
    {meaning : α → Meaning} (hr : r.body = .seq (.sign [s]) (.rule .expression))
    (hsign : Reads (.sign [s]) (words (t :: ts)) [.text s.toList] (words ts))
    (hm : ∀ x offset, Meaning.ofParts r offset [.text s.toList, .expr x] = .ok (meaning (use x)))
    (hlength : (t :: ts).length < n) :
    Decided (Prefixed t use) (.rule r) meaning (t :: ts) := by
  rcases hsum ts (Nat.lt_of_succ_lt hlength) with ⟨front, rest, x, hts, hx, hread⟩ | hrejects
  · have hbody : Reads r.body (words (t :: ts)) [.text s.toList, .expr x] (words rest) := by
      rw [hr]
      exact reads_seq hsign hread
    exact .inl ⟨t :: front, rest, use x, congrArg (t :: ·) hts, ⟨front, x, rfl, rfl, hx⟩,
      reads_rule hbody (hm x)⟩
  · refine .inr (rejects_rule ?_)
    rw [hr]
    exact rejects_seq_right hsign hrejects

/-- An unpacked iterable; of the word `**` its sign takes the first character in vain. -/
theorem decided_starred (hlength : ts.length < n) :
    Decided (Prefixed .times Expr.starred) (.rule .starred) .expr ts := by
  cases ts with
  | nil => exact .inr (rejects rfl)
  | cons t ts =>
    cases t with
    | times => exact decided_prefixed hsum rfl (reads_token _ rfl rfl) (fun _ _ => rfl) hlength
    | power =>
      have hsign : Reads (.sign ["*"]) (words (.power :: ts)) [.text ['*']]
          (words (.times :: ts)) := reads_token_within _ rfl rfl
      exact .inr (rejects_rule (rejects_seq_right hsign (rejects rfl)))
    | _ => exact .inr (rejects rfl)

theorem decided_unpacking (hlength : ts.length < n) :
    Decided (Prefixed .power Argument.unpacked) (.rule .keywordUnpacking) argumentMeaning ts := by
  cases ts with
  | nil => exact .inr (rejects rfl)
  | cons t ts =>
    cases t with
    | power => exact decided_prefixed hsum rfl (reads_token _ rfl rfl) (fun _ _ => rfl) hlength
    | _ => exact .inr (rejects rfl)

theorem decided_item (hlength : ts.length < n) : Decided (Derives .item) item .expr ts := by
  rcases decided_starred hsum hlength with ⟨front, rest, x, hts, hx, hread⟩ | hstarred
  · obtain ⟨inner, y, rfl, rfl, hy⟩ := hx
    exact .inl ⟨.times :: inner, rest, .starred y, hts, .itemStarred hy, reads_either_left hread⟩
  · rcases hsum ts hlength with ⟨front, rest, x, hts, hx, hread⟩ | hrejects
    · exact .inl ⟨front, rest, x, hts, .itemPlain hx,
        reads_either_right hstarred (reads_either_right (rejects_assignment ts) hread)⟩
    · exact .inr (rejects_either hstarred (rejects_either (rejects_assignment ts) hrejects))

theorem decided_argument (hlength : ts.length < n) :
    Decided (Derives .argument) argument argumentMeaning ts := by
  rcases decided_unpacking hsum hlength with ⟨front, rest, a, hts, ha, hread⟩ | hunpacking
  · obtain ⟨inner, y, rfl, rfl, hy⟩ := ha
    exact .inl ⟨.power :: inner, rest, .unpacked y, hts, .unpacked hy, reads_either_left hread⟩
  · have hkeyword := rejects_keywordArgument ts
    have hassignment := rejects_assignment ts
    rcases decided_starred hsum hlength with ⟨front, rest, x, hts, hx, hread⟩ | hstarred
    · obtain ⟨inner, y, rfl, rfl, hy⟩ := hx
      exact .inl ⟨.times :: inner, rest, .positional (.starred y), hts,
        .positional (.itemStarred hy), reads_either_right hunpacking (reads_either_left hread)⟩
    · rcases hsum ts hlength with ⟨front, rest, x, hts, hx, hread⟩ | hrejects
      · exact .inl ⟨front, rest, .positional x, hts, .positional (.itemPlain hx),
          reads_either_right hunpacking (reads_either_right hstarred
            (reads_either_right hkeyword (reads_either_right hassignment hread)))⟩
      · exact .inr (rejects_either hunpacking (rejects_either hstarred
          (rejects_either hkeyword (rejects_either hassignment hrejects))))

/-! ## Operands -/

theorem decided_parenthesized (hlength : ts.length ≤ n) :
    Decided (Bracketed (Derives .group)) (.rule .parenthesized) .expr ts := by
  cases ts with
  | nil => exact .inr (rejects rfl)
  | cons t ts =>
    cases t with
    | opening =>
      have hinside : DecidedInside (Derives .items) item (.rule .comma) [.separator] .expr ts :=
        decided_inside (fun _ _ => .itemsOne) (fun _ _ _ _ => .itemsMore) reads_comma
          (fun us hus => (rejects_comma us hus).1) (fun _ => decided_item hsum) hlength
      refine decided_bracketed rfl hinside ⟨.tuple [], .groupNone, fun _ => rfl⟩ ?_
      intro front b x xs hitems
      obtain ⟨y, hy, hm⟩ := exists_group b hitems
      refine ⟨y, hy, fun offset => ?_⟩
      rw [Meaning.ofParts, hm]
      · exact nofun
      · exact nofun
    | _ => exact .inr (rejects rfl)

theorem decided_arguments (hlength : ts.length ≤ n) :
    Decided (Bracketed (Derives .arguments)) (.rule .arguments) .callWith ts := by
  cases ts with
  | nil => exact .inr (rejects rfl)
  | cons t ts =>
    cases t with
    | opening =>
      have hinside : DecidedInside (Derives .argumentList) argument (.mark ",") []
          argumentMeaning ts :=
        decided_inside (fun _ _ => .argumentListOne) (fun _ _ _ _ => .argumentListMore)
          reads_comma_mark (fun us hus => (rejects_comma us hus).2)
          (fun _ => decided_argument hsum) hlength
      refine decided_bracketed rfl hinside ⟨[], .argumentsNone, fun _ => rfl⟩ ?_
      intro front b a as hlist
      have hderives : Derives .arguments (front ++ trailing b) (a :: as) := by
        cases b with
        | true => exact .argumentsTrailing hlist
        | false =>
          rw [trailing, List.append_nil]
          exact .argumentsSome hlist
      refine ⟨a :: as, hderives, fun offset => ?_⟩
      rw [ite_self, List.append_nil, joined_nil, ← List.map_cons]
      show (Meaning.ofArguments offset ((a :: as).map argumentMeaning)).map Meaning.callWith = _
      rw [ofArguments_eq (arguments?_map (a :: as))]
      rfl
    | _ => exact .inr (rejects rfl)

/-- A number, a name or a pair of brackets. -/
theorem decided_atom (hlength : ts.length ≤ n) :
    (∃ front rest x m, ts = front ++ rest ∧ Derives .primary front x ∧ m.operand? = some x ∧
      Reads atom (words ts) [m] (words rest)) ∨ Rejects atom (words ts) := by
  cases ts with
  | nil => exact .inr (rejects rfl)
  | cons t ts =>
    cases t with
    | number k =>
      exact .inl ⟨[.number k], ts, .literal (.number k.value), .expr (.literal (.number k.value)),
        rfl, .number k, rfl, k.reads_pruned (reads_either_left (reads_number k (words ts)))⟩
    | name a =>
      exact .inl ⟨[.name a], ts, .name a.id, .name a.id, rfl, .name a, rfl,
        a.reads_pruned (reads_either_left (reads_identifier a (words ts)))⟩
    | opening =>
      rcases decided_parenthesized hsum hlength with ⟨front, rest, x, hts, hx, hread⟩ | hrejects
      · obtain ⟨inner, rfl, hgroup⟩ := hx
        exact .inl ⟨_, rest, x, .expr x, hts, .brackets hgroup, rfl,
          Word.reads_pruned _ (reads_either_left hread)⟩
      · exact .inr (Word.rejects_pruned _ (rejects_either hrejects (Word.rejects .opening _ rfl)))
    | _ => exact .inr (rejects rfl)

end Parts

theorem rejects_member (ts : List Token) : Rejects (.rule .member) (words ts) := by
  cases ts with
  | nil => exact rejects rfl
  | cons t ts =>
    cases t with
    | number k => exact k.rejects_member (words ts)
    | _ => exact rejects rfl

/-- More calls, as long as there is another one. -/
theorem decided_trailers {n : Nat}
    (hcall : ∀ ts : List Token, ts.length ≤ n →
      Decided (Bracketed (Derives .arguments)) (.rule .arguments) .callWith ts)
    {rest : List Token} (hlength : rest.length ≤ n) {front : List Token} {x : Expr}
    (hfront : Derives .primary front x) :
    ∃ middle last ms y, rest = middle ++ last ∧
      Reads (.many trailer) (words rest) ms (words last) ∧ Meaning.followAll? x ms = some y ∧
      Derives .primary (front ++ middle) y := by
  induction hk : rest.length using Nat.strongRecOn generalizing rest front x with | ind k ih
  rcases hcall rest hlength with ⟨called, last, as, hrest, ⟨inner, rfl, has⟩, hread⟩ | hrejects
  · have hlast : last.length < k := by
      rw [← hk, hrest, List.length_append, List.length_cons]
      omega
    obtain ⟨middle, last', ms, y, hlast', hreads, hfollow, hy⟩ :=
      ih last.length hlast (by omega) (.call hfront has) rfl
    refine ⟨.opening :: (inner ++ [.closing]) ++ middle, last', Meaning.callWith as :: ms, y,
      ?_, ?_, hfollow, ?_⟩
    · rw [hrest, hlast', List.append_assoc]
    · exact reads_many_cons (reads_either_left hread) hreads
    · rw [← List.append_assoc]
      exact hy
  · have htrailer : Rejects trailer (words rest) :=
      rejects_either hrejects (rejects_either (rejects_member rest)
        (rejects_foreign rfl (fun t => by cases t <;> rfl) rest))
    refine ⟨[], rest, [], x, rfl, reads_many_nil htrailer, rfl, ?_⟩
    rw [List.append_nil]
    exact hfront

theorem decided_primary {n : Nat}
    (hsum : ∀ ts, ts.length < n → Decided (Derives .sum) (.rule .expression) .expr ts)
    {ts : List Token} (hlength : ts.length ≤ n) :
    Decided (Derives .primary) (.rule .primary) .expr ts := by
  rcases decided_atom hsum hlength with ⟨front, rest, x, m, hts, hx, hm, hread⟩ | hrejects
  · have hrest : rest.length ≤ n := by
      rw [hts, List.length_append] at hlength
      omega
    obtain ⟨middle, last, ms, y, hlast, hreads, hfollow, hy⟩ :=
      decided_trailers (fun ts => decided_arguments hsum) hrest hx
    refine .inl ⟨front ++ middle, last, y, ?_, hy, ?_⟩
    · rw [hts, hlast, List.append_assoc]
    · exact Level.reads .primary nofun nofun hm hread hreads hfollow
  · exact .inr (Level.rejects .primary nofun hrejects)

/-! ## Whole lists of tokens -/

/-- An expression reads a derived sum at the front of the tokens, or fails. -/
theorem decided_expression (ts : List Token) :
    Decided (Derives .sum) (.rule .expression) .expr ts := by
  induction hn : ts.length using Nat.strongRecOn generalizing ts with | ind n ih
  -- within brackets there are fewer tokens
  have hsum : ∀ us : List Token, us.length < n →
      Decided (Derives .sum) (.rule .expression) .expr us := fun us hus => ih us.length hus us rfl
  have hprimary : ∀ us : List Token, us.length ≤ n →
      Decided (Derives .primary) (.rule .primary) .expr us := fun us => decided_primary hsum
  have hfactor : ∀ us : List Token, us.length ≤ n →
      Decided (Derives .factor) (.rule .factor) .expr us := fun us => decided_factor hprimary
  have hproduct : ∀ us : List Token, us.length ≤ n →
      Decided (Derives .product) (.rule .product) .expr us := fun us =>
    productOperators.decided rfl (fun _ _ => .productOne) hfactor
  have hresult := sumOperators.decided rfl (fun _ _ => .sumOne) hproduct (Nat.le_of_eq hn)
  exact decided_expression_of_sum hresult

/-- A list of tokens is parsed as an expression exactly if it is derived with it, and it is derived
    with one expression at most. -/
theorem parse_eq_ok_iff (ts : List Token) :
    (∀ x, parse (text (words ts)) = .ok x ↔ Derives .sum ts x) ∧
      ∀ x y, Derives .sum ts x → Derives .sum ts y → x = y := by
  have hcomplete : ∀ x, Derives .sum ts x → parse (text (words ts)) = .ok x := by
    intro x hx
    have hread := (Complete.closed_sum hx.complete).reads nofun (stops_nil .expression)
    rw [List.append_nil] at hread
    exact parse_eq_ok hread
  refine ⟨fun x => ⟨fun hparse => ?_, hcomplete x⟩, fun x y hx hy => ?_⟩
  · have hfits : ¬(Rejects (.rule .expression) (words ts) ∨
        ∃ ms left, left ≠ [] ∧ Reads (.rule .expression) (words ts) ms left) := by
      intro hfails
      obtain ⟨err, herr⟩ := parse_eq_error hfails
      rw [hparse] at herr
      cases herr
    rcases decided_expression ts with ⟨front, rest, y, hts, hy, hread⟩ | hrejects
    · cases rest with
      | cons t rest => exact absurd (.inr ⟨_, _, List.cons_ne_nil _ _, hread⟩) hfits
      | nil =>
        rw [List.append_nil] at hts
        rw [← hts] at hy
        rw [hcomplete y hy] at hparse
        rw [← Except.ok.inj hparse]
        exact hy
    · exact absurd (.inl hrejects) hfits
  · exact Except.ok.inj ((hcomplete x hx).symm.trans (hcomplete y hy))

end Calculator.Grammar.Arithmetic
