import Calculator.Proofs.Grammar.Shapes
import Calculator.Proofs.Grammar.Tokenwise

/-!
# What parsing keeps of a text

The names, literals and operators of a text are those of the expression that it is parsed as, one
by one and in the same order.

Results:
* `Phrase.Derives.describes`: what is derived is put together rule by rule.
* `accounts_of_body`: the tokens of most rules have the items of the parts that they mean.
* `accounted_of_parse`: the tokens of a text account for the expression that it is parsed as.
* `parse_items`: the items of a text are those of its expression.
-/

namespace Calculator.Grammar

/-! ## The items of tokens -/

/-- Whether a symbol is an operator; the other ones are brackets and punctuation marks. -/
def Symbol.isOperator : Symbol → Bool
  | leftParen | rightParen | leftBracket | rightBracket | leftBrace | rightBrace | comma
  | colonEqual | colon | equal | point => false
  | _ => true

/-- What a word stands for on its own. -/
def Keyword.items : Keyword → List Item
  | trueWord => [.literal (.boolean true)]
  | falseWord => [.literal (.boolean false)]
  | noneWord => [.literal .nothing]
  | lambdaWord | ifWord | elseWord | forWord => []
  | k => [.operator k.spelling]

/-- What a token stands for on its own. -/
def Token.items : Token → List Item
  | lexeme (.keyword k) _ => k.items
  | lexeme .identifier cs => [.name (String.ofList cs)]
  | lexeme .number cs => [.literal (.number (Numeral.value cs))]
  | lexeme .imaginary cs => [.literal (.imaginary (Numeral.value cs.dropLast))]
  | lexeme .string cs => [.literal (.string (String.ofList cs.tail.dropLast))]
  | symbol y => if y.isOperator then [.operator (String.ofList y.spelling)] else []

/-- The items of some tokens from left to right.  Two words may be one comparison, and the word `in`
    behind the targets of a clause is none: `targets` says whether these come first. -/
def itemsOfTokens : (targets : Bool) → List Token → List Item
  | _, [] => []
  | _, .lexeme (.keyword .isWord) _ :: .lexeme (.keyword .notWord) _ :: ts =>
    .operator "is not" :: itemsOfTokens false ts
  | _, .lexeme (.keyword .notWord) _ :: .lexeme (.keyword .inWord) _ :: ts =>
    .operator "not in" :: itemsOfTokens false ts
  | _, .lexeme (.keyword .forWord) _ :: ts => itemsOfTokens true ts
  | true, .lexeme (.keyword .inWord) _ :: ts => itemsOfTokens false ts
  | targets, t :: ts => t.items ++ itemsOfTokens targets ts

/-- Whether a token stands for the same wherever it stands. -/
def Token.isPlain : Token → Bool
  | lexeme (.keyword .isWord) _ | lexeme (.keyword .notWord) _ | lexeme (.keyword .forWord) _
  | lexeme (.keyword .inWord) _ => false
  | _ => true

theorem itemsOfTokens_cons {t : Token} (ht : t.isPlain = true) (targets : Bool) (ts : List Token) :
    itemsOfTokens targets (t :: ts) = t.items ++ itemsOfTokens targets ts := by
  cases t with
  | symbol y => cases targets <;> rfl
  | lexeme l cs =>
    cases l with
    | keyword k => cases k <;> first | (cases targets <;> rfl) | cases ht
    | _ => cases targets <;> rfl

/-- Whether a word comes first. -/
def beginsWith (k : Keyword) : List Token → Bool
  | .lexeme (.keyword k') _ :: _ => decide (k' = k)
  | _ => false

theorem itemsOfTokens_isWord {ts : List Token} (h : beginsWith .notWord ts = false)
    (cs : List Char) :
    itemsOfTokens false (.lexeme (.keyword .isWord) cs :: ts) =
      .operator "is" :: itemsOfTokens false ts := by
  cases ts with
  | nil => rfl
  | cons t ts =>
    cases t with
    | symbol y => rfl
    | lexeme l cs' =>
      cases l with
      | keyword k => cases k <;> first | rfl | cases h
      | _ => rfl

theorem itemsOfTokens_notWord {ts : List Token} (h : beginsWith .inWord ts = false)
    (cs : List Char) :
    itemsOfTokens false (.lexeme (.keyword .notWord) cs :: ts) =
      .operator "not" :: itemsOfTokens false ts := by
  cases ts with
  | nil => rfl
  | cons t ts =>
    cases t with
    | symbol y => rfl
    | lexeme l cs' =>
      cases l with
      | keyword k => cases k <;> first | rfl | cases h
      | _ => rfl

/-- An item of some tokens that is no operator is one of a single token. -/
theorem exists_mem_items {targets : Bool} {ts : List Token} {i : Item}
    (h : i ∈ itemsOfTokens targets ts) (hi : ∀ op, i ≠ .operator op) : ∃ t ∈ ts, i ∈ t.items := by
  fun_induction itemsOfTokens targets ts with
  | case1 => cases h
  | case2 targets cs cs' ts ih | case3 targets cs cs' ts ih =>
    obtain ⟨t, ht, hmem⟩ := ih ((List.mem_cons.mp h).resolve_left (hi _))
    exact ⟨t, by simp [ht], hmem⟩
  | case4 targets cs ts ih | case5 cs ts ih =>
    obtain ⟨t, ht, hmem⟩ := ih h
    exact ⟨t, by simp [ht], hmem⟩
  | case6 targets t ts _ _ _ _ ih =>
    rcases List.mem_append.mp h with h | h
    · exact ⟨t, List.mem_cons_self, h⟩
    · obtain ⟨t', ht, hmem⟩ := ih h
      exact ⟨t', List.mem_cons_of_mem _ ht, hmem⟩

/-! ## Tokens that account for items -/

/-- Some tokens have some items, whatever stands behind them. -/
def Accounts (targets : Bool) (ts : List Token) (xs : List Item) : Prop :=
  ∀ us, itemsOfTokens targets (ts ++ us) = xs ++ itemsOfTokens targets us

namespace Accounts

variable {targets : Bool} {ts us : List Token} {xs ys : List Item}

theorem nil : Accounts targets [] [] := fun _ => rfl

theorem append (h : Accounts targets ts xs) (h' : Accounts targets us ys) :
    Accounts targets (ts ++ us) (xs ++ ys) := by
  intro rest
  rw [List.append_assoc, h, h', List.append_assoc]

theorem token {t : Token} (ht : t.isPlain = true) : Accounts targets [t] t.items :=
  itemsOfTokens_cons ht targets

end Accounts

/-! ## Derivations rule by rule -/

/-- What a single lexeme, mark or sign takes, and what it means. -/
def Phrase.Takes : Phrase → List Token → List Meaning → Prop
  | lexeme l, ts, ms => ∃ cs, ts = [.lexeme l cs] ∧ ms = [.text cs] ∧ l.Writes cs
  | mark s, ts, ms => ∃ y ∈ (mark s).symbols, ts = [.symbol y] ∧ ms = []
  | sign ss, ts, ms => ∃ y ∈ (sign ss).symbols, ts = [.symbol y] ∧ ms = [.text y.spelling]
  | _, ts, ms => ts = [] ∧ ms = []

theorem Phrase.Takes.keeps {p : Phrase} {ts : List Token} {ms : List Meaning} (h : p.Takes ts ms) :
    p.Keeps ([] : List Token) ms := by
  cases p with
  | lexeme l => obtain ⟨cs, -, hms, hcs⟩ := h; exact ⟨cs, hms, hcs⟩
  | mark s => obtain ⟨y, -, -, hms⟩ := h; exact ⟨rfl, hms⟩
  | sign ss =>
    obtain ⟨y, hy, -, hms⟩ := h
    obtain ⟨s, hs, hspelling⟩ := mem_symbols_sign.mp hy
    exact ⟨s, hs, by rw [hms, hspelling]⟩
  | _ => exact ⟨rfl, h.2⟩

/-- A lexeme among the tokens of a text was scanned somewhere. -/
theorem Lexed.exists_scan? {text : List Char} {ts : List Token} (h : Lexed text ts) {l : Lexeme}
    {cs : List Char} (ht : .lexeme l cs ∈ ts) :
    ∃ text' rest, l.scan? text' = some ⟨cs, rest⟩ := by
  induction h with
  | nil _ => cases ht
  | cons hnext _ ih =>
    rcases List.mem_cons.mp ht with rfl | ht
    · exact ⟨_, _, nextToken?_lexeme.mp hnext⟩
    · exact ih ht

/-- Whether a token is written as a text has it. -/
def Token.Written : Token → Prop
  | lexeme l cs => l.Writes cs
  | symbol _ => True

theorem Lexed.written {text : List Char} {ts : List Token} (h : Lexed text ts) :
    ∀ t ∈ ts, t.Written := by
  induction h with
  | nil _ => exact nofun
  | @cons _ _ t _ hnext _ ih =>
    refine List.forall_mem_cons.mpr ⟨?_, ih⟩
    cases t with
    | symbol y => trivial
    | lexeme l cs =>
      cases l with
      | keyword k => exact congrArg Split.front (keyword?_eq_some (nextToken?_lexeme.mp hnext)).1
      | _ => trivial

/-- What is derived is put together rule by rule. -/
theorem Phrase.Derives.describes {R : Rule → List Token → Meaning → Prop}
    (hrule : ∀ r ts ms m, r.body.Derives ts ms → r.body.Describes Takes R ts ms →
      (∀ offset, Meaning.ofParts r offset ms = .ok m) → R r ts m)
    {p : Phrase} {ts : List Token} {ms : List Meaning} (h : p.Derives ts ms)
    (hts : ∀ t ∈ ts, t.Written) : p.Describes Takes R ts ms := by
  induction h with
  | nothing | atEnd | notNext => exact ⟨rfl, rfl⟩
  | @lexeme l cs => exact ⟨cs, rfl, rfl, hts _ (List.mem_singleton_self _)⟩
  | @mark s y hy => exact ⟨y, hy, rfl, rfl⟩
  | @sign ss y hy => exact ⟨y, hy, rfl, rfl⟩
  | rule hbody hm ih => exact ⟨_, rfl, hrule _ _ _ _ hbody (ih hts) hm⟩
  | seq _ _ ihp ihq =>
    rw [List.forall_mem_append] at hts
    exact ⟨_, _, _, _, rfl, rfl, ihp hts.1, ihq hts.2⟩
  | eitherFirst _ ih => exact .inl (ih hts)
  | eitherSecond _ ih => exact .inr (ih hts)
  | manyStop => exact ⟨[], rfl, rfl, nofun⟩
  | @manyMore p ts us ms ns _ _ ihp ihmany =>
    rw [List.forall_mem_append] at hts
    obtain ⟨rows, rfl, rfl, hrows⟩ := ihmany hts.2
    exact ⟨(ts, ms) :: rows, rfl, rfl, List.forall_mem_cons.mpr ⟨ihp hts.1, hrows⟩⟩

/-! ## Rules that account for items -/

/-- Whether the tokens of a rule stand for what they mean wherever they stand.  Between `for` and
    its `in`, only names do. -/
def Rule.isPlain (targets : Bool) : Rule → Bool
  | identifier | .targets => true
  | forWord | notWord | inWord | isWord | comparisonSign => false
  | _ => !targets

/-- What is known of the tokens of a rule and what they mean. -/
structure Rule.Accounted (r : Rule) (ts : List Token) (m : Meaning) : Prop where
  derives : (Phrase.rule r).Derives ts [m]
  gives : r.Gives m
  items : ∀ targets, r.isPlain targets = true → Accounts targets ts m.items
  /-- Words are one token. -/
  word : ∀ k, r.body = .lexeme (.keyword k) → ∃ cs, ts = [.lexeme (.keyword k) cs]
  /-- What follows a comparison sign does not belong to it. -/
  comparison : r = .comparisonSign → ∀ us, beginsWith .notWord us = false →
    itemsOfTokens false (ts ++ us) = m.items ++ itemsOfTokens false us

/-- Whether the token of a single phrase stands for what it means. -/
def Phrase.isFaithful : Phrase → Bool
  | lexeme (.keyword k) => [.lambdaWord, .ifWord, .elseWord, .orWord, .andWord].contains k
  | lexeme _ => false
  | mark s => (mark s).symbols.all fun y => !y.isOperator
  | sign ss => (sign ss).symbols.all (·.isOperator)
  | _ => true

theorem Keyword.items_of_isFaithful {k : Keyword}
    (hk : (Phrase.lexeme (.keyword k)).isFaithful = true) : k.items = wordItems k.spelling := by
  cases k <;> first | rfl | cases hk

theorem Symbol.wordItems_spelling (y : Symbol) :
    wordItems (String.ofList y.spelling) = [.operator (String.ofList y.spelling)] := by
  have hnot : String.ofList y.spelling ∉ separatingWords := by cases y <;> decide
  rw [wordItems, if_neg hnot]

theorem Phrase.Takes.accounts {p : Phrase} (hp : p.isFaithful = true) {ts : List Token}
    {ms : List Meaning} (h : p.Takes ts ms) (targets : Bool) :
    Accounts targets ts (ms.flatMap Meaning.items) := by
  cases p with
  | lexeme l =>
    obtain ⟨cs, rfl, rfl, hcs⟩ := h
    cases l with
    | keyword k =>
      rw [show cs = k.spelling.toList from hcs, List.flatMap_singleton, Meaning.items_text,
        ← Keyword.items_of_isFaithful hp]
      have hplain : (Token.lexeme (.keyword k) k.spelling.toList).isPlain = true := by
        cases k <;> first | rfl | cases hp
      exact .token hplain
    | _ => cases hp
  | mark s =>
    obtain ⟨y, hy, rfl, rfl⟩ := h
    have hoperator : y.isOperator = false := by simpa using List.all_eq_true.mp hp y hy
    have hitems : (Token.symbol y).items = [] := by simp [Token.items, hoperator]
    rw [List.flatMap_nil, ← hitems]
    exact .token rfl
  | sign ss =>
    obtain ⟨y, hy, rfl, rfl⟩ := h
    have hoperator : y.isOperator = true := List.all_eq_true.mp hp y hy
    have hitems : (Token.symbol y).items = (Meaning.text y.spelling).items := by
      rw [Meaning.items, y.wordItems_spelling, Token.items, if_pos hoperator]
    rw [List.flatMap_singleton, ← hitems]
    exact .token rfl
  | _ => obtain ⟨rfl, rfl⟩ := h; exact .nil

/-- The tokens of most rules have the items of the parts that they mean. -/
theorem accounts_of_body {targets : Bool} {p : Phrase}
    (hp : p.consistsOf Phrase.isFaithful (Rule.isPlain targets) = true) {ts : List Token}
    {ms : List Meaning} (h : p.Describes Phrase.Takes Rule.Accounted ts ms) :
    Accounts targets ts (ms.flatMap Meaning.items) := by
  refine h.accumulate hp .nil (fun _ _ _ _ h h' => ?_) (fun p _ _ hp h => h.accounts hp targets)
    fun r hr _ _ h => ?_
  · rw [List.flatMap_append]
    exact h.append h'
  · rw [List.flatMap_singleton]
    exact h.items targets hr

/-! ## Words that look around -/

/-- What is derived begins with a token, and not with some word, if the grammar does not let it. -/
theorem beginsWith_eq_false {r : Rule} {k : Keyword} {ts : List Token} {m : Meaning}
    (h : (Phrase.rule r).Derives ts [m]) (hr : (Phrase.rule r).predictive [.finish] = true)
    (hk : ((Phrase.rule r).first [.finish]).all
      (fun a => decide (a ≠ .finish ∧ a.lexeme? ≠ some (.keyword k))) = true) (us : List Token) :
    beginsWith k (ts ++ us) = false := by
  have hahead := h.ahead_mem hr (List.mem_singleton_self (ahead []))
  have hahead' := List.all_eq_true.mp hk _ hahead
  rw [decide_eq_true_eq, List.append_nil] at hahead'
  cases ts with
  | nil => exact absurd rfl hahead'.1
  | cons t ts =>
    cases t with
    | symbol y => rfl
    | lexeme l cs =>
      rw [ahead, Token.ahead, Lexeme.lexeme?_ahead] at hahead'
      cases l with
      | keyword k' => simpa [beginsWith] using hahead'.2
      | _ => rfl

/-- A comparison sign stands for one operator, also if it has two words. -/
theorem comparisonSign_items {ts : List Token} {ms : List Meaning} {m : Meaning}
    (h : Rule.comparisonSign.body.Describes Phrase.Takes Rule.Accounted ts ms)
    (hm : Meaning.ofParts .comparisonSign 0 ms = .ok m) {us : List Token}
    (hus : beginsWith .notWord us = false) :
    itemsOfTokens false (ts ++ us) = m.items ++ itemsOfTokens false us := by
  rcases h with ⟨y, hy, rfl, rfl⟩ | ⟨_, _, _, _, rfl, rfl, ⟨m₁, rfl, h₁⟩, ⟨m₂, rfl, h₂⟩⟩ |
    ⟨m₁, rfl, h₁⟩ | ⟨_, _, _, _, rfl, rfl, ⟨m₁, rfl, h₁⟩, ⟨m₂, rfl, h₂⟩⟩ | ⟨m₁, rfl, h₁⟩
  · have hplain := itemsOfTokens_cons (t := .symbol y) rfl false us
    cases y <;> first
      | (cases hm; exact hplain)
      | exact absurd hy (by decide)
  · obtain ⟨cs, rfl⟩ := h₁.word .notWord rfl
    obtain ⟨cs', rfl⟩ := h₂.word .inWord rfl
    cases h₁.gives
    cases h₂.gives
    cases hm
    rfl
  · obtain ⟨cs, rfl⟩ := h₁.word .inWord rfl
    cases h₁.gives
    cases hm
    rfl
  · obtain ⟨cs, rfl⟩ := h₁.word .isWord rfl
    obtain ⟨cs', rfl⟩ := h₂.word .notWord rfl
    cases h₁.gives
    cases h₂.gives
    cases hm
    rfl
  · obtain ⟨cs, rfl⟩ := h₁.word .isWord rfl
    cases h₁.gives
    cases hm
    exact itemsOfTokens_isWord hus cs

/-- The operand behind a comparison sign does not begin with `not`. -/
theorem comparison_accounts {ts : List Token} {ms : List Meaning}
    (h : Rule.comparison.body.Describes Phrase.Takes Rule.Accounted ts ms) :
    Accounts false ts (ms.flatMap Meaning.items) := by
  obtain ⟨_, _, _, _, rfl, rfl, ⟨m, rfl, hm⟩, rows, rfl, rfl, hrows⟩ := h
  rw [List.flatMap_append, List.flatMap_singleton]
  refine (hm.items false rfl).append ?_
  induction rows with
  | nil => exact .nil
  | cons row rows ih =>
    rw [List.forall_mem_cons] at hrows
    obtain ⟨⟨_, _, _, _, hts, hms, ⟨s, rfl, hsign⟩, ⟨m', rfl, hoperand⟩⟩, hmore⟩ := hrows
    rw [List.flatMap_cons, List.flatMap_cons, List.flatMap_append, hts, hms]
    refine Accounts.append (fun us => ?_) (ih hmore)
    have hus := beginsWith_eq_false (k := .notWord) hoperand.derives (by decide) (by decide) us
    rw [List.append_assoc, hsign.comparison rfl _ hus, hoperand.items false rfl us]
    simp

/-- What `not` negates does not begin with `in`. -/
theorem negation_accounts {ts : List Token} {ms : List Meaning}
    (h : Rule.negation.body.Describes Phrase.Takes Rule.Accounted ts ms) :
    Accounts false ts (ms.flatMap Meaning.items) := by
  rcases h with ⟨_, _, _, _, rfl, rfl, ⟨w, rfl, hword⟩, ⟨m, rfl, hm⟩⟩ | ⟨m, rfl, hm⟩
  · obtain ⟨cs, rfl⟩ := hword.word .notWord rfl
    cases hword.gives
    have hnot : (Meaning.text Keyword.notWord.spelling.toList).items = [.operator "not"] :=
      Meaning.items_text _
    intro us
    have hus := beginsWith_eq_false (k := .inWord) hm.derives (by decide) (by decide) us
    rw [List.append_assoc, List.singleton_append, itemsOfTokens_notWord hus,
      hm.items false rfl us, List.flatMap_append, List.flatMap_singleton, List.flatMap_singleton,
      hnot]
    rfl
  · rw [List.flatMap_singleton]
    exact hm.items false rfl

/-- The word `in` of a clause is no operator. -/
theorem clause_accounts {ts : List Token} {ms : List Meaning}
    (h : Rule.clause.body.Describes Phrase.Takes Rule.Accounted ts ms) :
    Accounts false ts (ms.flatMap Meaning.items) := by
  obtain ⟨_, _, _, _, rfl, rfl, ⟨w, rfl, hfor⟩, ids, _, _, _, rfl, rfl, ⟨m, rfl, htargets⟩,
    _, rest, _, ms', rfl, rfl, ⟨w', rfl, hin⟩, hrest⟩ := h
  obtain ⟨cs, rfl⟩ := hfor.word .forWord rfl
  obtain ⟨cs', rfl⟩ := hin.word .inWord rfl
  cases hfor.gives
  cases hin.gives
  have hword : ∀ k : Keyword, k.spelling ∈ separatingWords →
      (Meaning.text k.spelling.toList).items = [] := by
    intro k hk
    rw [Meaning.items_text, wordItems, if_pos hk]
  have haccounts : Accounts false rest (ms'.flatMap Meaning.items) :=
    accounts_of_body (by decide) hrest
  intro us
  calc itemsOfTokens false ([.lexeme (.keyword .forWord) cs] ++
        (ids ++ ([.lexeme (.keyword .inWord) cs'] ++ rest)) ++ us)
      = itemsOfTokens true (ids ++ .lexeme (.keyword .inWord) cs' :: (rest ++ us)) := by
        simp [itemsOfTokens]
    _ = m.items ++ itemsOfTokens false (rest ++ us) := htargets.items true rfl _
    _ = _ := by
        rw [haccounts us]
        simp only [List.flatMap_append, List.flatMap_singleton, hword .forWord (by decide),
          hword .inWord (by decide), List.nil_append, List.append_assoc]

/-- The tokens of a rule account for what they mean if those of its parts do. -/
theorem Rule.accounted {r : Rule} {ts : List Token} {ms : List Meaning} {m : Meaning}
    (hbody : r.body.Derives ts ms) (h : r.body.Describes Phrase.Takes Accounted ts ms)
    (hm : ∀ offset, Meaning.ofParts r offset ms = .ok m) : r.Accounted ts m := by
  have hconsists := h.consists (fun _ _ _ => Phrase.Takes.keeps) fun _ _ _ h => h.gives
  obtain ⟨hgives, hitems⟩ := gives_of_ofParts hconsists (hm 0)
  refine ⟨.rule hbody hm, hgives, fun targets hplain => ?_, fun k hk => ?_, ?_⟩
  · cases r with
    | forWord | notWord | inWord | isWord | comparisonSign => cases hplain
    | trueWord | falseWord | noneWord | identifier | number | imaginary | string =>
      obtain ⟨cs, rfl, rfl, hcs⟩ := h
      cases hm 0
      exact .token rfl
    | comma =>
      obtain ⟨y, hy, rfl, rfl⟩ := h
      cases hm 0
      cases y <;> first
        | exact absurd hy (by decide)
        | exact .token rfl
    | targets =>
      rw [hitems rfl]
      exact accounts_of_body (by cases targets <;> decide) h
    | comparison =>
      cases targets with
      | true => cases hplain
      | false => rw [hitems rfl]; exact comparison_accounts h
    | negation =>
      cases targets with
      | true => cases hplain
      | false => rw [hitems rfl]; exact negation_accounts h
    | clause =>
      cases targets with
      | true => cases hplain
      | false => rw [hitems rfl]; exact clause_accounts h
    | _ =>
      cases targets with
      | true => cases hplain
      | false => rw [hitems rfl]; exact accounts_of_body (by decide) h
  · rw [hk] at h
    obtain ⟨cs, rfl, -⟩ := h
    exact ⟨cs, rfl⟩
  · rintro rfl us hus
    exact comparisonSign_items h (hm 0) hus

/-! ## Whole texts -/

/-- The tokens of a text that is parsed account for its expression. -/
theorem accounted_of_parse {text : String} {e : Expr} (h : parse text = .ok e) :
    ∃ ts, Lexed text.toList ts ∧ Rule.expression.Accounted ts (.expr e) := by
  obtain ⟨ts, hts, hderives⟩ := parse_eq_ok_iff_derives.mp h
  have hlexed := tokens?_eq_some.mp hts
  obtain ⟨m, hm, haccounted⟩ := hderives.describes (fun _ _ _ _ => Rule.accounted) hlexed.written
  cases hm
  exact ⟨ts, hlexed, haccounted⟩

theorem Rule.Accounted.itemsOfTokens_eq {ts : List Token} {m : Meaning}
    (h : Rule.expression.Accounted ts m) : itemsOfTokens false ts = m.items := by
  have hitems := h.items false rfl []
  rw [List.append_nil] at hitems
  exact hitems.trans (List.append_nil _)

/-- The names, literals and operators of a text are those of the expression that it is parsed as,
    one by one and in the same order. -/
theorem parse_items {text : String} {e : Expr} (h : parse text = .ok e) :
    ∃ ts, tokens? text.toList = some ts ∧ itemsOfTokens false ts = e.items := by
  obtain ⟨ts, hts, hderives⟩ := parse_eq_ok_iff_derives.mp h
  refine ⟨ts, hts, ?_⟩
  obtain ⟨m, hm, haccounted⟩ := hderives.describes (fun _ _ _ _ => Rule.accounted)
    (tokens?_eq_some.mp hts).written
  cases hm
  have hitems := haccounted.items false rfl []
  rw [List.append_nil] at hitems
  rw [hitems]
  exact List.append_nil _

/-- The word `in` of a clause is left out, and `is not` is one operator. -/
theorem parse_items_comprehension :
    ∃ e, parse "[x for x in y if x is not -z]" = .ok e ∧
      e.items = [.name "x", .name "x", .name "y", .name "x", .operator "is not", .operator "-",
        .name "z"] := by
  have hok : (parse "[x for x in y if x is not -z]").isOk = true := by decide +kernel
  have htokens : tokens? "[x for x in y if x is not -z]".toList = some
      [.symbol .leftBracket, .lexeme .identifier ['x'], .lexeme (.keyword .forWord) "for".toList,
        .lexeme .identifier ['x'], .lexeme (.keyword .inWord) "in".toList,
        .lexeme .identifier ['y'], .lexeme (.keyword .ifWord) "if".toList,
        .lexeme .identifier ['x'], .lexeme (.keyword .isWord) "is".toList,
        .lexeme (.keyword .notWord) "not".toList, .symbol .minus, .lexeme .identifier ['z'],
        .symbol .rightBracket] := rfl
  cases hparse : parse "[x for x in y if x is not -z]" with
  | error fault => rw [hparse] at hok; cases hok
  | ok e =>
    obtain ⟨ts, hts, hitems⟩ := parse_items hparse
    cases htokens.symm.trans hts
    exact ⟨e, rfl, hitems.symm⟩

end Calculator.Grammar
