import Calculator.Proofs.Grammar.Constructs

/-!
# Arithmetic as a context-free grammar

The part of the language with numbers, names, six operators, brackets and commas is given once more
by a context-free grammar, whose derivations carry the expression that they stand for.  Unlike the
rules of the recognizer it knows no order of alternatives and no greed.

Results:
* `Derives.complete`: what a symbol derives is read by the phrase of that symbol, wherever it
  stands; by induction on the derivation, one lemma for each production.
-/

namespace Calculator.Grammar.Arithmetic

/-! ## Tokens -/

/-- The words of arithmetic. -/
inductive Token where
  | number (n : NumberWord)
  | name (a : NameWord)
  | plus | minus | times | divide | modulo | power | opening | closing | comma

namespace Token

/-- How a token is written. -/
def word : Token → Word
  | number n => n.word
  | name a => a.word
  | plus => .binary .add
  | minus => .binary .subtract
  | times => .binary .multiply
  | divide => .binary .divide
  | modulo => .binary .modulo
  | power => .binary .power
  | opening => .opening
  | closing => .closing
  | comma => .comma

/-- The operators of a sum. -/
def sumOperator? : Token → Option BinaryOperator
  | plus => some .add
  | minus => some .subtract
  | _ => none

/-- The operators of a product. -/
def productOperator? : Token → Option BinaryOperator
  | times => some .multiply
  | divide => some .divide
  | modulo => some .modulo
  | _ => none

/-- The signs in front of an operand. -/
def sign? : Token → Option UnaryOperator
  | plus => some .identity
  | minus => some .negate
  | _ => none

end Token

/-- How some tokens are written. -/
def words (ts : List Token) : List Word := ts.map Token.word

theorem words_append (ts us : List Token) : words (ts ++ us) = words ts ++ words us :=
  List.map_append

theorem words_brackets (ts : List Token) :
    words (.opening :: (ts ++ [.closing])) = .opening :: (words ts ++ [.closing]) :=
  congrArg (Word.opening :: ·) (words_append ts [.closing])

/-! ## The grammar -/

/-- The symbols of the grammar. -/
inductive Symbol where
  | sum | product | factor | power | primary
  -- what stands in brackets, and in the brackets of a call
  | group | items | item
  | arguments | argumentList | argument

/-- What the derivations of a symbol stand for. -/
def Symbol.Value : Symbol → Type
  | items => List Expr
  | arguments | argumentList => List Argument
  | argument => Argument
  | _ => Expr

/-- The tokens that a symbol derives, and what they stand for. -/
inductive Derives : (s : Symbol) → List Token → s.Value → Prop
  | sumOne {ts : List Token} {x : Expr} : Derives .product ts x → Derives .sum ts x
  | sumMore {l r : List Token} {t : Token} {op : BinaryOperator} {x y : Expr} :
      Derives .sum l x → t.sumOperator? = some op → Derives .product r y →
      Derives .sum (l ++ t :: r) (Expr.binary op x y)
  | productOne {ts : List Token} {x : Expr} : Derives .factor ts x → Derives .product ts x
  | productMore {l r : List Token} {t : Token} {op : BinaryOperator} {x y : Expr} :
      Derives .product l x → t.productOperator? = some op → Derives .factor r y →
      Derives .product (l ++ t :: r) (Expr.binary op x y)
  | factorOne {ts : List Token} {x : Expr} : Derives .power ts x → Derives .factor ts x
  | factorSign {ts : List Token} {t : Token} {op : UnaryOperator} {x : Expr} :
      t.sign? = some op → Derives .factor ts x → Derives .factor (t :: ts) (Expr.unary op x)
  | powerOne {ts : List Token} {x : Expr} : Derives .primary ts x → Derives .power ts x
  | powerMore {l r : List Token} {x y : Expr} :
      Derives .primary l x → Derives .factor r y →
      Derives .power (l ++ .power :: r) (Expr.binary .power x y)
  | number (n : NumberWord) : Derives .primary [.number n] (Expr.literal (.number n.value))
  | name (a : NameWord) : Derives .primary [.name a] (Expr.name a.id)
  | brackets {ts : List Token} {x : Expr} :
      Derives .group ts x → Derives .primary (.opening :: (ts ++ [.closing])) x
  | call {l ts : List Token} {x : Expr} {as : List Argument} :
      Derives .primary l x → Derives .arguments ts as →
      Derives .primary (l ++ .opening :: (ts ++ [.closing])) (Expr.call x as)
  | groupNone : Derives .group [] (Expr.tuple [])
  | groupOne {ts : List Token} {x : Expr} : Derives .item ts x → Derives .group ts x
  | groupMany {ts : List Token} {xs : List Expr} :
      Derives .items ts xs → 2 ≤ xs.length → Derives .group ts (Expr.tuple xs)
  | groupTrailing {ts : List Token} {xs : List Expr} :
      Derives .items ts xs → Derives .group (ts ++ [.comma]) (Expr.tuple xs)
  | itemsOne {ts : List Token} {x : Expr} : Derives .item ts x → Derives .items ts [x]
  | itemsMore {l r : List Token} {x : Expr} {xs : List Expr} :
      Derives .item l x → Derives .items r xs → Derives .items (l ++ .comma :: r) (x :: xs)
  | itemPlain {ts : List Token} {x : Expr} : Derives .sum ts x → Derives .item ts x
  | itemStarred {ts : List Token} {x : Expr} :
      Derives .sum ts x → Derives .item (.times :: ts) (Expr.starred x)
  | argumentsNone : Derives .arguments [] []
  | argumentsSome {ts : List Token} {as : List Argument} :
      Derives .argumentList ts as → Derives .arguments ts as
  | argumentsTrailing {ts : List Token} {as : List Argument} :
      Derives .argumentList ts as → Derives .arguments (ts ++ [.comma]) as
  | argumentListOne {ts : List Token} {a : Argument} :
      Derives .argument ts a → Derives .argumentList ts [a]
  | argumentListMore {l r : List Token} {a : Argument} {as : List Argument} :
      Derives .argument l a → Derives .argumentList r as →
      Derives .argumentList (l ++ .comma :: r) (a :: as)
  | positional {ts : List Token} {x : Expr} :
      Derives .item ts x → Derives .argument ts (Argument.positional x)
  | unpacked {ts : List Token} {x : Expr} :
      Derives .sum ts x → Derives .argument (.power :: ts) (Argument.unpacked x)

/-! ## What is derived is read -/

/-- Words of some parts with commas between them, and what the parts mean. -/
def Listed (part : Phrase) (ws : List Word) (ms : List Meaning) : Prop :=
  ∃ q qs, ws = q.1 ++ continued qs ∧ ms = (q :: qs).map Prod.snd ∧
    ∀ q' ∈ q :: qs, Part part q'.1 q'.2

theorem Listed.one {part : Phrase} {ws : List Word} {m : Meaning} (h : Part part ws m) :
    Listed part ws [m] := by
  refine ⟨(ws, m), [], (List.append_nil ws).symm, rfl, fun q hq => ?_⟩
  rw [List.mem_singleton.mp hq]
  exact h

theorem Listed.more {part : Phrase} {ws more : List Word} {m : Meaning} {ms : List Meaning}
    (h : Part part ws m) (hmore : Listed part more ms) :
    Listed part (ws ++ .comma :: more) (m :: ms) := by
  obtain ⟨q, qs, rfl, rfl, hparts⟩ := hmore
  refine ⟨(ws, m), q :: qs, rfl, rfl, fun q' hq' => ?_⟩
  rcases List.mem_cons.mp hq' with rfl | hq'
  · exact h
  · exact hparts q' hq'

/-- What stands in brackets, with or without a comma behind the last part. -/
theorem Listed.reads_inside {part comma : Phrase} {sep : List Meaning}
    (hcomma : ∀ rest, Reads comma (.comma :: rest) sep rest)
    (hpart : ∀ rest, Rejects part (.closing :: rest))
    (hclosing : ∀ rest, Rejects comma (.closing :: rest)) {ws : List Word} {m : Meaning}
    {ms : List Meaning} (h : Listed part ws (m :: ms)) (trailing : Bool) (rest : List Word) :
    Reads (inside part comma) (ws ++ trailingComma trailing ++ .closing :: rest)
      (m :: (joined sep ms ++ if trailing then sep else [])) (.closing :: rest) := by
  obtain ⟨q, qs, rfl, hms, hparts⟩ := h
  cases hms
  rw [List.append_assoc, List.append_assoc]
  exact Grammar.reads_inside hcomma (hpart rest) (hclosing rest) q qs hparts trailing

/-- What it means for the tokens of a derivation to be read wherever they stand. -/
def Complete : (s : Symbol) → List Token → s.Value → Prop
  | .sum, ts, x => Open .sum (words ts) x
  | .product, ts, x => Open .product (words ts) x
  | .factor, ts, x => Closed .factor (words ts) x
  | .power, ts, x => Closed .power (words ts) x
  | .primary, ts, x => Open .primary (words ts) x
  | .item, ts, x => Part item (words ts) (.expr x) ∧ Part argument (words ts) (.expr x)
  | .items, ts, xs => Listed item (words ts) (xs.map .expr)
  | .group, ts, x => Closed .atom (.opening :: (words ts ++ [.closing])) x
  | .argument, ts, a => Part argument (words ts) (argumentMeaning a)
  | .argumentList, ts, as => Listed argument (words ts) (as.map argumentMeaning)
  | .arguments, ts, as => ∀ rest, Reads (.rule .arguments)
      (.opening :: (words ts ++ .closing :: rest)) [.callWith as] rest

theorem complete_sumMore {l r : List Token} {t : Token} {op : BinaryOperator} {x y : Expr}
    (hl : Open .sum (words l) x) (ht : t.sumOperator? = some op) (hr : Open .product (words r) y) :
    Open .sum (words (l ++ t :: r)) (.binary op x y) := by
  have hright : Closed .product (words r) y := hr.closed
  rw [words_append]
  cases t <;> cases ht
  · exact open_binary .add nofun hl hright
  · exact open_binary .subtract nofun hl hright

theorem complete_productMore {l r : List Token} {t : Token} {op : BinaryOperator} {x y : Expr}
    (hl : Open .product (words l) x) (ht : t.productOperator? = some op)
    (hr : Closed .factor (words r) y) : Open .product (words (l ++ t :: r)) (.binary op x y) := by
  rw [words_append]
  cases t <;> cases ht
  · exact open_binary .multiply nofun hl hr
  · exact open_binary .divide nofun hl hr
  · exact open_binary .modulo nofun hl hr

theorem complete_factorSign {ts : List Token} {t : Token} {op : UnaryOperator} {x : Expr}
    (ht : t.sign? = some op) (h : Closed .factor (words ts) x) :
    Closed .factor (words (t :: ts)) (.unary op x) := by
  cases t <;> cases ht
  · exact closed_unary .identity h
  · exact closed_unary .negate h

theorem complete_call {l ts : List Token} {x : Expr} {as : List Argument}
    (hl : Open .primary (words l) x) (hargs : Complete .arguments ts as) :
    Open .primary (words (l ++ .opening :: (ts ++ [.closing]))) (.call x as) := by
  rw [words_append, words_brackets]
  exact open_call hl hargs

theorem complete_groupOne {ts : List Token} {x : Expr} (h : Part item (words ts) (.expr x)) :
    Complete .group ts x := by
  have hinside : ∀ rest, Reads (inside item (.rule .comma)) (words ts ++ .closing :: rest)
      [.expr x] (.closing :: rest) := by
    intro rest
    have hread := (Listed.one h).reads_inside reads_comma
      (fun rest => Word.rejects .closing rest (by decide))
      (fun rest => Word.rejects .closing rest (by decide)) false rest
    rw [trailingComma, List.append_nil] at hread
    exact hread
  exact closed_parenthesized hinside rfl

theorem complete_groupMany {ts : List Token} {xs : List Expr} (trailing : Bool)
    (hxs : 2 ≤ xs.length ∨ trailing = true) (h : Listed item (words ts) (xs.map .expr)) :
    Closed .atom (.opening :: (words ts ++ trailingComma trailing ++ [.closing])) (.tuple xs) := by
  cases xs with
  | nil =>
    obtain ⟨q, qs, -, hms, -⟩ := h
    cases hms
  | cons x xs =>
    have hne : xs ≠ [] ∨ trailing = true := by
      refine hxs.imp_left fun hlength => ?_
      rintro rfl
      exact absurd hlength (Nat.not_succ_le_self 1)
    exact closed_parenthesized (fun rest => h.reads_inside reads_comma
      (fun rest => Word.rejects .closing rest (by decide))
      (fun rest => Word.rejects .closing rest (by decide)) trailing rest) (parenthesized_tuple hne)

theorem complete_itemStarred {ts : List Token} {x : Expr} (h : Closed .expression (words ts) x) :
    Complete .item (.times :: ts) (Expr.starred x) := by
  have hread : ∀ rest, Stops .argument rest → Reads (.rule .starred)
      (words (.times :: ts) ++ rest) [.expr (.starred x)] rest := by
    intro rest hrest
    have hsign : Reads (.sign ["*"]) (words (.times :: ts) ++ rest) [.text ['*']]
        (words ts ++ rest) := reads_token _ rfl rfl
    exact reads_rule (reads_seq hsign (h.reads (by decide) (hrest.mono (by decide)))) fun _ => rfl
  refine ⟨fun rest hrest => reads_either_left (hread rest hrest), fun rest hrest => ?_⟩
  exact Word.reads_pruned _ (reads_either_left (hread rest hrest))

theorem complete_unpacked {ts : List Token} {x : Expr} (h : Closed .expression (words ts) x) :
    Complete .argument (.power :: ts) (Argument.unpacked x) := by
  intro rest hrest
  have hsign : Reads (.sign ["**"]) (words (.power :: ts) ++ rest) [.text ['*', '*']]
      (words ts ++ rest) := reads_token _ rfl rfl
  exact reads_either_left
    (reads_rule (reads_seq hsign (h.reads (by decide) (hrest.mono (by decide)))) fun _ => rfl)

theorem complete_arguments {ts : List Token} {as : List Argument} (trailing : Bool)
    (h : Listed argument (words ts) (as.map argumentMeaning)) (rest : List Word) :
    Reads (.rule .arguments)
      (.opening :: (words ts ++ trailingComma trailing ++ .closing :: rest)) [.callWith as]
      rest := by
  cases as with
  | nil =>
    obtain ⟨q, qs, -, hms, -⟩ := h
    cases hms
  | cons a as =>
    refine reads_arguments (fun rest => ?_) (arguments?_map (a :: as)) rest
    have hread := h.reads_inside reads_comma_mark
      (fun rest => Word.rejects .closing rest (by decide))
      (fun rest => Word.rejects .closing rest (by decide)) trailing rest
    rw [joined_nil, ite_self, List.append_nil] at hread
    exact hread

theorem Complete.closed_sum {ts : List Token} {x : Expr} (h : Complete .sum ts x) :
    Closed .expression (words ts) x := by
  have hclosed : Closed .sum (words ts) x := Open.closed h
  exact hclosed.loosen (by decide)

theorem Complete.closed_primary {ts : List Token} {x : Expr} (h : Complete .primary ts x) :
    Closed .primary (words ts) x := Open.closed h

/-- Whatever a symbol derives is read, wherever it stands. -/
theorem Derives.complete {s : Symbol} {ts : List Token} {v : s.Value} (h : Derives s ts v) :
    Complete s ts v := by
  induction h with
  | sumOne _ ih =>
    have hclosed : Closed .product (words _) _ := Open.closed ih
    exact hclosed.open_of_lt (by decide)
  | sumMore _ ht _ ihl ihr => exact complete_sumMore ihl ht ihr
  | productOne _ ih => exact Closed.open_of_lt ih (by decide)
  | productMore _ ht _ ihl ihr => exact complete_productMore ihl ht ihr
  | factorOne _ ih => exact Closed.loosen ih (by decide)
  | factorSign ht _ ih => exact complete_factorSign ht ih
  | powerOne _ ih => exact (Complete.closed_primary ih).loosen (by decide)
  | powerMore _ _ ihl ihr =>
    show Closed .power (words _) _
    rw [words_append]
    exact closed_power ((Complete.closed_primary ihl).open_of_lt (by decide)) ihr
  | number n => exact Closed.open_of_lt (closed_number n) (by decide)
  | name a => exact Closed.open_of_lt (closed_name a) (by decide)
  | brackets _ ih =>
    show Open .primary (words _) _
    rw [words_brackets]
    exact Closed.open_of_lt ih (by decide)
  | call _ _ ihl ihargs => exact complete_call ihl ihargs
  | groupNone =>
    exact closed_parenthesized (fun rest => reads_inside_nil (Word.rejects _ _ (by decide))) rfl
  | groupOne _ ih => exact complete_groupOne ih.1
  | groupMany _ hlength ih =>
    have hclosed := complete_groupMany false (.inl hlength) ih
    rw [trailingComma, List.append_nil] at hclosed
    exact hclosed
  | groupTrailing _ ih =>
    show Closed .atom (.opening :: (words _ ++ [.closing])) _
    rw [words_append]
    exact complete_groupMany true (.inr rfl) ih
  | itemsOne _ ih => exact Listed.one ih.1
  | itemsMore _ _ ihl ihr =>
    show Listed item (words _) _
    rw [words_append]
    exact Listed.more ihl.1 ihr
  | itemPlain _ ih =>
    have hclosed := Complete.closed_sum ih
    exact ⟨hclosed.part_item, (hclosed.loosen (by decide)).part_argument⟩
  | itemStarred _ ih => exact complete_itemStarred (Complete.closed_sum ih)
  | argumentsNone =>
    exact reads_arguments (fun rest => reads_inside_nil (Word.rejects _ _ (by decide))) rfl
  | argumentsSome _ ih =>
    intro rest
    have hread := complete_arguments false ih rest
    rw [trailingComma, List.append_nil] at hread
    exact hread
  | argumentsTrailing _ ih =>
    intro rest
    rw [words_append]
    exact complete_arguments true ih rest
  | argumentListOne _ ih => exact Listed.one ih
  | argumentListMore _ _ ihl ihr =>
    show Listed argument (words _) _
    rw [words_append]
    exact Listed.more ihl ihr
  | positional _ ih => exact ih.2
  | unpacked _ ih => exact complete_unpacked (Complete.closed_sum ih)

end Calculator.Grammar.Arithmetic
