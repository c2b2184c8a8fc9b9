import Calculator.Proofs.Grammar.Predictive

/-!
# Parsing is about tokens

A text is accepted only if it consists of tokens that the grammar describes, and then its tokens
alone decide what it means.

Results:
* `nextToken?_of_not_joins`: a symbol is the next token unless what comes behind it makes it a
  longer one.
* `Phrase.Yields.derives`: what a phrase takes from a text are tokens that it describes.
* `parse_eq_ok_iff_derives`: a text is parsed as an expression if and only if its tokens are derived
  with that meaning.
-/

namespace Calculator.Grammar

/-! ## Symbols in front of a text -/

/-- How a text with tokens begins. -/
theorem Lexed.head {c : Char} {cs : List Char} {ts : List Token} (h : Lexed (c :: cs) ts) :
    isSpacing c = true ∨ (∃ y us, ts = .symbol y :: us ∧ y.head = c) ∨
      ∃ l chars us, ts = .lexeme l chars :: us ∧ l.family.canStart c = true := by
  by_cases hc : isSpacing c = true
  · exact .inl hc
  · have hdrop : (c :: cs).dropWhile isSpacing = c :: cs := List.dropWhile_cons_of_neg hc
    cases h with
    | nil hnil => rw [hdrop] at hnil; cases hnil
    | @cons _ rest t us hnext _ =>
      rw [hdrop] at hnext
      cases t with
      | symbol y =>
        obtain ⟨more, hmore⟩ := y.spelling_eq_cons
        have htext := (nextToken?_symbol.mp hnext).2.1
        rw [hmore] at htext
        exact .inr (.inl ⟨y, us, rfl, (List.cons.inj htext).1.symm⟩)
      | lexeme l chars =>
        have hstart := Lexeme.canStart_of_scan? (nextToken?_lexeme.mp hnext)
        exact .inr (.inr ⟨l, chars, us, rfl, hstart⟩)

/-- A symbol that begins with another one goes on with a character that extends it. -/
theorem Symbol.mem_extensions {y z : Symbol} {c : Char} {more : List Char}
    (h : y.spelling ++ c :: more = z.spelling) : c ∈ y.extensions := by
  have hall : (all.all fun y => all.all fun z =>
      !y.spelling.isPrefixOf z.spelling ||
        ((z.spelling.drop y.spelling.length).take 1).all y.extensions.contains) = true := by
    decide
  have hz := List.all_eq_true.mp (List.all_eq_true.mp hall y y.mem_all) z z.mem_all
  have hbegins : y.spelling.isPrefixOf z.spelling = true :=
    List.isPrefixOf_iff_prefix.mpr ⟨c :: more, h⟩
  rw [hbegins, ← h, List.drop_left] at hz
  simpa using hz

/-- The characters that extend symbols are no white space, and no lexeme begins with one. -/
theorem Symbol.extensions_fresh {y : Symbol} {c : Char} (h : c ∈ y.extensions) :
    isSpacing c = false ∧ isLexemeStart c = false := by
  have hall : (y.extensions.all fun c => !isSpacing c && !isLexemeStart c) = true := by
    cases y <;> rfl
  simpa using List.all_eq_true.mp hall c h

/-- A lexeme that begins with a point goes on with a digit. -/
theorem Lexeme.scan?_point {l : Lexeme} {rest : List Char} {s : Split}
    (h : l.scan? ('.' :: rest) = some s) : ∃ d more, rest = d :: more ∧ d.isDigit = true := by
  have hstart := canStart_of_scan? h
  cases l with
  | number => exact number?_point h
  | imaginary =>
    rw [scan?, imaginary?_eq] at h
    obtain ⟨t, ht, -⟩ := Option.bind_eq_some_iff.mp h
    exact decimal?_point ht
  | keyword k => exact absurd (show isIdentifierStart '.' = true from hstart) (by decide)
  | identifier => exact absurd (show isIdentifierStart '.' = true from hstart) (by decide)
  | string => exact absurd hstart (by decide)

/-- A point and tokens that begin with a digit join. -/
theorem joins_point {d : Char} {more : List Char} {ts : List Token} (h : Lexed (d :: more) ts)
    (hd : d.isDigit = true) : Symbol.point.joins (ahead ts) = true := by
  have hnumber : isNumberStart d = true := by rw [isNumberStart, hd]; rfl
  rcases h.head with hspacing | ⟨y, us, rfl, rfl⟩ | ⟨l, chars, us, rfl, hstart⟩
  · simp only [isSpacing, Bool.or_eq_true, beq_iff_eq] at hspacing
    rcases hspacing with ((rfl | rfl) | rfl) | rfl <;> cases hd
  · cases y <;> cases hd
  · have hfamily : l.family = .numeral := LexemeFamily.eq_of_canStart hstart hnumber
    cases l <;> first | rfl | cases hfamily

/-- A symbol is the next token unless what comes behind it makes it a longer one. -/
theorem nextToken?_of_not_joins {y : Symbol} {rest : List Char} {ts : List Token}
    (h : Lexed rest ts) (hy : y.joins (ahead ts) = false) :
    nextToken? (y.spelling ++ rest) = some (.symbol y, rest) := by
  refine nextToken?_symbol.mpr ⟨fun l => ?_, rfl, fun z hz => ?_⟩
  · by_cases hpoint : y = .point
    · subst hpoint
      cases hscan : l.scan? (Symbol.point.spelling ++ rest) with
      | none => rfl
      | some s =>
        obtain ⟨d, more, rfl, hd⟩ := Lexeme.scan?_point hscan
        rw [joins_point h hd] at hy
        cases hy
    · exact l.scan?_symbol hpoint rest
  · rcases List.prefix_or_prefix_of_prefix hz (List.prefix_append y.spelling rest) with hz' | hz'
    · exact hz'
    · obtain ⟨more, hmore⟩ := hz'
      cases more with
      | nil => exact ⟨[], by rw [List.append_nil, ← hmore, List.append_nil]⟩
      | cons c more =>
        -- the longer symbol goes on with the first character behind the shorter one
        rw [← hmore, List.prefix_append_right_inj] at hz
        obtain ⟨tail, rfl⟩ := hz
        have hextends := Symbol.mem_extensions hmore
        obtain ⟨hspacing, hlexeme⟩ := Symbol.extensions_fresh hextends
        rcases Lexed.head h with hc | ⟨x, us, rfl, rfl⟩ | ⟨l, chars, us, rfl, hstart⟩
        · rw [hspacing] at hc
          cases hc
        · rw [Symbol.joins, ahead, Token.ahead, Symbol.symbol?_ahead] at hy
          simp [hextends] at hy
        · rw [LexemeFamily.isLexemeStart_of_canStart hstart] at hlexeme
          cases hlexeme

/-! ## Places in front of what was taken -/

section Taken

variable {c : Cursor} {ts : List Token} {rest : List Char}

theorem Cursor.Before.of_next {t : Token} (hc : nextToken? c.rest = some (t, rest))
    (h : Lexed rest ts) : c.Before (t :: ts) :=
  ⟨nextToken?_dropWhile hc, .of_next hc h⟩

theorem Cursor.Before.of_symbol {y : Symbol} (hc : c.rest = y.spelling ++ rest)
    (h : Lexed rest ts) (hy : y.joins (ahead ts) = false) : c.Before (.symbol y :: ts) :=
  .of_next (by rw [hc]; exact nextToken?_of_not_joins h hy) h

theorem Cursor.Before.of_lexeme {l : Lexeme} {cs : List Char}
    (hc : l.scan? c.rest = some ⟨cs, rest⟩) (h : Lexed rest ts) : c.Before (.lexeme l cs :: ts) :=
  .of_next (nextToken?_lexeme.mpr hc) h

/-- The tokens behind a place that a part of the text and white space lead to. -/
theorem Cursor.Before.of_past {front : List Char} (h : (c.past ⟨front, rest⟩).Before ts) :
    Lexed rest ts :=
  Lexed.dropWhile_iff.mp h.lexed

end Taken

/-! ## What a phrase takes -/

theorem ofArguments_eq_ok {offset : Nat} {ms : List Meaning} {args : List Argument}
    (h : Meaning.ofArguments offset ms = .ok args) (offset' : Nat) :
    Meaning.ofArguments offset' ms = .ok args := by
  unfold Meaning.ofArguments at *
  grind

theorem ofBraces_eq_ok {offset : Nat} {ms : List Meaning} {e : Expr}
    (h : Meaning.ofBraces offset ms = .ok e) (offset' : Nat) :
    Meaning.ofBraces offset' ms = .ok e := by
  unfold Meaning.ofBraces Meaning.plainBraces at *
  grind

/-- The meaning of a node does not depend on where it begins. -/
theorem ofParts_eq_ok {r : Rule} {offset : Nat} {ms : List Meaning} {m : Meaning}
    (h : Meaning.ofParts r offset ms = .ok m) (offset' : Nat) :
    Meaning.ofParts r offset' ms = .ok m := by
  unfold Meaning.ofParts at *
  split at h
  · obtain ⟨args, hargs, rfl⟩ := exists_of_map_eq_ok h
    rw [ofArguments_eq_ok hargs]
    rfl
  · obtain ⟨e, he, rfl⟩ := exists_of_map_eq_ok h
    rw [ofBraces_eq_ok he]
    rfl
  · split at h
    · exact h
    · cases h

theorem ofTrees_append_eq_ok {ts us : List Tree} {ms : List Meaning}
    (h : Meaning.ofTrees (ts ++ us) = .ok ms) :
    ∃ ms₁ ms₂, ms = ms₁ ++ ms₂ ∧ Meaning.ofTrees ts = .ok ms₁ ∧ Meaning.ofTrees us = .ok ms₂ := by
  induction ts generalizing ms with
  | nil => exact ⟨[], ms, rfl, rfl, h⟩
  | cons t ts ih =>
    obtain ⟨m, ns, rfl, hm, hns⟩ := ofTrees_cons h
    obtain ⟨ms₁, ms₂, rfl, hts, hus⟩ := ih hns
    refine ⟨m :: ms₁, ms₂, rfl, ?_, hus⟩
    rw [Meaning.ofTrees, hm, hts]
    rfl

theorem ofTrees_node {r : Rule} {offset : Nat} {parts : List Tree} {ms : List Meaning}
    (h : Meaning.ofTrees [.node r offset parts] = .ok ms) :
    ∃ ns m, ms = [m] ∧ Meaning.ofTrees parts = .ok ns ∧ Meaning.ofParts r offset ns = .ok m := by
  obtain ⟨m, ns, rfl, hm, hns⟩ := ofTrees_cons h
  cases hns
  rw [Meaning.ofTree] at hm
  cases hparts : Meaning.ofTrees parts with
  | error fault => rw [hparts] at hm; cases hm
  | ok ns => rw [hparts] at hm; exact ⟨ns, m, rfl, rfl, hm⟩

theorem joins_of_apart {p : Phrase} {next : List Ahead} (h : p.apart next = true) {y : Symbol}
    (hy : y ∈ p.symbols) {k : Ahead} (hk : k ∈ next) : y.joins k = false := by
  rw [Phrase.apart, Bool.and_eq_true, List.all_eq_true] at h
  have hjoins := List.all_eq_true.mp (h.2 y hy) k hk
  simpa using hjoins

/-- A spelling that a text begins with is a symbol, if nothing behind it makes it a longer one. -/
theorem Cursor.Before.of_spelling {c : Cursor} {s : String} {split : Split} {y : Symbol}
    {us : List Token} (hs : c.spelling? s = some split) (hy : y.spelling = s.toList)
    (h : (c.past split).Before us) (hjoins : y.joins (ahead us) = false) :
    c.Before (.symbol y :: us) := by
  obtain ⟨hfront, hof⟩ := Cursor.spelling?_eq_some hs
  have hrest : c.rest = y.spelling ++ split.rest := by rw [hy, ← hfront]; exact hof
  exact .of_symbol hrest h.of_past hjoins

/-- What a single lexeme, mark or sign takes from a text is a token that it describes. -/
theorem Phrase.derives_of_outcome? {p : Phrase} {c last : Cursor} {parts : List Tree}
    (h : p.outcome? c = some (.fits parts last)) {next : List Ahead}
    (hp : p.predictive next = true) {us : List Token} (hnext : ahead us ∈ next)
    (hlast : last.Before us) {ms : List Meaning} (hms : Meaning.ofTrees parts = .ok ms) :
    ∃ ts, p.Derives ts ms ∧ c.Before (ts ++ us) := by
  cases p with
  | nothing => cases h; cases hms; exact ⟨[], .nothing, hlast⟩
  | atEnd => cases hp
  | notNext s =>
    have h := Option.some.inj h
    split at h
    · cases h; cases hms; exact ⟨[], .notNext, hlast⟩
    · cases h
  | lexeme l =>
    have h := Option.some.inj h
    cases hscan : l.scan? c.rest with
    | none => rw [hscan] at h; cases h
    | some s =>
      rw [hscan] at h
      cases h
      cases hms
      exact ⟨[.lexeme l s.front], .lexeme, .of_lexeme hscan hlast.of_past⟩
  | mark s =>
    have h := Option.some.inj h
    have hapart : (mark s).apart next = true := hp
    cases hs : c.spelling? s with
    | none => rw [hs] at h; cases h
    | some split =>
      rw [hs] at h
      cases h
      cases hms
      rw [predictive, apart, isSpelled, Bool.and_eq_true] at hp
      obtain ⟨y, hy⟩ := isSpelling_iff.mp hp.1
      have hmem : y ∈ (mark s).symbols := mem_symbols_mark.mpr hy
      exact ⟨[.symbol y], .mark hmem, .of_spelling hs hy hlast (joins_of_apart hapart hmem hnext)⟩
  | sign ss =>
    have h := Option.some.inj h
    have hapart : (sign ss).apart next = true := hp
    cases hsplit : ss.findSome? c.spelling? with
    | none => rw [hsplit] at h; cases h
    | some split =>
      rw [hsplit] at h
      cases h
      cases hms
      rw [predictive, apart, isSpelled, Bool.and_eq_true, Bool.and_eq_true] at hp
      obtain ⟨s, hs, hspelling⟩ := List.exists_of_findSome?_eq_some hsplit
      obtain ⟨y, hy⟩ := isSpelling_iff.mp (List.all_eq_true.mp hp.1.1 s hs)
      have hmem : y ∈ (sign ss).symbols := mem_symbols_sign.mpr ⟨s, hs, hy⟩
      rw [(Cursor.spelling?_eq_some hspelling).1, ← hy]
      exact ⟨[.symbol y], .sign hmem,
        .of_spelling hspelling hy hlast (joins_of_apart hapart hmem hnext)⟩
  | _ => cases h

/-- What a phrase takes from a text are tokens that it describes, if something stands behind them
    that can follow the phrase. -/
theorem Phrase.Yields.derives {p : Phrase} {c last : Cursor} {parts : List Tree}
    (h : p.Yields c (.fits parts last)) {next : List Ahead} (hp : p.predictive next = true)
    {us : List Token} (hnext : ahead us ∈ next) (hlast : last.Before us) {ms : List Meaning}
    (hms : Meaning.ofTrees parts = .ok ms) : ∃ ts, p.Derives ts ms ∧ c.Before (ts ++ us) := by
  -- what stands behind is known first, so the parts of a phrase are looked at from the right
  generalize ho : Outcome.fits parts last = o at h
  induction h generalizing parts last next us ms with
  | terminal h => exact derives_of_outcome? (ho ▸ h) hp hnext hlast hms
  | ruleFits _ ih =>
    cases ho
    obtain ⟨ns, m, rfl, hns, hm⟩ := ofTrees_node hms
    obtain ⟨next', hnext', hbody, -⟩ := exists_predictive_body hp hnext
    obtain ⟨ts, hderives, hbefore⟩ := ih hbody hnext' hlast hns rfl
    exact ⟨ts, .rule hderives (ofParts_eq_ok hm), hbefore⟩
  | seq _ _ ihp ihq =>
    cases ho
    rw [predictive, Bool.and_eq_true] at hp
    obtain ⟨ms₁, ms₂, rfl, hms₁, hms₂⟩ := ofTrees_append_eq_ok hms
    obtain ⟨ts₂, hq, hmid⟩ := ihq hp.2 hnext hlast hms₂ rfl
    obtain ⟨ts₁, hp, hbefore⟩ := ihp hp.1 (hq.ahead_mem hp.2 hnext) hmid hms₁ rfl
    exact ⟨ts₁ ++ ts₂, .seq hp hq, by rw [List.append_assoc]; exact hbefore⟩
  | eitherFirst _ ih =>
    rw [predictive, Bool.and_eq_true, Bool.and_eq_true] at hp
    obtain ⟨ts, hderives, hbefore⟩ := ih hp.1.1 hnext hlast hms ho
    exact ⟨ts, .eitherFirst hderives, hbefore⟩
  | eitherSecond _ _ _ ih =>
    rw [predictive, Bool.and_eq_true, Bool.and_eq_true] at hp
    obtain ⟨ts, hderives, hbefore⟩ := ih hp.1.2 hnext hlast hms ho
    exact ⟨ts, .eitherSecond hderives, hbefore⟩
  | manyStop _ _ =>
    cases ho
    cases hms
    exact ⟨[], .manyStop, hlast⟩
  | manyMore _ _ ihp ihmany =>
    cases ho
    obtain ⟨ms₁, ms₂, rfl, hms₁, hms₂⟩ := ofTrees_append_eq_ok hms
    obtain ⟨ts₂, hmany, hmid⟩ := ihmany hp hnext hlast hms₂ rfl
    obtain ⟨ts₁, hstep, hbefore⟩ :=
      ihp (predictive_many hp).1 (hmany.ahead_mem hp hnext) hmid hms₁ rfl
    exact ⟨ts₁ ++ ts₂, .manyMore hstep hmany, by rw [List.append_assoc]; exact hbefore⟩
  | _ => cases ho

/-! ## Whole texts -/

/-- A text is recognized if an expression takes all of it. -/
theorem recognize_eq_ok {text : List Char} {tree : Tree} :
    recognize text = .ok tree ↔
      ∃ last, (Phrase.rule .expression).Yields (Cursor.start text) (.fits [tree] last) ∧
        last.rest = [] := by
  constructor
  · intro h
    unfold recognize at h
    split at h
    · next more last f hrun =>
      cases h
      generalize ho : Outcome.fits (tree :: more) last = o at hrun
      cases Phrase.yields_of_run hrun with
      | terminal hterminal => cases hterminal
      | seqFirst _ => cases ho
      | seqSecond _ _ => cases ho
      | @seq _ _ _ mid _ parts _ hexpression hend =>
        cases hexpression with
        | terminal hterminal => cases hterminal
        | ruleFits hbody =>
          cases ho
          refine ⟨mid, .ruleFits hbody, ?_⟩
          cases hend with
          | terminal hterminal => cases hterminal
          | ruleFits hatEnd =>
            cases hatEnd with
            | terminal hterminal =>
              have hterminal := Option.some.inj hterminal
              split at hterminal
              · next hempty => exact List.isEmpty_iff.mp hempty
              · cases hterminal
    · cases h
    · cases h
  · rintro ⟨last, hyields, hlast⟩
    have hend : (Phrase.rule .endOfText).Yields last
        (.fits [.node .endOfText last.offset []] last) := by
      refine .ruleFits (.terminal ?_)
      show some (if last.rest.isEmpty then Outcome.fits [] last else .fails) = _
      rw [hlast]
      rfl
    exact recognize_of_fits (.seq hyields hend)

theorem Cursor.Before.of_rest_eq_nil {c : Cursor} (h : c.rest = []) : c.Before [] :=
  ⟨by rw [h]; rfl, .nil (by rw [h]; rfl)⟩

/-- The end of a text can follow an expression. -/
theorem predictive_expression : (Phrase.rule .expression).predictive [.finish] = true := by
  decide

/-- A text is parsed as an expression if its tree stands for it. -/
theorem parse_eq_ok_iff_recognize {text : String} {e : Expr} :
    parse text = .ok e ↔
      ∃ tree, recognize text.toList = .ok tree ∧ Meaning.ofTree tree = .ok (.expr e) := by
  unfold parse Expr.ofTree
  cases hrecognize : recognize text.toList with
  | error f => simp [hrecognize]
  | ok tree =>
    cases hm : Meaning.ofTree tree with
    | error fault => simp [hrecognize, hm]
    | ok m => cases m <;> simp [hrecognize, hm]

/-- A text is parsed as an expression if and only if its tokens are derived with that meaning. -/
theorem parse_eq_ok_iff_derives {text : String} {e : Expr} :
    parse text = .ok e ↔
      ∃ ts, tokens? text.toList = some ts ∧ (Phrase.rule .expression).Derives ts [.expr e] := by
  rw [parse_eq_ok_iff_recognize]
  constructor
  · rintro ⟨tree, hrecognize, htree⟩
    obtain ⟨last, hyields, hlast⟩ := recognize_eq_ok.mp hrecognize
    have hms : Meaning.ofTrees [tree] = .ok [.expr e] := by
      rw [Meaning.ofTrees, htree]
      rfl
    obtain ⟨ts, hderives, hbefore⟩ := hyields.derives predictive_expression
      (List.mem_singleton_self (ahead [])) (.of_rest_eq_nil hlast) hms
    rw [List.append_nil] at hbefore
    exact ⟨ts, tokens?_eq_some.mpr (Lexed.dropWhile_iff.mp hbefore.lexed), hderives⟩
  · rintro ⟨ts, hts, hderives⟩
    have hstart := Cursor.Before.start (tokens?_eq_some.mp hts)
    rw [← List.append_nil ts] at hstart
    obtain ⟨parts, last, hyields, hlast, hms⟩ := hderives.yields predictive_expression
      (List.mem_singleton_self (ahead [])) hstart
    obtain ⟨tree, rfl, htree⟩ := ofTrees_eq_singleton hms
    exact ⟨tree, recognize_eq_ok.mpr ⟨last, hyields, hlast.rest_eq_nil⟩, htree⟩

end Calculator.Grammar
