import Calculator.Proofs.Grammar.Numerals
import Calculator.Proofs.Grammar.Sentences

/-!
# Where a text goes wrong

A text that is not accepted is reported at the furthest place where a rule failed.  What stands in
front of that place is always the beginning of some text that is accepted: wherever the recognizer
gets to, what it has taken is the beginning of a sentence, also on a way that it gives up later.

The tokens that are taken need not be those of the text.  A sign may be taken out of a longer one,
as `*` out of `**`; but what fails behind it does so at once, and in the text that is completed
another token stands there.

Results:
* `Taken.lexed`: with a sentence to complete it, what was taken is read as it was taken.
* `Phrase.viable_of_run`: a run keeps that the furthest failure stands behind the beginning of a
  sentence.
* `recognize_error_viable`: so the reported place does.
-/

namespace Calculator.Grammar

/-! ## Taking tokens -/

/-- A token that is taken from a text in front of the rest of it. -/
def Token.TakenBefore (rest : List Char) : Token → Prop
  | lexeme l cs => l.scan? (cs ++ rest) = some ⟨cs, rest⟩
  | symbol _ => True

/-- A text that consists of tokens with white space between them, each taken in front of what
    follows it, up to the rest of a longer text. -/
inductive Taken (rest : List Char) : List Token → List Char → Prop
  | gap {gap : List Char} : gap.all isSpacing = true → Taken rest [] gap
  | token {gap text : List Char} {t : Token} {ts : List Token} :
      gap.all isSpacing = true → t.TakenBefore (text ++ rest) → Taken rest ts text →
      Taken rest (t :: ts) (gap ++ (t.chars ++ text))

namespace Taken

variable {rest text : List Char} {ts us : List Token}

/-- One token more is taken. -/
theorem snoc {t : Token} {gap : List Char} (h : Taken (t.chars ++ (gap ++ rest)) ts text)
    (ht : t.TakenBefore (gap ++ rest)) (hgap : gap.all isSpacing = true) :
    Taken rest (ts ++ [t]) (text ++ (t.chars ++ gap)) := by
  induction h with
  | gap hgap' => exact .token hgap' ht (.gap hgap)
  | @token gap' text u ts hgap' hu _ ih =>
    have hu' : u.TakenBefore ((text ++ (t.chars ++ gap)) ++ rest) := by
      rw [List.append_assoc, List.append_assoc]
      exact hu
    rw [List.append_assoc, List.append_assoc]
    exact .token hgap' hu' ih

/-- What was taken is read as it was taken also in front of other tokens, where no symbol is read
    together with what comes behind it. -/
theorem lexed (h : Taken rest ts text) {tail : List Char} (htail : Lexed tail us)
    (hends : Ends tail) (hjoins : Unjoined (ts ++ us)) : Lexed (text ++ tail) (ts ++ us) := by
  induction h with
  | gap hgap => exact (Lexed.spacing_iff hgap).mpr htail
  | @token gap text t ts hgap ht _ ih =>
    rw [List.append_assoc, List.append_assoc]
    refine (Lexed.spacing_iff hgap).mpr ?_
    cases t with
    | symbol y =>
      have htext := ih hjoins.2
      exact .of_next (nextToken?_of_not_joins htext hjoins.1) htext
    | lexeme l cs =>
      have hresumes : Resumes (text ++ rest) (text ++ tail) := by
        cases text with
        | nil => exact .of_ends hends
        | cons c text => exact .cons c _ _
      exact .of_next (nextToken?_lexeme.mpr (Lexeme.scan?_resume ht hresumes)) (ih hjoins)

end Taken

/-- A place of a text behind some tokens that were taken. -/
structure Cursor.Behind (c : Cursor) (text : List Char) (ts : List Token) : Prop where
  split : ∃ before, text = before ++ c.rest ∧ c.offset = before.length ∧ Taken c.rest ts before

namespace Cursor.Behind

variable {c : Cursor} {text : List Char} {ts : List Token}

theorem start (text : List Char) : (Cursor.start text).Behind text [] :=
  ⟨text.takeWhile isSpacing, List.takeWhile_append_dropWhile.symm, Nat.zero_add _,
    .gap List.all_takeWhile⟩

/-- The place behind one token more. -/
theorem past (h : c.Behind text ts) {t : Token} {rest : List Char} (hc : c.rest = t.chars ++ rest)
    (ht : t.TakenBefore rest) : (c.past ⟨t.chars, rest⟩).Behind text (ts ++ [t]) := by
  obtain ⟨before, htext, hoffset, htaken⟩ := h
  have hrest : rest.takeWhile isSpacing ++ rest.dropWhile isSpacing = rest :=
    List.takeWhile_append_dropWhile
  rw [hc, ← hrest] at htaken
  rw [← hrest] at ht
  refine ⟨before ++ (t.chars ++ rest.takeWhile isSpacing), ?_, ?_,
    htaken.snoc ht List.all_takeWhile⟩
  · show text = _ ++ rest.dropWhile isSpacing
    rw [htext, hc, List.append_assoc, List.append_assoc, hrest]
  · show c.offset + t.chars.length + (rest.takeWhile isSpacing).length = _
    rw [hoffset, List.length_append, List.length_append, Nat.add_assoc]

end Cursor.Behind

/-! ## Beginnings of sentences -/

/-- Behind some tokens a phrase may stand: whatever it describes, a sentence begins so. -/
def Opens (p : Phrase) (ts : List Token) : Prop :=
  ∀ us, p.Generates us → ∃ vs, (Phrase.rule .expression).Generates (ts ++ (us ++ vs)) ∧
    ∀ t ∈ vs, t.Whole

namespace Opens

variable {p q : Phrase} {ts us : List Token}

theorem wholeText : Opens wholeText [] := by
  intro us hus
  cases hus with
  | seq hexpression hend =>
    cases hend with
    | rule hatEnd =>
      cases hatEnd
      exact ⟨[], by simpa using hexpression, nofun⟩

theorem body {r : Rule} (h : Opens (.rule r) ts) : Opens r.body ts :=
  fun us hus => h us (.rule hus)

theorem first (h : Opens (.seq p q) ts) (hq : q.isWritable = true) : Opens p ts := by
  intro us hus
  obtain ⟨vs, hvs, hwhole⟩ := Phrase.hasSentence hq
  obtain ⟨ws, hws, hwhole'⟩ := h (us ++ vs) (.seq hus hvs)
  exact ⟨vs ++ ws, by simpa using hws, List.forall_mem_append.mpr ⟨hwhole, hwhole'⟩⟩

theorem second (h : Opens (.seq p q) ts) (hus : p.Generates us) : Opens q (ts ++ us) := by
  intro vs hvs
  obtain ⟨ws, hws, hwhole⟩ := h (us ++ vs) (.seq hus hvs)
  exact ⟨ws, by simpa using hws, hwhole⟩

theorem left (h : Opens (.either p q) ts) : Opens p ts := fun us hus => h us (.eitherFirst hus)

theorem right (h : Opens (.either p q) ts) : Opens q ts := fun us hus => h us (.eitherSecond hus)

theorem step (h : Opens (.many p) ts) : Opens p ts := by
  intro us hus
  obtain ⟨vs, hvs, hwhole⟩ := h (us ++ []) (.manyMore hus .manyStop)
  exact ⟨vs, by simpa using hvs, hwhole⟩

theorem more (h : Opens (.many p) ts) (hus : p.Generates us) : Opens (.many p) (ts ++ us) := by
  intro vs hvs
  obtain ⟨ws, hws, hwhole⟩ := h (us ++ vs) (.manyMore hus hvs)
  exact ⟨ws, by simpa using hws, hwhole⟩

end Opens

/-- A place of a text in front of which the beginning of a sentence stands. -/
structure Viable (text : List Char) (offset : Nat) : Prop where
  le_length : offset ≤ text.length
  begins : ∃ ts us rest, Taken rest ts (text.take offset) ∧
    (Phrase.rule .expression).Generates (ts ++ us) ∧ ∀ t ∈ us, t.Whole

/-- Where a phrase may stand, the beginning of a sentence has been taken. -/
theorem Opens.viable {p : Phrase} {ts : List Token} (h : Opens p ts) (hp : p.isWritable = true)
    {c : Cursor} {text : List Char} (hc : c.Behind text ts) : Viable text c.offset := by
  obtain ⟨before, htext, hoffset, htaken⟩ := hc
  obtain ⟨us, hus, hwhole⟩ := Phrase.hasSentence hp
  obtain ⟨vs, hvs, hwhole'⟩ := h us hus
  have htake : text.take c.offset = before := by
    rw [htext, hoffset, List.take_left]
  refine ⟨?_, ts, us ++ vs, c.rest, htake ▸ htaken, hvs, List.forall_mem_append.mpr
    ⟨hwhole, hwhole'⟩⟩
  rw [htext, hoffset, List.length_append]
  omega

theorem Viable.start (text : List Char) : Viable text 0 := by
  obtain ⟨us, hus, hwhole⟩ := Rule.expression.hasSentence
  exact ⟨Nat.zero_le _, [], us, [], .gap rfl, hus, hwhole⟩

/-- Tokens that can be written out make a text that begins with a delimiter. -/
theorem exists_lexed {ts : List Token} (h : ∀ t ∈ ts, t.Whole) :
    ∃ text, Ends text ∧ Lexed text ts := by
  have hspaced : ∀ before, ∃ text, Ends text ∧ Spaced before ts text := by
    induction ts with
    | nil => exact fun before => ⟨[], ends_nil, .last rfl⟩
    | cons t ts ih =>
      rw [List.forall_mem_cons] at h
      obtain ⟨text, -, htext⟩ := ih h.2 (some t)
      exact fun before => ⟨' ' :: (t.chars ++ text), ends_cons _ rfl,
        @Spaced.token before [' '] _ _ _ rfl nofun h.1 htext⟩
  obtain ⟨text, hends, htext⟩ := hspaced none
  exact ⟨text, hends, htext.lexed⟩

/-- What stands in front of a viable place can be completed. -/
theorem Viable.exists_recognize {text : List Char} {offset : Nat} (h : Viable text offset) :
    ∃ continuation tree, recognize (text.take offset ++ continuation) = .ok tree := by
  obtain ⟨-, ts, us, rest, htaken, hsentence, hwhole⟩ := h
  obtain ⟨continuation, hends, hlexed⟩ := exists_lexed hwhole
  have hjoins := hsentence.unjoined predictive_expression (List.mem_singleton_self (ahead []))
    trivial
  rw [List.append_nil] at hjoins
  exact ⟨continuation, Grammar.exists_recognize hsentence (htaken.lexed hlexed hends hjoins)⟩

/-! ## What a run keeps -/

/-- A failure is noted where its rule was begun, or not at all. -/
theorem Furthest.offset_note (before after : Furthest) (r : Rule) (offset : Nat) :
    (before.note after r offset).offset = after.offset ∨
      (before.note after r offset).offset = offset := by
  unfold note
  dsimp only
  split
  · exact .inl rfl
  · split
    · exact .inr rfl
    · split
      · exact .inr rfl
      · exact .inl rfl

/-- A single lexeme, mark or sign takes a token that it describes. -/
theorem Phrase.generates_of_outcome? {p : Phrase} {c next : Cursor} {parts : List Tree}
    (h : p.outcome? c = some (.fits parts next)) (hp : p.isWritable = true) {text : List Char}
    {ts : List Token} (hc : c.Behind text ts) :
    ∃ us, p.Generates us ∧ next.Behind text (ts ++ us) := by
  have hnothing : c.Behind text (ts ++ []) := by rwa [List.append_nil]
  -- a spelling at the front of the rest is a symbol that is taken
  have hspelling : ∀ s split, isSpelling s = true → c.spelling? s = some split →
      ∃ y : Symbol, y.spelling = s.toList ∧ (c.past split).Behind text (ts ++ [.symbol y]) := by
    intro s split hs hsplit
    obtain ⟨y, hy⟩ := isSpelling_iff.mp hs
    obtain ⟨hfront, hof⟩ := Cursor.spelling?_eq_some hsplit
    have hrest : c.rest = y.spelling ++ split.rest := by rw [hy, ← hfront]; exact hof
    refine ⟨y, hy, ?_⟩
    have hsplit' : split = ⟨y.spelling, split.rest⟩ := by rw [hy, ← hfront]
    rw [hsplit']
    exact hc.past (t := .symbol y) hrest trivial
  cases p with
  | nothing => cases h; exact ⟨[], .nothing, hnothing⟩
  | atEnd =>
    have h := Option.some.inj h
    split at h
    · cases h; exact ⟨[], .atEnd, hnothing⟩
    · cases h
  | notNext s =>
    have h := Option.some.inj h
    split at h
    · cases h; exact ⟨[], .notNext, hnothing⟩
    · cases h
  | lexeme l =>
    have h := Option.some.inj h
    cases hscan : l.scan? c.rest with
    | none => rw [hscan] at h; cases h
    | some s =>
      rw [hscan] at h
      cases h
      have hrest : c.rest = s.front ++ s.rest := l.exact_scan? c.rest s hscan
      rw [hrest] at hscan
      exact ⟨[.lexeme l s.front], .lexeme, hc.past (t := .lexeme l s.front) hrest hscan⟩
  | mark s =>
    have h := Option.some.inj h
    cases hsplit : c.spelling? s with
    | none => rw [hsplit] at h; cases h
    | some split =>
      rw [hsplit] at h
      cases h
      obtain ⟨y, hy, hbehind⟩ := hspelling s split hp hsplit
      exact ⟨[.symbol y], .mark (mem_symbols_mark.mpr hy), hbehind⟩
  | sign ss =>
    have h := Option.some.inj h
    cases hsplit : ss.findSome? c.spelling? with
    | none => rw [hsplit] at h; cases h
    | some split =>
      rw [hsplit] at h
      cases h
      obtain ⟨s, hs, hspelled⟩ := List.exists_of_findSome?_eq_some hsplit
      rw [isWritable, Bool.and_eq_true] at hp
      obtain ⟨y, hy, hbehind⟩ := hspelling s split (List.all_eq_true.mp hp.2 s hs) hspelled
      exact ⟨[.symbol y], .sign (mem_symbols_sign.mpr ⟨s, hs, hy⟩), hbehind⟩
  | _ => cases h

section Runs

variable {p q : Phrase} {fuel : Nat} {c : Cursor} {f f' : Furthest} {o : Outcome}

/-- How a run of two phrases in a row ends. -/
theorem Phrase.run_seq (h : (seq p q).run (fuel + 1) c f = some (o, f')) :
    (p.run fuel c f = some (.fails, f') ∧ o = .fails) ∨
      ∃ parts mid f₁, p.run fuel c f = some (.fits parts mid, f₁) ∧
        ((q.run fuel mid f₁ = some (.fails, f') ∧ o = .fails) ∨
          ∃ more last, q.run fuel mid f₁ = some (.fits more last, f') ∧
            o = .fits (parts ++ more) last) := by
  rw [run] at h
  rcases hp : p.run fuel c f with _ | ⟨_ | _, f₁⟩ <;> rw [hp] at h
  · cases h
  · next parts mid =>
    refine .inr ⟨parts, mid, f₁, rfl, ?_⟩
    rcases hq : q.run fuel mid f₁ with _ | ⟨_ | _, f₂⟩ <;> simp only [hq] at h <;> cases h
    · exact .inr ⟨_, _, rfl, rfl⟩
    · exact .inl ⟨rfl, rfl⟩
  · cases h
    exact .inl ⟨rfl, rfl⟩

/-- How a run of a repeated phrase ends. -/
theorem Phrase.run_many (h : (many p).run (fuel + 1) c f = some (o, f')) :
    (p.run fuel c f = some (.fails, f') ∧ o = .fits [] c) ∨
      ∃ parts mid f₁ more last, p.run fuel c f = some (.fits parts mid, f₁) ∧
        (many p).run fuel mid f₁ = some (.fits more last, f') ∧
          o = .fits (parts ++ more) last := by
  rw [run] at h
  rcases hp : p.run fuel c f with _ | ⟨_ | _, f₁⟩ <;> rw [hp] at h
  · cases h
  · next parts mid =>
    rcases hmany : (many p).run fuel mid f₁ with _ | ⟨_ | _, f₂⟩ <;> simp only [hmany] at h <;>
      cases h
    · exact .inr ⟨parts, mid, f₁, _, _, rfl, hmany, rfl⟩
    · exact absurd hmany (run_many_ne_fails p fuel mid f₁ f')
  · cases h
    exact .inl ⟨rfl, rfl⟩

/-- What a phrase takes is a part of a sentence, and the furthest failure stands behind the
    beginning of one, whether the phrase fits or fails. -/
theorem Phrase.viable_of_run {text : List Char} (hrun : p.run fuel c f = some (o, f'))
    (hp : p.isWritable = true) {ts : List Token} (hc : c.Behind text ts) (hopens : Opens p ts)
    (hf : Viable text f.offset) :
    Viable text f'.offset ∧
      ∀ parts next, o = .fits parts next → ∃ us, p.Generates us ∧ next.Behind text (ts ++ us) := by
  induction fuel generalizing p c f f' o ts with
  | zero => cases hrun
  | succ fuel ih =>
    cases p with
    | rule r =>
      rw [run] at hrun
      rcases hbody : r.body.run fuel c f with _ | ⟨_ | _, f₁⟩ <;> rw [hbody] at hrun <;> cases hrun
      · next parts next =>
        obtain ⟨hviable, hfits⟩ := ih hbody r.isWritable_body hc hopens.body hf
        refine ⟨hviable, fun parts' next' heq => ?_⟩
        cases heq
        obtain ⟨us, hus, hnext⟩ := hfits parts next rfl
        exact ⟨us, .rule hus, hnext⟩
      · -- the rule may be noted where it was begun, and a sentence may go on there
        obtain ⟨hviable, -⟩ := ih hbody r.isWritable_body hc hopens.body hf
        refine ⟨?_, fun _ _ heq => by cases heq⟩
        rcases f.offset_note f₁ r c.offset with h | h <;> rw [h]
        · exact hviable
        · exact hopens.viable hp hc
    | seq p q =>
      rw [isWritable, Bool.and_eq_true] at hp
      rcases run_seq hrun with ⟨hrun', rfl⟩ | ⟨parts, mid, f₁, hrun', hrest⟩
      · exact ⟨(ih hrun' hp.1 hc (hopens.first hp.2) hf).1, fun _ _ heq => by cases heq⟩
      · obtain ⟨hviable, hfits⟩ := ih hrun' hp.1 hc (hopens.first hp.2) hf
        obtain ⟨us, hus, hmid⟩ := hfits parts mid rfl
        rcases hrest with ⟨hrun'', rfl⟩ | ⟨more, last, hrun'', rfl⟩
        · exact ⟨(ih hrun'' hp.2 hmid (hopens.second hus) hviable).1, fun _ _ heq => by cases heq⟩
        · obtain ⟨hviable', hfits'⟩ := ih hrun'' hp.2 hmid (hopens.second hus) hviable
          refine ⟨hviable', fun parts' next' heq => ?_⟩
          cases heq
          obtain ⟨vs, hvs, hlast⟩ := hfits' more last rfl
          exact ⟨us ++ vs, .seq hus hvs, by rwa [← List.append_assoc]⟩
    | either p q =>
      rw [isWritable, Bool.and_eq_true] at hp
      rw [run] at hrun
      split at hrun
      · next f₁ hrun' =>
        obtain ⟨hviable, -⟩ := ih hrun' hp.1 hc hopens.left hf
        obtain ⟨hviable', hfits⟩ := ih hrun hp.2 hc hopens.right hviable
        refine ⟨hviable', fun parts next heq => ?_⟩
        obtain ⟨us, hus, hnext⟩ := hfits parts next heq
        exact ⟨us, .eitherSecond hus, hnext⟩
      · obtain ⟨hviable, hfits⟩ := ih hrun hp.1 hc hopens.left hf
        refine ⟨hviable, fun parts next heq => ?_⟩
        obtain ⟨us, hus, hnext⟩ := hfits parts next heq
        exact ⟨us, .eitherFirst hus, hnext⟩
    | many p =>
      rcases run_many hrun with ⟨hrun', rfl⟩ | ⟨parts, mid, f₁, more, last, hrun', hrun'', rfl⟩
      · refine ⟨(ih hrun' hp hc hopens.step hf).1, fun parts next heq => ?_⟩
        cases heq
        exact ⟨[], .manyStop, by rwa [List.append_nil]⟩
      · obtain ⟨hviable, hfits⟩ := ih hrun' hp hc hopens.step hf
        obtain ⟨us, hus, hmid⟩ := hfits parts mid rfl
        obtain ⟨hviable', hfits'⟩ := ih hrun'' hp hmid (hopens.more hus) hviable
        refine ⟨hviable', fun parts' next' heq => ?_⟩
        cases heq
        obtain ⟨vs, hvs, hlast⟩ := hfits' more last rfl
        exact ⟨us ++ vs, .manyMore hus hvs, by rwa [← List.append_assoc]⟩
    | _ =>
      cases hrun
      refine ⟨hf, fun parts next heq => ?_⟩
      exact generates_of_outcome?
        (show _ = some (Outcome.fits parts next) by exact congrArg some heq) hp hc

end Runs

/-! ## The place that is reported -/

/-- The place that is reported for a text that is not accepted stands behind the beginning of one
    that is. -/
theorem recognize_error_viable {text : List Char} {f : Furthest} (h : recognize text = .error f) :
    Viable text f.offset := by
  unfold recognize at h
  split at h
  · cases h
  · next hrun =>
    cases h
    exact (Phrase.viable_of_run hrun (by decide) (.start text) .wholeText (.start text)).1
  · cases h
    exact .start text

/-- Behind a place other lines or other columns follow. -/
theorem position_ne {text : List Char} {m n : Nat} (hmn : m < n) (hn : n ≤ text.length) :
    Text.position text m ≠ Text.position text n := by
  intro h
  obtain ⟨hline, hcolumn⟩ := Text.Position.mk.inj h
  have htake : text.take n = text.take m ++ (text.take n).drop m := by
    have hprefix : (text.take n).take m = text.take m := by
      rw [List.take_take, Nat.min_eq_left (by omega)]
    rw [← hprefix, List.take_append_drop]
  have hlength : ((text.take n).drop m).length = n - m := by
    rw [List.length_drop, List.length_take, Nat.min_eq_left hn]
  generalize (text.take n).drop m = between at htake hlength
  rw [htake, List.count_append] at hline
  -- no line ends between the places, so the second one is in a later column
  have hsame : ∀ c ∈ between.reverse, decide (c ≠ '\n') = true := by
    intro c hc
    refine decide_eq_true fun heq => ?_
    have hcount : 0 < between.count '\n' :=
      List.count_pos_iff.mpr (heq ▸ List.mem_reverse.mp hc)
    omega
  rw [htake, List.reverse_append, List.takeWhile_append_of_pos hsame, List.length_append,
    List.length_reverse] at hcolumn
  omega

/-- A place is known from its line and column. -/
theorem position_injective {text : List Char} {m n : Nat} (hm : m ≤ text.length)
    (hn : n ≤ text.length) (h : Text.position text m = Text.position text n) : m = n := by
  rcases Nat.lt_trichotomy m n with hlt | heq | hlt
  · exact absurd h (position_ne hlt hn)
  · exact heq
  · exact absurd h.symm (position_ne hlt hm)

/-- A text that is not accepted is reported at a place of it.  What stands in front of that place
    is the beginning of a text that is accepted. -/
theorem parse_error_viable {text : String} {f : Furthest}
    (h : recognize text.toList = .error f) :
    parse text = .error (.invalidSyntax (Text.position text.toList f.offset) (.expected f.failed)) ∧
      f.offset ≤ text.toList.length ∧
      (∀ offset ≤ text.toList.length,
        Text.position text.toList offset = Text.position text.toList f.offset →
          offset = f.offset) ∧
      ∃ continuation tree, recognize (text.toList.take f.offset ++ continuation) = .ok tree := by
  have hviable := recognize_error_viable h
  refine ⟨?_, hviable.le_length, fun offset hoffset heq => ?_, hviable.exists_recognize⟩
  · unfold parse
    dsimp only
    rw [h]
  · exact position_injective hoffset hviable.le_length heq

/-- The sign `**` stands at the end of a line, and the next line does not go on with an operand. -/
theorem parse_error_viable_doubleStar :
    ∃ f, recognize "f(x=1, **\n*y)".toList = .error f ∧
      Text.position "f(x=1, **\n*y)".toList f.offset = ⟨2, 1⟩ ∧
      ∃ continuation tree, recognize ("f(x=1, **\n".toList ++ continuation) = .ok tree := by
  have hoffset : ((recognize "f(x=1, **\n*y)".toList).mapError Furthest.offset).map (fun _ => ()) =
      .error 10 := by decide +kernel
  have htake : "f(x=1, **\n*y)".toList.take 10 = "f(x=1, **\n".toList := by decide
  cases hrecognize : recognize "f(x=1, **\n*y)".toList with
  | ok tree => rw [hrecognize] at hoffset; cases hoffset
  | error f =>
    rw [hrecognize] at hoffset
    have hf : f.offset = 10 := Except.error.inj hoffset
    obtain ⟨-, -, -, hcontinuation⟩ := parse_error_viable hrecognize
    rw [hf, htake] at hcontinuation
    exact ⟨f, rfl, by rw [hf]; decide, hcontinuation⟩

end Calculator.Grammar
