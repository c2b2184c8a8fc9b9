import Calculator.Parsing
import Calculator.Proofs.Grammar.Semantics

/-!
# Texts of words

A text can be written as words with single spaces between them.  On such a text a phrase is
described by the words that it takes and by the meaning of what it finds: `Reads p ws ms rest`
says that `p` fits at the front of the words `ws`, that its parts mean `ms`, and that the words
`rest` are left; `Rejects p ws` says that it fails there.

Both are built up with one rule for each kind of phrase, and they lead to the result of `parse`:

* `reads_token`, `rejects_token`: lexemes, marks and signs look at one word only.
* `reads_rule`, `reads_seq`, `reads_many_cons` and others: the other phrases.
* `parse_eq_ok`, `parse_eq_error`: what the expression reads decides how a whole text is parsed.
-/

namespace Calculator.Grammar

/-! ## Words -/

/-- Whether a character may stand in a word. -/
def isPlain (c : Char) : Bool := !isSpacing c && c != '\'' && c != '"'

/-- A part of a text with nothing in it that could be white space or begin a string. -/
structure Word where
  chars : List Char
  nonempty : chars ≠ []
  plain : chars.all isPlain = true

namespace Word

theorem head_plain (w : Word) {c : Char} {rest : List Char} (h : w.chars = c :: rest) :
    isPlain c = true :=
  List.all_eq_true.mp w.plain c (by rw [h]; exact List.mem_cons_self ..)

end Word

/-- The text of some words: with one space between any two of them. -/
def spelled : List Word → List Char
  | [] => []
  | [w] => w.chars
  | w :: ws => w.chars ++ ' ' :: spelled ws

/-- The text behind a word that is followed by others. -/
def behind : List Word → List Char
  | [] => []
  | w :: ws => ' ' :: spelled (w :: ws)

theorem spelled_cons (w : Word) (ws : List Word) : spelled (w :: ws) = w.chars ++ behind ws := by
  cases ws with
  | nil => exact (List.append_nil _).symm
  | cons w' ws => rfl

theorem spelled_eq_intercalate (ws : List Word) :
    spelled ws = [' '].intercalate (ws.map Word.chars) := by
  induction ws with
  | nil => rfl
  | cons w ws ih =>
    cases ws with
    | nil => exact (List.append_nil _).symm
    | cons w' ws =>
      show w.chars ++ ' ' :: spelled (w' :: ws) = _
      rw [ih]
      rfl

theorem ends_behind (ws : List Word) : Ends (behind ws) := by
  cases ws with
  | nil => exact ends_nil
  | cons w ws => exact ends_cons _ rfl

/-- No word begins with white space. -/
theorem dropWhile_spelled (ws : List Word) : (spelled ws).dropWhile isSpacing = spelled ws := by
  cases ws with
  | nil => rfl
  | cons w ws =>
    rw [spelled_cons]
    cases hchars : w.chars with
    | nil => exact absurd hchars w.nonempty
    | cons c rest =>
      have hc := w.head_plain hchars
      rw [isPlain, Bool.and_eq_true, Bool.and_eq_true, Bool.not_eq_true'] at hc
      rw [List.cons_append, List.dropWhile_cons_of_neg (by rw [hc.1.1]; exact Bool.false_ne_true)]

theorem dropWhile_behind (ws : List Word) : (behind ws).dropWhile isSpacing = spelled ws := by
  cases ws with
  | nil => rfl
  | cons w ws => exact dropWhile_spelled (w :: ws)

/-! ## Reading words -/

/-- A phrase fits at the front of some words: with parts of these meanings, and these words left. -/
def Reads (p : Phrase) (ws : List Word) (ms : List Meaning) (left : List Word) : Prop :=
  ∀ c : Cursor, c.rest = spelled ws → ∃ parts next,
    p.Yields c (.fits parts next) ∧ next.rest = spelled left ∧ Meaning.ofTrees parts = .ok ms

/-- A phrase fails in front of some words. -/
def Rejects (p : Phrase) (ws : List Word) : Prop :=
  ∀ c : Cursor, c.rest = spelled ws → p.Yields c .fails

/-! ## Lexemes, marks and signs -/

/-- What a phrase takes from the text of one word. -/
def Phrase.take? : Phrase → List Char → Option Split
  | lexeme l, cs => l.scan? cs
  | mark s, cs => (afterSpelling? s.toList cs).map (Split.mk s.toList)
  | sign ss, cs => ss.findSome? fun s => (afterSpelling? s.toList cs).map (Split.mk s.toList)
  | _, _ => none

/-- The meanings of what a phrase takes. -/
def Phrase.kept : Phrase → List Char → List Meaning
  | mark _, _ => []
  | _, cs => [.text cs]

/-- Lexemes, marks and signs; these have a spelling without blanks. -/
def Phrase.isToken : Phrase → Bool
  | lexeme _ => true
  | mark s => !s.toList.isEmpty && !s.toList.contains ' '
  | sign ss => ss.all fun s => !s.toList.isEmpty && !s.toList.contains ' '
  | _ => false

theorem fresh_behind {s : String} (hs : s.toList.contains ' ' = false) (ws : List Word) :
    ∀ c rest, behind ws = c :: rest → c ∉ s.toList := by
  intro c rest h hmem
  cases ws with
  | nil => cases h
  | cons w ws =>
    cases h
    rw [List.contains_iff_mem.mpr hmem] at hs
    cases hs

/-- A spelling is looked for in one word only. -/
theorem spelling?_eq {c : Cursor} {w : Word} {ws : List Word} (hc : c.rest = spelled (w :: ws))
    {s : String} (hs : s.toList.contains ' ' = false) :
    c.spelling? s =
      ((afterSpelling? s.toList w.chars).map (Split.mk s.toList)).map (·.extend (behind ws)) := by
  rw [Cursor.spelling?, hc, spelled_cons, afterSpelling?_append (fresh_behind hs ws),
    Option.map_map, Option.map_map]
  rfl

theorem findSome?_spelling?_eq {c : Cursor} {w : Word} {ws : List Word}
    (hc : c.rest = spelled (w :: ws)) {ss : List String}
    (hss : ∀ s ∈ ss, s.toList.contains ' ' = false) :
    ss.findSome? c.spelling? =
      (ss.findSome? fun s => (afterSpelling? s.toList w.chars).map (Split.mk s.toList)).map
        (·.extend (behind ws)) := by
  induction ss with
  | nil => rfl
  | cons s ss ih =>
    rw [List.findSome?_cons, List.findSome?_cons, spelling?_eq hc (hss s (List.mem_cons_self ..)),
      ih fun t ht => hss t (List.mem_cons_of_mem s ht)]
    cases (afterSpelling? s.toList w.chars).map (Split.mk s.toList) <;> rfl

/-- Whether a phrase keeps what it takes. -/
def Phrase.keeps : Phrase → Bool
  | mark _ => false
  | _ => true

/-- A token looks at one word only. -/
theorem outcome?_token {p : Phrase} (hp : p.isToken = true) {c : Cursor} {w : Word}
    {ws : List Word} (hc : c.rest = spelled (w :: ws)) :
    p.outcome? c =
      some (.ofSplit? c p.keeps ((p.take? w.chars).map (·.extend (behind ws)))) := by
  cases p with
  | lexeme l =>
    have hquote : ∀ d rest, w.chars = d :: rest → d ≠ '\'' ∧ d ≠ '"' := by
      intro d rest h
      have hd := w.head_plain h
      rw [isPlain, Bool.and_eq_true, Bool.and_eq_true, bne_iff_ne, bne_iff_ne] at hd
      exact ⟨hd.1.2, hd.2⟩
    rw [Phrase.outcome?, hc, spelled_cons, l.scan?_append (ends_behind ws) hquote w.nonempty]
    rfl
  | mark s =>
    rw [Phrase.isToken, Bool.and_eq_true, Bool.not_eq_true', Bool.not_eq_true'] at hp
    rw [Phrase.outcome?, spelling?_eq hc hp.2]
    rfl
  | sign ss =>
    rw [Phrase.isToken, List.all_eq_true] at hp
    rw [Phrase.outcome?, findSome?_spelling?_eq hc]
    · rfl
    · intro s hs
      have h := hp s hs
      rw [Bool.and_eq_true, Bool.not_eq_true', Bool.not_eq_true'] at h
      exact h.2
  | _ => cases hp

theorem ofTrees_kept {p : Phrase} (hp : p.isToken = true) (front : List Char) :
    Meaning.ofTrees (if p.keeps then [.leaf front] else []) = .ok (p.kept front) := by
  cases p with
  | lexeme l => rfl
  | mark s => rfl
  | sign ss => rfl
  | _ => cases hp

/-- A token that takes a whole word. -/
theorem reads_token {p : Phrase} {w : Word} {front : List Char} (ws : List Word)
    (hp : p.isToken = true) (h : p.take? w.chars = some ⟨front, []⟩) :
    Reads p (w :: ws) (p.kept front) ws := by
  intro c hc
  refine ⟨_, c.past ⟨front, behind ws⟩, .terminal ?_, dropWhile_behind ws, ofTrees_kept hp front⟩
  rw [outcome?_token hp hc, h]
  rfl

/-- A token that takes the front of a word. -/
theorem reads_token_within {p : Phrase} {w w' : Word} {front : List Char} (ws : List Word)
    (hp : p.isToken = true) (h : p.take? w.chars = some ⟨front, w'.chars⟩) :
    Reads p (w :: ws) (p.kept front) (w' :: ws) := by
  intro c hc
  refine ⟨_, c.past ⟨front, w'.chars ++ behind ws⟩, .terminal ?_, ?_, ofTrees_kept hp front⟩
  · rw [outcome?_token hp hc, h]
    rfl
  · show (w'.chars ++ behind ws).dropWhile isSpacing = spelled (w' :: ws)
    rw [← spelled_cons]
    exact dropWhile_spelled (w' :: ws)

theorem rejects_token {p : Phrase} {w : Word} (ws : List Word) (hp : p.isToken = true)
    (h : p.take? w.chars = none) : Rejects p (w :: ws) := by
  intro c hc
  refine .terminal ?_
  rw [outcome?_token hp hc, h]
  rfl

/-- No token is empty. -/
theorem rejects_token_nil {p : Phrase} (hp : p.isToken = true) : Rejects p [] := by
  intro c hc
  refine .terminal ?_
  have hempty : ∀ s : String, (!s.toList.isEmpty && !s.toList.contains ' ') = true →
      c.spelling? s = none := by
    intro s hs
    rw [Cursor.spelling?, hc]
    cases hchars : s.toList with
    | nil => rw [hchars] at hs; cases hs
    | cons d rest => rfl
  cases p with
  | lexeme l =>
    have hnone : l.scan? [] = none := by
      cases hs : l.scan? [] with
      | none => rfl
      | some s =>
        have happend : [] = s.front ++ s.rest := l.exact_scan? [] s hs
        exact absurd (List.append_eq_nil_iff.mp happend.symm).1 (l.consuming_scan? [] s hs)
    show some (Outcome.ofSplit? c true (l.scan? c.rest)) = _
    rw [hc]
    show some (Outcome.ofSplit? c true (l.scan? [])) = _
    rw [hnone]
    rfl
  | mark s =>
    rw [Phrase.outcome?, hempty s hp]
    rfl
  | sign ss =>
    have hnone : ss.findSome? c.spelling? = none :=
      List.findSome?_eq_none_iff.mpr fun s hs => hempty s (List.all_eq_true.mp hp s hs)
    rw [Phrase.outcome?, hnone]
    rfl
  | _ => cases hp

/-! ## Phrases made of others -/

theorem exists_of_map_eq_ok {ε β γ : Type} {f : β → γ} {x : Except ε β} {z : γ}
    (h : x.map f = .ok z) : ∃ y, x = .ok y ∧ z = f y := by
  cases x with
  | error fault => cases h
  | ok y => cases h; exact ⟨y, rfl, rfl⟩

theorem ofTrees_cons {t : Tree} {ts : List Tree} {ms : List Meaning}
    (h : Meaning.ofTrees (t :: ts) = .ok ms) :
    ∃ m ns, ms = m :: ns ∧ Meaning.ofTree t = .ok m ∧ Meaning.ofTrees ts = .ok ns := by
  rw [Meaning.ofTrees] at h
  cases hm : Meaning.ofTree t with
  | error fault => rw [hm] at h; cases h
  | ok m =>
    cases hns : Meaning.ofTrees ts with
    | error fault => rw [hm, hns] at h; cases h
    | ok ns =>
      rw [hm, hns] at h
      cases h
      exact ⟨m, ns, rfl, rfl, rfl⟩

theorem ofTrees_append {ts us : List Tree} {ms ns : List Meaning}
    (ht : Meaning.ofTrees ts = .ok ms) (hu : Meaning.ofTrees us = .ok ns) :
    Meaning.ofTrees (ts ++ us) = .ok (ms ++ ns) := by
  induction ts generalizing ms with
  | nil =>
    cases ht
    exact hu
  | cons t ts ih =>
    obtain ⟨m, ms', rfl, hm, hms⟩ := ofTrees_cons ht
    rw [List.cons_append, Meaning.ofTrees, hm, ih hms]
    rfl

section Combining

variable {p q : Phrase} {ws mid left : List Word} {ms ns : List Meaning}

theorem reads_nothing (ws : List Word) : Reads .nothing ws [] ws := fun c hc =>
  ⟨[], c, .terminal rfl, hc, rfl⟩

theorem reads_seq (hp : Reads p ws ms mid) (hq : Reads q mid ns left) :
    Reads (.seq p q) ws (ms ++ ns) left := by
  intro c hc
  obtain ⟨parts, next, hyields, hnext, hms⟩ := hp c hc
  obtain ⟨more, last, hyields', hlast, hns⟩ := hq next hnext
  exact ⟨parts ++ more, last, .seq hyields hyields', hlast, ofTrees_append hms hns⟩

theorem rejects_seq_left (hp : Rejects p ws) : Rejects (.seq p q) ws := fun c hc =>
  .seqFirst (hp c hc)

theorem rejects_seq_right (hp : Reads p ws ms mid) (hq : Rejects q mid) :
    Rejects (.seq p q) ws := by
  intro c hc
  obtain ⟨parts, next, hyields, hnext, -⟩ := hp c hc
  exact .seqSecond hyields (hq next hnext)

theorem reads_either_left (hp : Reads p ws ms left) : Reads (.either p q) ws ms left := by
  intro c hc
  obtain ⟨parts, next, hyields, hnext, hms⟩ := hp c hc
  exact ⟨parts, next, .eitherFirst hyields, hnext, hms⟩

theorem reads_either_right (hp : Rejects p ws) (hq : Reads q ws ms left) :
    Reads (.either p q) ws ms left := by
  intro c hc
  obtain ⟨parts, next, hyields, hnext, hms⟩ := hq c hc
  exact ⟨parts, next, .eitherSecond (hp c hc) hyields, hnext, hms⟩

theorem rejects_either (hp : Rejects p ws) (hq : Rejects q ws) : Rejects (.either p q) ws :=
  fun c hc => .eitherSecond (hp c hc) (hq c hc)

/-- A phrase that may be left out, left out. -/
theorem reads_optional_nil (hp : Rejects p ws) : Reads (Phrase.optional p) ws [] ws :=
  reads_either_right hp (reads_nothing ws)

theorem reads_many_nil (hp : Rejects p ws) : Reads (.many p) ws [] ws := fun c hc =>
  ⟨[], c, .manyStop (hp c hc), hc, rfl⟩

theorem reads_many_cons (hp : Reads p ws ms mid) (hmany : Reads (.many p) mid ns left) :
    Reads (.many p) ws (ms ++ ns) left := by
  intro c hc
  obtain ⟨parts, next, hyields, hnext, hms⟩ := hp c hc
  obtain ⟨more, last, hyields', hlast, hns⟩ := hmany next hnext
  exact ⟨parts ++ more, last, .manyMore hyields hyields', hlast, ofTrees_append hms hns⟩

/-- A rule is read as its body is, if what the body says has a meaning. -/
theorem reads_rule {r : Rule} {m : Meaning} (hbody : Reads r.body ws ms left)
    (hm : ∀ offset, Meaning.ofParts r offset ms = .ok m) : Reads (.rule r) ws [m] left := by
  intro c hc
  obtain ⟨parts, next, hyields, hnext, hms⟩ := hbody c hc
  refine ⟨[.node r c.offset parts], next, .ruleFits hyields, hnext, ?_⟩
  have htree : Meaning.ofTree (.node r c.offset parts) = .ok m := by
    rw [Meaning.ofTree, hms]
    exact hm c.offset
  rw [Meaning.ofTrees, htree]
  rfl

theorem rejects_rule {r : Rule} (hbody : Rejects r.body ws) : Rejects (.rule r) ws := fun c hc =>
  .ruleFails (hbody c hc)

end Combining

/-- A lexeme or a sign of one rule that takes a whole word. -/
theorem reads_token_rule {r : Rule} {w : Word} {front : List Char} {m : Meaning} (ws : List Word)
    (hr : r.body.isToken = true) (h : r.body.take? w.chars = some ⟨front, []⟩)
    (hm : ∀ offset, Meaning.ofParts r offset (r.body.kept front) = .ok m) :
    Reads (.rule r) (w :: ws) [m] ws :=
  reads_rule (reads_token ws hr h) hm

/-- A mark that must not come next comes next. -/
theorem rejects_notNext {s : String} {w : Word} (ws : List Word)
    (hs : (Phrase.mark s).isToken = true) (h : ((Phrase.mark s).take? w.chars).isSome = true) :
    Rejects (.notNext s) (w :: ws) := by
  intro c hc
  refine .terminal ?_
  rw [Phrase.isToken, Bool.and_eq_true, Bool.not_eq_true', Bool.not_eq_true'] at hs
  obtain ⟨front, hfront⟩ := Option.isSome_iff_exists.mp h
  rw [Phrase.take?] at hfront
  rw [Phrase.outcome?, spelling?_eq hc hs.2, hfront]
  rfl

/-! ## Refusing the first word -/

/-- Whether a phrase fails because of what it looks for first: `known` says which phrases fail. -/
def Phrase.refuses (known : Phrase → Bool) : Nat → Phrase → Bool
  | 0, _ => false
  | depth + 1, p =>
    known p ||
      match p with
      | rule r => r.body.refuses known depth
      | seq first _ => first.refuses known depth
      | either first second => first.refuses known depth && second.refuses known depth
      | _ => false

theorem rejects_of_refuses {known : Phrase → Bool} {ws : List Word}
    (hknown : ∀ p, known p = true → Rejects p ws) {depth : Nat} {p : Phrase}
    (h : p.refuses known depth = true) : Rejects p ws := by
  induction depth generalizing p with
  | zero => cases h
  | succ depth ih =>
    by_cases hp : known p = true
    · exact hknown p hp
    · rw [Bool.not_eq_true] at hp
      cases p with
      | rule r =>
        rw [Phrase.refuses, hp, Bool.false_or] at h
        exact rejects_rule (ih h)
      | seq first second =>
        rw [Phrase.refuses, hp, Bool.false_or] at h
        exact rejects_seq_left (ih h)
      | either first second =>
        rw [Phrase.refuses, hp, Bool.false_or, Bool.and_eq_true] at h
        exact rejects_either (ih h.1) (ih h.2)
      | _ =>
        simp only [Phrase.refuses, hp, Bool.or_false, Bool.false_eq_true] at h

/-- Alternatives without those in front that are refused. -/
def Phrase.pruned (refuses : Phrase → Bool) : Phrase → Phrase
  | either first second =>
    match refuses first with
    | true => second.pruned refuses
    | false => either first second
  | p => p

theorem reads_of_pruned {refuses : Phrase → Bool} {ws left : List Word} {ms : List Meaning}
    (hrefuses : ∀ p, refuses p = true → Rejects p ws) {p : Phrase}
    (h : Reads (p.pruned refuses) ws ms left) : Reads p ws ms left := by
  induction p with
  | either first second _ ih =>
    rw [Phrase.pruned] at h
    split at h
    · next hfirst => exact reads_either_right (hrefuses first hfirst) (ih h)
    · exact h
  | _ => exact h

theorem rejects_of_pruned {refuses : Phrase → Bool} {ws : List Word}
    (hrefuses : ∀ p, refuses p = true → Rejects p ws) {p : Phrase}
    (h : Rejects (p.pruned refuses) ws) : Rejects p ws := by
  induction p with
  | either first second _ ih =>
    rw [Phrase.pruned] at h
    split at h
    · next hfirst => exact rejects_either (hrefuses first hfirst) (ih h)
    · exact h
  | _ => exact h

/-! ## Whole texts -/

/-- Trees that mean one thing are one tree. -/
theorem ofTrees_eq_singleton {parts : List Tree} {m : Meaning}
    (h : Meaning.ofTrees parts = .ok [m]) : ∃ t, parts = [t] ∧ Meaning.ofTree t = .ok m := by
  cases parts with
  | nil => cases h
  | cons t ts =>
    obtain ⟨m', ns, heq, ht, hts⟩ := ofTrees_cons h
    cases heq
    cases ts with
    | nil => exact ⟨t, rfl, ht⟩
    | cons u us =>
      obtain ⟨_, _, heq, -, -⟩ := ofTrees_cons hts
      cases heq

theorem start_spelled (ws : List Word) : (Cursor.start (spelled ws)).rest = spelled ws :=
  dropWhile_spelled ws

theorem spelled_ne_nil {ws : List Word} (h : ws ≠ []) : spelled ws ≠ [] := by
  cases ws with
  | nil => exact absurd rfl h
  | cons w ws =>
    rw [spelled_cons]
    exact List.append_ne_nil_of_left_ne_nil w.nonempty _

/-- Words with single spaces between them. -/
def text (ws : List Word) : String := " ".intercalate (ws.map fun w => String.ofList w.chars)

theorem toList_text (ws : List Word) : (text ws).toList = spelled ws := by
  have hchars : (ws.map fun w => String.ofList w.chars).map String.toList = ws.map Word.chars := by
    rw [List.map_map]
    exact List.map_congr_left fun w _ => String.toList_ofList
  rw [text, String.toList_intercalate, hchars, spelled_eq_intercalate]
  rfl

/-- A text that an expression reads to its end is parsed as that expression. -/
theorem parse_eq_ok {ws : List Word} {e : Expr} (h : Reads (.rule .expression) ws [.expr e] []) :
    parse (text ws) = .ok e := by
  obtain ⟨parts, next, hyields, hnext, hms⟩ := h (Cursor.start (spelled ws)) (start_spelled ws)
  obtain ⟨tree, rfl, htree⟩ := ofTrees_eq_singleton hms
  have hend : (Phrase.rule .endOfText).Yields next
      (.fits [.node .endOfText next.offset []] next) := by
    refine .ruleFits (.terminal ?_)
    show some (if next.rest.isEmpty then Outcome.fits [] next else .fails) = _
    rw [hnext]
    rfl
  have hwhole : recognize (spelled ws) = .ok tree := recognize_of_fits (.seq hyields hend)
  unfold parse
  rw [toList_text]
  simp only [hwhole, Expr.ofTree, htree]

/-- A text that no expression reads to its end is not parsed. -/
theorem parse_eq_error {ws : List Word}
    (h : Rejects (.rule .expression) ws ∨
      ∃ ms left, left ≠ [] ∧ Reads (.rule .expression) ws ms left) :
    ∃ err, parse (text ws) = .error err := by
  have hfails : wholeText.Yields (Cursor.start (spelled ws)) .fails := by
    rcases h with h | ⟨ms, left, hleft, h⟩
    · exact .seqFirst (h _ (start_spelled ws))
    · obtain ⟨parts, next, hyields, hnext, -⟩ := h _ (start_spelled ws)
      refine .seqSecond hyields (.ruleFails (.terminal ?_))
      show some (if next.rest.isEmpty then Outcome.fits [] next else .fails) = _
      rw [hnext, List.isEmpty_eq_false_iff.mpr (spelled_ne_nil hleft)]
      rfl
  obtain ⟨f, hf⟩ := recognize_of_fails hfails
  refine ⟨.invalidSyntax (Text.position (spelled ws) f.offset) (.expected f.failed), ?_⟩
  unfold parse
  rw [toList_text]
  simp only [hf]

end Calculator.Grammar
