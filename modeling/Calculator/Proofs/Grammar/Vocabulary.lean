import Mathlib
import Calculator.Proofs.Grammar.Words

/-!
# The words of an expression

A word is a fixed one, a number or an identifier.  For each of them a Boolean function says which
lexemes, marks and signs fail on it, so that a phrase that fails on a first word can be shown to
fail by computation.

Results:
* `Word.rejects`, `NumberWord.rejects`, `NameWord.rejects`: what is refused fails.
* `reads_number`, `reads_identifier`: the words are read as what they are.
-/

namespace Calculator.Grammar

/-! ## Fixed words -/

namespace Word

/-- A word that is given by a text. -/
def of (s : String) (h : (!s.toList.isEmpty && s.toList.all isPlain) = true) : Word where
  chars := s.toList
  nonempty := by
    rw [Bool.and_eq_true, Bool.not_eq_true', List.isEmpty_eq_false_iff] at h
    exact h.1
  plain := by
    rw [Bool.and_eq_true] at h
    exact h.2

/-- Which phrases fail on a fixed word because of what they look for first. -/
def refused (w : Word) : Phrase → Bool
  | .seq (.mark s) (.seq (.notNext t) _) =>
    -- the mark is not there, or what must not follow it does
    (Phrase.mark s).isToken && (Phrase.mark t).isToken &&
      match afterSpelling? s.toList w.chars with
      | none => true
      | some rest => !rest.isEmpty && (afterSpelling? t.toList rest).isSome
  | p => p.isToken && (p.take? w.chars).isNone

/-- Whether a phrase fails on a fixed word, found out by looking at no more than that word. -/
def refuses (w : Word) (p : Phrase) : Bool := p.refuses w.refused 64

theorem rejects_of_refused (w : Word) (ws : List Word) {p : Phrase} (h : w.refused p = true) :
    Rejects p (w :: ws) := by
  rw [refused.eq_def] at h
  split at h
  · next s t q =>
    rw [Bool.and_eq_true, Bool.and_eq_true] at h
    obtain ⟨⟨hs, ht⟩, h⟩ := h
    split at h
    · next hnone => exact rejects_seq_left (rejects_token ws hs (by rw [Phrase.take?, hnone]; rfl))
    · next rest hrest =>
      rw [Bool.and_eq_true, Bool.not_eq_true', List.isEmpty_eq_false_iff] at h
      obtain ⟨hne, hsome⟩ := h
      have hmem : ∀ c ∈ rest, isPlain c = true := by
        intro c hc
        refine List.all_eq_true.mp w.plain c ?_
        rw [afterSpelling?_eq_some.mp hrest]
        exact List.mem_append_right _ hc
      have hread : Reads (.mark s) (w :: ws) ((Phrase.mark s).kept s.toList)
          (⟨rest, hne, List.all_eq_true.mpr hmem⟩ :: ws) :=
        reads_token_within ws hs (by rw [Phrase.take?, hrest]; rfl)
      refine rejects_seq_right hread (rejects_seq_left (rejects_notNext ws ht ?_))
      rw [Phrase.take?, Option.isSome_map]
      exact hsome
  · rw [Bool.and_eq_true, Option.isNone_iff_eq_none] at h
    exact rejects_token ws h.1 h.2

theorem rejects (w : Word) (ws : List Word) {p : Phrase} (h : w.refuses p = true) :
    Rejects p (w :: ws) :=
  rejects_of_refuses (fun _ => w.rejects_of_refused ws) h

/-- A word is read by the first alternative that it is not refused by. -/
theorem reads_pruned (w : Word) {ws left : List Word} {p : Phrase} {ms : List Meaning}
    (h : Reads (p.pruned w.refuses) (w :: ws) ms left) : Reads p (w :: ws) ms left :=
  reads_of_pruned (fun _ => w.rejects ws) h

theorem rejects_pruned (w : Word) {ws : List Word} {p : Phrase}
    (h : Rejects (p.pruned w.refuses) (w :: ws)) : Rejects p (w :: ws) :=
  rejects_of_pruned (fun _ => w.rejects ws) h

end Word

/-- Which phrases fail at the end of a text. -/
def endRefuses (p : Phrase) : Bool := p.refuses Phrase.isToken 64

theorem rejects_nil {p : Phrase} (h : endRefuses p = true) : Rejects p [] :=
  rejects_of_refuses (fun _ => rejects_token_nil) h

/-! ## First characters -/

/-- Marks and signs that begin with a character outside of a class. -/
def Phrase.opensOutside (p : Char → Bool) : Phrase → Bool
  | mark s => s.toList.head?.any fun c => !p c
  | sign ss => ss.all fun s => s.toList.head?.any fun c => !p c
  | _ => false

theorem afterSpelling?_eq_none {p : Char → Bool} {s : String} {c : Char} (hc : p c = true)
    (hs : (s.toList.head?.any fun c => !p c) = true) (rest : List Char) :
    afterSpelling? s.toList (c :: rest) = none := by
  cases hchars : s.toList with
  | nil => rw [hchars] at hs; cases hs
  | cons d spelling =>
    rw [hchars] at hs
    refine if_neg ?_
    rintro rfl
    have hd : (!p d) = true := hs
    rw [hc] at hd
    cases hd

theorem take?_opensOutside {p : Char → Bool} {q : Phrase} (hq : q.opensOutside p = true) {c : Char}
    (hc : p c = true) (rest : List Char) : q.take? (c :: rest) = none := by
  cases q with
  | mark s => rw [Phrase.take?, afterSpelling?_eq_none hc hq]; rfl
  | sign ss =>
    refine List.findSome?_eq_none_iff.mpr fun s hs => ?_
    rw [afterSpelling?_eq_none hc (List.all_eq_true.mp hq s hs)]
    rfl
  | _ => cases hq

/-- The characters with which a number can begin. -/
def isNumberStart (c : Char) : Bool := c.isDigit || c == '.'

theorem decimal?_head {c : Char} {rest : List Char} {s : Split}
    (h : decimal? (c :: rest) = some s) : isNumberStart c = true := by
  rw [isNumberStart]
  cases hc : c.isDigit with
  | true => rfl
  | false =>
    have hdigits : digits? (c :: rest) = none := by
      rw [digits?_eq, charOf?, hc]
      rfl
    rw [decimal?_eq, hdigits] at h
    obtain ⟨point, hpoint, -⟩ := Option.bind_eq_some_iff.mp h
    rw [charOf?] at hpoint
    split at hpoint
    · next hdot => rw [hdot]; rfl
    · cases hpoint

theorem number?_head {c : Char} {rest : List Char} {s : Split}
    (h : number? (c :: rest) = some s) : isNumberStart c = true := by
  rcases (number?_eq_some h).2 with hradix | ⟨-, hdecimal⟩
  · obtain ⟨letter, rest', isDigit, htext, -⟩ := radixInteger?_eq_some hradix
    rw [(List.cons.inj htext).1]
    rfl
  · exact decimal?_head hdecimal

/-- A decimal that begins with a point goes on with a digit. -/
theorem decimal?_point {rest : List Char} {s : Split} (h : decimal? ('.' :: rest) = some s) :
    ∃ d more, rest = d :: more ∧ d.isDigit = true := by
  rw [decimal?_eq] at h
  have hdigits : digits? ('.' :: rest) = none := rfl
  rw [hdigits] at h
  obtain ⟨point, hpoint, hmap⟩ := Option.bind_eq_some_iff.mp h
  cases hpoint
  obtain ⟨t, ht, -⟩ := Option.map_eq_some_iff.mp hmap
  obtain ⟨u, hu, -⟩ := Option.map_eq_some_iff.mp ht
  cases rest with
  | nil => cases hu
  | cons d more =>
    refine ⟨d, more, rfl, ?_⟩
    cases hd : d.isDigit with
    | true => rfl
    | false =>
      have hnone : digits? (d :: more) = none := by
        rw [digits?_eq, charOf?, hd]
        rfl
      rw [hnone] at hu
      cases hu

/-- A number that begins with a point goes on with a digit. -/
theorem number?_point {rest : List Char} {s : Split} (h : number? ('.' :: rest) = some s) :
    ∃ d more, rest = d :: more ∧ d.isDigit = true := by
  rcases (number?_eq_some h).2 with hradix | ⟨-, hdecimal⟩
  · obtain ⟨letter, rest', isDigit, htext, -⟩ := radixInteger?_eq_some hradix
    cases htext
  · exact decimal?_point hdecimal

theorem imaginary?_head {c : Char} {rest : List Char} {s : Split}
    (h : imaginary? (c :: rest) = some s) : isNumberStart c = true := by
  rw [imaginary?_eq] at h
  obtain ⟨t, ht, -⟩ := Option.bind_eq_some_iff.mp h
  exact decimal?_head ht

theorem identifier?_head {c : Char} {rest : List Char} {s : Split}
    (h : identifier? (c :: rest) = some s) : isIdentifierStart c = true := by
  obtain ⟨rfl, ⟨d, more, hfront, hd⟩, -⟩ := identifier?_eq_some h
  simp only [List.takeWhile_cons] at hfront
  split at hfront
  · rw [(List.cons.inj hfront).1]
    exact hd
  · cases hfront

theorem identifier?_eq_none {c : Char} (rest : List Char) (h : isIdentifierStart c = false) :
    identifier? (c :: rest) = none := by
  cases hscan : identifier? (c :: rest) with
  | none => rfl
  | some s =>
    rw [identifier?_head hscan] at h
    cases h

/-- No identifier begins as a number does. -/
theorem isIdentifierStart_of_isNumberStart {c : Char} (h : isNumberStart c = true) :
    isIdentifierStart c = false := by
  rw [isNumberStart, Bool.or_eq_true, beq_iff_eq] at h
  rcases h with h | rfl
  · rw [isIdentifierStart, Bool.or_eq_false_iff, Char.isAlpha, Bool.or_eq_false_iff]
    rw [Char.isDigit, Bool.and_eq_true, decide_eq_true_eq, decide_eq_true_eq] at h
    have h1 : 48 ≤ c.val.toNat := h.1
    have h2 : c.val.toNat ≤ 57 := h.2
    refine ⟨⟨?_, ?_⟩, ?_⟩
    · refine decide_eq_false fun hupper => ?_
      have h3 : 65 ≤ c.val.toNat := hupper.1
      omega
    · rw [Char.isLower, Bool.and_eq_false_iff]
      refine .inl (decide_eq_false fun hlower => ?_)
      have h3 : 97 ≤ c.val.toNat := hlower
      omega
    · refine beq_eq_false_iff_ne.mpr ?_
      rintro rfl
      exact absurd h2 (by decide)
  · decide

/-! ## Numbers -/

/-- A word that is a number. -/
structure NumberWord where
  chars : List Char
  scanned : number? chars = some ⟨chars, []⟩

theorem isPlain_of_not_isDelimiter {c : Char} (h : isDelimiter c = false) : isPlain c = true := by
  have hne : ∀ d, isDelimiter d = true → c ≠ d := by
    rintro d hd rfl
    rw [h] at hd
    cases hd
  have hspacing : isSpacing c = false := (Bool.or_eq_false_iff.mp h).1
  rw [isPlain, hspacing, bne_iff_ne.mpr (hne _ rfl), bne_iff_ne.mpr (hne _ rfl)]
  rfl

theorem Local.plain {reader : List Char → Option Split} (hlocal : Local reader) {cs : List Char}
    (h : reader cs = some ⟨cs, []⟩) : cs.all isPlain = true :=
  List.all_eq_true.mpr fun c hc => isPlain_of_not_isDelimiter (hlocal.not_isDelimiter h c hc)

namespace NumberWord

/-- The word itself. -/
def word (n : NumberWord) : Word where
  chars := n.chars
  nonempty := consuming_number? _ _ n.scanned
  plain := local_number?.plain n.scanned

/-- The number that the word stands for. -/
def value (n : NumberWord) : Float := Calculator.Numeral.value n.chars

/-- Which lexemes, marks and signs fail on a number. -/
def refused : Phrase → Bool
  | .lexeme .number => false
  | .lexeme _ => true
  | p => p.isToken && p.opensOutside isNumberStart

/-- Whether a phrase fails on any number. -/
def refuses (p : Phrase) : Bool := p.refuses refused 64

theorem head (n : NumberWord) : ∃ c rest, n.chars = c :: rest ∧ isNumberStart c = true := by
  cases hchars : n.chars with
  | nil => exact absurd hchars n.word.nonempty
  | cons c rest =>
    have h := n.scanned
    rw [hchars] at h
    exact ⟨c, rest, rfl, number?_head h⟩

end NumberWord

theorem radixDigit?_of_isDigit {c : Char} (h : c.isDigit = true) : radixDigit? c = none := by
  have hbounds : 48 ≤ c.toNat ∧ c.toNat < 58 := by
    rw [Char.isDigit, Bool.and_eq_true, decide_eq_true_eq, decide_eq_true_eq] at h
    have h1 : 48 ≤ c.val.toNat := h.1
    have h2 : c.val.toNat ≤ 57 := h.2
    exact ⟨h1, Nat.lt_succ_of_le h2⟩
  have hall : ∀ k, k < 58 → 48 ≤ k → radixDigit? (Char.ofNat k) = none := by decide
  have hc := hall c.toNat hbounds.2 hbounds.1
  rw [Char.ofNat_toNat] at hc
  exact hc

/-- Of an integer in some base only the leading zero is a decimal. -/
theorem decimal?_of_radixInteger? {text : List Char} {s : Split}
    (h : radixInteger? text = some s) : ∃ letter rest isDigit,
      radixDigit? letter = some isDigit ∧ decimal? text = some ⟨['0'], letter :: rest⟩ := by
  obtain ⟨letter, rest, isDigit, rfl, hletter, -, -⟩ := radixInteger?_eq_some h
  have hne : ∀ c, radixDigit? c = none → letter ≠ c := by
    rintro c hc rfl
    rw [hc] at hletter
    cases hletter
  have hdigit : letter.isDigit = false := by
    rw [← Bool.not_eq_true]
    intro hd
    exact hne letter (radixDigit?_of_isDigit hd) rfl
  have hdigits : digits? ('0' :: letter :: rest) = some ⟨['0'], letter :: rest⟩ := by
    rw [digits?_eq]
    show some (Split.andMaybe ⟨['0'], letter :: rest⟩ _) = _
    rw [Split.andMaybe, Split.andThen, separatedDigits_cons (hne _ (by decide)), hdigit]
    rfl
  have hpoint : charOf? (· == '.') (letter :: rest) = none :=
    if_neg fun hdot => hne '.' (by decide) (beq_iff_eq.mp hdot)
  have hexponent : exponent? (letter :: rest) = none := by
    have hnot : charOf? (fun c => c == 'e' || c == 'E') (letter :: rest) = none := by
      refine if_neg fun he => ?_
      rw [Bool.or_eq_true, beq_iff_eq, beq_iff_eq] at he
      exact he.elim (hne 'e' (by decide)) (hne 'E' (by decide))
    rw [exponent?_eq, hnot]
    rfl
  refine ⟨letter, rest, isDigit, hletter, ?_⟩
  rw [decimal?_eq, hdigits]
  simp only [decimalFrom, Split.andThen, hpoint, Option.map_none, Split.andMaybe, hexponent]
  rfl

namespace NumberWord

/-- A number has no letter behind it that would make it imaginary. -/
theorem imaginary?_eq_none (n : NumberWord) : imaginary? n.chars = none := by
  rw [imaginary?_eq]
  rcases (number?_eq_some n.scanned).2 with hradix | ⟨-, hdecimal⟩
  · obtain ⟨letter, rest, isDigit, hletter, hdecimal⟩ := decimal?_of_radixInteger? hradix
    have hnot : charOf? (fun c => c == 'j' || c == 'J') (letter :: rest) = none := by
      refine if_neg fun hj => ?_
      rw [Bool.or_eq_true, beq_iff_eq, beq_iff_eq] at hj
      rcases hj with rfl | rfl <;> cases hletter
    rw [hdecimal, Option.bind_some, imaginaryEnd?, Split.andThen, hnot]
    rfl
  · rw [hdecimal]
    rfl

theorem rejects_of_refused (n : NumberWord) (ws : List Word) {p : Phrase}
    (h : refused p = true) : Rejects p (n.word :: ws) := by
  obtain ⟨c, rest, hchars, hc⟩ := n.head
  have hmark : (p.isToken && p.opensOutside isNumberStart) = true → Rejects p (n.word :: ws) := by
    intro hp
    rw [Bool.and_eq_true] at hp
    refine rejects_token ws hp.1 ?_
    show p.take? n.chars = none
    rw [hchars]
    exact take?_opensOutside hp.2 hc rest
  have hkeyword : ∀ k : Keyword,
      (k.spelling.toList.head?.any fun c => !isNumberStart c) = true := by
    intro k
    cases k <;> decide
  cases p with
  | lexeme l =>
    refine rejects_token ws rfl ?_
    show l.scan? n.chars = none
    cases l with
    | number => cases h
    | imaginary => exact n.imaginary?_eq_none
    | keyword k =>
      show keyword? k n.chars = none
      rw [keyword?_eq, hchars, afterSpelling?_eq_none hc (hkeyword k)]
      rfl
    | identifier =>
      show identifier? n.chars = none
      rw [hchars]
      exact identifier?_eq_none rest (isIdentifierStart_of_isNumberStart hc)
    | string =>
      show stringLiteral? n.chars = none
      rw [hchars]
      refine if_neg fun hquote => ?_
      rcases hquote with rfl | rfl <;> cases hc
  | mark s => exact hmark h
  | sign ss => exact hmark h
  | _ => cases h

theorem rejects (n : NumberWord) (ws : List Word) {p : Phrase} (h : refuses p = true) :
    Rejects p (n.word :: ws) :=
  rejects_of_refuses (fun _ => n.rejects_of_refused ws) h

/-- Behind the point at the front of a number there is a digit, and no identifier. -/
theorem rejects_member (n : NumberWord) (ws : List Word) :
    Rejects (.rule .member) (n.word :: ws) := by
  refine rejects_rule ?_
  obtain ⟨c, rest, hchars, -⟩ := n.head
  by_cases hc : c = '.'
  · have hscan := n.scanned
    rw [hchars, hc] at hscan
    obtain ⟨d, more, hrest, hd⟩ := number?_point hscan
    have hplain : rest.all isPlain = true := by
      have h := n.word.plain
      rw [show n.word.chars = c :: rest from hchars, List.all_cons, Bool.and_eq_true] at h
      exact h.2
    have htake : (Phrase.mark ".").take? n.word.chars = some ⟨['.'], rest⟩ := by
      rw [show n.word.chars = c :: rest from hchars, hc]
      rfl
    have hpoint : Reads (.mark ".") (n.word :: ws) []
        (⟨rest, by rw [hrest]; exact List.cons_ne_nil d more, hplain⟩ :: ws) :=
      reads_token_within ws rfl htake
    refine rejects_seq_right hpoint (rejects_rule (rejects_token ws rfl ?_))
    show identifier? rest = none
    rw [hrest]
    exact identifier?_eq_none more
      (isIdentifierStart_of_isNumberStart (by rw [isNumberStart, hd]; rfl))
  · refine rejects_seq_left (rejects_token ws rfl ?_)
    rw [show n.word.chars = c :: rest from hchars]
    show (afterSpelling? ['.'] (c :: rest)).map _ = none
    rw [afterSpelling?, if_neg fun h => hc h.symm]
    rfl

theorem reads_pruned (n : NumberWord) {ws left : List Word} {p : Phrase} {ms : List Meaning}
    (h : Reads (p.pruned refuses) (n.word :: ws) ms left) : Reads p (n.word :: ws) ms left :=
  reads_of_pruned (fun _ => n.rejects ws) h

end NumberWord

/-! ## Identifiers -/

/-- A word that is an identifier. -/
structure NameWord where
  chars : List Char
  scanned : identifier? chars = some ⟨chars, []⟩

namespace NameWord

/-- The word itself. -/
def word (x : NameWord) : Word where
  chars := x.chars
  nonempty := consuming_identifier? _ _ x.scanned
  plain := local_identifier?.plain x.scanned

/-- The name that the word stands for. -/
def id (x : NameWord) : String := String.ofList x.chars

/-- Which lexemes, marks and signs fail on an identifier. -/
def refused : Phrase → Bool
  | .lexeme .identifier => false
  | .lexeme _ => true
  | p => p.isToken && p.opensOutside isIdentifierStart

/-- Whether a phrase fails on any identifier. -/
def refuses (p : Phrase) : Bool := p.refuses refused 64

theorem head (x : NameWord) : ∃ c rest, x.chars = c :: rest ∧ isIdentifierStart c = true := by
  cases hchars : x.chars with
  | nil => exact absurd hchars x.word.nonempty
  | cons c rest =>
    have h := x.scanned
    rw [hchars] at h
    exact ⟨c, rest, rfl, identifier?_head h⟩

/-- All characters of an identifier may stand in one. -/
theorem isIdentifierChar_of_mem (x : NameWord) : ∀ c ∈ x.chars, isIdentifierChar c = true := by
  obtain ⟨hsplit, -, -⟩ := identifier?_eq_some x.scanned
  have htake : x.chars = x.chars.takeWhile isIdentifierChar := congrArg Split.front hsplit
  intro c hc
  rw [htake] at hc
  exact List.all_eq_true.mp List.all_takeWhile c hc

/-- A word such as `if` is not the front of an identifier. -/
theorem keyword?_eq_none (x : NameWord) (k : Keyword) : keyword? k x.chars = none := by
  rw [keyword?]
  split
  · next rest hrest =>
    have hchars := afterSpelling?_eq_some.mp hrest
    refine if_neg fun hends => ?_
    cases rest with
    | nil =>
      obtain ⟨-, -, hne⟩ := identifier?_eq_some x.scanned
      rw [List.append_nil] at hchars
      exact hne k hchars.symm
    | cons c rest =>
      have hc := x.isIdentifierChar_of_mem c
        (by rw [hchars]; exact List.mem_append_right _ (List.mem_cons_self ..))
      rw [endsWord, hc] at hends
      cases hends
  · rfl

theorem rejects_of_refused (x : NameWord) (ws : List Word) {p : Phrase}
    (h : refused p = true) : Rejects p (x.word :: ws) := by
  obtain ⟨c, rest, hchars, hc⟩ := x.head
  have hmark : (p.isToken && p.opensOutside isIdentifierStart) = true →
      Rejects p (x.word :: ws) := by
    intro hp
    rw [Bool.and_eq_true] at hp
    refine rejects_token ws hp.1 ?_
    show p.take? x.chars = none
    rw [hchars]
    exact take?_opensOutside hp.2 hc rest
  have hnumber : isNumberStart c = false := by
    rw [← Bool.not_eq_true]
    intro hnumber
    rw [isIdentifierStart_of_isNumberStart hnumber] at hc
    cases hc
  cases p with
  | lexeme l =>
    refine rejects_token ws rfl ?_
    show l.scan? x.chars = none
    cases l with
    | identifier => cases h
    | keyword k => exact x.keyword?_eq_none k
    | number =>
      show number? x.chars = none
      cases hscan : number? x.chars with
      | none => rfl
      | some s =>
        rw [hchars] at hscan
        rw [number?_head hscan] at hnumber
        cases hnumber
    | imaginary =>
      show imaginary? x.chars = none
      cases hscan : imaginary? x.chars with
      | none => rfl
      | some s =>
        rw [hchars] at hscan
        rw [imaginary?_head hscan] at hnumber
        cases hnumber
    | string =>
      show stringLiteral? x.chars = none
      rw [hchars]
      refine if_neg fun hquote => ?_
      rcases hquote with rfl | rfl <;> cases hc
  | mark s => exact hmark h
  | sign ss => exact hmark h
  | _ => cases h

theorem rejects (x : NameWord) (ws : List Word) {p : Phrase} (h : refuses p = true) :
    Rejects p (x.word :: ws) :=
  rejects_of_refuses (fun _ => x.rejects_of_refused ws) h

theorem reads_pruned (x : NameWord) {ws left : List Word} {p : Phrase} {ms : List Meaning}
    (h : Reads (p.pruned refuses) (x.word :: ws) ms left) : Reads p (x.word :: ws) ms left :=
  reads_of_pruned (fun _ => x.rejects ws) h

end NameWord


/-! ## Reading the words -/

theorem reads_number (n : NumberWord) (ws : List Word) :
    Reads (.rule .number) (n.word :: ws) [.expr (.literal (.number n.value))] ws :=
  reads_token_rule ws rfl n.scanned fun _ => rfl

theorem reads_identifier (x : NameWord) (ws : List Word) :
    Reads (.rule .identifier) (x.word :: ws) [.name x.id] ws :=
  reads_token_rule ws rfl x.scanned fun _ => rfl

end Calculator.Grammar
