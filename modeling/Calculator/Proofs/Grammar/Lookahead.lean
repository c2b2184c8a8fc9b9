import Calculator.Proofs.Grammar.Tokens

/-!
# What comes next

Which phrase goes on at a place is decided by the next token, and in four cases by the token behind
it as well: a name may be given a value, a comma may be the last one in its brackets, and `is` may
be the first word of `is not`.  An `Ahead` says which of these cases the tokens in front of a place
are.

Results:
* `yields_mark`, `yields_sign`, `yields_lexeme`: where a token comes next, the phrase that describes
  it takes it.
* `yields_fails_of_refuses`: a phrase that refuses what comes next fails.
-/

namespace Calculator.Grammar

/-! ## Cases of what comes next -/

/-- What the tokens in front of a place are, as far as the choice of a phrase is concerned. -/
inductive Ahead where
  /-- A word; `is` only if it is not followed by `not`. -/
  | keyword (k : Keyword)
  /-- The words `is not`. -/
  | isNot
  /-- An identifier that is not followed by `=` or `:=`. -/
  | name
  /-- An identifier that is followed by `=`. -/
  | named
  /-- An identifier that is followed by `:=`. -/
  | assigned
  | number
  | imaginary
  | string
  /-- A symbol; the comma only if no closing bracket follows it. -/
  | symbol (s : Symbol)
  /-- A comma that is followed by a closing bracket. -/
  | lastComma
  | finish
deriving DecidableEq

namespace Ahead

/-- All cases. -/
def all : List Ahead :=
  [isNot, name, named, assigned, number, imaginary, string, lastComma, finish] ++
    Keyword.all.map keyword ++ Symbol.all.map symbol

theorem mem_all (k : Ahead) : k ∈ all := by
  cases k with
  | keyword k =>
    exact List.mem_append_left _ (List.mem_append_right _ (List.mem_map_of_mem k.mem_all))
  | symbol s => exact List.mem_append_right _ (List.mem_map_of_mem s.mem_all)
  | _ => exact List.mem_append_left _ (List.mem_append_left _ (by simp))

/-- The closing brackets. -/
def closers : List Ahead :=
  [symbol .rightParen, symbol .rightBracket, symbol .rightBrace]

/-- The kind of the lexeme that comes next. -/
def lexeme? : Ahead → Option Lexeme
  | keyword k => some (.keyword k)
  | isNot => some (.keyword .isWord)
  | name | named | assigned => some .identifier
  | number => some .number
  | imaginary => some .imaginary
  | string => some .string
  | symbol _ | lastComma | finish => none

/-- The symbol that comes next. -/
def symbol? : Ahead → Option Symbol
  | symbol s => some s
  | lastComma => some .comma
  | _ => none

end Ahead

deriving instance DecidableEq for Lexeme

/-- The case of a lexeme in front of what comes behind it. -/
def Lexeme.ahead (next : Ahead) : Lexeme → Ahead
  | keyword k => if k = .isWord ∧ next = .keyword .notWord then .isNot else .keyword k
  | identifier =>
    if next = .symbol .equal then .named
    else if next = .symbol .colonEqual then .assigned
    else .name
  | number => .number
  | imaginary => .imaginary
  | string => .string

/-- The case of a symbol in front of what comes behind it. -/
def Symbol.ahead (next : Ahead) (s : Symbol) : Ahead :=
  if s = .comma ∧ next ∈ Ahead.closers then .lastComma else .symbol s

/-- The case of a token in front of what comes behind it. -/
def Token.ahead (next : Ahead) : Token → Ahead
  | lexeme l _ => l.ahead next
  | symbol s => s.ahead next

/-- The case of some tokens. -/
def ahead : List Token → Ahead
  | [] => .finish
  | t :: ts => t.ahead (ahead ts)

theorem Lexeme.lexeme?_ahead (next : Ahead) (l : Lexeme) : (l.ahead next).lexeme? = some l := by
  cases l <;> simp only [ahead] <;> (try split_ifs) <;> simp_all [Ahead.lexeme?]

theorem Symbol.symbol?_ahead (next : Ahead) (s : Symbol) : (s.ahead next).symbol? = some s := by
  rw [ahead]
  split_ifs with h
  · rw [h.1]; rfl
  · rfl

theorem Lexeme.symbol?_ahead (next : Ahead) (l : Lexeme) : (l.ahead next).symbol? = none := by
  cases l <;> simp only [ahead] <;> (try split_ifs) <;> rfl

theorem Symbol.lexeme?_ahead (next : Ahead) (s : Symbol) : (s.ahead next).lexeme? = none := by
  rw [ahead]
  split_ifs <;> rfl

theorem lexeme_of_ahead {ts : List Token} {l : Lexeme} (h : (ahead ts).lexeme? = some l) :
    ∃ cs us, ts = .lexeme l cs :: us := by
  cases ts with
  | nil => cases h
  | cons t us =>
    cases t with
    | lexeme l' cs =>
      rw [ahead, Token.ahead, Lexeme.lexeme?_ahead] at h
      cases h
      exact ⟨cs, us, rfl⟩
    | symbol s => rw [ahead, Token.ahead, Symbol.lexeme?_ahead] at h; cases h

theorem symbol_of_ahead {ts : List Token} {s : Symbol} (h : (ahead ts).symbol? = some s) :
    ∃ us, ts = .symbol s :: us := by
  cases ts with
  | nil => cases h
  | cons t us =>
    cases t with
    | lexeme l cs => rw [ahead, Token.ahead, Lexeme.symbol?_ahead] at h; cases h
    | symbol s' =>
      rw [ahead, Token.ahead, Symbol.symbol?_ahead] at h
      cases h
      exact ⟨us, rfl⟩

/-! ## Sets of cases -/

/-- One case or none. -/
def Ahead.when (b : Bool) (k : Ahead) : List Ahead := if b then [k] else []

theorem Ahead.mem_when {b : Bool} {k : Ahead} (h : b = true) : k ∈ when b k := by
  rw [when, if_pos h]
  exact List.mem_singleton_self k

/-- The cases of a symbol in front of some cases. -/
def Symbol.aheads (next : List Ahead) : Symbol → List Ahead
  | comma =>
    Ahead.when (next.any Ahead.closers.contains) .lastComma ++
      Ahead.when (next.any fun k => !Ahead.closers.contains k) (.symbol .comma)
  | s => [.symbol s]

/-- The cases of a lexeme in front of some cases. -/
def Lexeme.aheads (next : List Ahead) : Lexeme → List Ahead
  | keyword .isWord =>
    Ahead.when (next.contains (.keyword .notWord)) .isNot ++
      Ahead.when (next.any (· != .keyword .notWord)) (.keyword .isWord)
  | identifier =>
    Ahead.when (next.contains (.symbol .equal)) .named ++
      (Ahead.when (next.contains (.symbol .colonEqual)) .assigned ++
        Ahead.when (next.any fun k => k != .symbol .equal && k != .symbol .colonEqual) .name)
  | keyword k => [.keyword k]
  | number => [.number]
  | imaginary => [.imaginary]
  | string => [.string]

theorem Symbol.ahead_mem_aheads (s : Symbol) {k : Ahead} {next : List Ahead} (hk : k ∈ next) :
    s.ahead k ∈ s.aheads next := by
  by_cases hs : s = .comma
  · subst hs
    by_cases hclosers : k ∈ Ahead.closers
    · have hany : next.any Ahead.closers.contains = true :=
        List.any_eq_true.mpr ⟨k, hk, by simpa using hclosers⟩
      rw [ahead, if_pos ⟨rfl, hclosers⟩]
      exact List.mem_append_left _ (Ahead.mem_when hany)
    · have hany : (next.any fun k => !Ahead.closers.contains k) = true :=
        List.any_eq_true.mpr ⟨k, hk, by simpa using hclosers⟩
      rw [ahead, if_neg fun h => hclosers h.2]
      exact List.mem_append_right _ (Ahead.mem_when hany)
  · rw [ahead, if_neg fun h => hs h.1]
    cases s <;> first | exact absurd rfl hs | exact List.mem_singleton_self _

theorem Lexeme.ahead_mem_aheads (l : Lexeme) {k : Ahead} {next : List Ahead} (hk : k ∈ next) :
    l.ahead k ∈ l.aheads next := by
  have hany : ∀ p : Ahead → Bool, p k = true → next.any p = true := fun p hp =>
    List.any_eq_true.mpr ⟨k, hk, hp⟩
  have hcontains : ∀ k', k = k' → next.contains k' = true := by
    rintro k' rfl
    simpa using hk
  cases l with
  | keyword w =>
    by_cases hw : w = .isWord
    · subst hw
      by_cases hnot : k = .keyword .notWord
      · rw [ahead, if_pos ⟨rfl, hnot⟩]
        exact List.mem_append_left _ (Ahead.mem_when (hcontains _ hnot))
      · rw [ahead, if_neg fun h => hnot h.2]
        exact List.mem_append_right _ (Ahead.mem_when (hany _ (by simpa using hnot)))
    · rw [ahead, if_neg fun h => hw h.1]
      cases w <;> first | exact absurd rfl hw | exact List.mem_singleton_self _
  | identifier =>
    by_cases hequal : k = .symbol .equal
    · rw [ahead, if_pos hequal]
      exact List.mem_append_left _ (Ahead.mem_when (hcontains _ hequal))
    · by_cases hassigned : k = .symbol .colonEqual
      · rw [ahead, if_neg hequal, if_pos hassigned]
        exact List.mem_append_right _
          (List.mem_append_left _ (Ahead.mem_when (hcontains _ hassigned)))
      · rw [ahead, if_neg hequal, if_neg hassigned]
        refine List.mem_append_right _ (List.mem_append_right _ (Ahead.mem_when (hany _ ?_)))
        simp [hequal, hassigned]
  | _ => exact List.mem_singleton_self _

/-- The cases of what may come behind the first token. -/
def Ahead.behind : Ahead → List Ahead
  | name => all.filter fun k => k != .symbol .equal && k != .symbol .colonEqual
  | named => [.symbol .equal]
  | assigned => [.symbol .colonEqual]
  | keyword .isWord => all.filter (· != .keyword .notWord)
  | isNot => [.keyword .notWord]
  | lastComma => closers
  | symbol .comma => all.filter fun k => !closers.contains k
  | _ => all

theorem mem_behind_ahead (t : Token) (k : Ahead) : k ∈ (t.ahead k).behind := by
  have hall := k.mem_all
  cases t with
  | symbol s =>
    rw [Token.ahead, Symbol.ahead]
    split_ifs with h
    · exact h.2
    · cases s <;> first | exact hall | skip
      exact List.mem_filter.mpr ⟨hall, by simpa using h⟩
  | lexeme l cs =>
    rw [Token.ahead]
    cases l with
    | keyword w =>
      rw [Lexeme.ahead]
      split_ifs with h
      · rw [h.2]
        exact List.mem_singleton_self _
      · cases w <;> first | exact hall | skip
        exact List.mem_filter.mpr ⟨hall, by simpa using h⟩
    | identifier =>
      rw [Lexeme.ahead]
      split_ifs with hequal hassigned
      · rw [hequal]; exact List.mem_singleton_self _
      · rw [hassigned]; exact List.mem_singleton_self _
      · exact List.mem_filter.mpr ⟨hall, by simp [hequal, hassigned]⟩
    | _ => exact hall

/-! ## Places in front of tokens -/

/-- A place that is not white space and has these tokens in front of it. -/
structure Cursor.Before (c : Cursor) (ts : List Token) : Prop where
  settled : c.rest.dropWhile isSpacing = c.rest
  lexed : Lexed c.rest ts

theorem dropWhile_dropWhile (p : Char → Bool) (cs : List Char) :
    (cs.dropWhile p).dropWhile p = cs.dropWhile p := by
  induction cs with
  | nil => rfl
  | cons c cs ih =>
    by_cases hc : p c = true
    · rw [List.dropWhile_cons_of_pos hc, ih]
    · rw [List.dropWhile_cons_of_neg hc, List.dropWhile_cons_of_neg hc]

namespace Cursor.Before

variable {c : Cursor} {t : Token} {ts : List Token}

theorem start {text : List Char} (h : Lexed text ts) : (Cursor.start text).Before ts :=
  ⟨dropWhile_dropWhile isSpacing text, Lexed.dropWhile_iff.mpr h⟩

/-- The next token of a place, and the place behind it. -/
theorem next (h : c.Before (t :: ts)) : ∃ rest, nextToken? c.rest = some (t, rest) ∧
    ∀ front, (c.past ⟨front, rest⟩).Before ts := by
  obtain ⟨hsettled, hlexed⟩ := h
  cases hlexed with
  | @cons _ rest _ _ hnext hts =>
    rw [hsettled] at hnext
    exact ⟨rest, hnext, fun front =>
      ⟨dropWhile_dropWhile isSpacing rest, Lexed.dropWhile_iff.mpr hts⟩⟩

theorem rest_eq_nil (h : c.Before []) : c.rest = [] := by
  obtain ⟨hsettled, hlexed⟩ := h
  cases hlexed with
  | nil hnil => rw [← hsettled, hnil]

end Cursor.Before

/-! ## Taking a token -/

/-- The symbols that a mark or a sign describes. -/
def Phrase.symbols : Phrase → List Symbol
  | mark s => Symbol.all.filter fun y => y.spelling == s.toList
  | sign ss => Symbol.all.filter fun y => ss.any fun s => y.spelling == s.toList
  | _ => []

theorem Phrase.mem_symbols_mark {s : String} {y : Symbol} :
    y ∈ (mark s).symbols ↔ y.spelling = s.toList := by
  simp [symbols, y.mem_all]

theorem Phrase.mem_symbols_sign {ss : List String} {y : Symbol} :
    y ∈ (sign ss).symbols ↔ ∃ s ∈ ss, y.spelling = s.toList := by
  simp [symbols, y.mem_all]

/-- Whether a text is the spelling of a symbol. -/
def isSpelling (s : String) : Bool := Symbol.all.any fun y => y.spelling == s.toList

theorem isSpelling_iff {s : String} :
    isSpelling s = true ↔ ∃ y : Symbol, y.spelling = s.toList := by
  simp [isSpelling, Symbol.mem_all]

/-- Whether marks and signs are spellings of symbols, a longer one in front of what it begins
    with. -/
def Phrase.isSpelled : Phrase → Bool
  | mark s => isSpelling s
  | sign ss => ss.all isSpelling && decide (ss.Pairwise fun s s' => ¬ s.toList <+: s'.toList)
  | _ => true

section Taking

variable {c : Cursor} {ts : List Token}

theorem yields_lexeme {l : Lexeme} {cs : List Char} (h : c.Before (.lexeme l cs :: ts)) :
    ∃ next, (Phrase.lexeme l).Yields c (.fits [.leaf cs] next) ∧ next.Before ts := by
  obtain ⟨rest, hnext, hbefore⟩ := h.next
  refine ⟨c.past ⟨cs, rest⟩, .terminal ?_, hbefore cs⟩
  rw [Phrase.outcome?, nextToken?_lexeme.mp hnext]
  rfl

theorem spelling?_of_eq {c : Cursor} {s : String} {rest : List Char}
    (h : c.rest = s.toList ++ rest) :
    c.spelling? s = some ⟨s.toList, rest⟩ := by
  rw [Cursor.spelling?, afterSpelling?_eq_some.mpr h]
  rfl

theorem yields_mark {s : String} {y : Symbol} (hy : y.spelling = s.toList)
    (h : c.Before (.symbol y :: ts)) :
    ∃ next, (Phrase.mark s).Yields c (.fits [] next) ∧ next.Before ts := by
  obtain ⟨rest, hnext, hbefore⟩ := h.next
  obtain ⟨-, htext, -⟩ := nextToken?_symbol.mp hnext
  refine ⟨c.past ⟨s.toList, rest⟩, .terminal ?_, hbefore _⟩
  rw [Phrase.outcome?, spelling?_of_eq (hy ▸ htext)]
  rfl

theorem yields_sign {ss : List String} (hss : (Phrase.sign ss).isSpelled = true) {y : Symbol}
    (hy : y ∈ (Phrase.sign ss).symbols) (h : c.Before (.symbol y :: ts)) :
    ∃ next, (Phrase.sign ss).Yields c (.fits [.leaf y.spelling] next) ∧ next.Before ts := by
  obtain ⟨rest, hnext, hbefore⟩ := h.next
  obtain ⟨-, htext, hlongest⟩ := nextToken?_symbol.mp hnext
  obtain ⟨s, hs, hys⟩ := Phrase.mem_symbols_sign.mp hy
  rw [Phrase.isSpelled, Bool.and_eq_true, decide_eq_true_eq] at hss
  obtain ⟨hspelling, hpairwise⟩ := hss
  have hfound : ss.findSome? c.spelling? = some ⟨s.toList, rest⟩ := by
    obtain ⟨before, after, rfl⟩ := List.append_of_mem hs
    refine List.findSome?_eq_some_iff.mpr
      ⟨before, s, after, rfl, spelling?_of_eq (hys ▸ htext), fun s' hs' => ?_⟩
    -- an earlier spelling that fits would be the beginning of the longest one
    cases hs'' : c.spelling? s' with
    | none => rfl
    | some split =>
      obtain ⟨y', hy'⟩ := isSpelling_iff.mp
        (List.all_eq_true.mp hspelling s' (List.mem_append_left _ hs'))
      have hprefix : y'.spelling <+: c.rest := by
        obtain ⟨hfront, hof⟩ := Cursor.spelling?_eq_some hs''
        exact ⟨split.rest, by rw [hy', ← hfront]; exact hof.symm⟩
      have hnot := (List.pairwise_append.mp hpairwise).2.2 s' hs' s (List.mem_cons_self ..)
      exact absurd (hy' ▸ hys ▸ hlongest y' hprefix) hnot
  refine ⟨c.past ⟨s.toList, rest⟩, .terminal ?_, hbefore _⟩
  rw [Phrase.outcome?, hfound, hys]
  rfl

end Taking

/-! ## Refusing what comes next -/

namespace Ahead

/-- Whether a spelling may stand at the front of what comes next. -/
def mayBegin (k : Ahead) (s : List Char) : Bool :=
  match k.symbol? with
  | some y => s.isPrefixOf y.spelling
  | none => (k == number || k == imaginary) && s == ['.']

/-- Whether a phrase fails in front of a token because of that token alone. -/
def refusesToken (k : Ahead) : Phrase → Bool
  | .lexeme l => decide (k.lexeme? ≠ some l)
  | .mark s => isSpelling s && !k.mayBegin s.toList
  | .sign ss => ss.all fun s => isSpelling s && !k.mayBegin s.toList
  | .seq (.mark s) (.seq (.notNext t) _) =>
    -- the mark is not there, or what must not follow it belongs to the same symbol
    isSpelling s && isSpelling t && (!k.mayBegin s.toList || k.mayBegin (s.toList ++ t.toList)
      && k.symbol?.isSome)
  | _ => false

/-- Whether a lexeme, a mark or a sign takes the token that comes next. -/
def isTakenBy (k : Ahead) : Phrase → Bool
  | .lexeme l => decide (k.lexeme? = some l)
  | .mark s =>
    match k.symbol? with
    | some y => decide (y ∈ (Phrase.mark s).symbols)
    | none => false
  | .sign ss =>
    match k.symbol? with
    | some y => (Phrase.sign ss).isSpelled && decide (y ∈ (Phrase.sign ss).symbols)
    | none => false
  | _ => false

/-- Whether a phrase fails because of the next token or the one behind it. -/
def refusesTokens (k : Ahead) : Phrase → Bool
  | .seq (.rule r) q =>
    k.isTakenBy r.body && k.behind.all fun k' => q.refuses k'.refusesToken 64
  | .seq p q =>
    k.refusesToken (.seq p q) ||
      k.isTakenBy p && k.behind.all fun k' => q.refuses k'.refusesToken 64
  | p => k.refusesToken p

/-- Whether a phrase fails because of what comes next. -/
def refuses (k : Ahead) (p : Phrase) : Bool := p.refuses k.refusesTokens 64

end Ahead

section Refusing

variable {c : Cursor} {ts : List Token}

/-- Where a symbol stands at the front of the text, the next token begins with it. -/
theorem mayBegin_of_prefix (h : c.Before ts) {y : Symbol} (hy : y.spelling <+: c.rest) :
    (ahead ts).mayBegin y.spelling = true := by
  obtain ⟨more, hmore⟩ := y.spelling_eq_cons
  cases ts with
  | nil =>
    rw [h.rest_eq_nil, hmore] at hy
    exact absurd (List.prefix_nil.mp hy) (List.cons_ne_nil _ _)
  | cons t us =>
    obtain ⟨rest, hnext, -⟩ := h.next
    cases t with
    | symbol s =>
      obtain ⟨-, -, hlongest⟩ := nextToken?_symbol.mp hnext
      rw [Ahead.mayBegin, ahead, Token.ahead, Symbol.symbol?_ahead]
      exact List.isPrefixOf_iff_prefix.mpr (hlongest y hy)
    | lexeme l cs =>
      have hscan := nextToken?_lexeme.mp hnext
      obtain ⟨rest', hrest'⟩ := hy
      by_cases hpoint : y = .point
      · subst hpoint
        rw [← hrest'] at hscan
        have hstart := Lexeme.canStart_of_scan? hscan
        rw [Ahead.mayBegin, ahead, Token.ahead, Lexeme.symbol?_ahead]
        cases l with
        | number | imaginary => rfl
        | keyword k => exact absurd (show isIdentifierStart '.' = true from hstart) (by decide)
        | identifier => exact absurd (show isIdentifierStart '.' = true from hstart) (by decide)
        | string => exact absurd hstart (by decide)
      · rw [← hrest', l.scan?_symbol hpoint] at hscan
        cases hscan

theorem spelling?_eq_none (h : c.Before ts) {s : String} (hs : isSpelling s = true)
    (hk : (ahead ts).mayBegin s.toList = false) : c.spelling? s = none := by
  cases hspelling : c.spelling? s with
  | none => rfl
  | some split =>
    obtain ⟨y, hy⟩ := isSpelling_iff.mp hs
    obtain ⟨hfront, hof⟩ := Cursor.spelling?_eq_some hspelling
    have hprefix : y.spelling <+: c.rest := ⟨split.rest, by rw [hy, ← hfront]; exact hof.symm⟩
    rw [← hy, mayBegin_of_prefix h hprefix] at hk
    cases hk

theorem yields_fails_of_refusesToken (h : c.Before ts) {p : Phrase}
    (hp : (ahead ts).refusesToken p = true) : p.Yields c .fails := by
  unfold Ahead.refusesToken at hp
  split at hp
  · next l =>
    refine .terminal ?_
    cases hscan : l.scan? c.rest with
    | none => rw [Phrase.outcome?, hscan]; rfl
    | some s =>
      have hnext : nextToken? c.rest = some (.lexeme l s.front, s.rest) :=
        nextToken?_lexeme.mpr hscan
      cases ts with
      | nil => rw [h.rest_eq_nil, nextToken?_nil] at hnext; cases hnext
      | cons t us =>
        obtain ⟨rest, hnext', -⟩ := h.next
        rw [hnext] at hnext'
        cases hnext'
        rw [ahead, Token.ahead, Lexeme.lexeme?_ahead] at hp
        exact absurd rfl (of_decide_eq_true hp)
  · next s =>
    rw [Bool.and_eq_true, Bool.not_eq_true'] at hp
    refine .terminal ?_
    rw [Phrase.outcome?, spelling?_eq_none h hp.1 hp.2]
    rfl
  · next ss =>
    have hnone : ss.findSome? c.spelling? = none := by
      refine List.findSome?_eq_none_iff.mpr fun s hs => ?_
      have hs := List.all_eq_true.mp hp s hs
      rw [Bool.and_eq_true, Bool.not_eq_true'] at hs
      exact spelling?_eq_none h hs.1 hs.2
    refine .terminal ?_
    rw [Phrase.outcome?, hnone]
    rfl
  · next s t q =>
    simp only [Bool.and_eq_true, Bool.or_eq_true, Bool.not_eq_true'] at hp
    obtain ⟨⟨hs, ht⟩, hnone | ⟨hboth, hsome⟩⟩ := hp
    · refine .seqFirst (.terminal ?_)
      rw [Phrase.outcome?, spelling?_eq_none h hs hnone]
      rfl
    · -- the symbol that comes next is longer than the mark
      obtain ⟨y, hy⟩ := Option.isSome_iff_exists.mp hsome
      obtain ⟨us, rfl⟩ := symbol_of_ahead hy
      rw [Ahead.mayBegin, hy] at hboth
      obtain ⟨more, hmore⟩ := List.isPrefixOf_iff_prefix.mp hboth
      obtain ⟨rest, hnext, -⟩ := h.next
      obtain ⟨-, htext, -⟩ := nextToken?_symbol.mp hnext
      rw [← hmore, List.append_assoc, List.append_assoc] at htext
      have hmark : (Phrase.mark s).Yields c
          (.fits [] (c.past ⟨s.toList, t.toList ++ (more ++ rest)⟩)) := by
        refine .terminal ?_
        rw [Phrase.outcome?, spelling?_of_eq htext]
        rfl
      refine .seqSecond hmark (.seqFirst (.terminal ?_))
      obtain ⟨z, hz⟩ := isSpelling_iff.mp ht
      have hrest : (c.past ⟨s.toList, t.toList ++ (more ++ rest)⟩).rest =
          t.toList ++ (more ++ rest) := by
        obtain ⟨tail, htail⟩ := z.spelling_eq_cons
        show (t.toList ++ (more ++ rest)).dropWhile isSpacing = _
        rw [← hz, htail]
        cases z <;> rfl
      rw [Phrase.outcome?, spelling?_of_eq hrest]
      rfl
  · cases hp

theorem yields_of_isTakenBy {t : Token} (h : c.Before (t :: ts)) {p : Phrase}
    (hp : (ahead (t :: ts)).isTakenBy p = true) :
    ∃ parts next, p.Yields c (.fits parts next) ∧ next.Before ts := by
  unfold Ahead.isTakenBy at hp
  split at hp
  · next l =>
    obtain ⟨cs, us, heq⟩ := lexeme_of_ahead (of_decide_eq_true hp)
    cases heq
    obtain ⟨next, hyields, hnext⟩ := yields_lexeme h
    exact ⟨_, next, hyields, hnext⟩
  · next s =>
    split at hp
    · next y hy =>
      obtain ⟨us, heq⟩ := symbol_of_ahead hy
      cases heq
      have hspelling := Phrase.mem_symbols_mark.mp (of_decide_eq_true hp)
      obtain ⟨next, hyields, hnext⟩ := yields_mark hspelling h
      exact ⟨_, next, hyields, hnext⟩
    · cases hp
  · next ss =>
    split at hp
    · next y hy =>
      obtain ⟨us, heq⟩ := symbol_of_ahead hy
      cases heq
      rw [Bool.and_eq_true] at hp
      obtain ⟨next, hyields, hnext⟩ := yields_sign hp.1 (of_decide_eq_true hp.2) h
      exact ⟨_, next, hyields, hnext⟩
    · cases hp
  · cases hp

/-- A phrase fails if all that it can begin with is known to fail. -/
theorem yields_fails_of_known {known : Phrase → Bool}
    (hknown : ∀ p, known p = true → p.Yields c .fails) {depth : Nat} {p : Phrase}
    (h : p.refuses known depth = true) : p.Yields c .fails := by
  induction depth generalizing p with
  | zero => cases h
  | succ depth ih =>
    by_cases hp : known p = true
    · exact hknown p hp
    · rw [Bool.not_eq_true] at hp
      cases p with
      | rule r =>
        rw [Phrase.refuses, hp, Bool.false_or] at h
        exact .ruleFails (ih h)
      | seq first second =>
        rw [Phrase.refuses, hp, Bool.false_or] at h
        exact .seqFirst (ih h)
      | either first second =>
        rw [Phrase.refuses, hp, Bool.false_or, Bool.and_eq_true] at h
        exact .eitherSecond (ih h.1) (ih h.2)
      | _ => simp only [Phrase.refuses, hp, Bool.or_false, Bool.false_eq_true] at h

/-- A phrase that takes the next token is not followed by one that refuses what is behind it. -/
theorem yields_fails_behind (h : c.Before ts) {p q : Phrase} (hp : (ahead ts).isTakenBy p = true)
    (hq : ((ahead ts).behind.all fun k => q.refuses k.refusesToken 64) = true) :
    (Phrase.seq p q).Yields c .fails := by
  cases ts with
  | nil => cases p <;> cases hp
  | cons t us =>
    obtain ⟨parts, next, hyields, hnext⟩ := yields_of_isTakenBy h hp
    have hrefuses := List.all_eq_true.mp hq (ahead us) (mem_behind_ahead t (ahead us))
    exact .seqSecond hyields
      (yields_fails_of_known (fun _ => yields_fails_of_refusesToken hnext) hrefuses)

theorem yields_fails_of_refusesTokens (h : c.Before ts) {p : Phrase}
    (hp : (ahead ts).refusesTokens p = true) : p.Yields c .fails := by
  unfold Ahead.refusesTokens at hp
  split at hp
  · next r q =>
    rw [Bool.and_eq_true] at hp
    cases yields_fails_behind h hp.1 hp.2 with
    | terminal ho => cases ho
    | seqFirst hbody => exact .seqFirst (.ruleFails hbody)
    | seqSecond hbody hq => exact .seqSecond (.ruleFits hbody) hq
  · next p q _ =>
    rw [Bool.or_eq_true, Bool.and_eq_true] at hp
    rcases hp with hp | hp
    · exact yields_fails_of_refusesToken h hp
    · exact yields_fails_behind h hp.1 hp.2
  · exact yields_fails_of_refusesToken h hp

/-- A phrase that refuses what comes next fails. -/
theorem yields_fails_of_refuses (h : c.Before ts) {p : Phrase}
    (hp : (ahead ts).refuses p = true) : p.Yields c .fails :=
  yields_fails_of_known (fun _ => yields_fails_of_refusesTokens h) hp

end Refusing

end Calculator.Grammar
