import Calculator.Proofs.Grammar.Tokenwise

/-!
# White space

Tokens may be spaced out in any way, as long as white space stands between two of them that are
neither brackets nor commas.

Results:
* `nextToken?_whole`: a token that is written out is read as that token in front of white space, a
  bracket or a comma.
* `Spaced.lexed`: the tokens of a text in which some tokens are spaced out.
* `parse_spaced`: how tokens are spaced out has no influence on what they are parsed as.
-/

namespace Calculator.Grammar

/-! ## Tokens with white space between them -/

/-- A lexeme that is written out: nothing of its characters is left over. -/
def Token.Whole : Token → Prop
  | lexeme l cs => l.scan? cs = some ⟨cs, []⟩
  | symbol _ => True

/-- Whether a token may stand directly behind another one, or in front of the whole text. -/
def Token.mayFollow (t : Token) : Option Token → Bool
  | none => true
  | some before => before.isSeparator || t.isSeparator

/-- A text in which some tokens stand with white space between and around them, and which itself
    stands behind a token or is a whole text. -/
inductive Spaced : Option Token → List Token → List Char → Prop
  | last {before : Option Token} {gap : List Char} :
      gap.all isSpacing = true → Spaced before [] gap
  | token {before : Option Token} {gap text : List Char} {t : Token} {ts : List Token} :
      gap.all isSpacing = true → (gap = [] → t.mayFollow before = true) → t.Whole →
      Spaced (some t) ts text → Spaced before (t :: ts) (gap ++ (t.chars ++ text))

/-! ## Reading them -/

/-- Behind a token that is no bracket and no comma the text ends, or a delimiter comes next. -/
theorem Spaced.ends {t : Token} (ht : t.isSeparator = false) {ts : List Token} {text : List Char}
    (h : Spaced (some t) ts text) : Ends text := by
  cases h with
  | last hgap =>
    rintro c rest rfl
    simp only [List.all_cons, Bool.and_eq_true] at hgap
    exact isDelimiter_of_isSpacing hgap.1
  | @token _ gap text' u us hgap htouch _ _ =>
    cases gap with
    | cons c gap =>
      simp only [List.all_cons, Bool.and_eq_true] at hgap
      exact ends_cons _ (isDelimiter_of_isSpacing hgap.1)
    | nil =>
      have hu : u.isSeparator = true := by simpa [Token.mayFollow, ht] using htouch rfl
      cases u with
      | lexeme l cs => cases hu
      | symbol s =>
        obtain ⟨hspelling, hdelimiter⟩ := Symbol.isDelimiter_of_isSeparator hu
        rw [List.nil_append, Token.chars, hspelling]
        exact ends_cons _ hdelimiter

/-- A token that is written out is read as that token. -/
theorem nextToken?_chars {t : Token} (ht : t.Whole) : nextToken? t.chars = some (t, []) := by
  cases t with
  | lexeme l cs => exact nextToken?_lexeme.mpr ht
  | symbol s =>
    have hjoins : s.joins (ahead []) = false := by cases s <;> rfl
    have h := nextToken?_of_not_joins Lexed.empty hjoins
    rw [List.append_nil] at h
    exact h

/-- A token that is written out is read as that token with other tokens behind it. -/
theorem nextToken?_whole {t : Token} (ht : t.Whole) {ts : List Token} {text : List Char}
    (h : Spaced (some t) ts text) : nextToken? (t.chars ++ text) = some (t, text) := by
  cases hseparator : t.isSeparator with
  | false => exact nextToken?_append (nextToken?_chars ht) (h.ends hseparator)
  | true =>
    cases t with
    | lexeme l cs => cases hseparator
    | symbol s => exact nextToken?_separator hseparator text

/-- The tokens of a text in which some tokens are spaced out. -/
theorem Spaced.lexed {before : Option Token} {ts : List Token} {text : List Char}
    (h : Spaced before ts text) : Lexed text ts := by
  induction h with
  | @last _ gap hgap =>
    have h : Lexed (gap ++ []) [] := (Lexed.spacing_iff hgap).mpr .empty
    rw [List.append_nil] at h
    exact h
  | token hgap _ ht hts ih =>
    exact (Lexed.spacing_iff hgap).mpr (.of_next (nextToken?_whole ht hts) ih)

/-! ## Parsing them -/

/-- A text that is not parsed is refused for its syntax. -/
theorem exists_invalidSyntax {text : String} (h : ∀ e, parse text ≠ .ok e) :
    ∃ position fault, parse text = .error (.invalidSyntax position fault) := by
  cases hparse : parse text with
  | ok e => exact absurd hparse (h e)
  | error err =>
    unfold parse at hparse
    dsimp only at hparse
    split at hparse
    · cases hparse; exact ⟨_, _, rfl⟩
    · split at hparse
      · cases hparse
      · cases hparse; exact ⟨_, _, rfl⟩

/-- How tokens are spaced out has no influence on what they are parsed as. -/
theorem parse_spaced {ts : List Token} {x y : String} (hx : Spaced none ts x.toList)
    (hy : Spaced none ts y.toList) :
    (∃ e, parse x = .ok e ∧ parse y = .ok e) ∨
      ((∃ position fault, parse x = .error (.invalidSyntax position fault)) ∧
        ∃ position fault, parse y = .error (.invalidSyntax position fault)) := by
  have hsame : ∀ e, parse x = .ok e ↔ parse y = .ok e := by
    intro e
    rw [parse_eq_ok_iff_derives, parse_eq_ok_iff_derives, tokens?_eq_some.mpr hx.lexed,
      tokens?_eq_some.mpr hy.lexed]
  by_cases hparsed : ∃ e, parse x = .ok e
  · obtain ⟨e, he⟩ := hparsed
    exact .inl ⟨e, he, (hsame e).mp he⟩
  · rw [not_exists] at hparsed
    exact .inr ⟨exists_invalidSyntax hparsed,
      exists_invalidSyntax fun e he => hparsed e ((hsame e).mpr he)⟩

/-- The words of `not in` stand on two lines, or the brackets stand close to them: both texts are
    the same comparison with a tuple. -/
theorem parse_spaced_not_in :
    let ts : List Token :=
      [.lexeme .identifier ['a'], .lexeme (.keyword .notWord) ['n', 'o', 't'],
        .lexeme (.keyword .inWord) ['i', 'n'], .symbol .leftParen,
        .lexeme .string ['\'', ' ', '\''], .symbol .comma, .symbol .rightParen]
    let tree : Expr := .compare .isNotIn (.name "a") (.tuple [.literal (.string " ")])
    Spaced none ts "a not in(' ',)".toList ∧ Spaced none ts "\ta not\r\nin ( ' ' ,)\n".toList ∧
      parse "a not in(' ',)" = .ok tree ∧ parse "\ta not\r\nin ( ' ' ,)\n" = .ok tree := by
  intro ts tree
  have hclose : Spaced none ts "a not in(' ',)".toList :=
    @Spaced.token none [] _ _ _ rfl (fun _ => rfl) rfl <|
    @Spaced.token _ [' '] _ _ _ rfl nofun rfl <|
    @Spaced.token _ [' '] _ _ _ rfl nofun rfl <|
    @Spaced.token _ [] _ _ _ rfl (fun _ => rfl) trivial <|
    @Spaced.token _ [] _ _ _ rfl (fun _ => rfl) rfl <|
    @Spaced.token _ [] _ _ _ rfl (fun _ => rfl) trivial <|
    @Spaced.token _ [] _ _ _ rfl (fun _ => rfl) trivial <|
    @Spaced.last _ [] rfl
  have hwide : Spaced none ts "\ta not\r\nin ( ' ' ,)\n".toList :=
    @Spaced.token none ['\t'] _ _ _ rfl nofun rfl <|
    @Spaced.token _ [' '] _ _ _ rfl nofun rfl <|
    @Spaced.token _ ['\r', '\n'] _ _ _ rfl nofun rfl <|
    @Spaced.token _ [' '] _ _ _ rfl nofun trivial <|
    @Spaced.token _ [' '] _ _ _ rfl nofun rfl <|
    @Spaced.token _ [' '] _ _ _ rfl nofun trivial <|
    @Spaced.token _ [] _ _ _ rfl (fun _ => rfl) trivial <|
    @Spaced.last _ ['\n'] rfl
  have hread : (match parse "a not in(' ',)" with
      | .ok (.compare .isNotIn (.name id) (.tuple items)) =>
        some (id, items.map fun | .literal (.string s) => some s | _ => none)
      | _ => none) = some ("a", [some " "]) := by decide +kernel
  rcases parse_spaced hclose hwide with ⟨e, hx, hy⟩ | ⟨⟨_, _, hx⟩, -⟩
  · rw [hx] at hread
    split at hread
    · next id items heq =>
      simp only [Option.some.injEq, Prod.mk.injEq, List.map_eq_singleton_iff] at hread
      obtain ⟨rfl, item, rfl, hitem⟩ := hread
      split at hitem
      · cases hitem
        cases heq
        exact ⟨hclose, hwide, hx, hy⟩
      · cases hitem
    · cases hread
  · rw [hx] at hread
    cases hread

end Calculator.Grammar
