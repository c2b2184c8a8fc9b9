import Calculator.Proofs.Grammar.Composition
import Calculator.Proofs.Grammar.Spacing

/-!
# Words as texts

A word is a letter or underscore with letters, digits and underscores behind it.  Twelve words are
keywords; every other one is a name, whatever it begins or ends with.

Results:
* `identifier?_of_isWord`: a word that is no keyword is an identifier as a whole.
* `parse_keyword`: a keyword alone is one of three literals or no expression at all.
* `parse_memberOf`: the member of a text in brackets.
* `parse_word`: what a word is parsed as: alone, in front of an argument, and as a member.
-/

namespace Calculator.Grammar

/-- Whether a text is a letter or underscore with letters, digits and underscores behind it, all of
    them ASCII. -/
def isWord (text : String) : Bool :=
  text.toList.head?.any isIdentifierStart && text.toList.all isIdentifierChar

/-- A word that is no keyword is an identifier as a whole. -/
theorem identifier?_of_isWord {w : String} (hw : isWord w = true)
    (hkeyword : ∀ k : Keyword, w ≠ k.spelling) :
    identifier? w.toList = some ⟨w.toList, []⟩ := by
  rw [isWord, Bool.and_eq_true] at hw
  obtain ⟨hstart, hall⟩ := hw
  have htake : w.toList.takeWhile isIdentifierChar = w.toList :=
    List.takeWhile_eq_self_iff.mpr (List.all_eq_true.mp hall)
  have hdrop : w.toList.dropWhile isIdentifierChar = [] :=
    List.dropWhile_eq_nil_iff.mpr (List.all_eq_true.mp hall)
  have hother : (Keyword.all.any fun k => k.spelling.toList == w.toList) = false := by
    refine List.any_eq_false.mpr fun k _ hk => hkeyword k ?_
    exact (String.toList_inj.mp (beq_iff_eq.mp hk)).symm
  rw [identifier?, htake, hdrop]
  cases hchars : w.toList with
  | nil => rw [hchars] at hstart; cases hstart
  | cons c rest =>
    rw [hchars] at hstart hother
    simp only [hother, Bool.not_false, Bool.and_true]
    exact if_pos hstart

/-! ## Keywords -/

theorem derives_keywordLiteral {k : Keyword} {l : Literal} (hl : k.literal? = some l) :
    Grammar.atom.Derives [.keyword k] [.expr (.literal l)] := by
  cases k with
  | trueWord =>
    cases hl
    iterate 3 refine .eitherSecond ?_
    exact .eitherFirst (.rule .lexeme fun _ => rfl)
  | falseWord =>
    cases hl
    iterate 4 refine .eitherSecond ?_
    exact .eitherFirst (.rule .lexeme fun _ => rfl)
  | noneWord =>
    cases hl
    iterate 5 refine .eitherSecond ?_
    exact .eitherFirst (.rule .lexeme fun _ => rfl)
  | _ => cases hl

theorem lexed_keyword (k : Keyword) : Lexed k.spelling.toList [.keyword k] :=
  .lexeme (l := .keyword k) (by cases k <;> rfl)

/-- No other keyword is an expression. -/
theorem recognize_keyword {k : Keyword} (hk : k.literal? = none) (tree : Tree) :
    recognize k.spelling.toList ≠ .ok tree := by
  have hall : (Keyword.all.all fun k =>
      k.literal?.isSome || (recognize k.spelling.toList).toOption.isNone) = true := by
    decide +kernel
  have h := List.all_eq_true.mp hall k k.mem_all
  rw [hk, Option.isSome_none, Bool.false_or] at h
  intro htree
  rw [htree] at h
  cases h

/-- A keyword alone is one of three literals or no expression at all. -/
theorem parse_keyword (k : Keyword) :
    match k.literal? with
    | some l => parse k.spelling = .ok (.literal l)
    | none => ∃ place fault, parse k.spelling = .error (.invalidSyntax place fault) := by
  cases hk : k.literal? with
  | some l =>
    have hderives := derives_of_atom (derives_keywordLiteral hk) .expression
    exact parse_of_derives (lexed_keyword k) hderives
  | none =>
    refine exists_invalidSyntax fun e he => ?_
    obtain ⟨tree, htree, -⟩ := parse_eq_ok_iff_recognize.mp he
    exact recognize_keyword hk tree htree

/-! ## Members -/

theorem NameWord.derives_member (f : NameWord) :
    trailer.Derives [.symbol .point, .lexeme .identifier f.chars] [.memberOf f.id] := by
  have hid : (Phrase.rule .identifier).Derives [.lexeme .identifier f.chars] [.name f.id] :=
    .rule .lexeme fun _ => rfl
  have hbody : (Rule.member.body).Derives ([.symbol .point] ++ [.lexeme .identifier f.chars])
      ([] ++ [.name f.id]) := .seq (.mark (by decide)) hid
  exact .eitherSecond (.eitherFirst (.rule hbody fun _ => rfl))

theorem NameWord.lexed_member (f : NameWord) :
    Lexed ('.' :: f.chars) [.symbol .point, .lexeme .identifier f.chars] := by
  have hname : Lexed f.chars [.lexeme .identifier f.chars] := .lexeme f.scanned
  have hjoins : Symbol.point.joins (ahead [.lexeme .identifier f.chars]) = false := by
    rw [Symbol.joins, ahead, Token.ahead, Lexeme.symbol?_ahead]
    rfl
  exact .of_next (nextToken?_of_not_joins hname hjoins) hname

/-- The member of a text in brackets. -/
theorem parse_memberOf (x : Sentence) (f : NameWord) :
    parse (x.inBrackets ++ "." ++ f.id) = .ok (.member x.expr f.id) := by
  refine parse_of_derives ?_ (derives_trailer x.derives_inBrackets rfl f.derives_member rfl)
  have hlexed := x.lexed_inBrackets f.lexed_member
  simpa [NameWord.id] using hlexed

/-! ## Words -/

/-- What a word is parsed as: a keyword alone is a literal or no expression; any other word is a
    name, a function in front of an argument, and a member behind a point. -/
theorem parse_word {w : String} (hw : isWord w = true) :
    (∀ k : Keyword, w = k.spelling →
      match k.literal? with
      | some l => parse w = .ok (.literal l)
      | none => ∃ place fault, parse w = .error (.invalidSyntax place fault)) ∧
    ((∀ k : Keyword, w ≠ k.spelling) →
      parse w = .ok (.name w) ∧
      ∀ s e, parse s = .ok e →
        parse (w ++ "(" ++ s ++ ")") = .ok (.call (.name w) [.positional e]) ∧
        parse ("(" ++ s ++ ")." ++ w) = .ok (.member e w)) := by
  constructor
  · rintro k rfl
    exact parse_keyword k
  · intro hkeyword
    let f : NameWord := ⟨w.toList, identifier?_of_isWord hw hkeyword⟩
    have hid : f.id = w := String.ofList_toList
    refine ⟨?_, fun s e h => ⟨?_, ?_⟩⟩
    · have hname := parse_name f
      rwa [hid] at hname
    · have hcall := parse_call f [⟨s, e, h⟩]
      rw [hid] at hcall
      simpa [Expr.callByName] using hcall
    · have hmember := parse_memberOf ⟨s, e, h⟩ f
      rw [hid] at hmember
      simpa [Sentence.inBrackets, String.append_assoc] using hmember

/-- A word with a keyword at its front is a name; the keyword alone is none. -/
theorem parse_word_order :
    (∃ place fault, parse "or" = .error (.invalidSyntax place fault)) ∧
      parse "None" = .ok (.literal .nothing) ∧
      parse "order" = .ok (.name "order") ∧
      parse "order(None)" = .ok (.call (.name "order") [.positional (.literal .nothing)]) ∧
      parse "(None).order" = .ok (.member (.literal .nothing) "order") := by
  have hnone : parse "None" = .ok (.literal .nothing) :=
    (parse_word (w := "None") (by decide)).1 .noneWord rfl
  have horder : ∀ k : Keyword, "order" ≠ k.spelling := by
    intro k
    cases k <;> decide
  obtain ⟨hname, hbehind⟩ := (parse_word (w := "order") (by decide)).2 horder
  obtain ⟨hcall, hmember⟩ := hbehind "None" _ hnone
  exact ⟨(parse_word (w := "or") (by decide)).1 .orWord rfl, hnone, hname, hcall, hmember⟩

end Calculator.Grammar
