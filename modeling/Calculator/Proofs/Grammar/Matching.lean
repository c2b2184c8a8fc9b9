import Calculator.Proofs.Grammar.Constructs
import Calculator.Proofs.Grammar.Tokenwise

/-!
# Texts of phrases

The text of a phrase is put together from the texts of its parts.  Only a part that begins with a
delimiter may stand directly behind another one; brackets, commas and colons are such parts, and
so is whatever stands behind white space.

Results:
* `Phrase.Matches.seq`, `Phrase.Matches.behind`, `Phrase.Matches.behindColon`: a phrase behind
  another one, behind a bracket or comma, and behind a colon.
* `Phrase.Matches.row`: any number of parts in a row.
* `matches_inside`, `matches_bracketed`: parts with commas between them, in brackets.
* `matches_expression_iff`: a text is parsed if and only if it is one of an expression.
-/

namespace Calculator.Grammar

/-! ## Delimiters in front of a text -/

theorem Ends.append {front tail : List Char} (hfront : Ends front) (htail : Ends tail) :
    Ends (front ++ tail) := by
  cases front with
  | nil => exact htail
  | cons c cs => exact ends_cons _ (hfront c cs rfl)

/-- A text behind a mark that begins with a delimiter. -/
theorem ends_mark {s : String} (hs : s.toList.head?.any isDelimiter = true) (x : String) :
    Ends (s ++ x).toList := by
  rw [String.toList_append]
  cases hchars : s.toList with
  | nil => rw [hchars] at hs; cases hs
  | cons c cs => rw [hchars] at hs; exact ends_cons _ hs

/-- White space. -/
structure Gap where
  text : String
  spacing : text.toList.all isSpacing = true

theorem Gap.ends (g : Gap) {tail : List Char} (h : Ends tail) : Ends (g.text.toList ++ tail) := by
  have hspacing := g.spacing
  cases hgap : g.text.toList with
  | nil => exact h
  | cons c rest =>
    rw [hgap, List.all_cons, Bool.and_eq_true] at hspacing
    exact ends_cons _ (isDelimiter_of_isSpacing hspacing.1)

/-- White space that is not empty. -/
structure Blank extends Gap where
  nonempty : text ≠ ""

theorem Blank.ends (b : Blank) (x : String) : Ends (b.text ++ x).toList := by
  refine ends_mark ?_ x
  have hspacing := b.spacing
  cases hchars : b.text.toList with
  | nil => exact absurd (String.toList_eq_nil_iff.mp hchars) b.nonempty
  | cons c cs =>
    rw [hchars, List.all_cons, Bool.and_eq_true] at hspacing
    exact isDelimiter_of_isSpacing hspacing.1

/-- A text that makes no `:=` of a colon in front of it. -/
def KeepsColon (x : String) : Prop := x.toList.head? ≠ some '='

theorem keepsColon_empty : KeepsColon "" := nofun

theorem keepsColon_colon (x : String) : KeepsColon (":" ++ x) := by
  rw [KeepsColon, String.toList_append]
  exact fun h => absurd (Option.some.inj h) (by decide)

theorem KeepsColon.append {x y : String} (hx : KeepsColon x) (hy : KeepsColon y) :
    KeepsColon (x ++ y) := by
  rw [KeepsColon, String.toList_append, List.head?_append]
  cases htext : x.toList with
  | nil => exact hy
  | cons c cs => rwa [KeepsColon, htext] at hx

theorem nextToken?_colon {x : String} (hx : KeepsColon x) :
    nextToken? (Symbol.colon.spelling ++ x.toList) = some (.symbol .colon, x.toList) := by
  refine nextToken?_symbol.mpr ⟨fun l => l.scan?_symbol (s := .colon) nofun _, rfl, fun y hy => ?_⟩
  obtain ⟨more, hmore⟩ := hy
  cases y with
  | colon => exact List.prefix_rfl
  | colonEqual =>
    have htail : x.toList = '=' :: more := (List.cons.inj hmore).2.symm
    exact absurd (congrArg List.head? htail) hx
  | _ => exact absurd (List.cons.inj hmore).1 (by decide)

/-! ## Phrases -/

/-- A text whose tokens are derived from a phrase, with the meanings of its parts. -/
def Phrase.Matches (p : Phrase) (text : String) (ms : List Meaning) : Prop :=
  ∃ ts, Lexed text.toList ts ∧ p.Derives ts ms

theorem matches_expression_iff {text : String} {e : Expr} :
    (Phrase.rule .expression).Matches text [.expr e] ↔ parse text = .ok e := by
  rw [parse_eq_ok_iff_derives]
  exact exists_congr fun ts => and_congr tokens?_eq_some.symm .rfl

/-- A mark that is a bracket or a comma. -/
def Separates (s : String) : Prop := ∃ y : Symbol, y.isSeparator = true ∧ y.spelling = s.toList

theorem Separates.ends {s : String} (hs : Separates s) : Ends s.toList := by
  obtain ⟨y, hy, hspelling⟩ := hs
  obtain ⟨hhead, hdelimiter⟩ := Symbol.isDelimiter_of_isSeparator hy
  rw [← hspelling, hhead]
  exact ends_cons [] hdelimiter

namespace Phrase.Matches

variable {p q : Phrase} {x y s : String} {ms ns : List Meaning}

theorem nothing : Phrase.nothing.Matches "" [] := ⟨[], .empty, .nothing⟩

theorem first (h : p.Matches x ms) : (either p q).Matches x ms := by
  obtain ⟨ts, hts, hderives⟩ := h
  exact ⟨ts, hts, .eitherFirst hderives⟩

theorem second (h : q.Matches x ms) : (either p q).Matches x ms := by
  obtain ⟨ts, hts, hderives⟩ := h
  exact ⟨ts, hts, .eitherSecond hderives⟩

theorem optional_none : (optional p).Matches "" [] := nothing.second

theorem rule {r : Rule} {m : Meaning} (h : r.body.Matches x ms)
    (hm : ∀ offset, Meaning.ofParts r offset ms = .ok m) : (Phrase.rule r).Matches x [m] := by
  obtain ⟨ts, hts, hderives⟩ := h
  exact ⟨ts, hts, .rule hderives hm⟩

/-- A phrase behind another one. -/
theorem seq (hp : p.Matches x ms) (hq : q.Matches y ns) (hends : Ends y.toList) :
    (Phrase.seq p q).Matches (x ++ y) (ms ++ ns) := by
  obtain ⟨ts, hts, hderives⟩ := hp
  obtain ⟨us, hus, hderives'⟩ := hq
  refine ⟨ts ++ us, ?_, .seq hderives hderives'⟩
  rw [String.toList_append]
  exact hts.append hends hus

theorem assoc {r : Phrase} (h : (Phrase.seq (.seq p q) r).Matches x ms) :
    (Phrase.seq p (.seq q r)).Matches x ms := by
  obtain ⟨ts, hts, hderives⟩ := h
  cases hderives with
  | seq hpq hr =>
    cases hpq with
    | seq hp hq =>
      rw [List.append_assoc] at hts ⊢
      exact ⟨_, hts, .seq hp (.seq hq hr)⟩

theorem behindGap (g : Gap) (h : p.Matches x ms) : p.Matches (g.text ++ x) ms := by
  obtain ⟨ts, hts, hderives⟩ := h
  refine ⟨ts, ?_, hderives⟩
  rw [String.toList_append]
  exact (Lexed.spacing_iff g.spacing).mpr hts

theorem beforeGap (g : Gap) (h : p.Matches x ms) : p.Matches (x ++ g.text) ms := by
  obtain ⟨ts, hts, hderives⟩ := h
  have hgap : Lexed (g.text.toList ++ []) [] := (Lexed.spacing_iff g.spacing).mpr .empty
  have hlexed := hts.append (g.ends ends_nil) hgap
  refine ⟨ts, ?_, hderives⟩
  rwa [List.append_nil, List.append_nil, ← String.toList_append] at hlexed

/-- A bracket or a comma. -/
theorem separator {symbol : Symbol} (hsymbol : symbol.isSeparator = true)
    (hs : symbol.spelling = s.toList) (hp : p.Derives [.symbol symbol] ms) : p.Matches s ms := by
  refine ⟨[.symbol symbol], ?_, hp⟩
  rw [← hs, ← List.append_nil symbol.spelling]
  exact Lexed.empty.separator hsymbol

/-- A phrase behind a bracket or a comma. -/
theorem behind {symbol : Symbol} (hsymbol : symbol.isSeparator = true)
    (hs : symbol.spelling = s.toList) (hp : p.Derives [.symbol symbol] ms) (hq : q.Matches x ns) :
    (Phrase.seq p q).Matches (s ++ x) (ms ++ ns) := by
  obtain ⟨ts, hts, hderives⟩ := hq
  refine ⟨[.symbol symbol] ++ ts, ?_, .seq hp hderives⟩
  rw [String.toList_append, ← hs]
  exact hts.separator hsymbol

theorem mark (hs : Separates s) : (Phrase.mark s).Matches s [] := by
  obtain ⟨symbol, hsymbol, hspelling⟩ := hs
  exact separator hsymbol hspelling (.mark (mem_symbols_mark.mpr hspelling))

theorem behindMark (hs : Separates s) (hq : q.Matches x ms) :
    (Phrase.seq (.mark s) q).Matches (s ++ x) ms := by
  obtain ⟨symbol, hsymbol, hspelling⟩ := hs
  exact hq.behind hsymbol hspelling (.mark (mem_symbols_mark.mpr hspelling))

/-- A phrase in front of a bracket or a comma. -/
theorem beforeMark (hs : Separates s) (hp : p.Matches x ms) :
    (Phrase.seq p (.mark s)).Matches (x ++ s) ms := by
  have hmatches := hp.seq (.mark hs) hs.ends
  rwa [List.append_nil] at hmatches

/-- A phrase behind a colon. -/
theorem behindColon (hx : KeepsColon x) (hq : q.Matches x ms) :
    (Phrase.seq (.mark ":") q).Matches (":" ++ x) ms := by
  obtain ⟨ts, hts, hderives⟩ := hq
  have hmark : (Phrase.mark ":").Derives [.symbol .colon] [] :=
    .mark (mem_symbols_mark.mpr rfl)
  refine ⟨[.symbol .colon] ++ ts, ?_, .seq hmark hderives⟩
  rw [String.toList_append]
  exact .of_next (nextToken?_colon hx) hts

/-- Any number of parts in a row, each of which begins with a delimiter. -/
theorem row {α : Type} {text : α → String} {meanings : α → List Meaning}
    (hp : ∀ a, p.Matches (text a) (meanings a)) (hends : ∀ a x, Ends (text a ++ x).toList)
    (as : List α) :
    (many p).Matches (String.join (as.map text)) (as.flatMap meanings) ∧
      Ends (String.join (as.map text)).toList := by
  induction as with
  | nil => exact ⟨⟨[], .empty, .manyStop⟩, ends_nil⟩
  | cons a as ih =>
    rw [List.map_cons, String.join_cons, List.flatMap_cons]
    obtain ⟨⟨us, hus, hmany⟩, hrow⟩ := ih
    obtain ⟨ts, hts, hderives⟩ := hp a
    refine ⟨⟨ts ++ us, ?_, .manyMore hderives hmany⟩, hends a _⟩
    rw [String.toList_append]
    exact hts.append hrow hus

end Phrase.Matches

/-! ## Parts with commas between them -/

/-- Texts with commas between them and, if there are any, possibly one behind the last. -/
def listed (texts : List String) (trailing : Bool) : String :=
  ",".intercalate texts ++ if trailing && !texts.isEmpty then "," else ""

theorem intercalate_comma (x : String) (xs : List String) :
    ",".intercalate (x :: xs) = x ++ String.join (xs.map ("," ++ ·)) := by
  induction xs generalizing x with
  | nil => rw [String.intercalate_singleton, List.map_nil, String.join_nil, String.append_empty]
  | cons y ys ih =>
    rw [String.intercalate_cons_cons, ih y, List.map_cons, String.join_cons, String.append_assoc,
      String.append_assoc]

/-- What stands behind the first of some texts with commas between them. -/
def listedBehind (texts : List String) (trailing : Bool) : String :=
  String.join (texts.map ("," ++ ·)) ++ if trailing then "," else ""

theorem listed_cons (x : String) (xs : List String) (trailing : Bool) :
    listed (x :: xs) trailing = x ++ listedBehind xs trailing := by
  rw [listed, intercalate_comma, String.append_assoc, List.isEmpty_cons, Bool.not_false,
    Bool.and_true, listedBehind]

theorem listed_false (texts : List String) : listed texts false = ",".intercalate texts :=
  String.append_empty

/-- One text with a comma behind it, in front of more text. -/
theorem listed_single_append (x y : String) : listed [x] true ++ y = x ++ ("," ++ y) := by
  rw [listed, String.intercalate_singleton, String.append_assoc]
  rfl

theorem derives_comma : (Phrase.rule .comma).Derives [.symbol .comma] [.separator] :=
  .rule (.sign (by decide)) fun _ => rfl

section Listed

variable {α : Type} {part comma : Phrase} {sep : List Meaning} {text : α → String}
  {meaning : α → Meaning}

/-- Parts behind commas, possibly with one more comma behind the last. -/
theorem matches_listedBehind (hcomma : comma.Derives [.symbol .comma] sep)
    (hpart : ∀ a, part.Matches (text a) [meaning a]) (as : List α) (trailing : Bool) :
    (Phrase.seq (.many (.seq comma part)) (Phrase.optional comma)).Matches
        (listedBehind (as.map text) trailing)
        (joined sep (as.map meaning) ++ if trailing then sep else []) ∧
      Ends (listedBehind (as.map text) trailing).toList := by
  have hlast : (Phrase.optional comma).Matches (if trailing then "," else "")
      (if trailing then sep else []) ∧ Ends (if trailing then "," else "").toList := by
    cases trailing with
    | true => exact ⟨.first (.separator rfl rfl hcomma), ends_cons [] rfl⟩
    | false => exact ⟨.optional_none, ends_nil⟩
  obtain ⟨hrow, hends⟩ := Phrase.Matches.row (p := .seq comma part)
    (fun a => (hpart a).behind (s := ",") rfl rfl hcomma)
    (fun a x => by rw [String.append_assoc]; exact ends_mark rfl _) as
  rw [listedBehind, List.map_map, String.toList_append, joined, List.flatMap_map]
  exact ⟨hrow.seq hlast.1 hlast.2, hends.append hlast.2⟩

/-- What stands between two brackets, if commas are kept. -/
theorem matches_inside (hcomma : comma.Derives [.symbol .comma] sep)
    (hpart : ∀ a, part.Matches (text a) [meaning a]) (a : α) (as : List α) (trailing : Bool) :
    (inside part comma).Matches (listed ((a :: as).map text) trailing)
      (meaning a :: (joined sep (as.map meaning) ++ if trailing then sep else [])) := by
  obtain ⟨hmore, hends⟩ := matches_listedBehind hcomma hpart as trailing
  rw [List.map_cons, listed_cons]
  exact ((hpart a).seq hmore.second hends).first

/-- What stands between two brackets, if commas are not kept. -/
theorem matches_inside_mark (hpart : ∀ a, part.Matches (text a) [meaning a]) (as : List α)
    (trailing : Bool) :
    (inside part (.mark ",")).Matches (listed (as.map text) trailing) (as.map meaning) := by
  cases as with
  | nil => cases trailing <;> exact .optional_none
  | cons a as =>
    have hcomma : (Phrase.mark ",").Derives [.symbol .comma] [] := .mark (by decide)
    have hmatches := matches_inside hcomma hpart a as trailing
    rw [joined_nil, ite_self, List.append_nil] at hmatches
    exact hmatches

end Listed

/-- What stands between two brackets. -/
theorem matches_bracketed {opening closing x : String} {part comma : Phrase} {ms : List Meaning}
    (hopening : Separates opening) (hclosing : Separates closing)
    (h : (inside part comma).Matches x ms) :
    (bracketed opening part comma closing).Matches (opening ++ x ++ closing) ms := by
  have hmatches := (h.beforeMark hclosing).behindMark hopening
  rw [← String.append_assoc] at hmatches
  exact hmatches

end Calculator.Grammar
