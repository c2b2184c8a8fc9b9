import Calculator.Proofs.Grammar.Spacing

/-!
# Sentences of the grammar

The recognizer accepts a text if and only if its tokens are a sentence, whether or not the tree has
a meaning.

Results:
* `Phrase.Generates.yields`: a phrase takes the tokens that it describes.
* `Phrase.Generates.unjoined`: in a sentence no symbol is read together with what comes behind it.
* `Phrase.hasSentence`: each phrase of the grammar describes some tokens that can be written out.
* `exists_recognize`: a text whose tokens are a sentence is recognized.
-/

namespace Calculator.Grammar

namespace Phrase.Generates

variable {p : Phrase} {ts us : List Token} {next : List Ahead}

/-- The tokens of a phrase are read by it, wherever something stands behind them that can follow
    the phrase. -/
theorem yields (h : p.Generates ts) (hp : p.predictive next = true) (hnext : ahead us ∈ next)
    {c : Cursor} (hc : c.Before (ts ++ us)) :
    ∃ parts last, p.Yields c (.fits parts last) ∧ last.Before us := by
  induction h generalizing us next c with
  | nothing => exact ⟨[], c, .terminal rfl, hc⟩
  | atEnd => cases hp
  | lexeme =>
    obtain ⟨last, hyields, hlast⟩ := yields_lexeme hc
    exact ⟨_, last, hyields, hlast⟩
  | mark hy =>
    obtain ⟨last, hyields, hlast⟩ := yields_mark (mem_symbols_mark.mp hy) hc
    exact ⟨_, last, hyields, hlast⟩
  | sign hy =>
    rw [predictive, apart, Bool.and_eq_true] at hp
    obtain ⟨last, hyields, hlast⟩ := yields_sign hp.1 hy hc
    exact ⟨_, last, hyields, hlast⟩
  | @notNext s => exact ⟨[], c, yields_notNext hp hnext hc, hc⟩
  | @rule r _ _ ih =>
    obtain ⟨next', hnext', hbody, -⟩ := exists_predictive_body hp hnext
    obtain ⟨parts, last, hyields, hlast⟩ := ih hbody hnext' hc
    exact ⟨_, last, .ruleFits hyields, hlast⟩
  | seq _ hq ihp ihq =>
    rw [predictive, Bool.and_eq_true] at hp
    rw [List.append_assoc] at hc
    obtain ⟨parts, mid, hyields, hmid⟩ := ihp hp.1 (hq.ahead_mem hp.2 hnext) hc
    obtain ⟨more, last, hyields', hlast⟩ := ihq hp.2 hnext hmid
    exact ⟨_, last, .seq hyields hyields', hlast⟩
  | eitherFirst _ ih =>
    rw [predictive, Bool.and_eq_true, Bool.and_eq_true] at hp
    obtain ⟨parts, last, hyields, hlast⟩ := ih hp.1.1 hnext hc
    exact ⟨parts, last, .eitherFirst hyields, hlast⟩
  | eitherSecond hq ih =>
    rw [predictive, Bool.and_eq_true, Bool.and_eq_true] at hp
    -- the first alternative is refused by what the second one begins with
    have hfails := yields_fails_of_refuses hc
      (List.all_eq_true.mp hp.2 _ (hq.ahead_mem hp.1.2 hnext))
    obtain ⟨parts, last, hyields, hlast⟩ := ih hp.1.2 hnext hc
    exact ⟨parts, last, .eitherSecond hfails hyields, hlast⟩
  | manyStop =>
    have hfails := yields_fails_of_refuses hc ((predictive_many hp).2.2 _ hnext)
    exact ⟨[], c, .manyStop hfails, hc⟩
  | manyMore _ hmany ihp ihmany =>
    rw [List.append_assoc] at hc
    obtain ⟨parts, mid, hyields, hmid⟩ :=
      ihp (predictive_many hp).1 (hmany.ahead_mem hp hnext) hc
    obtain ⟨more, last, hyields', hlast⟩ := ihmany hp hnext hmid
    exact ⟨_, last, .manyMore hyields hyields', hlast⟩

end Phrase.Generates

/-! ## Symbols in a sentence -/

/-- No symbol among some tokens is read together with what comes behind it. -/
def Unjoined : List Token → Prop
  | [] => True
  | .symbol y :: ts => y.joins (ahead ts) = false ∧ Unjoined ts
  | .lexeme _ _ :: ts => Unjoined ts

/-- In a sentence no symbol is read together with what comes behind it. -/
theorem Phrase.Generates.unjoined {p : Phrase} {ts us : List Token} {next : List Ahead}
    (h : p.Generates ts) (hp : p.predictive next = true) (hnext : ahead us ∈ next)
    (hus : Unjoined us) : Unjoined (ts ++ us) := by
  induction h generalizing us next with
  | nothing | atEnd | notNext | manyStop => exact hus
  | lexeme => exact hus
  | mark hy => exact ⟨joins_of_apart hp hy hnext, hus⟩
  | sign hy => exact ⟨joins_of_apart hp hy hnext, hus⟩
  | rule _ ih =>
    obtain ⟨next', hnext', hbody, -⟩ := exists_predictive_body hp hnext
    exact ih hbody hnext' hus
  | seq _ hq ihp ihq =>
    rw [predictive, Bool.and_eq_true] at hp
    rw [List.append_assoc]
    exact ihp hp.1 (hq.ahead_mem hp.2 hnext) (ihq hp.2 hnext hus)
  | eitherFirst _ ih =>
    rw [predictive, Bool.and_eq_true, Bool.and_eq_true] at hp
    exact ih hp.1.1 hnext hus
  | eitherSecond _ ih =>
    rw [predictive, Bool.and_eq_true, Bool.and_eq_true] at hp
    exact ih hp.1.2 hnext hus
  | manyMore _ hmany ihp ihmany =>
    rw [List.append_assoc]
    exact ihp (predictive_many hp).1 (hmany.ahead_mem hp hnext) (ihmany hp hnext hus)

/-! ## Every phrase describes something -/

namespace Phrase

/-- Whether all marks and signs in a phrase are symbols. -/
def isWritable : Phrase → Bool
  | mark s => isSpelling s
  | sign ss => !ss.isEmpty && ss.all isSpelling
  | seq p q | either p q => p.isWritable && q.isWritable
  | many p => p.isWritable
  | _ => true

/-- Whether a phrase describes something if some rules do. -/
def isProductive (known : Rule → Bool) : Phrase → Bool
  | mark s => isSpelling s
  | sign ss => ss.any isSpelling
  | rule r => known r
  | seq p q => p.isProductive known && q.isProductive known
  | either p q => p.isProductive known || q.isProductive known
  | _ => true

theorem isProductive_of_isWritable {p : Phrase} (h : p.isWritable = true) :
    p.isProductive (fun _ => true) = true := by
  induction p with
  | sign ss =>
    cases ss with
    | nil => cases h
    | cons s ss =>
      simp only [isWritable, List.all_cons, Bool.and_eq_true] at h
      simp [isProductive, h.2.1]
  | seq p q ihp ihq | either p q ihp ihq =>
    simp only [isWritable, Bool.and_eq_true] at h
    simp [isProductive, ihp h.1, ihq h.2]
  | _ => first | exact h | rfl

end Phrase

theorem Rule.isWritable_body (r : Rule) : r.body.isWritable = true := by
  cases r <;> decide

/-- How many rules are nested in a sentence of a rule. -/
def Rule.height : Rule → Nat
  | primary | parameters | targets | member | indexItem => 1
  | power | subscript => 2
  | factor => 3
  | product => 4
  | sum => 5
  | shift => 6
  | bitAnd => 7
  | bitXor => 8
  | bitOr => 9
  | comparison => 10
  | negation => 11
  | conjunction => 12
  | disjunction => 13
  | conditional | clause | condition => 14
  | expression => 15
  | lambda | sliceUpper | sliceStep | keywordArgument | keywordUnpacking | braceItem | starred
  | assignment => 16
  | _ => 0

theorem Rule.isProductive_body (r : Rule) :
    r.body.isProductive (fun r' => decide (r'.height < r.height)) = true := by
  cases r <;> decide

/-- There is a lexeme of each kind. -/
theorem Lexeme.exists_scan? (l : Lexeme) : ∃ cs, l.scan? cs = some ⟨cs, []⟩ := by
  cases l with
  | keyword k => exact ⟨k.spelling.toList, by cases k <;> rfl⟩
  | identifier => exact ⟨['x'], rfl⟩
  | number => exact ⟨['0'], rfl⟩
  | imaginary => exact ⟨['0', 'j'], rfl⟩
  | string => exact ⟨['\'', '\''], rfl⟩

/-- A phrase describes tokens that can be written out. -/
def Phrase.HasSentence (p : Phrase) : Prop := ∃ ts, p.Generates ts ∧ ∀ t ∈ ts, t.Whole

theorem Phrase.hasSentence_of_isProductive {known : Rule → Bool}
    (hknown : ∀ r, known r = true → (Phrase.rule r).HasSentence) {p : Phrase}
    (h : p.isProductive known = true) : p.HasSentence := by
  have hsymbol : ∀ y : Symbol, ∀ t ∈ [Token.symbol y], t.Whole := by
    simp [Token.Whole]
  induction p with
  | nothing => exact ⟨[], .nothing, nofun⟩
  | atEnd => exact ⟨[], .atEnd, nofun⟩
  | notNext s => exact ⟨[], .notNext, nofun⟩
  | many p => exact ⟨[], .manyStop, nofun⟩
  | lexeme l =>
    obtain ⟨cs, hcs⟩ := l.exists_scan?
    exact ⟨[.lexeme l cs], .lexeme, by simpa [Token.Whole] using hcs⟩
  | mark s =>
    obtain ⟨y, hy⟩ := isSpelling_iff.mp h
    exact ⟨[.symbol y], .mark (mem_symbols_mark.mpr hy), hsymbol y⟩
  | sign ss =>
    obtain ⟨s, hs, hspelling⟩ := List.any_eq_true.mp h
    obtain ⟨y, hy⟩ := isSpelling_iff.mp hspelling
    exact ⟨[.symbol y], .sign (mem_symbols_sign.mpr ⟨s, hs, hy⟩), hsymbol y⟩
  | rule r => exact hknown r h
  | seq p q ihp ihq =>
    rw [isProductive, Bool.and_eq_true] at h
    obtain ⟨ts, hts, hwhole⟩ := ihp h.1
    obtain ⟨us, hus, hwhole'⟩ := ihq h.2
    exact ⟨ts ++ us, .seq hts hus, List.forall_mem_append.mpr ⟨hwhole, hwhole'⟩⟩
  | either p q ihp ihq =>
    rw [isProductive, Bool.or_eq_true] at h
    rcases h with h | h
    · obtain ⟨ts, hts, hwhole⟩ := ihp h
      exact ⟨ts, .eitherFirst hts, hwhole⟩
    · obtain ⟨ts, hts, hwhole⟩ := ihq h
      exact ⟨ts, .eitherSecond hts, hwhole⟩

theorem Rule.hasSentence (r : Rule) : (Phrase.rule r).HasSentence := by
  induction hheight : r.height using Nat.strongRecOn generalizing r with
  | ind n ih =>
    subst hheight
    obtain ⟨ts, hts, hwhole⟩ := Phrase.hasSentence_of_isProductive
      (fun r' hr' => ih r'.height (of_decide_eq_true hr') r' rfl) r.isProductive_body
    exact ⟨ts, .rule hts, hwhole⟩

/-- A phrase whose marks and signs are symbols describes some tokens. -/
theorem Phrase.hasSentence {p : Phrase} (h : p.isWritable = true) : p.HasSentence :=
  hasSentence_of_isProductive (fun r _ => r.hasSentence) (isProductive_of_isWritable h)

/-! ## Recognizing sentences -/

/-- A text whose tokens are a sentence is recognized. -/
theorem exists_recognize {text : List Char} {ts : List Token}
    (h : (Phrase.rule .expression).Generates ts) (htext : Lexed text ts) :
    ∃ tree, recognize text = .ok tree := by
  have hstart := Cursor.Before.start htext
  rw [← List.append_nil ts] at hstart
  obtain ⟨parts, last, hyields, hlast⟩ := h.yields predictive_expression
    (List.mem_singleton_self (ahead [])) hstart
  cases hyields with
  | terminal hterminal => cases hterminal
  | ruleFits hbody => exact ⟨_, recognize_eq_ok.mpr ⟨last, .ruleFits hbody, hlast.rest_eq_nil⟩⟩

end Calculator.Grammar
