import Calculator.Proofs.Decimal.Shortest
import Calculator.Proofs.Decimal.Written
import Calculator.Proofs.Evaluation.Steps
import Calculator.Proofs.Grammar.Composition

/-!
# Results read back

The text of a value is a numeral or the name of infinity, with a minus sign in front of it if the
value is negative.  As an expression it has that very value.

Results:
* `Operand.evaluateText`, `Operand.evaluateText_neg`: the value of a single word, and of a minus
  sign in front of it.
* `evaluateText_resultText`: the text of a value other than the NaN has that value.
-/

namespace Calculator

open Binary64 Decimal Grammar

/-! ## Single words -/

/-- A text of one lexeme, as an operand with a value. -/
structure Operand (text : List Char) (x : Float) where
  lexeme : Lexeme
  expr : Expr
  scanned : lexeme.scan? text = some ⟨text, []⟩
  derives : (Phrase.rule .factor).Derives [.lexeme lexeme text] [.expr expr]
  evaluated : evaluate .standard expr = .ok (.ofFloat x)

namespace Operand

variable {text : List Char} {x : Float}

theorem lexed (h : Operand text x) : Lexed text [.lexeme h.lexeme text] := .lexeme h.scanned

/-- A word by itself. -/
theorem evaluateText (h : Operand text x) :
    Calculator.evaluateText (String.ofList text) = .ok (.ofFloat x) := by
  obtain ⟨m, rfl, hderives⟩ :=
    Level.derives_of_le (ℓ := .expression) (Level.means_expr .factor _) h.derives (by decide)
  have hparse : parse (String.ofList text) = .ok h.expr :=
    parse_of_derives (by rw [String.toList_ofList]; exact h.lexed) hderives
  rw [Calculator.evaluateText, hparse]
  exact h.evaluated

/-- A word with a minus sign in front of it. -/
theorem evaluateText_neg (h : Operand text x) (hx : (-x).isNaN = false) :
    Calculator.evaluateText (String.ofList ('-' :: text)) = .ok (.ofFloat (-x)) := by
  have hjoins : Symbol.minus.joins (ahead [.lexeme h.lexeme text]) = false := by
    rw [Symbol.joins, ahead, Token.ahead, Lexeme.symbol?_ahead]
    rfl
  have hlexed : Lexed ('-' :: text) [.symbol .minus, .lexeme h.lexeme text] :=
    .of_next (nextToken?_of_not_joins h.lexed hjoins) h.lexed
  have hparse : parse (String.ofList ('-' :: text)) = .ok (.unary .negate h.expr) :=
    parse_of_derives (by rw [String.toList_ofList]; exact hlexed) (derives_unary .negate h.derives)
  have hneg : Value.neg (.ofFloat x) = .ofFloat (-x) := by
    simp only [Value.neg, Value.withNaNSign, Value.ofFloat, hx, Bool.false_and]
  rw [Calculator.evaluateText, hparse]
  show evaluate .standard (.unary .negate h.expr) = _
  rw [evaluate_signed rfl, h.evaluated]
  show Except.ok (Value.neg (.ofFloat x)) = _
  rw [hneg]

/-- A numeral. -/
def number (h : number? text = some ⟨text, []⟩) : Operand text (Numeral.value text) where
  lexeme := .number
  expr := .literal (.number (Numeral.value text))
  scanned := h
  derives := derives_of_atom (derives_number text) .factor
  evaluated := evaluate_number .standard _

/-- The name of infinity. -/
def infinity : Operand ['i', 'n', 'f'] Binary64.infinity where
  lexeme := .identifier
  expr := .name "inf"
  scanned := by rfl
  derives := by
    have hname : Grammar.atom.Derives [.lexeme .identifier ['i', 'n', 'f']] [.name "inf"] :=
      derives_name (.rule .lexeme fun _ => rfl)
    obtain ⟨m, rfl, hderives⟩ :=
      Level.derives_of_le (ℓ := .factor) (k := .atom) (m := .name "inf") (e := .name "inf")
        rfl hname (by decide)
    exact hderives
  evaluated := evaluate_constant rfl

end Operand

/-! ## The text of a value -/

/-- The text of a value is that of its magnitude, with a minus sign if it is negative. -/
theorem exists_operand {x : Float} (h : x.isNaN = false) : ∃ (negative : Bool) (text : List Char)
    (y : Float), Nonempty (Operand text y) ∧ Layout.result.text x = signed negative text ∧
      x = if negative then -y else y := by
  rw [isNaN_eq] at h
  unfold Layout.text
  cases hd : datum x with
  | nan =>
    rw [hd] at h
    cases h
  | infinity negative =>
    refine ⟨negative, _, _, ⟨Operand.infinity⟩, rfl, datum_injective ?_⟩
    rw [hd, infinity_eq]
    cases negative <;> rfl
  | finite negative m k =>
    have hc := canonical_of_datum hd
    refine ⟨negative, _, _, ⟨.number (number?_magnitude _)⟩, rfl, datum_injective ?_⟩
    have hvalue : Numeral.value (Layout.result.magnitude (if m = 0 then ⟨0, 0⟩ else shortest m k)) =
        ofDatum (.finite false m k) := by
      rw [value_magnitude, ofMagnitude]
      split_ifs with hm
      · have hk : k = -1074 := by
          have := hc.normal
          omega
        rw [hm, hk, Nat.cast_zero, zero_mul, nearestDatum_zero]
      · rw [nearestDatum_of_cell hc (Nat.pos_of_ne_zero hm)
          (shortest_cell hc (Nat.pos_of_ne_zero hm))]
    have hmagnitude : datum (ofDatum (.finite false m k)) = .finite false m k := datum_ofDatum hc
    rw [hvalue, hd]
    cases negative with
    | false => exact hmagnitude.symm
    | true =>
      show _ = datum (-_)
      rw [datum_neg, hmagnitude]
      rfl

/-- The text of a value other than the NaN has that value. -/
theorem evaluateText_resultText {x : Float} (h : x.isNaN = false) :
    evaluateText (resultText x) = .ok (.ofFloat x) := by
  obtain ⟨negative, text, y, ⟨hoperand⟩, htext, hx⟩ := exists_operand h
  rw [resultText, htext]
  cases negative with
  | false =>
    rw [hx]
    exact hoperand.evaluateText
  | true =>
    rw [hx] at h ⊢
    exact hoperand.evaluateText_neg h

end Calculator
