import Calculator.Whitelist
import Calculator.Proofs.Binary64.Number

/-!
# Computations on machine words

The functions of the calculator compute with natural numbers and integers that have no bounds.  On
a machine these are words, and an operation on words, a division, an index into a list or a
conversion can fail.  A checked computation makes every such operation on words of a given width
and faults where the operation does; a call that is refused is an answer and no fault.

Results:
* `exactly_eq_ok`: a conversion that succeeds has given the very number that was converted.
* `natural_eq`, `magnitude_eq`: the conversions of arguments, behind their guards, never fault.
* `number?_of_natural`, `number?_of_magnitude`: what they give is the number of the argument.
* `implements_unary`, `implements_binary`: nor does reading arguments by their places, once they
  have been counted.
-/

namespace Calculator

open Binary64

/-- What goes wrong in a computation on words and lists. -/
inductive Fault where
  | indexOutOfRange
  | overflow
  | divisionByZero
  | inexactConversion
  | depthExceeded
deriving DecidableEq

/-- Why a checked computation has no result. -/
inductive Stop where
  | refused (error : CallError)
  | fault (fault : Fault)

/-- A computation on words. -/
abbrev Checked := Except Stop

namespace Checked

variable {α β : Type}

/-- A result that faults unless a condition holds. -/
def require (fault : Fault) (condition : Prop) [Decidable condition] (result : α) : Checked α :=
  if condition then .ok result else .error (.fault fault)

/-- The answer to a call, as a computation. -/
def answer (x : Except CallError α) : Checked α := x.mapError .refused

@[simp]
theorem ok_bind (a : α) (f : α → Checked β) : (.ok a >>= f) = f a := rfl

@[simp]
theorem answer_ok (a : α) : answer (.ok a) = .ok a := rfl

theorem answer_bind (x : Except CallError α) (f : α → Except CallError β) :
    answer (x >>= f) = answer x >>= fun a => answer (f a) := by
  cases x <;> rfl

/-- An answer is no fault. -/
theorem answer_ne_fault (x : Except CallError α) (fault : Fault) :
    answer x ≠ .error (.fault fault) := by
  cases x <;> nofun

theorem mapM_answer {f : α → Checked β} {g : α → Except CallError β}
    (h : ∀ a, f a = answer (g a)) (xs : List α) : xs.mapM f = answer (xs.mapM g) := by
  induction xs with
  | nil => rfl
  | cons x xs ih =>
    rw [List.mapM_cons, List.mapM_cons, h, ih, answer_bind]
    congr 1
    funext b
    rw [answer_bind]
    rfl

/-! ## Operations -/

/-- A sum of words of `w` bits. -/
def add (w a b : ℕ) : Checked ℕ := require .overflow (a + b < 2 ^ w) (a + b)

/-- A difference of words. -/
def sub (a b : ℕ) : Checked ℕ := require .overflow (b ≤ a) (a - b)

/-- A product of words of `w` bits. -/
def mul (w a b : ℕ) : Checked ℕ := require .overflow (a * b < 2 ^ w) (a * b)

/-- A product of words of `w` bits, if it is one. -/
def mul? (w a b : ℕ) : Option ℕ := if a * b < 2 ^ w then some (a * b) else none

/-- A quotient of words. -/
def div (a b : ℕ) : Checked ℕ := require .divisionByZero (b ≠ 0) (a / b)

/-- The remainder of a division of words. -/
def mod (a b : ℕ) : Checked ℕ := require .divisionByZero (b ≠ 0) (a % b)

/-- An integer as a word of `w` bits with a sign. -/
def signed (w : ℕ) (a : ℤ) : Checked ℤ :=
  require .overflow (-2 ^ (w - 1) ≤ a ∧ a < 2 ^ (w - 1)) a

/-- The item of a list at a place. -/
def item (xs : List α) (i : ℕ) : Checked α :=
  match xs[i]? with
  | some x => .ok x
  | none => .error (.fault .indexOutOfRange)

/-- The items of a list from a place on. -/
def itemsFrom (xs : List α) (i : ℕ) : Checked (List α) :=
  require .indexOutOfRange (i ≤ xs.length) (xs.drop i)

variable {w a b i : ℕ} {xs : List α}

theorem add_ok (h : a + b < 2 ^ w) : add w a b = .ok (a + b) := if_pos h

theorem sub_ok (h : b ≤ a) : sub a b = .ok (a - b) := if_pos h

theorem mul_ok (h : a * b < 2 ^ w) : mul w a b = .ok (a * b) := if_pos h

theorem div_ok (h : b ≠ 0) : div a b = .ok (a / b) := if_pos h

theorem mod_ok (h : b ≠ 0) : mod a b = .ok (a % b) := if_pos h

theorem signed_ok {n : ℤ} (h : -2 ^ (w - 1) ≤ n ∧ n < 2 ^ (w - 1)) : signed w n = .ok n := if_pos h

theorem eq_of_require {fault : Fault} {condition : Prop} [Decidable condition] {x y : α}
    (h : require fault condition x = .ok y) : condition ∧ y = x := by
  unfold require at h
  split_ifs at h with hc
  exact ⟨hc, (Except.ok.inj h).symm⟩

/-! ## Conversions -/

/-- The number that a value is, as a word of `w` bits. -/
def exactly (w : ℕ) (x : Float) : Checked ℕ :=
  require .inexactConversion (number? x = some (wholePart x : ℚ) ∧ wholePart x < 2 ^ w)
    (wholePart x)

/-- The word of `w` bits that is nearest to a value on the side of zero, 0 for a NaN. -/
def saturated (w : ℕ) (x : Float) : ℕ :=
  match datum x with
  | .nan => 0
  | .infinity negative => if negative then 0 else 2 ^ w - 1
  | .finite negative _ _ => if negative then 0 else min (wholePart x) (2 ^ w - 1)

/-- The word of `w` bits with a sign that is nearest to a value on the side of zero, 0 for a NaN. -/
def saturatedSigned (w : ℕ) (x : Float) : ℤ :=
  match datum x with
  | .nan => 0
  | .infinity negative => if negative then -2 ^ (w - 1) else 2 ^ (w - 1) - 1
  | .finite .. => max (-2 ^ (w - 1)) (min (2 ^ (w - 1) - 1) (toInt x))

/-- A conversion succeeds for the natural numbers among the values, and gives the very number. -/
theorem exactly_eq_ok {x : Float} {n : ℕ} :
    exactly w x = .ok n ↔ number? x = some (n : ℚ) ∧ n < 2 ^ w := by
  refine ⟨fun h => ?_, fun ⟨hnumber, hn⟩ => ?_⟩
  · obtain ⟨hc, rfl⟩ := eq_of_require h
    exact hc
  · have hwhole : wholePart x = n := by
      obtain ⟨negative, m, k, hd, hvalue⟩ := exists_datum hnumber
      have hmagnitude : (m * 2 ^ k : ℚ) = n := by
        have hpos := magnitude_nonneg m k
        have hn := Nat.cast_nonneg (α := ℚ) n
        unfold signedNumber at hvalue
        split_ifs at hvalue <;> linarith
      rw [wholePart_eq_floor hd, hmagnitude, Nat.floor_natCast]
    rw [exactly, hwhole]
    exact if_pos ⟨hnumber, hn⟩

/-! ## Arguments -/

/-- An argument that has to be an integer. -/
def requireIntegral (name : String) (x : Float) : Checked Float :=
  if isIntegral x then .ok x else .error (.refused (.notIntegral name x))

/-- An argument from 0 to below `2^64`. -/
def natural (name : String) (x : Float) : Checked ℕ := do
  let x ← requireIntegral name x
  if x < 0.0 then .error (.refused (.domain name .negative))
  else if 1 <<< 64 ≤ wholePart x then .error (.refused (.domain name .argumentTooLarge))
  else exactly 64 x

/-- The magnitude of an argument, below `2^128`. -/
def magnitude (name : String) (x : Float) : Checked ℕ := do
  let x ← requireIntegral name x
  if 1 <<< 128 ≤ wholePart x.abs then .error (.refused (.domain name .argumentTooLarge))
  else exactly 128 x.abs

/-- Behind its guards the conversion of an argument to a word of 64 bits succeeds. -/
theorem natural_eq (name : String) (x : Float) :
    natural name x = answer (Function.natural name x) := by
  unfold natural requireIntegral Function.natural
  by_cases hx : isIntegral x = true
  · have hnumber := number?_of_isIntegral hx
    simp only [hx, if_true, ok_bind, Bool.not_true, Bool.false_eq_true, if_false]
    split_ifs with hnegative hlarge
    · rfl
    · rfl
    · rw [lt_iff_number hnumber number?_zero] at hnegative
      have htoInt : toInt x = wholePart x := by
        have hnonneg : 0 ≤ toInt x := by exact_mod_cast not_lt.mp hnegative
        unfold toInt at hnonneg ⊢
        split_ifs at hnonneg ⊢ <;> omega
      rw [htoInt] at hnumber
      rw [Nat.one_shiftLeft, not_le] at hlarge
      rw [answer_ok, exactly_eq_ok]
      exact ⟨by exact_mod_cast hnumber, hlarge⟩
  · simp only [hx, Bool.not_false, if_true]
    rfl

/-- Behind its guards the conversion of a magnitude to a word of 128 bits succeeds. -/
theorem magnitude_eq (name : String) (x : Float) :
    magnitude name x = answer (Function.magnitude name x) := by
  unfold magnitude requireIntegral Function.magnitude
  by_cases hx : isIntegral x = true
  · obtain ⟨negative, m, k, hd, -⟩ := exists_datum (number?_of_isIntegral hx)
    have habs : datum x.abs = .finite false m k := by
      rw [datum_abs, hd]
      rfl
    have hwhole : wholePart x.abs = wholePart x := by
      rw [wholePart_eq_floor habs, wholePart_eq_floor hd]
    simp only [hx, if_true, ok_bind, Bool.not_true, Bool.false_eq_true, if_false, hwhole]
    split_ifs with hlarge
    · rfl
    · rw [Nat.one_shiftLeft, not_le] at hlarge
      rw [answer_ok, exactly_eq_ok, number?_of_datum habs, signedNumber, if_neg (by decide),
        magnitude_eq_wholePart hd hx]
      exact ⟨rfl, hlarge⟩
  · simp only [hx, Bool.not_false, if_true]
    rfl

/-- An argument that is converted to a natural number is that number, and a word of 64 bits. -/
theorem number?_of_natural {name : String} {x : Float} {n : ℕ}
    (h : Function.natural name x = .ok n) : number? x = some (n : ℚ) ∧ n < 2 ^ 64 := by
  have hnatural : natural name x = .ok n := by rw [natural_eq, h, answer_ok]
  unfold natural requireIntegral at hnatural
  by_cases hx : isIntegral x = true
  · simp only [hx, if_true, ok_bind] at hnatural
    split_ifs at hnatural
    exact exactly_eq_ok.mp hnatural
  · rw [if_neg hx] at hnatural
    cases hnatural

/-- An argument whose magnitude is converted to a natural number has that magnitude, a word of 128
    bits. -/
theorem number?_of_magnitude {name : String} {x : Float} {n : ℕ}
    (h : Function.magnitude name x = .ok n) : number? x.abs = some (n : ℚ) ∧ n < 2 ^ 128 := by
  have hmagnitude : magnitude name x = .ok n := by rw [magnitude_eq, h, answer_ok]
  unfold magnitude requireIntegral at hmagnitude
  by_cases hx : isIntegral x = true
  · simp only [hx, if_true, ok_bind] at hmagnitude
    split_ifs at hmagnitude
    exact exactly_eq_ok.mp hmagnitude
  · rw [if_neg hx] at hmagnitude
    cases hmagnitude

/-- What goes on with a natural argument. -/
theorem natural_bind {name : String} {x : Float} {f : ℕ → Checked α} {g : ℕ → Except CallError α}
    (h : ∀ n < 2 ^ 64, f n = answer (g n)) :
    (natural name x >>= f) = answer (Function.natural name x >>= g) := by
  rw [answer_bind, natural_eq]
  cases hn : Function.natural name x with
  | error e => rfl
  | ok n => exact h n (number?_of_natural hn).2

end Checked

/-- A function that refuses every number of arguments but one. -/
def Function.TakesExactly (count : ℕ) (f : Function) : Prop :=
  ∀ args : List Value, args.length ≠ count →
    f.apply args = Function.wrongCount f.name (.exactly count) args

theorem Function.takesExactly_ofValue (name : String) (f : Value → Value) :
    (ofValue name f).TakesExactly 1
  | [], _ => rfl
  | [_], h => absurd rfl h
  | _ :: _ :: _, _ => rfl

theorem Function.takesExactly_ofValues (name : String) (f : Value → Value → Value) :
    (ofValues name f).TakesExactly 2
  | [], _ => rfl
  | [_], _ => rfl
  | [_, _], h => absurd rfl h
  | _ :: _ :: _ :: _, _ => rfl

theorem Function.takesExactly_ofNatural (name : String) (f : ℕ → Float) :
    (ofNatural name f).TakesExactly 1
  | [], _ => rfl
  | [_], h => absurd rfl h
  | _ :: _ :: _, _ => rfl

theorem Function.takesExactly_ofNaturals (name : String) (f : ℕ → ℕ → Float) :
    (ofNaturals name f).TakesExactly 2
  | [], _ => rfl
  | [_], _ => rfl
  | [_, _], h => absurd rfl h
  | _ :: _ :: _ :: _, _ => rfl

/-- A function of values that is computed on words. -/
structure CheckedFunction where
  name : String
  call : List Value → Checked Value

namespace CheckedFunction

open Checked

/-- A checked function gives the answers of a function, and never faults. -/
structure Implements (c : CheckedFunction) (f : Function) : Prop where
  name_eq : c.name = f.name
  call_eq : ∀ args, c.call args = answer (f.apply args)

/-- A function of one value, which is read by its place. -/
def unary (name : String) (body : Value → Checked Value) : CheckedFunction where
  name := name
  call args :=
    if args.length ≠ 1 then answer (Function.wrongCount name (.exactly 1) args)
    else do
      let x ← item args 0
      body x

/-- A function of two values, which are read by their places. -/
def binary (name : String) (body : Value → Value → Checked Value) : CheckedFunction where
  name := name
  call args :=
    if args.length ≠ 2 then answer (Function.wrongCount name (.exactly 2) args)
    else do
      let x ← item args 0
      let y ← item args 1
      body x y

variable {f : Function}

/-- A function of one value whose body gives its answers. -/
theorem implements_unary {body : Value → Checked Value} (hcount : f.TakesExactly 1)
    (hbody : ∀ x, body x = answer (f.apply [x])) : (unary f.name body).Implements f where
  name_eq := rfl
  call_eq args := by
    unfold unary
    dsimp only
    split_ifs with hargs
    · rw [hcount args hargs]
    · obtain ⟨x, rfl⟩ := List.length_eq_one_iff.mp (not_not.mp hargs)
      exact hbody x

/-- A function of two values whose body gives its answers. -/
theorem implements_binary {body : Value → Value → Checked Value} (hcount : f.TakesExactly 2)
    (hbody : ∀ x y, body x y = answer (f.apply [x, y])) : (binary f.name body).Implements f where
  name_eq := rfl
  call_eq args := by
    unfold binary
    dsimp only
    split_ifs with hargs
    · rw [hcount args hargs]
    · obtain ⟨x, y, rfl⟩ := List.length_eq_two.mp (not_not.mp hargs)
      exact hbody x y

/-- A function of one value that computes with values only. -/
def straight₁ (f : Function) : CheckedFunction := unary f.name fun x => answer (f.apply [x])

/-- A function of two values that computes with values only. -/
def straight₂ (f : Function) : CheckedFunction := binary f.name fun x y => answer (f.apply [x, y])

/-- A function that goes through its arguments in order, and computes with values only. -/
def straight (f : Function) : CheckedFunction where
  name := f.name
  call args := answer (f.apply args)

/-- A function of one number that computes with words, and whose only NaN is the positive one. -/
def ofRealUnsigned (name : String) (body : Float → Checked Float) : CheckedFunction :=
  unary name fun x => do
    let y ← body x.float
    return .ofFloat y

/-- A function of two numbers that computes with words, and whose only NaN is the positive one. -/
def ofRealsUnsigned (name : String) (body : Float → Float → Checked Float) : CheckedFunction :=
  binary name fun x y => do
    let z ← body x.float y.float
    return .ofFloat z

theorem implements_straight₁ (hcount : f.TakesExactly 1) : (straight₁ f).Implements f :=
  implements_unary hcount fun _ => rfl

theorem implements_straight₂ (hcount : f.TakesExactly 2) : (straight₂ f).Implements f :=
  implements_binary hcount fun _ _ => rfl

theorem implements_straight (f : Function) : (straight f).Implements f := ⟨rfl, fun _ => rfl⟩

theorem implements_ofRealUnsigned {name : String} {body : Float → Checked Float}
    {f : Float → Float} (hbody : ∀ x, body x = .ok (f x)) :
    (ofRealUnsigned name body).Implements (Function.ofRealUnsigned name f) :=
  implements_unary (Function.takesExactly_ofValue _ _) fun x => by
    rw [hbody]
    rfl

theorem implements_ofRealsUnsigned {name : String} {body : Float → Float → Checked Float}
    {f : Float → Float → Float} (hbody : ∀ x y, body x y = .ok (f x y)) :
    (ofRealsUnsigned name body).Implements (Function.ofRealsUnsigned name f) :=
  implements_binary (Function.takesExactly_ofValues _ _) fun x y => by
    rw [hbody]
    rfl

end CheckedFunction

end Calculator
