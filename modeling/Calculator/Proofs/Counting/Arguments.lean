import Calculator.Proofs.Checked.Basic

/-!
# Arguments that are natural numbers

`factorial`, `comb`, `perm` and `isqrt` check the number of their arguments first and then read them
from the left.  An argument is an integer from 0 to below `2^64`, and it is computed with as that
integer; the first one that is not decides the error.

Results:
* `mapM_ok`, `mapM_error`, `forall₂_or_first`: lists that are read item by item.
* `natural_ok`, `natural_error`, `areWords_or_refused`: what is read of an argument, and when it is
  refused.
* `ReadsWords.takesWords`: what it means for a function that all its arguments are read first.
* `arguments_checked`: the four functions check their arguments in the same way.
-/

namespace Calculator.Counting

open Binary64

/-! ## Lists that are read item by item -/

section Lists

variable {α β ε : Type} {f : α → Except ε β} {as front : List α} {bs : List β}

theorem mapM_ok (h : List.Forall₂ (fun a b => f a = .ok b) as bs) : as.mapM f = .ok bs := by
  induction h with
  | nil => rfl
  | cons ha _ ih =>
    rw [List.mapM_cons, ha, ih]
    rfl

/-- The first item that cannot be read decides the error, whatever comes after it. -/
theorem mapM_error (h : List.Forall₂ (fun a b => f a = .ok b) front bs) {a : α} {error : ε}
    (ha : f a = .error error) (rest : List α) : (front ++ a :: rest).mapM f = .error error := by
  induction h with
  | nil =>
    rw [List.nil_append, List.mapM_cons, ha]
    rfl
  | cons hb _ ih =>
    rw [List.cons_append, List.mapM_cons, hb, ih]
    rfl

/-- All items of a list have a reading, or one of them is the first that is refused. -/
theorem forall₂_or_first {Reads : α → β → Prop} {Refuses : α → ε → Prop}
    (h : ∀ a, (∃ b, Reads a b) ∨ ∃ error, Refuses a error) (as : List α) :
    (∃ bs, List.Forall₂ Reads as bs) ∨ ∃ front a rest bs error,
      as = front ++ a :: rest ∧ List.Forall₂ Reads front bs ∧ Refuses a error := by
  induction as with
  | nil => exact .inl ⟨[], .nil⟩
  | cons a as ih =>
    rcases h a with ⟨b, hb⟩ | ⟨error, herror⟩
    · rcases ih with ⟨bs, hbs⟩ | ⟨front, c, rest, bs, error, rfl, hbs, hc⟩
      · exact .inl ⟨b :: bs, .cons hb hbs⟩
      · exact .inr ⟨a :: front, c, rest, b :: bs, error, rfl, .cons hb hbs, hc⟩
    · exact .inr ⟨[], a, as, [], error, rfl, .nil, herror⟩

end Lists

/-! ## Words of 64 bits -/

/-- Whether a value is a natural number below `2^64`. -/
def IsWord (x : Float) (n : ℕ) : Prop := number? x = some (n : ℚ) ∧ n < 2 ^ 64

/-- Whether values are natural numbers below `2^64`. -/
def AreWords (vs : List Value) (ns : List ℕ) : Prop :=
  List.Forall₂ (fun (v : Value) (n : ℕ) => IsWord v.float n) vs ns

/-- The error for a value that is not a natural number below `2^64`.  What is not an integer (a NaN,
an infinity or a number with a fraction) is refused as that, whatever its sign and size. -/
inductive NotWord (name : String) (x : Float) : CallError → Prop
  | notIntegral (h : ∀ z : ℤ, number? x ≠ some (z : ℚ)) : NotWord name x (.notIntegral name x)
  | negative {z : ℤ} (h : number? x = some (z : ℚ)) (hz : z < 0) :
    NotWord name x (.domain name .negative)
  | tooLarge {z : ℤ} (h : number? x = some (z : ℚ)) (hz : 2 ^ 64 ≤ z) :
    NotWord name x (.domain name .argumentTooLarge)

variable {name : String} {x : Float} {n : ℕ} {error : CallError} {vs : List Value} {ns : List ℕ}

/-- A natural number below `2^64` is taken as it is. -/
theorem natural_ok (name : String) (h : number? x = some (n : ℚ)) (hn : n < 2 ^ 64) :
    Function.natural name x = .ok n := by
  have hint : number? x = some ((n : ℤ) : ℚ) := by rw [h, Int.cast_natCast]
  have hnonneg : ¬ x < 0.0 := by
    rw [lt_iff_number h number?_zero, not_lt]
    exact Nat.cast_nonneg n
  rw [Function.natural, isIntegral_of_number hint, wholePart_of_number hint, Int.natAbs_natCast,
    Nat.one_shiftLeft, Bool.not_true, if_neg Bool.false_ne_true, if_neg hnonneg,
    if_neg (not_le.mpr hn)]

theorem natural_error (h : NotWord name x error) : Function.natural name x = .error error := by
  cases h with
  | notIntegral h =>
    have hx : isIntegral x = false := by
      rw [← Bool.not_eq_true]
      exact fun hx => h _ (number?_of_isIntegral hx)
    rw [Function.natural, hx, Bool.not_false, if_pos rfl]
  | negative h hz =>
    have hnegative : x < 0.0 := by
      rw [lt_iff_number h number?_zero]
      exact_mod_cast hz
    rw [Function.natural, isIntegral_of_number h, Bool.not_true, if_neg Bool.false_ne_true,
      if_pos hnegative]
  | @tooLarge z h hz =>
    have hnonneg : ¬ x < 0.0 := by
      rw [lt_iff_number h number?_zero, not_lt]
      exact_mod_cast (by omega : 0 ≤ z)
    rw [Function.natural, isIntegral_of_number h, wholePart_of_number h, Nat.one_shiftLeft,
      Bool.not_true, if_neg Bool.false_ne_true, if_neg hnonneg,
      if_pos (by omega : 2 ^ 64 ≤ z.natAbs)]

/-- A value is a natural number below `2^64`, or refused by every function in the same way. -/
theorem isWord_or_refused (x : Float) : (∃ n, IsWord x n) ∨ ∃ error : String → CallError,
    ((error = fun name => .notIntegral name x) ∨ ∃ fault, error = fun name => .domain name fault) ∧
      ∀ name, NotWord name x (error name) := by
  by_cases hint : ∃ z : ℤ, number? x = some (z : ℚ)
  · obtain ⟨z, hz⟩ := hint
    rcases lt_or_ge z 0 with hnegative | hnonneg
    · exact .inr ⟨_, .inr ⟨_, rfl⟩, fun _ => .negative hz hnegative⟩
    rcases lt_or_ge z (2 ^ 64) with hsmall | hlarge
    · obtain ⟨n, rfl⟩ := Int.eq_ofNat_of_zero_le hnonneg
      exact .inl ⟨n, by rw [hz]; rfl, by omega⟩
    · exact .inr ⟨_, .inr ⟨_, rfl⟩, fun _ => .tooLarge hz hlarge⟩
  · exact .inr ⟨_, .inl rfl, fun _ => .notIntegral (not_exists.mp hint)⟩

/-- Any other argument is refused by all functions in the same way. -/
theorem natural_cases (x : Float) :
    (∃ n : ℕ, number? x = some (n : ℚ) ∧ n < 2 ^ 64) ∨ ∃ error : String → CallError,
      ((error = fun name => .notIntegral name x) ∨ ∃ fault, error = fun name => .domain name fault) ∧
        ∀ name, Function.natural name x = .error (error name) :=
  (isWord_or_refused x).imp_right fun ⟨error, hkind, herror⟩ =>
    ⟨error, hkind, fun name => natural_error (herror name)⟩

/-- Values are natural numbers below `2^64`, or one of them is the first that is not. -/
theorem areWords_or_refused (name : String) (vs : List Value) :
    (∃ ns, AreWords vs ns) ∨ ∃ front v rest ns error,
      vs = front ++ v :: rest ∧ AreWords front ns ∧ NotWord name v.float error := by
  have hvalue (v : Value) : (∃ n, IsWord v.float n) ∨ ∃ error, NotWord name v.float error :=
    (isWord_or_refused v.float).imp_right fun ⟨error, _, herror⟩ => ⟨error name, herror name⟩
  exact forall₂_or_first hvalue vs

/-- What is read of natural numbers below `2^64`. -/
theorem AreWords.naturals (name : String) (h : AreWords vs ns) :
    List.Forall₂ (fun x n => Function.natural name x = .ok n) (vs.map Value.float) ns :=
  List.forall₂_map_left_iff.mpr (h.imp fun _ _ hw => natural_ok name hw.1 hw.2)

/-! ## Functions of such arguments -/

theorem ofNatural_apply (name : String) (f : ℕ → Float) {x : Value}
    (hx : number? x.float = some (n : ℚ)) (hn : n < 2 ^ 64) :
    (Function.ofNatural name f).apply [x] = .ok (.ofFloat (f n)) := by
  rw [Function.ofNatural]
  simp only [natural_ok _ hx hn]
  rfl

theorem ofNaturals_apply (name : String) (f : ℕ → ℕ → Float) {x y : Value} {k : ℕ}
    (hx : number? x.float = some (n : ℚ)) (hy : number? y.float = some (k : ℚ)) (hn : n < 2 ^ 64)
    (hk : k < 2 ^ 64) : (Function.ofNaturals name f).apply [x, y] = .ok (.ofFloat (f n k)) := by
  rw [Function.ofNaturals]
  simp only [natural_ok _ hx hn, natural_ok _ hy hk]
  rfl

/-- What it means that a function takes natural numbers below `2^64`. -/
structure TakesWords (f : Function) (arity : Arity) (body : List ℕ → Option Float) : Prop where
  /-- A wrong number of arguments is refused, whatever they are. -/
  wrongCount : ∀ vs, arity.accepts vs.length = false →
    f.apply vs = .error (.arity f.name arity vs.length)
  /-- Otherwise the first argument that is not such a number decides the error. -/
  refused : ∀ front v rest ns error, arity.accepts (front ++ v :: rest).length = true →
    AreWords front ns → NotWord f.name v.float error → f.apply (front ++ v :: rest) = .error error
  /-- If there is none, there is a result, computed from these numbers. -/
  ok : ∀ vs ns, arity.accepts vs.length = true → AreWords vs ns →
    ∃ y, body ns = some y ∧ f.apply vs = .ok (.ofFloat y)
  /-- There is no other case. -/
  cases : ∀ vs, (∃ ns, AreWords vs ns) ∨ ∃ front v rest ns error,
    vs = front ++ v :: rest ∧ AreWords front ns ∧ NotWord f.name v.float error

/-- A function that counts its arguments, then reads all of them and only then computes. -/
structure ReadsWords (f : Function) (arity : Arity) (body : List ℕ → Option Float) : Prop where
  wrongCount : ∀ vs, arity.accepts vs.length = false →
    f.apply vs = .error (.arity f.name arity vs.length)
  reads : ∀ vs, arity.accepts vs.length = true → f.apply vs =
    ((vs.map Value.float).mapM (Function.natural f.name)).bind fun ns =>
      (body ns).elim (Function.wrongCount f.name arity vs) fun y => .ok (.ofFloat y)
  isSome : ∀ ns, arity.accepts ns.length = true → ∃ y, body ns = some y

theorem ReadsWords.takesWords {f : Function} {arity : Arity} {body : List ℕ → Option Float}
    (h : ReadsWords f arity body) : TakesWords f arity body where
  wrongCount := h.wrongCount
  refused := by
    intro front v rest ns error hcount hfront hv
    rw [h.reads _ hcount, List.map_append, List.map_cons,
      mapM_error (hfront.naturals f.name) (natural_error hv)]
    rfl
  ok := by
    intro vs ns hcount hvs
    obtain ⟨y, hy⟩ := h.isSome ns (hvs.length_eq ▸ hcount)
    refine ⟨y, hy, ?_⟩
    rw [h.reads _ hcount, mapM_ok (hvs.naturals f.name)]
    show (body ns).elim _ _ = _
    rw [hy]
    rfl
  cases := areWords_or_refused f.name

/-- A result that is computed from one number. -/
def ofOne (f : ℕ → Float) : List ℕ → Option Float
  | [n] => some (f n)
  | _ => none

/-- A result that is computed from two numbers. -/
def ofTwo (f : ℕ → ℕ → Float) : List ℕ → Option Float
  | [n, k] => some (f n k)
  | _ => none

/-- A result that is computed from two numbers, the second of which may be left out if it is the
same as the first. -/
def ofOneOrTwo (f : ℕ → ℕ → Float) : List ℕ → Option Float
  | [n] => some (f n n)
  | [n, k] => some (f n k)
  | _ => none

theorem readsWords_ofNatural (name : String) (f : ℕ → Float) :
    ReadsWords (.ofNatural name f) (.exactly 1) (ofOne f) where
  wrongCount
    | [], _ => rfl
    | _ :: _ :: _, _ => rfl
  reads
    | [v], _ => by
      show (Function.natural name v.float >>= fun n => _) =
        ([v.float].mapM (Function.natural name)).bind _
      rw [List.mapM_cons]
      cases Function.natural name v.float <;> rfl
  isSome
    | [_], _ => ⟨_, rfl⟩

theorem readsWords_ofNaturals (name : String) (f : ℕ → ℕ → Float) :
    ReadsWords (.ofNaturals name f) (.exactly 2) (ofTwo f) where
  wrongCount
    | [], _ => rfl
    | [_], _ => rfl
    | _ :: _ :: _ :: _, _ => rfl
  reads
    | [v, w], _ => by
      show (Function.natural name v.float >>= fun n => Function.natural name w.float >>= _) =
        ([v.float, w.float].mapM (Function.natural name)).bind _
      rw [List.mapM_cons, List.mapM_cons]
      cases Function.natural name v.float
      · rfl
      · cases Function.natural name w.float <;> rfl
  isSome
    | [_, _], _ => ⟨_, rfl⟩

/-- `perm` reads its arguments by itself, in the same way. -/
theorem readsWords_perm : ReadsWords permFunction (.between 1 2) (ofOneOrTwo permutations) where
  wrongCount
    | [], _ => rfl
    | _ :: _ :: _ :: _, _ => rfl
  reads
    | [v], _ => by
      show (Function.natural "perm" v.float >>= fun n => _) =
        ([v.float].mapM (Function.natural "perm")).bind _
      rw [List.mapM_cons]
      cases Function.natural "perm" v.float <;> rfl
    | [v, w], _ => by
      show (Function.natural "perm" v.float >>= fun n => Function.natural "perm" w.float >>= _) =
        ([v.float, w.float].mapM (Function.natural "perm")).bind _
      rw [List.mapM_cons, List.mapM_cons]
      cases Function.natural "perm" v.float
      · rfl
      · cases Function.natural "perm" w.float <;> rfl
  isSome
    | [_], _ => ⟨_, rfl⟩
    | [_, _], _ => ⟨_, rfl⟩

/-- The four functions check their arguments in the same way. -/
theorem arguments_checked :
    TakesWords factorialFunction (.exactly 1) (ofOne factorial) ∧
      TakesWords combFunction (.exactly 2) (ofTwo combinations) ∧
      TakesWords permFunction (.between 1 2) (ofOneOrTwo permutations) ∧
      TakesWords isqrtFunction (.exactly 1) (ofOne integerRoot) :=
  ⟨(readsWords_ofNatural _ _).takesWords, (readsWords_ofNaturals _ _).takesWords,
    readsWords_perm.takesWords, (readsWords_ofNatural _ _).takesWords⟩

/-- A zero with a sign is 0, the first argument that is refused decides, a fraction is refused as one
although it is negative, and arguments that are too many are not read. -/
theorem arguments_checked_first :
    factorialFunction.apply [.ofFloat (-0.0)] = .ok (.ofFloat (factorial 0)) ∧
    combFunction.apply [.ofFloat (Float.ofBits 0x43f0000000000000), .ofFloat nan] =
      .error (.domain "comb" .argumentTooLarge) ∧
    permFunction.apply [.ofFloat (-0.0), .ofFloat (-0.5)] = .error (.notIntegral "perm" (-0.5)) ∧
    isqrtFunction.apply [.ofFloat nan, .ofFloat nan] = .error (.arity "isqrt" (.exactly 1) 2) := by
  have hzero : AreWords [.ofFloat (-0.0)] [0] := by
    have hd : datum (-0.0) = .finite true 0 (-1074) := by rfl
    refine .cons ⟨?_, by norm_num⟩ .nil
    rw [Value.float_ofFloat, number?_of_datum hd, signedNumber_zero, Nat.cast_zero]
  have hlarge : NotWord "comb" (Float.ofBits 0x43f0000000000000)
      (.domain "comb" .argumentTooLarge) := by
    have hd : datum (Float.ofBits 0x43f0000000000000) = .finite false (2 ^ 52) 12 := by rfl
    have hnumber : number? (Float.ofBits 0x43f0000000000000) = some ((2 ^ 64 : ℤ) : ℚ) := by
      rw [number?_of_datum hd, signedNumber]
      norm_num
    exact .tooLarge hnumber le_rfl
  have hhalf : NotWord "perm" (-0.5) (.notIntegral "perm" (-0.5)) := by
    have hd : datum (-0.5) = .finite true (2 ^ 52) (-53) := by rfl
    refine .notIntegral fun z hz => ?_
    rw [number?_of_datum hd, signedNumber, if_pos rfl, Option.some.injEq] at hz
    have : -1 = z * 2 := by
      have hdouble : (-1 : ℚ) = z * 2 := by
        rw [← hz]
        norm_num
      exact_mod_cast hdouble
    omega
  obtain ⟨hfactorial, hcomb, hperm, hisqrt⟩ := arguments_checked
  obtain ⟨y, hy, happly⟩ := hfactorial.ok _ _ rfl hzero
  cases hy
  exact ⟨happly, hcomb.refused [] _ _ [] _ rfl .nil hlarge, hperm.refused _ _ [] _ _ rfl hzero hhalf,
    hisqrt.wrongCount _ rfl⟩

end Calculator.Counting
