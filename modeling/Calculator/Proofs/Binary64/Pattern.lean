import Calculator.Binary64.Basic
import Mathlib

/-!
# Bit patterns and the numbers they stand for

`datum` reads a value off its bit pattern, while the arithmetic packs and unpacks patterns in its
own way.  Both see the same number, and nothing gets lost between a value and its datum, so that
from here on a value may be replaced by its datum and the other way round.

Results:
* `datum_canonical`: the significand and the exponent of a value are those of binary64.
* `unpack_eq`: the arithmetic works on the datum.
* `datum_ofDatum`, `ofDatum_datum`, `datum_injective`: values and canonical data are one to one.
* `datum_neg`, `datum_abs`, `isNaN_eq`, `isInf_eq`, `isFinite_eq`, `beq_eq`, `lt_iff`: signs, kinds
  and comparisons of values by their data.
-/

namespace Calculator.Binary64

open Float.Model Float.Model.UnpackedFloat

/-- A significand and an exponent as a finite value has them: the significand has 53 bits unless
the exponent is the smallest one. -/
structure Canonical (m : Nat) (k : Int) : Prop where
  significand_lt : m < 2 ^ 53
  le_exponent : -1074 ≤ k
  exponent_le : k ≤ 971
  normal : k = -1074 ∨ 2 ^ 52 ≤ m

namespace Datum

/-- A datum that some value has. -/
def Canonical : Datum → Prop
  | finite _ m k => Binary64.Canonical m k
  | _ => True

/-- The sign that stands for a sign bit. -/
def sign (negative : Bool) : Sign := if negative then .negative else .positive

/-- The number of a datum as the arithmetic has it. -/
def unpacked : Datum → UnpackedFloat
  | nan => .notANumber
  | infinity negative => .infinity (sign negative)
  | finite negative m k =>
    if h : m = 0 then .zero (sign negative)
    else .finite (sign negative) m k (Nat.pos_of_ne_zero h)

theorem unpacked_finite {m : Nat} (hpos : 0 < m) (negative : Bool) (k : Int) :
    (finite negative m k).unpacked = .finite (sign negative) m k hpos :=
  dif_neg (Nat.ne_of_gt hpos)

theorem unpacked_zero (negative : Bool) (k : Int) :
    (finite negative 0 k).unpacked = .zero (sign negative) := rfl

end Datum

/-- The value of a datum. -/
def ofDatum (d : Datum) : Float := .ofModel (.pack d.unpacked)

/-! ## The fields of a pattern -/

theorem unpackMantissa_toNat (b : BitVec 64) :
    (@unpackMantissa Format.binary64 b).toNat = b.toNat % 2 ^ 52 := by
  simp [unpackMantissa, BitVec.extractLsb_toNat]

theorem unpackExponent_toNat (b : BitVec 64) :
    (@unpackExponent Format.binary64 b).toNat = (b.toNat >>> 52) % 2048 := by
  simp [unpackExponent, BitVec.extractLsb_toNat]

theorem unpackSign_toNat (b : BitVec 64) :
    (@unpackSign Format.binary64 b).toNat = (b.toNat >>> 63) % 2 := by
  simp [unpackSign, BitVec.extractLsb_toNat]

theorem packComponents_toNat (s : Sign) (e : BitVec 11) (m : BitVec 52) :
    (packComponents Format.binary64 s e m).toNat =
      s.toBitVec.toNat * 2 ^ 63 + e.toNat * 2 ^ 52 + m.toNat := by
  have he := e.isLt
  have hm := m.isLt
  simp only [packComponents, BitVec.toNat_append]
  rw [← Nat.shiftLeft_add_eq_or_of_lt he, ← Nat.shiftLeft_add_eq_or_of_lt hm]
  simp only [Nat.shiftLeft_eq]
  omega

theorem testBit_63 (n : Nat) : n.testBit 63 = decide ((n >>> 63) % 2 = 1) := by
  rw [Nat.testBit_eq_decide_div_mod_eq, Nat.shiftRight_eq_div_pow]

theorem sign_unpackSign (b : BitVec 64) :
    Sign.ofBitVec (@unpackSign Format.binary64 b) = Datum.sign (b.toNat.testBit 63) := by
  have hs := unpackSign_toNat b
  have hzero : @unpackSign Format.binary64 b = 0#1 ↔ (b.toNat >>> 63) % 2 = 0 := by
    rw [← BitVec.toNat_inj, hs]; rfl
  simp only [Sign.ofBitVec, Datum.sign, testBit_63, hzero, decide_eq_true_eq]
  split_ifs <;> first | rfl | omega

theorem toNat_sign (negative : Bool) : (Datum.sign negative).toBitVec.toNat = negative.toNat := by
  cases negative <;> rfl

/-- The datum with the fields of the pattern written as remainders. -/
theorem datum_eq (x : Float) :
    datum x =
      if (x.toBits.toNat >>> 52) % 2048 = 2047 then
        if x.toBits.toNat % 2 ^ 52 = 0 then .infinity (x.toBits.toNat.testBit 63) else .nan
      else if (x.toBits.toNat >>> 52) % 2048 = 0 then
        .finite (x.toBits.toNat.testBit 63) (x.toBits.toNat % 2 ^ 52) (-1074)
      else .finite (x.toBits.toNat.testBit 63) (x.toBits.toNat % 2 ^ 52 + 2 ^ 52)
        (((x.toBits.toNat >>> 52) % 2048 : Nat) - 1075 : Int) := rfl

theorem datum_canonical (x : Float) : (datum x).Canonical := by
  rw [datum_eq]
  have hfield : (x.toBits.toNat >>> 52) % 2048 < 2048 := Nat.mod_lt _ (by decide)
  have hfraction : x.toBits.toNat % 2 ^ 52 < 2 ^ 52 := Nat.mod_lt _ (by decide)
  generalize (x.toBits.toNat >>> 52) % 2048 = field at *
  generalize x.toBits.toNat % 2 ^ 52 = fraction at *
  split_ifs
  · trivial
  · trivial
  · exact ⟨by omega, by omega, by omega, .inl rfl⟩
  · exact ⟨by omega, by omega, by omega, .inr (by omega)⟩

theorem canonical_of_datum {x : Float} {negative : Bool} {m : Nat} {k : Int}
    (h : datum x = .finite negative m k) : Canonical m k := by
  have hc := datum_canonical x
  rwa [h] at hc

/-- What the arithmetic unpacks is the datum. -/
theorem unpack_eq (x : Float) : x.toModel.unpack = (datum x).unpacked := by
  let b : BitVec 64 := x.toModel.toBits.toBitVec
  show UnpackedFloat.unpack Format.binary64 b = (datum x).unpacked
  have hb : x.toBits.toNat = b.toNat := rfl
  have hm := unpackMantissa_toNat b
  have he := unpackExponent_toNat b
  have hones : @unpackExponent Format.binary64 b = -1#_ ↔
      (b.toNat >>> 52) % 2048 = 2047 := by
    rw [← BitVec.toNat_inj, he]; rfl
  have hzeros : @unpackExponent Format.binary64 b = 0#_ ↔
      (b.toNat >>> 52) % 2048 = 0 := by
    rw [← BitVec.toNat_inj, he]; rfl
  have hwhole : @unpackMantissa Format.binary64 b = 0#_ ↔ b.toNat % 2 ^ 52 = 0 := by
    rw [← BitVec.toNat_inj, hm]; rfl
  have himplicit : (1#1 ++ @unpackMantissa Format.binary64 b).toNat =
      b.toNat % 2 ^ 52 + 2 ^ 52 := by
    rw [BitVec.toNat_append, ← Nat.shiftLeft_add_eq_or_of_lt (BitVec.isLt _), hm]
    simp [Nat.shiftLeft_eq, Nat.add_comm]
  have hbias : (Format.binary64.exponentBias : Int) + 52 = 1075 := rfl
  simp only [UnpackedFloat.unpack, hones, hzeros, hwhole, sign_unpackSign, datum_eq, hb]
  generalize b.toNat % 2 ^ 52 = fraction at *
  generalize (b.toNat >>> 52) % 2048 = field at *
  by_cases h₁ : field = 2047
  · by_cases h₂ : fraction = 0 <;> simp [h₁, h₂, Datum.unpacked]
  · by_cases h₃ : field = 0
    · by_cases h₂ : fraction = 0
      · simp [h₃, h₂, Datum.unpacked]
      · simp [h₃, h₂, Datum.unpacked, hm, he, hbias]
    · simp [h₁, h₃, Datum.unpacked, himplicit, he, hbias]

/-! ## From a datum to its value -/

theorem toBits_ofModel (u : UnpackedFloat) :
    (Float.ofModel (.pack u)).toBits.toNat = (UnpackedFloat.pack Format.binary64 u).toNat := rfl

/-- The datum of a pattern that is put together from its fields. -/
theorem datum_of_fields {x : Float} {s field fraction : Nat} (hs : s < 2)
    (hfield : field < 2048) (hfraction : fraction < 2 ^ 52)
    (h : x.toBits.toNat = s * 2 ^ 63 + field * 2 ^ 52 + fraction) :
    datum x =
      if field = 2047 then if fraction = 0 then .infinity (decide (s = 1)) else .nan
      else if field = 0 then .finite (decide (s = 1)) fraction (-1074)
      else .finite (decide (s = 1)) (fraction + 2 ^ 52) ((field : Int) - 1075) := by
  have h₁ : (x.toBits.toNat >>> 52) % 2048 = field := by
    rw [Nat.shiftRight_eq_div_pow]
    omega
  have h₂ : x.toBits.toNat % 2 ^ 52 = fraction := by omega
  have h₃ : x.toBits.toNat.testBit 63 = decide (s = 1) := by
    rw [testBit_63, Nat.shiftRight_eq_div_pow]
    exact decide_eq_decide.mpr (by omega)
  rw [datum_eq, h₁, h₂, h₃]

theorem log2_add_one_eq {m : Nat} (h : m < 2 ^ 53) : m.log2 + 1 = 53 ↔ 2 ^ 52 ≤ m := by
  rcases Nat.eq_zero_or_pos m with rfl | hm
  · decide
  · have hlt : m.log2 < 53 := (Nat.log2_lt (Nat.ne_of_gt hm)).mpr h
    have hle := Nat.le_log2 (k := 52) (Nat.ne_of_gt hm)
    omega

theorem pack_finite_toNat {s : Sign} {m : Nat} {k : Int} (hpos : 0 < m) (h : Canonical m k) :
    (UnpackedFloat.pack Format.binary64 (.finite s m k hpos)).toNat =
      s.toBitVec.toNat * 2 ^ 63 +
        (if 2 ^ 52 ≤ m then (k + 1075).toNat else 0) * 2 ^ 52 + m % 2 ^ 52 := by
  obtain ⟨hm, hlow, hhigh, -⟩ := h
  have hbias : k + Format.binary64.exponentBias + (52 : Nat) = k + 1075 := by
    show k + 1023 + 52 = k + 1075
    omega
  have hover : ¬ 2 ^ Format.binary64.exponentBits ≤ (k + 1075).toNat + 1 := by
    show ¬ 2048 ≤ (k + 1075).toNat + 1
    omega
  have hbits : m.log2 + 1 = Format.binary64.mantissaBits ↔ 2 ^ 52 ≤ m := log2_add_one_eq hm
  simp only [UnpackedFloat.pack, hbias, hover, hbits, if_false]
  split_ifs <;> rw [packComponents_toNat, BitVec.toNat_ofNat]
  · rw [BitVec.toNat_ofNat, Nat.mod_eq_of_lt (by omega : (k + 1075).toNat < 2 ^ 11)]
  · rfl

/-- The datum is read back off the pattern that it is packed into. -/
theorem datum_ofDatum {d : Datum} (h : d.Canonical) : datum (ofDatum d) = d := by
  cases d with
  | nan => rfl
  | infinity negative => cases negative <;> rfl
  | finite negative m k =>
    have hc : Binary64.Canonical m k := h
    obtain ⟨hm, hlow, hhigh, hnormal⟩ := hc
    rcases Nat.eq_zero_or_pos m with rfl | hpos
    · obtain rfl : k = -1074 := by omega
      cases negative <;> rfl
    · have hu := Datum.unpacked_finite hpos negative k
      have hbits := toBits_ofModel (Datum.finite negative m k).unpacked
      rw [hu, pack_finite_toNat hpos h, toNat_sign, ← hu] at hbits
      have hs : decide (negative.toNat = 1) = negative := by cases negative <;> rfl
      rw [ofDatum, datum_of_fields (Bool.toNat_lt negative) (by split_ifs <;> omega)
        (Nat.mod_lt _ (by decide)) hbits, hs]
      by_cases hn : 2 ^ 52 ≤ m
      · rw [if_pos hn, if_neg (by omega), if_neg (by omega)]
        congr 1 <;> omega
      · rw [if_neg hn, if_neg (by omega), if_pos rfl]
        congr 1 <;> omega

/-! ## From a value to its datum -/

theorem eq_of_toBits {x y : Float} (h : x.toBits.toNat = y.toBits.toNat) : x = y := by
  obtain ⟨⟨a, ha⟩⟩ := x
  obtain ⟨⟨b, hb⟩⟩ := y
  obtain rfl : a = b := UInt64.toNat_inj.mp h
  rfl

/-- There is one NaN only. -/
theorem toBits_of_nan {x : Float} (h : datum x = .nan) : x.toBits.toNat = nan.toBits.toNat := by
  let b : BitVec 64 := x.toModel.toBits.toBitVec
  have hb : x.toBits.toNat = b.toNat := rfl
  have hfields : (b.toNat >>> 52) % 2048 = 2047 ∧ b.toNat % 2 ^ 52 ≠ 0 := by
    rw [datum_eq, hb] at h
    split_ifs at h with h₁ h₂
    exact ⟨h₁, h₂⟩
  have he : @unpackExponent Format.binary64 b = -1#_ := by
    rw [← BitVec.toNat_inj, unpackExponent_toNat, hfields.1]; rfl
  have hm : @unpackMantissa Format.binary64 b ≠ 0#_ := by
    rw [ne_eq, ← BitVec.toNat_inj, unpackMantissa_toNat]
    exact hfields.2
  exact congrArg BitVec.toNat (x.toModel.valid.eq_packedNaN he hm)

/-- A value is known by its datum. -/
theorem datum_injective {x y : Float} (h : datum x = datum y) : x = y := by
  apply eq_of_toBits
  have hx := x.toBits.toNat_lt
  have hy := y.toBits.toNat_lt
  by_cases hn : datum x = .nan
  · rw [toBits_of_nan hn, toBits_of_nan (h.symm.trans hn)]
  · simp only [datum_eq, testBit_63, Nat.shiftRight_eq_div_pow] at h hn
    split_ifs at h hn <;>
      simp only [Datum.infinity.injEq, Datum.finite.injEq, decide_eq_decide, not_true] at h hn <;>
      omega

theorem ofDatum_datum (x : Float) : ofDatum (datum x) = x :=
  datum_injective (datum_ofDatum (datum_canonical x))

theorem eq_ofDatum {x : Float} {d : Datum} (h : datum x = d) : x = ofDatum d := by
  rw [← h, ofDatum_datum]

/-! ## Signs -/

namespace Datum

/-- The datum with the other sign. -/
def neg : Datum → Datum
  | nan => nan
  | infinity negative => infinity (!negative)
  | finite negative m k => finite (!negative) m k

/-- The datum with a positive sign. -/
def abs : Datum → Datum
  | nan => nan
  | infinity _ => infinity false
  | finite _ m k => finite false m k

theorem unpacked_neg (d : Datum) : d.neg.unpacked = d.unpacked.neg := by
  cases d with
  | nan => rfl
  | infinity negative => cases negative <;> rfl
  | finite negative m k =>
    rcases Nat.eq_zero_or_pos m with rfl | hpos
    · cases negative <;> rfl
    · rw [neg, unpacked_finite hpos, unpacked_finite hpos]
      cases negative <;> rfl

theorem unpacked_abs (d : Datum) : d.abs.unpacked = d.unpacked.abs := by
  cases d with
  | nan => rfl
  | infinity negative => cases negative <;> rfl
  | finite negative m k =>
    rcases Nat.eq_zero_or_pos m with rfl | hpos
    · cases negative <;> rfl
    · rw [abs, unpacked_finite hpos, unpacked_finite hpos]
      rfl

theorem canonical_neg {d : Datum} (h : d.Canonical) : d.neg.Canonical := by cases d <;> exact h

theorem canonical_abs {d : Datum} (h : d.Canonical) : d.abs.Canonical := by cases d <;> exact h

end Datum

theorem datum_neg (x : Float) : datum (-x) = (datum x).neg := by
  have h : -x = ofDatum (datum x).neg := by
    show Float.ofModel (.pack x.toModel.unpack.neg) = _
    rw [unpack_eq, ← Datum.unpacked_neg, ofDatum]
  rw [h, datum_ofDatum (Datum.canonical_neg (datum_canonical x))]

theorem datum_abs (x : Float) : datum x.abs = (datum x).abs := by
  have h : x.abs = ofDatum (datum x).abs := by
    show Float.ofModel (.pack x.toModel.unpack.abs) = _
    rw [unpack_eq, ← Datum.unpacked_abs, ofDatum]
  rw [h, datum_ofDatum (Datum.canonical_abs (datum_canonical x))]

/-! ## Kinds of values and comparisons -/

namespace Datum

/-- Whether a datum is that of the NaN. -/
def isNaN : Datum → Bool
  | nan => true
  | _ => false

/-- Whether a datum is that of an infinity. -/
def isInf : Datum → Bool
  | infinity _ => true
  | _ => false

/-- Whether a datum is that of a number. -/
def isFinite : Datum → Bool
  | finite .. => true
  | _ => false

end Datum

namespace Datum

/-- A question about kinds has the same answer for what is unpacked, if it has for each kind. -/
theorem unpacked_kind {ask : UnpackedFloat → Bool} {ask' : Datum → Bool}
    (hnan : ask .notANumber = ask' nan) (hinf : ∀ b, ask (.infinity (sign b)) = ask' (infinity b))
    (hzero : ∀ b k, ask (.zero (sign b)) = ask' (finite b 0 k))
    (hfinite : ∀ b m k h, ask (.finite (sign b) m k h) = ask' (finite b m k)) (d : Datum) :
    ask d.unpacked = ask' d := by
  cases d with
  | nan => exact hnan
  | infinity b => exact hinf b
  | finite b m k =>
    rcases Nat.eq_zero_or_pos m with rfl | hpos
    · exact hzero b k
    · rw [unpacked_finite hpos]
      exact hfinite b m k hpos

end Datum

theorem isNaN_eq (x : Float) : x.isNaN = (datum x).isNaN := by
  have h : x.isNaN = (datum x).unpacked.isNaN := congrArg UnpackedFloat.isNaN (unpack_eq x)
  rw [h]
  exact Datum.unpacked_kind rfl (fun _ => rfl) (fun _ _ => rfl) (fun _ _ _ _ => rfl) _

theorem isInf_eq (x : Float) : x.isInf = (datum x).isInf := by
  have h : x.isInf = (datum x).unpacked.isInf := congrArg UnpackedFloat.isInf (unpack_eq x)
  rw [h]
  exact Datum.unpacked_kind rfl (fun _ => rfl) (fun _ _ => rfl) (fun _ _ _ _ => rfl) _

theorem isFinite_eq (x : Float) : x.isFinite = (datum x).isFinite := by
  have h : x.isFinite = (datum x).unpacked.isFinite := congrArg UnpackedFloat.isFinite (unpack_eq x)
  rw [h]
  exact Datum.unpacked_kind rfl (fun _ => rfl) (fun _ _ => rfl) (fun _ _ _ _ => rfl) _

theorem beq_eq (x y : Float) :
    (x == y) = ((datum x).unpacked.compare (datum y).unpacked == some .eq) := by
  rw [← unpack_eq, ← unpack_eq]
  rfl

theorem lt_iff (x y : Float) :
    x < y ↔ (datum x).unpacked.compare (datum y).unpacked = some .lt := by
  show decide ((x.toModel.unpack.compare y.toModel.unpack == some .lt) = true) = true ↔ _
  rw [decide_eq_true_iff, unpack_eq, unpack_eq, beq_iff_eq]

theorem le_iff (x y : Float) :
    x ≤ y ↔ ((datum x).unpacked.compare (datum y).unpacked).any Ordering.isLE := by
  show decide ((x.toModel.unpack.compare y.toModel.unpack).any Ordering.isLE = true) = true ↔ _
  rw [decide_eq_true_iff, unpack_eq, unpack_eq]

end Calculator.Binary64
