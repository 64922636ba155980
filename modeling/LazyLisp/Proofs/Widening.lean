import LazyLisp.Number
import Mathlib

/-!
# Integers as floats

An integer that meets a float widens to one, and a division is refused if
the divisor, as a float, equals zero.  Widening rounds, so that this is the
right test for integers is not plain: it holds because rounding drops bits of
a mantissa at its lower end only.  The leading bit stays, and no integer but
zero widens to a zero.

All of this is read off the model of a float: a word of 64 bits, taken apart
into a sign, a mantissa and an exponent for every operation and put together
again after it.  A word is that of a zero exactly if its exponent and its
mantissa have no bit set, whatever its sign.

## Main results

* `shiftToTargetExponent_bounds` — a positive mantissa moved to the exponent
  that it is kept with is still positive, and fits.
* `beq_zero_of_neg` — a sign makes no zero.
* `toFloat_beq_zero_iff` — an integer widens to a zero exactly if it is zero.
-/

namespace LazyLisp.Widening

open Float.Model
open Float.Model.UnpackedFloat hiding pack round normalize

/-! ## Words of a zero -/

/-- The two words that stand for a zero. -/
def IsZeroWord (word : BitVec Format.binary64.numBits) : Prop :=
  ∃ sign, word = packedZero .binary64 sign

theorem isZeroWord_packComponents_iff (sign : Sign) (e : BitVec Format.binary64.exponentBits)
    (m : BitVec Format.binary64.mantissaBitsWithoutImplicit) :
    IsZeroWord (packComponents .binary64 sign e m) ↔ e = 0 ∧ m = 0 := by
  constructor
  · rintro ⟨other, same⟩
    have exponents := congrArg unpackExponent same
    have mantissas := congrArg unpackMantissa same
    simp only [packedZero, unpackExponent_packComponents, unpackMantissa_packComponents]
      at exponents mantissas
    exact ⟨exponents, mantissas⟩
  · rintro ⟨rfl, rfl⟩
    exact ⟨sign, rfl⟩

/-- A float equals zero exactly if its word is that of a zero. -/
theorem beq_zero_iff (x : Float) : (x == 0) = true ↔ IsZeroWord x.toModel.toBits.toBitVec := by
  have zero : (0 : Float).toModel.unpack = .zero .positive := rfl
  have unpacked (sign : Sign) :
      x.toModel.unpack = .zero sign ↔ x.toModel.toBits.toBitVec = packedZero .binary64 sign :=
    unpack_eq_zero_iff_of_valid x.toModel.valid
  show x.toModel.unpack.beq (0 : Float).toModel.unpack = true ↔ _
  rw [beq_iff_ne_notANumber_and_eq, zero]
  constructor
  · rintro ⟨-, -, same | same | same⟩
    · exact ⟨_, (unpacked _).mp same⟩
    · exact ⟨_, (unpacked _).mp same.1⟩
    · exact ⟨_, (unpacked _).mp same.1⟩
  · rintro ⟨sign, same⟩
    rw [(unpacked sign).mpr same]
    cases sign <;> simp

/-- A sign says nothing about whether a word is that of a zero. -/
theorem isZeroWord_pack_neg_iff (u : UnpackedFloat) :
    IsZeroWord (UnpackedFloat.pack .binary64 u.neg) ↔
      IsZeroWord (UnpackedFloat.pack .binary64 u) := by
  cases u with
  | notANumber => rfl
  | infinity sign =>
      simp only [UnpackedFloat.neg, UnpackedFloat.pack, packedInfinity,
        isZeroWord_packComponents_iff]
  | zero sign =>
      simp only [UnpackedFloat.neg, UnpackedFloat.pack, packedZero, isZeroWord_packComponents_iff]
  | finite sign m e positive =>
      simp only [UnpackedFloat.neg, UnpackedFloat.pack, packedInfinity]
      split
      · simp only [isZeroWord_packComponents_iff]
      · split <;> simp only [isZeroWord_packComponents_iff]

/-- A float whose negative equals zero equals zero itself. -/
theorem beq_zero_of_neg {x : Float} (h : (-x == 0) = true) : (x == 0) = true := by
  have packed : UnpackedFloat.pack .binary64 x.toModel.unpack = x.toModel.toBits.toBitVec :=
    pack_unpack_of_valid x.toModel.valid
  rw [beq_zero_iff] at h ⊢
  rw [← packed]
  exact (isZeroWord_pack_neg_iff x.toModel.unpack).mp h

/-! ## Rounding -/

private theorem mantissa_shiftRight (em : ExtendedMantissa) (k : Nat) :
    (em >>> k).mantissa = em.mantissa / 2 ^ k := by
  induction k with
  | zero => simp [HShiftRight.hShiftRight, Nat.repeat]
  | succ k ih =>
      show (ExtendedMantissa.shiftRightOne (em >>> k)).mantissa = _
      simp only [ExtendedMantissa.shiftRightOne, ih, Nat.div_div_eq_div_mul, Nat.pow_succ]

private theorem le_roundToNearestEven (m : Nat) (accuracy : Accuracy) :
    m ≤ accuracy.roundToNearestEven m := by
  cases accuracy with
  | exact => exact Nat.le_refl _
  | inexact side => cases side <;> simp [Accuracy.roundToNearestEven]

private theorem targetExponent_binary64 (total : Int) :
    Format.binary64.targetExponent total = max (total - 53) (-1074) := rfl

/-- A positive mantissa that is moved to the exponent it is kept with stays
positive and fits into the bits that there are. -/
theorem shiftToTargetExponent_bounds {m : Nat} {e : Int} (positive : 0 < m) (low : -1074 ≤ e) :
    0 < (shiftToTargetExponent .binary64 m e .exact).1.mantissa ∧
    (shiftToTargetExponent .binary64 m e .exact).1.mantissa < 2 ^ 53 ∧
    -1074 ≤ (shiftToTargetExponent .binary64 m e .exact).2 := by
  have leading : 2 ^ m.log2 ≤ m := Nat.log2_self_le (Nat.ne_of_gt positive)
  have below : m < 2 ^ (m.log2 + 1) := Nat.lt_log2_self
  simp only [shiftToTargetExponent, shiftToExponent, mantissa_shiftRight,
    targetExponent_binary64, totalExponent]
  show 0 < m / 2 ^ _ ∧ m / 2 ^ _ < 2 ^ 53 ∧ _
  by_cases long : 52 ≤ m.log2
  · have amount : (max ((m.log2 : Int) + 1 + e - 53) (-1074) - e).toNat = m.log2 - 52 := by omega
    have split (k : Nat) : 2 ^ (k + (m.log2 - 52)) = 2 ^ k * 2 ^ (m.log2 - 52) := Nat.pow_add ..
    rw [amount]
    refine ⟨Nat.div_pos ?_ (Nat.two_pow_pos _), ?_, by omega⟩
    · exact (Nat.pow_le_pow_right (by omega) (by omega)).trans leading
    · rw [Nat.div_lt_iff_lt_mul (Nat.two_pow_pos _), ← split]
      rwa [show 53 + (m.log2 - 52) = m.log2 + 1 by omega]
  · have amount : (max ((m.log2 : Int) + 1 + e - 53) (-1074) - e).toNat = 0 := by omega
    rw [amount, Nat.pow_zero, Nat.div_one]
    exact ⟨positive, below.trans_le (Nat.pow_le_pow_right (by omega) (by omega)), by omega⟩

/-- Rounding a positive mantissa moves it twice: to its exponent, and once
more if that rounded it up. -/
theorem roundWithAccuracy_finite {m : Nat} {e : Int} (positive : 0 < m) (low : -1074 ≤ e) :
    ∃ m' e' h, roundWithAccuracy .binary64 .positive m e .exact = .finite .positive m' e' h ∧
      m' < 2 ^ 53 ∧ -1074 ≤ e' := by
  obtain ⟨moved, -, lowMoved⟩ := shiftToTargetExponent_bounds positive low
  have rounded : 0 < (shiftToTargetExponent .binary64 m e .exact).1.roundedMantissa :=
    moved.trans_le (le_roundToNearestEven _ _)
  obtain ⟨again, fits, lowAgain⟩ := shiftToTargetExponent_bounds rounded lowMoved
  refine ⟨_, _, again, ?_, fits, lowAgain⟩
  simp only [roundWithAccuracy]
  rw [dif_neg (Nat.ne_of_gt again)]

/-- A positive integer rounds to a float with a positive mantissa that fits. -/
theorem round_finite {n : Nat} (positive : 0 < n) :
    ∃ m e h, UnpackedFloat.round .binary64 .positive n 0 = .finite .positive m e h ∧
      m < 2 ^ 53 ∧ -1074 ≤ e := by
  have target := targetExponent_binary64 (totalExponent n 0)
  refine roundWithAccuracy_finite ?_ ?_
  · rw [Nat.shiftLeft_eq]
    exact Nat.mul_pos positive (Nat.two_pow_pos _)
  · have least : -1074 ≤ Format.binary64.targetExponent (totalExponent n 0) := by omega
    omega

/-- The word of a float with a positive mantissa that fits is not that of a
zero. -/
theorem not_isZeroWord_pack_finite {sign : Sign} {m : Nat} {e : Int} (positive : 0 < m)
    (fits : m < 2 ^ 53) (low : -1074 ≤ e) :
    ¬ IsZeroWord (UnpackedFloat.pack .binary64 (.finite sign m e positive)) := by
  simp only [UnpackedFloat.pack, packedInfinity]
  split
  · rw [isZeroWord_packComponents_iff]
    exact fun h => absurd h.1 (by decide)
  · rename_i small
    split
    · rw [isZeroWord_packComponents_iff]
      rintro ⟨noExponent, -⟩
      have biased := congrArg BitVec.toNat noExponent
      have size : 2 ^ Format.binary64.exponentBits = 2048 := rfl
      have bias : (Format.binary64.exponentBias : Int) = 1023 := rfl
      have width : (Format.binary64.mantissaBitsWithoutImplicit : Int) = 52 := rfl
      rw [size, bias, width] at small
      rw [bias, width, BitVec.toNat_ofNat, size, Nat.mod_eq_of_lt (by omega)] at biased
      change _ = 0 at biased
      omega
    · rename_i short
      rw [isZeroWord_packComponents_iff]
      rintro ⟨-, noMantissa⟩
      have bits := congrArg BitVec.toNat noMantissa
      change ¬ m.log2 + 1 = 53 at short
      have length : m.log2 < 53 := (Nat.log2_lt (Nat.ne_of_gt positive)).mpr fits
      have bound : m < 2 ^ 52 := (Nat.log2_lt (Nat.ne_of_gt positive)).mp (by omega)
      change m % 2 ^ 52 = 0 at bits
      rw [Nat.mod_eq_of_lt bound] at bits
      omega

/-! ## Widened integers -/

private theorem natCast_toFloat_beq_zero {n : UInt64} (positive : 0 < n.toNat) :
    (n.toFloat == 0) = false := by
  rw [← Bool.not_eq_true, beq_zero_iff]
  show ¬ IsZeroWord (UnpackedFloat.pack .binary64
    (UnpackedFloat.normalize .binary64 (n.toNat : Int) 0 .positive))
  have gt : compare (n.toNat : Int) 0 = .gt := Int.compare_eq_gt.mpr (by omega)
  obtain ⟨m, e, h, rounded, fits, low⟩ := round_finite positive
  simp only [UnpackedFloat.normalize, gt, Int.toNat_natCast, rounded]
  exact not_isZeroWord_pack_finite h fits low

/-- An integer widens to a zero exactly if it is zero. -/
theorem toFloat_beq_zero_iff (n : Int64) : (Number.toFloat n == 0) = true ↔ n.toInt = 0 := by
  have low : Int64.minValue.toInt ≤ n.toInt := Int64.minValue_le_toInt n
  have high : n.toInt ≤ Int64.maxValue.toInt := Int64.toInt_le n
  have least : Int64.minValue.toInt = -2 ^ 63 := by decide
  have most : Int64.maxValue.toInt = 2 ^ 63 - 1 := by decide
  have magnitude : n.toInt.natAbs.toUInt64.toNat = n.toInt.natAbs := by
    rw [Nat.toUInt64_eq, UInt64.toNat_ofNat', Nat.mod_eq_of_lt (by omega)]
  constructor
  · intro zero
    by_contra other
    have positive : 0 < n.toInt.natAbs.toUInt64.toNat := by omega
    have nonzero := natCast_toFloat_beq_zero positive
    have widened : (n.toInt.natAbs.toUInt64.toFloat == 0) = true := by
      unfold Number.toFloat at zero
      split at zero
      · exact beq_zero_of_neg zero
      · exact zero
    exact absurd widened (by rw [nonzero]; decide)
  · intro zero
    rw [Number.toFloat, zero]
    exact (beq_zero_iff _).mpr ⟨.positive, rfl⟩

end LazyLisp.Widening
