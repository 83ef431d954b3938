import Mathlib
import FiberMachine.Value

/-!
# Doubles in values

A double is a word with one pattern alone for what is not a number, and none of the reserved
words is a double. The value of a double therefore gives the double back.
-/

namespace FiberMachine

namespace Double

open Float.Model UnpackedFloat

abbrev format : Format := .binary64

theorem toNat_unpackExponent (w : UInt64) :
    (@unpackExponent format w.toBitVec).toNat = w.toNat / 2 ^ 52 % 2 ^ 11 := by
  simp [unpackExponent, BitVec.extractLsb, Nat.shiftRight_eq_div_pow]

theorem toNat_unpackMantissa (w : UInt64) :
    (@unpackMantissa format w.toBitVec).toNat = w.toNat % 2 ^ 52 := by
  simp [unpackMantissa, BitVec.extractLsb]

theorem isReserved_of_valid {w : UInt64} (hv : format.Valid w.toBitVec) :
    Value.isReserved w = false := by
  have hlt := w.toNat_lt
  -- with all bits of the exponent and some of the mantissa there is but one word
  have hquiet : 0x7ff0000000000000 ≤ w.toNat % 2 ^ 63 → w.toNat % 2 ^ 52 ≠ 0 →
      w = Value.quietNaN := fun hones hzero => by
    have he := toNat_unpackExponent w
    have hm := toNat_unpackMantissa w
    refine UInt64.toBitVec_inj.mp ((hv.eq_packedNaN (BitVec.eq_of_toNat_eq ?_) fun h => ?_).trans ?_)
    · rw [he]
      change _ = 2047
      omega
    · rw [h] at hm
      exact hzero hm.symm
    · rfl
  refine Bool.eq_false_iff.mpr fun hres => ?_
  simp only [Value.isReserved, Bool.or_eq_true, beq_iff_eq, decide_eq_true_eq] at hres
  obtain ((rfl | rfl) | rfl) | hle := hres
  · exact absurd (hquiet (by decide) (by decide)) (by decide)
  · exact absurd (hquiet (by decide) (by decide)) (by decide)
  · exact absurd (hquiet (by decide) (by decide)) (by decide)
  · have hbase : Value.handleBase.toNat = 0xfffc000000000000 := rfl
    rw [UInt64.le_iff_toNat_le] at hle
    have hw := hquiet (by omega) (by omega)
    have hnum : Value.quietNaN.toNat = 0x7ff8000000000000 := rfl
    rw [hw] at hle
    omega

end Double

namespace Value

theorem toFloat?_ofFloat (x : Float) : (ofFloat x).toFloat? = some x := by
  have hfree : isReserved x.toBits = false := Double.isReserved_of_valid x.toModel.valid
  simp [ofFloat, ofDouble, toFloat?, toDouble?, isNumber, hfree]

end Value

end FiberMachine
