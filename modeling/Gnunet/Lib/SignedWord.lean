import Mathlib.Tactic.Common
import Mathlib.Algebra.Group.Nat.Defs
import Mathlib.Algebra.Group.Int.Defs

/-!
# Signed and unsigned words

C mixes signed and unsigned 64-bit words in one expression by turning all of them into unsigned
ones. These are the values that come out where no result is too large for its type.
-/

namespace Gnunet.Lib.SignedWord

open BitVec

variable {value : Int64} {amount : UInt64}

theorem toInt_sub_unsigned (h : -2 ^ 63 ≤ value.toInt - amount.toNat) :
    (value.toUInt64 - amount).toInt64.toInt = value.toInt - amount.toNat := by
  have hvalue := value.toInt_lt
  calc (value.toUInt64 - amount).toInt64.toInt
      = (value.toBitVec - amount.toBitVec).toInt := rfl
    _ = (value.toInt - amount.toNat).bmod (2 ^ 64) := by
      rw [toInt_sub, toInt_eq_toNat_bmod amount.toBitVec, Int.sub_bmod_bmod]
      rfl
    _ = value.toInt - amount.toNat := by
      apply Int.bmod_eq_of_le
      · exact h
      · omega

theorem toInt_sub_signed (hlow : -2 ^ 63 ≤ (amount.toNat : ℤ) - value.toInt)
    (hhigh : (amount.toNat : ℤ) - value.toInt < 2 ^ 63) :
    (amount - value.toUInt64).toInt64.toInt = amount.toNat - value.toInt := by
  calc (amount - value.toUInt64).toInt64.toInt
      = (amount.toBitVec - value.toBitVec).toInt := rfl
    _ = ((amount.toNat : ℤ) - value.toInt).bmod (2 ^ 64) := by
      rw [toInt_sub, toInt_eq_toNat_bmod amount.toBitVec, Int.bmod_sub_bmod]
      rfl
    _ = amount.toNat - value.toInt := by
      apply Int.bmod_eq_of_le
      · exact hlow
      · omega

theorem toInt_neg_unsigned (h : amount.toNat ≤ 2 ^ 63) :
    (-amount).toInt64.toInt = -amount.toNat := by
  calc (-amount).toInt64.toInt
      = (-amount.toBitVec).toInt := rfl
    _ = (-(amount.toNat : ℤ)).bmod (2 ^ 64) := by
      rw [toInt_neg, toInt_eq_toNat_bmod amount.toBitVec, Int.bmod_neg_bmod]
      rfl
    _ = -amount.toNat := by
      apply Int.bmod_eq_of_le
      · omega
      · omega

theorem toNat_add_signed {value : UInt32} {delta : Int32}
    (hlow : 0 ≤ (value.toNat : ℤ) + delta.toInt)
    (hhigh : (value.toNat : ℤ) + delta.toInt < 2 ^ 32) :
    ((value + delta.toUInt32).toNat : ℤ) = value.toNat + delta.toInt := by
  have hcases : delta.toInt = if 2 * delta.toBitVec.toNat < 2 ^ 32 then (delta.toBitVec.toNat : ℤ)
      else delta.toBitVec.toNat - (2 ^ 32 : ℕ) := toInt_eq_toNat_cond delta.toBitVec
  have hsum : (value + delta.toUInt32).toNat = (value.toNat + delta.toBitVec.toNat) % 2 ^ 32 :=
    UInt32.toNat_add value delta.toUInt32
  split_ifs at hcases
  · omega
  · omega

theorem toNat_neg_signed32 {value : Int32} (h : value.toInt < 0) :
    ((-value).toUInt32.toNat : ℤ) = -value.toInt := by
  have hcases : value.toInt = if 2 * value.toBitVec.toNat < 2 ^ 32 then (value.toBitVec.toNat : ℤ)
      else value.toBitVec.toNat - (2 ^ 32 : ℕ) := toInt_eq_toNat_cond value.toBitVec
  have hneg : (-value).toUInt32.toNat = (2 ^ 32 - value.toBitVec.toNat) % 2 ^ 32 :=
    toNat_neg value.toBitVec
  split_ifs at hcases
  · omega
  · omega

/-- This is right for the smallest word too, whose negation is not a signed word. -/
theorem toNat_neg_signed (h : value.toInt < 0) : ((-value).toUInt64.toNat : ℤ) = -value.toInt := by
  have hcases : value.toInt = if 2 * value.toBitVec.toNat < 2 ^ 64 then (value.toBitVec.toNat : ℤ)
      else value.toBitVec.toNat - (2 ^ 64 : ℕ) := toInt_eq_toNat_cond value.toBitVec
  have hneg : (-value).toUInt64.toNat = (2 ^ 64 - value.toBitVec.toNat) % 2 ^ 64 :=
    toNat_neg value.toBitVec
  split_ifs at hcases
  · omega
  · omega

end Gnunet.Lib.SignedWord
