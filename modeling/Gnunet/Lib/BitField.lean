import Gnunet.Lib.BitWindow

/-!
# Bit vectors as sets of pending positions

`lowest w n` has the lowest `n` of `w` bits set.  A set bit is cleared by subtracting its power of
two, and nothing is pending when the vector is zero.
-/

namespace Gnunet.Lib.BitField

open BitWindow BitVec Nat

variable {w : ℕ} {bits : BitVec w} {i j n : ℕ}

def lowest (w n : ℕ) : BitVec w := if n = w then allOnes w else 1#w <<< n - 1#w

theorem getLsbD_lowest (hn : n ≤ w) (i : ℕ) : (lowest w n).getLsbD i = decide (i < n) := by
  rw [lowest]
  split_ifs with h
  · rw [getLsbD_allOnes, h]
  · have hlt : n < w := lt_of_le_of_ne hn h
    have hpow : 2 ^ n < 2 ^ w := Nat.pow_lt_pow_right (by omega) hlt
    have hpos : 0 < 2 ^ n := Nat.two_pow_pos n
    have hone : 1 % 2 ^ w = 1 := mod_eq_of_lt (by omega)
    have hvalue : (1#w <<< n - 1#w).toNat = 2 ^ n - 1 := by
      rw [toNat_sub, toNat_shiftLeft, toNat_ofNat, hone, Nat.shiftLeft_eq,
        one_mul, mod_eq_of_lt hpow]
      have hshift : 2 ^ w - 1 + 2 ^ n = 2 ^ n - 1 + 2 ^ w := by omega
      rw [hshift, add_mod_right, mod_eq_of_lt (by omega)]
    rw [getLsbD, hvalue, testBit_two_pow_sub_one]

theorem ne_zero_of_getLsbD (h : bits.getLsbD i = true) : bits ≠ 0#w := by
  rintro rfl
  simp at h

theorem getLsbD_sub_one_shiftLeft (h : bits.getLsbD i = true) (j : ℕ) :
    (bits - 1#w <<< i).getLsbD j = (bits.getLsbD j && decide (j ≠ i)) := by
  set rest := bits &&& ~~~(1#w <<< i)
  have hi : i < w := lt_of_getLsbD h
  have hdisjoint : rest &&& 1#w <<< i = 0#w := by
    rw [and_one_shiftLeft_eq_zero_iff, getLsbD_and, getLsbD_not, getLsbD_one_shiftLeft]
    simp
  have hsplit : bits = rest + 1#w <<< i := by
    rw [add_eq_or_of_and_eq_zero _ _ hdisjoint]
    apply eq_of_getLsbD_eq
    intro j hj
    rw [getLsbD_or, getLsbD_and, getLsbD_not, getLsbD_one_shiftLeft]
    by_cases hji : j = i
    · simp [hji, hi, h]
    · simp [hji, hj]
  have hsub : bits - 1#w <<< i = rest := by
    nth_rewrite 1 [hsplit]
    exact add_sub_cancel rest _
  rw [hsub, getLsbD_and, getLsbD_not, getLsbD_one_shiftLeft]
  by_cases hj : j < w
  · by_cases hji : j = i
    · simp [hji]
    · simp [hji, hj]
  · rw [getLsbD_of_ge bits j (Nat.le_of_not_lt hj)]
    simp

end Gnunet.Lib.BitField
