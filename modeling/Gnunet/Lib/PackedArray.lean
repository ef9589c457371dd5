import Mathlib.Data.Nat.Bitwise

/-!
# Bits and 4-bit counters packed into bytes

An array of bytes is read as an array of bits, eight in each byte, or as an array of counters
from 0 to 15, two in each byte.  A counter that has reached its maximum is never changed again
(`up`, `down`), so a counter that is not at its maximum has counted exactly (`Counts`).
-/

namespace Gnunet.Lib.PackedArray

open Function Nat

variable {bytes : ℕ → UInt8} {i j : ℕ}

def bit (bytes : ℕ → UInt8) (i : ℕ) : Bool := (bytes (i / 8)).toNat.testBit (i % 8)

def mask (i : ℕ) : UInt8 := 1 <<< UInt8.ofNat (i % 8)

theorem toNat_mask (i : ℕ) : (mask i).toNat = 2 ^ (i % 8) := by
  have hlt : i % 8 < 8 := mod_lt i (by omega)
  have hpow : 2 ^ (i % 8) < 2 ^ 8 := Nat.pow_lt_pow_right (by omega) hlt
  rw [mask, UInt8.toNat_shiftLeft, UInt8.toNat_ofNat_of_lt' (by change i % 8 < 256; omega),
    mod_eq_of_lt hlt, shiftLeft_eq]
  rw [UInt8.toNat_one, one_mul]
  exact mod_eq_of_lt hpow

theorem testBit_mask (i j : ℕ) : (mask i).toNat.testBit j = decide (i % 8 = j) := by
  rw [toNat_mask, testBit_two_pow]

theorem and_mask_eq_zero_iff (byte : UInt8) (i : ℕ) :
    byte &&& mask i = 0 ↔ byte.toNat.testBit (i % 8) = false := by
  rw [← UInt8.toNat_inj, UInt8.toNat_and, toNat_mask]
  constructor
  · intro h
    have hbit := congrArg (testBit · (i % 8)) h
    simpa using hbit
  · intro h
    apply eq_of_testBit_eq
    intro j
    by_cases hj : i % 8 = j
    · subst hj
      simp [h]
    · simp [hj]

theorem bit_update_or (bytes : ℕ → UInt8) (i j : ℕ) :
    bit (update bytes (i / 8) (bytes (i / 8) ||| mask i)) j = (bit bytes j || decide (j = i)) := by
  unfold bit
  by_cases hslot : j / 8 = i / 8
  · rw [hslot, update_self, UInt8.toNat_or, testBit_or, testBit_mask]
    have hiff : i % 8 = j % 8 ↔ j = i := by omega
    simp only [hiff]
  · have hne : j ≠ i := fun h ↦ hslot (by rw [h])
    rw [update_of_ne hslot]
    simp [hne]

theorem bit_update_and_not (bytes : ℕ → UInt8) (i j : ℕ) :
    bit (update bytes (i / 8) (bytes (i / 8) &&& ~~~mask i)) j =
      (bit bytes j && decide (j ≠ i)) := by
  unfold bit
  by_cases hslot : j / 8 = i / 8
  · have hj : j % 8 < 8 := mod_lt j (by omega)
    have hnot : (~~~mask i).toNat.testBit (j % 8) = !(mask i).toNat.testBit (j % 8) := by
      change (~~~(mask i).toBitVec).getLsbD (j % 8) = !(mask i).toBitVec.getLsbD (j % 8)
      simp [hj]
    rw [hslot, update_self, UInt8.toNat_and, testBit_and, hnot, testBit_mask]
    have hiff : i % 8 = j % 8 ↔ j = i := by omega
    simp only [hiff, decide_not]
  · have hne : j ≠ i := fun h ↦ hslot (by rw [h])
    rw [update_of_ne hslot]
    simp [hne]

def counter (bytes : ℕ → UInt8) (i : ℕ) : ℕ :=
  if i % 2 = 0 then (bytes (i / 2)).toNat % 16 else (bytes (i / 2)).toNat / 16

theorem toNat_pair {high low : UInt32} (hhigh : high.toNat < 16) (hlow : low.toNat < 16) :
    ((high <<< 4 ||| low).toUInt8).toNat = high.toNat * 16 + low.toNat := by
  have hshift : (high <<< 4).toNat = high.toNat <<< 4 := by
    change high.toNat <<< 4 % 2 ^ 32 = high.toNat <<< 4
    omega
  rw [UInt32.toNat_toUInt8, UInt32.toNat_or, hshift,
    ← shiftLeft_add_eq_or_of_lt (by omega : low.toNat < 2 ^ 4)]
  omega

theorem toNat_low (byte : UInt8) : (byte.toUInt32 &&& 0xF).toNat = byte.toNat % 16 := by
  exact and_two_pow_sub_one_eq_mod byte.toNat 4

theorem toNat_high (byte : UInt8) (high : UInt32) (k : ℕ) (hk : 4 ≤ k)
    (hhigh : high.toNat >>> 4 = 2 ^ k - 1) :
    ((byte.toUInt32 &&& high) >>> 4).toNat = byte.toNat / 16 := by
  have hbyte := UInt8.toNat_lt byte
  have hpow : 2 ^ 4 ≤ 2 ^ k := Nat.pow_le_pow_right (by omega) hk
  change (byte.toNat &&& high.toNat) >>> 4 = byte.toNat / 16
  rw [shiftRight_and_distrib, hhigh, and_two_pow_sub_one_eq_mod, shiftRight_eq_div_pow]
  exact mod_eq_of_lt (by omega)

theorem counter_update {byte : UInt8} {c : ℕ}
    (heven : i % 2 = 0 → byte.toNat % 16 = c ∧ byte.toNat / 16 = (bytes (i / 2)).toNat / 16)
    (hodd : i % 2 ≠ 0 → byte.toNat / 16 = c ∧ byte.toNat % 16 = (bytes (i / 2)).toNat % 16)
    (j : ℕ) :
    counter (update bytes (i / 2) byte) j = if j = i then c else counter bytes j := by
  unfold counter
  by_cases hslot : j / 2 = i / 2
  · rw [hslot, update_self]
    by_cases hpar : i % 2 = 0
    · obtain ⟨hc, hother⟩ := heven hpar
      split_ifs <;> omega
    · obtain ⟨hc, hother⟩ := hodd hpar
      split_ifs <;> omega
  · have hne : j ≠ i := fun h ↦ hslot (by rw [h])
    rw [update_of_ne hslot, if_neg hne]

variable {c n : ℕ}

def up (c : ℕ) : ℕ := if c < 15 then c + 1 else c

def down (c : ℕ) : ℕ := if 0 < c ∧ c < 15 then c - 1 else c

def Counts (c n : ℕ) : Prop := c = 15 ∨ c < 15 ∧ c = n

theorem Counts.up (h : Counts c n) : Counts (up c) (n + 1) := by
  unfold Counts PackedArray.up at *
  split_ifs <;> omega

theorem Counts.down (h : Counts c (n + 1)) : Counts (down c) n := by
  unfold Counts PackedArray.down at *
  split_ifs <;> omega

theorem Counts.pos (h : Counts c n) (hn : 0 < n) : 0 < c := by
  unfold Counts at h
  omega

end Gnunet.Lib.PackedArray
