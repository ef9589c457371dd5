import Mathlib.Data.BitVec

/-!
# Bit vectors as windows over a sequence of numbers

A bit vector of width `w` records which of `w` neighbouring positions are marked.  `mark` sets
one position and `advance` makes room for new positions at the low end (all marks move up, and
those that leave the window are forgotten).
-/

namespace Gnunet.Lib.BitWindow

open BitVec

variable {w : ℕ}

def mark (bits : BitVec w) (i : ℕ) : BitVec w := bits ||| 1#w <<< i

def advance (bits : BitVec w) (shift : ℕ) : BitVec w :=
  if w ≤ shift then 0#w else bits <<< shift

theorem getLsbD_one_shiftLeft (i j : ℕ) : (1#w <<< i).getLsbD j = decide (i < w ∧ j = i) := by
  grind

@[simp] theorem getLsbD_mark (bits : BitVec w) (i j : ℕ) :
    (mark bits i).getLsbD j = (bits.getLsbD j || decide (i < w ∧ j = i)) := by
  rw [mark, getLsbD_or, getLsbD_one_shiftLeft]

@[simp] theorem getLsbD_advance (bits : BitVec w) (shift j : ℕ) :
    (advance bits shift).getLsbD j = (decide (j < w) && decide (shift ≤ j) &&
      bits.getLsbD (j - shift)) := by
  unfold advance
  split
  next hshift =>
    grind
  next hshift =>
    grind

theorem and_one_shiftLeft_eq_zero_iff (bits : BitVec w) (i : ℕ) :
    bits &&& 1#w <<< i = 0#w ↔ bits.getLsbD i = false := by
  constructor
  · intro hzero
    have hbit := congrArg (fun v ↦ v.getLsbD i) hzero
    by_cases hi : i < w
    · simpa [hi] using hbit
    · exact getLsbD_of_ge bits i (Nat.le_of_not_lt hi)
  · intro hbit
    apply eq_of_getLsbD_eq
    intro j hj
    rw [getLsbD_and, getLsbD_one_shiftLeft]
    by_cases hji : j = i
    · simp [hji, hbit]
    · simp [hji]

end Gnunet.Lib.BitWindow
