import Mathlib.Algebra.Order.Floor.Div
import Mathlib.Algebra.Order.Ring.Nat

/-!
# Trees of blocks with a fixed fan-out

A file is cut into blocks of the same size, and the blocks of every level are grouped into the
blocks of the level above.  The blocks of a level are numbered from the start of the file, and only
the last block of a level may be incomplete.
-/

namespace Gnunet.Lib.FanOut

open Nat

/-- The size of the blocks at the bottom, and the number of children of a block. -/
structure Shape where
  unit : ℕ
  fan : ℕ
  unit_pos : 0 < unit
  one_lt_fan : 1 < fan

variable (shape : Shape) {size d k : ℕ}

namespace Shape

def span (d : ℕ) : ℕ := shape.unit * shape.fan ^ d

def blocks (size d : ℕ) : ℕ := size ⌈/⌉ shape.span d

theorem fan_pos : 0 < shape.fan := zero_lt_of_lt shape.one_lt_fan

theorem span_pos (d : ℕ) : 0 < shape.span d :=
  Nat.mul_pos shape.unit_pos (Nat.pow_pos shape.fan_pos)

theorem span_zero : shape.span 0 = shape.unit := mul_one _

theorem span_succ (d : ℕ) : shape.span (d + 1) = shape.span d * shape.fan := by
  rw [span, span, pow_succ, mul_assoc]

theorem span_strictMono : StrictMono shape.span := by
  refine strictMono_nat_of_lt_succ fun d ↦ ?_
  rw [span_succ]
  exact lt_mul_of_one_lt_right (shape.span_pos d) shape.one_lt_fan

theorem span_dvd_span {d d' : ℕ} (h : d' ≤ d) : shape.span d' ∣ shape.span d :=
  mul_dvd_mul_left _ (pow_dvd_pow _ h)

theorem add_span_le {d d' o o' : ℕ} (hd : d' ≤ d) (ho : shape.span d ∣ o)
    (ho' : shape.span d' ∣ o') (h : o' < o + shape.span d) :
    o' + shape.span d' ≤ o + shape.span d := by
  have hspan := shape.span_dvd_span hd
  apply Nat.le_of_lt_add_of_dvd (Nat.add_lt_add_right h _)
  · exact Nat.dvd_add ho' (Nat.dvd_refl _)
  · exact Nat.dvd_add (hspan.trans ho) hspan

theorem child_le {d k : ℕ} (o : ℕ) (hk : k < shape.fan) :
    o + k * shape.span d + shape.span d ≤ o + shape.span (d + 1) := by
  rw [span_succ, add_assoc, ← succ_mul, mul_comm (shape.span d)]
  exact Nat.add_le_add_left (Nat.mul_le_mul_right _ hk) o

theorem exists_child {d o b : ℕ} (hle : o ≤ b) (hlt : b < o + shape.span (d + 1)) :
    ∃ k < shape.fan, o + k * shape.span d ≤ b ∧ b < o + k * shape.span d + shape.span d := by
  have hpos := shape.span_pos d
  rw [span_succ] at hlt
  refine ⟨(b - o) / shape.span d, ?_, ?_, ?_⟩
  · rw [div_lt_iff_lt_mul hpos, mul_comm]
    omega
  · have hfloor := div_mul_le_self (b - o) (shape.span d)
    omega
  · have hnext := lt_div_mul_add hpos (a := b - o)
    omega

theorem child_unique {d o b k k' : ℕ} (hle : o + k * shape.span d ≤ b)
    (hlt : b < o + k * shape.span d + shape.span d) (hle' : o + k' * shape.span d ≤ b)
    (hlt' : b < o + k' * shape.span d + shape.span d) : k = k' := by
  have hpos := shape.span_pos d
  have hdiv (j : ℕ) (hj : o + j * shape.span d ≤ b)
      (hj' : b < o + j * shape.span d + shape.span d) : (b - o) / shape.span d = j := by
    rw [Nat.div_eq_iff hpos]
    omega
  rw [← hdiv k hle hlt, hdiv k' hle' hlt']

theorem lt_blocks_iff : k < shape.blocks size d ↔ k * shape.span d < size := by
  rw [← not_le, ← not_le, mul_comm]
  exact not_congr (ceilDiv_le_iff_le_mul (shape.span_pos d))

theorem blocks_mono (d : ℕ) : Monotone fun size ↦ shape.blocks size d :=
  (gc_mul_ceilDiv (shape.span_pos d)).monotone_l

theorem blocks_span_succ (d : ℕ) : shape.blocks (shape.span (d + 1)) d = shape.fan := by
  rw [span_succ]
  exact smul_ceilDiv (shape.span_pos d) _

theorem blocks_min (size d : ℕ) :
    shape.blocks (min (shape.span (d + 1)) size) d = min shape.fan (shape.blocks size d) := by
  rw [(shape.blocks_mono d).map_min, blocks_span_succ]

theorem blocks_eq (size d : ℕ) : shape.blocks size d = shape.blocks size 0 ⌈/⌉ shape.fan ^ d := by
  have hpow : 0 < shape.fan ^ d := Nat.pow_pos shape.fan_pos
  refine eq_of_forall_ge_iff fun c ↦ ?_
  calc shape.blocks size d ≤ c
      ↔ size ≤ shape.unit * shape.fan ^ d * c := ceilDiv_le_iff_le_mul (shape.span_pos d)
    _ ↔ size ≤ shape.span 0 * (shape.fan ^ d * c) := by rw [span_zero, mul_assoc]
    _ ↔ shape.blocks size 0 ≤ shape.fan ^ d * c :=
        (ceilDiv_le_iff_le_mul (shape.span_pos 0)).symm
    _ ↔ shape.blocks size 0 ⌈/⌉ shape.fan ^ d ≤ c := (ceilDiv_le_iff_le_mul hpow).symm

theorem blocks_sub (size d k : ℕ) :
    shape.blocks (size - k * shape.span d) d = shape.blocks size d - k := by
  refine eq_of_forall_lt_iff fun i ↦ ?_
  rw [lt_blocks_iff, Nat.lt_sub_iff_add_lt, ← Nat.add_mul, Nat.lt_sub_iff_add_lt, lt_blocks_iff]

end Shape

/-- Rounding up before a multiplication gives no more than after it, if the incomplete part is large
enough. -/
theorem mul_ceilDiv_le_iff {c m : ℕ} (hc : 0 < c) (hm : 0 < m) (n : ℕ) :
    c * (n ⌈/⌉ m) ≤ c * n ⌈/⌉ m ↔ n % m = 0 ∨ (c - 1) * m < c * (n % m) := by
  have hdiv : n = m * (n / m) + n % m := (div_add_mod n m).symm
  by_cases hr : n % m = 0
  · have hexact (k : ℕ) : m * k ⌈/⌉ m = k := by
      exact smul_ceilDiv hm k
    refine iff_of_true ?_ (Or.inl hr)
    rw [hr, add_zero] at hdiv
    rw [hdiv, mul_left_comm, hexact, hexact]
  · have hceil : n ⌈/⌉ m = n / m + 1 := by
      apply le_antisymm
      · rw [ceilDiv_le_iff_le_mul hm, mul_succ]
        have hlt := mod_lt n hm
        omega
      · rw [succ_le_iff, ← not_le, ceilDiv_le_iff_le_mul hm]
        omega
    have hpred : c * (n / m + 1) - 1 = c * (n / m) + (c - 1) := by
      rw [mul_succ]
      omega
    have hpos : 0 < c * (n / m + 1) := mul_pos hc (succ_pos _)
    calc c * (n ⌈/⌉ m) ≤ c * n ⌈/⌉ m
        ↔ ¬ c * n ⌈/⌉ m ≤ c * (n / m + 1) - 1 := by
          rw [hceil]
          omega
      _ ↔ ¬ c * n ≤ m * (c * (n / m) + (c - 1)) := by rw [ceilDiv_le_iff_le_mul hm, hpred]
      _ ↔ (c - 1) * m < c * (n % m) := by
          have hleft : c * n = m * (c * (n / m)) + c * (n % m) := by
            rw [mul_left_comm, ← mul_add, ← hdiv]
          rw [not_le, hleft, mul_add, add_lt_add_iff_left, mul_comm m]
      _ ↔ n % m = 0 ∨ (c - 1) * m < c * (n % m) := by rw [or_iff_right hr]

end Gnunet.Lib.FanOut
