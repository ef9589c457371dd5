import Mathlib.Data.BitVec

/-!
# Prefix masks

A mask with `p` leading ones is built by shifting a one in at the top `p` times.  Two values
agree under a mask exactly if they agree at every position the mask selects.
-/

namespace Gnunet.Lib.PrefixMask

open BitVec

variable {w : ℕ}

def pushOne (mask : BitVec w) : BitVec w := (mask >>> 1) + twoPow w (w - 1)

def ones (w p : ℕ) : BitVec w := pushOne^[p] 0#w

theorem getMsbD_pushOne (mask : BitVec w) (k : ℕ) :
    (pushOne mask).getMsbD k = (decide (k < w) && (decide (k = 0) || mask.getMsbD (k - 1))) := by
  have hdisjoint : (mask >>> 1) &&& twoPow w (w - 1) = 0#w := by
    apply eq_of_getLsbD_eq
    intro i hi
    simp only [getLsbD_and, getLsbD_ushiftRight]
    by_cases htop : w - 1 = i
    · rw [getLsbD_of_ge _ _ (by omega)]
      simp
    · simp [htop]
  rw [pushOne, add_eq_or_of_and_eq_zero _ _ hdisjoint]
  simp only [getMsbD]
  by_cases hk : k < w
  · by_cases hzero : k = 0
    · have htop : w - 1 < w := by omega
      simp [hzero, htop]
    · have hne : w - 1 ≠ w - 1 - k := by omega
      have hshift : 1 + (w - 1 - k) = w - 1 - (k - 1) := by omega
      have hpred : k - 1 < w := by omega
      simp [hzero, hne, hshift, hpred]
  · simp [hk]

theorem getMsbD_ones (p k : ℕ) : (ones w p).getMsbD k = decide (k < p ∧ k < w) := by
  induction p generalizing k with
  | zero => simp [ones]
  | succ p ih =>
    rw [ones, Function.iterate_succ_apply', ← ones, getMsbD_pushOne]
    grind

/-- Agreement under a mask is agreement at the positions it selects. -/
theorem and_eq_and_iff (x y mask : BitVec w) :
    x &&& mask = y &&& mask ↔
      ∀ k, mask.getMsbD k = true → x.getMsbD k = y.getMsbD k := by
  constructor
  · intro h k hk
    have hbit := congrArg (fun v ↦ v.getMsbD k) h
    simpa [hk] using hbit
  · intro h
    apply eq_of_getMsbD_eq
    intro k hk
    rw [getMsbD_and, getMsbD_and]
    by_cases hmask : mask.getMsbD k = true
    · rw [h k hmask]
    · simp [Bool.eq_false_of_not_eq_true hmask]

theorem append_eq_append_iff {v : ℕ} {x x' : BitVec v} {y y' : BitVec w} :
    x ++ y = x' ++ y' ↔ x = x' ∧ y = y' := by
  constructor
  · intro h
    constructor
    · have hleft := congrArg (extractLsb' w v) h
      rwa [extractLsb'_append_eq_left, extractLsb'_append_eq_left] at hleft
    · have hright := congrArg (extractLsb' 0 w) h
      rwa [extractLsb'_append_eq_right, extractLsb'_append_eq_right] at hright
  · rintro ⟨rfl, rfl⟩
    rfl

end Gnunet.Lib.PrefixMask
