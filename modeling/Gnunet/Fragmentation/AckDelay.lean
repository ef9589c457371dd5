import Gnunet.Fragmentation.Sender

/-!
# The delay between fragments

An acknowledgement that ends a round of transmissions adapts the delay between two fragments to
the loss: `GNUNET_FRAGMENT_process_ack` counts the fragments of the message and the acknowledged
ones.  Delays are in milliseconds.
-/

namespace Gnunet.Fragmentation

open Lib List BitVec

/-- A shift of an `int` by 32 or more is undefined: the distance is taken modulo 32 if `wraps`, else
no bit is left. -/
def distance (wraps : Bool) (i : ℕ) : ℕ := if wraps then i % 32 else i

/-- `1 << i` for an `int`, as it is converted to 64 bits. -/
def intBit (wraps : Bool) (i : ℕ) : BitVec 64 := (1#32 <<< distance wraps i).signExtend 64

def countFragment (wraps : Bool) (acksMask abits : BitVec 64) (counts : ℕ × ℕ) (i : ℕ) : ℕ × ℕ :=
  if acksMask &&& intBit wraps i = 1#64 then
    (counts.1 + 1, if abits &&& intBit wraps i = 0#64 then counts.2 + 1 else counts.2)
  else counts

def relativeMultiply (rel factor : UInt64) : UInt64 :=
  if factor = 0 then 0
  else if rel * factor / factor ≠ rel then 0xFFFFFFFFFFFFFFFF
  else rel * factor

def adaptDelay (msgDelay : UInt64) (counts : ℕ × ℕ) : ℕ :=
  min (if counts.2 = 0 then relativeMultiply msgDelay (.ofNat counts.1)
    else if counts.2 < counts.1 then msgDelay * .ofNat counts.2 / .ofNat counts.1
    else if 1 < msgDelay then msgDelay - 1
    else msgDelay).toNat 1000

section Delay

variable (wraps : Bool) (n : ℕ) (abits : BitVec 64) (msgDelay : UInt64)

def countFragments : ℕ × ℕ :=
  (range 64).foldl (countFragment wraps (BitField.lowest 64 n) abits) (0, 0)

def delayAfter : ℕ := adaptDelay msgDelay (countFragments wraps n abits)

def missing : ℕ := (range n).countP abits.getLsbD

/-- The counts are those of the message, and the delay follows the loss. -/
structure FollowsLoss : Prop where
  counts : countFragments wraps n abits = (n, n - missing n abits)
  slower : 0 < missing n abits → min msgDelay.toNat 1000 ≤ delayAfter wraps n abits msgDelay
  monotone : ∀ abits', missing n abits ≤ missing n abits' →
    delayAfter wraps n abits msgDelay ≤ delayAfter wraps n abits' msgDelay

end Delay

variable {wraps : Bool} {n : ℕ} {abits abits' : BitVec 64} {msgDelay : UInt64}

/-- The bit is compared with one, so only a shift by nothing is counted. -/
theorem countFragment_eq {acksMask : BitVec 64} (hmask : acksMask.getLsbD 0 = true)
    (counts : ℕ × ℕ) (i : ℕ) : countFragment wraps acksMask abits counts i =
      if distance wraps i = 0 then (counts.1 + 1, counts.2 + (!abits.getLsbD 0).toNat)
      else counts := by
  by_cases hi : distance wraps i = 0
  · have hone : intBit wraps i = 1#64 := by
      rw [intBit, hi]
      decide
    rw [countFragment, hone, and_one_eq_setWidth_ofBool_getLsbD, hmask,
      and_one_eq_setWidth_ofBool_getLsbD, if_pos hi]
    cases abits.getLsbD 0 <;> rfl
  · have hne : acksMask &&& intBit wraps i ≠ 1#64 := by
      intro heq
      have hbit := congrArg (getLsbD · 0) heq
      simp [intBit, getElem_signExtend, hi] at hbit
    rw [countFragment, if_neg hne, if_neg hi]

theorem countFragments_eq (hn : 1 ≤ n) (hn64 : n ≤ 64) :
    countFragments wraps n abits = (if wraps then 2 else 1,
      if abits.getLsbD 0 then 0 else if wraps then 2 else 1) := by
  have hfirst : (BitField.lowest 64 n).getLsbD 0 = true := by
    rw [BitField.getLsbD_lowest hn64]
    exact decide_eq_true hn
  rw [countFragments, funext₂ (countFragment_eq hfirst)]
  cases wraps <;> cases abits.getLsbD 0 <;> rfl

theorem le_relativeMultiply {factor : UInt64} (h : factor ≠ 0) (rel : UInt64) :
    rel.toNat ≤ (relativeMultiply rel factor).toNat := by
  rw [relativeMultiply, if_neg h]
  split_ifs with hoverflow
  · exact Nat.le_of_lt_succ rel.toNat_lt
  · have hle := Nat.div_le_self (rel * factor).toNat factor.toNat
    rw [← UInt64.toNat_div, not_not.mp hoverflow] at hle
    exact hle

theorem le_delayAfter (hn : 1 ≤ n) (hn64 : n ≤ 64) (h : abits.getLsbD 0 = true) :
    min msgDelay.toNat 1000 ≤ delayAfter wraps n abits msgDelay := by
  rw [delayAfter, countFragments_eq hn hn64, h]
  refine min_le_min_right _ (le_relativeMultiply ?_ _)
  cases wraps <;> decide

theorem delayAfter_le (hn : 1 ≤ n) (hn64 : n ≤ 64) (h : abits.getLsbD 0 = false) :
    delayAfter wraps n abits msgDelay ≤ min msgDelay.toNat 1000 := by
  have hfaster : (if 1 < msgDelay then msgDelay - 1 else msgDelay).toNat ≤ msgDelay.toNat := by
    split_ifs with hone
    · rw [UInt64.toNat_sub_of_le _ _ (UInt64.le_of_lt hone)]
      exact Nat.sub_le _ _
    · exact le_rfl
  rw [delayAfter, countFragments_eq hn hn64, h]
  refine min_le_min_right _ ?_
  cases wraps <;> exact hfaster

/-- The counts are right and the delay follows the loss only for messages of a single fragment, or,
where the shift wraps around, for two fragments that share their fate. -/
theorem followsLoss_iff (hn : 1 ≤ n) (hn64 : n ≤ 64) : FollowsLoss wraps n abits msgDelay ↔
    wraps = false ∧ n = 1 ∨ wraps = true ∧ n = 2 ∧ abits.getLsbD 0 = abits.getLsbD 1 := by
  have hone (f : ℕ → Bool) : (range 1).countP f = (f 0).toNat := by
    cases h : f 0 <;> simp [h]
  have htwo (f : ℕ → Bool) : (range 2).countP f = (f 0).toNat + (f 1).toNat := by
    cases h : f 0 <;> cases h' : f 1 <;> simp [range_succ, h, h']
  constructor
  · intro h
    have hcounts := (countFragments_eq hn hn64).symm.trans h.counts
    rw [Prod.mk.injEq] at hcounts
    cases wraps with
    | false => exact .inl ⟨rfl, hcounts.1.symm⟩
    | true =>
      have hacked := hcounts.2
      rw [missing] at hacked
      cases habits : abits.getLsbD 0 <;> cases habits' : abits.getLsbD 1 <;> grind
  · intro h
    -- a loss includes the first fragment, and so does every larger one
    have hfirst (bits : BitVec 64) (hle : missing n abits ≤ missing n bits)
        (hloss : 0 < missing n abits) : bits.getLsbD 0 = true := by
      rcases h with ⟨-, rfl⟩ | ⟨-, rfl, hsame⟩
      · rw [missing, missing] at *
        grind
      · have hbit := Bool.toNat_le (bits.getLsbD 1)
        rw [missing, missing] at *
        grind
    refine ⟨?_, fun hloss ↦ le_delayAfter hn hn64 (hfirst abits le_rfl hloss), fun abits' hle ↦ ?_⟩
    · rw [countFragments_eq hn hn64, missing]
      rcases h with ⟨rfl, rfl⟩ | ⟨rfl, rfl, hsame⟩
      · rw [hone]
        cases abits.getLsbD 0 <;> rfl
      · rw [htwo, ← hsame]
        cases abits.getLsbD 0 <;> rfl
    · by_cases hsame : abits.getLsbD 0 = abits'.getLsbD 0
      · rw [delayAfter, delayAfter, countFragments_eq hn hn64, countFragments_eq hn hn64, hsame]
      · have hlost : 0 < missing n abits ∨ abits.getLsbD 0 = false := by
          rw [missing, countP_pos_iff]
          cases hbit : abits.getLsbD 0 with
          | false => exact .inr rfl
          | true => exact .inl ⟨0, mem_range.mpr hn, hbit⟩
        have hbit : abits.getLsbD 0 = false ∧ abits'.getLsbD 0 = true := by grind
        exact (delayAfter_le hn hn64 hbit.1).trans (le_delayAfter hn hn64 hbit.2)

theorem followsLoss_single : FollowsLoss false 1 1#64 500 :=
  (followsLoss_iff (by decide) (by decide)).mpr (.inl ⟨rfl, rfl⟩)

/-- The second of two fragments is lost, and the delay becomes shorter. -/
theorem lost_fragment_not_counted : missing 2 2#64 = 1 ∧
    countFragments false 2 2#64 = (1, 1) ∧ delayAfter false 2 2#64 500 = 499 ∧
    countFragments true 2 2#64 = (2, 2) ∧ delayAfter true 2 2#64 500 = 499 := by
  decide

end Gnunet.Fragmentation
