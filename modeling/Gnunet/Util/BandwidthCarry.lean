import Gnunet.Util.BandwidthPolling

/-!
# The carry limit of a bandwidth tracker

An update never leaves more unused bandwidth than the quota allows in `max_carry_s` seconds, or
one message of the largest size.  The code computes this limit as a product of 32-bit words.  If
the product does not fit, a tracker that is left idle gets less than the limit.
-/

namespace Gnunet.Util.Bandwidth

def Tracker.statedLimit (av : Tracker) : ℤ := max (av.rate * av.maxCarryS.toNat) 65536

theorem Tracker.carryLimit_le (av : Tracker) : av.carryLimit ≤ av.statedLimit := by
  have hnonneg : 0 ≤ av.rate * av.maxCarryS.toNat :=
    mul_nonneg (Int.natCast_nonneg _) (Int.natCast_nonneg _)
  rw [carryLimit_eq, statedLimit]
  omega

theorem Tracker.carryLimit_eq_iff (av : Tracker) :
    av.carryLimit = av.statedLimit ↔ av.rate * av.maxCarryS.toNat < 2 ^ 32 := by
  have hnonneg : 0 ≤ av.rate * av.maxCarryS.toNat :=
    mul_nonneg (Int.natCast_nonneg _) (Int.natCast_nonneg _)
  rw [carryLimit_eq, statedLimit]
  omega

/-- From some time on, at times without a wrap, an update leaves just the unused bandwidth of the
limit. -/
def Accumulates (av : Tracker) : Prop :=
  ∃ now, av.Fits now av.consumption ∧ ∀ later, now ≤ later → av.Fits later av.consumption →
    -(updateTracker later av).consumption = av.statedLimit

/-- As many bytes became available at some time as are missing to the limit. -/
def LeftLongEnough (av : Tracker) : Prop :=
  ∃ now, av.Fits now av.consumption ∧ av.consumption + av.statedLimit ≤ av.credit now

theorem accumulates_iff (av : Tracker) : Accumulates av ↔
    av.rate * av.maxCarryS.toNat < 2 ^ 32 ∧ LeftLongEnough av := by
  have hle := av.carryLimit_le
  rw [← av.carryLimit_eq_iff]
  constructor
  · rintro ⟨now, hfits, hlimit⟩
    have hfull := hlimit now (UInt64.le_refl now) hfits
    rw [consumption_updateTracker hfits] at hfull
    exact ⟨by omega, now, hfits, by omega⟩
  · rintro ⟨hlimit, now, hfits, hcredit⟩
    refine ⟨now, hfits, fun later hlater hlaterFits ↦ ?_⟩
    have hmono : av.credit now ≤ av.credit later := by
      have hproduct : av.rate * now.toNat ≤ av.rate * later.toNat :=
        mul_le_mul_of_nonneg_left (Int.ofNat_le.mpr hlater) (Int.natCast_nonneg _)
      unfold Tracker.credit Tracker.accrued
      omega
    rw [consumption_updateTracker hlaterFits]
    omega

/-- The unused bandwidth stays within the limit, and the product of elapsed time and quota fits for
up to `2^31` milliseconds. A tracker gets just the unused bandwidth of the limit if and only if the
product of the quota and `max_carry_s` fits, too. -/
theorem carry_bounded_and_accumulates_iff (av : Tracker) (now : UInt64) :
    -(updateTracker now av).consumption ≤ av.statedLimit ∧
      ((now - av.lastUpdate).toNat < 2 ^ 31 →
        (now - av.lastUpdate).toNat * av.availableBytesPerS.toNat + 500 < 2 ^ 64) ∧
      (Accumulates av ↔ av.rate * av.maxCarryS.toNat < 2 ^ 32 ∧ LeftLongEnough av) := by
  have hle := av.carryLimit_le
  refine ⟨?_, ?_, accumulates_iff av⟩
  · rw [consumption_updateTracker_eq]
    omega
  · intro helapsed
    have hproduct := Nat.mul_le_mul helapsed.le av.availableBytesPerS.toNat_lt.le
    omega

/-- After 65536 seconds without consumption at 65536 bytes a second, a tracker that may carry
65536 seconds has 65536 bytes and not `2^32`. -/
theorem carry_of_wrapped_product :
    let av := trackerInit 0 65536 65536
    av.statedLimit = 2 ^ 32 ∧ av.credit 65536000 = 2 ^ 32 ∧
      (updateTracker 65536000 av).consumption = -65536 ∧ ¬Accumulates av := by
  have hlimit : ¬(trackerInit 0 65536 65536).rate *
      (trackerInit 0 65536 65536).maxCarryS.toNat < 2 ^ 32 := by decide
  exact ⟨by decide, by decide, by decide, fun h ↦ hlimit ((accumulates_iff _).mp h).1⟩

end Gnunet.Util.Bandwidth
