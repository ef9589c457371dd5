import Mathlib.Algebra.Order.Ring.Abs
import Mathlib.Tactic.Ring
import Gnunet.Lib.SignedWord
import Gnunet.Lib.SilentSteps
import Gnunet.Util.Bandwidth

/-!
# Asking a bandwidth tracker

A question updates the tracker as a consumption does. If a whole number of bytes became available
since the last update, this changes nothing for what comes later; otherwise a fraction of a byte is
lost or won. Up to one byte for each such question, the available bandwidth does not depend on the
questions, as long as nothing is forgotten at them because of the carry limit.
-/

namespace Gnunet.Util.Bandwidth

open Lib.Runs Lib.SignedWord Lib.SilentSteps Option Tracker Call

namespace Tracker

def consumption (av : Tracker) : ℤ := av.consumptionSinceLastUpdate.toInt

def rate (av : Tracker) : ℤ := av.availableBytesPerS.toNat

/-- The thousandths of a byte that became available since the last update. -/
def accrued (av : Tracker) (now : UInt64) : ℤ := av.rate * now.toNat - av.rate * av.lastUpdate.toNat

def credit (av : Tracker) (now : UInt64) : ℤ := (av.accrued now + 500) / 1000

def carryLimit (av : Tracker) : ℤ := av.maxCarry.toNat

/-- The clock does not run backwards, and the words of an update do not wrap. -/
def Fits (av : Tracker) (now : UInt64) (consumption : ℤ) : Prop :=
  av.lastUpdate ≤ now ∧ av.accrued now + 500 < 2 ^ 64 ∧ -2 ^ 63 ≤ consumption - av.credit now

instance (av : Tracker) (now : UInt64) (consumption : ℤ) : Decidable (av.Fits now consumption) :=
  inferInstanceAs (Decidable (_ ∧ _ ∧ _))

theorem carryLimit_eq (av : Tracker) :
    av.carryLimit = max (av.rate * av.maxCarryS.toNat % 2 ^ 32) 65536 := by
  unfold carryLimit maxCarry
  dsimp only
  split_ifs with hsmall
  · exact (max_eq_right (Int.ofNat_le.mpr (UInt64.le_of_lt hsmall))).symm
  · exact (max_eq_left (Int.ofNat_le.mpr (UInt64.not_lt.mp hsmall))).symm

theorem carryLimit_bounds (av : Tracker) : 0 ≤ av.carryLimit ∧ av.carryLimit < 2 ^ 32 := by
  rw [carryLimit_eq]
  omega

end Tracker

variable {av : Tracker} {now : UInt64}

theorem toNat_deltaAvail (hclock : av.lastUpdate ≤ now) (hproduct : av.accrued now + 500 < 2 ^ 64) :
    ((((now - av.lastUpdate) * av.availableBytesPerS.toUInt64 + 500) / 1000).toNat : ℤ) =
      av.credit now := by
  have hle : av.lastUpdate.toNat ≤ now.toNat := hclock
  have haccrued : ((now.toNat - av.lastUpdate.toNat) * av.availableBytesPerS.toNat : ℕ) =
      av.accrued now := by
    rw [Nat.cast_mul, Nat.cast_sub hle, accrued, rate]
    ring
  set product := (now.toNat - av.lastUpdate.toNat) * av.availableBytesPerS.toNat
  have hsmall : product + 500 < 2 ^ 64 := by omega
  rw [UInt64.toNat_div, UInt64.toNat_add, UInt64.toNat_mul, UInt64.toNat_sub_of_le _ _ hclock,
    UInt32.toNat_toUInt64, Nat.mod_eq_of_lt (by omega : product < 2 ^ 64)]
  change (((product + 500) % 2 ^ 64 / 1000 : ℕ) : ℤ) = _
  rw [Nat.mod_eq_of_lt hsmall, credit, ← haccrued]
  rfl

theorem consumption_updateTracker_eq (now : UInt64) (av : Tracker) :
    (updateTracker now av).consumption = max (av.consumptionSinceLastUpdate.toUInt64 -
      ((now - av.lastUpdate) * av.availableBytesPerS.toUInt64 + 500) / 1000).toInt64.toInt
      (-av.carryLimit) := by
  obtain ⟨_, hlimitLt⟩ := av.carryLimit_bounds
  set left := (av.consumptionSinceLastUpdate.toUInt64 -
    ((now - av.lastUpdate) * av.availableBytesPerS.toUInt64 + 500) / 1000).toInt64
  have hnegLimit : (-av.maxCarry).toInt64.toInt = -av.carryLimit :=
    toInt_neg_unsigned (by unfold carryLimit at hlimitLt; omega)
  change (if left < 0 then if av.maxCarry > (-left).toUInt64 then (-(-left).toUInt64).toInt64
    else (-av.maxCarry).toInt64 else left).toInt = _
  by_cases hnegative : left.toInt < 0
  · have hsize := toNat_neg_signed hnegative
    rw [if_pos (Int64.lt_iff_toInt_lt.mpr hnegative)]
    by_cases hroom : (-left).toUInt64 < av.maxCarry
    · have hlt : ((-left).toUInt64.toNat : ℤ) < av.carryLimit := Int.ofNat_lt.mpr hroom
      rw [if_pos hroom, toInt_neg_unsigned (by omega)]
      omega
    · have hle : av.carryLimit ≤ ((-left).toUInt64.toNat : ℤ) :=
        Int.ofNat_le.mpr (UInt64.not_lt.mp hroom)
      rw [if_neg hroom]
      omega
  · rw [if_neg fun hlt ↦ hnegative (Int64.lt_iff_toInt_lt.mp hlt)]
    omega

theorem consumption_updateTracker (h : av.Fits now av.consumption) :
    (updateTracker now av).consumption = max (av.consumption - av.credit now) (-av.carryLimit) := by
  obtain ⟨hclock, hproduct, hlow⟩ := h
  have hcredit := toNat_deltaAvail hclock hproduct
  rw [consumption_updateTracker_eq, ← hcredit]
  exact congrArg (max · _) (toInt_sub_unsigned (hcredit ▸ hlow))

@[simp] theorem lastUpdate_updateTracker (now : UInt64) (av : Tracker) :
    (updateTracker now av).lastUpdate = now := rfl

@[simp] theorem rate_updateTracker (now : UInt64) (av : Tracker) :
    (updateTracker now av).rate = av.rate := rfl

def Call.update (av : Tracker) : Call → Option (ℤ × UInt64)
  | .consume now size => if size > 0 then some (av.consumption + size.toInt, now) else none
  | .updateQuota now _ _ => some (av.consumption, now)
  | .getDelay now _ => if av.availableBytesPerS = 0 then none else some (av.consumption, now)
  | .getAvailable now _ => some (av.consumption, now)

def Call.InWords (av : Tracker) : Call → Prop
  | .consume _ size => -2 ^ 63 ≤ av.consumption + size.toInt ∧ av.consumption + size.toInt < 2 ^ 63
  | .updateQuota now later limit =>
    let av := { updateTracker now av with availableBytesPerS := limit }
    av.Fits later av.consumption
  | .getDelay _ _ => True
  | .getAvailable _ _ => True

def Call.InRange (av : Tracker) (call : Call) : Prop :=
  (∀ update ∈ call.update av, av.Fits update.2 update.1) ∧ call.InWords av

def Call.BelowLimit (av : Tracker) (call : Call) : Prop :=
  ∀ update ∈ call.update av, -av.carryLimit ≤ update.1 - av.credit update.2

/-- One, if a call updates the tracker when no whole number of bytes became available. -/
def Call.fraction (av : Tracker) (call : Call) : ℕ :=
  match call.update av with
  | none => 0
  | some (_, now) => if av.accrued now % 1000 = 0 then 0 else 1

def Call.questionFraction (av : Tracker) (call : Call) : ℕ :=
  if call.isQuery then call.fraction av else 0

/-- The words have room, and at questions nothing is forgotten. -/
def Call.Calm (av : Tracker) (call : Call) : Prop :=
  call.InRange av ∧ (call.isQuery = true → call.BelowLimit av)

variable {size : Int64} {next : Tracker} {call : Call} {n : ℕ} {now : UInt64}

theorem toInt_consumption_add (h : InWords av (.consume now size)) :
    (av.consumptionSinceLastUpdate + size).toInt = av.consumption + size.toInt := by
  rw [Int64.toInt_add]
  apply Int.bmod_eq_of_le
  · exact h.1
  · have hlt := h.2
    unfold consumption at hlt
    omega

theorem trackerConsume_pos (hsize : size > 0) (h : InRange av (.consume now size)) :
    (trackerConsume now size av).2 = updateTracker now
        { av with consumptionSinceLastUpdate := av.consumptionSinceLastUpdate + size } := by
  have hadd := toInt_consumption_add h.2
  have hpos : (0 : ℤ) < size.toInt := Int64.lt_iff_toInt_lt.mp hsize
  have hgrows : ¬av.consumptionSinceLastUpdate + size < av.consumptionSinceLastUpdate := by
    rw [Int64.lt_iff_toInt_lt, hadd]
    unfold consumption
    omega
  rw [trackerConsume]
  dsimp only
  split_ifs
  · rfl
  · rfl

theorem consumption_trackerConsume (hsize : size > 0) (h : InRange av (.consume now size)) :
    (trackerConsume now size av).2.consumption =
      max (av.consumption + size.toInt - av.credit now) (-av.carryLimit) := by
  have hfits := h.1 (av.consumption + size.toInt, now) (if_pos hsize)
  rw [trackerConsume_pos hsize h, ← toInt_consumption_add h.2]
  rw [← toInt_consumption_add h.2] at hfits
  exact consumption_updateTracker hfits

theorem perform_query (hquery : call.isQuery = true) (h : perform av call = some next) :
    call.update av = none ∧ next = av ∨
      ∃ now, call.update av = some (av.consumption, now) ∧ next = updateTracker now av := by
  cases call with
  | consume now size => cases hquery
  | updateQuota now later limit => cases hquery
  | getDelay now size =>
    obtain rfl := some.inj h
    unfold trackerGetDelay
    rw [update]
    split_ifs
    · exact .inl ⟨rfl, rfl⟩
    · right
      refine ⟨now, rfl, ?_⟩
      dsimp only
      split_ifs
      · rfl
      · rfl
  | getAvailable now later =>
    right
    refine ⟨now, rfl, ?_⟩
    obtain ⟨⟨_, next⟩, hvalue, rfl⟩ := map_eq_some_iff.mp h
    obtain ⟨_, -, hpair⟩ := map_eq_some_iff.mp hvalue
    exact (Prod.mk.inj hpair).2.symm

/-- What decides on all later updates, in thousandths of a byte. -/
def Tracker.level (av : Tracker) : ℤ := 1000 * av.consumption + av.rate * av.lastUpdate.toNat

structure Near (n : ℕ) (s t : Tracker) : Prop where
  rate : s.availableBytesPerS = t.availableBytesPerS
  carry : s.maxCarryS = t.maxCarryS
  level : |s.level - t.level| ≤ 1000 * n

section

variable {s t : Tracker} (h : Near n s t)
include h

theorem Near.rate_eq : s.rate = t.rate := by
  rw [Tracker.rate, Tracker.rate, h.rate]

theorem Near.carryLimit_eq : s.carryLimit = t.carryLimit := by
  rw [carryLimit, carryLimit, maxCarry, maxCarry, h.rate, h.carry]

theorem Near.symm : Near n t s :=
  ⟨h.rate.symm, h.carry.symm, by rw [abs_sub_comm]; exact h.level⟩

/-- Updates at one time, with consumptions changed by the same amount, come no further apart. -/
theorem Near.abs_update_sub_le (now : UInt64) (size : ℤ) :
    |max (s.consumption + size - s.credit now) (-s.carryLimit) -
      max (t.consumption + size - t.credit now) (-t.carryLimit)| ≤ n := by
  have hlevel := abs_le.mp h.level
  rw [h.carryLimit_eq]
  unfold Tracker.credit Tracker.accrued
  unfold Tracker.level at hlevel
  rw [h.rate_eq] at hlevel ⊢
  rw [abs_le]
  omega

theorem Near.abs_updateTracker (hs : s.Fits now s.consumption) (ht : t.Fits now t.consumption) :
    |(updateTracker now s).consumption - (updateTracker now t).consumption| ≤ n := by
  have hclose := h.abs_update_sub_le now 0
  rw [add_zero, add_zero] at hclose
  rw [consumption_updateTracker hs, consumption_updateTracker ht]
  exact hclose

end

variable {s t : Tracker}

theorem near_of_consumption (hrate : s.availableBytesPerS = t.availableBytesPerS)
    (hcarry : s.maxCarryS = t.maxCarryS) (hlast : s.lastUpdate = t.lastUpdate)
    (h : |s.consumption - t.consumption| ≤ n) :
    Near n s t := by
  refine ⟨hrate, hcarry, ?_⟩
  have hbounds := abs_le.mp h
  unfold level rate
  rw [hrate, hlast, abs_le]
  omega

theorem fraction_of_update {c : ℤ} (h : call.update av = some (c, now)) :
    call.fraction av = if av.accrued now % 1000 = 0 then 0 else 1 := by
  rw [fraction, h]

/-- A question moves the level by less than a byte, and not at all without a fraction. -/
theorem abs_level_updateTracker (hfits : av.Fits now av.consumption)
    (hlimit : -av.carryLimit ≤ av.consumption - av.credit now)
    (hupdate : call.update av = some (av.consumption, now)) :
    |(updateTracker now av).level - av.level| ≤ 1000 * call.fraction av := by
  rw [fraction_of_update hupdate, level, consumption_updateTracker hfits, max_eq_left hlimit,
    rate_updateTracker, lastUpdate_updateTracker, level, abs_le]
  unfold credit accrued
  split_ifs
  · omega
  · omega

theorem Near.question (h : Near n s t) (hquery : call.isQuery = true)
    (hcalm : call.Calm s) (hnext : perform s call = some next) :
    Near (n + call.questionFraction s) next t := by
  rw [questionFraction, if_pos hquery]
  rcases perform_query hquery hnext with ⟨hnone, rfl⟩ | ⟨now, hupdate, rfl⟩
  · have hzero : call.fraction next = 0 := by rw [fraction, hnone]
    rw [hzero]
    exact h
  · refine ⟨h.rate, h.carry, ?_⟩
    have hmoved := abs_level_updateTracker (hcalm.1.1 _ hupdate) (hcalm.2 hquery _ hupdate) hupdate
    calc |(updateTracker now s).level - t.level|
        ≤ |(updateTracker now s).level - s.level| + |s.level - t.level| := abs_sub_le _ _ _
      _ ≤ 1000 * call.fraction s + 1000 * n := add_le_add hmoved h.level
      _ = 1000 * (n + call.fraction s : ℕ) := by
        push_cast
        ring

theorem Near.consume (h : Near n s t) (hs : InRange s (.consume now size))
    (ht : InRange t (.consume now size)) :
    Near n (trackerConsume now size s).2 (trackerConsume now size t).2 := by
  by_cases hsize : size > 0
  · have hclose := h.abs_update_sub_le now size.toInt
    rw [← consumption_trackerConsume hsize hs, ← consumption_trackerConsume hsize ht] at hclose
    rw [trackerConsume_pos hsize hs, trackerConsume_pos hsize ht] at hclose ⊢
    exact near_of_consumption h.rate h.carry rfl hclose
  · rw [trackerConsume, if_neg hsize, trackerConsume, if_neg hsize]
    have haddS := toInt_consumption_add hs.2
    have haddT := toInt_consumption_add ht.2
    refine ⟨h.rate, h.carry, ?_⟩
    have hlevel := abs_le.mp h.level
    change |1000 * (s.consumptionSinceLastUpdate + size).toInt + s.rate * s.lastUpdate.toNat -
      (1000 * (t.consumptionSinceLastUpdate + size).toInt + t.rate * t.lastUpdate.toNat)| ≤ 1000 * n
    unfold Tracker.level at hlevel
    rw [abs_le]
    omega

theorem Near.updateQuota {later : UInt64} {limit : UInt32} (h : Near n s t)
    (hs : InRange s (.updateQuota now later limit))
    (ht : InRange t (.updateQuota now later limit)) :
    Near n (trackerUpdateQuota now later limit s) (trackerUpdateQuota now later limit t) := by
  have hupdated : Near n { updateTracker now s with availableBytesPerS := limit }
      { updateTracker now t with availableBytesPerS := limit } :=
    near_of_consumption rfl h.carry rfl (h.abs_updateTracker (hs.1 _ rfl) (ht.1 _ rfl))
  unfold trackerUpdateQuota
  dsimp only
  have hlower : (updateTracker now s).availableBytesPerS =
      (updateTracker now t).availableBytesPerS := h.rate
  rw [hlower]
  split_ifs
  · have hclose := hupdated.abs_updateTracker hs.2 ht.2
    exact near_of_consumption hupdated.rate hupdated.carry (by simp) hclose
  · exact hupdated

theorem Near.visible {s' t' : Tracker} (h : Near n s t) (hquery : call.isQuery = false)
    (hs : call.InRange s) (ht : call.InRange t) (hs' : perform s call = some s')
    (ht' : perform t call = some t') : Near n s' t' := by
  cases call with
  | consume now size =>
    obtain rfl := some.inj hs'
    obtain rfl := some.inj ht'
    exact h.consume hs ht
  | updateQuota now later limit =>
    obtain rfl := some.inj hs'
    obtain rfl := some.inj ht'
    exact h.updateQuota hs ht
  | getDelay now size => cases hquery
  | getAvailable now later => cases hquery

/-- Runs with the same consumptions and quotas end as near as their questions have fractions. -/
theorem near_runs {start : Tracker} {first second : List Call}
    (hsame : first.filter (!·.isQuery) = second.filter (!·.isQuery))
    (hfirst : Along perform Calm start first) (hsecond : Along perform Calm start second)
    (hs : run perform start first = some s) (ht : run perform start second = some t) :
    Near (costs perform questionFraction start first +
      costs perform questionFraction start second) s t := by
  have hstart : Near 0 start start := ⟨rfl, rfl, by rw [sub_self]; exact le_rfl⟩
  have hvisible (n : ℕ) (s t : Tracker) (call : Call) (s' t' : Tracker) (h : Near n s t)
      (hquery : call.isQuery = false) (hcalmS : call.Calm s) (hcalmT : call.Calm t)
      (hs' : perform s call = some s') (ht' : perform t call = some t') :
      Near (n + call.questionFraction s + call.questionFraction t) s' t' := by
    have hcost (av : Tracker) : call.questionFraction av = 0 := by
      rw [questionFraction, hquery, if_neg Bool.false_ne_true]
    rw [hcost, hcost]
    exact h.visible hquery hcalmS.1 hcalmT.1 hs' ht'
  have hnear := @related_runs Tracker Call perform isQuery questionFraction Calm Near
    (fun n s t call next h hquery hcalm hnext ↦ h.question hquery hcalm hnext)
    (fun n s t call next h hquery hcalm hnext ↦ (h.symm.question hquery hcalm hnext).symm)
    hvisible 0 start start s t first second hstart hsame hfirst hsecond hs ht
  rwa [Nat.zero_add] at hnear

theorem toNat_valueGetAvailableUntil_lt (bps : UInt32) (deadline : UInt64) :
    (valueGetAvailableUntil bps deadline).toNat < 2 ^ 62 := by
  have hlt := UInt64.toNat_lt (bps.toUInt64 * deadline + 500)
  change (bps.toUInt64 * deadline + 500).toNat / 1000 < 2 ^ 62
  omega

theorem toInt_available {bps : UInt32} {duration : UInt64} (h : av.Fits now av.consumption) :
    (valueGetAvailableUntil bps duration -
        (updateTracker now av).consumptionSinceLastUpdate.toUInt64).toInt64.toInt =
      (valueGetAvailableUntil bps duration).toNat - (updateTracker now av).consumption := by
  have havail := toNat_valueGetAvailableUntil_lt bps duration
  have hhigh := (updateTracker now av).consumptionSinceLastUpdate.toInt_lt
  have hlow : -2 ^ 32 ≤ (updateTracker now av).consumptionSinceLastUpdate.toInt := by
    have hlimit := av.carryLimit_bounds
    have hvalue := consumption_updateTracker h
    unfold consumption at hvalue
    omega
  apply toInt_sub_signed
  · omega
  · omega

theorem Near.getAvailable {s' t' : Tracker} {later : UInt64} {a b : Int64} (h : Near n s t)
    (hs : InRange s (.getAvailable now later)) (ht : InRange t (.getAvailable now later))
    (ha : trackerGetAvailable now later s = some (a, s'))
    (hb : trackerGetAvailable now later t = some (b, t')) : |a.toInt - b.toInt| ≤ n := by
  have hfitsS : s.Fits now s.consumption := hs.1 _ rfl
  have hfitsT : t.Fits now t.consumption := ht.1 _ rfl
  have hclose := h.abs_updateTracker hfitsS hfitsT
  obtain ⟨duration, hduration, hpairA⟩ := map_eq_some_iff.mp ha
  obtain ⟨duration', hduration', hpairB⟩ := map_eq_some_iff.mp hb
  have hsame : duration' = duration := some.inj (hduration'.symm.trans hduration)
  have hrate : (updateTracker now t).availableBytesPerS =
      (updateTracker now s).availableBytesPerS := h.rate.symm
  rw [hsame, hrate] at hpairB
  rw [← (Prod.mk.inj hpairA).1, ← (Prod.mk.inj hpairB).1,
    toInt_available hfitsS, toInt_available hfitsT]
  have hbounds := abs_le.mp hclose
  rw [abs_le]
  omega

def Call.consumed : Call → ℤ
  | .consume _ size => size.toInt
  | _ => 0

def consumed (calls : List Call) : ℤ := (calls.map Call.consumed).sum

def Call.keepsQuota : Call → Bool
  | .updateQuota _ _ _ => false
  | _ => true

/-- Thousandths of a byte that were credited beyond what the quota allows. -/
def excess (s t : Tracker) (consumed : ℤ) : ℤ :=
  1000 * (consumed - (t.consumption - s.consumption)) -
    s.rate * (t.lastUpdate.toNat - s.lastUpdate.toNat)

/-- An update below the carry limit is off by half a byte at most. -/
theorem abs_excess_update {size : ℤ}
    (hupdate : call.update av = some (av.consumption + size, now)) (hlimit : call.BelowLimit av)
    (hvalue : next.consumption = max (av.consumption + size - av.credit now) (-av.carryLimit))
    (hlast : next.lastUpdate = now) : |excess av next size| ≤ 500 * call.fraction av := by
  have hbelow : -av.carryLimit ≤ av.consumption + size - av.credit now := hlimit _ hupdate
  rw [max_eq_left hbelow] at hvalue
  rw [fraction_of_update hupdate, excess, hvalue, hlast, abs_le, mul_sub av.rate]
  unfold credit accrued
  split_ifs
  · omega
  · omega

theorem excess_self (av : Tracker) : excess av av 0 = 0 := by
  unfold excess
  ring

theorem abs_excess_query (hquery : call.isQuery = true) (hrange : call.InRange av)
    (hlimit : call.BelowLimit av) (h : perform av call = some next) :
    next.rate = av.rate ∧ |excess av next 0| ≤ 500 * call.fraction av := by
  rcases perform_query hquery h with ⟨-, rfl⟩ | ⟨now, hupdate, rfl⟩
  · rw [excess_self, abs_zero]
    exact ⟨rfl, by omega⟩
  · have hvalue := consumption_updateTracker (hrange.1 _ hupdate)
    rw [← add_zero av.consumption] at hupdate
    refine ⟨rfl, abs_excess_update hupdate hlimit ?_ rfl⟩
    rw [add_zero]
    exact hvalue

theorem abs_excess_consume (hrange : InRange av (.consume now size))
    (hlimit : BelowLimit av (.consume now size)) :
    (trackerConsume now size av).2.rate = av.rate ∧
      |excess av (trackerConsume now size av).2 size.toInt| ≤
        500 * fraction av (.consume now size) := by
  by_cases hsize : size > 0
  · have hvalue := consumption_trackerConsume hsize hrange
    rw [trackerConsume_pos hsize hrange] at hvalue ⊢
    exact ⟨rfl, abs_excess_update (if_pos hsize) hlimit hvalue rfl⟩
  · rw [trackerConsume, if_neg hsize]
    refine ⟨rfl, ?_⟩
    have hvalue : excess av
        { av with consumptionSinceLastUpdate := av.consumptionSinceLastUpdate + size }
        size.toInt = 0 := by
      change 1000 * (size.toInt -
        ((av.consumptionSinceLastUpdate + size).toInt - av.consumption)) -
          av.rate * (av.lastUpdate.toNat - av.lastUpdate.toNat) = 0
      rw [toInt_consumption_add hrange.2]
      ring
    rw [hvalue, abs_zero]
    omega

theorem abs_excess_perform (hquota : call.keepsQuota = true) (hrange : call.InRange av)
    (hlimit : call.BelowLimit av) (h : perform av call = some next) :
    next.rate = av.rate ∧ |excess av next call.consumed| ≤ 500 * call.fraction av := by
  cases call with
  | updateQuota now later limit => cases hquota
  | consume now size =>
    obtain rfl := some.inj h
    exact abs_excess_consume hrange hlimit
  | getDelay now size => exact abs_excess_query rfl hrange hlimit h
  | getAvailable now later => exact abs_excess_query rfl hrange hlimit h

theorem excess_add {u : Tracker} (hrate : t.rate = s.rate) (first second : ℤ) :
    excess s u (first + second) = excess s t first + excess t u second := by
  unfold excess
  rw [hrate]
  ring

/-- Over a whole run each update with a fraction is off by half a byte at most. -/
theorem abs_excess_run {start last : Tracker} {calls : List Call}
    (hquota : ∀ call ∈ calls, call.keepsQuota = true)
    (hcalm : Along perform (fun av call ↦ call.InRange av ∧ call.BelowLimit av) start calls)
    (hrun : run perform start calls = some last) :
    |excess start last (consumed calls)| ≤ 500 * costs perform fraction start calls := by
  induction calls generalizing start with
  | nil =>
    obtain rfl := some.inj hrun
    change |excess start start 0| ≤ 0
    rw [excess_self, abs_zero]
  | cons call calls ih =>
    obtain ⟨next, hnext, hrest⟩ := bind_eq_some_iff.mp hrun
    rw [List.forall_mem_cons] at hquota
    obtain ⟨hrate, hstep⟩ := abs_excess_perform hquota.1 hcalm.1.1 hcalm.1.2 hnext
    have hcalls := ih hquota.2 (hcalm.2 next hnext) hrest
    rw [costs_cons hnext]
    calc |excess start last (consumed (call :: calls))|
        = |excess start next call.consumed + excess next last (consumed calls)| := by
          rw [← excess_add hrate, consumed, List.map_cons, List.sum_cons, consumed]
      _ ≤ |excess start next call.consumed| + |excess next last (consumed calls)| := abs_add_le _ _
      _ ≤ 500 * call.fraction start + 500 * costs perform fraction next calls :=
        add_le_add hstep hcalls
      _ = _ := by
        push_cast
        ring

instance (av : Tracker) (call : Call) : Decidable (call.InWords av) :=
  match call with
  | .consume _ _ => inferInstanceAs (Decidable (_ ∧ _))
  | .updateQuota _ _ _ => inferInstanceAs (Decidable (Fits _ _ _))
  | .getDelay _ _ => .isTrue trivial
  | .getAvailable _ _ => .isTrue trivial

instance (av : Tracker) (call : Call) : Decidable (call.InRange av) :=
  inferInstanceAs (Decidable (_ ∧ _))

instance (av : Tracker) (call : Call) : Decidable (call.BelowLimit av) :=
  inferInstanceAs (Decidable (∀ update ∈ call.update av, _))

instance (av : Tracker) (call : Call) : Decidable (call.Calm av) :=
  inferInstanceAs (Decidable (_ ∧ (_ → _)))

/-- Two runs with the same consumptions and quotas, in which words have room, nothing is forgotten
at a question, and at most one question comes when no whole number of bytes became available, say
within one byte the same. And with at most two such updates, below the carry limit, the credited
bytes are within one byte of the quota. -/
theorem polling_within_byte (start : Tracker) :
    (∀ (first second : List Call) (now later : UInt64) (s t s' t' : Tracker) (a b : Int64),
      first.filter (!·.isQuery) = second.filter (!·.isQuery) →
      Along perform (fun av call ↦ call.Calm av) start first →
      Along perform (fun av call ↦ call.Calm av) start second →
      costs perform (fun av call ↦ call.questionFraction av) start first +
        costs perform (fun av call ↦ call.questionFraction av) start second ≤ 1 →
      run perform start first = some s → run perform start second = some t →
      InRange s (.getAvailable now later) → InRange t (.getAvailable now later) →
      trackerGetAvailable now later s = some (a, s') →
      trackerGetAvailable now later t = some (b, t') →
      |a.toInt - b.toInt| ≤ 1) ∧ (∀ (calls : List Call) (last : Tracker),
      (∀ call ∈ calls, call.keepsQuota = true) →
      Along perform (fun av call ↦ call.InRange av ∧ call.BelowLimit av) start calls →
      costs perform (fun av call ↦ call.fraction av) start calls ≤ 2 →
      run perform start calls = some last →
      |1000 * (consumed calls - (last.consumption - start.consumption)) -
        start.rate * (last.lastUpdate.toNat - start.lastUpdate.toNat)| ≤ 1000) := by
  constructor
  · intro first second now later s t s' t' a b hsame hfirst hsecond hcosts hs ht hrangeS hrangeT
      ha hb
    have hnear := (near_runs hsame hfirst hsecond hs ht).getAvailable hrangeS hrangeT ha hb
    exact hnear.trans (Int.ofNat_le.mpr hcosts)
  · intro calls last hquota hcalm hcosts hrun
    have hexcess := abs_excess_run hquota hcalm hrun
    have hfractions : costs perform fraction start calls ≤ 2 := hcosts
    unfold excess at hexcess
    omega

/-- A quota of 1000 bytes a second has no fractions. -/
theorem polling_within_byte_thousand :
    ∃ s t s' t' a b,
      run perform (trackerInit 0 1000 10) [.getAvailable 500 500, .getDelay 700 65536,
        .consume 1000 100, .getAvailable 1250 1250] = some s ∧
      run perform (trackerInit 0 1000 10) [.consume 1000 100] = some t ∧
      trackerGetAvailable 1500 1500 s = some (a, s') ∧
      trackerGetAvailable 1500 1500 t = some (b, t') ∧ |a.toInt - b.toInt| ≤ 1 ∧
      |1000 * (100 - (s.consumption - 0)) - 1000 * (s.lastUpdate.toNat - 0)| ≤ 1000 := by
  have h := polling_within_byte (trackerInit 0 1000 10)
  refine ⟨_, _, _, _, _, _, rfl, rfl, rfl, rfl, ?_, ?_⟩
  · exact h.1 [.getAvailable 500 500, .getDelay 700 65536, .consume 1000 100,
      .getAvailable 1250 1250] [.consume 1000 100] 1500 1500 _ _ _ _ _ _ rfl (by decide)
      (by decide) (by decide) rfl rfl (by decide) (by decide) rfl rfl
  · exact h.2 [.getAvailable 500 500, .getDelay 700 65536, .consume 1000 100,
      .getAvailable 1250 1250] _ (by decide) (by decide) (by decide) rfl

/-- At one byte a second, three questions within two seconds double what is available; and a
question makes a tracker forget what it would have taken for a later consumption. -/
theorem polling_changes_available :
    (((run perform (trackerInit 0 1 10)
        [.getAvailable 500 500, .getAvailable 1000 1000, .getAvailable 1500 1500]).bind
          (trackerGetAvailable 2000 2000)).map Prod.fst = some 4 ∧
      (trackerGetAvailable 2000 2000 (trackerInit 0 1 10)).map Prod.fst = some 2) ∧
    ((run perform (trackerInit 0 1000 1)
        [.getAvailable 100000 100000, .consume 100000 10000]).bind
          (trackerGetAvailable 100000 100000)).map Prod.fst = some 55536 ∧
      ((run perform (trackerInit 0 1000 1) [.consume 100000 10000]).bind
        (trackerGetAvailable 100000 100000)).map Prod.fst = some 65536 := by
  decide

end Gnunet.Util.Bandwidth
