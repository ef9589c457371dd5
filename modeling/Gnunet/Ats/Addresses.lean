import Gnunet.Lib.Contest
import Mathlib.Data.List.Basic
import Mathlib.Order.Nat
import Mathlib.Algebra.Group.Nat.Defs

/-!
# Suggesting an address

The choice of an address for a peer in `gnunet-service-ats_addresses.c`. An iteration over the
addresses of the peer keeps the better one of each pair. The comparison prefers an address that
has bandwidth, and otherwise one with a smaller distance or with a smaller latency; so an address
that is further away may replace one that is near.
-/

namespace Gnunet.Ats

open Lib List

structure ATSAddress where
  plugin : String
  addr : List UInt8
  atspDistance : ℕ
  atspLatency : ℕ
  assignedBwIn : ℕ
  blockInterval : ℕ
  blockedUntil : ℕ
  deriving DecidableEq

/-- `GNUNET_TIME_relative_add` and `GNUNET_TIME_absolute_add`. -/
def timeAdd (a b : ℕ) : ℕ :=
  if a = 2 ^ 64 - 1 ∨ b = 2 ^ 64 - 1 then 2 ^ 64 - 1
  else if (a + b) % 2 ^ 64 < a then 2 ^ 64 - 1
  else (a + b) % 2 ^ 64

def blockingDelta : ℕ := 100

def block (now : ℕ) (aa : ATSAddress) : ATSAddress :=
  { aa with
    blockInterval := timeAdd aa.blockInterval blockingDelta
    blockedUntil := timeAdd now (timeAdd aa.blockInterval blockingDelta) }

/-- The tests behind the exception for `tcp`. -/
def Beats (aa ab : ATSAddress) : Prop :=
  (ab.assignedBwIn = 0 ∧ 0 < aa.assignedBwIn) ∨ aa.atspDistance < ab.atspDistance ∨
    aa.atspLatency < ab.atspLatency

instance : DecidableRel Beats := fun _ _ ↦ inferInstanceAs (Decidable (_ ∨ _))

def better (ap : Option ATSAddress) (aa : ATSAddress) : ATSAddress :=
  match ap with
  | none => aa
  | some ab =>
    if ab.plugin = "tcp" ∧ aa.plugin = "tcp" ∧ ab.addr ≠ [] ∧ aa.addr = [] then aa
    else if ab.plugin = "tcp" ∧ aa.plugin = "tcp" ∧ ab.addr = [] then ab
    else if Beats aa ab then aa
    else ab

def findAddressIt (now : ℕ) (ap : Option ATSAddress) (aa : ATSAddress) :
    Option ATSAddress × ATSAddress :=
  if aa.blockedUntil = max now aa.blockedUntil then (ap, aa)
  else (some (better ap (block now aa)), block now aa)

/-- Each address comes with the time at which the iteration visits it. -/
def requestAddressSimple (visits : List (ℕ × ATSAddress)) : Option ATSAddress :=
  visits.foldl (fun ap visit ↦ (findAddressIt visit.1 ap visit.2).1) none

/-- It has bandwidth, if one of them has, and else the least distance and then the least latency. -/
def Best (addresses : List ATSAddress) (aa : ATSAddress) : Prop :=
  if ∃ a ∈ addresses, 0 < a.assignedBwIn then 0 < aa.assignedBwIn
  else ∀ a ∈ addresses, aa.atspDistance < a.atspDistance ∨
    aa.atspDistance = a.atspDistance ∧ aa.atspLatency ≤ a.atspLatency

instance (addresses : List ATSAddress) (aa : ATSAddress) : Decidable (Best addresses aa) :=
  inferInstanceAs (Decidable (ite _ _ _))

def Plain (visits : List (ℕ × ATSAddress)) : Prop :=
  ∀ visit ∈ visits, visit.2.blockedUntil < visit.1 ∧ visit.2.plugin ≠ "tcp"

instance (visits : List (ℕ × ATSAddress)) : Decidable (Plain visits) :=
  inferInstanceAs (Decidable (∀ _ ∈ _, _))

theorem requestAddressSimple_eq {visits : List (ℕ × ATSAddress)} (h : Plain visits) :
    requestAddressSimple visits =
      Contest.winner Beats (visits.map fun visit ↦ block visit.1 visit.2) := by
  rw [Contest.winner, foldl_map]
  apply foldl_ext
  intro ap visit hvisit
  obtain ⟨_, hplugin⟩ := h visit hvisit
  have hmax : visit.2.blockedUntil ≠ max visit.1 visit.2.blockedUntil := by omega
  have hplugin' : (block visit.1 visit.2).plugin ≠ "tcp" := hplugin
  rw [findAddressIt, if_neg hmax]
  cases ap with
  | none => rfl
  | some ab => simp [better, Contest.challenge, hplugin']

section Best

variable {addresses : List ATSAddress} {g b z : ATSAddress}

theorem Best.beats (hg : Best addresses g) (hnot : ¬ Best addresses b) : Beats g b := by
  unfold Best at hg hnot
  split_ifs at hg hnot
  · exact .inl ⟨Nat.eq_zero_of_not_pos hnot, hg⟩
  · by_contra hbeats
    simp only [Beats] at hbeats
    refine hnot fun a ha ↦ ?_
    have hother := hg a ha
    omega

theorem Best.resists (hb : Best addresses b) (hz : z ∈ addresses) (hgb : ¬ Beats g b)
    (hzg : ¬ Beats z g) : ¬ Beats z b := by
  unfold Best at hb
  simp only [Beats, not_or, not_and, not_lt] at hgb hzg ⊢
  split_ifs at hb with hany
  · exact ⟨fun hzero ↦ absurd hzero hb.ne', by omega, by omega⟩
  · have hnone : z.assignedBwIn = 0 := Nat.eq_zero_of_not_pos fun hpos ↦ hany ⟨z, hz, hpos⟩
    exact ⟨fun _ ↦ hnone.le, by omega, by omega⟩

end Best

theorem best_map_block (visits : List (ℕ × ATSAddress)) (aa : ATSAddress) :
    Best (visits.map fun visit ↦ block visit.1 visit.2) aa ↔ Best (visits.map Prod.snd) aa := by
  simp only [Best, mem_map, exists_exists_and_eq_and, forall_exists_index, and_imp,
    forall_apply_eq_imp_iff₂]
  rfl

/-- The suggestion is one of the best addresses exactly if one of these is followed, in the order
of the iteration, only by addresses that do not beat it. -/
theorem suggestion_best_iff (visits : List (ℕ × ATSAddress)) (h : Plain visits) :
    (∃ aa, requestAddressSimple visits = some aa ∧ Best (visits.map Prod.snd) aa) ↔
      ∃ before visit after, visits = before ++ visit :: after ∧
        Best (visits.map Prod.snd) visit.2 ∧ ∀ later ∈ after, ¬ Beats later.2 visit.2 := by
  rw [requestAddressSimple_eq h]
  constructor
  · rintro ⟨aa, hwinner, hbest⟩
    obtain ⟨_, _, hsplit, hback⟩ := Contest.exists_split Beats hwinner
    obtain ⟨before, _, rfl, -, hrest⟩ := map_eq_append_iff.mp hsplit
    obtain ⟨visit, after, rfl, rfl, rfl⟩ := map_eq_cons_iff.mp hrest
    refine ⟨before, visit, after, rfl, hbest, fun later hlater ↦ ?_⟩
    exact hback (block later.1 later.2) (mem_map.mpr ⟨later, hlater, rfl⟩)
  · rintro ⟨before, visit, after, rfl, hbest, hafter⟩
    simp only [← best_map_block] at hbest ⊢
    rw [map_append] at hbest ⊢
    apply Contest.good_winner Beats (g := block visit.1 visit.2)
    · exact fun b _ hnot ↦ Best.beats hbest hnot
    · intro b _ hb hresists z hz hz'
      exact Best.resists hb (by simp [hz]) hresists hz'
    · exact hbest
    · intro z hz
      obtain ⟨later, hlater, rfl⟩ := mem_map.mp hz
      exact hafter later hlater

def udpAddress (distance latency bandwidth : ℕ) : ATSAddress :=
  ⟨"udp", [1], distance, latency, bandwidth, 0, 0⟩

theorem suggestion_best_near_last :
    Plain [(1, udpAddress 2 5 0), (1, udpAddress 1 9 0)] ∧
      ∃ aa, requestAddressSimple [(1, udpAddress 2 5 0), (1, udpAddress 1 9 0)] = some aa ∧
        Best [udpAddress 2 5 0, udpAddress 1 9 0] aa := by
  have hplain : Plain [(1, udpAddress 2 5 0), (1, udpAddress 1 9 0)] := by decide
  refine ⟨hplain, (suggestion_best_iff _ hplain).mpr ⟨[(1, udpAddress 2 5 0)], _, [], rfl, ?_, ?_⟩⟩
  · decide
  · simp

/-- A far address with a small latency replaces a near one, and an address without bandwidth
replaces the one in use. -/
theorem suggestion_not_best :
    (∃ aa, requestAddressSimple [(1, udpAddress 1 9 0), (1, udpAddress 2 5 0)] = some aa ∧
      ¬ Best [udpAddress 1 9 0, udpAddress 2 5 0] aa) ∧
    ∃ aa, requestAddressSimple [(1, udpAddress 2 5 7), (1, udpAddress 1 9 0)] = some aa ∧
      ¬ Best [udpAddress 2 5 7, udpAddress 1 9 0] aa :=
  ⟨⟨_, rfl, by decide⟩, ⟨_, rfl, by decide⟩⟩

end Gnunet.Ats
