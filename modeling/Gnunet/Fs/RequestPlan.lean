import Mathlib.Data.List.Basic
import Mathlib.Logic.Function.Basic
import Mathlib.Order.Nat

/-!
# Plans for pending requests

For each peer the file-sharing service keeps plans for sending requests to it
(`gnunet-service-fs_pe.c`). A request that is compatible with a plan joins it. Then the plan should
start anew if the request outlives all others, but the comparison is made when the request is
already one of them.

The priorities and times by which a plan is queued are left out.
-/

namespace Gnunet.Fs

open Function List

structure PendingRequest (K : Type*) where
  query : K
  type : ℕ
  namespaceHash : K
  ttl : ℕ

structure RequestPlan (K : Type*) where
  peHead : PendingRequest K
  others : List (PendingRequest K)
  transmissionCounter : UInt32

def RequestPlan.requests {K : Type*} (rp : RequestPlan K) : List (PendingRequest K) :=
  rp.peHead :: rp.others

abbrev PlanMap (K : Type*) := K → List (RequestPlan K)

def sblock : ℕ := 4

variable {K : Type*}

def getLatest (rp : RequestPlan K) : PendingRequest K :=
  rp.others.foldl (fun ret pr ↦ if pr.ttl > ret.ttl then pr else ret) rp.peHead

theorem ttl_peHead_le (rp : RequestPlan K) : rp.peHead.ttl ≤ (getLatest rp).ttl := by
  obtain ⟨peHead, others, _⟩ := rp
  rw [getLatest]
  induction others generalizing peHead with
  | nil => exact le_rfl
  | cons pr rest ih =>
    rw [foldl_cons]
    split_ifs with hlater
    · exact hlater.le.trans (ih pr)
    · exact ih peHead

def attach (pr : PendingRequest K) (rp : RequestPlan K) : RequestPlan K :=
  let rp := { rp with peHead := pr, others := rp.requests }
  if (getLatest rp).ttl < pr.ttl then { rp with transmissionCounter := 0 } else rp

/-- The counter is never reset, because the new request is the first of the list. -/
theorem attach_eq (pr : PendingRequest K) (rp : RequestPlan K) :
    attach pr rp = { rp with peHead := pr, others := rp.requests } :=
  if_neg (ttl_peHead_le { rp with peHead := pr, others := rp.requests }).not_gt

variable [DecidableEq K]

def isCompatible (pra prb : PendingRequest K) : Bool :=
  !(pra.type ≠ prb.type ∨ pra.query ≠ prb.query ∨
    pra.type = sblock ∧ pra.namespaceHash ≠ prb.namespaceHash)

/-- The iteration with `merge_pr`, which ends with the first compatible plan. -/
def mergePr (pr : PendingRequest K) : List (RequestPlan K) → Option (List (RequestPlan K))
  | [] => none
  | rp :: rest =>
    if isCompatible pr rp.peHead then some (attach pr rp :: rest)
    else (mergePr pr rest).map (rp :: ·)

def planAdd (plans : PlanMap K) (pr : PendingRequest K) : PlanMap K :=
  update plans pr.query <|
    match mergePr pr (plans pr.query) with
    | some merged => merged
    | none =>
      match mergePr pr (plans pr.query) with
      | some merged => merged
      | none => ⟨pr, [], 0⟩ :: plans pr.query

theorem mergePr_of_compatible {pr : PendingRequest K} {plans : List (RequestPlan K)}
    (h : ∃ rp ∈ plans, isCompatible pr rp.peHead = true) :
    ∃ before rp after, plans = before ++ rp :: after ∧ isCompatible pr rp.peHead = true ∧
      mergePr pr plans = some (before ++ attach pr rp :: after) := by
  induction plans with
  | nil => simp at h
  | cons rp rest ih =>
    rw [mergePr]
    split_ifs with hcompatible
    · exact ⟨[], rp, rest, rfl, hcompatible, rfl⟩
    · obtain ⟨before, found, after, rfl, hfound, hmerge⟩ := ih (by simpa [hcompatible] using h)
      exact ⟨rp :: before, found, after, rfl, hfound, by rw [hmerge]; rfl⟩

/-- A request that is compatible with a plan joins exactly one plan. The counter of that plan is
right, which means reset for a request that outlives the others, exactly if it was zero already or
the request does not outlive the others. -/
theorem planAdd_compatible (plans : PlanMap K) (pr : PendingRequest K)
    (h : ∃ rp ∈ plans pr.query, isCompatible pr rp.peHead = true) :
    ∃ before rp after merged, plans pr.query = before ++ rp :: after ∧
      isCompatible pr rp.peHead = true ∧
      planAdd plans pr = update plans pr.query (before ++ merged :: after) ∧
      merged.requests = pr :: rp.requests ∧
      (merged.transmissionCounter =
          (if ∀ held ∈ rp.requests, held.ttl < pr.ttl then 0 else rp.transmissionCounter) ↔
        rp.transmissionCounter = 0 ∨ ∃ held ∈ rp.requests, pr.ttl ≤ held.ttl) := by
  obtain ⟨before, rp, after, hplans, hcompatible, hmerge⟩ := mergePr_of_compatible h
  refine ⟨before, rp, after, attach pr rp, hplans, hcompatible, ?_, ?_, ?_⟩
  · rw [planAdd, hmerge]
  · rw [attach_eq]
    rfl
  · rw [attach_eq]
    by_cases hlater : ∀ held ∈ rp.requests, held.ttl < pr.ttl
    · simp only [if_pos hlater]
      exact (or_iff_left fun ⟨held, hheld, hle⟩ ↦ (hlater held hheld).not_ge hle).symm
    · simp only [if_neg hlater, true_iff]
      exact .inr (by simpa using hlater)

def sentTwice : PlanMap ℕ := update (fun _ ↦ []) 7 [⟨⟨7, 1, 0, 100⟩, [], 2⟩]

theorem planAdd_compatible_shorter :
    (∃ rp ∈ sentTwice 7, isCompatible ⟨7, 1, 0, 50⟩ rp.peHead = true) ∧
      ∃ rp ∈ planAdd sentTwice ⟨7, 1, 0, 50⟩ 7, rp.peHead = ⟨7, 1, 0, 50⟩ := by
  have h : ∃ rp ∈ sentTwice 7, isCompatible ⟨7, 1, 0, 50⟩ rp.peHead = true := by decide
  obtain ⟨_, _, _, merged, -, -, hadd, hrequests, -⟩ :=
    planAdd_compatible sentTwice ⟨7, 1, 0, 50⟩ h
  refine ⟨h, merged, ?_, (cons.inj hrequests).1⟩
  rw [hadd, update_self]
  simp

/-- A request that outlives the other one does not reset the counter. -/
theorem planAdd_not_reset :
    (planAdd sentTwice ⟨7, 1, 0, 200⟩ 7).map
      (fun rp ↦ (rp.requests.map PendingRequest.ttl, rp.transmissionCounter)) =
        [([200, 100], 2)] := by
  decide

end Gnunet.Fs
