import Gnunet.Datastore.Reservations

/-!
# Making space after a PUT

After each PUT the service compares the payload with what the quota leaves beside the reservations
and the cache, and deletes entries until as much space as the PUT took is free again. The difference
is computed modulo `2 ^ 64`.

The entries are given by their sizes, in the order in which the plugin offers them. They came with
messages, so that a size has 16 bits.
-/

namespace Gnunet.Datastore

open Lib.Runs List

def space (size : UInt16) : UInt64 := (size.toUInt32 + 256).toUInt64

def quotaProcessor (need : UInt64) (size : UInt16) : UInt64 :=
  if space size > need then 0 else need - space size

/-- The loop, with the entries that are left; `none` if there are more rounds. -/
def manageSpace : ℕ → UInt64 → UInt64 → List UInt16 → Option (List UInt16)
  | 0, _, _, _ => none
  | rounds + 1, last, need, entries =>
    if need > 0 ∧ last ≠ need then
      match entries with
      -- The processor is told that there is no entry.
      | [] => manageSpace rounds need need []
      | size :: rest => manageSpace rounds need (quotaProcessor need size) rest
    else some entries

def needsSpace (service : Service) (cacheSize : UInt64) : Bool :=
  service.quota - service.reserved - cacheSize < service.payload

def executePut (rounds : ℕ) (service : Service) (cacheSize : UInt64) (size : UInt16)
    (entries : List UInt16) : Option (List UInt16) :=
  if needsSpace service cacheSize then manageSpace rounds 0 (space size) entries else some entries

theorem space_toNat (size : UInt16) : (space size).toNat = size.toNat + entryOverhead := by
  have hlt := size.toNat_lt
  simp [space, entryOverhead]
  omega

theorem quotaProcessor_toNat (need : UInt64) (size : UInt16) :
    (quotaProcessor need size).toNat = need.toNat - (space size).toNat := by
  rw [quotaProcessor]
  split_ifs with hlt
  · have hlt := UInt64.lt_iff_toNat_lt.1 hlt
    simp
    omega
  · exact UInt64.toNat_sub_of_le _ _ (UInt64.not_lt.1 hlt)

/-- Every round with an entry lowers the need, so that the loop only stops early for a need that is
met. -/
theorem manageSpace_spec (entries : List UInt16) (last need : UInt64)
    (hne : need > 0 → last ≠ need) :
    ∃ deleted left, entries = deleted ++ left ∧
      manageSpace (entries.length + 2) last need entries = some left ∧
      (need.toNat ≤ (deleted.map fun size ↦ size.toNat + entryOverhead).sum ∨ left = []) := by
  induction entries generalizing last need with
  | nil =>
    refine ⟨[], [], rfl, ?_, .inr rfl⟩
    by_cases hneed : need > 0 ∧ last ≠ need <;> simp [manageSpace, hneed]
  | cons size rest ih =>
    by_cases hneed : need > 0
    · have hspace := space_toNat size
      have hlower := quotaProcessor_toNat need size
      obtain ⟨deleted, left, hrest, hmanage, hdone⟩ := ih need (quotaProcessor need size) (by
        intro _ heq
        rw [← heq, hspace, entryOverhead] at hlower
        have hpos := UInt64.lt_iff_toNat_lt.1 hneed
        simp at hpos
        omega)
      refine ⟨size :: deleted, left, by rw [hrest, cons_append], ?_, hdone.imp_left fun hle ↦ ?_⟩
      · rw [manageSpace.eq_def]
        simp [hneed, hne hneed]
        exact hmanage
      · rw [map_cons, sum_cons]
        omega
    · refine ⟨[], size :: rest, rfl, by simp [manageSpace, hneed], .inl ?_⟩
      have hzero := UInt64.not_lt.1 hneed
      simp at hzero
      simp [hzero]

/-- The difference does not wrap around, or it is compared with a payload that is large enough. -/
def SpaceRight (service : Service) (cacheSize : UInt64) : Prop :=
  let taken := service.reserved.toNat + cacheSize.toNat
  taken ≤ service.quota.toNat ∨
    taken ≤ service.quota.toNat + 2 ^ 64 ∧
      service.quota.toNat + 2 ^ 64 < service.payload.toNat + taken ∨
    service.quota.toNat + 2 ^ 65 < service.payload.toNat + taken

/-- The quota is noticed to be exceeded exactly if the difference is right, and then entries are
deleted until the need is met or no entry is left. -/
theorem executePut_manages (service : Service) (cacheSize : UInt64) (size : UInt16)
    (entries : List UInt16) :
    ((service.quota.toNat < service.payload.toNat + service.reserved.toNat + cacheSize.toNat →
        needsSpace service cacheSize = true) ↔ SpaceRight service cacheSize) ∧
      ∃ deleted left, entries = deleted ++ left ∧
        executePut (entries.length + 2) service cacheSize size entries = some left ∧
        (needsSpace service cacheSize = true →
          size.toNat + entryOverhead ≤ (deleted.map fun size ↦ size.toNat + entryOverhead).sum ∨
            left = []) := by
  constructor
  · have hquota := service.quota.toNat_lt
    have hreserved := service.reserved.toNat_lt
    have hpayload := service.payload.toNat_lt
    have hcache := cacheSize.toNat_lt
    rw [needsSpace, decide_eq_true_eq, UInt64.lt_iff_toNat_lt, UInt64.toNat_sub, UInt64.toNat_sub,
      SpaceRight]
    omega
  · rw [executePut]
    by_cases hneeds : needsSpace service cacheSize = true
    · rw [if_pos hneeds, ← space_toNat]
      obtain ⟨deleted, left, hentries, hmanage, hdone⟩ :=
        manageSpace_spec entries 0 (space size) fun hpos ↦ (UInt64.ne_of_lt hpos)
      exact ⟨deleted, left, hentries, hmanage, fun _ ↦ hdone⟩
    · rw [if_neg hneeds]
      exact ⟨[], entries, rfl, rfl, fun h ↦ absurd h hneeds⟩

/-- A client reserves the whole quota, and an entry is stored without a reservation. -/
theorem executePut_over_quota :
    ∃ service, run step (initial 800 0) [.reserve 0 800 0, .utilizationChange 300] = some service ∧
      service.quota.toNat < service.payload.toNat + service.reserved.toNat + 100 ∧
      needsSpace service 100 = false :=
  ⟨_, rfl, by decide, by decide⟩

end Gnunet.Datastore
