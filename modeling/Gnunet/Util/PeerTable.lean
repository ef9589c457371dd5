import Gnunet.Lib.FreeList
import Gnunet.Util.MultiHashMapRefinement
import Gnunet.Util.Peer

/-!
# The table of peer identities

What holds between any two calls: the free list goes through the slots without references, each
identity with references has one slot, and the hash map leads to it. One lemma says that an unused
slot can be taken, one that the counter of a slot can be changed; all calls are made of these.
-/

namespace Gnunet.Util.Peer

open ContainerMultiHashMap Function Multiset
open Lib.FreeList Lib.Runs

section Invariant

variable {K : Type*} {word : K → UInt32}

def Live (peers : Peers K) (i : ℕ) : Prop := 0 < i ∧ i < peers.size ∧ (peers.table i).rc ≠ 0

def Free (peers : Peers K) (i : ℕ) : Prop := 0 < i ∧ i < peers.size ∧ (peers.table i).rc = 0

structure Listed (peers : Peers K) (slots : List ℕ) : Prop where
  visits : Visits (fun i ↦ (peers.table i).pid) peers.freeListStart slots peers.size
  nodup : slots.Nodup
  mem_slots : ∀ i, i ∈ slots ↔ Free peers i
  size_pos : 0 < peers.size

/-- The slots in use have the identities with references, each of them once. -/
structure Counted (peers : Peers K) (refs : K → ℕ) : Prop where
  own : ∀ i, Live peers i → (peers.table i).pid = i
  counted : ∀ i, Live peers i → (peers.table i).rc.toNat = refs (peers.table i).id
  exists_slot : ∀ pid, 0 < refs pid → ∃ i, Live peers i ∧ (peers.table i).id = pid
  distinct : ∀ i j, Live peers i → Live peers j → (peers.table i).id = (peers.table j).id → i = j

structure Mapped (word : K → UInt32) (peers : Peers K) (map : MultiHashMap ℕ K (Option ℕ)) :
    Prop where
  valid : Valid word peers.memory map
  small : map.useSmallEntries = true
  entry : ∀ entry ∈ entries map, ∃ i, entry = ⟨.small i, some i⟩ ∧ Live peers i
  mapped : ∀ i, Live peers i → ⟨.small i, some i⟩ ∈ entries map
  once : (pairs peers.memory map).Nodup

structure Active (word : K → UInt32) (peers : Peers K) (refs : K → ℕ) (slots : List ℕ)
    (map : MultiHashMap ℕ K (Option ℕ)) : Prop extends
    Listed peers slots, Counted peers refs, Mapped word peers map

def Consistent (word : K → UInt32) (peers : Peers K) (refs : K → ℕ) : Prop :=
  (peers.size = 0 ∧ peers.freeListStart = 0 ∧ peers.map = none ∧ ∀ pid, refs pid = 0) ∨
    ∃ slots map, peers.map = some map ∧ Active word peers refs slots map

variable {peers : Peers K} {refs : K → ℕ} {slots : List ℕ} {map : MultiHashMap ℕ K (Option ℕ)}

theorem Mapped.mem_pairs (h : Mapped word peers map) {pid : K} {value : Option ℕ} :
    (pid, value) ∈ pairs peers.memory map ↔
      ∃ i, Live peers i ∧ (peers.table i).id = pid ∧ value = some i := by
  rw [pairs, mem_map]
  constructor
  · rintro ⟨entry, hentry, hpair⟩
    obtain ⟨i, rfl, hlive⟩ := h.entry entry hentry
    exact ⟨i, hlive, congrArg Prod.fst hpair, (congrArg Prod.snd hpair).symm⟩
  · rintro ⟨i, hlive, rfl, rfl⟩
    exact ⟨_, h.mapped i hlive, rfl⟩

theorem Active.not_hasKey (h : Active word peers refs slots map) {pid : K} (hrefs : refs pid = 0) :
    ¬HasKey (pairs peers.memory map) pid := by
  rintro ⟨value, hmem⟩
  obtain ⟨i, hlive, rfl, -⟩ := h.mem_pairs.mp hmem
  have hcounted := h.counted i hlive
  rw [hrefs] at hcounted
  exact hlive.2.2 (UInt32.toNat_inj.mp hcounted)

variable {i : ℕ}

theorem Active.ne_zero_of_mem (h : Active word peers refs slots map) (hi : i ∈ slots) :
    i ≠ 0 ∧ i ≠ peers.size :=
  have hfree := (h.mem_slots i).mp hi
  ⟨Nat.ne_of_gt hfree.1, Nat.ne_of_lt hfree.2.1⟩

theorem Counted.pos_refs (h : Counted peers refs) (hi : Live peers i) :
    0 < refs (peers.table i).id := by
  rw [← h.counted i hi]
  apply Nat.pos_of_ne_zero
  exact fun hzero ↦ hi.2.2 (UInt32.toNat_inj.mp hzero)

structure Rewritten (peers next : Peers K) (id : ℕ) (entry : PeerEntry K) : Prop where
  slot : 0 < id ∧ id < peers.size
  size : next.size = peers.size
  table : ∀ i, next.table i = if i = id then entry else peers.table i

section Rewritten

variable {next : Peers K} {id : ℕ} {entry : PeerEntry K} (hnew : Rewritten peers next id entry)
include hnew

theorem Rewritten.slot_iff (p : UInt32 → Prop) :
    (0 < i ∧ i < next.size ∧ p (next.table i).rc) ↔
      if i = id then p entry.rc else 0 < i ∧ i < peers.size ∧ p (peers.table i).rc := by
  rw [hnew.size, hnew.table]
  split_ifs with hi
  · rw [hi]
    exact ⟨fun h ↦ h.2.2, fun h ↦ ⟨hnew.slot.1, hnew.slot.2, h⟩⟩
  · exact Iff.rfl

theorem Rewritten.live_iff : Live next i ↔ if i = id then entry.rc ≠ 0 else Live peers i :=
  hnew.slot_iff (· ≠ 0)

theorem Rewritten.free_iff : Free next i ↔ if i = id then entry.rc = 0 else Free peers i :=
  hnew.slot_iff (· = 0)

variable [DecidableEq K]

omit hnew in
theorem changeRefs_of_ne {other pid : K} (h : other ≠ pid) (refs : K → ℕ) (delta : ℤ) :
    changeRefs refs pid delta other = refs other := update_of_ne h _ _

theorem Rewritten.counted {delta : ℤ} (h : Counted peers refs)
    (hown : entry.rc ≠ 0 → entry.pid = id) (hrc : (entry.rc.toNat : ℤ) = refs entry.id + delta)
    (hslot : ∀ i, Live peers i → ((peers.table i).id = entry.id ↔ i = id)) :
    Counted next (changeRefs refs entry.id delta) := by
  have hself : changeRefs refs entry.id delta entry.id = entry.rc.toNat := by
    rw [changeRefs, update_self, ← hrc, Int.toNat_natCast]
  refine ⟨fun i hi ↦ ?_, fun i hi ↦ ?_, fun pid hpos ↦ ?_, fun i j hi hj hids ↦ ?_⟩
  · rw [hnew.live_iff] at hi
    rw [hnew.table]
    split_ifs at hi ⊢ with heq
    · rw [heq, hown hi]
    · exact h.own i hi
  · rw [hnew.live_iff] at hi
    rw [hnew.table]
    split_ifs at hi ⊢ with heq
    · exact hself.symm
    · rw [changeRefs_of_ne (mt (hslot i hi).mp heq)]
      exact h.counted i hi
  · by_cases heq : pid = entry.id
    · refine ⟨id, hnew.live_iff.mpr ?_, by rw [hnew.table, if_pos rfl, heq]⟩
      rw [if_pos rfl]
      intro hzero
      rw [heq, hself, hzero] at hpos
      exact Nat.lt_irrefl 0 hpos
    · rw [changeRefs_of_ne heq] at hpos
      obtain ⟨i, hi, rfl⟩ := h.exists_slot pid hpos
      have hne := mt (hslot i hi).mpr heq
      exact ⟨i, hnew.live_iff.mpr (by rwa [if_neg hne]), by rw [hnew.table, if_neg hne]⟩
  · rw [hnew.live_iff] at hi hj
    rw [hnew.table, hnew.table] at hids
    split_ifs at hi hj hids with hi' hj' hj'
    · exact hi'.trans hj'.symm
    · exact absurd ((hslot j hj).mp hids.symm) hj'
    · exact absurd ((hslot i hi).mp hids) hi'
    · exact h.distinct i j hi hj hids

end Rewritten

section Take

variable {ret : ℕ} {rest : List ℕ} {pid : K} {start : ℕ}
  {next : Option (MultiHashMap ℕ K (Option ℕ))}

theorem rewritten_take (hret : Free peers ret) :
    Rewritten peers { peers.setEntry ret ⟨pid, ret, 1⟩ with freeListStart := start, map := next }
      ret ⟨pid, ret, 1⟩ :=
  ⟨⟨hret.1, hret.2.1⟩, rfl, fun _ ↦ update_apply _ _ _ _⟩

theorem live_take (hret : Free peers ret) :
    Live { peers.setEntry ret ⟨pid, ret, 1⟩ with freeListStart := start, map := next } i ↔
      i = ret ∨ Live peers i := by
  rw [(rewritten_take hret).live_iff]
  by_cases hi : i = ret <;> simp [hi]

theorem Mapped.memory_take (h : Mapped word peers map) (hret : Free peers ret)
    {entry : MapEntry ℕ K (Option ℕ)} (hentry : entry ∈ entries map) :
    entry.key.read (peers.setEntry ret ⟨pid, ret, 1⟩).memory = entry.key.read peers.memory := by
  obtain ⟨i, rfl, hlive⟩ := h.entry entry hentry
  have hne : i ≠ ret := by
    rintro rfl
    exact hlive.2.2 hret.2.2
  change (update peers.table ret _ i).id = (peers.table i).id
  rw [update_of_ne hne]

theorem Listed.take (h : Listed peers (ret :: rest)) :
    Listed { peers.setEntry ret ⟨pid, ret, 1⟩ with
      freeListStart := (peers.table ret).pid, map := next } rest := by
  obtain ⟨hnot, hnodup⟩ := List.nodup_cons.mp h.nodup
  refine ⟨?_, hnodup, fun i ↦ ?_, h.size_pos⟩
  · refine h.visits.2.congr fun i hi ↦ ?_
    have hne : i ≠ ret := fun heq ↦ hnot (heq ▸ hi)
    change (update peers.table ret _ i).pid = (peers.table i).pid
    rw [update_of_ne hne]
  · rw [(rewritten_take ((h.mem_slots ret).mp List.mem_cons_self)).free_iff, ← h.mem_slots i,
      List.mem_cons]
    by_cases hi : i = ret <;> simp [hi, hnot]

variable [DecidableEq K]

theorem Active.get_cases (h : Active word peers refs slots map) (pid : K) :
    multihashmapGet word peers.memory none map pid = none ∧ refs pid = 0 ∨
      ∃ i, multihashmapGet word peers.memory none map pid = some i ∧ Live peers i ∧
        (peers.table i).id = pid := by
  rcases h.valid.get pid with hmem | ⟨hnot, hget⟩
  · obtain ⟨i, hlive, hid, hget⟩ := h.mem_pairs.mp hmem
    exact .inr ⟨i, hget, hlive, hid⟩
  · refine .inl ⟨hget, ?_⟩
    by_contra hpos
    obtain ⟨i, hlive, hid⟩ := h.exists_slot pid (Nat.pos_of_ne_zero hpos)
    exact hnot ⟨some i, h.mem_pairs.mpr ⟨i, hlive, hid, rfl⟩⟩

theorem Counted.take (h : Counted peers refs) (hret : Free peers ret) (hrefs : refs pid = 0) :
    Counted { peers.setEntry ret ⟨pid, ret, 1⟩ with freeListStart := start, map := next }
      (changeRefs refs pid 1) := by
  -- Neither the slot nor the identity is in use.
  refine (rewritten_take hret).counted h (fun _ ↦ rfl) (by rw [hrefs]; rfl) fun i hi ↦
    iff_of_false (fun hid ↦ ?_) ?_
  · have hpos := h.pos_refs hi
    rw [hid, hrefs] at hpos
    exact Nat.lt_irrefl 0 hpos
  · rintro rfl
    exact hi.2.2 hret.2.2

theorem Mapped.take (h : Mapped word peers map) (hret : Free peers ret)
    (hnew : ¬HasKey (pairs peers.memory map) pid)
    (hroom : IsFull map → 16 * map.mapLength.toNat ≤ maxMallocChecked) :
    ∃ next, multihashmapPut word (peers.setEntry ret ⟨pid, ret, 1⟩).memory map ret (some ret)
        .uniqueOnly = some (.ok, next) ∧
      ∀ start, Mapped word { peers.setEntry ret ⟨pid, ret, 1⟩ with
        freeListStart := start, map := some next } next := by
  set taken := peers.setEntry ret ⟨pid, ret, 1⟩
  obtain ⟨hvalid, hpairs⟩ := h.valid.of_memory fun entry hentry ↦ h.memory_take hret hentry
  have hself : taken.table ret = ⟨pid, ret, 1⟩ := update_self _ _ _
  have hkey : taken.memory ret = pid := congrArg PeerEntry.id hself
  have hnewTaken : ¬HasKey (pairs taken.memory map) (taken.memory ret) := by
    rw [hpairs, hkey]
    exact hnew
  obtain ⟨next, hput, hentries, hsmall, hnext⟩ := hvalid.put_new (some ret) hnewTaken hroom
  rw [h.small] at hentries hsmall
  refine ⟨next, hput, fun start ↦ ⟨hnext, hsmall, fun entry hentry ↦ ?_, fun i hi ↦ ?_, ?_⟩⟩
  · rw [hentries, mem_cons] at hentry
    rcases hentry with rfl | hentry
    · exact ⟨ret, rfl, (live_take hret).mpr (.inl rfl)⟩
    · obtain ⟨i, rfl, hi⟩ := h.entry entry hentry
      exact ⟨i, rfl, (live_take hret).mpr (.inr hi)⟩
  · rw [hentries, mem_cons]
    rcases (live_take hret).mp hi with rfl | hi
    · exact .inl rfl
    · exact .inr (h.mapped i hi)
  · change (pairs taken.memory next).Nodup
    rw [pairs, hentries, map_cons]
    refine nodup_cons.mpr ⟨fun hmem ↦ hnewTaken ⟨some ret, hmem⟩, ?_⟩
    change (pairs taken.memory map).Nodup
    rw [hpairs]
    exact h.once

end Take

section Change

variable {id : ℕ} {rc : UInt32}

theorem table_setRc (peers : Peers K) (id : ℕ) (rc : UInt32) (i : ℕ) :
    (setRc peers id rc).table i =
      if i = id then { peers.table id with rc := rc } else peers.table i := by
  exact update_apply _ _ _ _

theorem id_setRc (peers : Peers K) (id : ℕ) (rc : UInt32) (i : ℕ) :
    ((setRc peers id rc).table i).id = (peers.table i).id ∧
      ((setRc peers id rc).table i).pid = (peers.table i).pid := by
  rw [table_setRc]
  split_ifs with hi
  · rw [hi]
    exact ⟨rfl, rfl⟩
  · exact ⟨rfl, rfl⟩

theorem memory_setRc (peers : Peers K) (id : ℕ) (rc : UInt32) :
    (setRc peers id rc).memory = peers.memory := funext fun i ↦ (id_setRc peers id rc i).1

section

variable (hid : Live peers id)
include hid

theorem rewritten_setRc :
    Rewritten peers (setRc peers id rc) id { peers.table id with rc := rc } :=
  ⟨⟨hid.1, hid.2.1⟩, rfl, table_setRc peers id rc⟩

theorem live_setRc (hrc : rc ≠ 0) : Live (setRc peers id rc) i ↔ Live peers i := by
  rw [(rewritten_setRc hid).live_iff]
  by_cases hi : i = id <;> simp [hi, hrc, hid]

def released (peers : Peers K) (id : ℕ) (next : MultiHashMap ℕ K (Option ℕ)) : Peers K :=
  { (setRc peers id 0).setEntry id
      { (setRc peers id 0).table id with pid := peers.freeListStart } with
    freeListStart := id, map := some next }

omit hid in
theorem table_released (peers : Peers K) (id : ℕ) (next : MultiHashMap ℕ K (Option ℕ)) (i : ℕ) :
    (released peers id next).table i =
      if i = id then ⟨(peers.table id).id, peers.freeListStart, 0⟩ else peers.table i := by
  change update (setRc peers id 0).table id _ i = _
  rw [update_apply, table_setRc, if_pos rfl, table_setRc]
  split_ifs
  · rfl
  · rfl

omit hid in
theorem id_released (peers : Peers K) (id : ℕ) (next : MultiHashMap ℕ K (Option ℕ)) (i : ℕ) :
    ((released peers id next).table i).id = (peers.table i).id := by
  rw [table_released]
  split_ifs with hi
  · rw [hi]
  · rfl

variable {next : MultiHashMap ℕ K (Option ℕ)}

theorem rewritten_released :
    Rewritten peers (released peers id next) id ⟨(peers.table id).id, peers.freeListStart, 0⟩ :=
  ⟨⟨hid.1, hid.2.1⟩, rfl, table_released peers id next⟩

theorem live_released : Live (released peers id next) i ↔ i ≠ id ∧ Live peers i := by
  rw [(rewritten_released hid).live_iff]
  by_cases hi : i = id <;> simp [hi]

theorem Listed.release (h : Listed peers slots) :
    Listed (released peers id next) (id :: slots) := by
  have hnot : id ∉ slots := fun hmem ↦ hid.2.2 ((h.mem_slots id).mp hmem).2.2
  refine ⟨(h.visits.push hnot).congr fun i _ ↦ ?_, List.nodup_cons.mpr ⟨hnot, h.nodup⟩, fun i ↦ ?_,
    h.size_pos⟩
  · rw [table_released, update_apply]
    split_ifs
    · rfl
    · rfl
  · rw [(rewritten_released hid).free_iff, List.mem_cons, h.mem_slots i]
    by_cases hi : i = id <;> simp [hi]

theorem Counted.id_eq_iff (h : Counted peers refs) (hi : Live peers i) :
    (peers.table i).id = (peers.table id).id ↔ i = id :=
  ⟨h.distinct i id hi hid, fun heq ↦ heq ▸ rfl⟩

variable [DecidableEq K] {delta : ℤ}

theorem Counted.release (h : Counted peers refs)
    (hdelta : (peers.table id).rc.toNat + delta = 0) :
    Counted (released peers id next) (changeRefs refs (peers.table id).id delta) := by
  refine (rewritten_released hid).counted h (fun hne ↦ absurd rfl hne) ?_ fun i hi ↦
    h.id_eq_iff hid hi
  rw [← h.counted id hid, hdelta]
  rfl

theorem Mapped.release (h : Mapped word peers map) :
    Mapped word (released peers id
      (multihashmapRemove word peers.memory map (peers.memory id) (some id)).2)
      (multihashmapRemove word peers.memory map (peers.memory id) (some id)).2 := by
  obtain ⟨-, hpairs, hvalid⟩ := h.valid.remove (peers.memory id) (some id)
  set next := (multihashmapRemove word peers.memory map (peers.memory id) (some id)).2
  have hmemory : (released peers id next).memory = peers.memory :=
    funext (id_released peers id next)
  have hgone : (peers.memory id, some id) ∉ pairs peers.memory next := by
    rw [hpairs]
    exact h.once.notMem_erase
  refine ⟨hmemory ▸ hvalid, ?_, fun entry hentry ↦ ?_, fun i hi ↦ ?_, ?_⟩
  · rw [useSmallEntries_remove]
    exact h.small
  · obtain ⟨i, rfl, hlive⟩ := h.entry entry (mem_entries_remove hentry)
    have hne : i ≠ id := by
      rintro rfl
      exact hgone (mem_map_of_mem _ hentry)
    exact ⟨i, rfl, (live_released hid).mpr ⟨hne, hlive⟩⟩
  · obtain ⟨hne, hlive⟩ := (live_released hid).mp hi
    have hpair : ((peers.table i).id, some i) ∈ pairs peers.memory next := by
      rw [hpairs]
      refine (mem_erase_of_ne ?_).mpr (h.mem_pairs.mpr ⟨i, hlive, rfl, rfl⟩)
      exact fun heq ↦ hne (Option.some.inj (congrArg Prod.snd heq))
    obtain ⟨entry, hentry, heq⟩ := mem_map.mp hpair
    obtain ⟨j, rfl, -⟩ := h.entry entry (mem_entries_remove hentry)
    obtain rfl : j = i := Option.some.inj (congrArg Prod.snd heq)
    exact hentry
  · rw [hmemory, hpairs]
    exact h.once.erase _

theorem Active.recount (h : Active word peers refs slots map) (hrc : rc ≠ 0)
    (hdelta : (rc.toNat : ℤ) = (peers.table id).rc.toNat + delta) :
    Active word (setRc peers id rc) (changeRefs refs (peers.table id).id delta) slots map := by
  have hcounted : Counted (setRc peers id rc) (changeRefs refs (peers.table id).id delta) :=
    (rewritten_setRc hid).counted h.toCounted (fun _ ↦ h.own id hid)
      (hdelta.trans (by rw [h.counted id hid])) fun i hi ↦ h.id_eq_iff hid hi
  refine ⟨⟨?_, h.nodup, fun i ↦ ?_, h.size_pos⟩, hcounted,
    ⟨?_, h.small, fun entry hentry ↦ ?_, fun i hi ↦ ?_, ?_⟩⟩
  · exact h.visits.congr fun i _ ↦ (id_setRc peers id rc i).2
  · rw [(rewritten_setRc hid).free_iff, h.mem_slots i]
    by_cases hi : i = id
    · simp [hi, hrc, Free, hid.2.2]
    · simp [hi]
  · rw [memory_setRc]
    exact h.valid
  · obtain ⟨i, hentry, hi⟩ := h.entry entry hentry
    exact ⟨i, hentry, (live_setRc hid hrc).mpr hi⟩
  · exact h.mapped i ((live_setRc hid hrc).mp hi)
  · rw [memory_setRc]
    exact h.once

/-- The counter of a slot in use changes, and the slot is released if it has become zero. -/
theorem Consistent.change (h : Consistent word peers refs)
    (hdelta : (rc.toNat : ℤ) = (peers.table id).rc.toNat + delta) :
    ∃ next, releaseUnused word (setRc peers id rc) id = some next ∧
      Consistent word next (changeRefs refs (peers.table id).id delta) ∧
      next.size = peers.size ∧ (∀ i, (next.table i).id = (peers.table i).id) ∧
      ∀ i, (next.table i).rc = if i = id then rc else (peers.table i).rc := by
  obtain ⟨slots, map, hmap, h⟩ := h.resolve_left fun hidle ↦ by
    have hlt := hid.2.1
    omega
  have hentry : (setRc peers id rc).table id = { peers.table id with rc := rc } := by
    rw [table_setRc, if_pos rfl]
  unfold releaseUnused
  by_cases hzero : rc = 0
  · subst hzero
    have hmapEq : (setRc peers id 0).map = some map := hmap
    rw [if_pos (congrArg PeerEntry.rc hentry), hmapEq, memory_setRc]
    refine ⟨_, rfl, .inr ⟨_, _, rfl, h.toListed.release hid,
      h.toCounted.release hid (by rw [← hdelta]; rfl), h.toMapped.release hid⟩, rfl,
      id_released peers id _, fun i ↦ ?_⟩
    have hi := table_released peers id
      (multihashmapRemove word peers.memory map (peers.memory id) (some id)).2 i
    refine (congrArg PeerEntry.rc hi).trans ?_
    split_ifs
    · rfl
    · rfl
  · have hne : ¬((setRc peers id rc).table id).rc = 0 := by
      rw [hentry]
      exact hzero
    rw [if_neg hne]
    refine ⟨_, rfl, .inr ⟨slots, map, hmap, h.recount hid hzero hdelta⟩, rfl,
      fun i ↦ (id_setRc peers id rc i).1, fun i ↦ ?_⟩
    rw [table_setRc]
    split_ifs
    · rfl
    · rfl

end

end Change

end Invariant

end Gnunet.Util.Peer
