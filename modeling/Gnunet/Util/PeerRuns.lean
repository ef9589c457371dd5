import Gnunet.Lib.SignedWord
import Gnunet.Util.PeerTable

/-!
# Interning peer identities

Every call keeps the table of peer identities consistent, as long as no reference counter becomes
too large for its word and there is room for the table and its map.
-/

namespace Gnunet.Util.Peer

open ContainerMultiHashMap Function Multiset List Option Nat
open Lib.Buckets (contents_nil placed_nil)
open Lib.FreeList Lib.Runs Lib.SignedWord

/-- There is a free slot or room for a larger table, and room for a larger map if it is full. -/
def Room {K : Type*} (peers : Peers K) : Prop :=
  (peers.freeListStart = peers.size → 8 * (peers.size + 16) ≤ maxMallocChecked) ∧
    ∀ map ∈ peers.map, IsFull map → 16 * map.mapLength.toNat ≤ maxMallocChecked

section Grow

variable {K : Type*} [Inhabited K] {word : K → UInt32} {peers : Peers K} {refs : K → ℕ}
  {map : MultiHashMap ℕ K (Option ℕ)}

def grown (peers : Peers K) : Peers K :=
  { peers with
    table := fun i ↦ if peers.size ≤ i ∧ i < peers.size + 16 then { freshEntry K with pid := i + 1 }
      else peers.table i
    size := peers.size + 16 }

theorem growTable_eq (h : 8 * (peers.size + 16) ≤ maxMallocChecked) :
    growTable peers peers.size = some (grown peers) := by
  have hcount : 0x7FFFFFFF / 8 > peers.size + 16 := by
    unfold maxMallocChecked at h
    omega
  exact if_pos ⟨hcount, h⟩

variable {i : ℕ}

theorem table_grown_of_lt (h : i < peers.size) :
    (grown peers).table i = peers.table i := if_neg fun hi ↦ by omega

theorem table_grown_of_le (hle : peers.size ≤ i) (hlt : i < peers.size + 16) :
    (grown peers).table i = { freshEntry K with pid := i + 1 } := if_pos ⟨hle, hlt⟩

theorem live_grown : Live (grown peers) i ↔ Live peers i := by
  constructor
  · rintro ⟨hpos, hlt, hrc⟩
    by_cases hi : i < peers.size
    · rw [table_grown_of_lt hi] at hrc
      exact ⟨hpos, hi, hrc⟩
    · rw [table_grown_of_le (Nat.le_of_not_lt hi) hlt] at hrc
      exact absurd rfl hrc
  · rintro ⟨hpos, hlt, hrc⟩
    refine ⟨hpos, Nat.lt_add_right 16 hlt, ?_⟩
    rw [table_grown_of_lt hlt]
    exact hrc

theorem free_grown (hsize : 0 < peers.size) :
    Free (grown peers) i ↔ (peers.size ≤ i ∧ i < peers.size + 16) ∨ Free peers i := by
  constructor
  · rintro ⟨hpos, hlt, hrc⟩
    by_cases hi : i < peers.size
    · rw [table_grown_of_lt hi] at hrc
      exact .inr ⟨hpos, hi, hrc⟩
    · exact .inl ⟨Nat.le_of_not_lt hi, hlt⟩
  · rintro (⟨hle, hlt⟩ | ⟨hpos, hlt, hrc⟩)
    · refine ⟨by omega, hlt, ?_⟩
      rw [table_grown_of_le hle hlt]
      rfl
    · refine ⟨hpos, Nat.lt_add_right 16 hlt, ?_⟩
      rw [table_grown_of_lt hlt]
      exact hrc

theorem Active.grow (h : Active word peers refs [] map) :
    Active word (grown peers) refs (range' peers.size 16) map := by
  have htable (i : ℕ) (hi : Live peers i) : (grown peers).table i = peers.table i :=
    table_grown_of_lt hi.2.1
  have hstart : peers.freeListStart = peers.size := h.visits
  have hkept : ∀ entry ∈ entries map,
      entry.key.read (grown peers).memory = entry.key.read peers.memory := by
    intro entry hentry
    obtain ⟨i, rfl, hi⟩ := h.entry entry hentry
    exact congrArg PeerEntry.id (htable i hi)
  obtain ⟨hvalid, hpairs⟩ := h.valid.of_memory hkept
  refine ⟨⟨?_, nodup_range', fun i ↦ ?_, Nat.add_pos_left h.size_pos 16⟩,
    ⟨fun i hi ↦ ?_, fun i hi ↦ ?_, fun pid hpos ↦ ?_, fun i j hi hj hids ↦ ?_⟩,
    ⟨hvalid, h.small, fun entry hentry ↦ ?_, fun i hi ↦ h.mapped i (live_grown.mp hi), ?_⟩⟩
  · change Visits _ peers.freeListStart _ _
    rw [hstart]
    refine visits_range fun i hle hlt ↦ ?_
    rw [table_grown_of_le hle hlt]
  · rw [free_grown h.size_pos, mem_range'_1]
    refine ⟨.inl, fun hi ↦ hi.resolve_right fun hfree ↦ ?_⟩
    exact nomatch (h.mem_slots i).mpr hfree
  · have hlive := live_grown.mp hi
    rw [htable i hlive]
    exact h.own i hlive
  · have hlive := live_grown.mp hi
    rw [htable i hlive]
    exact h.counted i hlive
  · obtain ⟨i, hlive, hid⟩ := h.exists_slot pid hpos
    exact ⟨i, live_grown.mpr hlive, (congrArg PeerEntry.id (htable i hlive)).trans hid⟩
  · rw [htable i (live_grown.mp hi), htable j (live_grown.mp hj)] at hids
    exact h.distinct i j (live_grown.mp hi) (live_grown.mp hj) hids
  · obtain ⟨i, hi, hlive⟩ := h.entry entry hentry
    exact ⟨i, hi, live_grown.mpr hlive⟩
  · rw [hpairs]
    exact h.once

omit [Inhabited K] in
theorem exists_create (word : K → UInt32) :
    ∃ map, multihashmapCreate ℕ K (Option ℕ) 32 true = some map ∧ entries map = 0 ∧
      map.useSmallEntries = true ∧ (∀ memory, Valid word memory map) ∧ ¬IsFull map := by
  refine ⟨_, dif_pos ⟨by decide, by decide⟩, contents_nil _, rfl,
    fun memory ↦ ⟨placed_nil _ _, ?_, ?_⟩, ?_⟩
  · exact (congrArg card (contents_nil _)).symm
  · exact zero_le _
  · change ¬(0 / 3 ≥ (32 : UInt32) / 4)
    decide

def firstTable (peers : Peers K) : Peers K :=
  { (grown peers).setEntry 0 { (grown peers).table 0 with pid := 0, rc := 1 } with
    freeListStart := 1 }

theorem table_firstTable (hsize : peers.size = 0) (hpos : 0 < i) (hlt : i < 16) :
    (firstTable peers).table i = { freshEntry K with pid := i + 1 } := by
  have hgrown := table_grown_of_le (i := i) (hsize ▸ zero_le i) (by rw [hsize]; omega)
  rw [← hgrown]
  exact update_of_ne (ne_of_gt hpos) _ _

theorem active_firstTable (hsize : peers.size = 0) (hrefs : ∀ pid, refs pid = 0)
    {map : MultiHashMap ℕ K (Option ℕ)} (hentries : entries map = 0)
    (hsmall : map.useSmallEntries = true) (hvalid : Valid word (firstTable peers).memory map) :
    Active word (firstTable peers) refs (range' 1 15) map := by
  have hlast : (firstTable peers).size = 16 := by
    change peers.size + 16 = 16
    rw [hsize]
  have hlive (i : ℕ) : ¬Live (firstTable peers) i := by
    rintro ⟨hpos, hlt, hrc⟩
    rw [table_firstTable hsize hpos (hlast ▸ hlt)] at hrc
    exact hrc rfl
  refine ⟨⟨?_, nodup_range', fun i ↦ ?_, hlast.symm ▸ (by decide)⟩,
    ⟨fun i hi ↦ absurd hi (hlive i), fun i hi ↦ absurd hi (hlive i), fun pid hpos ↦ ?_,
      fun i _ hi ↦ absurd hi (hlive i)⟩,
    ⟨hvalid, hsmall, fun entry hentry ↦ ?_, fun i hi ↦ absurd hi (hlive i), ?_⟩⟩
  · rw [hlast]
    have hnext : ∀ i, 1 ≤ i → i < 1 + 15 → ((firstTable peers).table i).pid = i + 1 := by
      intro i hle hlt
      rw [table_firstTable hsize hle hlt]
    exact visits_range hnext
  · rw [mem_range'_1]
    constructor
    · rintro ⟨hle, hlt⟩
      refine ⟨hle, by rw [hlast]; exact hlt, ?_⟩
      rw [table_firstTable hsize hle hlt]
      rfl
    · rintro ⟨hpos, hlt, -⟩
      rw [hlast] at hlt
      exact ⟨hpos, hlt⟩
  · rw [hrefs] at hpos
    exact absurd hpos (lt_irrefl 0)
  · rw [hentries] at hentry
    exact absurd hentry (notMem_zero _)
  · rw [pairs, hentries]
    exact nodup_zero

end Grow

variable {K : Type*} [DecidableEq K] [Inhabited K] {word : K → UInt32}

/-- The slots in use stay in use for their identities. -/
def Keeps (peers next : Peers K) : Prop :=
  ∀ i, Live peers i → Live next i ∧ (next.table i).id = (peers.table i).id

def Interned (word : K → UInt32) (peers : Peers K) (refs : K → ℕ) (pid : K)
    (result : Option (ℕ × Peers K)) : Prop :=
  ∃ id next slots map, result = some (id, next) ∧ next.map = some map ∧
    Active word next (changeRefs refs pid 1) slots map ∧ Live next id ∧
    (next.table id).id = pid ∧ Keeps peers next

variable {peers : Peers K} {refs : K → ℕ} {map : MultiHashMap ℕ K (Option ℕ)} {pid : K}
  {slots : List ℕ}

omit [Inhabited K] in
theorem Active.interned_takeSlot {ret : ℕ} {rest : List ℕ}
    (h : Active word peers refs (ret :: rest) map) (hrefs : refs pid = 0)
    (hroom : IsFull map → 16 * map.mapLength.toNat ≤ maxMallocChecked) :
    Interned word peers refs pid (takeSlot word peers map ret pid) := by
  have hret : Free peers ret := (h.mem_slots ret).mp mem_cons_self
  obtain ⟨next, hput, hmapped⟩ := h.toMapped.take hret (h.not_hasKey hrefs) hroom
  have htake : takeSlot word peers map ret pid = some (ret, { peers.setEntry ret ⟨pid, ret, 1⟩ with
      freeListStart := (peers.table ret).pid, map := some next }) := by
    rw [takeSlot, if_pos hret.2]
    dsimp only
    rw [hput, Option.map_some]
  have hself : update peers.table ret ⟨pid, ret, 1⟩ ret = ⟨pid, ret, 1⟩ :=
    update_self _ _ _
  refine ⟨ret, _, rest, next, htake, rfl,
    ⟨h.toListed.take, h.toCounted.take hret hrefs, hmapped _⟩, (live_take hret).mpr (.inl rfl),
    congrArg PeerEntry.id hself, fun i hi ↦ ⟨(live_take hret).mpr (.inr hi), ?_⟩⟩
  have hne : i ≠ ret := fun heq ↦ hi.2.2 (heq ▸ hret.2.2)
  exact congrArg PeerEntry.id (update_of_ne hne _ _)

theorem Active.internNew (h : Active word peers refs slots map) (hmap : peers.map = some map)
    (hrefs : refs pid = 0) (hroom : Room peers) :
    Interned word peers refs pid (Peer.internNew word peers map pid) := by
  rw [Peer.internNew]
  by_cases hend : peers.freeListStart = peers.size
  · have hnone : slots = [] := by
      have hvisits := h.visits
      rw [hend] at hvisits
      exact hvisits.eq_nil fun hmem ↦ (h.ne_zero_of_mem hmem).2 rfl
    subst hnone
    have hne : peers.size ≠ 0 := ne_of_gt h.size_pos
    rw [hend, if_pos rfl, growTable_eq (hroom.1 hend), bind_some, if_neg hne]
    have hgrown := h.grow
    obtain ⟨id, next, slots, map, hresult, hnext, hactive, hlive, hid, hkeeps⟩ :=
      hgrown.interned_takeSlot hrefs (hroom.2 map hmap)
    refine ⟨id, next, slots, map, hresult, hnext, hactive, hlive, hid, fun i hi ↦ ?_⟩
    rw [← table_grown_of_lt hi.2.1]
    exact hkeeps i (live_grown.mpr hi)
  · obtain ⟨_, rfl, -⟩ := h.visits.exists_cons hend
    have hne := (h.ne_zero_of_mem mem_cons_self).1
    rw [if_neg hend, bind_some, if_neg hne]
    exact h.interned_takeSlot hrefs (hroom.2 map hmap)

theorem internNew_first (hsize : peers.size = 0) (hstart : peers.freeListStart = 0)
    (hrefs : ∀ pid, refs pid = 0) (hentries : entries map = 0)
    (hsmall : map.useSmallEntries = true) (hfull : ¬IsFull map)
    (hvalid : Valid word (firstTable peers).memory map) :
    Interned word peers refs pid (internNew word peers map pid) := by
  have hactive := active_firstTable hsize hrefs hentries hsmall hvalid
  have hroom : 8 * (peers.size + 16) ≤ maxMallocChecked := by
    rw [hsize]
    decide
  have hgrow : growTable peers peers.freeListStart = some (grown peers) := by
    rw [hstart, ← hsize]
    exact growTable_eq hroom
  rw [internNew, if_pos (hstart.trans hsize.symm), hgrow, bind_some, if_pos hstart]
  obtain ⟨id, next, slots, map, hresult, hnext, hactive, hlive, hid, -⟩ :=
    hactive.interned_takeSlot (hrefs pid) fun h ↦ absurd h hfull
  refine ⟨id, next, slots, map, hresult, hnext, hactive, hlive, hid, fun i hi ↦ ?_⟩
  exact absurd (hsize ▸ hi.2.1) (Nat.not_lt_zero i)

omit [Inhabited K] in
theorem Active.intern_known {i : ℕ} (h : Active word peers refs slots map)
    (hmap : peers.map = some map) (hi : Live peers i) (hid : (peers.table i).id = pid)
    (hrefs : refs pid + 1 < 2 ^ 32) :
    Interned word peers refs pid (some ((peers.table i).pid,
      { peers.setEntry i { peers.table i with rc := (peers.table i).rc + 1 } with
        map := some map })) := by
  have hcounted := h.counted i hi
  have hsum : ((peers.table i).rc + 1).toNat = (peers.table i).rc.toNat + 1 := by
    refine mod_eq_of_lt ?_
    rw [hid] at hcounted
    change (peers.table i).rc.toNat + 1 < 2 ^ 32
    omega
  have hne : (peers.table i).rc + 1 ≠ 0 := by
    intro hzero
    rw [hzero] at hsum
    exact absurd hsum.symm (succ_ne_zero _)
  have hsame : { peers.setEntry i { peers.table i with rc := (peers.table i).rc + 1 } with
      map := some map } = setRc peers i ((peers.table i).rc + 1) := by
    rw [← hmap]
    rfl
  rw [hsame, h.own i hi]
  refine ⟨i, _, slots, map, rfl, hmap, ?_, (live_setRc hi hne).mpr hi,
    (id_setRc peers i _ i).1.trans hid,
    fun j hj ↦ ⟨(live_setRc hi hne).mpr hj, (id_setRc peers i _ j).1⟩⟩
  rw [← hid]
  exact h.recount hi hne (by rw [hsum]; rfl)

omit [Inhabited K] in
theorem get_of_entries_eq_zero {memory : ℕ → K} (hentries : entries map = 0)
    (hvalid : Valid word memory map) :
    multihashmapGet word memory none map pid = none := by
  rcases hvalid.get pid with hmem | ⟨-, hget⟩
  · rw [pairs, hentries] at hmem
    exact absurd hmem (notMem_zero _)
  · exact hget

theorem Consistent.intern (h : Consistent word peers refs) (hrefs : refs pid + 1 < 2 ^ 32)
    (hroom : refs pid = 0 → Room peers) :
    Interned word peers refs pid (intern word peers (some pid)) := by
  rw [Peer.intern]
  rcases h with ⟨hsize, hstart, hmap, hnone⟩ | ⟨slots, map, hmap, hactive⟩
  · obtain ⟨map, hcreate, hentries, hsmall, hvalid, hfull⟩ := exists_create word
    rw [hmap]
    rw [hcreate, bind_some, get_of_entries_eq_zero hentries (hvalid peers.memory)]
    exact internNew_first hsize hstart hnone hentries hsmall hfull (hvalid _)
  · rw [hmap]
    rw [bind_some]
    rcases hactive.get_cases pid with ⟨hget, hzero⟩ | ⟨i, hget, hi, hid⟩
    · rw [hget]
      exact hactive.internNew hmap hzero (hroom hzero)
    · rw [hget]
      dsimp only
      rw [if_pos (UInt32.pos_iff_ne_zero.mpr hi.2.2)]
      exact hactive.intern_known hmap hi hid hrefs

/-- No slot comes into use, and the slots keep their identities. -/
structure Shrinks (peers next : Peers K) : Prop where
  id : ∀ i, (next.table i).id = (peers.table i).id
  live : ∀ i, Live next i → Live peers i

omit [DecidableEq K] [Inhabited K] in
theorem Shrinks.of_rc {next : Peers K} {id : ℕ} {rc : UInt32} (hlive : Live peers id)
    (hsize : next.size = peers.size) (hid : ∀ i, (next.table i).id = (peers.table i).id)
    (hrc : ∀ i, (next.table i).rc = if i = id then rc else (peers.table i).rc) :
    Shrinks peers next := by
  refine ⟨hid, fun i hi ↦ ?_⟩
  by_cases heq : i = id
  · rw [heq]
    exact hlive
  · have hsame := hrc i
    rw [if_neg heq] at hsame
    exact ⟨hi.1, hsize ▸ hi.2.1, hsame ▸ hi.2.2⟩

omit [DecidableEq K] [Inhabited K] in
/-- A slot stays in use while there are references to its identity: no other slot could have it. -/
theorem Shrinks.keeps {next : Peers K} {refs' : K → ℕ} {i : ℕ} (h : Shrinks peers next)
    (hpeers : Consistent word peers refs) (hnext : Consistent word next refs')
    (hi : Live peers i) (hrefs : 0 < refs' (peers.table i).id) :
    Live next i ∧ (next.table i).id = (peers.table i).id := by
  refine ⟨?_, h.id i⟩
  rcases hpeers with ⟨hsize, -⟩ | ⟨_, _, -, hactive⟩
  · exact absurd (hsize ▸ hi.2.1) (Nat.not_lt_zero i)
  rcases hnext with ⟨-, -, -, hnone⟩ | ⟨_, _, -, hactive'⟩
  · exact absurd (hnone _) (ne_of_gt hrefs)
  obtain ⟨j, hj, hid⟩ := hactive'.exists_slot _ hrefs
  rw [h.id j] at hid
  exact hactive.distinct j i (h.live j hj) hi hid ▸ hj

omit [Inhabited K] in
theorem Consistent.changeRc {id : ℕ} {delta : Int32} (h : Consistent word peers refs)
    (hid : Live peers id) (hlow : 0 ≤ ((peers.table id).rc.toNat : ℤ) + delta.toInt)
    (hhigh : ((peers.table id).rc.toNat : ℤ) + delta.toInt < 2 ^ 32) :
    ∃ next, changeRc word peers id delta = some next ∧
      Consistent word next (changeRefs refs (peers.table id).id delta.toInt) ∧
      Shrinks peers next := by
  have hne : id ≠ 0 := ne_of_gt hid.1
  have hassert : delta ≥ 0 ∨ (peers.table id).rc ≥ (-delta).toUInt32 := by
    by_cases hnegative : delta.toInt < 0
    · right
      have hsize := toNat_neg_signed32 hnegative
      apply UInt32.le_iff_toNat_le.mpr
      omega
    · exact .inl (Int32.le_iff_toInt_le.mpr (Int.not_lt.mp hnegative))
  obtain ⟨next, hnext, hconsistent, hsize, hids, hrcs⟩ :=
    h.change hid (toNat_add_signed hlow hhigh)
  refine ⟨next, ?_, hconsistent, .of_rc hid hsize hids hrcs⟩
  rw [Peer.changeRc, if_neg hne]
  rw [if_pos ⟨hid.2.1, UInt32.pos_iff_ne_zero.mpr hid.2.2, hassert⟩]
  exact hnext

theorem toNat_sub_one {rc : UInt32} (h : 0 < rc.toNat) : (rc - 1).toNat = rc.toNat - 1 :=
  UInt32.toNat_sub_of_le _ _ (UInt32.le_iff_toNat_le.mpr h)

omit [Inhabited K] in
theorem Consistent.decrementRc {id : ℕ} (h : Consistent word peers refs) (hid : Live peers id) :
    ∃ next, decrementRc word peers id = some next ∧
      Consistent word next (changeRefs refs (peers.table id).id (-1)) ∧
      next.size = peers.size ∧ (∀ i, (next.table i).id = (peers.table i).id) ∧
      ∀ i, (next.table i).rc = if i = id then (peers.table id).rc - 1 else (peers.table i).rc := by
  have hpos : (peers.table id).rc > 0 := UInt32.pos_iff_ne_zero.mpr hid.2.2
  have hle := UInt32.lt_iff_toNat_lt.mp hpos
  have hsub := toNat_sub_one hle
  have hdelta : (((peers.table id).rc - 1).toNat : ℤ) = (peers.table id).rc.toNat + -1 := by omega
  obtain ⟨next, hnext, hrest⟩ := h.change hid hdelta
  refine ⟨next, ?_, hrest⟩
  rw [Peer.decrementRc, if_neg (ne_of_gt hid.1), if_pos ⟨hid.2.1, hpos⟩]
  exact hnext

omit [Inhabited K] in
/-- The identities of the slots stay in the memory, so that it does not matter when they are read.
-/
theorem Consistent.decrementRcs {ids : List ℕ} {start : Peers K} (h : Consistent word peers refs)
    (hstart : ∀ i, (peers.table i).id = (start.table i).id)
    (hids : ∀ id ∈ ids, id ≠ 0 → Live peers id ∧ ids.count id ≤ (peers.table id).rc.toNat) :
    ∃ next, ids.foldlM (Peer.decrementRc word) peers = some next ∧
      Consistent word next (ids.foldl (dropRef start) refs) ∧ Shrinks peers next := by
  induction ids generalizing peers refs with
  | nil => exact ⟨peers, rfl, h, fun _ ↦ rfl, fun _ ↦ id⟩
  | cons id ids ih =>
    rw [List.foldlM_cons, List.foldl_cons]
    by_cases hzero : id = 0
    · have hstep : Peer.decrementRc word peers id = some peers := if_pos hzero
      have hdrop : dropRef start refs id = refs := if_pos hzero
      have hrest : ∀ other ∈ ids, other ≠ 0 →
          Live peers other ∧ ids.count other ≤ (peers.table other).rc.toNat := by
        intro other hmem hne
        obtain ⟨hlive, hcount⟩ := hids other (mem_cons_of_mem _ hmem) hne
        rw [List.count_cons_of_ne (fun heq ↦ hne (heq.symm.trans hzero))] at hcount
        exact ⟨hlive, hcount⟩
      obtain ⟨next, hnext, hconsistent, hshrinks⟩ := ih h hstart hrest
      exact ⟨next, by rw [hstep]; exact hnext, by rw [hdrop]; exact hconsistent, hshrinks⟩
    · obtain ⟨hlive, hcount⟩ := hids id mem_cons_self hzero
      obtain ⟨mid, hmid, hmidConsistent, hsize, hid, hrc⟩ := h.decrementRc hlive
      have hdrop : dropRef start refs id = changeRefs refs (peers.table id).id (-1) := by
        rw [dropRef, if_neg hzero, hstart id]
      have hrest : ∀ other ∈ ids, other ≠ 0 →
          Live mid other ∧ ids.count other ≤ (mid.table other).rc.toNat := by
        intro other hmem hne
        obtain ⟨hliveOther, hcountOther⟩ := hids other (mem_cons_of_mem _ hmem) hne
        have hpos : 0 < ids.count other := count_pos_iff.mpr hmem
        have hleft : ids.count other ≤ (mid.table other).rc.toNat := by
          rw [hrc other]
          split_ifs with heq
          · subst heq
            rw [List.count_cons_self] at hcountOther
            rw [toNat_sub_one (hpos.trans_le (by omega))]
            omega
          · rw [List.count_cons_of_ne (fun h ↦ heq h.symm)] at hcountOther
            exact hcountOther
        refine ⟨⟨hliveOther.1, hsize ▸ hliveOther.2.1, fun hnone ↦ ?_⟩, hleft⟩
        rw [hnone] at hleft
        change _ ≤ 0 at hleft
        omega
      obtain ⟨next, hnext, hconsistent, hshrinks⟩ :=
        ih hmidConsistent (fun i ↦ (hid i).trans (hstart i)) hrest
      have hfirst : Shrinks peers mid := .of_rc hlive hsize hid hrc
      exact ⟨next, by rw [hmid]; exact hnext, by rw [hdrop]; exact hconsistent,
        fun i ↦ (hshrinks.id i).trans (hfirst.id i), fun i hi ↦ hfirst.live i (hshrinks.live i hi)⟩

/-- What callers promise: they only give up references that they have. -/
def Proper (session : Session K) : Call K → Prop
  | .intern _ => True
  | .changeRc id delta => id ≠ 0 → Live session.peers id ∧
      0 ≤ ((session.peers.table id).rc.toNat : ℤ) + delta.toInt
  | .decrementRcs ids => ∀ id ∈ ids, id ≠ 0 → Live session.peers id ∧
      ids.count id ≤ (session.peers.table id).rc.toNat

/-- The reference counter stays in its word, there is room for new identities, and the length of an
array of numbers fits the signed index of the loop. -/
def Bounded (session : Session K) : Call K → Prop
  | .intern none => True
  | .intern (some pid) =>
    session.refs pid + 1 < 2 ^ 32 ∧ (session.refs pid = 0 → Room session.peers)
  | .changeRc id delta => ((session.peers.table id).rc.toNat : ℤ) + delta.toInt < 2 ^ 32
  | .decrementRcs ids => ids.length ≤ 2 ^ 31

/-- A call keeps the table consistent, and the slots of identities that have references after it. -/
theorem Consistent.perform {session : Session K} (h : Consistent word session.peers session.refs)
    {call : Call K} (hproper : Proper session call) (hbounded : Bounded session call) :
    ∃ next, perform word session call = some next ∧ Consistent word next.peers next.refs ∧
      ∀ i, Live session.peers i → 0 < next.refs (session.peers.table i).id →
        Live next.peers i ∧ (next.peers.table i).id = (session.peers.table i).id := by
  cases call with
  | intern pid =>
    cases pid with
    | none => exact ⟨⟨session.peers, session.refs⟩, rfl, h, fun _ hi _ ↦ ⟨hi, rfl⟩⟩
    | some pid =>
      obtain ⟨id, next, slots, map, hnext, hmap, hactive, -, -, hkeeps⟩ :=
        h.intern hbounded.1 hbounded.2
      refine ⟨⟨next, changeRefs session.refs pid 1⟩, ?_, .inr ⟨slots, map, hmap, hactive⟩,
        fun i hi _ ↦ hkeeps i hi⟩
      rw [Peer.perform, hnext, map_some]
  | changeRc id delta =>
    by_cases hzero : id = 0
    · have hstay : Peer.changeRc word session.peers id delta = some session.peers := if_pos hzero
      refine ⟨⟨session.peers, session.refs⟩, ?_, h, fun _ hi _ ↦ ⟨hi, rfl⟩⟩
      rw [Peer.perform, hstay, map_some, if_pos hzero]
    · obtain ⟨hlive, hlow⟩ := hproper hzero
      obtain ⟨next, hnext, hconsistent, hshrinks⟩ := h.changeRc hlive hlow hbounded
      refine ⟨⟨next, changeRefs session.refs (session.peers.table id).id delta.toInt⟩, ?_,
        hconsistent, fun i ↦ hshrinks.keeps h hconsistent⟩
      rw [Peer.perform, hnext, map_some, if_neg hzero]
  | decrementRcs ids =>
    have hids : ∀ id ∈ ids.reverse, id ≠ 0 → Live session.peers id ∧
        ids.reverse.count id ≤ (session.peers.table id).rc.toNat := by
      intro id hmem hne
      rw [count_reverse]
      exact hproper id (mem_reverse.mp hmem) hne
    obtain ⟨next, hnext, hconsistent, hshrinks⟩ :=
      @Consistent.decrementRcs K _ word session.peers session.refs ids.reverse session.peers h
        (fun _ ↦ rfl) hids
    have hloop : Peer.decrementRcs word session.peers ids = some next :=
      (if_pos hbounded).trans hnext
    refine ⟨⟨next, ids.reverse.foldl (dropRef session.peers) session.refs⟩, ?_, hconsistent,
      fun i ↦ hshrinks.keeps h hconsistent⟩
    rw [Peer.perform, hloop, map_some]

/-- The free list visits the slots without references, each once, and ends at the size of the table.
An identity with references has a single slot, to which the map leads and whose number stands for
it. An identity that is interned gets a number that is not zero and that stands for it. -/
structure Sound (word : K → UInt32) (peers : Peers K) (refs : K → ℕ) : Prop where
  free : ∃ slots, Visits (fun i ↦ (peers.table i).pid) peers.freeListStart slots peers.size ∧
    slots.Nodup ∧ ∀ i, i ∈ slots ↔ 0 < i ∧ i < peers.size ∧ (peers.table i).rc = 0
  live : ∀ pid, 0 < refs pid → ∃ i, Live peers i ∧ (peers.table i).id = pid ∧
    (peers.table i).rc.toNat = refs pid ∧ (∀ j, Live peers j → (peers.table j).id = pid → j = i) ∧
    peers.lookup word pid = some i ∧ search word peers (some pid) = some i ∧
    resolve peers i = some pid
  dead : ∀ pid, refs pid = 0 → (∀ i, Live peers i → (peers.table i).id ≠ pid) ∧
    peers.lookup word pid = none ∧ search word peers (some pid) = some 0
  intern : ∀ pid, Bounded ⟨peers, refs⟩ (.intern (some pid)) →
    ∃ id next, intern word peers (some pid) = some (id, next) ∧ id ≠ 0 ∧ resolve next id = some pid

omit [DecidableEq K] in
theorem resolve_of_live {i : ℕ} (h : Live peers i) : resolve peers i = some (peers.table i).id := by
  rw [resolve, if_neg (ne_of_gt h.1), if_pos ⟨h.2.1, UInt32.pos_iff_ne_zero.mpr h.2.2⟩]

theorem Consistent.intern_ne_zero (h : Consistent word peers refs)
    (hbounded : Bounded ⟨peers, refs⟩ (.intern (some pid))) :
    ∃ id next, Peer.intern word peers (some pid) = some (id, next) ∧ id ≠ 0 ∧
      resolve next id = some pid := by
  obtain ⟨id, next, _, _, hnext, -, -, hlive, hid, -⟩ := h.intern hbounded.1 hbounded.2
  refine ⟨id, next, hnext, ne_of_gt hlive.1, ?_⟩
  rw [resolve_of_live hlive, hid]

theorem Active.sound (h : Active word peers refs slots map) (hmap : peers.map = some map) :
    Sound word peers refs := by
  have hlookup (pid : K) :
      peers.lookup word pid = multihashmapGet word peers.memory none map pid := by
    rw [Peers.lookup, hmap, bind_some]
  have hsearch (pid : K) (i : ℕ) (hget : peers.lookup word pid = some i) (hi : Live peers i) :
      search word peers (some pid) = some i := by
    rw [search, bind_some, hget]
    dsimp only
    rw [if_pos (UInt32.pos_iff_ne_zero.mpr hi.2.2), h.own i hi]
  have hconsistent : Consistent word peers refs := .inr ⟨slots, map, hmap, h⟩
  refine ⟨⟨slots, h.visits, h.nodup, h.mem_slots⟩, fun pid hpos ↦ ?_, fun pid hzero ↦ ?_,
    fun pid ↦ hconsistent.intern_ne_zero⟩
  · rcases h.get_cases pid with ⟨-, hzero⟩ | ⟨i, hget, hi, rfl⟩
    · exact absurd hzero (ne_of_gt hpos)
    · rw [← hlookup] at hget
      exact ⟨i, hi, rfl, h.counted i hi, fun j hj hid ↦ h.distinct j i hj hi hid, hget,
        hsearch _ i hget hi, resolve_of_live hi⟩
  · rcases h.get_cases pid with ⟨hget, -⟩ | ⟨i, -, hi, rfl⟩
    · rw [← hlookup] at hget
      refine ⟨fun i hi hid ↦ ?_, hget, ?_⟩
      · have hpos := h.pos_refs hi
        rw [hid] at hpos
        exact ne_of_gt hpos hzero
      · rw [search, bind_some, hget]
    · exact absurd hzero (ne_of_gt (h.pos_refs hi))

theorem Consistent.sound (h : Consistent word peers refs) : Sound word peers refs := by
  rcases h with hidle | ⟨slots, map, hmap, hactive⟩
  · have hconsistent : Consistent word peers refs := .inl hidle
    obtain ⟨hsize, hstart, hmap, hrefs⟩ := hidle
    have hnone (i : ℕ) : ¬i < peers.size := by omega
    have hlookup (pid : K) : peers.lookup word pid = none := by
      rw [Peers.lookup, hmap, bind_none]
    refine ⟨⟨[], hstart.trans hsize.symm, nodup_nil, fun i ↦ ?_⟩, fun pid hpos ↦ ?_,
      fun pid _ ↦ ⟨fun i hi ↦ absurd hi.2.1 (hnone i), hlookup pid, ?_⟩,
      fun pid ↦ hconsistent.intern_ne_zero⟩
    · exact ⟨nofun, fun hi ↦ absurd hi.2.1 (hnone i)⟩
    · exact absurd (hrefs pid) (ne_of_gt hpos)
    · rw [search, bind_some, hlookup]
  · exact hactive.sound hmap

/-- Calls that keep to the promises and the bounds and leave references to the identity. -/
def Referenced (word : K → UInt32) (pid : K) (session : Session K) (call : Call K) : Prop :=
  Proper session call ∧ Bounded session call ∧
    ∀ next, perform word session call = some next → 0 < next.refs pid

/-- The number is that of the slot in use for the identity, in a consistent table. -/
structure StandsFor (word : K → UInt32) (i : ℕ) (pid : K) (session : Session K) : Prop where
  consistent : Consistent word session.peers session.refs
  live : Live session.peers i
  id : (session.peers.table i).id = pid

theorem StandsFor.perform {session next : Session K} {call : Call K} {i : ℕ}
    (h : StandsFor word i pid session) (hcall : Referenced word pid session call)
    (hnext : perform word session call = some next) : StandsFor word i pid next := by
  obtain ⟨hproper, hbounded, hrefs⟩ := hcall
  obtain ⟨_, hperform, hconsistent, hkeeps⟩ := h.consistent.perform hproper hbounded
  cases hnext.symm.trans hperform
  obtain ⟨hlive, hid⟩ := hkeeps i h.live (h.id.symm ▸ hrefs next hnext)
  exact ⟨hconsistent, hlive, hid.trans h.id⟩

theorem StandsFor.resolve_run {session last : Session K} {calls : List (Call K)} {i : ℕ}
    (h : StandsFor word i pid session)
    (hcalls : Along (Peer.perform word) (Referenced word pid) session calls)
    (hlast : run (Peer.perform word) session calls = some last) :
    resolve last.peers i = some pid := by
  have hend : StandsFor word i pid last :=
    run_invariant (fun _ _ _ hstands ↦ hstands.perform) h hcalls hlast
  rw [resolve_of_live hend.live, hend.id]

/-- In every run in which callers only give up references that they have, no counter outgrows its
word and there is room for new identities, no call stops the program and the table is sound after
it. A number that is returned then stands for its identity while there are references to it. -/
theorem interning_sound (word : K → UInt32) {calls : List (Call K)}
    (hproper : Along (perform word) Proper ⟨unused K, fun _ ↦ 0⟩ calls)
    (hbounded : Along (perform word) Bounded ⟨unused K, fun _ ↦ 0⟩ calls) :
    ∃ last, run (perform word) ⟨unused K, fun _ ↦ 0⟩ calls = some last ∧
      Sound word last.peers last.refs ∧
      ∀ pid id peers, Bounded last (.intern (some pid)) →
        intern word last.peers (some pid) = some (id, peers) →
        ∀ later final, Along (perform word) (Referenced word pid)
            ⟨peers, changeRefs last.refs pid 1⟩ later →
          run (perform word) ⟨peers, changeRefs last.refs pid 1⟩ later = some final →
          resolve final.peers id = some pid := by
  have hstart : Consistent word (unused K) fun _ ↦ 0 := .inl ⟨rfl, rfl, rfl, fun _ ↦ rfl⟩
  obtain ⟨last, hlast, hconsistent⟩ : ∃ last, run (perform word) ⟨unused K, fun _ ↦ 0⟩ calls =
      some last ∧ Consistent word last.peers last.refs := by
    refine run_total ?_ hstart (hproper.and hbounded)
    intro session call h hcondition
    obtain ⟨next, hnext, hnextConsistent, -⟩ := h.perform hcondition.1 hcondition.2
    exact ⟨next, hnext, hnextConsistent⟩
  refine ⟨last, hlast, hconsistent.sound, ?_⟩
  intro pid id peers hroom hintern later final hlater hfinal
  obtain ⟨_, _, slots, map, hresult, hmap, hactive, hlive, hid, -⟩ :=
    hconsistent.intern hroom.1 hroom.2
  cases hintern.symm.trans hresult
  have hstands : StandsFor word id pid ⟨peers, changeRefs last.refs pid 1⟩ :=
    ⟨.inr ⟨slots, map, hmap, hactive⟩, hlive, hid⟩
  exact hstands.resolve_run hlater hfinal

instance (peers : Peers K) (i : ℕ) : Decidable (Live peers i) :=
  inferInstanceAs (Decidable (_ ∧ _ ∧ _))

instance (peers : Peers K) : Decidable (Room peers) :=
  inferInstanceAs (Decidable ((_ → _) ∧ ∀ map ∈ peers.map, _))

instance (session : Session K) (call : Call K) : Decidable (Proper session call) :=
  match call with
  | .intern _ => .isTrue trivial
  | .changeRc _ _ => inferInstanceAs (Decidable (_ → _ ∧ _))
  | .decrementRcs ids => inferInstanceAs (Decidable (∀ id ∈ ids, _))

instance (session : Session K) (call : Call K) : Decidable (Bounded session call) :=
  match call with
  | .intern none => .isTrue trivial
  | .intern (some _) => inferInstanceAs (Decidable (_ ∧ (_ → _)))
  | .changeRc _ _ => inferInstanceAs (Decidable (_ < _))
  | .decrementRcs ids => inferInstanceAs (Decidable (ids.length ≤ _))

instance (pid : K) (session : Session K) (call : Call K) :
    Decidable (Referenced word pid session call) :=
  inferInstanceAs (Decidable (_ ∧ _ ∧ ∀ next ∈ perform word session call, _))

def reusingCalls : List (Call UInt32) :=
  [.intern (some 5), .intern (some 7), .intern (some 5), .changeRc 1 (-1), .decrementRcs [1, 0, 2],
    .intern (some 9)]

def laterCalls : List (Call UInt32) :=
  [.changeRc 1 2, .intern (some 11), .decrementRcs [1, 3, 1], .intern (some 5)]

/-- Slots are released and used again.  The first identity gets a number that stands for it until
the end, though other references come and go. -/
theorem interning_sound_reuse :
    ∃ last, run (perform id) ⟨unused UInt32, fun _ ↦ 0⟩ reusingCalls = some last ∧
      Sound id last.peers last.refs ∧
      ∃ number peers final, intern id last.peers (some 5) = some (number, peers) ∧
        run (perform id) ⟨peers, changeRefs last.refs 5 1⟩ laterCalls = some final ∧
        resolve final.peers number = some 5 := by
  obtain ⟨last, hlast, hsound, hlasting⟩ :=
    @interning_sound UInt32 _ _ id reusingCalls (by decide) (by decide)
  have hroom : ∀ last ∈ run (perform id) ⟨unused UInt32, fun _ ↦ 0⟩ reusingCalls,
      Bounded last (.intern (some 5)) := by
    decide +kernel
  have hlater : ∀ last ∈ run (perform id) ⟨unused UInt32, fun _ ↦ 0⟩ reusingCalls,
      ∀ result ∈ intern id last.peers (some 5),
        Along (perform id) (Referenced id 5) ⟨result.2, changeRefs last.refs 5 1⟩ laterCalls ∧
        (run (perform id) ⟨result.2, changeRefs last.refs 5 1⟩ laterCalls).isSome = true := by
    decide +kernel
  obtain ⟨number, peers, hintern, -⟩ := hsound.intern 5 (hroom last hlast)
  obtain ⟨halong, hsome⟩ := hlater last hlast _ hintern
  obtain ⟨final, hfinal⟩ := isSome_iff_exists.mp hsome
  exact ⟨last, hlast, hsound, number, peers, final, hintern, hfinal,
    hlasting 5 number peers (hroom last hlast) hintern laterCalls final halong hfinal⟩

/-- After `2 ^ 32` references the counter of the slot is zero, though the map still leads to it. -/
theorem counter_wraps :
    ∃ last, run (perform id) ⟨unused UInt32, fun _ ↦ 0⟩
        [.intern (some 5), .changeRc 1 0x7FFFFFFF, .changeRc 1 0x7FFFFFFF, .intern (some 5)] =
          some last ∧
      last.refs 5 = 2 ^ 32 ∧ last.peers.lookup id 5 = some 1 ∧ (last.peers.table 1).rc = 0 ∧
      ¬Sound id last.peers last.refs := by
  refine ⟨_, rfl, rfl, rfl, rfl, fun h ↦ ?_⟩
  obtain ⟨i, hlive, -, -, -, hlookup, -⟩ := h.live 5 (by decide)
  obtain rfl : 1 = i := some.inj hlookup
  exact hlive.2.2 rfl

end Gnunet.Util.Peer
