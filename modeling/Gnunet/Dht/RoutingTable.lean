import Gnunet.Dht.Neighbours
import Gnunet.Lib.LeadingAgreement
import Gnunet.Util.MultiHashMapRefinement

/-!
# Peers connect to the routing table and disconnect

The buckets and the hash map always have the same peers, each in the bucket for the number of bits
that it shares with the local peer. A peer that shares more bits with a key than the local peer is
in the bucket of the key.
-/

namespace Gnunet.Dht

open Lib.Buckets Lib.LeadingAgreement Lib.PackedArray Lib.Runs Function
open Nat
open UInt32
open Multiset
open Util Util.ContainerMultiHashMap
open Util.ContainerBloomfilter (BloomFilter)
open Setup

/-! ## Matching bits -/

section Bits

variable {first second third : HashCode}

theorem agreement_matchingFrom {left i : ℕ} (hi : i + left = 512)
    (hsame : ∀ j < i, hashGetBit first j = hashGetBit second j) :
    Agreement (hashGetBit first) (hashGetBit second) 512 (matchingFrom first second left i) := by
  induction left generalizing i with
  | zero =>
    refine ⟨hi.le, hsame, fun hlt ↦ ?_⟩
    change i < 512 at hlt
    omega
  | succ left ih =>
    rw [matchingFrom]
    by_cases hbit : hashGetBit first i = hashGetBit second i
    · rw [if_neg (not_not.mpr hbit)]
      apply ih (by omega)
      intro j hj
      cases Nat.lt_succ_iff_lt_or_eq.mp hj with
      | inl hlt => exact hsame j hlt
      | inr heq => rw [heq, hbit]
    · rw [if_pos hbit]
      exact ⟨by omega, hsame, fun _ ↦ hbit⟩

theorem agreement_matchingBits (first second : HashCode) :
    Agreement (hashGetBit first) (hashGetBit second) 512 (hashMatchingBits first second) :=
  agreement_matchingFrom rfl fun _ hj ↦ absurd hj (not_lt_zero _)

theorem hashGetBit_eq (code : HashCode) (i : ℕ) :
    hashGetBit code i = (code (Fin.ofNat 64 (i / 8))).toNat.testBit (i % 8) := by
  have hzero := and_mask_eq_zero_iff (code (Fin.ofNat 64 (i / 8))) i
  rw [hashGetBit, Bool.eq_iff_iff, decide_eq_true_eq, ← Bool.not_eq_false, ← hzero]
  exact UInt8.pos_iff_ne_zero

theorem eq_of_bits (hbits : ∀ i < 512, hashGetBit first i = hashGetBit second i) :
    first = second := by
  funext k
  apply UInt8.toNat_inj.mp
  apply eq_of_testBit_eq
  intro j
  by_cases hj : j < 8
  · have hbit := hbits (8 * k + j) (by omega)
    have hbyte : (8 * k.val + j) / 8 = k := by omega
    have hindex : (8 * k.val + j) % 8 = j := by omega
    rw [hashGetBit_eq, hashGetBit_eq, hbyte, hindex, Fin.ofNat_val_eq_self] at hbit
    exact hbit
  · have hpow : 2 ^ 8 ≤ 2 ^ j := Nat.pow_le_pow_right (by omega) (not_lt.mp hj)
    rw [testBit_lt_two_pow ((UInt8.toNat_lt _).trans_le hpow),
      testBit_lt_two_pow ((UInt8.toNat_lt _).trans_le hpow)]

theorem matchingBits_eq_iff : hashMatchingBits first second = 512 ↔ first = second := by
  rw [(agreement_matchingBits first second).eq_iff]
  constructor
  · exact eq_of_bits
  · rintro rfl i _
    rfl

theorem matchingBits_lt (hne : first ≠ second) : hashMatchingBits first second < 512 :=
  lt_of_le_of_ne (agreement_matchingBits first second).le (hne ∘ matchingBits_eq_iff.mp)

theorem matchingBits_of_lt (hlt : hashMatchingBits first second < hashMatchingBits first third) :
    hashMatchingBits second third = hashMatchingBits first second :=
  (agreement_matchingBits first second).eq_of_lt (agreement_matchingBits first third)
    (agreement_matchingBits second third) hlt

theorem lt_matchingBits_of_eq (hne : first ≠ second)
    (heq : hashMatchingBits first second = hashMatchingBits first third) :
    hashMatchingBits first second < hashMatchingBits second third := by
  apply (agreement_matchingBits first second).lt_of_eq _ (agreement_matchingBits second third)
    (matchingBits_lt hne)
  rw [heq]
  exact agreement_matchingBits first third

theorem matchingBits_comm : hashMatchingBits first second = hashMatchingBits second first :=
  (agreement_matchingBits first second).unique (agreement_matchingBits second first).symm

end Bits

/-! ## The invariant -/

variable {setup : Setup} {n : Neighbours} {connected : Finset HashCode} {peer key : HashCode}
  {b : ℕ}

def Setup.bucketIndex (setup : Setup) (peer : HashCode) : ℕ :=
  maxBuckets - hashMatchingBits setup.myIdentity peer - 1

theorem findBucket_eq (hne : setup.myIdentity ≠ peer) :
    setup.findBucket peer = some (setup.bucketIndex peer) := by
  have hlt := matchingBits_lt hne
  rw [← maxBuckets_eq] at hlt
  exact if_neg (Nat.ne_of_lt hlt)

theorem bucketIndex_lt (setup : Setup) (peer : HashCode) : setup.bucketIndex peer < maxBuckets := by
  rw [bucketIndex, maxBuckets_eq]
  omega

def peersOf (n : Neighbours) (b : ℕ) : List PeerInfo := (n.kBuckets b).peers

structure Largest (buckets : ℕ → List PeerInfo) (closest : ℕ) : Prop where
  bound : closest < maxBuckets
  above : ∀ b < maxBuckets, closest < b → buckets b = []
  used : closest = 0 ∨ buckets closest ≠ []

structure Routes (setup : Setup) (n : Neighbours) (connected : Finset HashCode) : Prop where
  valid : Valid setup.word id n.allKnownPeers
  pairs_eq : pairs id n.allKnownPeers =
    (contents maxBuckets (peersOf n)).map fun info ↦ (info.id, some info)
  ids : (contents maxBuckets (peersOf n)).map PeerInfo.id = connected.val
  self : setup.myIdentity ∉ connected
  placed : Placed (fun info ↦ setup.bucketIndex info.id) maxBuckets (peersOf n)
  sizes : ∀ b < maxBuckets, (n.kBuckets b).peersSize.toNat = (peersOf n b).length
  closest : Largest (peersOf n) n.closestBucket

namespace Routes

variable (h : Routes setup n connected)
include h

theorem hasKey_iff : HasKey (pairs id n.allKnownPeers) peer ↔ peer ∈ connected := by
  rw [← Finset.mem_val, ← h.ids, h.pairs_eq]
  constructor
  · rintro ⟨value, hmem⟩
    obtain ⟨info, hinfo, heq⟩ := mem_map.mp hmem
    exact mem_map.mpr ⟨info, hinfo, congrArg Prod.fst heq⟩
  · intro hmem
    obtain ⟨info, hinfo, rfl⟩ := mem_map.mp hmem
    exact ⟨some info, mem_map.mpr ⟨info, hinfo, rfl⟩⟩

theorem contains_iff :
    multihashmapContains setup.word id n.allKnownPeers peer = true ↔ peer ∈ connected := by
  rw [← h.hasKey_iff]
  exact h.valid.any_hasKey

theorem exists_info (hpeer : peer ∈ connected) :
    ∃ info ∈ peersOf n (setup.bucketIndex peer), info.id = peer := by
  rw [← Finset.mem_val, ← h.ids] at hpeer
  obtain ⟨info, hinfo, rfl⟩ := mem_map.mp hpeer
  obtain ⟨b, hb, hmem⟩ := mem_contents.mp hinfo
  rw [← h.placed b hb info hmem] at hmem
  exact ⟨info, hmem, rfl⟩

theorem mem_connected {info : PeerInfo} (hb : b < maxBuckets) (hinfo : info ∈ peersOf n b) :
    info.id ∈ connected := by
  rw [← Finset.mem_val, ← h.ids]
  exact mem_map_of_mem _ (mem_contents.mpr ⟨b, hb, hinfo⟩)

theorem ne_self (hpeer : peer ∈ connected) : setup.myIdentity ≠ peer :=
  fun heq ↦ h.self (heq ▸ hpeer)

theorem get_eq (peer : HashCode) :
    multihashmapGet setup.word id none n.allKnownPeers peer = none ∧ peer ∉ connected ∨
      ∃ info, multihashmapGet setup.word id none n.allKnownPeers peer = some info ∧
        info.id = peer ∧ info ∈ peersOf n (setup.bucketIndex peer) := by
  rcases h.valid.get peer with hmem | ⟨hnone, hget⟩
  · right
    rw [h.pairs_eq] at hmem
    obtain ⟨info, hinfo, heq⟩ := mem_map.mp hmem
    obtain ⟨rfl, hget⟩ := Prod.mk.inj heq
    obtain ⟨b, hb, hmem⟩ := mem_contents.mp hinfo
    rw [← h.placed b hb info hmem] at hmem
    exact ⟨info, hget.symm, rfl, hmem⟩
  · left
    exact ⟨hget, hnone ∘ h.hasKey_iff.mpr⟩

end Routes

/-! ## Connecting -/

theorem peersOf_update {kBuckets : ℕ → PeerBucket} {bucket : PeerBucket} :
    (fun a ↦ (update kBuckets b bucket a).peers) =
      update (fun a ↦ (kBuckets a).peers) b bucket.peers :=
  comp_update PeerBucket.peers kBuckets b bucket

theorem Largest.insert {buckets : ℕ → List PeerInfo} {closest : ℕ} (h : Largest buckets closest)
    (hb : b < maxBuckets) {list : List PeerInfo} (hlist : list ≠ []) :
    Largest (update buckets b list) (max closest b) where
  bound := max_lt h.bound hb
  above a ha hlt := by
    obtain ⟨hclosest, hab⟩ := max_lt_iff.mp hlt
    rw [update_of_ne (ne_of_gt hab)]
    exact h.above a ha hclosest
  used := by
    by_cases hle : closest ≤ b
    · rw [max_eq_right hle, update_self]
      exact .inr hlist
    · have hlt : b < closest := not_le.mp hle
      rw [max_eq_left hlt.le, update_of_ne (ne_of_gt hlt)]
      exact h.used

def Room (n : Neighbours) : Prop :=
  IsFull n.allKnownPeers → 16 * n.allKnownPeers.mapLength.toNat ≤ maxMallocChecked

theorem length_lt_of_pairs (hvalid : Valid setup.word id n.allKnownPeers)
    (hpairs : pairs id n.allKnownPeers =
      (contents maxBuckets (peersOf n)).map fun info ↦ (info.id, some info))
    (hb : b < maxBuckets) : (peersOf n b).length < 2 ^ 32 := by
  calc (peersOf n b).length = card (peersOf n b : Multiset PeerInfo) :=
        (coe_card _).symm
    _ ≤ card (contents maxBuckets (peersOf n)) :=
        card_le_card (coe_le_contents hb)
    _ = card (pairs id n.allKnownPeers) := by rw [hpairs, card_map]
    _ = n.allKnownPeers.size.toNat := by rw [hvalid.size_eq, pairs, card_map]
    _ < 2 ^ 32 := toNat_lt _

section Add

variable {next : Neighbours} {info : PeerInfo}

theorem Routes.added (h : Routes setup n connected) (hnew : info.id ∉ connected)
    (hself : setup.myIdentity ≠ info.id) (hvalid : Valid setup.word id next.allKnownPeers)
    (hpairs : pairs id next.allKnownPeers = (info.id, some info) ::ₘ pairs id n.allKnownPeers)
    (hbuckets : next.kBuckets = update n.kBuckets (setup.bucketIndex info.id)
      { peers := peersOf n (setup.bucketIndex info.id) ++ [info]
        peersSize := (n.kBuckets (setup.bucketIndex info.id)).peersSize + 1 })
    (hclosest : next.closestBucket = max n.closestBucket (setup.bucketIndex info.id)) :
    Routes setup next (insert info.id connected) := by
  have hindex : setup.bucketIndex info.id < maxBuckets := bucketIndex_lt setup info.id
  set index := setup.bucketIndex info.id
  have hpeers : peersOf next = update (peersOf n) index (peersOf n index ++ [info]) := by
    unfold peersOf
    rw [hbuckets]
    exact peersOf_update
  have hcontents : contents maxBuckets (peersOf next) =
      info ::ₘ contents maxBuckets (peersOf n) := by
    rw [hpeers]
    apply contents_update_of_eq_cons hindex
    rw [← coe_add, coe_singleton, add_comm, singleton_add]
  have hpairs' : pairs id next.allKnownPeers =
      (contents maxBuckets (peersOf next)).map fun info ↦ (info.id, some info) := by
    rw [hpairs, hcontents, map_cons, h.pairs_eq]
  constructor
  · exact hvalid
  · exact hpairs'
  · rw [hcontents, map_cons, h.ids, Finset.insert_val_of_notMem hnew]
  · rw [Finset.mem_insert, not_or]
    exact ⟨hself, h.self⟩
  · rw [hpeers]
    apply h.placed.update
    intro other hother
    cases List.mem_append.mp hother with
    | inl hold => exact h.placed index hindex other hold
    | inr hlast => rw [List.mem_singleton.mp hlast]
  · intro a ha
    have hlt := length_lt_of_pairs hvalid hpairs' ha
    rw [hpeers] at hlt ⊢
    rw [hbuckets]
    by_cases heq : a = index
    · subst heq
      rw [update_self, List.length_append] at hlt
      rw [update_self, update_self, List.length_append, UInt32.toNat_add, h.sizes _ ha]
      exact mod_eq_of_lt hlt
    · rw [update_of_ne heq, update_of_ne heq]
      exact h.sizes a ha
  · rw [hpeers, hclosest]
    exact h.closest.insert hindex (List.concat_ne_nil info (peersOf n index))

end Add

theorem Routes.connect (h : Routes setup n connected) (peer : HashCode)
    (hroom : setup.myIdentity ≠ peer →
      multihashmapContains setup.word id n.allKnownPeers peer = false → Room n) :
    ∃ next, setup.handleCoreConnect n peer = some next ∧
      Routes setup next (if peer = setup.myIdentity then connected else insert peer connected) := by
  rw [handleCoreConnect]
  by_cases hself : setup.myIdentity = peer
  · rw [if_pos hself, if_pos hself.symm]
    exact ⟨n, rfl, h⟩
  rw [if_neg hself, if_neg (Ne.symm hself)]
  by_cases hknown : peer ∈ connected
  · rw [if_pos (h.contains_iff.mpr hknown), Finset.insert_eq_of_mem hknown]
    exact ⟨n, rfl, h⟩
  rw [if_neg (hknown ∘ h.contains_iff.mp), findBucket_eq hself]
  let ret : PeerInfo := { address := n.fresh, id := peer }
  obtain ⟨map, hput, hentries, -, hvalid⟩ :=
    h.valid.put_new (some ret) (hknown ∘ h.hasKey_iff.mp)
      (hroom hself (Bool.not_eq_true _ ▸ hknown ∘ h.contains_iff.mp))
  have hpairs : pairs id map = (peer, some ret) ::ₘ pairs id n.allKnownPeers := by
    rw [pairs, hentries, map_cons]
    cases n.allKnownPeers.useSmallEntries <;> rfl
  have hnew : ret.id ∉ connected := hknown
  change ∃ next, (multihashmapPut setup.word id n.allKnownPeers peer (some ret)
    .uniqueOnly).bind _ = some next ∧ _
  rw [hput]
  exact ⟨_, rfl, h.added hnew hself hvalid hpairs rfl rfl⟩

/-! ## Disconnecting -/

theorem largest_lowerClosest {kBuckets : ℕ → PeerBucket} {closest : ℕ}
    (hsizes : ∀ b < maxBuckets, (kBuckets b).peersSize.toNat = (kBuckets b).peers.length)
    (hbound : closest < maxBuckets)
    (habove : ∀ b < maxBuckets, closest < b → (kBuckets b).peers = []) :
    Largest (fun b ↦ (kBuckets b).peers) (lowerClosest kBuckets closest) := by
  induction closest with
  | zero => exact ⟨hbound, habove, .inl rfl⟩
  | succ closest ih =>
    rw [lowerClosest]
    have hempty : (kBuckets (closest + 1)).peersSize = 0 ↔
        (kBuckets (closest + 1)).peers = [] := by
      rw [← UInt32.toNat_inj, hsizes _ hbound]
      exact List.length_eq_zero_iff
    by_cases hzero : (kBuckets (closest + 1)).peersSize = 0
    · rw [if_pos hzero]
      apply ih (lt_of_succ_lt hbound)
      intro b hb hlt
      by_cases heq : b = closest + 1
      · rw [heq]
        exact hempty.mp hzero
      · exact habove b hb (by omega)
    · rw [if_neg hzero]
      exact ⟨hbound, habove, .inr (hzero ∘ hempty.mpr)⟩

section Remove

variable {next : Neighbours} {info : PeerInfo}

theorem Routes.removed (h : Routes setup n connected)
    (hinfo : info ∈ peersOf n (setup.bucketIndex info.id))
    (hvalid : Valid setup.word id next.allKnownPeers) (hpairs : pairs id next.allKnownPeers =
      (pairs id n.allKnownPeers).erase (info.id, some info))
    (hbuckets : next.kBuckets = update n.kBuckets (setup.bucketIndex info.id)
      { peers := (peersOf n (setup.bucketIndex info.id)).erase info
        peersSize := (n.kBuckets (setup.bucketIndex info.id)).peersSize - 1 })
    (hclosest : next.closestBucket = lowerClosest next.kBuckets n.closestBucket) :
    Routes setup next (connected.erase info.id) := by
  have hindex : setup.bucketIndex info.id < maxBuckets := bucketIndex_lt setup info.id
  set index := setup.bucketIndex info.id
  have hpeers : peersOf next = update (peersOf n) index ((peersOf n index).erase info) := by
    unfold peersOf
    rw [hbuckets]
    exact peersOf_update
  have hcontents : info ::ₘ contents maxBuckets (peersOf next) =
      contents maxBuckets (peersOf n) := by
    rw [hpeers]
    apply cons_contents_update hindex
    exact coe_eq_coe.mpr (List.perm_cons_erase hinfo)
  have hsizes : ∀ a < maxBuckets, (next.kBuckets a).peersSize.toNat = (peersOf next a).length := by
    intro a ha
    rw [hpeers, hbuckets]
    by_cases heq : a = index
    · have hpos : 1 ≤ (peersOf n index).length := List.length_pos_of_mem hinfo
      have hone : 1 ≤ (n.kBuckets index).peersSize := by
        rw [le_iff_toNat_le, h.sizes index hindex]
        exact hpos
      rw [heq, update_self, update_self, UInt32.toNat_sub_of_le _ _ hone, h.sizes index hindex]
      exact (List.length_erase_of_mem hinfo).symm
    · rw [update_of_ne heq, update_of_ne heq]
      exact h.sizes a ha
  constructor
  · exact hvalid
  · rw [hpairs, h.pairs_eq, ← hcontents, map_cons, erase_cons_head]
  · rw [Finset.erase_val, ← h.ids, ← hcontents, map_cons, erase_cons_head]
  · rw [Finset.mem_erase, not_and]
    exact fun _ ↦ h.self
  · rw [hpeers]
    apply h.placed.update
    intro other hother
    exact h.placed index hindex other (List.mem_of_mem_erase hother)
  · exact hsizes
  · rw [hclosest]
    apply largest_lowerClosest hsizes h.closest.bound
    intro a ha hlt
    have hold := h.closest.above a ha hlt
    have hne : a ≠ index := by
      intro heq
      rw [← heq, hold] at hinfo
      exact absurd hinfo List.not_mem_nil
    change peersOf next a = []
    rw [hpeers, update_of_ne hne]
    exact hold

end Remove

theorem Routes.disconnect (h : Routes setup n connected) (peer : HashCode) :
    ∃ next, setup.handleCoreDisconnect n peer = some next ∧
      Routes setup next (connected.erase peer) := by
  rw [handleCoreDisconnect]
  by_cases hself : setup.myIdentity = peer
  · rw [if_pos hself, ← hself, Finset.erase_eq_of_notMem h.self]
    exact ⟨n, rfl, h⟩
  rw [if_neg hself]
  cases h.get_eq peer with
  | inl hunknown =>
    rw [hunknown.1, Finset.erase_eq_of_notMem hunknown.2]
    exact ⟨n, rfl, h⟩
  | inr hfound =>
    obtain ⟨info, hget, rfl, hinfo⟩ := hfound
    have hindex : setup.bucketIndex info.id < maxBuckets := bucketIndex_lt setup info.id
    obtain ⟨status, map, hremove⟩ : ∃ status map,
        multihashmapRemove setup.word id n.allKnownPeers info.id (some info) = (status, map) :=
      ⟨_, _, rfl⟩
    have hremoved := h.valid.remove info.id (some info)
    rw [hremove] at hremoved
    obtain ⟨hstatus, hpairs, hvalid⟩ := hremoved
    have hmem : (info.id, some info) ∈ pairs id n.allKnownPeers := by
      rw [h.pairs_eq]
      exact mem_map_of_mem _ (mem_contents.mpr ⟨_, hindex, hinfo⟩)
    have hok := hstatus.trans (if_pos hmem)
    have hsize : (n.kBuckets (setup.bucketIndex info.id)).peersSize > 0 := by
      apply lt_iff_toNat_lt.mpr
      rw [h.sizes _ hindex]
      exact List.length_pos_of_mem hinfo
    simp only [hget, hremove]
    rw [if_pos hok, findBucket_eq hself]
    exact ⟨_, if_pos ⟨hinfo, hsize⟩, h.removed hinfo hvalid hpairs rfl rfl⟩

/-! ## The closest peer -/

section Closest

variable {bloom : Option BloomFilter} {bits : ℕ}

/-- The scan stops at the first peer of the bucket that is not filtered, as all are closer. -/
theorem scanBucket_eq_true_iff {list : List PeerInfo} (hsize : 0 < setup.bucketSize)
    (hcloser : ∀ info ∈ list, bits < hashMatchingBits info.id key) :
    setup.scanBucket key bloom bits 0 list = true ↔
      ∀ info ∈ list, setup.filtered bloom info.id = true := by
  induction list with
  | nil => exact iff_of_true rfl fun _ hinfo ↦ absurd hinfo List.not_mem_nil
  | cons pos rest ih =>
    rw [List.forall_mem_cons] at hcloser ⊢
    rw [scanBucket, if_pos hsize]
    by_cases hfiltered : setup.filtered bloom pos.id = true
    · rw [if_pos hfiltered, ih hcloser.2]
      exact (and_iff_right hfiltered).symm
    · rw [if_neg hfiltered]
      simp only [if_pos hcloser.1]
      exact iff_of_false Bool.false_ne_true fun hboth ↦ hfiltered hboth.1

theorem closer_iff (hkey : setup.myIdentity ≠ key) (hpeer : setup.myIdentity ≠ peer) :
    hashMatchingBits setup.myIdentity key < hashMatchingBits peer key ↔
      setup.bucketIndex peer = setup.bucketIndex key := by
  have hkeyLt := matchingBits_lt hkey
  have hpeerLt := matchingBits_lt hpeer
  have hindex : setup.bucketIndex peer = setup.bucketIndex key ↔
      hashMatchingBits setup.myIdentity peer = hashMatchingBits setup.myIdentity key := by
    rw [bucketIndex, bucketIndex, maxBuckets_eq]
    omega
  rcases lt_trichotomy (hashMatchingBits setup.myIdentity peer)
    (hashMatchingBits setup.myIdentity key) with hlt | heq | hgt
  · have hother := matchingBits_of_lt hlt
    omega
  · have hother := lt_matchingBits_of_eq hpeer heq
    omega
  · have hother := matchingBits_of_lt hgt
    rw [matchingBits_comm] at hother
    omega

theorem scanBucket_of_size_zero (hsize : setup.bucketSize = 0) (list : List PeerInfo) :
    setup.scanBucket key bloom bits 0 list = true := by
  cases list with
  | nil => rfl
  | cons pos rest =>
    rw [scanBucket, hsize]
    exact if_neg (lt_irrefl 0)

theorem Routes.amClosestPeer_eq (h : Routes setup n connected) (hsize : 0 < setup.bucketSize)
    (key : HashCode) (bloom : Option BloomFilter) :
    ∃ closest, setup.amClosestPeer n key bloom = some closest ∧
      (closest = true ↔ ∀ peer ∈ connected, setup.filtered bloom peer = false →
        hashMatchingBits peer key ≤ hashMatchingBits setup.myIdentity key) := by
  rw [amClosestPeer]
  by_cases hkey : setup.myIdentity = key
  · refine ⟨true, if_pos hkey, iff_of_true rfl fun peer _ _ ↦ ?_⟩
    rw [matchingBits_eq_iff.mpr hkey]
    exact (agreement_matchingBits peer key).le
  rw [if_neg hkey, findBucket_eq hkey]
  have hindex := bucketIndex_lt setup key
  have hcloser : ∀ info ∈ peersOf n (setup.bucketIndex key),
      hashMatchingBits setup.myIdentity key < hashMatchingBits info.id key := by
    intro info hinfo
    have hne := h.ne_self (h.mem_connected hindex hinfo)
    exact (closer_iff hkey hne).mpr (h.placed _ hindex info hinfo)
  refine ⟨_, rfl, (scanBucket_eq_true_iff hsize hcloser).trans ?_⟩
  constructor
  · intro hall peer hpeer hfiltered
    by_contra hnot
    have hsame := (closer_iff hkey (h.ne_self hpeer)).mp (not_le.mp hnot)
    obtain ⟨info, hinfo, rfl⟩ := h.exists_info hpeer
    rw [hsame] at hinfo
    exact Bool.false_ne_true (hfiltered.symm.trans (hall info hinfo))
  · intro hall info hinfo
    by_contra hnot
    have hle := hall info.id (h.mem_connected hindex hinfo) (Bool.not_eq_true _ ▸ hnot)
    exact absurd (hcloser info hinfo) (not_lt.mpr hle)

end Closest

/-! ## Runs -/

inductive Notification
  | connect (peer : HashCode)
  | disconnect (peer : HashCode)

structure Session where
  table : Neighbours
  connected : Finset HashCode

def Setup.notify (setup : Setup) (session : Session) : Notification → Option Session
  | .connect peer => (setup.handleCoreConnect session.table peer).map fun table ↦
      { table
        connected := if peer = setup.myIdentity then session.connected
          else insert peer session.connected }
  | .disconnect peer => (setup.handleCoreDisconnect session.table peer).map fun table ↦
      { table, connected := session.connected.erase peer }

/-- Each connected peer is in the bucket of its identity only, and nobody else is in a bucket; the
sizes are right and the largest used index is known. -/
structure TableRight (setup : Setup) (session : Session) : Prop where
  known : ∀ peer, multihashmapContains setup.word id session.table.allKnownPeers peer = true ↔
    peer ∈ session.connected
  bucket : ∀ b < maxBuckets, ∀ peer, peer ∈ (peersOf session.table b).map PeerInfo.id ↔
    peer ∈ session.connected ∧ setup.findBucket peer = some b
  once : ∀ b < maxBuckets, ((peersOf session.table b).map PeerInfo.id).Nodup
  sizes : ∀ b < maxBuckets,
    (session.table.kBuckets b).peersSize.toNat = (peersOf session.table b).length
  closest : Largest (peersOf session.table) session.table.closestBucket

def HasRoom (setup : Setup) (session : Session) : Notification → Prop
  | .connect peer => setup.myIdentity ≠ peer →
      multihashmapContains setup.word id session.table.allKnownPeers peer = false →
      Room session.table
  | .disconnect _ => True

variable {session : Session}

theorem Routes.tableRight (h : Routes setup session.table session.connected) :
    TableRight setup session where
  known _ := h.contains_iff
  bucket b hb peer := by
    constructor
    · intro hmem
      obtain ⟨info, hinfo, rfl⟩ := List.mem_map.mp hmem
      have hconnected := h.mem_connected hb hinfo
      have hfind : setup.findBucket info.id = some b :=
        (findBucket_eq (h.ne_self hconnected)).trans (congrArg some (h.placed b hb info hinfo))
      exact ⟨hconnected, hfind⟩
    · rintro ⟨hpeer, hfind⟩
      rw [findBucket_eq (h.ne_self hpeer)] at hfind
      obtain ⟨info, hinfo, rfl⟩ := h.exists_info hpeer
      rw [Option.some.inj hfind] at hinfo
      exact List.mem_map_of_mem hinfo
  once b hb := by
    apply nodup_of_le (map_le_map (coe_le_contents hb))
    rw [h.ids]
    exact session.connected.nodup
  sizes := h.sizes
  closest := h.closest

theorem hasRoom_of_notify {next : Session} {notification : Notification}
    (h : setup.notify session notification = some next) : HasRoom setup session notification := by
  cases notification with
  | disconnect => trivial
  | connect peer =>
    intro hself hunknown hfull
    by_contra hlarge
    have hinserts : Inserts setup.word id session.table.allKnownPeers peer .uniqueOnly :=
      .inr (.inr hunknown)
    have hnone : setup.handleCoreConnect session.table peer = none := by
      rw [handleCoreConnect, if_neg hself, hunknown, findBucket_eq hself]
      change (multihashmapPut setup.word id session.table.allKnownPeers peer _ .uniqueOnly).bind _ =
        none
      rw [put_eq_none hinserts hfull hlarge]
      rfl
    rw [notify, hnone] at h
    exact absurd h.symm (Option.some_ne_none next)

theorem Routes.notify {notification : Notification}
    (h : Routes setup session.table session.connected)
    (hroom : HasRoom setup session notification) :
    ∃ next, setup.notify session notification = some next ∧
      Routes setup next.table next.connected := by
  cases notification with
  | connect peer =>
    obtain ⟨table, hconnect, hroutes⟩ := h.connect peer hroom
    exact ⟨_, by rw [Setup.notify, hconnect]; rfl, hroutes⟩
  | disconnect peer =>
    obtain ⟨table, hdisconnect, hroutes⟩ := h.disconnect peer
    exact ⟨_, by rw [Setup.notify, hdisconnect]; rfl, hroutes⟩

theorem exists_neighboursInit (setup : Setup) :
    ∃ table, neighboursInit = some table ∧ Routes setup table ∅ := by
  obtain ⟨map, hcreate, hentries, hvalid⟩ : ∃ map,
      multihashmapCreate HashCode HashCode (Option PeerInfo) 256 false = some map ∧
        entries map = 0 ∧ Valid setup.word id map := by
    refine ⟨_, dif_pos ⟨by decide, by decide⟩, contents_nil _, placed_nil _ _, ?_, zero_le _⟩
    exact (congrArg card (contents_nil _)).symm
  refine ⟨_, by rw [neighboursInit, hcreate]; rfl, ?_⟩
  have hcontents (table : Neighbours) (hempty : peersOf table = fun _ ↦ []) :
      contents maxBuckets (peersOf table) = 0 := by
    rw [hempty, contents_nil]
  constructor
  · exact hvalid
  · rw [hcontents _ rfl, pairs, hentries]
    rfl
  · rw [hcontents _ rfl]
    rfl
  · exact Finset.notMem_empty _
  · exact placed_nil _ _
  · exact fun _ _ ↦ rfl
  · refine ⟨?_, fun _ _ _ ↦ rfl, .inl rfl⟩
    rw [maxBuckets_eq]
    exact zero_lt_succ 511

/-- In every run the routing table is right. With a bucket size that is not zero, the local peer is
said to be the closest one exactly if no connected peer outside the filter is closer. A run goes on
as long as the hash map may grow. -/
theorem routing_table_right (setup : Setup) :
    ∃ table, neighboursInit = some table ∧ ∀ notifications,
      ((∃ session, run setup.notify ⟨table, ∅⟩ notifications = some session) ↔
        Along setup.notify (HasRoom setup) ⟨table, ∅⟩ notifications) ∧
      ∀ session, run setup.notify ⟨table, ∅⟩ notifications = some session →
        TableRight setup session ∧
        (setup.bucketSize ≠ 0 → ∀ key bloom, ∃ closest,
          setup.amClosestPeer session.table key bloom = some closest ∧
          (closest = true ↔ ¬ ∃ peer ∈ session.connected, setup.filtered bloom peer = false ∧
            hashMatchingBits peer key > hashMatchingBits setup.myIdentity key)) := by
  obtain ⟨table, hinit, hroutes⟩ := exists_neighboursInit setup
  refine ⟨table, hinit, fun notifications ↦ ?_⟩
  have hforward {session : Session}
      (hrun : run setup.notify ⟨table, ∅⟩ notifications = some session) :
      Along setup.notify (HasRoom setup) ⟨table, ∅⟩ notifications :=
    along_of_run (fun _ _ _ ↦ hasRoom_of_notify) hrun
  have htotal (hroom : Along setup.notify (HasRoom setup) ⟨table, ∅⟩ notifications) :
      ∃ session, run setup.notify ⟨table, ∅⟩ notifications = some session ∧
        Routes setup session.table session.connected :=
    run_total (fun _ _ h hroom ↦ h.notify hroom) hroutes hroom
  refine ⟨⟨fun ⟨_, hrun⟩ ↦ hforward hrun, fun hroom ↦ ?_⟩, fun session hrun ↦ ?_⟩
  · obtain ⟨session, hrun, -⟩ := htotal hroom
    exact ⟨session, hrun⟩
  · obtain ⟨_, hrun', hright⟩ := htotal (hforward hrun)
    obtain rfl := Option.some.inj (hrun.symm.trans hrun')
    refine ⟨hright.tableRight, fun hsize key bloom ↦ ?_⟩
    obtain ⟨closest, hclosest, hiff⟩ :=
      hright.amClosestPeer_eq (UInt32.pos_iff_ne_zero.mpr hsize) key bloom
    refine ⟨closest, hclosest, hiff.trans ?_⟩
    push Not
    rfl

/-- With a bucket size of zero no peer is looked at, not even one with the identity that is asked
for. -/
theorem closest_with_bucket_size_zero :
    ∃ setup : Setup, setup.bucketSize = 0 ∧ ∃ table session peer, neighboursInit = some table ∧
      run setup.notify ⟨table, ∅⟩ [.connect peer] = some session ∧ peer ∈ session.connected ∧
      setup.amClosestPeer session.table peer none = some true ∧
      setup.filtered none peer = false ∧
      hashMatchingBits peer peer > hashMatchingBits setup.myIdentity peer := by
  let setup : Setup :=
    { myIdentity := fun _ ↦ 0, bucketSize := 0, words := fun _ _ ↦ 0, hash := id }
  let peer : HashCode := fun _ ↦ 1
  have hself : setup.myIdentity ≠ peer := by
    intro heq
    exact absurd (congrFun heq 0) (by decide)
  obtain ⟨table, hinit, hroutes⟩ := exists_neighboursInit setup
  have hroom : Room table := by
    obtain rfl := Option.some.inj ((rfl : neighboursInit = some _).symm.trans hinit)
    intro hfull
    exact absurd hfull (by decide)
  obtain ⟨next, hconnect, -⟩ := hroutes.connect peer fun _ _ ↦ hroom
  refine ⟨setup, rfl, table, ⟨next, {peer}⟩, peer, hinit, ?_, Finset.mem_singleton_self peer, ?_,
    rfl, ?_⟩
  · rw [run_cons, notify, hconnect]
    exact congrArg (fun set ↦ some (Session.mk next set)) (if_neg (Ne.symm hself))
  · rw [amClosestPeer, findBucket_eq hself]
    exact congrArg some (scanBucket_of_size_zero rfl _)
  · rw [matchingBits_eq_iff.mpr rfl]
    exact matchingBits_lt hself

end Gnunet.Dht
