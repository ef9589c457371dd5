import Gnunet.Dht.Neighbours

/-!
# Answering a request for peers

`handle_find_peer` answers with the local HELLO and with that of one neighbour from the bucket of
the key: it starts behind a random peer of the bucket and takes the first one whose HELLO is known
and that the filter does not have, going around the list at most once.

The random number, the HELLOs that are known and the hash that a filter holds for a peer are
parameters.
-/

namespace Gnunet.Dht

open Util.ContainerBloomfilter (BloomFilter bloomfilterAdd bloomfilterTest)

section Search

variable {Hello : Type*} (offer : PeerInfo → Option Hello) (peers : List PeerInfo)

/-- The loop from a position in the list; reading behind its end has no result. -/
def nextHello : ℕ → List PeerInfo → Option (Option Hello)
  | _, [] => none
  | 0, _ :: _ => some none
  | choice + 1, _ :: rest =>
    match (if rest = [] then peers else rest) with
    | [] => none
    | peer :: rest =>
      match offer peer with
      | none => nextHello choice (peer :: rest)
      | some hello => some (some hello)

theorem nextHello_eq (hpeers : peers ≠ []) (choice : ℕ) (peer : PeerInfo) (rest : List PeerInfo)
    (hle : choice ≤ rest.length + peers.length) :
    nextHello offer peers choice (peer :: rest) =
      some (((rest ++ peers).take choice).findSome? offer) := by
  induction choice generalizing peer rest with
  | zero => rfl
  | succ choice ih =>
    cases rest with
    | nil =>
      obtain ⟨first, others, rfl⟩ := List.exists_cons_of_ne_nil hpeers
      have hothers : choice ≤ others.length := by simpa using hle
      simp only [nextHello, if_pos, List.nil_append, List.take_succ_cons, List.findSome?_cons]
      rw [ih first others (by omega), List.take_append_of_le_length hothers]
      cases offer first <;> rfl
    | cons next rest =>
      simp only [nextHello, reduceCtorEq, if_false, List.cons_append, List.take_succ_cons,
        List.findSome?_cons]
      rw [ih next rest (by simp at hle; omega)]
      cases offer next <;> rfl

theorem nextHello_drop (start : ℕ) (hstart : start < peers.length) :
    ∃ order : List PeerInfo, (∀ peer, peer ∈ order ↔ peer ∈ peers) ∧
      nextHello offer peers peers.length (peers.drop start) = some (order.findSome? offer) := by
  refine ⟨(peers.drop (start + 1) ++ peers).take peers.length, fun peer ↦ ?_, ?_⟩
  · rw [List.take_append, List.take_of_length_le (by simp), List.length_drop,
      show peers.length - (peers.length - (start + 1)) = start + 1 by omega, List.mem_append,
      or_comm, ← List.mem_append, List.take_append_drop]
  · rw [List.drop_eq_getElem_cons hstart]
    exact nextHello_eq offer peers (List.ne_nil_of_length_pos (by omega)) _ _ _ (by omega)

end Search

namespace Setup

variable {Hello : Type*} (setup : Setup) (mingle : HashCode → HashCode)
  (known : HashCode → Option Hello) (n : Neighbours) (key : HashCode)

def findPeerBucket : Option PeerBucket :=
  if setup.myIdentity = key then some (n.kBuckets n.closestBucket)
  else (setup.findBucket key).map fun bucket ↦ n.kBuckets (min n.closestBucket bucket)

def offer (bf : Option BloomFilter) (peer : PeerInfo) : Option Hello :=
  if bloomfilterTest setup.hash bf (setup.words (mingle peer.id)) then none else known peer.id

/-- The local HELLO and that of a neighbour, where they are sent. -/
def handleFindPeer (myHello : Option Hello) (random : UInt32 → UInt32) (bf : Option BloomFilter) :
    Option (Option Hello × Option Hello) :=
  let own := if setup.filtered bf (mingle setup.myIdentity) then none else myHello
  match setup.findPeerBucket n key with
  | none => some (own, none)
  | some bucket =>
    if bucket.peersSize = 0 then some (own, none)
    else
      (nextHello (setup.offer mingle known bf) bucket.peers bucket.peersSize.toNat
        (bucket.peers.drop (random bucket.peersSize).toNat)).map (own, ·)

/-- A peer whose HELLO is known and that the request does not mask. -/
def Eligible (bf : Option BloomFilter) (peer : PeerInfo) : Prop :=
  (known peer.id).isSome ∧ setup.filtered bf (mingle peer.id) = false

/-- A neighbour that may be named is named unless the request has no filter. -/
theorem handleFindPeer_neighbour (myHello : Option Hello) (random : UInt32 → UInt32)
    (bf : Option BloomFilter) (hrandom : ∀ size > 0, random size < size)
    (hsize : ∀ bucket ∈ setup.findPeerBucket n key,
      bucket.peersSize.toNat = bucket.peers.length) :
    ∃ own sent, setup.handleFindPeer mingle known n key myHello random bf = some (own, sent) ∧
      (∀ hello ∈ sent, ∃ bucket ∈ setup.findPeerBucket n key, ∃ peer ∈ bucket.peers,
        setup.Eligible mingle known bf peer ∧ known peer.id = some hello) ∧
      ∀ bucket ∈ setup.findPeerBucket n key,
        ((∃ peer ∈ bucket.peers, setup.Eligible mingle known bf peer) → sent.isSome) ↔
          (bf = none → ∀ peer ∈ bucket.peers, known peer.id = none) := by
  unfold handleFindPeer
  cases hbucket : setup.findPeerBucket n key with
  | none => exact ⟨_, none, rfl, by simp, by simp⟩
  | some bucket =>
    have hlength := hsize bucket hbucket
    simp only [Option.mem_some_iff, forall_eq', exists_eq_left']
    by_cases hzero : bucket.peersSize = 0
    · have hnil : bucket.peers = [] := by simpa [hzero, eq_comm] using hlength
      exact ⟨_, none, if_pos hzero, by simp, by simp [hnil]⟩
    · have hpos := hrandom _ (UInt32.pos_iff_ne_zero.2 hzero)
      rw [UInt32.lt_iff_toNat_lt, hlength] at hpos
      obtain ⟨order, hmem, hnext⟩ :=
        nextHello_drop (setup.offer mingle known bf) bucket.peers _ hpos
      simp only [if_neg hzero, hlength, hnext, Option.map_some]
      refine ⟨_, _, rfl, fun hello hsent ↦ ?_, ?_⟩
      · obtain ⟨peer, hpeer, hoffer⟩ := List.exists_of_findSome?_eq_some hsent
        rw [offer, Option.ite_none_left_eq_some, Bool.not_eq_true] at hoffer
        exact ⟨peer, (hmem peer).1 hpeer,
          ⟨by rw [hoffer.2]; rfl, by rw [filtered, hoffer.1, Bool.and_false]⟩, hoffer.2⟩
      · rw [List.findSome?_isSome_iff]
        cases bf with
        | none =>
          -- The test of an absent filter has every peer.
          simp [offer, Eligible, filtered, bloomfilterTest, Option.isSome_iff_ne_none]
        | some bf =>
          refine iff_of_true ?_ nofun
          rintro ⟨peer, hpeer, hknown, hmasked⟩
          rw [filtered, Option.isSome_some, Bool.true_and] at hmasked
          exact ⟨peer, (hmem peer).2 hpeer, by rwa [offer, hmasked]⟩

def crowdSetup : Setup := ⟨fun _ ↦ 0, 8, fun hc _ ↦ (hc (Fin.last _)).toUInt32, id⟩

/-- The HELLO of the first of three neighbours is not known, and the filter has the second one. -/
def crowd : Neighbours :=
  ⟨0, 0, fun _ ↦ ⟨[⟨1, fun _ ↦ 1⟩, ⟨2, fun _ ↦ 2⟩, ⟨3, fun _ ↦ 3⟩], 3⟩,
    ⟨fun _ ↦ [], 0, 1, true, by decide, by decide⟩, 4⟩

def crowdKnown (hc : HashCode) : Option UInt8 :=
  if hc (Fin.last _) = 1 then none else some (hc (Fin.last _))

def crowdFilter : Option BloomFilter :=
  bloomfilterAdd crowdSetup.hash (some ⟨fun _ ↦ 0, none, 1, 1, by decide, by decide⟩)
    (crowdSetup.words fun _ ↦ 2)

/-- The search starts behind the last neighbour, goes around the list and ends at that one. -/
theorem handleFindPeer_crowd :
    ∃ own hello, crowdSetup.handleFindPeer id crowdKnown crowd (fun _ ↦ 0) none (· - 1)
        crowdFilter = some (own, some hello) ∧
      ∃ peer ∈ (crowd.kBuckets 0).peers,
        crowdSetup.Eligible id crowdKnown crowdFilter peer ∧ crowdKnown peer.id = some hello := by
  have hrandom : ∀ size : UInt32, size > 0 → size - 1 < size := by
    intro size hpos
    rw [gt_iff_lt, UInt32.lt_iff_toNat_lt, UInt32.toNat_zero] at hpos
    rw [UInt32.lt_iff_toNat_lt, UInt32.toNat_sub_of_le]
    · exact Nat.sub_lt hpos Nat.one_pos
    · exact UInt32.le_iff_toNat_le.mpr hpos
  have hbucket : crowdSetup.findPeerBucket crowd (fun _ ↦ 0) = some (crowd.kBuckets 0) := if_pos rfl
  have hsize : ∀ bucket ∈ crowdSetup.findPeerBucket crowd (fun _ ↦ 0),
      bucket.peersSize.toNat = bucket.peers.length := by
    intro bucket hmem
    cases hbucket.symm.trans hmem
    rfl
  obtain ⟨own, sent, hresult, hnamed, hsent⟩ := handleFindPeer_neighbour crowdSetup id crowdKnown
    crowd (fun _ ↦ 0) none (· - 1) crowdFilter hrandom hsize
  have hfilter : crowdFilter ≠ none := Option.some_ne_none _
  have hthird : crowdSetup.Eligible id crowdKnown crowdFilter ⟨3, fun _ ↦ 3⟩ := ⟨rfl, rfl⟩
  have hsome := (hsent _ hbucket).2 (fun hnone ↦ absurd hnone hfilter) ⟨_, by decide, hthird⟩
  obtain ⟨hello, rfl⟩ := Option.isSome_iff_exists.mp hsome
  obtain ⟨bucket, hmem, hpeer⟩ := hnamed hello rfl
  cases hbucket.symm.trans hmem
  exact ⟨own, hello, hresult, hpeer⟩

def loneSetup : Setup := ⟨fun _ ↦ 0, 8, fun _ _ ↦ 0, id⟩

def lone : Neighbours :=
  ⟨0, 0, fun _ ↦ ⟨[⟨1, fun _ ↦ 1⟩], 1⟩, ⟨fun _ ↦ [], 0, 1, true, by decide, by decide⟩, 2⟩

/-- Without a filter the only neighbour is not named although it is not masked. -/
theorem handleFindPeer_unfiltered :
    loneSetup.handleFindPeer id some lone (fun _ ↦ 0) none (fun _ ↦ 0) none = some (none, none) ∧
      loneSetup.Eligible id some none ⟨1, fun _ ↦ 1⟩ :=
  ⟨rfl, rfl, rfl⟩

end Setup

end Gnunet.Dht
