import Gnunet.Util.ContainerBloomfilter
import Gnunet.Util.ContainerMultiHashMap

/-!
# The routing table of the DHT

`gnunet-service-dht_neighbours.c` sorts the connected peers into buckets by the number of leading
bits that they share with the local peer, and keeps a hash map of them. A peer is closer to a key
than another if it shares more leading bits with it.

A peer info is a record with its address and the identity of the peer, which is never changed.
The local identity, the way in which the machine reads a hash code as numbers, and the hash function
of the Bloom filters are parameters. A failed assertion has no result.
-/

namespace Gnunet.Dht

open Util.ContainerMultiHashMap
open Util.ContainerBloomfilter (BloomFilter bloomfilterTest)

abbrev HashCode := Fin 64 → UInt8

def hashGetBit (code : HashCode) (bit : ℕ) : Bool :=
  code (Fin.ofNat 64 (bit / 8)) &&& 1 <<< UInt8.ofNat (bit % 8) > 0

def matchingFrom (first second : HashCode) : ℕ → ℕ → ℕ
  | 0, i => i
  | left + 1, i =>
    if hashGetBit first i ≠ hashGetBit second i then i else matchingFrom first second left (i + 1)

def hashMatchingBits (first second : HashCode) : ℕ := matchingFrom first second 512 0

@[irreducible] def maxBuckets : ℕ := 64 * 8

theorem maxBuckets_eq : maxBuckets = 512 := by rw [maxBuckets]

structure PeerInfo where
  address : ℕ
  id : HashCode
  deriving DecidableEq

structure PeerBucket where
  peers : List PeerInfo
  peersSize : UInt32

structure Neighbours where
  closestBucket : ℕ
  newlyFoundPeers : UInt32
  kBuckets : ℕ → PeerBucket
  allKnownPeers : MultiHashMap HashCode HashCode (Option PeerInfo)
  fresh : ℕ

structure Setup where
  myIdentity : HashCode
  bucketSize : UInt32
  words : HashCode → Fin 16 → UInt32
  hash : (Fin 16 → UInt32) → Fin 16 → UInt32

namespace Setup

variable (setup : Setup)

def findBucket (hc : HashCode) : Option ℕ :=
  let bits := hashMatchingBits setup.myIdentity hc
  if bits = maxBuckets then none else some (maxBuckets - bits - 1)

theorem sixteen_pos : 0 < 16 := by decide

/-- The number that the hash map reads at the beginning of a key. -/
def word (hc : HashCode) : UInt32 := setup.words hc ⟨0, sixteen_pos⟩

def handleCoreConnect (n : Neighbours) (peer : HashCode) : Option Neighbours :=
  if setup.myIdentity = peer then some n
  else if multihashmapContains setup.word id n.allKnownPeers peer then some n
  else do
    let peerBucket ← setup.findBucket peer
    let ret : PeerInfo := { address := n.fresh, id := peer }
    let bucket := n.kBuckets peerBucket
    let size := bucket.peersSize + 1
    let (status, map) ←
      multihashmapPut setup.word id n.allKnownPeers peer (some ret) .uniqueOnly
    if status = .ok then
      some { closestBucket := max n.closestBucket peerBucket
             newlyFoundPeers :=
              if peerBucket > 0 ∧ size ≤ setup.bucketSize then n.newlyFoundPeers + 1
              else n.newlyFoundPeers
             kBuckets := Function.update n.kBuckets peerBucket
              { peers := bucket.peers ++ [ret], peersSize := size }
             allKnownPeers := map
             fresh := n.fresh + 1 }
    else none

end Setup

/-- The loop of `handle_core_disconnect` past empty buckets. -/
def lowerClosest (kBuckets : ℕ → PeerBucket) : ℕ → ℕ
  | 0 => 0
  | b + 1 => if (kBuckets (b + 1)).peersSize = 0 then lowerClosest kBuckets b else b + 1

namespace Setup

variable (setup : Setup)

def handleCoreDisconnect (n : Neighbours) (peer : HashCode) : Option Neighbours :=
  if setup.myIdentity = peer then some n
  else
    match multihashmapGet setup.word id none n.allKnownPeers peer with
    | none => some n
    | some toRemove =>
      let (status, map) :=
        multihashmapRemove setup.word id n.allKnownPeers peer (some toRemove)
      if status = .ok then do
        let currentBucket ← setup.findBucket toRemove.id
        let bucket := n.kBuckets currentBucket
        -- The assertions of `GNUNET_CONTAINER_DLL_remove` and on the size.
        if toRemove ∈ bucket.peers ∧ bucket.peersSize > 0 then
          let kBuckets := Function.update n.kBuckets currentBucket
            { peers := bucket.peers.erase toRemove, peersSize := bucket.peersSize - 1 }
          some { n with
            closestBucket := lowerClosest kBuckets n.closestBucket
            kBuckets
            allKnownPeers := map }
        else none
      else none

def filtered (bloom : Option BloomFilter) (peer : HashCode) : Bool :=
  bloom.isSome && bloomfilterTest setup.hash bloom (setup.words peer)

/-- The loop of `am_closest_peer`; the counter is never raised. -/
def scanBucket (key : HashCode) (bloom : Option BloomFilter) (bits : ℕ) (count : UInt32) :
    List PeerInfo → Bool
  | [] => true
  | pos :: rest =>
    if count < setup.bucketSize then
      if setup.filtered bloom pos.id then scanBucket key bloom bits count rest
      else
        let otherBits := hashMatchingBits pos.id key
        if otherBits > bits then false
        else if otherBits = bits then true
        else scanBucket key bloom bits count rest
    else true

def amClosestPeer (n : Neighbours) (key : HashCode) (bloom : Option BloomFilter) : Option Bool :=
  if setup.myIdentity = key then some true
  else do
    let bucketNum ← setup.findBucket key
    let bits := hashMatchingBits setup.myIdentity key
    some (setup.scanBucket key bloom bits 0 (n.kBuckets bucketNum).peers)

end Setup

def neighboursInit : Option Neighbours :=
  (multihashmapCreate HashCode HashCode (Option PeerInfo) 256 false).map fun map ↦
    { closestBucket := 0
      newlyFoundPeers := 0
      kBuckets := fun _ ↦ { peers := [], peersSize := 0 }
      allKnownPeers := map
      fresh := 0 }

end Gnunet.Dht
