import Gnunet.Lib.Runs
import Gnunet.Util.ContainerMultiHashMap

/-!
# Interned peer identities

The table of `peer.c` gives each peer identity that is in use a small number. A slot in use holds
the identity, its own number and a reference counter; the number of an unused slot is a link in the
free list. A hash map leads from the identities to the slots; its keys are pointers into the slots.
The first slot is never used for a peer, because zero stands for no peer.

Slots are natural numbers, since the table cannot grow so large that their numbers would wrap. The
reference counters are words and do wrap. Failed assertions and allocations give no result.
-/

namespace Gnunet.Util.Peer

open ContainerMultiHashMap

structure PeerEntry (K : Type*) where
  id : K
  pid : ℕ
  rc : UInt32

/-- The entries from `size` on are not part of the table. A map of no value is not created yet. -/
structure Peers (K : Type*) where
  table : ℕ → PeerEntry K
  size : ℕ
  freeListStart : ℕ
  map : Option (MultiHashMap ℕ K (Option ℕ))

variable {K : Type*} [DecidableEq K] [Inhabited K] (word : K → UInt32)

def freshEntry (K : Type*) [Inhabited K] : PeerEntry K := ⟨default, 0, 0⟩

def unused (K : Type*) [Inhabited K] : Peers K := ⟨fun _ ↦ freshEntry K, 0, 0, none⟩

namespace Peers

def memory (peers : Peers K) (slot : ℕ) : K := (peers.table slot).id

def setEntry (peers : Peers K) (slot : ℕ) (entry : PeerEntry K) : Peers K :=
  { peers with table := Function.update peers.table slot entry }

def lookup (peers : Peers K) (pid : K) : Option ℕ :=
  peers.map.bind fun map ↦ multihashmapGet word peers.memory none map pid

end Peers

def search (peers : Peers K) (pid : Option K) : Option ℕ :=
  match pid.bind (peers.lookup word) with
  | none => some 0
  | some slot => if (peers.table slot).rc > 0 then some (peers.table slot).pid else none

def growTable (peers : Peers K) (ret : ℕ) : Option (Peers K) :=
  let size := peers.size + 16
  if 0x7FFFFFFF / 8 > size ∧ 8 * size ≤ maxMallocChecked then
    some { peers with
      table := fun i ↦ if ret ≤ i ∧ i < size then { freshEntry K with pid := i + 1 }
        else peers.table i
      size := size }
  else none

def takeSlot (peers : Peers K) (map : MultiHashMap ℕ K (Option ℕ)) (ret : ℕ) (pid : K) :
    Option (ℕ × Peers K) :=
  if ret < peers.size ∧ (peers.table ret).rc = 0 then
    let freeListStart := (peers.table ret).pid
    let peers := peers.setEntry ret ⟨pid, ret, 1⟩
    (multihashmapPut word peers.memory map ret (some ret) .uniqueOnly).map fun (_, map) ↦
      (ret, { peers with freeListStart := freeListStart, map := some map })
  else none

def internNew (peers : Peers K) (map : MultiHashMap ℕ K (Option ℕ)) (pid : K) :
    Option (ℕ × Peers K) :=
  let ret := peers.freeListStart
  (if ret = peers.size then growTable peers ret else some peers).bind fun peers ↦
    if ret = 0 then
      takeSlot word (peers.setEntry 0 { peers.table 0 with pid := 0, rc := 1 }) map 1 pid
    else takeSlot word peers map ret pid

def intern (peers : Peers K) : Option K → Option (ℕ × Peers K)
  | none => some (0, peers)
  | some pid =>
    (match peers.map with
      | some map => some map
      | none => multihashmapCreate ℕ K (Option ℕ) 32 true).bind fun map ↦
        match multihashmapGet word peers.memory none map pid with
        | some slot =>
          let entry := peers.table slot
          if entry.rc > 0 then
            some (entry.pid,
              { peers.setEntry slot { entry with rc := entry.rc + 1 } with map := some map })
          else none
        | none => internNew word peers map pid

/-- A slot without references is taken out of the map and put in front of the free list. -/
def releaseUnused (peers : Peers K) (id : ℕ) : Option (Peers K) :=
  if (peers.table id).rc = 0 then
    peers.map.map fun map ↦
      let (_, map) := multihashmapRemove word peers.memory map (peers.memory id) (some id)
      { peers.setEntry id { peers.table id with pid := peers.freeListStart } with
        freeListStart := id
        map := some map }
  else some peers

def setRc (peers : Peers K) (id : ℕ) (rc : UInt32) : Peers K :=
  peers.setEntry id { peers.table id with rc := rc }

def decrementRc (peers : Peers K) (id : ℕ) : Option (Peers K) :=
  if id = 0 then some peers
  else if id < peers.size ∧ (peers.table id).rc > 0 then
    releaseUnused word (setRc peers id ((peers.table id).rc - 1)) id
  else none

/-- The index is a signed word, so that for a count over `2 ^ 31` the loop ends before its first
round. -/
def decrementRcs (peers : Peers K) (ids : List ℕ) : Option (Peers K) :=
  if ids.length ≤ 2 ^ 31 then ids.reverse.foldlM (decrementRc word) peers else some peers

def changeRc (peers : Peers K) (id : ℕ) (delta : Int32) : Option (Peers K) :=
  if id = 0 then some peers
  else
    let rc := (peers.table id).rc
    if id < peers.size ∧ rc > 0 ∧ (delta ≥ 0 ∨ rc ≥ (-delta).toUInt32) then
      releaseUnused word (setRc peers id (rc + delta.toUInt32)) id
    else none

def resolve (peers : Peers K) (id : ℕ) : Option K :=
  if id = 0 then some default
  else if id < peers.size ∧ (peers.table id).rc > 0 then some (peers.table id).id
  else none

inductive Call (K : Type*) where
  | intern (pid : Option K)
  | changeRc (id : ℕ) (delta : Int32)
  | decrementRcs (ids : List ℕ)

structure Session (K : Type*) where
  peers : Peers K
  refs : K → ℕ

def changeRefs (refs : K → ℕ) (pid : K) (delta : ℤ) : K → ℕ :=
  Function.update refs pid ((refs pid : ℤ) + delta).toNat

def dropRef (peers : Peers K) (refs : K → ℕ) (id : ℕ) : K → ℕ :=
  if id = 0 then refs else changeRefs refs (peers.table id).id (-1)

def perform (session : Session K) : Call K → Option (Session K)
  | .intern none => (intern word session.peers none).map fun (_, peers) ↦ ⟨peers, session.refs⟩
  | .intern (some pid) =>
    (intern word session.peers (some pid)).map fun (_, peers) ↦
      ⟨peers, changeRefs session.refs pid 1⟩
  | .changeRc id delta =>
    (changeRc word session.peers id delta).map fun peers ↦
      ⟨peers, if id = 0 then session.refs
        else changeRefs session.refs (session.peers.table id).id delta.toInt⟩
  | .decrementRcs ids =>
    (decrementRcs word session.peers ids).map fun peers ↦
      ⟨peers, ids.reverse.foldl (dropRef session.peers) session.refs⟩

end Gnunet.Util.Peer
