import Gnunet.Lib.Buckets
import Gnunet.Util.CommonAllocation

/-!
# Hash maps with several values for a key

The hash map of `container_multihashmap.c`.  An entry holds its key, or only a pointer to it; in the
second case the caller keeps the key alive and unchanged as long as the entry is in the map.  The
array of buckets is doubled in the middle of `put` when the map has become too full.

Arrays are allocated with `GNUNET_malloc`, which stops the program when it is asked for more than
40 MiB.  This is the only way in which an operation on a valid map can fail.
-/

namespace Gnunet.Util.ContainerMultiHashMap

open Lib.Buckets Function

/-- The key of an entry: a pointer to it, or the key itself. -/
inductive StoredKey (P K : Type*) where
  | small (pointer : P)
  | big (key : K)

structure MapEntry (P K V : Type*) where
  key : StoredKey P K
  value : V

/-- The buckets from `mapLength` on are not part of the map.  The length has been allocated. -/
structure MultiHashMap (P K V : Type*) where
  map : ℕ → List (MapEntry P K V)
  size : UInt32
  mapLength : UInt32
  useSmallEntries : Bool
  length_pos : 0 < mapLength.toNat
  length_le : 8 * mapLength.toNat ≤ maxMallocChecked

inductive PutOption where
  | replace
  | multiple
  | uniqueOnly
  | uniqueFast
deriving DecidableEq

inductive Status where
  | syserr
  | no
  | ok
deriving DecidableEq

section Model

variable {P K V σ : Type*} [DecidableEq K] [DecidableEq V]
variable (word : K → UInt32) (memory : P → K)

def multihashmapCreate (P K V : Type*) (len : UInt32) (doNotCopyKeys : Bool) :
    Option (MultiHashMap P K V) :=
  if h : 0 < len.toNat ∧ 8 * len.toNat ≤ maxMallocChecked then
    some ⟨fun _ ↦ [], 0, len, doNotCopyKeys, h.1, h.2⟩
  else none

def idxOf (mapLength : UInt32) (key : K) : ℕ := (word key % mapLength).toNat

def StoredKey.read : StoredKey P K → K
  | .small pointer => memory pointer
  | .big key => key

def MapEntry.hasKey (key : K) (entry : MapEntry P K V) : Bool := entry.key.read memory = key

def multihashmapSize (map : MultiHashMap P K V) : UInt32 := map.size

def multihashmapGet (null : V) (map : MultiHashMap P K V) (key : K) : V :=
  match (map.map (idxOf word map.mapLength key)).find? (MapEntry.hasKey memory key) with
  | some entry => entry.value
  | none => null

/-- The iterator is called until it does not return `GNUNET_OK`; without one the pairs are counted.
-/
def visit (it : Option (σ → K → V → σ × Bool)) : σ → ℕ → List (K × V) → σ × Option ℕ
  | state, count, [] => (state, some count)
  | state, count, (key, value) :: rest =>
    match it with
    | none => visit it state (count + 1) rest
    | some call =>
      match call state key value with
      | (state, true) => visit it state (count + 1) rest
      | (state, false) => (state, none)

def MapEntry.pair (entry : MapEntry P K V) : K × V := (entry.key.read memory, entry.value)

def multihashmapIterate (map : MultiHashMap P K V) (it : Option (σ → K → V → σ × Bool))
    (itCls : σ) : σ × Option ℕ :=
  visit it itCls 0
    (((List.range map.mapLength.toNat).flatMap map.map).map (MapEntry.pair memory))

def multihashmapRemove (map : MultiHashMap P K V) (key : K) (value : V) :
    Status × MultiHashMap P K V :=
  let i := idxOf word map.mapLength key
  let found (entry : MapEntry P K V) : Bool := entry.hasKey memory key && entry.value = value
  if (map.map i).any found then
    (.ok, { map with
      map := update map.map i ((map.map i).eraseP found)
      size := map.size - 1 })
  else (.no, map)

def multihashmapRemoveAll (map : MultiHashMap P K V) (key : K) : ℕ × MultiHashMap P K V :=
  let i := idxOf word map.mapLength key
  let ret := (map.map i).countP (MapEntry.hasKey memory key)
  (ret, { map with
    map := update map.map i ((map.map i).filter fun entry ↦ !entry.hasKey memory key)
    size := map.size - UInt32.ofNat ret })

def multihashmapContains (map : MultiHashMap P K V) (key : K) : Bool :=
  (map.map (idxOf word map.mapLength key)).any (MapEntry.hasKey memory key)

def multihashmapContainsValue (map : MultiHashMap P K V) (key : K) (value : V) : Bool :=
  (map.map (idxOf word map.mapLength key)).any
    fun entry ↦ entry.hasKey memory key && entry.value = value

omit [DecidableEq K] [DecidableEq V] in
theorem MultiHashMap.toNat_double (map : MultiHashMap P K V) :
    (map.mapLength * 2).toNat = map.mapLength.toNat * 2 := by
  have hle := map.length_le
  rw [maxMallocChecked] at hle
  rw [UInt32.toNat_mul]
  exact Nat.mod_eq_of_lt (by change _ * 2 < _; omega)

/-- Every entry moves to the front of its new bucket. -/
def grow (map : MultiHashMap P K V) : Option (MultiHashMap P K V) :=
  let newLen := map.mapLength * 2
  if h : 8 * newLen.toNat ≤ maxMallocChecked then
    some { map with
      map := (List.range map.mapLength.toNat).foldl
        (fun newMap i ↦ (map.map i).foldl
          (push fun entry ↦ idxOf word newLen (entry.key.read memory)) newMap) fun _ ↦ []
      mapLength := newLen
      length_pos := by rw [map.toNat_double]; exact Nat.mul_pos map.length_pos (by omega)
      length_le := h }
  else none

def replaceValue (key : K) (value : V) : List (MapEntry P K V) → List (MapEntry P K V)
  | [] => []
  | entry :: rest =>
    if entry.hasKey memory key then { entry with value := value } :: rest
    else entry :: replaceValue key value rest

def IsFull (map : MultiHashMap P K V) : Prop := map.size / 3 ≥ map.mapLength / 4

instance (map : MultiHashMap P K V) : Decidable (IsFull map) :=
  inferInstanceAs (Decidable (map.size / 3 ≥ map.mapLength / 4))

def insertEntry (map : MultiHashMap P K V) (key : P) (value : V) : MultiHashMap P K V :=
  let stored := if map.useSmallEntries then .small key else .big (memory key)
  { map with
    map := push (fun entry ↦ idxOf word map.mapLength (entry.key.read memory)) map.map
      ⟨stored, value⟩
    size := map.size + 1 }

def multihashmapPut (map : MultiHashMap P K V) (key : P) (value : V) (opt : PutOption) :
    Option (Status × MultiHashMap P K V) :=
  let i := idxOf word map.mapLength (memory key)
  if opt ≠ .multiple ∧ opt ≠ .uniqueFast ∧
      (map.map i).any (MapEntry.hasKey memory (memory key)) then
    if opt = .uniqueOnly then some (.syserr, map)
    else some (.no, { map with
      map := update map.map i (replaceValue memory (memory key) value (map.map i)) })
  else
    (if IsFull map then grow word memory map else some map).map fun map ↦
      (.ok, insertEntry word memory map key value)

def multihashmapGetMultiple (map : MultiHashMap P K V) (key : K)
    (it : Option (σ → K → V → σ × Bool)) (itCls : σ) : σ × Option ℕ :=
  visit it itCls 0 (((map.map (idxOf word map.mapLength key)).filter
    (MapEntry.hasKey memory key)).map (MapEntry.pair memory))

end Model

end Gnunet.Util.ContainerMultiHashMap
