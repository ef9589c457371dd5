import Gnunet.Util.MessageHeader
import Gnunet.Util.MetaDataSerialization

/-!
# Type map messages

A peer tells its neighbours which message types it handles by a map with one bit for each type
(`gnunet-service-core_typemap.c`). The map is sent compressed if that makes it smaller. The sender
counts the header in the size of the message and the receiver does not.
-/

namespace Gnunet.Core

open Util Util.MetaData

def sizeofTypeMap : ℕ := 8192

/-- The memory of a `struct GSC_TypeMap`: a bit for each of the 65536 types. -/
structure TypeMap where
  bytes : List UInt8
  length_eq : bytes.length = sizeofTypeMap

inductive MessageType
  | binaryTypeMap
  | compressedTypeMap
  | other
  deriving DecidableEq

structure TypeMapMessage where
  type : MessageType
  size : ℕ
  memory : List UInt8

/-- The message and, behind it, some other memory. -/
def computeTypeMapMessage (zlib : Zlib) (map : TypeMap) (other : List UInt8) : TypeMapMessage :=
  match zlib.compress map.bytes with
  | some compressed =>
    if sizeofTypeMap ≤ compressed.length then
      ⟨.binaryTypeMap, sizeofTypeMap + messageHeaderSize, map.bytes ++ other⟩
    else
      ⟨.compressedTypeMap, (compressed.length + messageHeaderSize) % 2 ^ 16, compressed ++ other⟩
  | none => ⟨.binaryTypeMap, sizeofTypeMap + messageHeaderSize, map.bytes ++ other⟩

/-- `uncompress` stops at the end of the compressed data, whatever stands behind it. -/
def StopsAtEnd (zlib : Zlib) : Prop :=
  ∀ data compressed rest, zlib.compress data = some compressed →
    zlib.uncompress (compressed ++ rest) data.length = some data

/-- The bytes behind the header that `memcpy` or `uncompress` is called with. -/
def bytesUsed (msg : TypeMapMessage) : ℕ :=
  match msg.type with
  | .binaryTypeMap => if msg.size ≠ sizeofTypeMap then 0 else sizeofTypeMap
  | .compressedTypeMap => msg.size
  | .other => 0

def mapOf (bytes : List UInt8) : Option TypeMap :=
  if h : bytes.length = sizeofTypeMap then some ⟨bytes, h⟩ else none

def getFromMessage (zlib : Zlib) (msg : TypeMapMessage) : Option TypeMap :=
  match msg.type with
  | .binaryTypeMap =>
    if msg.size ≠ sizeofTypeMap then none else mapOf (msg.memory.take (bytesUsed msg))
  | .compressedTypeMap =>
    (zlib.uncompress (msg.memory.take (bytesUsed msg)) sizeofTypeMap).bind mapOf
  | .other => none

theorem mapOf_eq_some_iff {bytes : List UInt8} {map : TypeMap} :
    mapOf bytes = some map ↔ bytes = map.bytes := by
  constructor
  · intro h
    unfold mapOf at h
    split_ifs at h
    rw [← Option.some.inj h]
  · rintro rfl
    exact dif_pos map.length_eq

theorem getFromMessage_binary (zlib : Zlib) (memory : List UInt8) :
    getFromMessage zlib ⟨.binaryTypeMap, sizeofTypeMap + messageHeaderSize, memory⟩ = none := by
  have hsize : sizeofTypeMap + messageHeaderSize ≠ sizeofTypeMap := by decide
  rw [getFromMessage, if_pos hsize]

/-- Of the compressed encoding as many bytes too many are used as the header has. -/
theorem getFromMessage_compressed (zlib : Zlib) {compressed : List UInt8} (other : List UInt8)
    (h : compressed.length < sizeofTypeMap) :
    getFromMessage zlib ⟨.compressedTypeMap, (compressed.length + messageHeaderSize) % 2 ^ 16,
        compressed ++ other⟩ =
      (zlib.uncompress (compressed ++ other.take messageHeaderSize) sizeofTypeMap).bind mapOf := by
  have hsize : (compressed.length + messageHeaderSize) % 2 ^ 16 =
      compressed.length + messageHeaderSize := by
    rw [sizeofTypeMap] at h
    rw [messageHeaderSize]
    omega
  have hused : (compressed ++ other).take (compressed.length + messageHeaderSize) =
      compressed ++ other.take messageHeaderSize := List.take_length_add_append _
  rw [hsize, getFromMessage, bytesUsed, hused]

/-- A map is received as it was sent exactly if it was sent compressed. A message is only read
inside exactly if it is refused at once. -/
theorem typeMap_exchange (zlib : Zlib) (hstops : StopsAtEnd zlib) :
    (∀ map other, getFromMessage zlib (computeTypeMapMessage zlib map other) = some map ↔
      ∃ compressed, zlib.compress map.bytes = some compressed ∧
        compressed.length < sizeofTypeMap) ∧
    ∀ msg : TypeMapMessage, messageHeaderSize ≤ msg.size →
      (messageHeaderSize + bytesUsed msg ≤ msg.size ↔
        msg.type ≠ .compressedTypeMap ∧
          ¬ (msg.type = .binaryTypeMap ∧ msg.size = sizeofTypeMap)) := by
  constructor
  · intro map other
    rw [computeTypeMapMessage]
    cases hcompress : zlib.compress map.bytes with
    | none => simp [getFromMessage_binary]
    | some compressed =>
      by_cases hlarge : sizeofTypeMap ≤ compressed.length
      · simp [getFromMessage_binary, hlarge]
      · have hsmall := not_le.mp hlarge
        have hdata := hstops _ _ (other.take messageHeaderSize) hcompress
        rw [map.length_eq] at hdata
        simp only [if_neg hlarge, getFromMessage_compressed zlib other hsmall, hdata]
        simp [mapOf_eq_some_iff, hsmall]
  · intro msg hheader
    rw [messageHeaderSize] at hheader ⊢
    cases htype : msg.type with
    | binaryTypeMap =>
      by_cases hsize : msg.size = sizeofTypeMap
      · simp [bytesUsed, htype, hsize]
      · simpa [bytesUsed, htype, hsize] using hheader
    | compressedTypeMap => simp [bytesUsed, htype]
    | other => simpa [bytesUsed, htype] using hheader

def emptyMap : TypeMap := ⟨List.replicate sizeofTypeMap 0, List.length_replicate⟩

def compressedEmptyMap : List UInt8 :=
  [120, 218, 237, 193, 1, 13, 0, 0, 0, 194, 160, 247, 79, 109, 14, 55, 160, 0, 0, 0, 0, 0, 0, 0,
    128, 119, 3, 32, 0, 0, 1]

def scatteredMap : TypeMap :=
  ⟨(List.range sizeofTypeMap).map fun i ↦ UInt8.ofNat (i ^ 3 % 65537 / 256),
    (List.length_map _).trans List.length_range⟩

def adler32 (data : List UInt8) : List UInt8 :=
  let sums := data.foldl (fun sums byte ↦
    ((sums.1 + byte.toNat) % 65521, (sums.2 + sums.1 + byte.toNat) % 65521)) (1, 0)
  [.ofNat (sums.2 / 256), .ofNat sums.2, .ofNat (sums.1 / 256), .ofNat sums.1]

/-- What `compress2` makes of 8192 bytes that it cannot shorten: a single block of them. -/
def storedBlock (data : List UInt8) : List UInt8 :=
  [120, 218, 1, 0, 32, 255, 223] ++ (data ++ adler32 data)

theorem not_prefix_storedBlock (data rest : List UInt8) :
    ¬ compressedEmptyMap <+: storedBlock data ++ rest := by
  rintro ⟨behind, h⟩
  have hthird := congrArg (·[2]?) h
  simp [compressedEmptyMap, storedBlock] at hthird

def compressMap (data : List UInt8) : Option (List UInt8) :=
  if data = emptyMap.bytes then some compressedEmptyMap
  else if data.length = sizeofTypeMap then some (storedBlock data)
  else none

def uncompressMap (bytes : List UInt8) (size : ℕ) : Option (List UInt8) :=
  if compressedEmptyMap <+: bytes then some emptyMap.bytes else some ((bytes.drop 7).take size)

theorem uncompressMap_append {data compressed : List UInt8} (rest : List UInt8)
    (h : compressMap data = some compressed) :
    uncompressMap (compressed ++ rest) data.length = some data := by
  unfold compressMap at h
  split_ifs at h with hempty
  · cases h
    rw [uncompressMap, if_pos (List.prefix_append _ _), hempty]
  · cases h
    rw [uncompressMap, if_neg (not_prefix_storedBlock data rest)]
    simp [storedBlock]

theorem uncompressMap_compressMap {data compressed : List UInt8}
    (h : compressMap data = some compressed) :
    uncompressMap compressed data.length = some data := by
  simpa using uncompressMap_append [] h

/-- zlib on maps that are empty or cannot be shortened. -/
def mapZlib : Zlib := ⟨compressMap, uncompressMap, uncompressMap_compressMap⟩

theorem stopsAtEnd_mapZlib : StopsAtEnd mapZlib := fun _ _ rest h ↦ uncompressMap_append rest h

/-- The empty map is received as it was sent. -/
theorem typeMap_exchange_empty : StopsAtEnd mapZlib ∧
    getFromMessage mapZlib (computeTypeMapMessage mapZlib emptyMap [1, 2, 3, 4, 5]) =
      some emptyMap := by
  refine ⟨stopsAtEnd_mapZlib, ?_⟩
  apply ((typeMap_exchange mapZlib stopsAtEnd_mapZlib).1 emptyMap [1, 2, 3, 4, 5]).mpr
  refine ⟨compressedEmptyMap, ?_, by decide⟩
  simp only [mapZlib, compressMap, if_true]

/-- The sender's own uncompressed message is refused, and a message of exactly the size of a map
is read four bytes beyond its end. -/
theorem typeMap_refused_and_overread :
    getFromMessage mapZlib (computeTypeMapMessage mapZlib scatteredMap []) = none ∧
      messageHeaderSize + bytesUsed ⟨.binaryTypeMap, 8192, []⟩ = 8196 := by
  refine ⟨?_, rfl⟩
  have hnonempty : scatteredMap.bytes ≠ emptyMap.bytes := by
    intro h
    have hbyte := congrArg (·[100]?) h
    have hinside : 100 < sizeofTypeMap := by decide
    simp only [scatteredMap, emptyMap, List.getElem?_map, List.getElem?_range hinside,
      List.getElem?_replicate_of_lt hinside] at hbyte
    exact absurd hbyte (by decide)
  have hstored : mapZlib.compress scatteredMap.bytes = some (storedBlock scatteredMap.bytes) := by
    simp only [mapZlib, compressMap]
    rw [if_neg hnonempty, if_pos scatteredMap.length_eq]
  have hlarge : sizeofTypeMap ≤ (storedBlock scatteredMap.bytes).length := by
    rw [storedBlock, List.length_append, List.length_append, scatteredMap.length_eq]
    omega
  rw [computeTypeMapMessage, hstored]
  dsimp only
  rw [if_pos hlarge]
  exact getFromMessage_binary mapZlib _

end Gnunet.Core
