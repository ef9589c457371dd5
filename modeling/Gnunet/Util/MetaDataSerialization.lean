import Gnunet.Lib.Buffer
import Gnunet.Lib.NetworkOrder
import Gnunet.Lib.Sentinel
import Gnunet.Util.MetaData

/-!
# Serialized meta data

`meta_data_serialize` and `meta_data_deserialize`.  A serialization has a header, one entry of fixed
size for each item, and then the data and names of the items, which are laid out from the end
backward.  All after the header may be compressed.  A container keeps its last complete
serialization as a cache.

A serialization is read back as it was written, except in one case: what is not compressed and not
taken from the cache is not copied into a buffer of the caller, apart from its header.
-/

namespace Gnunet.Util.MetaData

open Lib Lib.NetworkOrder List Option UInt32 Buffer

/-- `compress2` and `uncompress` of zlib, of which the second undoes the first. -/
structure Zlib where
  compress : List UInt8 → Option (List UInt8)
  uncompress : List UInt8 → ℕ → Option (List UInt8)
  uncompress_compress : ∀ {data compressed : List UInt8}, compress data = some compressed →
    uncompress compressed data.length = some data

/-! ## Writing -/

def MetaFormat.number : MetaFormat → UInt32
  | .unknown => 0
  | .utf8 => 1
  | .binary => 2
  | .cString => 3

def terminated : Option CString → List UInt8
  | none => []
  | some text => text.val ++ [0]

def sizeofMetaDataHeader : ℕ := 12

def sizeofMetaDataEntry : ℕ := 20

def metaDataHeader (version entries size : UInt32) : List UInt8 :=
  htonl version ++ htonl entries ++ htonl size

def metaDataEntry (item : MetaItem) : List UInt8 :=
  htonl item.type ++ htonl item.format.number ++ htonl (ofNat item.data.length) ++
    htonl (ofNat (terminated item.pluginName).length) ++
    htonl (ofNat (terminated item.mimeType).length)

def itemSize (item : MetaItem) : ℕ :=
  sizeofMetaDataEntry + item.data.length + (terminated item.pluginName).length +
    (terminated item.mimeType).length

def payloadSize (items : List MetaItem) : ℕ := (items.map itemSize).sum

def layOut : List MetaItem → List UInt8 → List UInt8 → ℕ → List UInt8 × List UInt8 × ℕ
  | [], ent, mdata, off => (ent, mdata, off)
  | pos :: rest, ent, mdata, off =>
    let off := off - pos.data.length
    let mdata := write mdata off pos.data
    let off := off - (terminated pos.pluginName).length
    let mdata := write mdata off (terminated pos.pluginName)
    let off := off - (terminated pos.mimeType).length
    let mdata := write mdata off (terminated pos.mimeType)
    layOut rest (ent ++ metaDataEntry pos) mdata off

structure SerializationOptions where
  part : Bool
  noCompress : Bool

/-- The outer option is empty if the program stops, the inner one if nothing is gained. -/
def tryCompression (zlib : Zlib) (data : List UInt8) : Option (Option (List UInt8)) :=
  if data.length + data.length / 100 + 20 ≤ maxMallocChecked then
    some ((zlib.compress data).filter fun compressed ↦ compressed.length < data.length)
  else none

def headerVersion (compressed : Bool) : UInt32 := if compressed then 2 ||| 0x80000000 else 2

def serialization (entries : UInt32) (left : ℕ) (cdata : Option (List UInt8))
    (plain : List UInt8) : List UInt8 :=
  metaDataHeader (headerVersion cdata.isSome) entries (ofNat left) ++ cdata.getD plain

inductive Serialized where
  | syserr
  | written (target : List UInt8) (length : ℕ)

/-- The result is handed over, or copied to the buffer of the caller; `none` if this reads behind
the result or writes behind the buffer. -/
def handOver (target : Option (List UInt8)) (dst : List UInt8) (copied : ℕ) : Option Serialized :=
  match target with
  | none => some (.written dst dst.length)
  | some buffer =>
    if copied ≤ dst.length ∧ copied ≤ buffer.length then
      some (.written (write buffer 0 (dst.take copied)) dst.length)
    else none

def fillCache (md : Container) (i left : ℕ) (cdata : Option (List UInt8)) (plain : List UInt8) :
    Option Container :=
  if md.sbuf = none ∧ i = 0 then
    if left + sizeofMetaDataHeader ≤ maxMallocChecked then
      some { md with sbuf := some (serialization md.itemCount left cdata plain) }
    else none
  else some md

/-- One more item is left out, from the smallest on, until the rest fits. `clen` is the length of
the last successful compression. -/
def serializeFrom (zlib : Zlib) (target : Option (List UInt8)) (max : ℕ)
    (opt : SerializationOptions) (ent : List UInt8) :
    List MetaItem → ℕ → ℕ → ℕ → Container → Option (Serialized × Container)
  | [], _, _, _, md => (handOver target (metaDataHeader 2 0 0) sizeofMetaDataHeader).map (·, md)
  | pos :: rest, i, left, clen, md =>
    let plain := (ent.drop (i * sizeofMetaDataEntry)).take left
    (if opt.noCompress then some none else tryCompression zlib plain).bind fun cdata ↦
      let clen := (cdata.map length).getD clen
      (fillCache md i left cdata plain).bind fun md ↦
        if left + sizeofMetaDataHeader ≤ max ∨ cdata.isSome ∧ clen ≤ max then
          let dst := serialization (md.itemCount - ofNat i) left cdata plain
          if dst.length ≤ maxMallocChecked then
            (handOver target dst (clen + sizeofMetaDataHeader)).map (·, md)
          else none
        else if opt.part then
          serializeFrom zlib target max opt ent rest (i + 1) (left - itemSize pos) clen md
        else some (.syserr, md)

def serializeItems (zlib : Zlib) (md : Container) (target : Option (List UInt8)) (max : ℕ)
    (opt : SerializationOptions) : Option (Serialized × Container) :=
  let size := payloadSize md.items
  if size ≥ maxMallocChecked then some (.syserr, md)
  else
    let off := size - md.itemCount.toNat * sizeofMetaDataEntry
    let (ent, mdata, off) := layOut md.items.reverse [] (replicate off 0) off
    if off = 0 then serializeFrom zlib target max opt (ent ++ mdata) md.items.reverse 0 size 0 md
    else none

def metaDataSerialize (zlib : Zlib) (md : Container) (target : Option (List UInt8)) (max : ℕ)
    (opt : SerializationOptions) : Option (Serialized × Container) :=
  if max < sizeofMetaDataHeader then some (.syserr, md)
  else
    match md.sbuf with
    | none => serializeItems zlib md target max opt
    | some sbuf =>
      if sbuf.length ≤ max then
        if target = none ∧ ¬ sbuf.length ≤ maxMallocChecked then none
        else (handOver target sbuf sbuf.length).map (·, md)
      else if opt.part then serializeItems zlib md target max opt
      else some (.syserr, md)

/-! ## Reading -/

def formatOf (number : UInt32) : Option MetaFormat :=
  if number = 1 then some .utf8
  else if number = 3 then some .cString
  else if number = 2 then some .binary
  else none

def cStringOf (bytes : List UInt8) : Option CString :=
  if bytes = [] then none
  else some ⟨bytes.takeWhile (· ≠ 0), fun h ↦ by simpa using mem_takeWhile_imp h⟩

def readEntry (cdata mdata : List UInt8) (i left : ℕ) : Option (MetaItem × ℕ) :=
  let ent := (cdata.drop (i * sizeofMetaDataEntry)).take sizeofMetaDataEntry
  let dlen := (ntohl ((ent.drop 8).take 4)).toNat
  let plen := (ntohl ((ent.drop 12).take 4)).toNat
  let mlen := (ntohl ((ent.drop 16).take 4)).toNat
  (formatOf (ntohl ((ent.drop 4).take 4))).bind fun format ↦
    let metaData := (mdata.drop (left - dlen)).take dlen
    let pluginName := (mdata.drop (left - dlen - plen)).take plen
    let mimeType := (mdata.drop (left - dlen - plen - mlen)).take mlen
    if dlen > left then none
    else if (format = .utf8 ∨ format = .cString) ∧ metaData.getLast? ≠ some 0 then none
    else if plen > left - dlen then none
    else if plen > 0 ∧ pluginName.getLast? ≠ some 0 then none
    else if mlen > left - dlen - plen then none
    else if mlen > 0 ∧ mimeType.getLast? ≠ some 0 then none
    else some (⟨cStringOf pluginName, cStringOf mimeType, metaData, ntohl (ent.take 4), format⟩,
      left - dlen - plen - mlen)

def readEntries (cdata mdata : List UInt8) : ℕ → ℕ → ℕ → Container → Option Container
  | 0, _, _, md => some md
  | count + 1, i, left, md =>
    match readEntry cdata mdata i left with
    | none => some md
    | some (item, left) =>
      (metaDataInsert md item).bind fun (_, md) ↦
        readEntries cdata mdata count (i + 1) left md

def contentsOf (zlib : Zlib) (version : UInt32) (dataSize : ℕ) (body : List UInt8) :
    Option (List UInt8) :=
  if version &&& 0x80000000 ≠ 0 then
    if dataSize ≥ maxMallocChecked then none else zlib.uncompress body dataSize
  else if dataSize ≠ body.length then none
  else some body

/-- The outer option is empty if the program stops, the inner one for a null pointer. -/
def metaDataDeserialize (zlib : Zlib) (input : List UInt8) : Option (Option Container) :=
  if input.length < sizeofMetaDataHeader then some none
  else
    let hversion := ntohl (input.take 4)
    let ic := (ntohl ((input.drop 4).take 4)).toNat
    let dataSize := (ntohl ((input.drop 8).take 4)).toNat
    if hversion &&& 0x7FFFFFFF ≠ 2 then some none
    else if sizeofMetaDataEntry * ic > dataSize then some none
    else
      match contentsOf zlib hversion dataSize (input.drop sizeofMetaDataHeader) with
      | none => some none
      | some cdata =>
        (readEntries cdata (cdata.drop (ic * sizeofMetaDataEntry)) ic 0
          (dataSize - ic * sizeofMetaDataEntry) metaDataCreate).map some

/-! ## The layout -/

open Nat

/-- The names and the data of an item, in the order in which they lie in the buffer. -/
def block (item : MetaItem) : List UInt8 :=
  terminated item.mimeType ++ terminated item.pluginName ++ item.data

def payload (items : List MetaItem) : List UInt8 :=
  items.reverse.flatMap metaDataEntry ++ items.flatMap block

@[simp] theorem length_metaDataEntry (item : MetaItem) :
    (metaDataEntry item).length = sizeofMetaDataEntry := rfl

theorem length_block (item : MetaItem) :
    (block item).length = (terminated item.mimeType).length +
      (terminated item.pluginName).length + item.data.length := by
  rw [block, length_append, length_append]

theorem itemSize_eq (item : MetaItem) :
    itemSize item = sizeofMetaDataEntry + (block item).length := by
  rw [itemSize, length_block]
  omega

theorem length_flatMap_metaDataEntry (items : List MetaItem) :
    (items.flatMap metaDataEntry).length = items.length * sizeofMetaDataEntry := by
  induction items with
  | nil => rfl
  | cons item items ih =>
    rw [flatMap_cons, length_append, ih, length_metaDataEntry, length_cons]
    ring

theorem payloadSize_eq (items : List MetaItem) :
    payloadSize items = items.length * sizeofMetaDataEntry + (items.flatMap block).length := by
  induction items with
  | nil => rfl
  | cons item items ih =>
    rw [payloadSize, map_cons, itemSize_eq, flatMap_cons, length_append, length_cons]
    change _ + payloadSize items = _
    rw [ih]
    ring

theorem length_payload (items : List MetaItem) : (payload items).length = payloadSize items := by
  rw [payload, length_append, length_flatMap_metaDataEntry, length_reverse, payloadSize_eq]

theorem write_replicate {off : ℕ} {data done : List UInt8} (h : data.length ≤ off) :
    write (replicate off 0 ++ done) (off - data.length) data =
      replicate (off - data.length) 0 ++ (data ++ done) := by
  rw [write, take_append_of_le_length (by rw [length_replicate]; omega),
    take_replicate, Nat.min_eq_left (Nat.sub_le _ _), Nat.sub_add_cancel h,
    drop_append_of_le_length (by rw [length_replicate]), drop_replicate,
    Nat.sub_self, replicate_zero, nil_append, append_assoc]

/-- The data are laid out so that the last item that is written comes first. -/
theorem layOut_eq (items : List MetaItem) (ent done : List UInt8) {off : ℕ}
    (hoff : off = (items.flatMap block).length) :
    layOut items ent (replicate off 0 ++ done) off =
      (ent ++ items.flatMap metaDataEntry, items.reverse.flatMap block ++ done, 0) := by
  induction items generalizing ent done off with
  | nil =>
    subst hoff
    rw [flatMap_nil (f := metaDataEntry), append_nil]
    rfl
  | cons pos rest ih =>
    have hblock := length_block pos
    rw [flatMap_cons, length_append] at hoff
    rw [layOut, write_replicate (by omega), write_replicate (by omega), write_replicate (by omega),
      ih _ _ (by omega), flatMap_cons, reverse_cons,
      flatMap_append, flatMap_singleton, block]
    simp only [append_assoc]

/-! ## Reading one entry -/

def Serializable (item : MetaItem) : Prop :=
  item.format ≠ .unknown ∧ (item.format ≠ .binary → item.data.getLast? = some 0)

instance : DecidablePred Serializable := fun _ ↦ inferInstanceAs (Decidable (_ ∧ _))

variable {left i max : ℕ}

theorem take_drop_of_take_eq {mdata front back : List UInt8} {n : ℕ}
    (h : mdata.take left = front ++ back) (hleft : left ≤ mdata.length) (hn : back.length = n) :
    n ≤ left ∧ (mdata.drop (left - n)).take n = back ∧ mdata.take (left - n) = front := by
  have hlength := congrArg length h
  rw [length_take, length_append] at hlength
  have hfront : left - n = front.length := by omega
  rw [hfront, ← take_append_drop left mdata, h, append_assoc, drop_left, take_left' hn]
  exact ⟨by omega, rfl, take_left⟩

theorem cStringOf_terminated (name : Option CString) : cStringOf (terminated name) = name := by
  cases name with
  | none => rfl
  | some text =>
    rw [terminated, cStringOf, if_neg (append_ne_nil_of_right_ne_nil _ (cons_ne_nil _ _))]
    exact congrArg some (Subtype.ext (Sentinel.takeWhile_ne_append text.property []))

theorem getLast_terminated {name : Option CString} (h : 0 < (terminated name).length) :
    (terminated name).getLast? = some 0 := by
  cases name with
  | none => cases h
  | some text => exact getLast?_concat

theorem toNat_length_lt {n : ℕ} (h : n < maxMallocChecked) : (ofNat n).toNat = n :=
  toNat_ofNat_of_lt' (h.trans (by decide))

/-- An entry is read as it was written, if it is of a form that is accepted. -/
theorem readEntry_eq {cdata mdata rest front : List UInt8} {item : MetaItem}
    (hcdata : cdata.drop (i * sizeofMetaDataEntry) = metaDataEntry item ++ rest)
    (hmdata : mdata.take left = front ++ block item) (hleft : left ≤ mdata.length)
    (hsize : left < maxMallocChecked) :
    (readEntry cdata mdata i left =
      if Serializable item then some (item, left - (block item).length) else none) ∧
      mdata.take (left - (block item).length) = front := by
  have hblock := length_block item
  rw [block, ← append_assoc, ← append_assoc] at hmdata
  obtain ⟨hdlen, hdata, hmdata⟩ := take_drop_of_take_eq hmdata hleft rfl
  obtain ⟨hplen, hplugin, hmdata⟩ :=
    take_drop_of_take_eq hmdata ((sub_le _ _).trans hleft) rfl
  obtain ⟨hmlen, hmime, hmdata⟩ :=
    take_drop_of_take_eq hmdata (((sub_le _ _).trans (sub_le _ _)).trans hleft) rfl
  have hent : (cdata.drop (i * sizeofMetaDataEntry)).take sizeofMetaDataEntry =
      metaDataEntry item := by
    rw [hcdata]
    exact take_left' (length_metaDataEntry item)
  have hd := toNat_length_lt (hdlen.trans_lt hsize)
  have hp := toNat_length_lt ((hplen.trans (sub_le _ _)).trans_lt hsize)
  have hm := toNat_length_lt
    ((hmlen.trans ((sub_le _ _).trans (sub_le _ _))).trans_lt hsize)
  have hfields : ntohl ((metaDataEntry item).take 4) = item.type ∧
      ntohl (((metaDataEntry item).drop 4).take 4) = item.format.number ∧
      (ntohl (((metaDataEntry item).drop 8).take 4)).toNat = item.data.length ∧
      (ntohl (((metaDataEntry item).drop 12).take 4)).toNat = (terminated item.pluginName).length ∧
      (ntohl (((metaDataEntry item).drop 16).take 4)).toNat = (terminated item.mimeType).length :=
    ⟨ntohl_htonl _, ntohl_htonl _, (congrArg toNat (ntohl_htonl _)).trans hd,
      (congrArg toNat (ntohl_htonl _)).trans hp, (congrArg toNat (ntohl_htonl _)).trans hm⟩
  obtain ⟨htype, hformat, hdlenEq, hplenEq, hmlenEq⟩ := hfields
  have hsub : left - (block item).length = left - item.data.length -
      (terminated item.pluginName).length - (terminated item.mimeType).length := by omega
  refine ⟨?_, hsub ▸ hmdata⟩
  unfold readEntry
  dsimp only
  rw [hent, htype, hformat, hdlenEq, hplenEq, hmlenEq]
  have hname (name : Option CString) :
      ¬((terminated name).length > 0 ∧ (terminated name).getLast? ≠ some 0) :=
    fun h ↦ h.2 (getLast_terminated h.1)
  rw [hdata, hplugin, hmime, cStringOf_terminated, cStringOf_terminated, hsub]
  simp only [if_neg (not_lt.mpr hdlen), if_neg (not_lt.mpr hplen), if_neg (not_lt.mpr hmlen),
    if_neg (hname _)]
  cases item with
  | mk pluginName mimeType data type format =>
    cases format <;> by_cases hlast : data.getLast? = some 0 <;>
      simp [Serializable, formatOf, MetaFormat.number]

/-! ## Reading a serialization -/

variable {items : List MetaItem} {md : Container} {cdata : Option (List UInt8)}

/-- The items up to the first one of a form that is not accepted are inserted. -/
theorem readEntries_eq {cdata mdata rest : List UInt8}
    (hcdata : cdata.drop (i * sizeofMetaDataEntry) = items.flatMap metaDataEntry ++ rest)
    (hmdata : mdata.take left = items.reverse.flatMap block) (hleft : left ≤ mdata.length)
    (hsize : left < maxMallocChecked) (md : Container) :
    readEntries cdata mdata items.length i left md = (items.takeWhile (Serializable ·)).foldlM
        (fun md item ↦ (metaDataInsert md item).map Prod.snd) md := by
  induction items generalizing i left md with
  | nil => rfl
  | cons item items ih =>
    rw [flatMap_cons, append_assoc] at hcdata
    rw [reverse_cons, flatMap_append, flatMap_singleton] at hmdata
    obtain ⟨hread, hfront⟩ := readEntry_eq hcdata hmdata hleft hsize
    have hnext : cdata.drop ((i + 1) * sizeofMetaDataEntry) =
        items.flatMap metaDataEntry ++ rest := by
      have hdrop := congrArg (drop sizeofMetaDataEntry) hcdata
      rw [drop_drop, drop_left' (length_metaDataEntry item)] at hdrop
      rw [← hdrop, Nat.add_mul, Nat.one_mul]
    rw [length_cons, readEntries, hread]
    by_cases hitem : Serializable item
    · rw [if_pos hitem, takeWhile_cons_of_pos (by simpa using hitem), foldlM_cons]
      dsimp only
      cases metaDataInsert md item with
      | none => rfl
      | some result =>
        exact ih hnext hfront ((sub_le _ _).trans hleft) ((sub_le _ _).trans_lt hsize) result.2
    · rw [if_neg hitem, takeWhile_cons_of_neg (by simpa using hitem)]
      rfl

theorem readEntries_reverse (hsize : payloadSize items < maxMallocChecked) :
    readEntries (payload items) ((payload items).drop (items.length * sizeofMetaDataEntry))
        items.length 0 (payloadSize items - items.length * sizeofMetaDataEntry) metaDataCreate =
      (items.reverse.takeWhile (Serializable ·)).foldlM
        (fun md item ↦ (metaDataInsert md item).map Prod.snd) metaDataCreate := by
  have hentries := length_flatMap_metaDataEntry items.reverse
  rw [length_reverse] at hentries
  have hmdata : (payload items).drop (items.length * sizeofMetaDataEntry) = items.flatMap block :=
    drop_left' hentries
  have hlength : payloadSize items - items.length * sizeofMetaDataEntry =
      (items.flatMap block).length := by
    rw [payloadSize_eq]
    omega
  rw [hmdata, hlength, ← length_reverse]
  exact readEntries_eq (by rw [Nat.zero_mul, drop_zero, payload])
    (by rw [reverse_reverse, take_length]) le_rfl (by omega) metaDataCreate

theorem metaDataDeserialize_header (zlib : Zlib) {version entries size : UInt32}
    {body cdata : List UInt8} (hversion : version &&& 0x7FFFFFFF = 2)
    (hentries : sizeofMetaDataEntry * entries.toNat ≤ size.toNat)
    (hcontents : contentsOf zlib version size.toNat body = some cdata) :
    metaDataDeserialize zlib (metaDataHeader version entries size ++ body) =
      (readEntries cdata (cdata.drop (entries.toNat * sizeofMetaDataEntry)) entries.toNat 0
        (size.toNat - entries.toNat * sizeofMetaDataEntry) metaDataCreate).map some := by
  have hlength : ¬ (metaDataHeader version entries size ++ body).length < sizeofMetaDataHeader := by
    rw [length_append]
    exact not_lt.mpr (le_add_right _ _)
  have hv : ntohl ((metaDataHeader version entries size ++ body).take 4) = version :=
    ntohl_htonl version
  have he : ntohl (((metaDataHeader version entries size ++ body).drop 4).take 4) = entries :=
    ntohl_htonl entries
  have hs : ntohl (((metaDataHeader version entries size ++ body).drop 8).take 4) = size :=
    ntohl_htonl size
  have hbody : (metaDataHeader version entries size ++ body).drop sizeofMetaDataHeader = body := rfl
  unfold metaDataDeserialize
  rw [if_neg hlength, hv, he, hs, hbody, if_neg (not_not.mpr hversion),
    if_neg (not_lt.mpr hentries), hcontents]

section

variable (zlib : Zlib) (hmd : WellFormed md) (hsize : payloadSize md.items < maxMallocChecked)
  (hcdata : ∀ compressed ∈ cdata, zlib.compress (payload md.items) = some compressed)
include hmd hsize hcdata

theorem metaDataDeserialize_serialization :
    metaDataDeserialize zlib
        (serialization md.itemCount (payloadSize md.items) cdata (payload md.items)) =
      ((md.items.reverse.takeWhile (Serializable ·)).foldlM
        (fun md item ↦ (metaDataInsert md item).map Prod.snd) metaDataCreate).map some := by
  have hsizeEq := toNat_length_lt hsize
  have hpayload := length_payload md.items
  have hle := payloadSize_eq md.items
  have hcontents : contentsOf zlib (headerVersion cdata.isSome)
      (ofNat (payloadSize md.items)).toNat (cdata.getD (payload md.items)) =
        some (payload md.items) := by
    rw [hsizeEq]
    cases cdata with
    | none =>
      have hplain : ¬ headerVersion false &&& 0x80000000 ≠ 0 := by decide
      exact (if_neg hplain).trans (if_neg (not_not.mpr hpayload.symm))
    | some compressed =>
      have huncompress := zlib.uncompress_compress (hcdata compressed rfl)
      rw [hpayload] at huncompress
      have hflag : headerVersion true &&& 0x80000000 ≠ 0 := by decide
      exact (if_pos hflag).trans ((if_neg (not_le.mpr hsize)).trans huncompress)
  rw [serialization, metaDataDeserialize_header zlib ?_ ?_ hcontents, hsizeEq, hmd.count_eq,
    readEntries_reverse hsize]
  · cases cdata.isSome with
    | false => decide
    | true => decide
  · rw [hsizeEq, hmd.count_eq, hle, mul_comm]
    exact le_add_right _ _

theorem deserialize_serialization (hdistinct : Distinct md)
    (hitems : ∀ item ∈ md.items, Serializable item) :
    ∃ copy, metaDataDeserialize zlib
        (serialization md.itemCount (payloadSize md.items) cdata (payload md.items)) =
          some (some copy) ∧
      copy.items.Perm md.items := by
  obtain ⟨copy, hcopy, -, -, -, hperm⟩ := metaDataDuplicate_eq hmd
  refine ⟨copy, ?_, hperm hdistinct⟩
  rw [metaDataDeserialize_serialization zlib hmd hsize hcdata,
    takeWhile_eq_self_iff.mpr fun item hitem ↦ decide_eq_true (hitems item (mem_reverse.mp hitem))]
  exact congrArg (Option.map some) hcopy

end

/-! ## Writing a serialization -/

section Writing

variable {zlib : Zlib} {md : Container} {opt : SerializationOptions}

def compressed (zlib : Zlib) (opt : SerializationOptions) (items : List MetaItem) :
    Option (List UInt8) :=
  if opt.noCompress then none
  else (zlib.compress (payload items)).filter fun cdata ↦ cdata.length < (payload items).length

def Fits (opt : SerializationOptions) (size : ℕ) : Prop :=
  size + sizeofMetaDataHeader ≤ maxMallocChecked ∧
    (opt.noCompress = false → size + size / 100 + 20 ≤ maxMallocChecked)

theorem lt_maxMallocChecked {size : ℕ} (h : size + sizeofMetaDataHeader ≤ maxMallocChecked) :
    size < maxMallocChecked := by
  unfold sizeofMetaDataHeader at h
  omega

theorem length_serialization (entries : UInt32) (left : ℕ) (cdata : Option (List UInt8))
    (plain : List UInt8) :
    (serialization entries left cdata plain).length =
      sizeofMetaDataHeader + (cdata.getD plain).length := by
  rw [serialization, length_append]
  rfl

theorem length_serialization_le (hcdata : ∀ bytes ∈ cdata, bytes.length < payloadSize md.items)
    (entries : UInt32) :
    (serialization entries (payloadSize md.items) cdata (payload md.items)).length ≤
      payloadSize md.items + sizeofMetaDataHeader := by
  rw [length_serialization]
  cases cdata with
  | none =>
    rw [getD_none, length_payload]
    omega
  | some bytes =>
    have hlt := hcdata bytes rfl
    rw [getD_some]
    omega

theorem serializeItems_eq (hmd : WellFormed md) (hsize : payloadSize md.items < maxMallocChecked)
    (target : Option (List UInt8)) (max : ℕ) :
    serializeItems zlib md target max opt =
      serializeFrom zlib target max opt (payload md.items) md.items.reverse 0
        (payloadSize md.items) 0 md := by
  have hoff : payloadSize md.items - md.itemCount.toNat * sizeofMetaDataEntry =
      (md.items.reverse.flatMap block).length := by
    rw [((reverse_perm md.items).flatMap_right block).length_eq, hmd.count_eq, payloadSize_eq]
    omega
  have hlayOut := layOut_eq md.items.reverse [] [] hoff
  rw [append_nil, append_nil, reverse_reverse] at hlayOut
  unfold serializeItems
  dsimp only
  rw [if_neg (not_le.mpr hsize), hlayOut]
  exact if_pos rfl

theorem serializeFrom_first (target : Option (List UInt8)) (max : ℕ) (pos : MetaItem)
    (rest : List MetaItem) :
    serializeFrom zlib target max opt (payload md.items) (pos :: rest) 0 (payloadSize md.items) 0
        md = (if opt.noCompress then some none
        else tryCompression zlib (payload md.items)).bind fun cdata ↦
        (fillCache md 0 (payloadSize md.items) cdata (payload md.items)).bind fun next ↦
          if payloadSize md.items + sizeofMetaDataHeader ≤ max ∨
              cdata.isSome ∧ (cdata.map length).getD 0 ≤ max then
            let dst := serialization next.itemCount (payloadSize md.items) cdata (payload md.items)
            if dst.length ≤ maxMallocChecked then
              (handOver target dst ((cdata.map length).getD 0 + sizeofMetaDataHeader)).map (·, next)
            else none
          else if opt.part then
            serializeFrom zlib target max opt (payload md.items) rest 1
              (payloadSize md.items - itemSize pos) ((cdata.map length).getD 0) next
          else some (.syserr, next) := by
  have hplain : ((payload md.items).drop (0 * sizeofMetaDataEntry)).take (payloadSize md.items) =
      payload md.items := by
    rw [Nat.zero_mul, drop_zero, ← length_payload, take_length]
  have hzero (count : UInt32) : count - UInt32.ofNat 0 = count := UInt32.sub_zero count
  rw [serializeFrom, hplain]
  simp only [hzero]

theorem tryCompression_eq (hfits : Fits opt (payloadSize md.items)) :
    (if opt.noCompress then some none else tryCompression zlib (payload md.items)) =
      some (compressed zlib opt md.items) := by
  unfold compressed
  cases hno : opt.noCompress with
  | true => rfl
  | false =>
    have hroom := hfits.2 hno
    rw [← length_payload] at hroom
    exact if_pos hroom

theorem mem_of_tryCompression {bytes : List UInt8}
    (h : (if opt.noCompress then some none else tryCompression zlib (payload items)) = some cdata)
    (hbytes : bytes ∈ cdata) :
    zlib.compress (payload items) = some bytes ∧ bytes.length < payloadSize items := by
  unfold tryCompression at h
  split_ifs at h
  · cases h
    cases hbytes
  · cases h
    obtain ⟨hcompress, hlt⟩ := filter_eq_some_iff.mp hbytes
    rw [length_payload] at hlt
    exact ⟨hcompress, of_decide_eq_true hlt⟩

variable (zlib) in
theorem serializeItems_fits (hmd : WellFormed md) (hitems : md.items ≠ [])
    (hsbuf : md.sbuf = none) (hfits : Fits opt (payloadSize md.items))
    (target : Option (List UInt8)) (hmax : payloadSize md.items + sizeofMetaDataHeader ≤ max) :
    let cdata := compressed zlib opt md.items
    let full := serialization md.itemCount (payloadSize md.items) cdata (payload md.items)
    serializeItems zlib md target max opt =
      (handOver target full ((cdata.map length).getD 0 + sizeofMetaDataHeader)).map
        (·, { md with sbuf := some full }) := by
  intro cdata full
  have hroom := hfits.1
  cases hreverse : md.items.reverse with
  | nil => exact absurd (reverse_eq_nil_iff.mp hreverse) hitems
  | cons pos rest =>
    have hlength : full.length ≤ payloadSize md.items + sizeofMetaDataHeader :=
      length_serialization_le
        (fun bytes hbytes ↦ (mem_of_tryCompression (tryCompression_eq hfits) hbytes).2) md.itemCount
    rw [serializeItems_eq hmd (lt_maxMallocChecked hroom), hreverse, serializeFrom_first,
      tryCompression_eq hfits, bind_some, fillCache, if_pos ⟨hsbuf, rfl⟩, if_pos hroom, bind_some,
      if_pos (.inl hmax)]
    exact if_pos (hlength.trans hroom)

theorem serializeItems_stops (hmd : WellFormed md) (hitems : md.items ≠ [])
    (hsbuf : md.sbuf = none) (hsize : payloadSize md.items < maxMallocChecked)
    (hfits : ¬ Fits opt (payloadSize md.items)) (target : Option (List UInt8)) (max : ℕ) :
    serializeItems zlib md target max opt = none := by
  cases hreverse : md.items.reverse with
  | nil => exact absurd (reverse_eq_nil_iff.mp hreverse) hitems
  | cons pos rest =>
    rw [serializeItems_eq hmd hsize, hreverse, serializeFrom_first, bind_eq_none_iff]
    intro cdata hcdata
    rw [bind_eq_none_iff]
    intro next hnext
    rw [fillCache, if_pos ⟨hsbuf, rfl⟩] at hnext
    refine absurd ⟨?_, fun hno ↦ ?_⟩ hfits
    · by_contra hlarge
      rw [if_neg hlarge] at hnext
      cases hnext
    · by_contra hlarge
      rw [← length_payload] at hlarge
      rw [hno, tryCompression, if_neg hlarge] at hcdata
      cases hcdata

theorem serializeItems_large (hsize : maxMallocChecked ≤ payloadSize md.items)
    (target : Option (List UInt8)) (max : ℕ) :
    serializeItems zlib md target max opt = some (.syserr, md) :=
  if_pos hsize

theorem metaDataSerialize_large (hsbuf : md.sbuf = none)
    (hsize : maxMallocChecked ≤ payloadSize md.items) (target : Option (List UInt8)) (max : ℕ) :
    metaDataSerialize zlib md target max opt = some (.syserr, md) := by
  rw [metaDataSerialize, hsbuf]
  rw [serializeItems_large hsize]
  exact ite_self _

end Writing

/-! ## The cache -/

def CacheValid (zlib : Zlib) (md : Container) : Prop :=
  ∀ sbuf ∈ md.sbuf, payloadSize md.items + sizeofMetaDataHeader ≤ maxMallocChecked ∧
    ∃ cdata : Option (List UInt8), (∀ bytes ∈ cdata, zlib.compress (payload md.items) = some bytes ∧
        bytes.length < payloadSize md.items) ∧
      sbuf = serialization md.itemCount (payloadSize md.items) cdata (payload md.items)

section Cache

variable {zlib : Zlib} {md next : Container}

theorem cacheValid_of_none (hsbuf : md.sbuf = none) : CacheValid zlib md := by
  intro sbuf hmem
  cases hsbuf.symm.trans hmem

theorem insertionOf_unchanged {entry : MetaItem} {later : List MetaItem}
    (h : insertionOf entry items = .present later false false) : later = items := by
  induction items generalizing later with
  | nil => cases h
  | cons pos rest ih =>
    rw [insertionOf] at h
    split_ifs at h
    · obtain ⟨hlater, hmime, hformat⟩ := Insertion.present.inj h
      rw [← hlater, hmime, hformat]
      rfl
    · cases hrest : insertionOf entry rest with
      | present items copiesMime newFormat =>
        rw [hrest] at h
        obtain ⟨rfl, rfl, rfl⟩ := Insertion.present.inj h
        rw [ih hrest]
      | added items =>
        rw [hrest] at h
        cases h

theorem CacheValid.insert (h : CacheValid zlib md) {entry : MetaItem} {status : Status}
    (hinsert : metaDataInsert md entry = some (status, next)) : CacheValid zlib next := by
  unfold metaDataInsert at hinsert
  split at hinsert
  next items copiesMime newFormat hinsertion =>
    split_ifs at hinsert with hstop hchanged
    · cases hinsert
      exact nofun
    · cases hinsert
      rw [Bool.or_eq_true, not_or, Bool.not_eq_true, Bool.not_eq_true] at hchanged
      obtain ⟨rfl, rfl⟩ := hchanged
      rw [insertionOf_unchanged hinsertion]
      exact h
  next items hinsertion =>
    split_ifs at hinsert
    cases hinsert
    exact nofun

theorem CacheValid.delete (h : CacheValid zlib md) (type : UInt32) (target : Target) :
    CacheValid zlib (metaDataDelete md type target).2 := by
  unfold metaDataDelete
  split
  · exact nofun
  · exact h

variable {opt : SerializationOptions} {result : Serialized}

variable {target : Option (List UInt8)}

theorem serializeFrom_succ_container {ent : List UInt8} {clen : ℕ}
    (h : serializeFrom zlib target max opt ent items (i + 1) left clen md = some (result, next)) :
    next = md := by
  induction items generalizing i left clen with
  | nil =>
    obtain ⟨_, -, hpair⟩ := map_eq_some_iff.mp h
    cases hpair
    rfl
  | cons pos rest ih =>
    obtain ⟨_, -, h⟩ := bind_eq_some_iff.mp h
    rw [fillCache, if_neg (by rintro ⟨-, ⟨⟩⟩), bind_some] at h
    dsimp only at h
    split_ifs at h
    · obtain ⟨_, -, hpair⟩ := map_eq_some_iff.mp h
      cases hpair
      rfl
    · exact ih h
    · cases h
      rfl

theorem CacheValid.serializeItems (h : CacheValid zlib md) (hmd : WellFormed md)
    (hserialize : serializeItems zlib md target max opt = some (result, next)) :
    CacheValid zlib next ∧ next.items = md.items ∧ next.itemCount = md.itemCount := by
  by_cases hsize : payloadSize md.items < maxMallocChecked
  · rw [serializeItems_eq hmd hsize] at hserialize
    cases hreverse : md.items.reverse with
    | nil =>
      rw [hreverse] at hserialize
      obtain ⟨_, -, hpair⟩ := map_eq_some_iff.mp hserialize
      cases hpair
      exact ⟨h, rfl, rfl⟩
    | cons pos rest =>
      rw [hreverse, serializeFrom_first] at hserialize
      obtain ⟨cdata, hcdata, hserialize⟩ := bind_eq_some_iff.mp hserialize
      obtain ⟨filled, hfilled, hserialize⟩ := bind_eq_some_iff.mp hserialize
      have hnext : next = filled := by
        dsimp only at hserialize
        split_ifs at hserialize
        · obtain ⟨_, -, hpair⟩ := map_eq_some_iff.mp hserialize
          cases hpair
          rfl
        · exact serializeFrom_succ_container hserialize
        · cases hserialize
          rfl
      rw [hnext]
      unfold fillCache at hfilled
      split_ifs at hfilled with hfirst hroom
      · cases hfilled
        refine ⟨fun sbuf hsbuf ↦ ⟨hroom, cdata, fun bytes hbytes ↦ ?_, ?_⟩, rfl, rfl⟩
        · exact mem_of_tryCompression hcdata hbytes
        · cases hsbuf
          rfl
      · cases hfilled
        exact ⟨h, rfl, rfl⟩
  · cases (serializeItems_large (Nat.le_of_not_lt hsize) target max).symm.trans hserialize
    exact ⟨h, rfl, rfl⟩

/-- Serializing changes only the cache, and fills it with a serialization of the items. -/
theorem CacheValid.serialize (h : CacheValid zlib md) (hmd : WellFormed md)
    (hserialize : metaDataSerialize zlib md target max opt = some (result, next)) :
    CacheValid zlib next ∧ next.items = md.items ∧ next.itemCount = md.itemCount := by
  unfold metaDataSerialize at hserialize
  by_cases hmax : max < sizeofMetaDataHeader
  · rw [if_pos hmax] at hserialize
    cases hserialize
    exact ⟨h, rfl, rfl⟩
  · rw [if_neg hmax] at hserialize
    cases hsbuf : md.sbuf with
    | none =>
      rw [hsbuf] at hserialize
      exact h.serializeItems hmd hserialize
    | some sbuf =>
      rw [hsbuf] at hserialize
      dsimp only at hserialize
      split_ifs at hserialize
      · obtain ⟨_, -, hpair⟩ := map_eq_some_iff.mp hserialize
        cases hpair
        exact ⟨h, rfl, rfl⟩
      · exact h.serializeItems hmd hserialize
      · cases hserialize
        exact ⟨h, rfl, rfl⟩

end Cache

/-! ## Round trips -/

/-- What `serialize` has written is read back as a container with the same items. -/
def Restores (zlib : Zlib) (md : Container) (target : Option (List UInt8)) (max : ℕ)
    (opt : SerializationOptions) : Prop :=
  ∃ buffer length next copy,
    metaDataSerialize zlib md target max opt = some (.written buffer length, next) ∧
    metaDataDeserialize zlib (buffer.take length) = some (some copy) ∧
    copy.items.Perm md.items

section RoundTrip

variable {zlib : Zlib} {md : Container} {opt : SerializationOptions}

variable {target : Option (List UInt8)} {max : ℕ}

theorem handOver_eq {dst : List UInt8} {copied : ℕ} (hcopied : target.isSome → copied = dst.length)
    (hbuffer : ∀ buffer ∈ target, dst.length ≤ buffer.length) :
    ∃ buffer, handOver target dst copied = some (.written buffer dst.length) ∧
      buffer.take dst.length = dst := by
  cases target with
  | none => exact ⟨dst, rfl, take_length⟩
  | some buffer =>
    obtain rfl := hcopied rfl
    refine ⟨_, if_pos ⟨le_rfl, hbuffer buffer rfl⟩, ?_⟩
    rw [take_length]
    exact take_left

theorem WellFormed.itemCount_eq_zero (h : WellFormed md) (hitems : md.items = []) :
    md.itemCount = 0 := by
  rw [← UInt32.toNat_inj, h.count_eq, hitems]
  rfl

theorem metaDataSerialize_of_none (hsbuf : md.sbuf = none) (target : Option (List UInt8))
    (hmax : payloadSize md.items + sizeofMetaDataHeader ≤ max) :
    metaDataSerialize zlib md target max opt = serializeItems zlib md target max opt := by
  rw [metaDataSerialize, if_neg (by omega), hsbuf]

section Restoring

variable (hmd : WellFormed md) (hdistinct : Distinct md)
  (hitems : ∀ item ∈ md.items, Serializable item)
  (hmax : payloadSize md.items + sizeofMetaDataHeader ≤ max)
  (hbuffer : ∀ buffer ∈ target, max ≤ buffer.length)

include hmd hdistinct hitems hmax hbuffer

theorem restores_of_handOver (cdata : Option (List UInt8))
    (hsize : payloadSize md.items < maxMallocChecked)
    (hcdata : ∀ bytes ∈ cdata, zlib.compress (payload md.items) = some bytes ∧
      bytes.length < payloadSize md.items) {copied : ℕ} {next : Container}
    (hcopied : target.isSome → copied = sizeofMetaDataHeader +
      (cdata.getD (payload md.items)).length)
    (hserialize : metaDataSerialize zlib md target max opt = (handOver target (serialization
      md.itemCount (payloadSize md.items) cdata (payload md.items)) copied).map (·, next)) :
    Restores zlib md target max opt := by
  have hlength := length_serialization_le (fun bytes hbytes ↦ (hcdata bytes hbytes).2) md.itemCount
  obtain ⟨buffer, hwritten, htake⟩ := handOver_eq
    (fun htarget ↦ (hcopied htarget).trans (length_serialization _ _ _ _).symm)
    (fun buffer hmem ↦ (hlength.trans hmax).trans (hbuffer buffer hmem))
  obtain ⟨copy, hcopy, hperm⟩ := deserialize_serialization zlib hmd hsize
    (fun bytes hbytes ↦ (hcdata bytes hbytes).1) hdistinct hitems
  rw [hwritten] at hserialize
  exact ⟨buffer, _, next, copy, hserialize, by rw [htake, hcopy], hperm⟩

theorem restores_cached (hcache : CacheValid zlib md) (hsbuf : md.sbuf.isSome) :
    Restores zlib md target max opt := by
  obtain ⟨sbuf, hsome⟩ := isSome_iff_exists.mp hsbuf
  obtain ⟨hroom, cdata, hcdata, heq⟩ := hcache sbuf hsome
  have hlength := length_serialization_le (fun bytes hbytes ↦ (hcdata bytes hbytes).2) md.itemCount
  rw [← heq] at hlength
  have hserialize : metaDataSerialize zlib md target max opt =
      (handOver target sbuf sbuf.length).map (·, md) := by
    rw [metaDataSerialize, if_neg (by omega), hsome]
    dsimp only
    rw [if_pos (hlength.trans hmax), if_neg fun h ↦ h.2 (hlength.trans hroom)]
  rw [heq] at hserialize
  exact restores_of_handOver hmd hdistinct hitems hmax hbuffer cdata (lt_maxMallocChecked hroom)
    hcdata (fun _ ↦ length_serialization _ _ _ _) hserialize

theorem restores_nil (hnil : md.items = []) (hsbuf : md.sbuf = none) :
    Restores zlib md target max opt := by
  have hsize : payloadSize md.items = 0 := by rw [hnil]; rfl
  have hheader : serialization md.itemCount (payloadSize md.items) none (payload md.items) =
      metaDataHeader 2 0 0 := by
    rw [hmd.itemCount_eq_zero hnil, hnil]
    rfl
  have hserialize : metaDataSerialize zlib md target max opt =
      (handOver target (metaDataHeader 2 0 0) sizeofMetaDataHeader).map (·, md) := by
    rw [metaDataSerialize_of_none hsbuf target hmax, serializeItems_eq hmd (by rw [hsize]; decide),
      hnil]
    rfl
  rw [← hheader] at hserialize
  have hpayload : (payload md.items).length = 0 := by rw [length_payload, hsize]
  exact restores_of_handOver hmd hdistinct hitems hmax hbuffer none (by rw [hsize]; decide)
    (by rintro _ ⟨⟩) (fun _ ↦ (congrArg (sizeofMetaDataHeader + ·) hpayload).symm) hserialize

theorem restores_fits (hne : md.items ≠ []) (hsbuf : md.sbuf = none)
    (hfits : Fits opt (payloadSize md.items))
    (htarget : target.isSome → (compressed zlib opt md.items).isSome) :
    Restores zlib md target max opt := by
  have hserialize := serializeItems_fits zlib hmd hne hsbuf hfits target hmax
  rw [← metaDataSerialize_of_none hsbuf target hmax] at hserialize
  refine restores_of_handOver hmd hdistinct hitems hmax hbuffer _ (lt_maxMallocChecked hfits.1)
    (fun bytes hbytes ↦ mem_of_tryCompression (tryCompression_eq hfits) hbytes)
    (fun hsome ↦ ?_) hserialize
  obtain ⟨bytes, hbytes⟩ := isSome_iff_exists.mp (htarget hsome)
  rw [hbytes, getD_some, map_some, getD_some, add_comm]

end Restoring

theorem handOver_replicate (first rest : List UInt8) :
    handOver (some (replicate (rest.length + first.length) 0)) (first ++ rest) first.length =
      some (.written (first ++ replicate rest.length 0) (first ++ rest).length) := by
  rw [handOver, if_pos ⟨by simp, by simp⟩, write, take_left, take_zero, nil_append,
    drop_replicate, Nat.zero_add, Nat.add_sub_cancel]

theorem metaDataDeserialize_zeros (zlib : Zlib) (count size : UInt32) (hcount : 0 < count.toNat)
    (hsize : sizeofMetaDataEntry * count.toNat ≤ size.toNat) :
    metaDataDeserialize zlib (metaDataHeader 2 count size ++ replicate size.toNat 0) =
      some (some metaDataCreate) := by
  have hcontents : contentsOf zlib 2 size.toNat (replicate size.toNat 0) =
      some (replicate size.toNat 0) := by
    have hplain : ¬ (2 : UInt32) &&& 0x80000000 ≠ 0 := by decide
    rw [contentsOf, if_neg hplain, if_neg (by rw [length_replicate]; exact not_not.mpr rfl)]
  have hent : ((replicate size.toNat (0 : UInt8)).drop (0 * sizeofMetaDataEntry)).take
      sizeofMetaDataEntry = replicate 20 0 := by
    rw [Nat.zero_mul, drop_zero, take_replicate]
    congr 1
    unfold sizeofMetaDataEntry at hsize ⊢
    omega
  rw [metaDataDeserialize_header zlib (by decide) hsize hcontents]
  obtain ⟨n, hn⟩ := exists_eq_succ_of_ne_zero hcount.ne'
  have hread (left : ℕ) (mdata : List UInt8) :
      readEntry (replicate size.toNat 0) mdata 0 left = none := by
    unfold readEntry
    rw [hent]
    rfl
  rw [hn, readEntries, hread]
  rfl

/-- Only the header is copied into the buffer of the caller, which holds zeros behind it. -/
theorem not_restores_of_plain (hmd : WellFormed md) (hne : md.items ≠ []) (hsbuf : md.sbuf = none)
    (hfits : Fits opt (payloadSize md.items)) (hplain : compressed zlib opt md.items = none) :
    ¬ Restores zlib md (some (replicate (payloadSize md.items + sizeofMetaDataHeader) 0))
      (payloadSize md.items + sizeofMetaDataHeader) opt := by
  rintro ⟨buffer, length, next, copy, hserialize, hcopy, hperm⟩
  have hsizeEq := toNat_length_lt (lt_maxMallocChecked hfits.1)
  have hentries := payloadSize_eq md.items
  have hhandOver := handOver_replicate
    (metaDataHeader 2 md.itemCount (ofNat (payloadSize md.items))) (payload md.items)
  rw [length_payload] at hhandOver
  have hfilled := serializeItems_fits zlib hmd hne hsbuf hfits
    (some (replicate (payloadSize md.items + sizeofMetaDataHeader) 0)) le_rfl
  rw [metaDataSerialize_of_none hsbuf _ le_rfl, hfilled, hplain] at hserialize
  obtain ⟨_, hresult, hpair⟩ := map_eq_some_iff.mp hserialize
  cases hpair
  obtain ⟨rfl, rfl⟩ := Serialized.written.inj (some.inj (hhandOver.symm.trans hresult))
  have hzeros := metaDataDeserialize_zeros zlib md.itemCount
    (ofNat (payloadSize md.items))
    (by rw [hmd.count_eq]; exact length_pos_iff.mpr hne)
    (by rw [hmd.count_eq, hsizeEq, hentries, mul_comm]; exact le_add_right _ _)
  rw [hsizeEq] at hzeros
  rw [take_of_length_le, hzeros] at hcopy
  · cases hcopy
    exact hne (nil_perm.mp hperm)
  · rw [length_append, length_append, length_replicate, length_payload]

/-- The round trip works for every buffer that is large enough exactly if there is nothing to write,
or the cache is used, or all buffers can be allocated and the result need not be copied without
compression into a buffer of the caller. -/
theorem serialize_restores_iff (zlib : Zlib) {md : Container} (hmd : WellFormed md)
    (hdistinct : Distinct md) (hitems : ∀ item ∈ md.items, Serializable item)
    (hcache : CacheValid zlib md) (opt : SerializationOptions) (provided : Bool) :
    (∀ target max, target.isSome = provided →
      payloadSize md.items + sizeofMetaDataHeader ≤ max →
      (∀ buffer ∈ target, max ≤ buffer.length) → Restores zlib md target max opt) ↔
    md.items = [] ∨ md.sbuf.isSome ∨ Fits opt (payloadSize md.items) ∧
      (provided = false ∨ (compressed zlib opt md.items).isSome) := by
  constructor
  · intro h
    by_contra hnot
    rw [not_or, not_or, not_and_or, not_or, not_isSome_iff_eq_none,
      not_isSome_iff_eq_none, Bool.not_eq_false] at hnot
    obtain ⟨hne, hsbuf, hnot⟩ := hnot
    by_cases hfits : Fits opt (payloadSize md.items)
    · obtain ⟨hprovided, hplain⟩ := hnot.resolve_left (not_not.mpr hfits)
      refine not_restores_of_plain hmd hne hsbuf hfits hplain (h _ _ ?_ le_rfl ?_)
      · exact hprovided.symm
      · rintro _ ⟨⟩
        rw [length_replicate]
    · -- whatever the buffer is, nothing is written
      let max := payloadSize md.items + sizeofMetaDataHeader
      obtain ⟨target, htarget, hbuffer⟩ : ∃ target : Option (List UInt8),
          target.isSome = provided ∧ ∀ buffer ∈ target, max ≤ buffer.length := by
        cases provided with
        | false => exact ⟨none, rfl, nofun⟩
        | true =>
          refine ⟨some (replicate max 0), rfl, ?_⟩
          rintro _ ⟨⟩
          rw [length_replicate]
      obtain ⟨buffer, _, _, _, hserialize, -⟩ := h target max htarget le_rfl hbuffer
      rw [metaDataSerialize_of_none hsbuf target le_rfl] at hserialize
      by_cases hsize : payloadSize md.items < maxMallocChecked
      · cases (serializeItems_stops hmd hne hsbuf hsize hfits target max).symm.trans hserialize
      · cases (serializeItems_large (Nat.le_of_not_lt hsize) target max).symm.trans hserialize
  · intro h target max htarget hmax hbuffer
    cases hsbuf : md.sbuf with
    | some sbuf =>
      exact restores_cached hmd hdistinct hitems hmax hbuffer hcache (by rw [hsbuf]; rfl)
    | none =>
      by_cases hne : md.items = []
      · exact restores_nil hmd hdistinct hitems hmax hbuffer hne hsbuf
      · rw [hsbuf] at h
        obtain ⟨hfits, hcopied⟩ := (h.resolve_left hne).resolve_left nofun
        refine restores_fits hmd hdistinct hitems hmax hbuffer hne hsbuf hfits fun hsome ↦ ?_
        refine hcopied.resolve_left fun hprovided ↦ ?_
        rw [htarget, hprovided] at hsome
        cases hsome

end RoundTrip

def storingZlib : Zlib := ⟨fun _ ↦ none, fun _ _ ↦ none, nofun⟩

def shortContainer : Container := ⟨[⟨none, none, [104, 105, 0], 3, .utf8⟩], none, 1⟩

def pairContainer : Container :=
  ⟨[⟨some ⟨[112], by decide⟩, none, [1, 2, 3, 4], 7, .binary⟩,
    ⟨none, some ⟨[116, 47], by decide⟩, [104, 105, 0], 3, .utf8⟩], none, 2⟩

theorem wellFormed_pairContainer : WellFormed pairContainer := by
  refine ⟨?_, rfl, ?_⟩
  · unfold Sorted
    decide
  · unfold MetaItem.Stored
    decide

/-- The smaller item is left out, and the cache has both. -/
theorem cacheValid_pair : ∃ written next,
    metaDataSerialize storingZlib pairContainer none 45 ⟨true, true⟩ =
      some (.written written 38, next) ∧
    (∃ sbuf, next.sbuf = some sbuf ∧ sbuf.length = 64) ∧ CacheValid storingZlib next := by
  have h : metaDataSerialize storingZlib pairContainer none 45 ⟨true, true⟩ = some (_, _) := rfl
  exact ⟨_, _, h, ⟨_, rfl, rfl⟩,
    ((cacheValid_of_none rfl).serialize wellFormed_pairContainer h).1⟩

theorem serialize_restores_pair :
    WellFormed pairContainer ∧ Distinct pairContainer ∧
      Restores storingZlib pairContainer none 64 ⟨false, true⟩ := by
  have hdistinct : Distinct pairContainer := by unfold Distinct; decide
  have hitems : ∀ item ∈ pairContainer.items, Serializable item := by decide
  have hfits : Fits ⟨false, true⟩ (payloadSize pairContainer.items) := ⟨by decide, nofun⟩
  exact ⟨wellFormed_pairContainer, hdistinct,
    (serialize_restores_iff storingZlib wellFormed_pairContainer hdistinct hitems nofun
      ⟨false, true⟩ false).mpr (.inr (.inr ⟨hfits, .inl rfl⟩)) none 64 rfl (by decide) nofun⟩

/-- The text is serialized without compression into a buffer of the caller that holds zeros.  What
is read back has no items. -/
theorem plain_not_copied :
    ∃ buffer next, metaDataSerialize storingZlib shortContainer
        (some (replicate 35 0)) 35 ⟨false, true⟩ = some (.written buffer 35, next) ∧
      metaDataDeserialize storingZlib (buffer.take 35) = some (some metaDataCreate) :=
  ⟨_, _, rfl, rfl⟩

end Gnunet.Util.MetaData
