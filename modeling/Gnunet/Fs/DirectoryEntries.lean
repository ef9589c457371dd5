import Gnunet.Fs.Directory

/-!
# The entries of a directory

An entry that is added to a directory holds the serialized meta data of a file, together with its
data if they are small. What can be read from it has at most the items that were given, and it has
all of them just if the meta data can be measured, serialized into the room there is, and read back.
-/

namespace Gnunet.Fs.Directory

open Util Util.MetaData List Option Nat
open Fs.KeywordUri (uriParse)
open Entry

variable {O : Type}

/-- What callers promise: meta data made by the operations on containers, a URI whose string is read
back, and data of the size the URI says. -/
structure Entry.Valid (platform : Platform O) (e : Entry O) : Prop where
  wellFormed : WellFormed e.md
  cache : CacheValid platform.zlib e.md
  zero : (0 : UInt8) ∉ platform.uriToString e.uri
  parse : uriParse platform.scan platform.parsers (platform.uriToString e.uri) = .ok (.other e.uri)
  data : ∀ data ∈ e.data, platform.fileSize e.uri = some data.length

def Entry.inline (e : Entry O) : List UInt8 :=
  match e.data with
  | none => []
  | some data => if data.length > maxInlineSize then [] else data

variable {platform : Platform O} {e : Entry O}

theorem Entry.Valid.inlineData_eq (h : e.Valid platform) :
    inlineData platform e = some e.inline := by
  unfold inlineData inline
  cases hdata : e.data with
  | none => rfl
  | some data =>
    dsimp only
    rw [h.data data hdata, map_some, take_length]

theorem Entry.length_inline_le (e : Entry O) : e.inline.length ≤ maxInlineSize := by
  unfold inline
  split
  · exact zero_le _
  · split_ifs with hlarge
    · exact zero_le _
    · exact Nat.le_of_not_lt hlarge

/-! ## Meta data with the data of the file -/

variable (platform) in
def withData (md : Container) (data : List UInt8) : Option Container :=
  (metaDataDuplicate md).bind fun copy ↦
    (metaDataInsert copy (fullDataItem platform data)).map Prod.snd

variable (platform) in
def itemsWithData (md : Container) (data : List UInt8) : List MetaItem :=
  if (fullDataItem platform data).key ∈ md.items.map MetaItem.key then md.items
  else fullDataItem platform data :: md.items

variable {md next : Container} {item : MetaItem} {status : Status} {data : List UInt8}

theorem sbuf_metaDataInsert (h : metaDataInsert md item = some (status, next))
    (hsbuf : md.sbuf = none) :
    next.sbuf = none := by
  unfold metaDataInsert at h
  split at h
  · split_ifs at h
    · cases h
      rfl
    · cases h
      exact hsbuf
  · split_ifs at h
    cases h
    rfl

theorem sbuf_foldlM_insert {items : List MetaItem}
    (h : items.foldlM (fun md item ↦ (metaDataInsert md item).map Prod.snd) md = some next)
    (hsbuf : md.sbuf = none) : next.sbuf = none := by
  induction items generalizing md with
  | nil =>
    cases h
    exact hsbuf
  | cons item items ih =>
    obtain ⟨_, hmid, h⟩ := bind_eq_some_iff.mp h
    obtain ⟨⟨_, next⟩, hinsert, rfl⟩ := map_eq_some_iff.mp hmid
    exact ih h (sbuf_metaDataInsert hinsert hsbuf)

theorem sbuf_metaDataDuplicate {copy : Container} (h : metaDataDuplicate md = some copy) :
    copy.sbuf = none := sbuf_foldlM_insert h rfl

theorem sbuf_withData {with' : Container} (h : withData platform md data = some with') :
    with'.sbuf = none := by
  obtain ⟨_, hcopy, h⟩ := bind_eq_some_iff.mp h
  obtain ⟨⟨_, _⟩, hinsert, rfl⟩ := map_eq_some_iff.mp h
  exact sbuf_metaDataInsert hinsert (sbuf_metaDataDuplicate hcopy)

theorem stored_fullDataItem (h : data.length ≤ maxInlineSize) :
    (fullDataItem platform data).Stored := by
  refine ⟨⟨nofun, ?_, ?_⟩, ?_⟩
  · rintro _ ⟨⟩
    decide
  · exact h.trans (by decide)
  · exact if_neg fun htype ↦ htype.elim platform.fullDataType_ne.1 platform.fullDataType_ne.2

theorem length_le_payloadSize (items : List MetaItem) : items.length * 20 ≤ payloadSize items := by
  rw [payloadSize_eq]
  exact le_add_right _ _

theorem large_of_insert (h : metaDataInsert md item = some (status, next))
    (hcount : ¬md.items.length + 1 < 2 ^ 32) : maxMallocChecked ≤ payloadSize next.items := by
  have hlength := (length_metaDataInsert h).1
  have hsize := length_le_payloadSize next.items
  unfold maxMallocChecked
  omega

theorem exists_metaDataInsert (md : Container) (h : item.Allocatable) :
    ∃ status next, metaDataInsert md item = some (status, next) := by
  unfold metaDataInsert
  split
  · rw [if_neg fun hstop ↦ hstop.2 h.1]
    exact ⟨_, _, rfl⟩
  · rw [if_pos h]
    exact ⟨_, _, rfl⟩

theorem insertionOf_binary {items later : List MetaItem} {copiesMime newFormat : Bool}
    (hmime : item.mimeType = none) (hformat : item.format = .binary)
    (h : insertionOf item items = .present later copiesMime newFormat) : later = items := by
  induction items generalizing later with
  | nil => cases h
  | cons pos rest ih =>
    rw [insertionOf] at h
    split_ifs at h
    · rw [hmime, hformat] at h
      obtain ⟨rfl, -⟩ := Insertion.present.inj h
      simp
    · cases hrest : insertionOf item rest with
      | present items copies new =>
        rw [hrest] at h
        obtain ⟨rfl, rfl, rfl⟩ := Insertion.present.inj h
        rw [ih hrest]
      | added items =>
        rw [hrest] at h
        cases h

theorem items_metaDataInsert_binary (hmime : item.mimeType = none)
    (hformat : item.format = .binary) (h : metaDataInsert md item = some (.syserr, next)) :
    next.items = md.items := by
  unfold metaDataInsert at h
  split at h
  next later copiesMime newFormat hinsertion =>
    split_ifs at h
    all_goals
      cases h
      exact insertionOf_binary hmime hformat hinsertion
  next later hinsertion =>
    split_ifs at h
    cases h

/-- The entries are all different, and the ones that there should be. Only if there are too many to
be counted this may fail. -/
theorem withData_cases (hmd : WellFormed md) (hdata : data.length ≤ maxInlineSize) :
    ∃ with', withData platform md data = some with' ∧
      (maxMallocChecked ≤ payloadSize with'.items ∨
        WellFormed with' ∧ Distinct with' ∧
          with'.items.map MetaItem.key ⊆ (itemsWithData platform md data).map MetaItem.key ∧
          (Distinct md → with'.items.Perm (itemsWithData platform md data))) := by
  obtain ⟨copy, hcopy, hwell, hdistinct, hkeys, hperm⟩ := metaDataDuplicate_eq hmd
  have hitem := @stored_fullDataItem O platform data hdata
  have hstart : withData platform md data =
      (metaDataInsert copy (fullDataItem platform data)).map Prod.snd := by
    rw [withData, hcopy, bind_some]
  by_cases hcount : copy.items.length + 1 < 2 ^ 32
  · obtain ⟨status, next, hnext, hwellNext, hdistinctNext, -, hkeysNext, hcases⟩ :=
      hwell.insert hdistinct hitem hcount
    refine ⟨next, by rw [hstart, hnext, map_some], .inr ⟨hwellNext, hdistinctNext, ?_⟩⟩
    rcases hcases with ⟨hmem, rfl⟩ | ⟨hmem, -, hpermNext⟩
    · have hsame : itemsWithData platform md data = md.items := if_pos ((hkeys _).mp hmem)
      rw [items_metaDataInsert_binary rfl rfl hnext, hsame]
      exact ⟨fun key ↦ (hkeys key).mp, hperm⟩
    · have hadded : itemsWithData platform md data = fullDataItem platform data :: md.items :=
        if_neg fun hkey ↦ hmem ((hkeys _).mpr hkey)
      rw [hadded]
      refine ⟨fun key hkey ↦ ?_, fun hmdDistinct ↦ hpermNext.trans ((hperm hmdDistinct).cons _)⟩
      rw [map_cons, mem_cons]
      exact ((hkeysNext key).mp hkey).imp_right (hkeys key).mp
  · obtain ⟨_, next, hnext⟩ := exists_metaDataInsert copy hitem.1
    exact ⟨next, by rw [hstart, hnext, map_some], .inl (large_of_insert hnext hcount)⟩

/-! ## Writing -/

def maxBuffer : ℕ := maxMallocChecked / 2

variable (platform) in
/-- The meta data fit into their buffer, perhaps only compressed, and the entry can be allocated. -/
def Writable (uris : List UInt8) (md : Container) : Prop :=
  ∃ n, serializedSize platform.zlib md = some n ∧
    (n ≤ maxBuffer ∨ Shortens platform.zlib md maxBuffer) ∧
    16 + (uris.length + 1) + min n maxBuffer + 4 ≤ maxMallocChecked

theorem bufferSize_some (n : ℕ) : bufferSize (some n) = min n maxBuffer := by
  change (if n > maxBuffer then maxBuffer else n) = _
  split_ifs with h
  · exact (min_eq_right h.le).symm
  · exact (Nat.min_eq_left (Nat.le_of_not_lt h)).symm

theorem writeEntry_of_room {uris bytes : List UInt8} (hmd : WellFormed md)
    (hprepared : Prepared platform.zlib md bytes)
    (hroom : bytes.length ≤ maxBuffer ∨ Shortens platform.zlib md maxBuffer)
    (halloc : 16 + (uris.length + 1) + min bytes.length maxBuffer + 4 ≤ maxMallocChecked) :
    ∃ full, Complete platform.zlib md full ∧ full.length ≤ maxBuffer ∧
      writeEntry platform uris md (some bytes.length) = some (entryBytes uris full) := by
  rw [writeEntry, bufferSize_some]
  rw [if_pos halloc]
  by_cases hshort : bytes.length ≤ maxBuffer
  · rw [min_eq_left hshort]
    have hfits : bytes.length ≤ (replicate bytes.length (0 : UInt8)).length := by
      rw [length_replicate]
    have hserialize := metaDataSerialize_prepared hmd hprepared hfits ⟨true, false⟩
    rw [length_replicate, drop_replicate, Nat.sub_self, replicate_zero, append_nil] at hserialize
    refine ⟨bytes, hprepared.1, hshort, ?_⟩
    rw [hserialize, bind_some]
    dsimp only
    rw [take_length]
  · have hlong := Nat.lt_of_not_le hshort
    rw [min_eq_right hlong.le]
    have hlength : (replicate maxBuffer (0 : UInt8)).length = maxBuffer :=
      length_replicate
    have hheader : sizeofMetaDataHeader ≤ (replicate maxBuffer (0 : UInt8)).length := by
      rw [hlength]
      decide
    obtain ⟨full, _, hcomplete, htarget, htake, hserialize⟩ :=
      metaDataSerialize_shortened hmd hprepared hheader (by rw [hlength]; exact hlong)
        (by rw [hlength]; exact hroom.resolve_left hshort)
    rw [hlength] at htarget hserialize
    have hfull : full.length ≤ maxBuffer := by
      rw [← htake, ← htarget]
      exact length_take_le' _ _
    refine ⟨full, hcomplete, hfull, ?_⟩
    rw [hserialize, bind_some]
    dsimp only
    rw [htake]

/-- The entry holds a complete serialization in enough room, or fewer items can be read from it. -/
theorem writeEntry_cases {uris bytes written : List UInt8} (hmd : WellFormed md)
    (hprepared : Prepared platform.zlib md bytes)
    (h : writeEntry platform uris md (some bytes.length) = some written) :
    16 + (uris.length + 1) + min bytes.length maxBuffer + 4 ≤ maxMallocChecked ∧
      ∃ full, written = entryBytes uris full ∧ full.length ≤ maxBuffer ∧
        ((bytes.length ≤ maxBuffer ∨ Shortens platform.zlib md maxBuffer) ∧
            Complete platform.zlib md full ∨
          ∀ copy, metaDataDeserialize platform.zlib full = some (some copy) →
            copy.items.length < md.items.length) := by
  have halloc : 16 + (uris.length + 1) + min bytes.length maxBuffer + 4 ≤ maxMallocChecked := by
    by_contra hlarge
    rw [writeEntry, bufferSize_some] at h
    rw [if_neg hlarge] at h
    cases h
  refine ⟨halloc, ?_⟩
  by_cases hroom : bytes.length ≤ maxBuffer ∨ Shortens platform.zlib md maxBuffer
  · obtain ⟨full, hcomplete, hfull, hwrite⟩ := writeEntry_of_room hmd hprepared hroom halloc
    cases hwrite.symm.trans h
    exact ⟨full, rfl, hfull, .inl ⟨hroom, hcomplete⟩⟩
  · rw [not_or] at hroom
    have hlong := Nat.lt_of_not_le hroom.1
    have hlength : (replicate maxBuffer (0 : UInt8)).length = maxBuffer :=
      length_replicate
    rw [writeEntry, bufferSize_some] at h
    rw [if_pos halloc, min_eq_right hlong.le] at h
    obtain ⟨⟨result, _⟩, hserialize, h⟩ := bind_eq_some_iff.mp h
    cases result with
    | syserr =>
      refine ⟨[], (some.inj h).symm, zero_le _, .inr fun copy hcopy ↦ ?_⟩
      cases hcopy
    | written target length =>
      cases h
      generalize replicate maxBuffer (0 : UInt8) = buffer at hserialize hlength
      rw [← hlength] at hserialize hlong hroom
      obtain ⟨htarget, hfewer⟩ := length_lt_of_part hmd hprepared (by rw [hlength]; decide) hlong
        hserialize hroom.2
      refine ⟨_, rfl, ?_, .inr hfewer⟩
      rw [← hlength, ← htarget]
      exact length_take_le' _ _

/-! ## Measured meta data -/

/-- A container as the operations make it, or one too large for all that follows. -/
def Regular (platform : Platform O) (md : Container) : Prop :=
  WellFormed md ∧ CacheValid platform.zlib md ∨
    md.sbuf = none ∧ maxMallocChecked ≤ payloadSize md.items

theorem measured_cases {size : Option ℕ} (hmd : Regular platform md)
    (h : metaDataGetSerializedSize platform.zlib md = some (size, next)) :
    Sizeable md ∧ size = serializedSize platform.zlib md ∧ next.items = md.items ∧
      (size = none ∧ next.sbuf = none ∧ maxMallocChecked ≤ payloadSize next.items ∨
        ∃ bytes, size = some bytes.length ∧ Prepared platform.zlib next bytes ∧
          WellFormed next) := by
  by_cases hlarge : md.sbuf = none ∧ maxMallocChecked ≤ payloadSize md.items
  · rw [metaDataGetSerializedSize_large hlarge.1 hlarge.2] at h
    cases h
    exact ⟨.inr (.inl hlarge.2), (serializedSize_large hlarge.1 hlarge.2).symm, rfl,
      .inl ⟨rfl, hlarge⟩⟩
  · obtain ⟨hwell, hcache⟩ := hmd.resolve_right hlarge
    have hsizeable : Sizeable md := by
      by_contra hnot
      rw [metaDataGetSerializedSize_none hwell hnot] at h
      cases h
    obtain ⟨_, hnext, hitems, hcount, hsome⟩ :=
      metaDataGetSerializedSize_eq hwell hcache hsizeable
    cases hnext.symm.trans h
    refine ⟨hsizeable, rfl, hitems, .inr ?_⟩
    have hsize : ∃ n, serializedSize platform.zlib md = some n := by
      unfold serializedSize
      cases hsbuf : md.sbuf with
      | some sbuf => exact ⟨_, rfl⟩
      | none =>
        have hsmall : payloadSize md.items < maxMallocChecked := by
          by_contra hnot
          exact hlarge ⟨hsbuf, Nat.le_of_not_lt hnot⟩
        exact ⟨_, if_pos hsmall⟩
    obtain ⟨n, hn⟩ := hsize
    obtain ⟨bytes, hbytes, hprepared⟩ := hsome n hn
    exact ⟨bytes, by rw [hn, hbytes], hprepared, hwell.congr hitems hcount⟩

/-- At most the items can be read, and all of them only if they were writable and readable. -/
theorem written_items {size : Option ℕ} {uris written : List UInt8} (hmd : Regular platform md)
    (hsize : metaDataGetSerializedSize platform.zlib md = some (size, next))
    (h : writeEntry platform uris next size = some written) :
    ∃ full, written = entryBytes uris full ∧ full.length ≤ maxBuffer ∧
      ∀ copy, metaDataDeserialize platform.zlib full = some (some copy) →
        serializedSize platform.zlib md ≠ none ∧ copy.items.length ≤ md.items.length ∧
        (copy.items.length = md.items.length → Writable platform uris md ∧ Distinct md ∧
          ∀ item ∈ md.items, Serializable item) := by
  obtain ⟨-, hsizeEq, hitems, hcases⟩ := measured_cases hmd hsize
  rcases hcases with ⟨hnone, hsbuf, hlarge⟩ | ⟨bytes, hsome, hprepared, hwell⟩
  · rw [writeEntry] at h
    split_ifs at h
    rw [metaDataSerialize_large hsbuf hlarge] at h
    refine ⟨[], (some.inj h).symm, zero_le _, fun copy hcopy ↦ ?_⟩
    cases hcopy
  · rw [hsome] at h
    obtain ⟨halloc, full, hfull, hlength, hcase⟩ := writeEntry_cases hwell hprepared h
    refine ⟨full, hfull, hlength, fun copy hcopy ↦ ⟨?_, ?_⟩⟩
    · rw [← hsizeEq, hsome]
      exact nofun
    rw [← hitems]
    rcases hcase with ⟨hroom, hcomplete⟩ | hfewer
    · obtain ⟨_, hcopy', hle, hall⟩ := deserialize_complete hwell hcomplete
      cases hcopy'.symm.trans hcopy
      refine ⟨hle, fun heq ↦ ?_⟩
      obtain ⟨hdistinct, hserializable⟩ := hall heq
      refine ⟨⟨bytes.length, hsizeEq ▸ hsome, ?_, halloc⟩, ?_, hserializable⟩
      · rw [Shortens, hitems] at hroom
        exact hroom
      · rw [Distinct, hitems] at hdistinct
        exact hdistinct
    · have hlt := hfewer copy hcopy
      exact ⟨hlt.le, fun heq ↦ absurd heq hlt.ne⟩

theorem written_restores {uris : List UInt8} (hwell : WellFormed md)
    (hcache : CacheValid platform.zlib md) (hdistinct : Distinct md)
    (hserializable : ∀ item ∈ md.items, Serializable item) (hsizeable : Sizeable md)
    (hwritable : Writable platform uris md) :
    ∃ next full copy, metaDataGetSerializedSize platform.zlib md =
        some (serializedSize platform.zlib md, next) ∧
      writeEntry platform uris next (serializedSize platform.zlib md) =
        some (entryBytes uris full) ∧
      full.length ≤ maxBuffer ∧
      metaDataDeserialize platform.zlib full = some (some copy) ∧ copy.items.Perm md.items := by
  obtain ⟨next, hnext, hitems, hcount, hsome⟩ :=
    metaDataGetSerializedSize_eq hwell hcache hsizeable
  obtain ⟨n, hn, hroom, halloc⟩ := hwritable
  obtain ⟨bytes, rfl, hprepared⟩ := hsome n hn
  have hroomNext : bytes.length ≤ maxBuffer ∨ Shortens platform.zlib next maxBuffer := by
    rw [Shortens, hitems]
    exact hroom
  obtain ⟨full, hcomplete, hfull, hwrite⟩ := writeEntry_of_room (hwell.congr hitems hcount)
    hprepared hroomNext halloc
  have hcompleteMd := hcomplete.congr hitems hcount
  obtain ⟨-, _, hcdata, hbytes⟩ := hcompleteMd
  obtain ⟨copy, hcopy, hperm⟩ := deserialize_serialization platform.zlib hwell
    (hcomplete.congr hitems hcount).size_lt (fun short hs ↦ (hcdata short hs).1) hdistinct
    hserializable
  refine ⟨next, full, copy, hnext, ?_, hfull, hbytes ▸ hcopy, hperm⟩
  rw [hn, hwrite]

/-! ## Entries -/

variable (platform) in
/-- The data are put into the entry, which reaches no further block with them. -/
def Entry.inlined (e : Entry O) : Bool :=
  match withData platform e.md e.inline with
  | none => false
  | some md =>
    e.inline ≠ [] ∧ lastBlock ((platform.uriToString e.uri).length + 1)
        (serializedSize platform.zlib md) =
      lastBlock ((platform.uriToString e.uri).length + 1) (serializedSize platform.zlib e.md)

variable (platform) in
def Entry.items (e : Entry O) : List MetaItem :=
  if e.inlined platform then itemsWithData platform e.md e.inline else e.md.items

variable (platform) in
/-- An entry that can be read back: no item twice and only items of an accepted form, sizes that can
be found, and meta data that fit into the buffers for them. -/
structure Entry.Survives (e : Entry O) : Prop where
  distinct : Distinct e.md
  serializable : ∀ item ∈ e.md.items, Serializable item
  sizeable : Sizeable e.md
  sizeable_withData : e.inline ≠ [] →
    ∀ md ∈ withData platform e.md e.inline, Sizeable md
  writable : if e.inlined platform then
      ∀ md ∈ withData platform e.md e.inline, Writable platform (platform.uriToString e.uri) md
    else Writable platform (platform.uriToString e.uri) e.md

theorem metaToUse_eq {slen : ℕ} {mds : Option ℕ} (hdata : data ≠ [])
    (hitems : next.items = md.items) :
    metaToUse platform slen next mds data = (withData platform md data).bind fun withMd ↦
        (metaDataGetSerializedSize platform.zlib withMd).map fun (mdxs, withMd) ↦
          if lastBlock slen mdxs = lastBlock slen mds then (withMd, mdxs) else (next, mds) := by
  have hduplicate : metaDataDuplicate next = metaDataDuplicate md := by
    rw [metaDataDuplicate, hitems, metaDataDuplicate]
  rw [metaToUse, if_pos (length_pos_iff.mpr hdata), withData, bind_assoc]
  congr 1
  funext copy
  rw [bind_map]
  rfl

theorem itemsWithData_cases (md : Container) (data : List UInt8) :
    (∀ item ∈ md.items, item ∈ itemsWithData platform md data) ∧
      ∀ item ∈ itemsWithData platform md data,
        item ∈ md.items ∨ item = fullDataItem platform data := by
  unfold itemsWithData
  split_ifs
  · exact ⟨fun item h ↦ h, fun item h ↦ .inl h⟩
  · refine ⟨fun item h ↦ mem_cons_of_mem _ h, fun item h ↦ ?_⟩
    rcases mem_cons.mp h with rfl | h
    · exact .inr rfl
    · exact .inl h

theorem distinct_of_itemsWithData (h : ((itemsWithData platform md data).map MetaItem.key).Nodup) :
    Distinct md := by
  unfold itemsWithData at h
  split_ifs at h
  · exact h
  · exact (nodup_cons.mp h).2

theorem WellFormed.regular_insert (hmd : WellFormed md) (hdistinct : Distinct md)
    (hsbuf : md.sbuf = none) (hitem : item.Stored)
    (h : metaDataInsert md item = some (status, next)) : Regular platform next := by
  have hsbufNext := sbuf_metaDataInsert h hsbuf
  by_cases hcount : md.items.length + 1 < 2 ^ 32
  · obtain ⟨_, _, hnext, hwell, -⟩ := hmd.insert hdistinct hitem hcount
    cases hnext.symm.trans h
    exact .inl ⟨hwell, cacheValid_of_none hsbufNext⟩
  · exact .inr ⟨hsbufNext, large_of_insert h hcount⟩

theorem regular_withData {withMd : Container} (hmd : WellFormed md)
    (hdata : data.length ≤ maxInlineSize) (h : withData platform md data = some withMd) :
    Regular platform withMd := by
  obtain ⟨_, hcopy, hwell, hdistinct, -⟩ := metaDataDuplicate_eq hmd
  rw [withData, hcopy] at h
  obtain ⟨⟨_, _⟩, hinsert, rfl⟩ := map_eq_some_iff.mp h
  exact WellFormed.regular_insert hwell hdistinct (sbuf_metaDataDuplicate hcopy)
    (stored_fullDataItem hdata) hinsert

theorem measured_of_sizeable (hmd : Regular platform md) (hsizeable : Sizeable md) :
    ∃ next, metaDataGetSerializedSize platform.zlib md =
      some (serializedSize platform.zlib md, next) := by
  rcases hmd with ⟨hwell, hcache⟩ | ⟨hsbuf, hlarge⟩
  · obtain ⟨next, hnext, -⟩ := metaDataGetSerializedSize_eq hwell hcache hsizeable
    exact ⟨next, hnext⟩
  · rw [serializedSize_large hsbuf hlarge]
    exact ⟨md, metaDataGetSerializedSize_large hsbuf hlarge⟩

theorem inlined_nil (h : e.inline = []) : e.inlined platform = false := by
  unfold inlined
  split
  · rfl
  · exact decide_eq_false fun hand ↦ hand.1 h

theorem inlined_iff {withMd : Container} (hdata : e.inline ≠ [])
    (h : withData platform e.md e.inline = some withMd) :
    e.inlined platform = true ↔ lastBlock ((platform.uriToString e.uri).length + 1)
        (serializedSize platform.zlib withMd) = lastBlock ((platform.uriToString e.uri).length + 1)
        (serializedSize platform.zlib e.md) := by
  unfold inlined
  rw [h]
  exact decide_eq_true_iff.trans (and_iff_right hdata)

theorem Entry.Valid.serializeEntry_eq (hvalid : e.Valid platform) {mds : Option ℕ}
    (h : metaDataGetSerializedSize platform.zlib e.md = some (mds, next)) :
    serializeEntry platform e =
      (metaToUse platform ((platform.uriToString e.uri).length + 1) next mds e.inline).bind
        fun (md, mds) ↦ writeEntry platform (platform.uriToString e.uri) md mds := by
  unfold serializeEntry
  rw [hvalid.inlineData_eq, bind_some, h, bind_some]

theorem Entry.Survives.restores (h : e.Survives platform) (hvalid : e.Valid platform) :
    ∃ full copy, serializeEntry platform e = some (entryBytes (platform.uriToString e.uri) full) ∧
      full.length ≤ maxBuffer ∧
      metaDataDeserialize platform.zlib full = some (some copy) ∧
      copy.items.Perm (e.items platform) := by
  obtain ⟨next, hnext, hitems, -⟩ :=
    metaDataGetSerializedSize_eq hvalid.wellFormed hvalid.cache h.sizeable
  rw [hvalid.serializeEntry_eq hnext]
  have hwritable := h.writable
  -- the meta data without the data of the file
  have hplain : Writable platform (platform.uriToString e.uri) e.md → ∃ full copy,
      writeEntry platform (platform.uriToString e.uri) next (serializedSize platform.zlib e.md) =
        some (entryBytes (platform.uriToString e.uri) full) ∧ full.length ≤ maxBuffer ∧
      metaDataDeserialize platform.zlib full = some (some copy) ∧
      copy.items.Perm e.md.items := by
    intro hmd
    obtain ⟨_, full, copy, hnext', hwrite, hrest⟩ := written_restores hvalid.wellFormed
      hvalid.cache h.distinct h.serializable h.sizeable hmd
    cases hnext'.symm.trans hnext
    exact ⟨full, copy, hwrite, hrest⟩
  by_cases hdata : e.inline = []
  · rw [items, inlined_nil hdata, hdata]
    rw [inlined_nil hdata] at hwritable
    exact hplain hwritable
  · obtain ⟨withMd, hwith, hcases⟩ :=
      @withData_cases O platform e.md e.inline hvalid.wellFormed e.length_inline_le
    have hregular := regular_withData hvalid.wellFormed e.length_inline_le hwith
    have hsizeable := h.sizeable_withData hdata withMd hwith
    obtain ⟨_, hnextWith⟩ := measured_of_sizeable hregular hsizeable
    rw [metaToUse_eq hdata hitems, hwith, bind_some, hnextWith, map_some]
    dsimp only
    by_cases hinlined : e.inlined platform = true
    · rw [if_pos ((inlined_iff hdata hwith).mp hinlined), items, if_pos hinlined]
      rw [if_pos hinlined] at hwritable
      have hwithWritable := hwritable withMd hwith
      have hsbuf := sbuf_withData hwith
      rcases hcases with hlarge | ⟨hwell, hdistinct, -, hperm⟩
      · obtain ⟨n, hn, -⟩ := hwithWritable
        exact nomatch (serializedSize_large hsbuf hlarge).symm.trans hn
      · have hserializable : ∀ item ∈ withMd.items, Serializable item := by
          intro item hmem
          rcases (itemsWithData_cases e.md e.inline).2 item
            ((hperm h.distinct).mem_iff.mp hmem) with hmem | rfl
          · exact h.serializable item hmem
          · exact ⟨nofun, fun hbinary ↦ absurd rfl hbinary⟩
        obtain ⟨_, full, copy, hnextWith', hwrite, hfull, hcopy, hcopyPerm⟩ :=
          written_restores hwell (cacheValid_of_none hsbuf) hdistinct hserializable hsizeable
            hwithWritable
        cases hnextWith'.symm.trans hnextWith
        exact ⟨full, copy, hwrite, hfull, hcopy, hcopyPerm.trans (hperm h.distinct)⟩
    · rw [if_neg (fun heq ↦ hinlined ((inlined_iff hdata hwith).mpr heq)), items, if_neg hinlined]
      rw [if_neg hinlined] at hwritable
      exact hplain hwritable

/-- At most the items of the entry can be read back, and all of them only if it survives. -/
def Entry.Holds (platform : Platform O) (e : Entry O) (written : List UInt8) : Prop :=
  ∃ full, written = entryBytes (platform.uriToString e.uri) full ∧ full.length ≤ maxBuffer ∧
    ∀ copy, metaDataDeserialize platform.zlib full = some (some copy) →
      copy.items.length ≤ (e.items platform).length ∧
      (copy.items.length = (e.items platform).length → e.Survives platform)

theorem Entry.Valid.written (hvalid : e.Valid platform) {written : List UInt8}
    (h : serializeEntry platform e = some written) : e.Holds platform written := by
  have hregular : Regular platform e.md := .inl ⟨hvalid.wellFormed, hvalid.cache⟩
  have hmeasured : ∃ mds next, metaDataGetSerializedSize platform.zlib e.md = some (mds, next) := by
    unfold serializeEntry at h
    rw [hvalid.inlineData_eq, bind_some] at h
    obtain ⟨⟨mds, next⟩, hnext, -⟩ := bind_eq_some_iff.mp h
    exact ⟨mds, next, hnext⟩
  obtain ⟨mds, next, hnext⟩ := hmeasured
  rw [hvalid.serializeEntry_eq hnext] at h
  obtain ⟨hsizeable, hmds, hitems, -⟩ := measured_cases hregular hnext
  -- the meta data without the data of the file
  have hplain (hwrite : writeEntry platform (platform.uriToString e.uri) next mds = some written)
      (hinlined : ¬e.inlined platform = true)
      (hsizeables : e.inline ≠ [] → ∀ md ∈ withData platform e.md e.inline, Sizeable md) :
      e.Holds platform written := by
    rw [Holds, items, if_neg hinlined]
    obtain ⟨full, hwritten, hfull, hcopy⟩ := written_items hregular hnext hwrite
    refine ⟨full, hwritten, hfull, fun copy hread ↦ ?_⟩
    obtain ⟨-, hle, hall⟩ := hcopy copy hread
    refine ⟨hle, fun heq ↦ ?_⟩
    obtain ⟨hwritable, hdistinct, hserializable⟩ := hall heq
    refine ⟨hdistinct, hserializable, hsizeable, hsizeables, ?_⟩
    rw [if_neg hinlined]
    exact hwritable
  by_cases hdata : e.inline = []
  · rw [hdata] at h
    exact hplain h (Bool.not_eq_true _ ▸ inlined_nil hdata) fun hne ↦ absurd hdata hne
  · obtain ⟨withMd, hwith, hcases⟩ :=
      @withData_cases O platform e.md e.inline hvalid.wellFormed e.length_inline_le
    have hregularWith := regular_withData hvalid.wellFormed e.length_inline_le hwith
    rw [metaToUse_eq hdata hitems, hwith, bind_some, bind_map] at h
    obtain ⟨⟨_, _⟩, hnextWith, h⟩ := bind_eq_some_iff.mp h
    obtain ⟨hsizeableWith, hmdxs, -⟩ := measured_cases hregularWith hnextWith
    have hsizeables : e.inline ≠ [] →
        ∀ md ∈ withData platform e.md e.inline, Sizeable md := by
      intro _ md hmd
      cases hwith.symm.trans hmd
      exact hsizeableWith
    dsimp only [Function.comp_apply] at h
    by_cases hinlined : e.inlined platform = true
    · have hblock := (inlined_iff hdata hwith).mp hinlined
      rw [← hmds, ← hmdxs] at hblock
      rw [if_pos hblock] at h
      rw [Holds, items, if_pos hinlined]
      obtain ⟨full, hwritten, hfull, hcopy⟩ := written_items hregularWith hnextWith h
      refine ⟨full, hwritten, hfull, fun copy hread ↦ ?_⟩
      obtain ⟨hsome, hle, hall⟩ := hcopy copy hread
      rcases hcases with hlarge | ⟨hwell, hdistinctWith, hkeys, hperm⟩
      · exact absurd (serializedSize_large (sbuf_withData hwith) hlarge) hsome
      · have hsub : (withMd.items.map MetaItem.key).Subperm
            ((itemsWithData platform e.md e.inline).map MetaItem.key) :=
          subperm_of_subset hdistinctWith hkeys
        have hlength := hsub.length_le
        rw [length_map, length_map] at hlength
        refine ⟨hle.trans hlength, fun heq ↦ ?_⟩
        have hsame : withMd.items.length = (itemsWithData platform e.md e.inline).length :=
          hlength.antisymm (heq ▸ hle)
        have hkeysPerm := hsub.perm_of_length_le (by
          rw [length_map, length_map, hsame])
        have hdistinct := distinct_of_itemsWithData (hkeysPerm.nodup_iff.mp hdistinctWith)
        obtain ⟨hwritable, -, hserializable⟩ := hall (heq.trans hsame.symm)
        refine ⟨hdistinct, fun item hmem ↦ ?_, hsizeable, hsizeables, ?_⟩
        · exact hserializable item ((hperm hdistinct).mem_iff.mpr
            ((itemsWithData_cases e.md e.inline).1 item hmem))
        · rw [if_pos hinlined]
          intro md hmd
          cases hwith.symm.trans hmd
          exact hwritable
    · have hblock := fun heq ↦ hinlined ((inlined_iff hdata hwith).mpr heq)
      rw [← hmds, ← hmdxs] at hblock
      rw [if_neg hblock] at h
      exact hplain h hinlined hsizeables

end Gnunet.Fs.Directory
