import Gnunet.Util.MetaDataSerialization

/-!
# The size of serialized meta data

`GNUNET_CONTAINER_meta_data_get_serialized_size` serializes a container to find out how long the
result is, and leaves the result in the cache. A serialization into a buffer of that size is then
a copy of the cache. In a smaller buffer there is room for some of the items only.

The second half of the module is about what can be read back: never more items than were written,
and all of them only if they are different from each other and of a form that is accepted.
-/

namespace Gnunet.Util.MetaData

open Lib Lib.NetworkOrder List Option UInt32 Nat

/-- The size is missing for `-1`. -/
def metaDataGetSerializedSize (zlib : Zlib) (md : Container) :
    Option (Option ℕ × Container) :=
  match md.sbuf with
  | some sbuf => some (some sbuf.length, md)
  | none =>
    match metaDataSerialize zlib md none maxMallocChecked ⟨false, false⟩ with
    | none => none
    | some (.syserr, md) => some (none, md)
    | some (.written _ length, md) => some (some length, md)

def serializedSize (zlib : Zlib) (md : Container) : Option ℕ :=
  match md.sbuf with
  | some sbuf => some sbuf.length
  | none =>
    if payloadSize md.items < maxMallocChecked then
      some (sizeofMetaDataHeader +
        ((compressed zlib ⟨false, false⟩ md.items).getD (payload md.items)).length)
    else none

/-- The size can be found without an allocation that stops the program. -/
def Sizeable (md : Container) : Prop :=
  md.sbuf.isSome ∨ maxMallocChecked ≤ payloadSize md.items ∨
    Fits ⟨false, false⟩ (payloadSize md.items)

def Complete (zlib : Zlib) (md : Container) (bytes : List UInt8) : Prop :=
  payloadSize md.items + sizeofMetaDataHeader ≤ maxMallocChecked ∧
    ∃ cdata : Option (List UInt8), (∀ short ∈ cdata, zlib.compress (payload md.items) = some short ∧
        short.length < payloadSize md.items) ∧
      bytes = serialization md.itemCount (payloadSize md.items) cdata (payload md.items)

/-- What the next serialization is a copy of: the cache, or a header if there are no items. -/
def Prepared (zlib : Zlib) (md : Container) (bytes : List UInt8) : Prop :=
  Complete zlib md bytes ∧ (md.sbuf = some bytes ∨ md.sbuf = none ∧ md.items = [])

variable {zlib : Zlib} {md : Container}

variable {bytes : List UInt8} {next : Container}

section

variable (h : Complete zlib md bytes)
include h

theorem Complete.size_lt :
    payloadSize md.items < maxMallocChecked := lt_maxMallocChecked h.1

theorem Complete.length_le :
    bytes.length ≤ payloadSize md.items + sizeofMetaDataHeader := by
  obtain ⟨-, _, hcdata, rfl⟩ := h
  exact length_serialization_le (fun short hshort ↦ (hcdata short hshort).2) md.itemCount

theorem Complete.header_le : sizeofMetaDataHeader ≤ bytes.length := by
  obtain ⟨-, _, -, rfl⟩ := h
  rw [length_serialization]
  exact le_add_right _ _

theorem Complete.eq_header (hmd : WellFormed md)
    (hitems : md.items = []) : bytes = metaDataHeader 2 0 0 := by
  obtain ⟨-, cdata, hcdata, rfl⟩ := h
  have hnone : cdata = none := by
    by_contra hsome
    obtain ⟨short, hshort⟩ := ne_none_iff_exists'.mp hsome
    have hlt := (hcdata short hshort).2
    rw [hitems] at hlt
    exact absurd hlt (not_lt_zero _)
  rw [hnone, hmd.itemCount_eq_zero hitems, hitems]
  rfl

end

theorem serializedSize_nil (hsbuf : md.sbuf = none) (hitems : md.items = []) :
    serializedSize zlib md = some sizeofMetaDataHeader := by
  have hnone : compressed zlib ⟨false, false⟩ [] = none := by
    by_contra hsome
    obtain ⟨_, hshort⟩ := ne_none_iff_exists'.mp hsome
    exact absurd (of_decide_eq_true (filter_eq_some_iff.mp hshort).2) (not_lt_zero _)
  rw [serializedSize, hsbuf, hitems, hnone]
  rfl

theorem serializedSize_large (hsbuf : md.sbuf = none)
    (hlarge : maxMallocChecked ≤ payloadSize md.items) : serializedSize zlib md = none := by
  rw [serializedSize, hsbuf]
  exact if_neg (not_lt.mpr hlarge)

theorem metaDataGetSerializedSize_large (hsbuf : md.sbuf = none)
    (hlarge : maxMallocChecked ≤ payloadSize md.items) :
    metaDataGetSerializedSize zlib md = some (none, md) := by
  rw [metaDataGetSerializedSize, hsbuf, metaDataSerialize_large hsbuf hlarge]

theorem metaDataGetSerializedSize_eq (hmd : WellFormed md) (hcache : CacheValid zlib md)
    (h : Sizeable md) :
    ∃ next, metaDataGetSerializedSize zlib md = some (serializedSize zlib md, next) ∧
      next.items = md.items ∧ next.itemCount = md.itemCount ∧
      ∀ n, serializedSize zlib md = some n → ∃ bytes, bytes.length = n ∧
        Prepared zlib next bytes := by
  cases hsbuf : md.sbuf with
  | some sbuf =>
    have hsize : serializedSize zlib md = some sbuf.length := by rw [serializedSize, hsbuf]
    refine ⟨md, ?_, rfl, rfl, fun n hn ↦ ⟨sbuf, ?_, hcache sbuf hsbuf, .inl hsbuf⟩⟩
    · rw [metaDataGetSerializedSize, hsbuf, hsize]
    · rw [hsize] at hn
      exact some.inj hn
  | none =>
    have hmax : ¬maxMallocChecked < sizeofMetaDataHeader := by decide
    have hserialize : metaDataSerialize zlib md none maxMallocChecked ⟨false, false⟩ =
        serializeItems zlib md none maxMallocChecked ⟨false, false⟩ := by
      rw [metaDataSerialize, if_neg hmax, hsbuf]
    by_cases hlarge : maxMallocChecked ≤ payloadSize md.items
    · rw [serializedSize_large hsbuf hlarge]
      refine ⟨md, metaDataGetSerializedSize_large hsbuf hlarge, rfl, rfl, ?_⟩
      rintro _ ⟨⟩
    · by_cases hitems : md.items = []
      · have hzero : payloadSize md.items = 0 := by rw [hitems]; rfl
        refine ⟨md, ?_, rfl, rfl, fun n hn ↦ ⟨metaDataHeader 2 0 0, ?_,
          ⟨?_, none, by rintro _ ⟨⟩, ?_⟩, .inr ⟨hsbuf, hitems⟩⟩⟩
        · rw [metaDataGetSerializedSize, hsbuf, hserialize,
            serializeItems_eq hmd (Nat.lt_of_not_le hlarge), hitems,
            serializedSize_nil hsbuf hitems]
          rfl
        · rw [serializedSize_nil hsbuf hitems] at hn
          exact some.inj hn
        · rw [hzero]
          decide
        · rw [hmd.itemCount_eq_zero hitems, hitems]
          rfl
      · have hfits : Fits ⟨false, false⟩ (payloadSize md.items) := by
          rcases h with hsome | hlarge' | hfits
          · rw [hsbuf] at hsome
            cases hsome
          · exact absurd hlarge' hlarge
          · exact hfits
        let full := serialization md.itemCount (payloadSize md.items)
          (compressed zlib ⟨false, false⟩ md.items) (payload md.items)
        have hsize : serializedSize zlib md = some full.length := by
          rw [serializedSize, hsbuf, length_serialization]
          exact if_pos (Nat.lt_of_not_le hlarge)
        refine ⟨{ md with sbuf := some full }, ?_, rfl, rfl, fun n hn ↦ ⟨full, ?_, ⟨hfits.1, _,
          fun short hshort ↦ mem_of_tryCompression (tryCompression_eq hfits) hshort, rfl⟩,
          .inl rfl⟩⟩
        · rw [metaDataGetSerializedSize, hsbuf, hserialize,
            serializeItems_fits zlib hmd hitems hsbuf hfits none hfits.1, hsize]
          rfl
        · rw [hsize] at hn
          exact some.inj hn

theorem metaDataGetSerializedSize_none (hmd : WellFormed md) (h : ¬Sizeable md) :
    metaDataGetSerializedSize zlib md = none := by
  obtain ⟨hsbuf, hlarge, hfits⟩ : md.sbuf = none ∧ payloadSize md.items < maxMallocChecked ∧
      ¬Fits ⟨false, false⟩ (payloadSize md.items) := by
    unfold Sizeable at h
    rw [not_or, not_or, not_isSome_iff_eq_none, not_le] at h
    exact h
  have hmax : ¬maxMallocChecked < sizeofMetaDataHeader := by decide
  have hitems : md.items ≠ [] := by
    intro hnil
    rw [hnil] at hfits
    exact hfits ⟨by decide, fun _ ↦ by decide⟩
  rw [metaDataGetSerializedSize, metaDataSerialize, if_neg hmax, hsbuf]
  rw [serializeItems_stops hmd hitems hsbuf hlarge hfits]

variable {buffer target : List UInt8}

theorem handOver_length (h : bytes.length ≤ buffer.length) :
    handOver (some buffer) bytes bytes.length =
      some (.written (bytes ++ buffer.drop bytes.length) bytes.length) := by
  rw [handOver, if_pos ⟨le_rfl, h⟩, take_length, Buffer.write, take_zero, nil_append, zero_add]

theorem metaDataSerialize_prepared (hmd : WellFormed md)
    (h : Prepared zlib md bytes) (hlength : bytes.length ≤ buffer.length)
    (opt : SerializationOptions) :
    metaDataSerialize zlib md (some buffer) buffer.length opt =
      some (.written (bytes ++ buffer.drop bytes.length) bytes.length, md) := by
  obtain ⟨hcomplete, hsource⟩ := h
  have hheader := hcomplete.header_le
  have hcopy := handOver_length hlength
  rw [metaDataSerialize, if_neg (by omega)]
  rcases hsource with hsbuf | ⟨hsbuf, hitems⟩
  · rw [hsbuf]
    dsimp only
    rw [if_pos hlength, if_neg (by rintro ⟨⟨⟩, -⟩), hcopy, map_some]
  · obtain rfl := hcomplete.eq_header hmd hitems
    rw [hsbuf]
    rw [serializeItems_eq hmd hcomplete.size_lt, hitems]
    exact congrArg (Option.map (·, md)) hcopy

/-- What is read are entries of the container, each once; it is not all of them if two of them are
the same or one is of a form that is not accepted. -/
theorem deserialize_complete (hmd : WellFormed md) (h : Complete zlib md bytes) :
    ∃ copy, metaDataDeserialize zlib bytes = some (some copy) ∧
      copy.items.length ≤ md.items.length ∧
      (copy.items.length = md.items.length →
        Distinct md ∧ ∀ item ∈ md.items, Serializable item) := by
  have hsize := h.size_lt
  obtain ⟨-, _, hcdata, rfl⟩ := h
  have hread := metaDataDeserialize_serialization zlib hmd hsize fun short hs ↦ (hcdata short hs).1
  have hpart := takeWhile_prefix (l := md.items.reverse) (Serializable ·)
  have hfront : ∀ item ∈ md.items.reverse.takeWhile (Serializable ·), Serializable item :=
    fun item hitem ↦ by simpa using mem_takeWhile_imp hitem
  generalize md.items.reverse.takeWhile (Serializable ·) = front at hread hpart hfront
  have hcount := toNat_lt md.itemCount
  rw [hmd.count_eq] at hcount
  have hshort : front.length ≤ md.items.length := by
    have hle := hpart.length_le
    rw [length_reverse] at hle
    exact hle
  obtain ⟨copy, hcopy, -, hdistinct, hkeys, -⟩ := wellFormed_create.foldlM_insert distinct_create
    front (fun item hitem ↦ hmd.stored item (mem_reverse.mp (hpart.subset hitem)))
    (by change 0 + _ < _; omega)
  have hsub : (copy.items.map MetaItem.key).Subperm (front.map MetaItem.key) :=
    Nodup.subperm hdistinct fun key hkey ↦ ((hkeys key).mp hkey).resolve_left not_mem_nil
  have hle := hsub.length_le
  rw [length_map, length_map] at hle
  refine ⟨copy, ?_, hle.trans hshort, fun heq ↦ ?_⟩
  · rw [hread, hcopy, map_some]
  · have hall : front = md.items.reverse :=
      hpart.eq_of_length (by rw [length_reverse]; omega)
    have hperm := hsub.perm_of_length_le (by rw [length_map, length_map]; omega)
    have hnodup := hperm.nodup_iff.mp hdistinct
    rw [hall, map_reverse, nodup_reverse] at hnodup
    rw [hall] at hfront
    exact ⟨hnodup, fun item hitem ↦ hfront item (mem_reverse.mpr hitem)⟩

theorem length_insertionOf (entry : MetaItem) (items : List MetaItem) :
    match insertionOf entry items with
    | .present later _ _ => later.length = items.length
    | .added later => later.length = items.length + 1 := by
  induction items with
  | nil => rfl
  | cons pos rest ih =>
    rw [insertionOf]
    split_ifs
    · rfl
    · rfl
    · cases hrest : insertionOf entry rest with
      | present later copiesMime newFormat =>
        rw [hrest] at ih
        exact congrArg (· + 1) ih
      | added later =>
        rw [hrest] at ih
        exact congrArg (· + 1) ih

theorem length_metaDataInsert {entry : MetaItem} {status : Status}
    (h : metaDataInsert md entry = some (status, next)) :
    md.items.length ≤ next.items.length ∧ next.items.length ≤ md.items.length + 1 := by
  have hlength := length_insertionOf entry md.items
  unfold metaDataInsert at h
  cases hinsertion : insertionOf entry md.items with
  | present later copiesMime newFormat =>
    rw [hinsertion] at h hlength
    dsimp only at h hlength
    split_ifs at h
    all_goals
      cases h
      exact ⟨hlength.ge, hlength.le.trans (le_succ _)⟩
  | added later =>
    rw [hinsertion] at h hlength
    split_ifs at h
    cases h
    exact ⟨(le_succ _).trans hlength.ge, hlength.le⟩

theorem length_readEntries {cdata mdata : List UInt8} {count i left : ℕ} {copy : Container}
    (h : readEntries cdata mdata count i left md = some copy) :
    copy.items.length ≤ md.items.length + count := by
  induction count generalizing i left md with
  | zero =>
    cases h
    exact le_add_right _ _
  | succ count ih =>
    rw [readEntries] at h
    cases hread : readEntry cdata mdata i left with
    | none =>
      rw [hread] at h
      cases h
      exact le_add_right _ _
    | some entry =>
      rw [hread] at h
      obtain ⟨⟨_, _⟩, hinsert, h⟩ := bind_eq_some_iff.mp h
      have hone := (length_metaDataInsert hinsert).2
      have hrest := ih h
      omega

def headerEntries (input : List UInt8) : ℕ := (ntohl ((input.drop 4).take 4)).toNat

theorem length_deserialize {input : List UInt8} {copy : Container}
    (h : metaDataDeserialize zlib input = some (some copy)) :
    copy.items.length ≤ headerEntries input := by
  unfold metaDataDeserialize at h
  dsimp only at h
  split_ifs at h
  · cases h
  · cases h
  · cases h
  · split at h
    · cases h
    · obtain ⟨_, hfound, heq⟩ := map_eq_some_iff.mp h
      cases heq
      have hlength := length_readEntries hfound
      rw [headerEntries]
      change _ ≤ 0 + _ at hlength
      omega

theorem headerEntries_handOver {version entries size : UInt32} {rest : List UInt8}
    {copied length : ℕ} (hcopied : sizeofMetaDataHeader ≤ copied)
    (h : handOver (some buffer) (metaDataHeader version entries size ++ rest) copied =
      some (.written target length)) :
    headerEntries (target.take length) = entries.toNat ∧ target.length = buffer.length := by
  obtain ⟨⟨hinside, hroom⟩, heq⟩ := ite_none_right_eq_some.mp h
  obtain ⟨rfl, rfl⟩ := Serialized.written.inj (some.inj heq)
  refine ⟨?_, by simp only [Buffer.write, take_zero, nil_append, zero_add, length_append,
    length_take, length_drop] at hinside ⊢; omega⟩
  obtain ⟨_, rfl⟩ := Nat.exists_eq_add_of_le hcopied
  have htake (tail : List UInt8) (n : ℕ) :
      (metaDataHeader version entries size ++ tail).take (sizeofMetaDataHeader + n) =
        metaDataHeader version entries size ++ tail.take n :=
    @take_length_add_append _ (metaDataHeader version entries size) tail n
  rw [htake]
  exact congrArg toNat (ntohl_htonl entries)

theorem headerEntries_serializeFrom {ent : List UInt8} {max i left clen length : ℕ}
    {opt : SerializationOptions} {items : List MetaItem}
    (hcount : i + 1 + items.length = md.itemCount.toNat)
    (h : serializeFrom zlib (some buffer) max opt ent items (i + 1) left clen md =
      some (.written target length, next)) :
    headerEntries (target.take length) ≤ md.itemCount.toNat - (i + 1) ∧
      target.length = buffer.length := by
  induction items generalizing i left clen with
  | nil =>
    obtain ⟨_, hhand, hpair⟩ := map_eq_some_iff.mp h
    cases hpair
    obtain ⟨hheader, hlength⟩ := headerEntries_handOver le_rfl hhand
    exact ⟨hheader.le.trans (zero_le _), hlength⟩
  | cons pos rest ih =>
    obtain ⟨_, -, h⟩ := bind_eq_some_iff.mp h
    rw [fillCache, if_neg (by rintro ⟨-, ⟨⟩⟩), bind_some] at h
    dsimp only at h
    split_ifs at h
    · obtain ⟨_, hhand, hpair⟩ := map_eq_some_iff.mp h
      cases hpair
      obtain ⟨hheader, hlength⟩ := headerEntries_handOver (le_add_left _ _) hhand
      refine ⟨?_, hlength⟩
      rw [hheader]
      have hlt := toNat_lt md.itemCount
      have hi : (ofNat (i + 1)).toNat = i + 1 :=
        toNat_ofNat_of_lt' (by change _ < 2 ^ 32; omega)
      rw [UInt32.toNat_sub_of_le _ _ (UInt32.le_iff_toNat_le.mpr (by omega)), hi]
    · obtain ⟨hrest, hlength⟩ := ih (by rw [length_cons] at hcount; omega) h
      exact ⟨by omega, hlength⟩
    · cases h

def Shortens (zlib : Zlib) (md : Container) (max : ℕ) : Prop :=
  payloadSize md.items + payloadSize md.items / 100 + 20 ≤ maxMallocChecked ∧
    ∃ short, zlib.compress (payload md.items) = some short ∧
      short.length < payloadSize md.items ∧ sizeofMetaDataHeader + short.length ≤ max

section Part

variable {bytes buffer : List UInt8}

section

variable (hmd : WellFormed md) (h : Prepared zlib md bytes)
  (hbuffer : sizeofMetaDataHeader ≤ buffer.length) (hlong : buffer.length < bytes.length)
include hmd h hbuffer hlong

theorem metaDataSerialize_long :
    ∃ pos rest, md.items.reverse = pos :: rest ∧
      metaDataSerialize zlib md (some buffer) buffer.length ⟨true, false⟩ =
        (tryCompression zlib (payload md.items)).bind fun cdata ↦
          if cdata.isSome ∧ (cdata.map length).getD 0 ≤ buffer.length then
            let dst := serialization md.itemCount (payloadSize md.items) cdata (payload md.items)
            if dst.length ≤ maxMallocChecked then
              (handOver (some buffer) dst
                ((cdata.map length).getD 0 + sizeofMetaDataHeader)).map (·, md)
            else none
          else serializeFrom zlib (some buffer) buffer.length ⟨true, false⟩ (payload md.items) rest
            1 (payloadSize md.items - itemSize pos) ((cdata.map length).getD 0) md := by
  have hitems : md.items ≠ [] := by
    intro hnil
    rw [h.1.eq_header hmd hnil] at hlong
    exact absurd hlong (not_lt.mpr hbuffer)
  have hsbuf : md.sbuf = some bytes := h.2.resolve_right fun hnone ↦ hitems hnone.2
  obtain ⟨pos, rest, hreverse⟩ := exists_cons_of_ne_nil
    (fun hnil ↦ hitems (reverse_eq_nil_iff.mp hnil))
  refine ⟨pos, rest, hreverse, ?_⟩
  have hplain : ¬payloadSize md.items + sizeofMetaDataHeader ≤ buffer.length := by
    have hle := h.1.length_le
    omega
  rw [metaDataSerialize, if_neg (not_lt.mpr hbuffer), hsbuf]
  dsimp only
  rw [if_neg (not_le.mpr hlong), if_pos rfl, serializeItems_eq hmd h.1.size_lt, hreverse,
    serializeFrom_first]
  congr 1
  funext cdata
  rw [fillCache, hsbuf, if_neg (by rintro ⟨⟨⟩, -⟩), bind_some]
  simp only [hplain, false_or, if_true]

theorem metaDataSerialize_shortened (hshort : Shortens zlib md buffer.length) :
    ∃ full target, Complete zlib md full ∧ target.length = buffer.length ∧
      target.take full.length = full ∧
      metaDataSerialize zlib md (some buffer) buffer.length ⟨true, false⟩ =
        some (.written target full.length, md) := by
  obtain ⟨_, _, -, hserialize⟩ := metaDataSerialize_long hmd h hbuffer hlong
  obtain ⟨hroom, short, hcompress, hlt, _⟩ := hshort
  have htry : tryCompression zlib (payload md.items) = some (some short) := by
    rw [tryCompression, length_payload, if_pos hroom, hcompress, filter_some,
      if_pos (decide_eq_true hlt)]
  let full := serialization md.itemCount (payloadSize md.items) (some short) (payload md.items)
  have hfull : full.length = sizeofMetaDataHeader + short.length := length_serialization _ _ _ _
  have hcomplete : Complete zlib md full := by
    refine ⟨h.1.1, some short, ?_, rfl⟩
    rintro _ ⟨⟩
    exact ⟨hcompress, hlt⟩
  have hallocated : full.length ≤ maxMallocChecked := hcomplete.length_le.trans h.1.1
  refine ⟨full, full ++ buffer.drop full.length, hcomplete, ?_, take_left, ?_⟩
  · rw [length_append, length_drop]
    omega
  · rw [hserialize, htry, bind_some,
      if_pos ⟨rfl, by change short.length ≤ _; omega⟩]
    change (if full.length ≤ maxMallocChecked then (handOver (some buffer) full
      (short.length + sizeofMetaDataHeader)).map (·, md) else none) = _
    rw [if_pos hallocated, add_comm, ← hfull, handOver_length (by omega), map_some]

theorem length_lt_of_part {length : ℕ}
    (hserialize : metaDataSerialize zlib md (some buffer) buffer.length ⟨true, false⟩ =
      some (.written target length, next))
    (hshort : ¬Shortens zlib md buffer.length) :
    target.length = buffer.length ∧
      ∀ copy, metaDataDeserialize zlib (target.take length) = some (some copy) →
        copy.items.length < md.items.length := by
  obtain ⟨_, rest, hreverse, heq⟩ := metaDataSerialize_long hmd h hbuffer hlong
  rw [heq] at hserialize
  obtain ⟨cdata, htry, hserialize⟩ := bind_eq_some_iff.mp hserialize
  have hrest : rest.length + 1 = md.items.length := by
    rw [← List.length_cons, ← hreverse, List.length_reverse]
  by_cases hfits : cdata.isSome ∧ (cdata.map List.length).getD 0 ≤ buffer.length
  · obtain ⟨short, rfl⟩ := isSome_iff_exists.mp hfits.1
    dsimp only at hserialize
    split_ifs at hserialize
    obtain ⟨_, hwritten, -⟩ := map_eq_some_iff.mp hserialize
    have hroom := (ite_none_right_eq_some.mp hwritten).1.2
    -- the whole serialization was copied, so that it would have been short enough
    have hcompress : zlib.compress (payload md.items) = some short ∧
        short.length < payloadSize md.items := by
      have hallowed : (if (⟨true, false⟩ : SerializationOptions).noCompress then some none
          else tryCompression zlib (payload md.items)) = some (some short) := htry
      exact mem_of_tryCompression hallowed rfl
    refine absurd ⟨?_, short, hcompress.1, hcompress.2, ?_⟩ hshort
    · by_contra hlarge
      rw [tryCompression, length_payload, if_neg hlarge] at htry
      cases htry
    · rw [map_some, getD_some] at hroom
      omega
  · rw [if_neg hfits] at hserialize
    obtain ⟨hheader, hlength⟩ := headerEntries_serializeFrom
      (show 0 + 1 + rest.length = md.itemCount.toNat by rw [hmd.count_eq]; omega) hserialize
    refine ⟨hlength, fun copy hcopy ↦ ?_⟩
    have hcount := length_deserialize hcopy
    have hmdcount := hmd.count_eq
    omega

end

end Part

theorem WellFormed.congr {md : Container} (h : WellFormed md) (hitems : next.items = md.items)
    (hcount : next.itemCount = md.itemCount) : WellFormed next := by
  refine ⟨?_, ?_, ?_⟩
  · rw [hitems]
    exact h.sorted
  · rw [hcount, hitems]
    exact h.count_eq
  · rw [hitems]
    exact h.stored

theorem Complete.congr {zlib : Zlib} {md : Container} (h : Complete zlib next bytes)
    (hitems : next.items = md.items) (hcount : next.itemCount = md.itemCount) :
    Complete zlib md bytes := by
  unfold Complete at h ⊢
  rw [hitems, hcount] at h
  exact h

end Gnunet.Util.MetaData
