import Gnunet.Fs.DirectoryEntries
import Gnunet.Fs.DirectoryLayout
import Gnunet.Fs.UriParsing

/-!
# Directories are read back

A finished directory consists of its own meta data and of the entries in the order and at the places
that the packer chose. Whatever their sizes are, the reader comes to each entry once. Whether it
then finds what was added depends on the meta data of the entry alone, so that a directory is
restored just if its own meta data can be written and all its entries survive.
-/

namespace Gnunet.Fs.Directory

open Util Util.MetaData List Option UInt32 Nat
open Lib.NetworkOrder
open Lib.AlignedLayout hiding layOut
open Lib (AlignedLayout.layOut)
open Fs.KeywordUri (bytes scanTwo uriParse uriPrefix)
open Fs.UriEquality (OtherUri)
open Fs.UriParsing (Library fileParsers)

variable {O : Type} {platform : Platform O}

/-- At most the items are read, and all of them just if the entry survives. -/
structure Written (platform : Platform O) (e : Entry O) (full : List UInt8) : Prop where
  valid : e.Valid platform
  length_le : full.length ≤ maxBuffer
  items_le : ∀ copy, metaDataDeserialize platform.zlib full = some (some copy) →
    copy.items.length ≤ (e.items platform).length
  survives : ∀ copy, metaDataDeserialize platform.zlib full = some (some copy) →
    copy.items.length = (e.items platform).length → e.Survives platform
  restores : e.Survives platform → ∃ copy,
    metaDataDeserialize platform.zlib full = some (some copy) ∧
      copy.items.Perm (e.items platform)

variable {e : Entry O} {entries : List (Entry O)} {bld : DirectoryBuilder} {md : Container}

theorem Written.readable {full : List UInt8} (h : Written platform e full) :
    Readable platform e.uri full :=
  ⟨h.valid.zero, h.valid.parse, h.length_le.trans_lt (by decide)⟩

theorem entryBytes_inj {uris first second : List UInt8}
    (h : entryBytes uris first = entryBytes uris second) : first = second := by
  have htail := (cons.inj (append_cancel_left h)).2
  exact (append_inj htail (by rw [length_htonl, length_htonl])).2

theorem Entry.Valid.exists_written {block : List UInt8} (h : e.Valid platform)
    (hblock : serializeEntry platform e = some block) :
    ∃ full, block = bytesOf platform (e.uri, full) ∧ Written platform e full := by
  obtain ⟨full, hfull, hlength, hcopy⟩ := h.written hblock
  refine ⟨full, hfull, h, hlength, fun copy hread ↦ (hcopy copy hread).1,
    fun copy hread ↦ (hcopy copy hread).2, fun hsurvives ↦ ?_⟩
  obtain ⟨_, copy, hblock', -, hcopy', hperm⟩ := hsurvives.restores h
  rw [hblock, hfull] at hblock'
  rw [← entryBytes_inj (some.inj hblock')] at hcopy'
  exact ⟨copy, hcopy', hperm⟩

theorem foldlM_builderAdd {next : DirectoryBuilder} :
    entries.foldlM (builderAdd platform) bld = some next ↔
      ∃ blocks, Forall₂ (fun e block ↦ serializeEntry platform e = some block) entries blocks ∧
        next = ⟨bld.md, blocks.reverse ++ bld.entries, bld.count + ofNat blocks.length⟩ := by
  induction entries generalizing bld with
  | nil =>
    constructor
    · rintro ⟨⟩
      exact ⟨[], .nil, by simp⟩
    · rintro ⟨blocks, hblocks, rfl⟩
      cases hblocks
      simp
  | cons e entries ih =>
    constructor
    · intro h
      obtain ⟨_, hmid, h⟩ := bind_eq_some_iff.mp h
      obtain ⟨block, hblock, rfl⟩ := map_eq_some_iff.mp hmid
      obtain ⟨blocks, hblocks, rfl⟩ := ih.mp h
      refine ⟨block :: blocks, .cons hblock hblocks, ?_⟩
      simp [UInt32.add_assoc, UInt32.add_comm 1]
    · rintro ⟨blocks, hblocks, rfl⟩
      cases hblocks with
      | cons hblock hblocks =>
        refine bind_eq_some_iff.mpr ⟨_, map_eq_some_iff.mpr ⟨_, hblock, rfl⟩, ?_⟩
        refine ih.mpr ⟨_, hblocks, ?_⟩
        simp [UInt32.add_assoc, UInt32.add_comm 1]

def directoryHeader (mdBytes : List UInt8) : List UInt8 :=
  directoryMagic ++ htonl (ofNat mdBytes.length) ++ mdBytes

def directoryBytes (mdBytes : List UInt8) (perm : List (List UInt8)) : List UInt8 :=
  directoryHeader mdBytes ++
    AlignedLayout.layOut alignedPlacement 0 (directoryHeader mdBytes).length perm

theorem length_directoryHeader (mdBytes : List UInt8) :
    (directoryHeader mdBytes).length = directoryMagic.length + 4 + mdBytes.length := by
  rw [directoryHeader, length_append, length_append, length_htonl]

/-- The directory is finished, in an order that the packer chooses. -/
theorem builderFinish_eq (hwell : WellFormed bld.md) (hsbuf : bld.md.sbuf = none)
    (hfits : Fits ⟨false, false⟩ (payloadSize bld.md.items))
    (hcount : bld.count.toNat ≤ bld.entries.length) :
    ∃ mdBytes perm, Complete platform.zlib bld.md mdBytes ∧
      perm.Perm (bld.entries.take bld.count.toNat) ∧
      builderFinish platform bld =
        if bld.count.toNat * 8 ≤ maxMallocChecked then some (directoryBytes mdBytes perm)
        else none := by
  have hsmall := lt_maxMallocChecked hfits.1
  obtain ⟨_, hnext, hitems, hcountNext, hsome⟩ :=
    metaDataGetSerializedSize_eq hwell (cacheValid_of_none hsbuf) (.inr (.inr hfits))
  have hsize : ∃ n, serializedSize platform.zlib bld.md = some n := by
    rw [serializedSize, hsbuf]
    exact ⟨_, if_pos hsmall⟩
  obtain ⟨n, hn⟩ := hsize
  obtain ⟨mdBytes, rfl, hprepared⟩ := hsome n hn
  have hlengthTake : (bld.entries.take bld.count.toNat).length = bld.count.toNat := by
    rw [length_take, min_eq_left hcount]
  obtain ⟨perm, hperm, hpermTake⟩ := blockAlign_perm (bld.entries.take bld.count.toNat)
    (directoryMagic.length + 4 + mdBytes.length)
  rw [hlengthTake] at hperm
  refine ⟨mdBytes, perm, hprepared.1.congr hitems hcountNext, hpermTake, ?_⟩
  unfold builderFinish
  rw [hnext, bind_some, hn]
  dsimp only
  split_ifs
  · rw [hperm, bind_some, foldl_doAlign]
    -- the buffer for the meta data reaches to the end of the directory
    have hend := layOutEnd_eq alignedPlacement (0 : UInt8)
      (directoryMagic.length + 4 + mdBytes.length) perm
    set gap := (AlignedLayout.layOut alignedPlacement 0
      (directoryMagic.length + 4 + mdBytes.length) perm).length with hgap
    have hbuffer : layOutEnd alignedPlacement (directoryMagic.length + 4 + mdBytes.length) perm -
        directoryMagic.length - 4 = mdBytes.length + gap := by omega
    have hmax : directoryMagic.length + 4 ≤
        layOutEnd alignedPlacement (directoryMagic.length + 4 + mdBytes.length) perm := by omega
    have hfit : mdBytes.length ≤ (replicate (mdBytes.length + gap) (0 : UInt8)).length := by
      rw [length_replicate]
      exact le_add_right _ _
    have hserialize := metaDataSerialize_prepared (hwell.congr hitems hcountNext) hprepared hfit
    rw [length_replicate, drop_replicate, Nat.add_sub_cancel_left] at hserialize
    rw [hbuffer, if_pos hmax, hserialize, bind_some]
    dsimp only
    rw [placeEntries_eq]
    have hheader : directoryMagic ++ htonl (ofNat mdBytes.length) ++ (mdBytes ++ replicate gap 0) =
        directoryHeader mdBytes ++ replicate gap 0 := by
      rw [directoryHeader, append_assoc, append_assoc, append_assoc]
    rw [if_pos rfl, hheader, ← length_directoryHeader, writeParts_eq]
    · rfl
    · rw [length_directoryHeader, hend]
  · rfl

theorem builderFinish_none (hmd : Regular platform bld.md) (hsbuf : bld.md.sbuf = none)
    (hfits : ¬Fits ⟨false, false⟩ (payloadSize bld.md.items)) :
    builderFinish platform bld = none := by
  by_cases hlarge : maxMallocChecked ≤ payloadSize bld.md.items
  · unfold builderFinish
    rw [metaDataGetSerializedSize_large hsbuf hlarge, bind_some]
    dsimp only
    split_ifs
    · simp only [metaDataSerialize_large hsbuf hlarge]
      exact bind_fun_none _
    · rfl
  · have hunsizeable : ¬Sizeable bld.md := by
      unfold Sizeable
      rw [hsbuf]
      rintro (hsome | hother)
      · cases hsome
      · exact hother.elim hlarge hfits
    have hwell := (hmd.resolve_right fun h ↦ hlarge h.2).1
    unfold builderFinish
    rw [metaDataGetSerializedSize_none hwell hunsizeable]
    rfl

theorem Regular.wellFormed (h : Regular platform md)
    (hfits : Fits ⟨false, false⟩ (payloadSize md.items)) : WellFormed md := by
  exact (h.resolve_right fun hlarge ↦ absurd hlarge.2 (not_le.mpr (lt_maxMallocChecked hfits.1))).1

theorem regular_makeDirectory {next : Container} (hmd : WellFormed md) (hdistinct : Distinct md)
    (hsbuf : md.sbuf = none) (h : makeDirectory md = some next) :
    Regular platform next ∧ next.sbuf = none := by
  unfold makeDirectory at h
  split at h
  · cases h
    exact ⟨.inl ⟨hmd, cacheValid_of_none hsbuf⟩, hsbuf⟩
  · obtain ⟨⟨_, next⟩, hinsert, rfl⟩ := map_eq_some_iff.mp h
    have hstored : directoryItem.Stored := ⟨by decide, rfl⟩
    exact ⟨WellFormed.regular_insert hmd hdistinct hsbuf hstored hinsert,
      sbuf_metaDataInsert hinsert hsbuf⟩

theorem regular_directoryMeta {mdir : Option Container} (hmdir : ∀ md ∈ mdir, WellFormed md)
    (h : directoryMeta mdir = some md) :
    Regular platform md ∧ md.sbuf = none := by
  cases mdir with
  | none => exact regular_makeDirectory wellFormed_create distinct_create rfl h
  | some mdir =>
    obtain ⟨_, hcopy, hwell, hdistinct, -⟩ := metaDataDuplicate_eq (hmdir mdir rfl)
    rw [directoryMeta, hcopy] at h
    exact regular_makeDirectory hwell hdistinct (sbuf_metaDataDuplicate hcopy) h

/-- The reader finds the meta data of the directory and then all entries. -/
theorem listContents_directoryBytes {mdBytes : List UInt8} (hmd : WellFormed md)
    (hcomplete : Complete platform.zlib md mdBytes) (pairs : List (O × List UInt8))
    (hreadable : ∀ pair ∈ pairs, Readable platform pair.1 pair.2) :
    ∃ copy, listContents platform (directoryBytes mdBytes (pairs.map (bytesOf platform))) 0 =
      readAll platform pairs [.directory copy] := by
  obtain ⟨copy, hcopy, -⟩ := deserialize_complete hmd hcomplete
  have hsize : mdBytes.length < 2 ^ 32 := by
    have hle := hcomplete.length_le
    have hroom := hcomplete.1
    unfold maxMallocChecked at hroom
    omega
  set cdata := directoryBytes mdBytes (pairs.map (bytesOf platform)) with hcdata
  have hmagic : directoryMagic.length = 8 := rfl
  set body := AlignedLayout.layOut alignedPlacement 0 (directoryHeader mdBytes).length
    (pairs.map (bytesOf platform)) with hbody
  have hdropMagic : cdata.drop 8 = htonl (ofNat mdBytes.length) ++ (mdBytes ++ body) := by
    exact drop_left' hmagic
  have hmdSize : (ntohl ((cdata.drop 8).take 4)).toNat = mdBytes.length := by
    rw [hdropMagic, take_left' (length_htonl _), ntohl_htonl, toNat_ofNat', mod_eq_of_lt hsize]
  have hdropMeta : cdata.drop (8 + 4) = mdBytes ++ body := by
    rw [← drop_drop]
    exact drop_left' (length_htonl _)
  have hdropEntries : cdata.drop (8 + 4 + mdBytes.length) =
      AlignedLayout.layOut alignedPlacement 0 (8 + 4 + mdBytes.length)
        (pairs.map (bytesOf platform)) := by
    rw [← drop_drop, hdropMeta, drop_left' rfl, hbody, length_directoryHeader, hmagic]
  have hlength : 8 + 4 + mdBytes.length ≤ cdata.length := by
    rw [hcdata, directoryBytes, length_append, length_directoryHeader]
    exact le_add_right _ _
  have htakeMagic : cdata.take 8 = directoryMagic := by
    exact take_left' hmagic
  refine ⟨copy, ?_⟩
  have hlarge : ¬(cdata.length < 8 + 4 ∨ cdata.take 8 ≠ directoryMagic) :=
    fun h ↦ h.elim (fun hlt ↦ by omega) fun hne ↦ hne htakeMagic
  rw [listContents, if_pos rfl, if_neg hlarge, hmdSize]
  rw [if_neg (by omega), hdropMeta, take_left' rfl, hcopy]
  exact listLoop_layOut pairs hreadable hdropEntries hlength (sub_le _ _)

variable (platform) in
/-- Its URI, its items with the data of the file if they were put into the entry, and these data
unless the meta data had some of their own. -/
def Reported (e : Entry O) : Report O → Prop
  | .directory _ => False
  | .entry filename uri md data =>
    filename = metaDataGetByType md originalFilenameType ∧ uri = e.uri ∧
      md.items.Perm (e.items platform) ∧
      ((∀ item ∈ e.md.items, item.type ≠ platform.fullDataType) →
        data = if e.inlined platform then e.inline else [])

variable (platform) in
def Reports (entries : List (Entry O)) (reports : List (Report O)) : Prop :=
  ∃ arranged : List (Entry O), arranged.Perm entries ∧ Forall₂ (Reported platform) arranged reports

theorem findFullData_of_perm {copy : Container} (hperm : copy.items.Perm (e.items platform))
    (htype : ∀ item ∈ e.md.items, item.type ≠ platform.fullDataType) :
    findFullData platform copy = if e.inlined platform then e.inline else [] := by
  have hnone : (∀ item ∈ copy.items, item.type ≠ platform.fullDataType) →
      findFullData platform copy = [] := by
    intro hall
    have hfind : copy.items.find? (fun item ↦ item.type = platform.fullDataType) = none :=
      find?_eq_none.mpr fun item hmem ↦ by simpa using hall item hmem
    rw [findFullData, hfind]
  by_cases hinlined : e.inlined platform = true
  · have hkey : (fullDataItem platform e.inline).key ∉ e.md.items.map MetaItem.key := by
      intro hmem
      obtain ⟨item, hitem, hkey⟩ := mem_map.mp hmem
      exact htype item hitem (congrArg (fun key ↦ key.1) hkey)
    have hitems : e.items platform = fullDataItem platform e.inline :: e.md.items := by
      rw [Entry.items, if_pos hinlined]
      exact if_neg hkey
    rw [if_pos hinlined, findFullData]
    cases hfind : copy.items.find? (fun item ↦ item.type = platform.fullDataType) with
    | none =>
      have hmem : fullDataItem platform e.inline ∈ copy.items :=
        hperm.mem_iff.mpr (hitems ▸ mem_cons_self)
      exact absurd (decide_eq_true rfl) (find?_eq_none.mp hfind _ hmem)
    | some item =>
      have hmem := hperm.mem_iff.mp (mem_of_find?_eq_some hfind)
      rw [hitems] at hmem
      have hfull : item.type = platform.fullDataType := by simpa using find?_some hfind
      rcases mem_cons.mp hmem with rfl | hmem
      · rfl
      · exact absurd hfull (htype item hmem)
  · rw [if_neg hinlined]
    rw [Entry.items, if_neg hinlined] at hperm
    exact hnone fun item hmem ↦ htype item (hperm.mem_iff.mp hmem)

theorem reported_reportOf {copy : Container} (hperm : copy.items.Perm (e.items platform)) :
    Reported platform e (reportOf platform e.uri copy) :=
  ⟨rfl, rfl, hperm, findFullData_of_perm hperm⟩

def Report.itemCount : Report O → ℕ
  | .directory md => md.items.length
  | .entry _ _ md _ => md.items.length

variable {arranged : List (Entry O)} {reports : List (Report O)}

theorem readAll_survives {pairs : List (O × List UInt8)}
    (h : Forall₂ (fun e pair ↦ pair.1 = e.uri ∧ Written platform e pair.2) arranged pairs)
    (hsurvives : ∀ e ∈ arranged, e.Survives platform) (reports : List (Report O)) :
    ∃ more, readAll platform pairs reports = some (.ok, reports ++ more) ∧
      Forall₂ (Reported platform) arranged more := by
  induction h generalizing reports with
  | nil => exact ⟨[], by rw [readAll, append_nil], .nil⟩
  | @cons e pair arranged pairs hpair hrest ih =>
    obtain ⟨_, _⟩ := pair
    obtain ⟨rfl, hwritten⟩ := hpair
    obtain ⟨copy, hcopy, hperm⟩ := hwritten.restores (hsurvives e mem_cons_self)
    obtain ⟨more, hmore, hreported⟩ := ih (fun e hmem ↦ hsurvives e (mem_cons_of_mem _ hmem))
      (reports ++ [reportOf platform e.uri copy])
    refine ⟨reportOf platform e.uri copy :: more, ?_, .cons (reported_reportOf hperm) hreported⟩
    rw [readAll]
    rw [hcopy]
    dsimp only
    rw [hmore, append_assoc, singleton_append]

theorem readAll_items {pairs : List (O × List UInt8)}
    (h : Forall₂ (fun e pair ↦ pair.1 = e.uri ∧ Written platform e pair.2) arranged pairs)
    {all : List (Report O)} (hread : readAll platform pairs reports = some (.ok, all)) :
    ∃ more, all = reports ++ more ∧
      Forall₂ (fun e report ↦ report.itemCount ≤ (e.items platform).length ∧
        (report.itemCount = (e.items platform).length → e.Survives platform)) arranged more := by
  induction h generalizing reports with
  | nil =>
    cases hread
    exact ⟨[], (append_nil _).symm, .nil⟩
  | @cons e pair arranged pairs hpair hrest ih =>
    obtain ⟨_, full⟩ := pair
    obtain ⟨rfl, hwritten⟩ := hpair
    rw [readAll] at hread
    cases hcopy : metaDataDeserialize platform.zlib full with
    | none =>
      rw [hcopy] at hread
      cases hread
    | some copy =>
      rw [hcopy] at hread
      cases copy with
      | none => cases hread
      | some copy =>
        obtain ⟨more, rfl, hmore⟩ := ih hread
        refine ⟨reportOf platform e.uri copy :: more, ?_, .cons ⟨?_, ?_⟩ hmore⟩
        · rw [append_assoc, singleton_append]
        · exact hwritten.items_le copy hcopy
        · exact hwritten.survives copy hcopy

theorem exists_pairs {perm : List (List UInt8)}
    (h : Forall₂ (fun block e ↦ ∃ full, block = bytesOf platform (e.uri, full) ∧
      Written platform e full) perm arranged) :
    ∃ pairs, perm = pairs.map (bytesOf platform) ∧
      (∀ pair ∈ pairs, Readable platform pair.1 pair.2) ∧
      Forall₂ (fun e pair ↦ pair.1 = e.uri ∧ Written platform e pair.2) arranged pairs := by
  induction h with
  | nil => exact ⟨[], rfl, nofun, .nil⟩
  | @cons block e perm arranged hblock hrest ih =>
    obtain ⟨full, rfl, hwritten⟩ := hblock
    obtain ⟨pairs, rfl, hreadable, hpairs⟩ := ih
    exact ⟨(e.uri, full) :: pairs, rfl,
      forall_mem_cons.mpr ⟨hwritten.readable, hreadable⟩, .cons ⟨rfl, hwritten⟩ hpairs⟩

theorem exists_blocks (hvalid : ∀ e ∈ entries, e.Valid platform)
    (hsurvives : ∀ e ∈ entries, e.Survives platform) :
    ∃ blocks, Forall₂ (fun e block ↦ serializeEntry platform e = some block) entries
      blocks := by
  induction entries with
  | nil => exact ⟨[], .nil⟩
  | cons e entries ih =>
    rw [forall_mem_cons] at hvalid hsurvives
    obtain ⟨blocks, hblocks⟩ := ih hvalid.2 hsurvives.2
    obtain ⟨_, -, hblock, -⟩ := hsurvives.1.restores hvalid.1
    exact ⟨_ :: blocks, .cons hblock hblocks⟩

/-- A finished directory is read in the order that the packer chose. If the counter of the entries
wraps, the last ones are missing. -/
theorem finished_cases {blocks : List (List UInt8)} (hwell : WellFormed md)
    (hsbuf : md.sbuf = none) (hfits : Fits ⟨false, false⟩ (payloadSize md.items))
    (hvalid : ∀ e ∈ entries, e.Valid platform)
    (hblocks : Forall₂ (fun e block ↦ serializeEntry platform e = some block) entries blocks) :
    ∃ data copy arranged pairs,
      builderFinish platform ⟨md, blocks.reverse ++ [], 0 + ofNat blocks.length⟩ =
        (if entries.length % 2 ^ 32 * 8 ≤ maxMallocChecked then some data else none) ∧
      listContents platform data 0 = readAll platform pairs [.directory copy] ∧
      arranged.Perm (entries.reverse.take (entries.length % 2 ^ 32)) ∧
      Forall₂ (fun e pair ↦ pair.1 = e.uri ∧ Written platform e pair.2) arranged pairs := by
  have hcount : (0 + ofNat blocks.length).toNat = entries.length % 2 ^ 32 := by
    rw [UInt32.zero_add, UInt32.toNat_ofNat', hblocks.length_eq]
  have hle : entries.length % 2 ^ 32 ≤ (blocks.reverse ++ []).length := by
    rw [append_nil, length_reverse, ← hblocks.length_eq]
    exact mod_le _ _
  obtain ⟨_, _, hcomplete, hperm, hfinish⟩ :=
    @builderFinish_eq O platform ⟨md, blocks.reverse ++ [], 0 + ofNat blocks.length⟩
      hwell hsbuf hfits (hcount.symm ▸ hle)
  rw [hcount] at hperm hfinish
  rw [append_nil] at hperm
  have hwritten := forall₂_reverse_iff.mpr (Forall₂.flip
    (((forall₂_and_left _ _).mpr ⟨hvalid, hblocks⟩).imp fun e block h ↦ h.1.exists_written h.2))
  obtain ⟨arranged, harranged, hpermEntries⟩ :=
    perm_comp_forall₂ hperm (forall₂_take _ hwritten)
  obtain ⟨pairs, rfl, hreadable, hpairs⟩ := exists_pairs harranged
  obtain ⟨copy, hcopy⟩ := listContents_directoryBytes hwell hcomplete pairs hreadable
  exact ⟨_, copy, arranged, pairs, hfinish, hcopy, hpermEntries, hpairs⟩

theorem survives_of_sum (h : Forall₂ (fun e report ↦ report.itemCount ≤ (e.items platform).length ∧
      (report.itemCount = (e.items platform).length → e.Survives platform)) arranged reports) :
    (reports.map Report.itemCount).sum ≤ (arranged.map fun e ↦ (e.items platform).length).sum ∧
      ((arranged.map fun e ↦ (e.items platform).length).sum ≤ (reports.map Report.itemCount).sum →
        ∀ e ∈ arranged, e.Survives platform) := by
  induction h with
  | nil => exact ⟨le_rfl, fun _ ↦ nofun⟩
  | cons hfirst _ ih =>
    rw [map_cons, sum_cons, map_cons, sum_cons]
    refine ⟨Nat.add_le_add hfirst.1 ih.1, fun hsum ↦ forall_mem_cons.mpr ⟨hfirst.2 ?_, ih.2 ?_⟩⟩
    · omega
    · omega

theorem sum_of_reports (h : Forall₂ (Reported platform) entries reports) :
    (reports.map Report.itemCount).sum = (entries.map fun e ↦ (e.items platform).length).sum := by
  induction h with
  | nil => rfl
  | @cons e report entries reports hfirst hrest ih =>
    rw [map_cons, map_cons, sum_cons, ih]
    cases report with
    | directory md => exact hfirst.elim
    | entry filename uri md data =>
      have hlength := hfirst.2.2.1.length_eq
      rw [← hlength]
      rfl

/-- A directory is built without a stop and read back with just its entries if, and only if, its
own meta data and the table of the entries can be allocated and each entry survives. -/
theorem directory_restores_iff (platform : Platform O) {mdir : Option Container}
    {entries : List (Entry O)} (hmdir : ∀ md ∈ mdir, WellFormed md)
    (hentries : ∀ e ∈ entries, e.Valid platform) :
    (∃ data md reports, buildDirectory platform mdir entries = some data ∧
      listContents platform data 0 = some (.ok, .directory md :: reports) ∧
      Reports platform entries reports) ↔
    (∃ md, directoryMeta mdir = some md ∧ Fits ⟨false, false⟩ (payloadSize md.items)) ∧
      entries.length * 8 ≤ maxMallocChecked ∧ ∀ e ∈ entries, e.Survives platform := by
  constructor
  · rintro ⟨data, md, reports, hbuild, hlist, permuted, hpermuted, hreported⟩
    obtain ⟨_, hcreate, hbuild⟩ := bind_eq_some_iff.mp hbuild
    obtain ⟨_, hadd, hfinish⟩ := bind_eq_some_iff.mp hbuild
    obtain ⟨dirMd, hmeta, rfl⟩ := map_eq_some_iff.mp hcreate
    obtain ⟨blocks, hblocks, rfl⟩ := foldlM_builderAdd.mp hadd
    obtain ⟨hregular, hsbuf⟩ := @regular_directoryMeta O platform _ _ hmdir hmeta
    have hfits : Fits ⟨false, false⟩ (payloadSize dirMd.items) := by
      by_contra hnot
      rw [builderFinish_none hregular hsbuf hnot] at hfinish
      cases hfinish
    obtain ⟨_, copy, arranged, pairs, hfinished, hread, hperm, hpairs⟩ :=
      finished_cases (hregular.wellFormed hfits) hsbuf hfits hentries hblocks
    rw [hfinished] at hfinish
    split_ifs at hfinish with hroom
    cases hfinish
    rw [hread] at hlist
    obtain ⟨more, hmore, hitems⟩ := readAll_items hpairs hlist
    obtain ⟨-, rfl⟩ := cons.inj hmore
    -- as many reports as entries, so that the counter has not wrapped
    have hcount : entries.length % 2 ^ 32 = entries.length := by
      have harranged := hitems.length_eq
      have hlength := hperm.length_eq
      rw [length_take, length_reverse, min_eq_left (mod_le _ _)] at hlength
      rw [← hlength, harranged, ← hreported.length_eq, hpermuted.length_eq]
    rw [hcount] at hroom hperm
    rw [← length_reverse, take_length] at hperm
    have hpermEntries := hperm.trans (reverse_perm entries)
    refine ⟨⟨dirMd, hmeta, hfits⟩, hroom, fun e hmem ↦ ?_⟩
    refine (survives_of_sum hitems).2 ?_ e (hpermEntries.mem_iff.mpr hmem)
    have hsame := ((hpermEntries.trans hpermuted.symm).map
      fun e ↦ (e.items platform).length).sum_nat
    rw [sum_of_reports hreported, hsame]
  · rintro ⟨⟨dirMd, hmeta, hfits⟩, hroom, hsurvives⟩
    obtain ⟨blocks, hblocks⟩ := exists_blocks hentries hsurvives
    obtain ⟨hregular, hsbuf⟩ := @regular_directoryMeta O platform _ _ hmdir hmeta
    obtain ⟨data, copy, arranged, pairs, hfinished, hread, hperm, hpairs⟩ :=
      finished_cases (hregular.wellFormed hfits) hsbuf hfits hentries hblocks
    have hcount : entries.length % 2 ^ 32 = entries.length := by
      unfold maxMallocChecked at hroom
      exact mod_eq_of_lt (by omega)
    rw [hcount] at hfinished hperm
    rw [← length_reverse, take_length] at hperm
    have hpermEntries := hperm.trans (reverse_perm entries)
    obtain ⟨more, hmore, hreported⟩ := readAll_survives hpairs
      (fun e hmem ↦ hsurvives e (hpermEntries.mem_iff.mp hmem)) [.directory copy]
    refine ⟨data, copy, more, ?_, by rw [hread, hmore]; rfl, arranged, hpermEntries, hreported⟩
    have hcreate : builderCreate mdir = some ⟨dirMd, [], 0⟩ := by
      rw [builderCreate, hmeta, map_some]
    rw [buildDirectory, hcreate, bind_some,
      foldlM_builderAdd.mpr ⟨blocks, hblocks, rfl⟩, bind_some, hfinished, if_pos hroom]

def asciiLibrary : Library where
  toUpper text :=
    if text.all (· < 128) then
      some (text.map fun c ↦ if 97 ≤ c ∧ c ≤ 122 then c - 32 else c)
    else none
  scanNumber text :=
    let digits := text.takeWhile fun c ↦ 48 ≤ c ∧ c ≤ 57
    if digits = [] then none
    else some (digits.foldl (fun number c ↦ number * 10 + (c - 48).toUInt64) 0)
  verify _ := false

def zeroUri (fileLength : UInt64) : OtherUri :=
  .chk ⟨fileLength, ⟨.replicate 64 0, .replicate 64 0⟩⟩

def zeroText (fileLength : UInt64) : List UInt8 :=
  uriPrefix ++ bytes "chk/" ++ replicate 103 48 ++ 46 :: replicate 103 48 ++
    46 :: bytes (toString fileLength)

def zeroFiles : Platform OtherUri where
  zlib := storingZlib
  scan := scanTwo
  parsers := fileParsers asciiLibrary
  uriToString
    | .chk fi => zeroText fi.fileLength
    | _ => []
  fileSize
    | .chk fi => some fi.fileLength.toNat
    | _ => none
  fullDataType := 174
  fullDataType_ne := by decide

def noteEntry (fileLength : UInt64) (format : MetaFormat) (data : Option (List UInt8)) :
    Entry OtherUri :=
  ⟨zeroUri fileLength, ⟨[⟨none, none, bytes "note" ++ [0], 2, format⟩], none, 1⟩, data⟩

theorem valid_noteEntry {fileLength : UInt64} {data : Option (List UInt8)} (format : MetaFormat)
    (hzero : 0 ∉ zeroText fileLength) (hparse : uriParse scanTwo (fileParsers asciiLibrary)
      (zeroText fileLength) = .ok (.other (zeroUri fileLength)))
    (hdata : ∀ bytes ∈ data, bytes.length = fileLength.toNat) :
    (noteEntry fileLength format data).Valid zeroFiles where
  wellFormed := by
    refine ⟨pairwise_singleton _ _, rfl, ?_⟩
    intro item hitem
    cases mem_singleton.mp hitem
    have hlength : (bytes "note" ++ [0]).length ≤ maxMallocChecked := by decide
    exact ⟨⟨nofun, nofun, hlength⟩, rfl⟩
  cache := nofun
  zero := hzero
  parse := hparse
  data bytes hbytes := congrArg some (hdata bytes hbytes).symm

/-- Two files, of which one has data that are put into its entry. -/
def noteEntries : List (Entry OtherUri) :=
  [noteEntry 3 .utf8 (some (bytes "abc")), noteEntry 70000 .cString none]

theorem directory_restores_notes :
    ∃ data md reports, buildDirectory zeroFiles none noteEntries = some data ∧
      listContents zeroFiles data 0 = some (.ok, .directory md :: reports) ∧
      Reports zeroFiles noteEntries reports := by
  have hmdir : ∀ md ∈ (none : Option Container), WellFormed md := fun md hmd ↦ nomatch hmd
  have hvalid : ∀ e ∈ noteEntries, e.Valid zeroFiles := by
    rw [noteEntries, forall_mem_cons, forall_mem_singleton]
    refine ⟨valid_noteEntry _ (by decide +kernel) (by decide +kernel) ?_,
      valid_noteEntry _ (by decide +kernel) (by decide +kernel) nofun⟩
    intro data hdata
    cases hdata
    rfl
  have hwith : withData zeroFiles (noteEntry 3 .utf8 (some (bytes "abc"))).md (bytes "abc") =
      some ⟨[⟨none, none, bytes "note" ++ [0], 2, .utf8⟩, fullDataItem zeroFiles (bytes "abc")],
        none, 2⟩ := rfl
  refine (directory_restores_iff zeroFiles hmdir hvalid).mpr
    ⟨⟨_, rfl, by decide, fun _ ↦ by decide⟩, by decide, ?_⟩
  rw [noteEntries, forall_mem_cons, forall_mem_singleton]
  have hitem (format : MetaFormat) (hformat : format ≠ .unknown) :
      ∀ item ∈ [⟨none, none, bytes "note" ++ [0], 2, format⟩], Serializable item := by
    intro item hitem
    cases mem_singleton.mp hitem
    exact ⟨hformat, fun _ ↦ rfl⟩
  refine ⟨⟨nodup_singleton _, hitem _ nofun, ?_, ?_, ?_⟩,
    ⟨nodup_singleton _, hitem _ nofun, ?_, ?_, ?_⟩⟩
  · exact .inr (.inr ⟨by decide, fun _ ↦ by decide⟩)
  · intro _ md hmd
    cases hwith.symm.trans hmd
    exact .inr (.inr ⟨by decide, fun _ ↦ by decide⟩)
  · rw [if_pos (by decide +kernel)]
    intro md hmd
    cases hwith.symm.trans hmd
    exact ⟨_, rfl, .inl (by decide), by decide +kernel⟩
  · exact .inr (.inr ⟨by decide, fun _ ↦ by decide⟩)
  · exact fun hdata ↦ absurd rfl hdata
  · rw [if_neg (by decide +kernel)]
    exact ⟨_, rfl, .inl (by decide), by decide +kernel⟩

/-- A file whose only item is of the unknown format is reported without it. -/
theorem unknown_item_lost :
    (noteEntry 3 .unknown none).Valid zeroFiles ∧
    ¬∃ data md reports, buildDirectory zeroFiles none [noteEntry 3 .unknown none] = some data ∧
      listContents zeroFiles data 0 = some (.ok, .directory md :: reports) ∧
      Reports zeroFiles [noteEntry 3 .unknown none] reports := by
  refine ⟨valid_noteEntry .unknown (by decide +kernel) (by decide +kernel) nofun, ?_⟩
  rintro ⟨data, md, reports, hbuild, hlist, arranged, hperm, hreported⟩
  have hcounts : ((buildDirectory zeroFiles none [noteEntry 3 .unknown none]).bind
      (listContents zeroFiles · 0)).map (fun result ↦ result.2.map Report.itemCount) =
        some [1, 0] := by
    decide +kernel
  have hsum := sum_of_reports hreported
  rw [perm_singleton.mp hperm] at hsum
  rw [hbuild, bind_some, hlist] at hcounts
  have hreports := (cons.inj (some.inj hcounts)).2
  rw [hreports] at hsum
  exact absurd hsum (by decide)

end Gnunet.Fs.Directory
