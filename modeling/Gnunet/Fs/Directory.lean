import Gnunet.Fs.KeywordUri
import Gnunet.Util.MetaDataSize

/-!
# Directories

A directory is a file that lists other files. The builder of `fs_directory.c` keeps one serialized
entry for each file that is added, and at the end packs them behind the meta data of the directory:
an entry that would cross a block boundary is moved behind one, and a greedy search looks for an
order that wastes little space. The reader finds the entries again by skipping to the next boundary
wherever it meets a zero byte.

Offsets and sizes are natural numbers. Everything that stops the program, as failed assertions, too
large allocations and accesses outside of a buffer, gives no result. Only the listing tells a too
large allocation from a call that does not come back in a defined way.
-/

namespace Gnunet.Fs.Directory

open Util Util.MetaData
open Lib (Buffer.write)
open Lib.NetworkOrder
open Fs.KeywordUri (Scan OtherParsers Uri uriParse)

def dblockSize : ℕ := 32 * 1024

def maxInlineSize : ℕ := 65536

def directoryMagic : List UInt8 := [137, 71, 78, 68, 13, 10, 26, 10]

def mimetypeType : UInt32 := 1

def gnunetPlugin : CString := ⟨KeywordUri.bytes "<gnunet>", by decide⟩

/-- What the code rests on: zlib, the C library, the URIs that are not keyword URIs with their
strings and the sizes of their files, and the number of `EXTRACTOR_METATYPE_GNUNET_FULL_DATA`. -/
structure Platform (O : Type) where
  zlib : Zlib
  scan : Scan
  parsers : OtherParsers O
  uriToString : O → List UInt8
  fileSize : O → Option ℕ
  fullDataType : UInt32
  fullDataType_ne : fullDataType ≠ filenameType ∧ fullDataType ≠ originalFilenameType

/-- The first string of a type. -/
def metaDataGetByType (md : Container) (type : UInt32) : Option (List UInt8) :=
  (md.items.find? fun item ↦
    item.type = type ∧ (item.format = .utf8 ∨ item.format = .cString)).map fun item ↦
      item.data.takeWhile (· ≠ 0)

def directoryItem : MetaItem where
  pluginName := some gnunetPlugin
  mimeType := some ⟨KeywordUri.bytes "text/plain", by decide⟩
  data := KeywordUri.bytes "application/gnunet-directory" ++ [0]
  type := mimetypeType
  format := .utf8

def makeDirectory (md : Container) : Option Container :=
  match metaDataGetByType md mimetypeType with
  | some _ => some md
  | none => (metaDataInsert md directoryItem).map Prod.snd

structure DirectoryBuilder where
  md : Container
  entries : List (List UInt8)
  count : UInt32

def directoryMeta (mdir : Option Container) : Option Container :=
  match mdir with
  | some mdir => (metaDataDuplicate mdir).bind makeDirectory
  | none => makeDirectory metaDataCreate

def builderCreate (mdir : Option Container) : Option DirectoryBuilder :=
  (directoryMeta mdir).map fun md ↦ ⟨md, [], 0⟩

structure Entry (O : Type) where
  uri : O
  md : Container
  data : Option (List UInt8)

variable {O : Type} (platform : Platform O)

def inlineData (e : Entry O) : Option (List UInt8) :=
  match e.data with
  | none => some []
  | some data =>
    (platform.fileSize e.uri).map fun fsize ↦
      if fsize > maxInlineSize then [] else data.take fsize

def fullDataItem (data : List UInt8) : MetaItem :=
  ⟨some gnunetPlugin, none, data, platform.fullDataType, .binary⟩

/-- The last block that an entry reaches, seen from its start. The size `-1` wraps. -/
def lastBlock (slen : ℕ) : Option ℕ → ℕ
  | some mds => (slen + 4 + mds - 1) / dblockSize
  | none => (slen + 4 - 2) / dblockSize

/-- Those with the data of the file, unless the entry would then reach another block. -/
def metaToUse (slen : ℕ) (md : Container) (mds : Option ℕ) (data : List UInt8) :
    Option (Container × Option ℕ) :=
  if data.length > 0 then
    (metaDataDuplicate md).bind fun copy ↦
      (metaDataInsert copy (fullDataItem platform data)).bind fun (_, withData) ↦
        (metaDataGetSerializedSize platform.zlib withData).map fun (mdxs, withData) ↦
          if lastBlock slen mdxs = lastBlock slen mds then (withData, mdxs) else (md, mds)
  else some (md, mds)

def bufferSize : Option ℕ → ℕ
  | some mds => if mds > maxMallocChecked / 2 then maxMallocChecked / 2 else mds
  | none => maxMallocChecked / 2

def entryBytes (uris md : List UInt8) : List UInt8 :=
  uris ++ 0 :: (htonl (UInt32.ofNat md.length) ++ md)

def writeEntry (uris : List UInt8) (md : Container) (mds : Option ℕ) : Option (List UInt8) :=
  let mds := bufferSize mds
  if 16 + (uris.length + 1) + mds + 4 ≤ maxMallocChecked then
    (metaDataSerialize platform.zlib md (some (List.replicate mds 0)) mds
        ⟨true, false⟩).bind fun (result, _) ↦
      match result with
      | .syserr => some (entryBytes uris [])
      | .written target length => some (entryBytes uris (target.take length))
  else none

def serializeEntry (e : Entry O) : Option (List UInt8) :=
  let uris := platform.uriToString e.uri
  (inlineData platform e).bind fun data ↦
    (metaDataGetSerializedSize platform.zlib e.md).bind fun (mds, md) ↦
      (metaToUse platform (uris.length + 1) md mds data).bind fun (md, mds) ↦
        writeEntry platform uris md mds

def builderAdd (bld : DirectoryBuilder) (e : Entry O) : Option DirectoryBuilder :=
  (serializeEntry platform e).map fun bytes ↦ ⟨bld.md, bytes :: bld.entries, bld.count + 1⟩

def doAlign (startPosition endPosition : ℕ) : ℕ :=
  let align := endPosition / dblockSize * dblockSize
  if startPosition < align ∧ endPosition > align then align + endPosition - startPosition
  else endPosition

def badnessOf (cpos size : ℕ) : ℤ :=
  let cend := cpos + size
  if cpos % dblockSize = 0 then -(cend % dblockSize : ℕ)
  else if cpos / dblockSize = cend / dblockSize then (dblockSize - cend % dblockSize : ℕ)
  else (dblockSize * (dblockSize - cpos % dblockSize) : ℕ)

/-- The inner loop of `block_align`: the first index with the least badness. -/
def bestOf (cpos : ℕ) : List (List UInt8) → ℕ → ℤ → Option ℕ → Option ℕ
  | [], _, _, best => best
  | e :: entries, j, badness, best =>
    if badnessOf cpos e.length < badness then
      bestOf cpos entries (j + 1) (badnessOf cpos e.length) (some j)
    else bestOf cpos entries (j + 1) badness best

def swapFirst : List (List UInt8) → ℕ → List (List UInt8)
  | [], _ => []
  | e :: entries, best => (e :: entries).getD best e :: ((e :: entries).set best e).tail

/-- `block_align`: the outer loop, on what is left to place. -/
def blockAlign : ℕ → ℕ → List (List UInt8) → Option (List (List UInt8))
  | 0, _, entries => some entries
  | count + 1, cpos, entries =>
    (bestOf cpos entries 0 0x7FFFFFFF none).bind fun best ↦
      match swapFirst entries best with
      | [] => some []
      | e :: rest =>
        (blockAlign count (doAlign cpos (cpos + e.length)) rest).map (e :: ·)

def placeEntries : List (List UInt8) → List UInt8 → ℕ → List UInt8 × ℕ
  | [], data, off => (data, off)
  | e :: entries, data, off =>
    let off := doAlign off (off + e.length)
    placeEntries entries (Buffer.write data (off - e.length) e) off

def builderFinish (bld : DirectoryBuilder) : Option (List UInt8) :=
  (metaDataGetSerializedSize platform.zlib bld.md).bind fun (mds, md) ↦
    let start := match mds with
      | some mds => directoryMagic.length + 4 + mds
      | none => directoryMagic.length + 4 - 1
    let count := bld.count.toNat
    if count * 8 ≤ maxMallocChecked then
      (blockAlign count start (bld.entries.take count)).bind fun perm ↦
        let size := perm.foldl (fun size e ↦ doAlign size (size + e.length)) start
        let off := directoryMagic.length
        let max := if off + 4 ≤ size then size - off - 4 else 2 ^ 64 + size - off - 4
        (metaDataSerialize platform.zlib md (some (List.replicate (size - off - 4) 0)) max
            ⟨false, false⟩).bind fun (result, _) ↦
          match result with
          | .syserr => none
          | .written target ret =>
            let data := directoryMagic ++ htonl (UInt32.ofNat ret) ++ target
            let (data, off) := placeEntries perm data (off + 4 + ret)
            if off = size then some data else none
    else none

def buildDirectory (mdir : Option Container) (entries : List (Entry O)) : Option (List UInt8) :=
  (builderCreate mdir).bind fun bld ↦
    (entries.foldlM (builderAdd platform) bld).bind (builderFinish platform)

/-- What is returned, or `stopped` if an allocation stops the program. -/
inductive ListStatus where
  | ok
  | no
  | syserr
  | stopped
  deriving DecidableEq

inductive Report (O : Type) where
  | directory (md : Container)
  | entry (filename : Option (List UInt8)) (uri : O) (md : Container) (data : List UInt8)

def findFullData (md : Container) : List UInt8 :=
  match md.items.find? fun item ↦ item.type = platform.fullDataType with
  | some item => item.data
  | none => []

def reportOf (uri : O) (md : Container) : Report O :=
  .entry (metaDataGetByType md originalFilenameType) uri md (findFullData platform md)

inductive Round (O : Type) where
  | done (status : ListStatus)
  | continued (pos : ℕ) (report : Option (Report O))

def readAt (cdata : List UInt8) (pos : ℕ) : Option (Round O) :=
  let text := (cdata.drop pos).takeWhile (· ≠ 0)
  let epos := pos + text.length
  if epos ≥ cdata.length then some (.done .no)
  else
    match uriParse platform.scan platform.parsers text with
    | .error .stuck => none
    | .error .stopped => some (.done .stopped)
    | .error (.null _) => some (.continued epos none)
    | .ok (.ksk _) => some (.done .no)
    | .ok (.other uri) =>
      let pos := epos + 1
      if pos + 4 ≤ cdata.length then
        let mdSize := (ntohl ((cdata.drop pos).take 4)).toNat
        let pos := pos + 4
        if pos + mdSize > cdata.length then some (.done .no)
        else
          match metaDataDeserialize platform.zlib ((cdata.drop pos).take mdSize) with
          | none => some (.done .stopped)
          | some none => some (.done .no)
          | some (some md) => some (.continued (pos + mdSize) (some (reportOf platform uri md)))
      else none

/-- A round of the loop. At a zero byte it goes on at the next block boundary. -/
def listRound (cdata : List UInt8) (pos : ℕ) : Option (Round O) :=
  if cdata.getD pos 0 = 0 then
    let align := (pos / dblockSize + 1) * dblockSize
    let pos := if align = pos then align + dblockSize else align
    if pos ≥ cdata.length then some (.done .ok) else readAt platform cdata pos
  else readAt platform cdata pos

def listLoop (cdata : List UInt8) :
    ℕ → ℕ → List (Report O) → Option (ListStatus × List (Report O))
  | 0, pos, reports => if pos < cdata.length then none else some (.ok, reports)
  | rounds + 1, pos, reports =>
    if pos < cdata.length then
      (listRound platform cdata pos).bind fun round ↦
        match round with
        | .done status => some (status, reports)
        | .continued pos report => listLoop cdata rounds pos (reports ++ report.toList)
    else some (.ok, reports)

/-- Every round moves the position, so that there are no more rounds than bytes. -/
def listContents (cdata : List UInt8) (offset : ℕ) : Option (ListStatus × List (Report O)) :=
  if offset = 0 then
    if cdata.length < 8 + 4 ∨ cdata.take 8 ≠ directoryMagic then some (.syserr, [])
    else
      let mdSize := (ntohl ((cdata.drop 8).take 4)).toNat
      if mdSize > cdata.length - 8 - 4 then some (.syserr, [])
      else
        match metaDataDeserialize platform.zlib ((cdata.drop (8 + 4)).take mdSize) with
        | none => some (.stopped, [])
        | some none => some (.syserr, [])
        | some (some md) =>
          listLoop platform cdata cdata.length (8 + 4 + mdSize) [.directory md]
  else listLoop platform cdata cdata.length offset []

end Gnunet.Fs.Directory
