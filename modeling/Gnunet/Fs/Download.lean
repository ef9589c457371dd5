import Gnunet.Fs.DiskLayout
import Gnunet.Fs.DownloadRequest
import Gnunet.Lib.Runs
import Mathlib.Order.Interval.Finset.Nat

/-!
# The progress of a download

A download has a tree of requests.  A block that arrives is given to `process_result_with_request`
for every request that it answers, and a block of the file that already exists is given to
`reconstruct_cb`.  Both of them count the bytes that are done.

Requests are found by their path from the top of the tree.
-/

namespace Gnunet.Fs

namespace DownloadRequest

def at? : List ℕ → DownloadRequest → Option DownloadRequest
  | [], dr => some dr
  | i :: path, .node _ numChildren children =>
    if h : i < numChildren then at? path (children ⟨i, h⟩) else none

def put : List ℕ → DownloadRequest → DownloadRequest → DownloadRequest
  | [], _, new => new
  | i :: path, .node info numChildren children, new =>
    if h : i < numChildren then
      .node info numChildren (Function.update children ⟨i, h⟩ (put path (children ⟨i, h⟩) new))
    else .node info numChildren children

def withInfo (info : RequestInfo) : DownloadRequest → DownloadRequest
  | .node _ numChildren children => .node info numChildren children

end DownloadRequest

/-- The flag says whether the loop goes on with the parent of the tree. -/
def propagateUp : List ℕ → DownloadRequest → DownloadRequest × Bool
  | [], dr => (dr.withInfo { dr.info with state := .downloadUp }, true)
  | i :: path, .node info numChildren children =>
    if h : i < numChildren then
      let (child, goesOn) := propagateUp path (children ⟨i, h⟩)
      let children := Function.update children ⟨i, h⟩ child
      if goesOn = true ∧ ∀ j, (children j).info.state = .downloadUp then
        (.node { info with state := .downloadUp } numChildren children, true)
      else (.node info numChildren children, false)
    else (.node info numChildren children, false)

def scheduleBlockDownload : DownloadRequest → Option DownloadRequest
  | .node info numChildren children =>
    match info.state with
    | .init | .reconstructDown | .reconstructMetaUp | .reconstructUp => none
    | .chkSet => some (.node { info with active := true } numChildren children)
    | .downloadDown =>
      (allSome fun i ↦ scheduleBlockDownload (children i)).map (.node info numChildren)
    | .downloadUp | .error => some (.node info numChildren children)

inductive BlockFailure
  | decrypt
  | openFile
  | seek
  | write
  deriving DecidableEq

inductive DownloadError
  | wrongSize (expected : UInt64) (depth : ℕ) (offset fileLength size : UInt64)
  | decrypting
  | openFile
  | seek (off : UInt64)
  | write (size off : UInt64)
  deriving DecidableEq

/-- `fsize` is the file length in the URI. There is no request for no bytes and after an error. -/
structure DownloadContext where
  fsize : UInt64
  offset : UInt64
  length : UInt64
  topRequest : Option DownloadRequest
  completed : UInt64
  issueRequests : Bool
  hasFinished : Bool
  emsg : Option DownloadError

namespace DownloadContext

/-- Completion is signalled unless a child download is still going on. -/
def checkCompleted (dc : DownloadContext) (childrenDone : Bool) : DownloadContext :=
  if childrenDone = true then { dc with hasFinished := true } else dc

def signalError (dc : DownloadContext) (emsg : DownloadError) : DownloadContext :=
  { dc with topRequest := none, emsg := some emsg }

end DownloadContext

/-- `none` if the range is refused or an assertion fails. -/
def startDownload (fsize : UInt64) (chk : ContentHashKey) (offset length : UInt64) :
    Option DownloadContext :=
  if offset + length < offset ∨ fsize < offset + length then none
  else
    let dc : DownloadContext :=
      { fsize := fsize
        offset := offset
        length := length
        topRequest := none
        completed := 0
        issueRequests := false
        hasFinished := false
        emsg := none }
    if length = 0 then some (dc.checkCompleted true)
    else do
      let top ← createDownloadRequest offset length (computeDepth fsize - 1) 0 0
      some { dc with topRequest := top.withInfo { top.info with state := .chkSet, chk := chk } }

/-- The number of bytes of a DBLOCK that are in the range. -/
def dblockProgress (offset length drOffset size : UInt64) : Option UInt64 :=
  let app :=
    if drOffset < offset then
      if offset - drOffset < size then some (size - (offset - drOffset)) else none
    else some size
  app.bind fun app ↦
    if offset + length < drOffset + size then
      if drOffset + size - (offset + length) < app then
        some (app - (drOffset + size - (offset + length)))
      else none
    else some app

def processDblock (dc : DownloadContext) (top : DownloadRequest) (path : List ℕ)
    (dr : DownloadRequest) (size : UInt64) (childrenDone : Bool) : Option DownloadContext := do
  let app ← dblockProgress dc.offset dc.length dr.info.offset size
  let completed := dc.completed + app
  if dc.length < completed then none
  else
    let dr := dr.withInfo { dr.info with state := .downloadDown, active := false }
    let dc := { dc with
      topRequest := some (propagateUp path (top.put path dr)).1
      completed := completed }
    some (if completed = dc.length then dc.checkCompleted childrenDone else dc)

def setChk (issueRequests : Bool) (pt : List UInt8) : DownloadRequest → Option DownloadRequest
  | .node info numChildren children =>
    if info.state ≠ .init then none
    else if pt.length < (info.chkIdx + 1).toNat * contentHashKeySize then none
    else do
      let chk ← ContentHashKey.at? pt info.chkIdx.toNat
      let drc := .node { info with chk := chk, state := .chkSet } numChildren children
      if issueRequests = true then scheduleBlockDownload drc else some drc

def processIblock (dc : DownloadContext) (top : DownloadRequest) (path : List ℕ) :
    DownloadRequest → List UInt8 → Option DownloadContext
  | .node info numChildren children, pt =>
    if dc.length ≤ dc.completed ∨ pt.length % contentHashKeySize ≠ 0 then none
    else do
      let children ← allSome fun i ↦ setChk dc.issueRequests pt (children i)
      let info := { info with state := .downloadDown, active := false }
      some { dc with topRequest := some (top.put path (.node info numChildren children)) }

def processBlock (dc : DownloadContext) (top : DownloadRequest) (path : List ℕ)
    (dr : DownloadRequest) (pt : List UInt8) (childrenDone : Bool) : Option DownloadContext :=
  if dr.info.depth = 0 then processDblock dc top path dr (.ofNat pt.length) childrenDone
  else processIblock dc top path dr pt

def processResultWithRequest (crypto : Crypto) (dc : DownloadContext) (top : DownloadRequest)
    (path : List ℕ) (dr : DownloadRequest) (data : List UInt8) (failure : Option BlockFailure)
    (childrenDone : Bool) : Option DownloadContext := do
  let size : UInt64 := .ofNat data.length
  let bs ← calculateBlockSize dc.fsize dr.info.offset dr.info.depth
  if data.length ≠ bs.toNat then
    some (dc.signalError (.wrongSize bs dr.info.depth dr.info.offset dc.fsize size))
  else if failure = some .decrypt then some (dc.signalError .decrypting)
  else
    let pt := crypto.decrypt dr.info.chk.key data
    let off ← computeDiskOffset dc.fsize dr.info.offset dr.info.depth
    match failure with
    | some .openFile => some (dc.signalError .openFile)
    | some .seek => some (dc.signalError (.seek off))
    | some .write => some (dc.signalError (.write size off))
    | _ => processBlock dc top path dr pt childrenDone

/-- The path of the request, `some none` if the block is not relevant, `none` if an assertion fails
or memory is accessed out of bounds. -/
def findRequest (offset : UInt64) (depth : ℕ) : DownloadRequest → Option (Option (List ℕ))
  | .node info numChildren children =>
    if info.depth ≤ depth then some (some [])
    else if h : 0 < numChildren then
      let blen := computeTreeSize (info.depth - 1)
      let first := (children ⟨0, h⟩).info.chkIdx
      let last := (children ⟨numChildren - 1, Nat.sub_one_lt_of_lt h⟩).info.chkIdx
      let chld := ((offset - info.offset) / blen).toUInt32
      if blen = 0 then none
      else if chld < first ∨ last < chld then some none
      else if h' : (chld - first).toNat < numChildren then
        (findRequest offset depth (children ⟨_, h'⟩)).map (Option.map ((chld - first).toNat :: ·))
      else none
    else none

/-- A request is done because the block in the existing file matches. -/
def reconstructed (dr : DownloadRequest) : DownloadRequest :=
  dr.withInfo { dr.info with state := .downloadUp, active := false }

def reconstructProgress (offset length drOffset : UInt64) (depth : ℕ) : UInt64 :=
  min (computeTreeSize depth) (length + offset - drOffset)

def reconstructCb (dc : DownloadContext) (top : DownloadRequest) (chk : ContentHashKey)
    (offset : UInt64) (depth : ℕ) (childrenDone : Bool) : Option DownloadContext := do
  match ← findRequest offset depth top with
  | none => some dc
  | some path =>
    let dr ← top.at? path
    if dr.info.state = .chkSet ∧ chk = dr.info.chk then
      let blen := reconstructProgress dc.offset dc.length dr.info.offset dr.info.depth
      let dc := { dc with
        topRequest := some (top.put path (reconstructed dr))
        completed := dc.completed + blen }
      some (if path = [] then dc.checkCompleted childrenDone else dc)
    else
      some (if path = [] ∧ dr.info.state = .downloadUp then dc.checkCompleted childrenDone else dc)

inductive DownloadEvent
  /-- A block arrives, and is given to the request at a path if this waits for it. -/
  | processResult (path : List ℕ) (data : List UInt8) (failure : Option BlockFailure)
    (childrenDone : Bool)
  /-- A block of the existing file was encoded. -/
  | reconstruct (chk : ContentHashKey) (offset : UInt64) (depth : ℕ) (childrenDone : Bool)
  /-- The existing file was read, and the download begins. -/
  | issueRequests
  /-- A child download has completed. -/
  | childCompleted (childrenDone : Bool)

def downloadStep (crypto : Crypto) (dc : DownloadContext) : DownloadEvent → Option DownloadContext
  | .processResult path data failure childrenDone =>
    match dc.topRequest with
    | none => some dc
    | some top =>
      match top.at? path with
      | none => some dc
      | some dr =>
        if dr.info.active = true ∧ dr.info.chk.query = crypto.hash data then
          processResultWithRequest crypto dc top path dr data failure childrenDone
        else some dc
  | .reconstruct chk offset depth childrenDone =>
    match dc.topRequest with
    | none => some dc
    | some top => reconstructCb dc top chk offset depth childrenDone
  | .issueRequests =>
    match dc.topRequest with
    | none => some dc
    | some top => do
      let top ← scheduleBlockDownload top
      some { dc with topRequest := some top, issueRequests := true }
  | .childCompleted childrenDone => some (dc.checkCompleted childrenDone)

def DownloadRequest.covered : DownloadRequest → List UInt64
  | .node info numChildren children =>
    if info.state = .downloadUp then (DownloadRequest.node info numChildren children).leaves
    else (List.finRange numChildren).flatMap fun i ↦ (children i).covered

/-- The bytes of the range in the DBLOCKs under requests that are done. -/
def coveredBytes (dc : DownloadContext) (top : DownloadRequest) : Finset ℕ :=
  (Finset.Ico dc.offset.toNat (dc.offset.toNat + dc.length.toNat)).filter fun byte ↦
    ∃ off ∈ top.covered, off.toNat ≤ byte ∧ byte < off.toNat + dblockSize

/-- The bytes counted are those in the DBLOCKs that are done, and completion is signalled only if
all DBLOCKs of the range are done. -/
structure Accounted (dc : DownloadContext) : Prop where
  completed_eq : ∀ top, dc.topRequest = some top →
    dc.completed.toNat = (coveredBytes dc top).card
  completed_le : dc.completed ≤ dc.length
  finished : dc.hasFinished = true → dc.completed = dc.length ∧
    ∀ top, dc.topRequest = some top → ∀ off : UInt64,
      Touches dc.offset.toNat (dc.offset.toNat + dc.length.toNat) off.toNat 0 → off ∈ top.covered

end Gnunet.Fs
