import Gnunet.Fs.ContentHashKey
import Gnunet.Fs.Tree

/-!
# Requests for the blocks of a range

A download of a part of a file makes a tree of requests for the blocks that are needed.
`create_download_request` finds the children of a block from the first and the last byte that are
wanted.
-/

namespace Gnunet.Fs

open Lib.FanOut Option UInt32 Nat

inductive BlockRequestState
  | init
  | reconstructDown
  | reconstructMetaUp
  | reconstructUp
  | chkSet
  | downloadDown
  | downloadUp
  | error
  deriving DecidableEq

/-- What `struct DownloadRequest` holds besides its children. -/
structure RequestInfo where
  chk : ContentHashKey
  offset : UInt64
  depth : ℕ
  chkIdx : UInt32
  state : BlockRequestState
  active : Bool
  deriving DecidableEq

inductive DownloadRequest
  | node (info : RequestInfo) (numChildren : ℕ) (children : Fin numChildren → DownloadRequest)

def DownloadRequest.info : DownloadRequest → RequestInfo
  | .node info _ _ => info

/-- The index of the first child that is wanted and the number of children. -/
def childRange (fileStartOffset desiredLength drOffset childBlockSize : UInt64) :
    Option (UInt32 × UInt32) :=
  let headSkip : UInt32 :=
    if drOffset < fileStartOffset then ((fileStartOffset - drOffset) / childBlockSize).toUInt32
    else 0
  let wanted := fileStartOffset + desiredLength - drOffset
  let numChildren := (wanted / childBlockSize).toUInt32
  let numChildren :=
    if numChildren.toUInt64 * childBlockSize < wanted then numChildren + 1 else numChildren
  if numChildren ≤ headSkip then none
  else
    let numChildren := numChildren - headSkip
    some (headSkip, if .ofNat chkPerInode < numChildren then .ofNat chkPerInode else numChildren)

def allSome {α : Type*} {n : ℕ} (f : Fin n → Option α) : Option (Fin n → α) :=
  if h : ∀ i, (f i).isSome = true then some fun i ↦ (f i).get (h i) else none

def newRequest (chkIdx : UInt32) (depth : ℕ) (offset : UInt64) : RequestInfo :=
  { chk := ⟨Vector.replicate 64 0, Vector.replicate 64 0⟩
    offset := offset
    depth := depth
    chkIdx := chkIdx
    state := .init
    active := false }

/-- `none` if an assertion fails. -/
def createDownloadRequest (fileStartOffset desiredLength : UInt64) :
    ℕ → UInt32 → UInt64 → Option DownloadRequest
  | 0, chkIdx, drOffset => some (.node (newRequest chkIdx 0 drOffset) 0 Fin.elim0)
  | depth + 1, chkIdx, drOffset => do
    let childBlockSize := computeTreeSize depth
    let (headSkip, numChildren) ←
      childRange fileStartOffset desiredLength drOffset childBlockSize
    let children ← allSome fun i : Fin numChildren.toNat ↦
      createDownloadRequest fileStartOffset desiredLength depth (.ofNat i + headSkip)
        (drOffset + (ofNat i + headSkip).toUInt64 * childBlockSize)
    some (.node (newRequest chkIdx (depth + 1) drOffset) numChildren.toNat children)

def DownloadRequest.leaves : DownloadRequest → List UInt64
  | .node info numChildren children =>
    if info.depth = 0 then [info.offset]
    else (List.finRange numChildren).flatMap fun i ↦ (children i).leaves

/-- Every request has a key in the block of its parent, at the index that its offset tells. -/
def DownloadRequest.Linked (fsize : UInt64) : DownloadRequest → Prop
  | .node info numChildren children => ∀ i : Fin numChildren,
    (∃ size, calculateBlockSize fsize info.offset info.depth = some size ∧
      (children i).info.chkIdx.toNat < size.toNat / contentHashKeySize) ∧
    (children i).info.offset.toNat = info.offset.toNat +
      (children i).info.chkIdx.toNat * (computeTreeSize (children i).info.depth).toNat ∧
    (children i).Linked fsize

def Touches (start stop o depth : ℕ) : Prop :=
  tree.span depth ∣ o ∧ o < stop ∧ start < o + tree.span depth

/-- The requests are linked, and the DBLOCKs are those that have bytes of the range, each once. -/
def RequestsRight (fsize offset length : UInt64) : Prop :=
  ∃ top, createDownloadRequest offset length (computeDepth fsize - 1) 0 0 = some top ∧
    top.Linked fsize ∧ top.leaves.Nodup ∧ ∀ off : UInt64, off ∈ top.leaves ↔
      Touches offset.toNat (offset.toNat + length.toNat) off.toNat 0

section Children

variable {α : Type*} {n : ℕ}

theorem allSome_eq_some {f : Fin n → Option α} {g : Fin n → α} :
    allSome f = some g ↔ ∀ i, f i = some (g i) := by
  rw [allSome]
  split_ifs with h
  · rw [some.injEq, funext_iff]
    refine forall_congr' fun i ↦ ⟨fun heq ↦ ?_, fun heq ↦ ?_⟩
    · rw [← heq, some_get]
    · exact some.inj ((some_get (h i)).trans heq)
  · refine iff_of_false (by simp) fun hall ↦ h fun i ↦ ?_
    rw [hall i]
    rfl

end Children

def skippedChildren (start o depth : ℕ) : ℕ := (start - o) / tree.span depth

def partialBlock (wanted depth : ℕ) : ℕ := if tree.span depth ∣ wanted then 0 else 1

/-- The number of children up to the end of the range, rounded up after a conversion to `unsigned
int`. -/
def countedChildren (wanted depth : ℕ) : ℕ :=
  (wanted / tree.span depth % 2 ^ 32 +
    if wanted / tree.span depth < 2 ^ 32 then partialBlock wanted depth else 1) % 2 ^ 32

theorem countedChildren_lt (wanted depth : ℕ) : countedChildren wanted depth < 2 ^ 32 :=
  mod_lt _ (by decide)

theorem partialBlock_le (wanted depth : ℕ) : partialBlock wanted depth ≤ 1 := by
  rw [partialBlock]
  split_ifs
  · exact zero_le 1
  · exact le_refl 1

theorem blocks_eq_add (wanted depth : ℕ) :
    tree.blocks wanted depth = wanted / tree.span depth + partialBlock wanted depth := by
  have hpos := tree.span_pos depth
  refine eq_of_forall_lt_iff fun i ↦ ?_
  rw [Shape.lt_blocks_iff, partialBlock]
  split_ifs with hdvd
  · obtain ⟨q, rfl⟩ := hdvd
    rw [Nat.mul_div_cancel_left _ hpos, Nat.add_zero, Nat.mul_comm, Nat.mul_lt_mul_left hpos]
  · rw [Nat.lt_succ_iff, Nat.le_div_iff_mul_le hpos, Nat.le_iff_lt_or_eq]
    exact (or_iff_left fun heq ↦ hdvd (Dvd.intro_left i heq)).symm

section ChildRange

variable {start length o : UInt64} {depth : ℕ}

theorem headSkip_eq (hdepth : depth ≤ 6)
    (hskip : skippedChildren start.toNat o.toNat depth < 2 ^ 32) :
    (if o < start then ((start - o) / computeTreeSize depth).toUInt32 else 0) =
      .ofNat (skippedChildren start.toNat o.toNat depth) := by
  rw [← UInt32.toNat_inj, UInt32.toNat_ofNat_of_lt' hskip, skippedChildren]
  split_ifs with hlt
  · rw [UInt64.toNat_toUInt32, UInt64.toNat_div,
      UInt64.toNat_sub_of_le _ _ (UInt64.le_iff_toNat_le.mpr hlt.le), toNat_computeTreeSize hdepth]
    exact mod_eq_of_lt hskip
  · rw [UInt64.lt_iff_toNat_lt, not_lt] at hlt
    rw [Nat.sub_eq_zero_of_le hlt, Nat.zero_div]
    rfl

theorem numChildren_eq (hdepth : depth ≤ 6) (wanted : UInt64) :
    let count := (wanted / computeTreeSize depth).toUInt32
    (if count.toUInt64 * computeTreeSize depth < wanted then count + 1 else count) =
      .ofNat (countedChildren wanted.toNat depth) := by
  intro count
  have hpos := tree.span_pos depth
  obtain ⟨full, hfull⟩ : ∃ full, full = wanted.toNat / tree.span depth := ⟨_, rfl⟩
  have hdiv : tree.span depth * full + wanted.toNat % tree.span depth = wanted.toNat := by
    rw [hfull]
    exact div_add_mod _ _
  have hcount : count.toNat = full % 2 ^ 32 := by
    rw [UInt64.toNat_toUInt32, UInt64.toNat_div, toNat_computeTreeSize hdepth, hfull]
  have hle : full % 2 ^ 32 * tree.span depth ≤ tree.span depth * full := by
    rw [mul_comm]
    exact mul_le_mul_left _ (mod_le _ _)
  have hproduct : (count.toUInt64 * computeTreeSize depth).toNat =
      full % 2 ^ 32 * tree.span depth := by
    rw [UInt64.toNat_mul, toNat_toUInt64, hcount, toNat_computeTreeSize hdepth]
    have hlt := wanted.toNat_lt
    exact mod_eq_of_lt (by omega)
  have hround : full % 2 ^ 32 * tree.span depth < wanted.toNat ↔
      2 ^ 32 ≤ full ∨ ¬ tree.span depth ∣ wanted.toNat := by
    by_cases hsmall : full < 2 ^ 32
    · rw [mod_eq_of_lt hsmall, mul_comm]
      omega
    · have hless : full % 2 ^ 32 < full := by omega
      refine iff_of_true ?_ (Or.inl (not_lt.mp hsmall))
      calc full % 2 ^ 32 * tree.span depth
          < full * tree.span depth := mul_lt_mul_of_pos_right hless hpos
        _ ≤ wanted.toNat := by
            rw [mul_comm]
            omega
  have hsucc : (count + 1).toNat = (full % 2 ^ 32 + 1) % 2 ^ 32 := by
    rw [UInt32.toNat_add, hcount]
    rfl
  rw [← UInt32.toNat_inj, UInt32.toNat_ofNat_of_lt' (countedChildren_lt _ _), countedChildren,
    ← hfull, partialBlock]
  simp only [UInt64.lt_iff_toNat_lt, hproduct, hround]
  by_cases hsmall : full < 2 ^ 32
  · rw [if_pos hsmall]
    by_cases hdvd : tree.span depth ∣ wanted.toNat
    · rw [if_neg (not_or.mpr ⟨not_le.mpr hsmall, not_not.mpr hdvd⟩), if_pos hdvd]
      omega
    · rw [if_pos (Or.inr hdvd), if_neg hdvd, hsucc]
  · rw [if_pos (Or.inl (not_lt.mp hsmall)), if_neg hsmall, hsucc]

theorem childRange_eq_some_iff {headSkip numChildren : UInt32} (hdepth : depth ≤ 6)
    (hsum : start.toNat + length.toNat < 2 ^ 64) (ho : o.toNat ≤ start.toNat + length.toNat)
    (hskip : skippedChildren start.toNat o.toNat depth < chkPerInode) :
    childRange start length o (computeTreeSize depth) = some (headSkip, numChildren) ↔
      skippedChildren start.toNat o.toNat depth <
          countedChildren (start.toNat + length.toNat - o.toNat) depth ∧
        headSkip.toNat = skippedChildren start.toNat o.toNat depth ∧
        numChildren.toNat = min chkPerInode
          (countedChildren (start.toNat + length.toNat - o.toNat) depth -
            skippedChildren start.toNat o.toNat depth) := by
  have hwanted : (start + length - o).toNat = start.toNat + length.toNat - o.toNat := by
    have hadd : (start + length).toNat = start.toNat + length.toNat := by
      exact mod_eq_of_lt hsum
    rw [UInt64.toNat_sub_of_le _ _ (UInt64.le_iff_toNat_le.mpr (hadd ▸ ho)), hadd]
  have hcount := numChildren_eq hdepth (start + length - o)
  rw [hwanted] at hcount
  generalize start.toNat + length.toNat - o.toNat = wanted at hcount ⊢
  have hskip' := hskip.trans (show chkPerInode < 2 ^ 32 by decide)
  have hcounted := toNat_ofNat_of_lt' (countedChildren_lt wanted depth)
  rw [childRange, headSkip_eq hdepth hskip']
  rw [hcount]
  have hskipped := toNat_ofNat_of_lt' hskip'
  generalize countedChildren wanted depth = counted at *
  generalize skippedChildren start.toNat o.toNat depth = skip at *
  have hle : ofNat counted ≤ .ofNat skip ↔ counted ≤ skip := by
    rw [le_iff_toNat_le, hcounted, hskipped]
  by_cases hassert : counted ≤ skip
  · rw [if_pos (hle.mpr hassert)]
    exact iff_of_false (by simp) fun h ↦ absurd h.1 (not_lt.mpr hassert)
  · have hsub : (ofNat counted - ofNat skip).toNat = counted - skip := by
      rw [UInt32.toNat_sub_of_le _ _ (UInt32.le_iff_toNat_le.mpr (by omega)), hcounted, hskipped]
    have hcap : (if .ofNat chkPerInode < ofNat counted - ofNat skip then .ofNat chkPerInode
        else ofNat counted - ofNat skip).toNat = min chkPerInode (counted - skip) := by
      split_ifs with hlarge
      · rw [lt_iff_toNat_lt, hsub] at hlarge
        exact (Nat.min_eq_left hlarge.le).symm
      · rw [lt_iff_toNat_lt, hsub, not_lt] at hlarge
        exact hsub.trans (Nat.min_eq_right hlarge).symm
    rw [if_neg (hassert ∘ hle.mp), some.injEq, Prod.mk.injEq, ← UInt32.toNat_inj,
      ← UInt32.toNat_inj, hcap, hskipped, and_iff_right (not_le.mp hassert), eq_comm,
      eq_comm (a := min _ _)]

def ChildrenRight (start length o : UInt64) (depth : ℕ) : Prop :=
  ∃ headSkip numChildren, childRange start length o (computeTreeSize depth) =
      some (headSkip, numChildren) ∧
    headSkip.toNat = skippedChildren start.toNat o.toNat depth ∧
    headSkip.toNat + numChildren.toNat =
      min chkPerInode (tree.blocks (start.toNat + length.toNat - o.toNat) depth)

/-- There are `full` complete blocks and a partial one up to the end of the range. -/
def NodeSupported (skip full part : ℕ) : Prop :=
  if full < 2 ^ 32 then full + part < 2 ^ 32 ∧ (skip = 0 ∨ full + part ≤ chkPerInode)
  else 255 ≤ full % 2 ^ 32 ∧ full % 2 ^ 32 < 2 ^ 32 - 1 ∧ (skip = 0 ∨ full % 2 ^ 32 = 255)

theorem skippedChildren_lt (h : start.toNat < o.toNat + tree.span (depth + 1)) :
    skippedChildren start.toNat o.toNat depth < chkPerInode := by
  have hpos := tree.span_pos depth
  rw [skippedChildren, div_lt_iff_lt_mul hpos, mul_comm]
  have hsucc : tree.span (depth + 1) = tree.span depth * chkPerInode := tree.span_succ depth
  have hfan : 0 < tree.span depth * chkPerInode := mul_pos hpos (by decide)
  omega

theorem childrenRight_iff (hdepth : depth ≤ 6) (hsum : start.toNat + length.toNat < 2 ^ 64)
    (hlength : 0 < length.toNat) (ho : o.toNat < start.toNat + length.toNat)
    (hstart : start.toNat < o.toNat + tree.span (depth + 1)) :
    ChildrenRight start length o depth ↔
      NodeSupported (skippedChildren start.toNat o.toNat depth)
        ((start.toNat + length.toNat - o.toNat) / tree.span depth)
        (partialBlock (start.toNat + length.toNat - o.toNat) depth) := by
  have hskip := skippedChildren_lt hstart
  have hfan : chkPerInode = 256 := rfl
  simp only [ChildrenRight, childRange_eq_some_iff hdepth hsum ho.le hskip, NodeSupported]
  generalize hwanted : start.toNat + length.toNat - o.toNat = wanted
  -- the first child has bytes of the range
  have hfirst : skippedChildren start.toNat o.toNat depth < tree.blocks wanted depth := by
    rw [Shape.lt_blocks_iff]
    have hle := div_mul_le_self (start.toNat - o.toNat) (tree.span depth)
    rw [skippedChildren]
    omega
  have hpart := partialBlock_le wanted depth
  rw [blocks_eq_add] at hfirst ⊢
  have hdef : countedChildren wanted depth = (wanted / tree.span depth % 2 ^ 32 +
    if wanted / tree.span depth < 2 ^ 32 then partialBlock wanted depth else 1) % 2 ^ 32 := rfl
  generalize countedChildren wanted depth = counted at *
  generalize wanted / tree.span depth = full at *
  generalize partialBlock wanted depth = part at *
  generalize skippedChildren start.toNat o.toNat depth = skip at *
  rw [hfan] at *
  have hiff : (∃ headSkip numChildren : UInt32, (skip < counted ∧ headSkip.toNat = skip ∧
        numChildren.toNat = min 256 (counted - skip)) ∧ headSkip.toNat = skip ∧
        headSkip.toNat + numChildren.toNat = min 256 (full + part)) ↔
      skip < counted ∧ skip + min 256 (counted - skip) = min 256 (full + part) := by
    constructor
    · intro ⟨headSkip, numChildren, ⟨hlt, hhead, hcount⟩, _, htotal⟩
      rw [hhead, hcount] at htotal
      exact ⟨hlt, htotal⟩
    · intro ⟨hlt, htotal⟩
      have hhead := toNat_ofNat_of_lt' (show skip < 2 ^ 32 by omega)
      have hcount := toNat_ofNat_of_lt' (show min 256 (counted - skip) < 2 ^ 32 by omega)
      exact ⟨_, _, ⟨hlt, hhead, hcount⟩, hhead, by rw [hhead, hcount, htotal]⟩
  rw [hiff]
  split_ifs at hdef ⊢
  · omega
  · omega

end ChildRange

/-- The range starts at the first child of a block or ends in the same block, and the number of
children up to its end fits into an `unsigned int`. (For some larger numbers the errors of the
conversion do no harm.) -/
def LevelSupported (start stop depth : ℕ) : Prop :=
  let block := start / tree.span (depth + 1)
  let full := (stop - block * tree.span (depth + 1)) / tree.span depth
  (start / tree.span depth % chkPerInode = 0 ∨ stop ≤ (block + 1) * tree.span (depth + 1) ∨
      full = 2 ^ 32 + 255) ∧
    (full + partialBlock stop depth < 2 ^ 32 ∨
      tree.span depth ∣ stop ∧ full % chkPerInode = 255 ∧ full < 2 ^ 33 - 1)

section Levels

variable {start stop depth o : ℕ}

theorem partialBlock_sub (h : tree.span depth ∣ o) (hle : o ≤ stop) :
    partialBlock (stop - o) depth = partialBlock stop depth := by
  simp only [partialBlock, dvd_sub_iff_left hle h]

theorem touches_succ_iff : Touches start stop o (depth + 1) ↔
    ∃ j, o = (start / tree.span (depth + 1) + j) * tree.span (depth + 1) ∧ o < stop := by
  have hpos := tree.span_pos (depth + 1)
  constructor
  · intro ⟨⟨k, hk⟩, hlt, hafter⟩
    have hle : start / tree.span (depth + 1) ≤ k := by
      rw [div_le_iff_le_mul_add_pred hpos]
      omega
    refine ⟨k - start / tree.span (depth + 1), ?_, hlt⟩
    rw [Nat.add_sub_cancel' hle, hk, Nat.mul_comm]
  · intro ⟨j, hj, hlt⟩
    refine ⟨Dvd.intro_left _ hj.symm, hlt, ?_⟩
    have hlast := lt_div_mul_add hpos (a := start)
    rw [hj, add_mul]
    omega

/-- The numbers are supported for all blocks of a level just if they are for the first one and the
conversions for the others do no harm. -/
theorem forall_nodeSupported_iff {skip full part : ℕ} (hskip : skip < chkPerInode)
    (hpart : part ≤ 1) (hpos : 0 < full + part) :
    (∀ j, j * chkPerInode < full + part →
        NodeSupported (if j = 0 then skip else 0) (full - j * chkPerInode) part) ↔
      (skip = 0 ∨ full + part ≤ chkPerInode ∨ full = 2 ^ 32 + 255) ∧
        (full + part < 2 ^ 32 ∨ part = 0 ∧ full % chkPerInode = 255 ∧ full < 2 ^ 33 - 1) := by
  have hfan : chkPerInode = 256 := rfl
  rw [hfan] at hskip ⊢
  constructor
  · intro h
    have hfirst := h 0 (by omega)
    rw [if_pos rfl, Nat.sub_zero, NodeSupported] at hfirst
    split_ifs at hfirst
    · omega
    · -- the blocks for which the number just exceeds an unsigned int, and the next one
      have hlast := h ((full - 2 ^ 32) / 256) (by omega)
      have hnext := h ((full - 2 ^ 32) / 256 + 1)
      have htwice := h ((full - (2 ^ 33 - 1)) / 256)
      rw [NodeSupported] at hlast hnext htwice
      have hmod : full % 256 = 255 := by
        rw [if_neg (by omega)] at hlast
        omega
      have hpart : part = 0 := by
        rw [if_pos (by omega)] at hnext
        omega
      have hlt : full < 2 ^ 33 - 1 := by
        rw [if_neg (by omega)] at htwice
        omega
      omega
  · intro h j hj
    rw [NodeSupported]
    split_ifs
    · omega
    · omega
    · omega
    · omega

theorem levelSupported_iff (hstart : start < stop) : LevelSupported start stop depth ↔
    ∀ o, Touches start stop o (depth + 1) → NodeSupported (skippedChildren start o depth)
      ((stop - o) / tree.span depth) (partialBlock (stop - o) depth) := by
  have hsucc : tree.span (depth + 1) = tree.span depth * chkPerInode := tree.span_succ depth
  obtain ⟨block, hblock⟩ : ∃ block, block = start / tree.span (depth + 1) := ⟨_, rfl⟩
  have hfirst : block * tree.span (depth + 1) ≤ start := hblock ▸ div_mul_le_self _ _
  obtain ⟨full, hfull⟩ :
      ∃ full, full = (stop - block * tree.span (depth + 1)) / tree.span depth := ⟨_, rfl⟩
  have hpart := partialBlock_le stop depth
  have hdvd (k : ℕ) : tree.span depth ∣ k * tree.span (depth + 1) :=
    (Dvd.intro _ hsucc.symm).mul_left k
  have hblocks : tree.blocks (stop - block * tree.span (depth + 1)) depth =
      full + partialBlock stop depth := by
    rw [blocks_eq_add, hfull, partialBlock_sub (hdvd block) (hfirst.trans hstart.le)]
  -- the blocks of the level, in numbers of children
  have hlt (j : ℕ) : (block + j) * tree.span (depth + 1) < stop ↔
      j * chkPerInode < full + partialBlock stop depth := by
    rw [← hblocks, Shape.lt_blocks_iff, add_mul, mul_assoc, mul_comm chkPerInode, ← hsucc]
    omega
  have hdiv (j : ℕ) : (stop - (block + j) * tree.span (depth + 1)) / tree.span depth =
      full - j * chkPerInode := by
    rw [hfull, Nat.add_mul, ← Nat.sub_sub, hsucc, Nat.mul_left_comm j, Nat.sub_mul_div]
  have hskip (j : ℕ) : skippedChildren start ((block + j) * tree.span (depth + 1)) depth =
      if j = 0 then start / tree.span depth % chkPerInode else 0 := by
    rw [skippedChildren]
    split_ifs with hj
    · rw [hj, add_zero, hsucc, mul_left_comm, sub_mul_div, hblock, hsucc,
        ← Nat.div_div_eq_div_mul, Nat.mul_comm _ chkPerInode]
      have hmod := div_add_mod (start / tree.span depth) chkPerInode
      omega
    · have hafter : start < (block + j) * tree.span (depth + 1) := by
        have hlast := lt_div_mul_add (tree.span_pos (depth + 1)) (a := start)
        have hone : tree.span (depth + 1) ≤ j * tree.span (depth + 1) :=
          Nat.le_mul_of_pos_left _ (Nat.pos_of_ne_zero hj)
        rw [← hblock] at hlast
        rw [add_mul]
        omega
      rw [Nat.sub_eq_zero_of_le hafter.le, Nat.zero_div]
  have hend : stop ≤ (block + 1) * tree.span (depth + 1) ↔
      full + partialBlock stop depth ≤ chkPerInode := by
    rw [← Nat.not_lt, hlt 1, Nat.one_mul, Nat.not_lt]
  have hzero : tree.span depth ∣ stop ↔ partialBlock stop depth = 0 := by
    rw [partialBlock]
    by_cases h : tree.span depth ∣ stop
    · rw [if_pos h]
      exact iff_of_true h rfl
    · rw [if_neg h]
      exact iff_of_false h one_ne_zero
  have hsome : 0 < full + partialBlock stop depth := by
    have hzeroth := (hlt 0).mp (by rw [add_zero]; omega)
    omega
  calc LevelSupported start stop depth
      ↔ (start / tree.span depth % chkPerInode = 0 ∨
          full + partialBlock stop depth ≤ chkPerInode ∨ full = 2 ^ 32 + 255) ∧
        (full + partialBlock stop depth < 2 ^ 32 ∨
          partialBlock stop depth = 0 ∧ full % chkPerInode = 255 ∧ full < 2 ^ 33 - 1) := by
        rw [LevelSupported, ← hblock, ← hfull, hend, hzero]
    _ ↔ ∀ j, j * chkPerInode < full + partialBlock stop depth →
          NodeSupported (if j = 0 then start / tree.span depth % chkPerInode else 0)
            (full - j * chkPerInode) (partialBlock stop depth) :=
        (forall_nodeSupported_iff (mod_lt _ (by decide)) hpart hsome).symm
    _ ↔ _ := by
        constructor
        · intro h o ho
          obtain ⟨j, rfl, hlt'⟩ := touches_succ_iff.mp ho
          rw [← hblock] at hlt' ⊢
          rw [hskip, hdiv, partialBlock_sub (hdvd _) hlt'.le]
          exact h j ((hlt j).mp hlt')
        · intro h j hj
          have hlt' := (hlt j).mpr hj
          have hnode := h _ (touches_succ_iff.mpr ⟨j, rfl, hblock ▸ hlt'⟩)
          rw [← hblock, hskip, hdiv, partialBlock_sub (hdvd _) hlt'.le] at hnode
          exact hnode

end Levels

end Gnunet.Fs
