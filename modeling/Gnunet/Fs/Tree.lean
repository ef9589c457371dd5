import Gnunet.Lib.FanOut
import Mathlib.Tactic.IntervalCases

/-!
# The tree of content hash keys

The arithmetic of `fs_tree.c`: how deep the tree of a file is, how much of the file is below a
block, and how many bytes a block has.  Sizes and offsets are of type `uint64_t`.
-/

namespace Gnunet.Fs

open Lib.FanOut UInt64 Nat

def dblockSize : ℕ := 32 * 1024

def chkPerInode : ℕ := 256

def contentHashKeySize : ℕ := 128

def computeDepthLoop : ℕ → UInt64 → UInt64 → ℕ → ℕ
  | 0, _, _, treeDepth => treeDepth
  | rounds + 1, flen, fl, treeDepth =>
    if fl < flen then
      if fl * .ofNat chkPerInode < fl then treeDepth + 1
      else computeDepthLoop rounds flen (fl * .ofNat chkPerInode) (treeDepth + 1)
    else treeDepth

/-- The seventh round is the last one, as it overflows. -/
def computeDepth (flen : UInt64) : ℕ := computeDepthLoop 7 flen (.ofNat dblockSize) 1

def computeTreeSize : ℕ → UInt64
  | 0 => .ofNat dblockSize
  | depth + 1 => computeTreeSize depth * .ofNat chkPerInode

/-- `none` if an assertion fails or the tree size, a divisor, has overflown to zero. -/
def computeIblockSize (depth : ℕ) (endOffset : UInt64) : Option UInt16 :=
  if depth = 0 ∨ endOffset = 0 ∨ computeTreeSize depth = 0 then none
  else
    let bds := computeTreeSize depth
    let mod := endOffset % bds
    let ret : UInt32 :=
      if mod = 0 then .ofNat chkPerInode
      else
        let bds := bds / .ofNat chkPerInode
        if mod % bds = 0 then (mod / bds).toUInt32 else (mod / bds).toUInt32 + 1
    some (ret * .ofNat contentHashKeySize).toUInt16

def calculateBlockSize (fsize offset : UInt64) (depth : ℕ) : Option UInt64 :=
  if fsize = 0 ∨ fsize < offset then none
  else
    match depth with
    | 0 =>
      let ret : UInt64 := .ofNat dblockSize
      if fsize < offset + ret ∨ offset + ret < offset then some (fsize - offset) else some ret
    | depth + 1 =>
      let rsize := computeTreeSize depth
      let epos := offset + rsize * .ofNat chkPerInode
      let epos := if epos < offset ∨ fsize < epos then fsize else epos
      let chks := ((epos - offset + rsize - 1) / rsize).toUInt32
      if .ofNat chkPerInode < chks then none
      else some (chks.toUInt64 * .ofNat contentHashKeySize)

/-- `none` if the tree size, a divisor, has overflown to zero. -/
def computeChkOffset (depth : ℕ) (endOffset : UInt64) : Option UInt32 :=
  let bds := computeTreeSize depth
  let endOffset := if depth = 0 then endOffset else endOffset - 1
  if bds = 0 then none else some ((endOffset / bds).toUInt32 % .ofNat chkPerInode)

theorem toNat_roundUp {x y : UInt64} (hy : 0 < y.toNat) (hsum : x.toNat + y.toNat < 2 ^ 64) :
    ((x + y - 1) / y).toNat = x.toNat ⌈/⌉ y.toNat := by
  have hadd : (x + y).toNat = x.toNat + y.toNat := by
    exact mod_eq_of_lt hsum
  have hone : (1 : UInt64) ≤ x + y := by
    rw [le_iff_toNat_le, hadd]
    exact le_add_left_of_le hy
  rw [UInt64.toNat_div, UInt64.toNat_sub_of_le _ _ hone, hadd]
  rfl

def tree : Shape := ⟨dblockSize, chkPerInode, by decide, by decide⟩

theorem span_eq (d : ℕ) : tree.span d = 2 ^ (15 + 8 * d) := by
  rw [pow_add, pow_mul]
  rfl

variable {depth : ℕ}

theorem toNat_computeTreeSize (h : depth ≤ 6) :
    (computeTreeSize depth).toNat = tree.span depth := by
  interval_cases depth <;> rfl

theorem computeDepthLoop_succ {rounds : ℕ} (flen : UInt64) (hdepth : depth < 6) :
    computeDepthLoop (rounds + 1) flen (computeTreeSize depth) (depth + 1) =
      if tree.span depth < flen.toNat then
        computeDepthLoop rounds flen (computeTreeSize (depth + 1)) (depth + 2)
      else depth + 1 := by
  have hsmall := toNat_computeTreeSize (le_of_lt hdepth)
  have hlarge := toNat_computeTreeSize (succ_le_of_lt hdepth)
  have hgrows : ¬ computeTreeSize depth * .ofNat chkPerInode < computeTreeSize depth := by
    rw [lt_iff_toNat_lt, ← computeTreeSize, hsmall, hlarge, not_lt]
    exact (tree.span_strictMono (lt_succ_self depth)).le
  rw [computeDepthLoop, if_neg hgrows]
  simp only [lt_iff_toNat_lt, hsmall]
  rfl

theorem le_computeDepthLoop (rounds : ℕ) (flen fl : UInt64) (treeDepth : ℕ) :
    treeDepth ≤ computeDepthLoop rounds flen fl treeDepth := by
  induction rounds generalizing fl treeDepth with
  | zero => exact le_refl _
  | succ rounds ih =>
    rw [computeDepthLoop]
    split_ifs
    · exact le_succ _
    · exact (le_succ _).trans (ih _ _)
    · exact le_refl _

theorem lt_span_seven (flen : UInt64) : flen.toNat < tree.span 7 := by
  rw [span_eq]
  exact flen.toNat_lt.trans_le (Nat.pow_le_pow_right (by decide) (by decide))

theorem succ_lt_computeDepthLoop_iff {rounds d : ℕ} (flen : UInt64) (h : rounds + 1 + depth = 7)
    (hd : depth ≤ d) :
    d + 1 < computeDepthLoop (rounds + 1) flen (computeTreeSize depth) (depth + 1) ↔
      tree.span d < flen.toNat := by
  have hmono {a b : ℕ} (hab : a ≤ b) : tree.span a ≤ tree.span b :=
    tree.span_strictMono.monotone hab
  induction rounds generalizing depth with
  | zero =>
    -- the last round, in which the tree size overflows
    obtain rfl : depth = 6 := by omega
    have hlast : computeDepthLoop 1 flen (computeTreeSize 6) 7 =
        if tree.span 6 < flen.toNat then 8 else 7 := by
      have hoverflow : computeTreeSize 6 * .ofNat chkPerInode < computeTreeSize 6 := by decide
      rw [computeDepthLoop, if_pos hoverflow]
      simp only [lt_iff_toNat_lt, toNat_computeTreeSize (le_refl 6)]
    rw [hlast]
    rcases eq_or_lt_of_le hd with rfl | hd
    · split_ifs with hlt
      · exact iff_of_true (by omega) hlt
      · exact iff_of_false (by omega) hlt
    · have hnot : ¬ tree.span d < flen.toNat := fun hlt ↦
        absurd ((lt_span_seven flen).trans_le (hmono hd)) hlt.not_gt
      split_ifs
      · exact iff_of_false (by omega) hnot
      · exact iff_of_false (by omega) hnot
  | succ rounds ih =>
    rw [computeDepthLoop_succ flen (by omega)]
    split_ifs with hlt
    · rcases eq_or_lt_of_le hd with rfl | hd
      · exact iff_of_true (le_computeDepthLoop _ _ _ _) hlt
      · exact ih (by omega) hd
    · exact iff_of_false (by omega) fun hlt' ↦ hlt ((hmono hd).trans_lt hlt')

theorem succ_lt_computeDepth_iff (flen : UInt64) (d : ℕ) :
    d + 1 < computeDepth flen ↔ tree.span d < flen.toNat :=
  succ_lt_computeDepthLoop_iff flen rfl (zero_le d)

theorem computeDepth_le (flen : UInt64) : computeDepth flen ≤ 8 := by
  have hnot := mt (succ_lt_computeDepth_iff flen 7).mp (lt_span_seven flen).not_gt
  omega

theorem calculateBlockSize_zero {fsize offset : UInt64} (h : offset < fsize) :
    ∃ size, calculateBlockSize fsize offset 0 = some size ∧
      size.toNat = min dblockSize (fsize.toNat - offset.toNat) := by
  have hlt : offset.toNat < fsize.toNat := lt_iff_toNat_lt.mp h
  have hfsize := fsize.toNat_lt
  have hassert : ¬ (fsize = 0 ∨ fsize < offset) := by
    rintro (rfl | hgt)
    · exact absurd hlt (not_lt_zero _)
    · exact absurd (lt_iff_toNat_lt.mp hgt) hlt.not_gt
  have hsum : (offset + .ofNat dblockSize).toNat = (offset.toNat + dblockSize) % 2 ^ 64 := by
    rw [UInt64.toNat_add]
    rfl
  have hdblock : dblockSize = 32768 := rfl
  rw [calculateBlockSize, if_neg hassert]
  simp only [lt_iff_toNat_lt]
  split_ifs
  · refine ⟨_, rfl, ?_⟩
    rw [UInt64.toNat_sub_of_le _ _ (UInt64.le_iff_toNat_le.mpr hlt.le)]
    omega
  · refine ⟨_, rfl, ?_⟩
    have hret : (ofNat dblockSize).toNat = dblockSize := rfl
    omega

theorem calculateBlockSize_succ {fsize offset : UInt64} (h : offset < fsize) (hdepth : depth ≤ 5) :
    ∃ size, calculateBlockSize fsize offset (depth + 1) = some size ∧ size.toNat =
      contentHashKeySize * min chkPerInode (tree.blocks (fsize.toNat - offset.toNat) depth) := by
  have hlt : offset.toNat < fsize.toNat := lt_iff_toNat_lt.mp h
  have hassert : ¬ (fsize = 0 ∨ fsize < offset) := by
    rintro (rfl | hgt)
    · exact absurd hlt (not_lt_zero _)
    · exact absurd (lt_iff_toNat_lt.mp hgt) hlt.not_gt
  have hspan : (computeTreeSize depth).toNat = tree.span depth :=
    toNat_computeTreeSize (by omega)
  have hsucc : tree.span (depth + 1) = tree.span depth * 256 := tree.span_succ depth
  have hbound : tree.span (depth + 1) ≤ 2 ^ 63 := by
    rw [span_eq]
    exact Nat.pow_le_pow_right (by decide) (by omega)
  have hpos := tree.span_pos depth
  have hfull : (offset + computeTreeSize depth * .ofNat chkPerInode).toNat =
      (offset.toNat + tree.span (depth + 1)) % 2 ^ 64 := by
    rw [← computeTreeSize, UInt64.toNat_add, toNat_computeTreeSize (by omega : depth + 1 ≤ 6)]
  obtain ⟨epos, hepos⟩ : ∃ epos : UInt64, epos =
      if offset + computeTreeSize depth * .ofNat chkPerInode < offset ∨
        fsize < offset + computeTreeSize depth * .ofNat chkPerInode then fsize
      else offset + computeTreeSize depth * .ofNat chkPerInode := ⟨_, rfl⟩
  have heposNat : epos.toNat = min (offset.toNat + tree.span (depth + 1)) fsize.toNat := by
    rw [hepos]
    -- an end that overflows is before the start
    have hfsize := fsize.toNat_lt
    simp only [lt_iff_toNat_lt]
    split_ifs
    · omega
    · omega
  have hle : offset ≤ epos := by
    rw [le_iff_toNat_le]
    omega
  have hchks : ((epos - offset + computeTreeSize depth - 1) / computeTreeSize depth).toNat =
      min chkPerInode (tree.blocks (fsize.toNat - offset.toNat) depth) := by
    have hleft : (epos - offset).toNat =
        min (tree.span (depth + 1)) (fsize.toNat - offset.toNat) := by
      rw [UInt64.toNat_sub_of_le _ _ hle]
      omega
    rw [toNat_roundUp (by omega) (by omega), hleft, hspan]
    exact tree.blocks_min _ _
  have hchks32 :
      ((epos - offset + computeTreeSize depth - 1) / computeTreeSize depth).toUInt32.toNat =
        min chkPerInode (tree.blocks (fsize.toNat - offset.toNat) depth) := by
    rw [toNat_toUInt32, hchks]
    exact mod_eq_of_lt ((min_le_left _ _).trans_lt (by decide))
  have hcap : ¬ UInt32.ofNat chkPerInode <
      ((epos - offset + computeTreeSize depth - 1) / computeTreeSize depth).toUInt32 := by
    rw [UInt32.lt_iff_toNat_lt, hchks32, not_lt]
    exact min_le_left _ _
  rw [calculateBlockSize, if_neg hassert]
  dsimp only
  rw [← hepos, if_neg hcap]
  refine ⟨_, rfl, ?_⟩
  rw [UInt64.toNat_mul, UInt32.toNat_toUInt64, hchks32, mul_comm]
  exact mod_eq_of_lt ((mul_le_mul_left _ (min_le_left _ _)).trans_lt (by decide))

end Gnunet.Fs
