import Gnunet.Fs.Tree

/-!
# Where blocks are stored

While a file is downloaded, its IBLOCKs are stored behind the DBLOCKs, level after level.
`compute_disk_offset` finds the place of a block.  The size of a level is rounded up in bytes and
not in content hash keys, so that a level may reach into the next one, and the number of a block is
an `unsigned int`.
-/

namespace Gnunet.Fs

open Lib.FanOut Option Nat Shape

def diskOffsetLoop : ℕ → UInt64 → UInt64 → UInt32 → Option (UInt64 × UInt32)
  | 0, loff, _, ioff => some (loff, ioff)
  | levels + 1, loff, lsize, ioff =>
    let loff := loff + lsize
    let lsize := (lsize + .ofNat chkPerInode - 1) / .ofNat chkPerInode
    if lsize = 0 ∨ ioff % .ofNat chkPerInode ≠ 0 then none
    else diskOffsetLoop levels loff lsize (ioff / .ofNat chkPerInode)

/-- `none` if an assertion fails. -/
def computeDiskOffset (fsize off : UInt64) : ℕ → Option UInt64
  | 0 => some off
  | depth + 1 =>
    let blocks := (fsize + .ofNat dblockSize - 1) / .ofNat dblockSize
    let loff := blocks * .ofNat dblockSize
    let lsize := blocks * .ofNat contentHashKeySize
    if off % .ofNat dblockSize ≠ 0 then none
    else
      (diskOffsetLoop depth loff lsize (off / .ofNat dblockSize).toUInt32).map fun (loff, ioff) ↦
        loff + ioff.toUInt64 * .ofNat contentHashKeySize

/-- The nodes of the tree of a file: the offset is where the part of the file below the block
starts. -/
def IsNode (fsize off : UInt64) (depth : ℕ) : Prop :=
  depth < computeDepth fsize ∧ off < fsize ∧ tree.span depth ∣ off.toNat

def diskRange (fsize off : UInt64) (depth : ℕ) : Option (ℕ × ℕ) := do
  let start ← computeDiskOffset fsize off depth
  let size ← calculateBlockSize fsize off depth
  some (start.toNat, start.toNat + size.toNat)

def Apart (fsize off : UInt64) (depth : ℕ) (off' : UInt64) (depth' : ℕ) : Prop :=
  ∃ range range', diskRange fsize off depth = some range ∧
    diskRange fsize off' depth' = some range' ∧ (range.2 ≤ range'.1 ∨ range'.2 ≤ range.1)

def Separate (fsize : UInt64) : Prop :=
  ∀ off depth off' depth', IsNode fsize off depth → IsNode fsize off' depth' →
    (off, depth) ≠ (off', depth') → Apart fsize off depth off' depth'

def levelSize (n level : ℕ) : ℕ := contentHashKeySize * n ⌈/⌉ chkPerInode ^ level

def regionStart (n : ℕ) : ℕ → ℕ
  | 0 => 0
  | 1 => n * dblockSize
  | depth + 2 => regionStart n (depth + 1) + levelSize n depth

section Levels

variable {n : ℕ}

theorem levelSize_succ (n level : ℕ) :
    levelSize n (level + 1) = levelSize n level ⌈/⌉ chkPerInode := by
  have hfan : 0 < chkPerInode := by decide
  refine eq_of_forall_ge_iff fun c ↦ ?_
  rw [levelSize, levelSize, ceilDiv_le_iff_le_mul (Nat.pow_pos hfan), ceilDiv_le_iff_le_mul hfan,
    ceilDiv_le_iff_le_mul (Nat.pow_pos hfan), Nat.pow_succ, Nat.mul_assoc]

theorem levelSize_pos (hn : 0 < n) (level : ℕ) : 0 < levelSize n level := by
  rw [← Nat.not_le, levelSize, ceilDiv_le_iff_le_mul (Nat.pow_pos (by decide)), not_le]
  exact mul_pos (by decide) hn

theorem levelSize_le (n level : ℕ) : levelSize n level ≤ contentHashKeySize * n := by
  have hpow : 0 < chkPerInode ^ level := Nat.pow_pos (by decide)
  rw [levelSize, ceilDiv_le_iff_le_mul hpow]
  exact Nat.le_mul_of_pos_left _ hpow

theorem regionStart_mono (n : ℕ) : Monotone (regionStart n) := by
  refine monotone_nat_of_le_succ fun depth ↦ ?_
  cases depth with
  | zero => exact zero_le _
  | succ depth => exact le_add_right _ _

theorem regionStart_le (n depth : ℕ) :
    regionStart n (depth + 1) ≤ n * dblockSize + depth * (contentHashKeySize * n) := by
  induction depth with
  | zero => exact le_add_right _ _
  | succ depth ih =>
    calc regionStart n (depth + 2)
        ≤ (n * dblockSize + depth * (contentHashKeySize * n)) + contentHashKeySize * n :=
          Nat.add_le_add ih (levelSize_le n depth)
      _ = n * dblockSize + (depth + 1) * (contentHashKeySize * n) := by
          rw [succ_mul, add_assoc]

theorem regionStart_add_lt (hmax : n ≤ 2 ^ 32) {level : ℕ} (hlevel : level ≤ 6) :
    regionStart n (level + 1) + levelSize n level < 2 ^ 63 := by
  have hstart := regionStart_le n level
  have hsize := levelSize_le n level
  have hn1 : n * dblockSize ≤ 2 ^ 32 * 2 ^ 15 := mul_le_mul_right _ hmax
  have hn2 : contentHashKeySize * n ≤ 2 ^ 7 * 2 ^ 32 := mul_le_mul_left _ hmax
  have hn3 : level * (contentHashKeySize * n) ≤ 6 * (2 ^ 7 * 2 ^ 32) := Nat.mul_le_mul hlevel hn2
  omega

end Levels

theorem diskOffsetLoop_spec {n : ℕ} (hn : 0 < n) (hmax : n ≤ 2 ^ 32) (levels : ℕ) {level : ℕ}
    (hlevels : level + levels ≤ 6) {loff lsize : UInt64} {ioff : UInt32}
    (hloff : loff.toNat = regionStart n (level + 1)) (hlsize : lsize.toNat = levelSize n level)
    (hioff : chkPerInode ^ levels ∣ ioff.toNat) :
    ∃ loff' ioff', diskOffsetLoop levels loff lsize ioff = some (loff', ioff') ∧
      loff'.toNat = regionStart n (level + levels + 1) ∧
      ioff'.toNat = ioff.toNat / chkPerInode ^ levels := by
  induction levels generalizing level loff lsize ioff with
  | zero => exact ⟨loff, ioff, rfl, hloff, (Nat.div_one _).symm⟩
  | succ levels ih =>
    have hspace := regionStart_add_lt hmax (show level ≤ 6 by omega)
    have hloff' : (loff + lsize).toNat = regionStart n (level + 2) := by
      rw [UInt64.toNat_add, hloff, hlsize]
      exact mod_eq_of_lt (by omega)
    have hlsize' : ((lsize + .ofNat chkPerInode - 1) / .ofNat chkPerInode).toNat =
        levelSize n (level + 1) := by
      have hfan : (UInt64.ofNat chkPerInode).toNat = 256 := rfl
      rw [toNat_roundUp (by decide) (by omega), hlsize, levelSize_succ]
      rfl
    have hassert : ¬ ((lsize + .ofNat chkPerInode - 1) / .ofNat chkPerInode = 0 ∨
        ioff % .ofNat chkPerInode ≠ 0) := by
      rintro (hzero | hmod)
      · have hpos := levelSize_pos hn (level + 1)
        rw [← hlsize', hzero] at hpos
        exact absurd hpos (by decide)
      · refine hmod (UInt32.toNat_inj.mp ?_)
        exact mod_eq_zero_of_dvd ((Dvd.intro_left _ rfl).trans hioff)
    have hioff' : (ioff / .ofNat chkPerInode).toNat = ioff.toNat / chkPerInode := by
      rfl
    obtain ⟨loff', ioff', hloop, hstart', hindex⟩ := ih (by omega) hloff' hlsize' (by
      rw [hioff']
      exact Nat.dvd_div_of_mul_dvd (by rw [← Nat.pow_succ']; exact hioff))
    refine ⟨loff', ioff', ?_, ?_, ?_⟩
    · rw [diskOffsetLoop, if_neg hassert]
      exact hloop
    · rw [hstart', add_right_comm level 1]
      rfl
    · rw [hindex, hioff', Nat.div_div_eq_div_mul, Nat.pow_succ']

def blockLength (size k : ℕ) : ℕ → ℕ
  | 0 => min dblockSize (size - k * dblockSize)
  | depth + 1 => contentHashKeySize * min chkPerInode (tree.blocks size depth - k * chkPerInode)

section Nodes

variable {fsize off : UInt64} {depth k : ℕ}

theorem lt_four_of_lt_computeDepth (hmax : fsize.toNat ≤ 2 ^ 47)
    (h : depth + 1 < computeDepth fsize) : depth < 4 := by
  have hspan := (succ_lt_computeDepth_iff fsize depth).mp h
  exact tree.span_strictMono.lt_iff_lt.mp (hspan.trans_le hmax)

theorem computeDiskOffset_succ (hmax : fsize.toNat ≤ 2 ^ 47)
    (hdepth : depth + 1 < computeDepth fsize) (hoff : off < fsize)
    (hk : off.toNat = k * tree.span (depth + 1)) :
    ∃ start, computeDiskOffset fsize off (depth + 1) = some start ∧
      start.toNat = regionStart (tree.blocks fsize.toNat 0) (depth + 1) + k * dblockSize := by
  have hlt : off.toNat < fsize.toNat := UInt64.lt_iff_toNat_lt.mp hoff
  have hfour := lt_four_of_lt_computeDepth hmax hdepth
  obtain ⟨n, hn⟩ : ∃ n, n = tree.blocks fsize.toNat 0 := ⟨_, rfl⟩
  have hpos : 0 < n := by
    rw [hn, lt_blocks_iff]
    omega
  have hmaxn : n ≤ 2 ^ 32 := by
    rw [hn, blocks, ceilDiv_le_iff_le_mul (tree.span_pos 0)]
    exact hmax
  -- the number of DBLOCKs and the level above them
  have hblocks : ((fsize + .ofNat dblockSize - 1) / .ofNat dblockSize).toNat = n := by
    have hdblock : (UInt64.ofNat dblockSize).toNat = 32768 := rfl
    rw [toNat_roundUp (by decide) (by omega), hn]
    rfl
  have hloff : ((fsize + .ofNat dblockSize - 1) / .ofNat dblockSize * .ofNat dblockSize).toNat =
      regionStart n 1 := by
    rw [UInt64.toNat_mul, hblocks]
    exact mod_eq_of_lt ((mul_le_mul_right _ hmaxn).trans_lt (by decide))
  have hlsize : ((fsize + .ofNat dblockSize - 1) / .ofNat dblockSize *
      .ofNat contentHashKeySize).toNat = levelSize n 0 := by
    rw [UInt64.toNat_mul, hblocks, levelSize, pow_zero, ceilDiv_one, mul_comm]
    exact mod_eq_of_lt ((mul_le_mul_left _ hmaxn).trans_lt (by decide))
  -- the number of the block
  have hoffset : off.toNat = k * chkPerInode ^ (depth + 1) * dblockSize := by
    rw [hk, span, mul_comm tree.unit, mul_assoc]
    rfl
  have haligned : ¬ off % .ofNat dblockSize ≠ 0 := by
    rw [not_not, ← UInt64.toNat_inj, UInt64.toNat_mod, hoffset]
    exact mul_mod_left _ _
  have hindex : (off / .ofNat dblockSize).toUInt32.toNat = k * chkPerInode ^ (depth + 1) := by
    have hdiv : (off / .ofNat dblockSize).toNat = k * chkPerInode ^ (depth + 1) := by
      rw [UInt64.toNat_div, hoffset]
      exact Nat.mul_div_cancel _ (by decide)
    rw [UInt64.toNat_toUInt32]
    have hdblock : dblockSize = 2 ^ 15 := rfl
    rw [hdblock] at hoffset
    omega
  obtain ⟨loff, ioff, hloop, hstart, hioff⟩ := diskOffsetLoop_spec hpos hmaxn depth (by omega)
    hloff hlsize (by
      rw [hindex]
      exact (pow_dvd_pow _ (le_succ _)).mul_left k)
  have hioff' : ioff.toNat * contentHashKeySize = k * dblockSize := by
    rw [hioff, hindex, Nat.pow_succ', ← Nat.mul_assoc,
      Nat.mul_div_cancel _ (Nat.pow_pos (by decide)), Nat.mul_assoc]
    rfl
  have hk' : k * dblockSize ≤ off.toNat := by
    rw [hoffset, mul_assoc]
    exact Nat.mul_le_mul_left k (Nat.le_mul_of_pos_left _ (Nat.pow_pos (by decide)))
  have hspace := regionStart_add_lt hmaxn (show depth ≤ 6 by omega)
  rw [zero_add] at hstart
  refine ⟨loff + ioff.toUInt64 * .ofNat contentHashKeySize, ?_, ?_⟩
  · rw [computeDiskOffset, if_neg haligned, hloop]
    rfl
  · have hproduct : (ioff.toUInt64 * .ofNat contentHashKeySize).toNat = k * dblockSize := by
      rw [UInt64.toNat_mul, UInt32.toNat_toUInt64]
      have hsize : (UInt64.ofNat contentHashKeySize).toNat = contentHashKeySize := rfl
      rw [hsize]
      omega
    rw [UInt64.toNat_add, hstart, hproduct, ← hn]
    exact mod_eq_of_lt (by omega)

theorem diskRange_spec (hmax : fsize.toNat ≤ 2 ^ 47) (hnode : IsNode fsize off depth)
    (hk : off.toNat = k * tree.span depth) :
    diskRange fsize off depth =
      some (regionStart (tree.blocks fsize.toNat 0) depth + k * dblockSize,
        regionStart (tree.blocks fsize.toNat 0) depth + k * dblockSize +
          blockLength fsize.toNat k depth) := by
  obtain ⟨hdepth, hoff, -⟩ := hnode
  cases depth with
  | zero =>
    obtain ⟨size, hsize, hlength⟩ := calculateBlockSize_zero hoff
    have hspan : tree.span 0 = dblockSize := tree.span_zero
    rw [hspan] at hk
    rw [diskRange, computeDiskOffset, hsize]
    simp only [bind_eq_bind, bind_some, hlength, hk, regionStart, zero_add, blockLength]
  | succ depth =>
    have hfour := lt_four_of_lt_computeDepth hmax hdepth
    obtain ⟨_, hstart, hplace⟩ := computeDiskOffset_succ hmax hdepth hoff hk
    obtain ⟨size, hsize, hlength⟩ := calculateBlockSize_succ hoff (show depth ≤ 5 by omega)
    have hchildren : tree.blocks (fsize.toNat - off.toNat) depth =
        tree.blocks fsize.toNat depth - k * chkPerInode := by
      rw [hk, span_succ, mul_comm (tree.span depth), ← mul_assoc]
      exact tree.blocks_sub _ _ _
    rw [diskRange, hstart, hsize]
    simp only [bind_eq_bind, bind_some, hplace, hlength, hchildren]
    rfl

end Nodes

/-- The last group of DBLOCKs below the last IBLOCK is complete, or almost complete. -/
def LevelFits (n level : ℕ) : Prop :=
  n % chkPerInode ^ level = 0 ∨
    (contentHashKeySize - 1) * chkPerInode ^ level <
      contentHashKeySize * (n % chkPerInode ^ level)

section Separate

variable {fsize off off' : UInt64} {depth depth' k : ℕ}

theorem levelFits_iff (size level : ℕ) : LevelFits (tree.blocks size 0) level ↔
    contentHashKeySize * tree.blocks size level ≤ levelSize (tree.blocks size 0) level := by
  rw [tree.blocks_eq size level]
  exact (mul_ceilDiv_le_iff (by decide) (Nat.pow_pos (by decide)) _).symm

theorem mul_lt_levelSize {size level i : ℕ} (h : i < tree.blocks size level) :
    contentHashKeySize * i < levelSize (tree.blocks size 0) level := by
  have hpow : 0 < chkPerInode ^ level := Nat.pow_pos (by decide)
  rw [tree.blocks_eq, ← not_le] at h
  rw [levelSize, ← not_le, ceilDiv_le_iff_le_mul hpow, mul_left_comm]
  intro hle
  exact h ((ceilDiv_le_iff_le_mul hpow).mpr (le_of_mul_le_mul_left hle (by decide)))

theorem lt_blocks_succ_iff (size level k : ℕ) :
    k < tree.blocks size (level + 1) ↔ k * chkPerInode < tree.blocks size level := by
  rw [lt_blocks_iff, lt_blocks_iff, span_succ, mul_comm (tree.span level), ← mul_assoc]
  rfl

theorem mul_dblockSize (k : ℕ) : k * dblockSize = contentHashKeySize * (k * chkPerInode) := by
  rw [mul_left_comm]
  rfl

theorem blockLength_le (size k depth : ℕ) : blockLength size k depth ≤ dblockSize := by
  cases depth with
  | zero => exact min_le_left _ _
  | succ depth => exact mul_le_mul_left contentHashKeySize (min_le_left _ _)

theorem block_le_regionStart (hlt : k < tree.blocks fsize.toNat depth)
    (hfits : ∀ level, depth = level + 1 → LevelFits (tree.blocks fsize.toNat 0) level) :
    regionStart (tree.blocks fsize.toNat 0) depth + k * dblockSize +
        blockLength fsize.toNat k depth ≤
      regionStart (tree.blocks fsize.toNat 0) (depth + 1) := by
  cases depth with
  | zero =>
    calc regionStart (tree.blocks fsize.toNat 0) 0 + k * dblockSize + blockLength fsize.toNat k 0
        ≤ 0 + k * dblockSize + dblockSize := Nat.add_le_add_left (blockLength_le _ _ _) _
      _ = (k + 1) * dblockSize := by rw [zero_add, succ_mul]
      _ ≤ tree.blocks fsize.toNat 0 * dblockSize := mul_le_mul_right _ hlt
  | succ level =>
    have hfit := (levelFits_iff fsize.toNat level).mp (hfits level rfl)
    have hlength : k * dblockSize + blockLength fsize.toNat k (level + 1) ≤
        contentHashKeySize * tree.blocks fsize.toNat level := by
      have hchildren := (lt_blocks_succ_iff _ _ _).mp hlt
      rw [mul_dblockSize, blockLength, ← mul_add]
      exact mul_le_mul_left _ (by omega)
    rw [add_assoc]
    exact Nat.add_le_add_left (hlength.trans hfit) _

theorem IsNode.exists_index (h : IsNode fsize off depth) :
    ∃ k, off.toNat = k * tree.span depth ∧ k < tree.blocks fsize.toNat depth := by
  obtain ⟨-, hoff, k, hk⟩ := h
  rw [mul_comm] at hk
  refine ⟨k, hk, ?_⟩
  rw [lt_blocks_iff, ← hk]
  exact UInt64.lt_iff_toNat_lt.mp hoff

theorem Apart.symm (h : Apart fsize off depth off' depth') : Apart fsize off' depth' off depth := by
  obtain ⟨range, range', hrange, hrange', hapart⟩ := h
  exact ⟨range', range, hrange', hrange, hapart.symm⟩

section

variable (hmax : fsize.toNat ≤ 2 ^ 47) (hfits : ∀ level, level + 2 < computeDepth fsize →
  LevelFits (tree.blocks fsize.toNat 0) level)
include hmax hfits

theorem apart_of_lt_depth (hnode : IsNode fsize off depth) (hnode' : IsNode fsize off' depth')
    (hlt : depth < depth') : Apart fsize off depth off' depth' := by
  obtain ⟨k, hk, hklt⟩ := hnode.exists_index
  obtain ⟨_, hk', -⟩ := hnode'.exists_index
  have hend := block_le_regionStart hklt fun level hlevel ↦ hfits level (by
    have hdepth := hnode'.1
    omega)
  exact ⟨_, _, diskRange_spec hmax hnode hk, diskRange_spec hmax hnode' hk',
    Or.inl (hend.trans ((regionStart_mono _ hlt).trans (le_add_right _ _)))⟩

omit hfits in
theorem apart_of_lt_offset (hnode : IsNode fsize off depth)
    (hnode' : IsNode fsize off' depth) (hlt : off.toNat < off'.toNat) :
    Apart fsize off depth off' depth := by
  obtain ⟨k, hk, -⟩ := hnode.exists_index
  obtain ⟨k', hk', -⟩ := hnode'.exists_index
  refine ⟨_, _, diskRange_spec hmax hnode hk, diskRange_spec hmax hnode' hk', Or.inl ?_⟩
  have hkk : k < k' := by
    rw [hk, hk'] at hlt
    exact Nat.lt_of_mul_lt_mul_right hlt
  have hnext : (k + 1) * dblockSize ≤ k' * dblockSize := mul_le_mul_right _ hkk
  have hlength := blockLength_le fsize.toNat k depth
  rw [succ_mul] at hnext
  omega

theorem separate_of_fits : Separate fsize := by
  intro off depth off' depth' hnode hnode' hne
  rcases lt_trichotomy depth depth' with hlt | rfl | hlt
  · exact apart_of_lt_depth hmax hfits hnode hnode' hlt
  · have hoff : off.toNat ≠ off'.toNat := fun heq ↦ hne (by rw [UInt64.toNat_inj.mp heq])
    rcases lt_or_gt_of_ne hoff with hlt | hlt
    · exact apart_of_lt_offset hmax hnode hnode' hlt
    · exact (apart_of_lt_offset hmax hnode' hnode hlt).symm
  · exact (apart_of_lt_depth hmax hfits hnode' hnode hlt).symm

end

/-- The number of an IBLOCK above the first 128 TiB does not fit into an `unsigned int`. -/
theorem le_of_separate (h : Separate fsize) : fsize.toNat ≤ 2 ^ 47 := by
  by_contra hlarge
  rw [not_le] at hlarge
  have hdepth : 1 < computeDepth fsize :=
    (succ_lt_computeDepth_iff fsize 0).mpr (lt_trans (by decide) hlarge)
  have hfirst : IsNode fsize 0 1 :=
    ⟨hdepth, UInt64.lt_iff_toNat_lt.mpr (lt_trans (by decide) hlarge), dvd_zero _⟩
  have hsecond : IsNode fsize (2 ^ 47) 1 :=
    ⟨hdepth, UInt64.lt_iff_toNat_lt.mpr hlarge, by decide⟩
  have hsame : computeDiskOffset fsize 0 1 = computeDiskOffset fsize (2 ^ 47) 1 := rfl
  have hsize {off : UInt64} (hoff : off < fsize) :
      ∃ size, calculateBlockSize fsize off 1 = some size ∧ 0 < size.toNat := by
    obtain ⟨size, hsize, hlength⟩ := calculateBlockSize_succ hoff (show 0 ≤ 5 by decide)
    have hchildren : 0 < tree.blocks (fsize.toNat - off.toNat) 0 := by
      rw [lt_blocks_iff]
      exact Nat.sub_pos_of_lt (UInt64.lt_iff_toNat_lt.mp hoff)
    refine ⟨size, hsize, ?_⟩
    rw [hlength]
    exact Nat.mul_pos (by decide) (Nat.lt_min.mpr ⟨by decide, hchildren⟩)
  obtain ⟨size, hfirstSize, _⟩ := hsize hfirst.2.1
  obtain ⟨_, hsecondSize, _⟩ := hsize hsecond.2.1
  obtain ⟨_, _, hrange, hrange', hapart⟩ := h 0 1 (2 ^ 47) 1 hfirst hsecond (by decide)
  rw [diskRange, hsame] at hrange
  rw [diskRange] at hrange'
  cases hplace : computeDiskOffset fsize (2 ^ 47) 1 with
  | none =>
    rw [hplace] at hrange
    cases hrange
  | some start =>
    rw [hplace, hfirstSize] at hrange
    rw [hplace, hsecondSize] at hrange'
    cases hrange
    cases hrange'
    omega

theorem levelFits_of_separate (h : Separate fsize) {level : ℕ}
    (hlevel : level + 2 < computeDepth fsize) :
    LevelFits (tree.blocks fsize.toNat 0) level := by
  have hmax := le_of_separate h
  have hspan := (succ_lt_computeDepth_iff fsize (level + 1)).mp hlevel
  -- the last block of the level, and the first one of the level above it
  have hblocks : 0 < tree.blocks fsize.toNat (level + 1) := by
    rw [lt_blocks_iff, zero_mul]
    exact zero_lt_of_lt hspan
  obtain ⟨k, hk⟩ : ∃ k, tree.blocks fsize.toNat (level + 1) = k + 1 :=
    exists_eq_succ_of_ne_zero hblocks.ne'
  have hlast : k * tree.span (level + 1) < fsize.toNat :=
    tree.lt_blocks_iff.mp (by rw [hk]; exact lt_succ_self k)
  obtain ⟨off, hoff⟩ : ∃ off : UInt64, off.toNat = k * tree.span (level + 1) :=
    ⟨.ofNat (k * tree.span (level + 1)), UInt64.toNat_ofNat_of_lt' (hlast.trans fsize.toNat_lt)⟩
  have hnode : IsNode fsize off (level + 1) :=
    ⟨by omega, by rw [UInt64.lt_iff_toNat_lt, hoff]; exact hlast, Dvd.intro_left k hoff.symm⟩
  have hnode' : IsNode fsize 0 (level + 2) :=
    ⟨hlevel, UInt64.lt_iff_toNat_lt.mpr (zero_lt_of_lt hspan), dvd_zero _⟩
  obtain ⟨_, _, hrange, hrange', hapart⟩ := h _ _ _ _ hnode hnode' (by simp)
  rw [diskRange_spec hmax hnode hoff] at hrange
  rw [diskRange_spec hmax hnode' (zero_mul _).symm] at hrange'
  cases hrange
  cases hrange'
  have hfirst : k * chkPerInode < tree.blocks fsize.toNat level :=
    (lt_blocks_succ_iff _ _ _).mp (by rw [hk]; exact lt_succ_self k)
  have hlastChild : ¬ (k + 1) * chkPerInode < tree.blocks fsize.toNat level := by
    rw [← lt_blocks_succ_iff, hk]
    exact lt_irrefl _
  have hend : k * dblockSize + blockLength fsize.toNat k (level + 1) =
      contentHashKeySize * tree.blocks fsize.toNat level := by
    rw [mul_dblockSize, blockLength, ← mul_add]
    rw [succ_mul] at hlastChild
    congr 1
    omega
  rw [levelFits_iff, ← hend]
  rw [regionStart, add_assoc, add_assoc] at hapart
  rcases hapart with hle | hle
  · exact le_of_add_le_add_left hle
  · have hbelow := mul_lt_levelSize hfirst
    rw [← mul_dblockSize] at hbelow
    omega

/-- No two blocks of a file overlap on the disk if and only if the file has at most 128 TiB and
every level that is followed by another one has room for its last IBLOCK. -/
theorem separate_iff (fsize : UInt64) : Separate fsize ↔ fsize.toNat ≤ 2 ^ 47 ∧
    ∀ level, level + 2 < computeDepth fsize → LevelFits (tree.blocks fsize.toNat 0) level :=
  ⟨fun h ↦ ⟨le_of_separate h, fun _ ↦ levelFits_of_separate h⟩,
    fun ⟨hmax, hfits⟩ ↦ separate_of_fits hmax hfits⟩

/-- With one byte more than 2 GiB, the second IBLOCK of depth 2 and the IBLOCK of depth 3
overlap. -/
theorem iblocks_overlap : IsNode 2147483649 2147483648 2 ∧ IsNode 2147483649 0 3 ∧
    diskRange 2147483649 2147483648 2 = some (2155937920, 2155938048) ∧
    diskRange 2147483649 0 3 = some (2155937921, 2155938177) ∧ ¬ Separate 2147483649 := by
  have hnode : IsNode 2147483649 2147483648 2 := ⟨by decide, by decide, by decide⟩
  have hnode' : IsNode 2147483649 0 3 := ⟨by decide, by decide, by decide⟩
  have hrange : diskRange 2147483649 2147483648 2 = some (2155937920, 2155938048) := by decide
  have hrange' : diskRange 2147483649 0 3 = some (2155937921, 2155938177) := by decide
  refine ⟨hnode, hnode', hrange, hrange', fun hseparate ↦ ?_⟩
  obtain ⟨_, _, h, h', hapart⟩ := hseparate _ _ _ _ hnode hnode' (by decide)
  cases hrange.symm.trans h
  cases hrange'.symm.trans h'
  exact absurd hapart (by decide)

end Separate

end Gnunet.Fs
