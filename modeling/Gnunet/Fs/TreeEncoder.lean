import Gnunet.Fs.Tree
import Gnunet.Lib.Runs

/-!
# The order in which the tree is encoded

`GNUNET_FS_tree_encoder_next` goes through the blocks at the bottom and up the tree.  The model
keeps to the position and the sizes: the keys and the encryption of the blocks are left out.
-/

namespace Gnunet.Fs

open Lib.FanOut Lib.Runs UInt64 Nat

structure EncodedBlock where
  offset : UInt64
  depth : ℕ
  size : UInt16

structure TreeEncoder where
  size : UInt64
  publishOffset : UInt64
  currentDepth : ℕ
  encoded : List EncodedBlock

def treeEncoderCreate (size : UInt64) : TreeEncoder := ⟨size, 0, 0, []⟩

def TreeEncoder.ptSize (te : TreeEncoder) : Option UInt16 :=
  if te.currentDepth = 0 then
    let dblock : UInt64 := .ofNat dblockSize
    let left := te.size - te.publishOffset
    some (if dblock < left then dblock else left).toUInt16
  else computeIblockSize te.currentDepth te.publishOffset

/-- Where the encoder goes after a block; `off` is the place of the key of the block. -/
def TreeEncoder.advance (te : TreeEncoder) (ptSize : UInt16) (off : UInt32) : TreeEncoder :=
  if te.currentDepth = 0 then
    let offset := te.publishOffset + ptSize.toUInt64
    { te with
      publishOffset := offset
      currentDepth :=
        if offset = te.size ∨ offset % .ofNat (chkPerInode * dblockSize) = 0 then 1 else 0 }
  else if off = .ofNat chkPerInode ∨ te.publishOffset = te.size then
    { te with currentDepth := te.currentDepth + 1 }
  else { te with currentDepth := 0 }

/-- `reads` tells whether the reader gives the data of a DBLOCK. `none` if an assertion fails or a
tree size that has overflown to zero is a divisor. -/
def treeEncoderNext (te : TreeEncoder) (reads : Bool) : Option TreeEncoder :=
  if computeDepth te.size = te.currentDepth ∨ te.currentDepth = 0 ∧ reads = false then some te
  else
    te.ptSize.bind fun ptSize ↦
      (computeChkOffset te.currentDepth te.publishOffset).map fun off ↦
        { te.advance ptSize off with
          encoded := te.encoded ++ [⟨te.publishOffset, te.currentDepth, ptSize⟩] }

def startOffset (depth : ℕ) (endOffset : UInt64) : UInt64 :=
  (endOffset - 1) / computeTreeSize depth * computeTreeSize depth

variable {depth : ℕ} {fsize e : UInt64}

theorem iblock_keys {m n : ℕ} (hdepth : depth ≤ 5) (hm : 0 < m) (hle : m ≤ n)
    (hends : m = n ∨ m % tree.span (depth + 1) = 0) :
    (if m % tree.span (depth + 1) = 0 then chkPerInode
      else if m % tree.span (depth + 1) % tree.span depth = 0 then
        m % tree.span (depth + 1) / tree.span depth
      else m % tree.span (depth + 1) / tree.span depth + 1) =
    min chkPerInode (tree.blocks (n - (m - 1) / tree.span (depth + 1) * tree.span (depth + 1))
      depth) := by
  rw [Shape.blocks, ceilDiv_eq_add_pred_div]
  rw [span_eq, span_eq] at *
  simp only [chkPerInode]
  interval_cases depth <;> split_ifs <;> omega

theorem computeTreeSize_of_seven_le (h : 7 ≤ depth) : computeTreeSize depth = 0 := by
  induction depth, h using le_induction with
  | base => decide
  | succ depth _ ih => rw [computeTreeSize, ih, zero_mul]

theorem calculateBlockSize_of_computeIblockSize {ptSize : UInt16} (hle : e ≤ fsize)
    (hends : e = fsize ∨ e.toNat % tree.span depth = 0)
    (h : computeIblockSize depth e = some ptSize) :
    calculateBlockSize fsize (startOffset depth e) depth = some ptSize.toUInt64 := by
  rw [computeIblockSize] at h
  split_ifs at h with hnone
  simp only [not_or] at hnone
  obtain ⟨hdepth, hne, htree⟩ := hnone
  have hsix : depth ≤ 6 := by
    by_contra hlarge
    exact htree (computeTreeSize_of_seven_le (by omega))
  obtain ⟨d, rfl⟩ : ∃ d, depth = d + 1 := exists_eq_succ_of_ne_zero hdepth
  have hd : d ≤ 5 := le_of_succ_le_succ hsix
  have hpos : 0 < e.toNat := pos_of_ne_zero fun hzero ↦ hne (UInt64.toNat_inj.mp hzero)
  have hspan := toNat_computeTreeSize hsix
  have hbelow : computeTreeSize (d + 1) / .ofNat chkPerInode = computeTreeSize d := by
    interval_cases d <;> rfl
  have hstart : (startOffset (d + 1) e).toNat =
      (e.toNat - 1) / tree.span (d + 1) * tree.span (d + 1) := by
    have hfloor := div_mul_le_self (e.toNat - 1) (tree.span (d + 1))
    have he := e.toNat_lt
    have hone : 1 ≤ e := le_iff_toNat_le.mpr hpos
    rw [startOffset, UInt64.toNat_mul, UInt64.toNat_div, UInt64.toNat_sub_of_le _ _ hone, hspan,
      toNat_one]
    exact mod_eq_of_lt (by omega)
  have hle' := le_iff_toNat_le.mp hle
  have hlt : startOffset (d + 1) e < fsize := by
    have hfloor := div_mul_le_self (e.toNat - 1) (tree.span (d + 1))
    rw [lt_iff_toNat_lt]
    omega
  obtain ⟨size, hsize, hlength⟩ := calculateBlockSize_succ hlt hd
  rw [hstart, ← iblock_keys hd hpos hle' (hends.imp_left (congrArg _))]
    at hlength
  have hsmall : e.toNat % tree.span (d + 1) / tree.span d < 256 := by
    apply Nat.div_lt_of_lt_mul
    exact (Nat.mod_lt _ (tree.span_pos _)).trans_eq (tree.span_succ d)
  cases h
  rw [hsize]
  congr 1
  apply UInt64.toNat_inj.mp
  rw [hlength]
  simp only [hbelow, ← UInt64.toNat_inj, UInt64.toNat_mod, UInt64.toNat_zero, hspan,
    toNat_computeTreeSize (show d ≤ 6 by omega)]
  split_ifs
  · rfl
  · simp [hspan, toNat_computeTreeSize (show d ≤ 6 by omega), contentHashKeySize]
    omega
  · simp [hspan, toNat_computeTreeSize (show d ≤ 6 by omega), contentHashKeySize]
    omega

def SizeAgrees (fsize : UInt64) (block : EncodedBlock) : Prop :=
  0 < block.depth → computeIblockSize block.depth block.offset = some block.size ∧
    calculateBlockSize fsize (startOffset block.depth block.offset) block.depth =
      some block.size.toUInt64

/-- The encoder is within the file, and above the bottom only at the end of a block. -/
structure Positioned (fsize : UInt64) (te : TreeEncoder) : Prop where
  size_eq : te.size = fsize
  le : te.publishOffset ≤ fsize
  ne : te.currentDepth = 0 → te.publishOffset ≠ fsize
  ends : te.currentDepth ≠ 0 → te.publishOffset = fsize ∨
    te.currentDepth = 1 ∧ te.publishOffset.toNat % tree.span 1 = 0
  sizes : ∀ block ∈ te.encoded, SizeAgrees fsize block

theorem Positioned.next {te te' : TreeEncoder} {reads : Bool} (h : Positioned fsize te)
    (hnext : treeEncoderNext te reads = some te') : Positioned fsize te' := by
  obtain ⟨rfl, hle, hne, hends, hsizes⟩ := h
  rw [treeEncoderNext] at hnext
  split_ifs at hnext
  · cases hnext
    exact ⟨rfl, hle, hne, hends, hsizes⟩
  obtain ⟨ptSize, hptSize, hnext⟩ := Option.bind_eq_some_iff.mp hnext
  obtain ⟨off, hoff, rfl⟩ := Option.map_eq_some_iff.mp hnext
  have hall (hnew : SizeAgrees te.size ⟨te.publishOffset, te.currentDepth, ptSize⟩) :=
    List.forall_mem_append.mpr ⟨hsizes, List.forall_mem_singleton.mpr hnew⟩
  rw [TreeEncoder.ptSize] at hptSize
  by_cases hdepth : te.currentDepth = 0
  · have hsize : ptSize.toNat ≤ te.size.toNat - te.publishOffset.toNat := by
      have hleft := UInt64.toNat_sub_of_le _ _ hle
      rw [if_pos hdepth] at hptSize
      cases hptSize
      rw [← hleft]
      refine (mod_le _ _).trans ?_
      split_ifs with hlt
      · exact (lt_iff_toNat_lt.mp hlt).le
      · exact le_rfl
    have hend : te.publishOffset + ptSize.toUInt64 ≤ te.size := by
      rw [le_iff_toNat_le] at hle ⊢
      rw [UInt64.toNat_add, UInt16.toNat_toUInt64]
      omega
    rw [TreeEncoder.advance, if_pos hdepth]
    refine ⟨rfl, hend, fun hbottom ↦ ?_, fun habove ↦ ?_, hall fun hpos ↦ absurd hdepth hpos.ne'⟩
    · dsimp only at hbottom ⊢
      split_ifs at hbottom with hstop
      exact (not_or.mp hstop).1
    · dsimp only at habove ⊢
      split_ifs at habove ⊢ with hstop
      · refine hstop.imp_right fun hmod ↦ ⟨rfl, ?_⟩
        rw [← UInt64.toNat_inj] at hmod
        exact hmod
      · exact absurd rfl habove
  · rw [if_neg hdepth] at hptSize
    have hblock := calculateBlockSize_of_computeIblockSize hle ((hends hdepth).imp_right
      fun hone : te.currentDepth = 1 ∧ _ ↦ hone.1.symm ▸ hone.2) hptSize
    -- the place of a key is never behind the last one of an IBLOCK
    have hplace : off ≠ .ofNat chkPerInode := by
      rw [computeChkOffset] at hoff
      split_ifs at hoff
      cases hoff
      rw [Ne, ← UInt32.toNat_inj]
      exact (mod_lt _ (by decide)).ne
    rw [TreeEncoder.advance]
    split_ifs with hclimbs
    · exact ⟨rfl, hle, fun hbottom ↦ absurd hbottom (succ_ne_zero _),
        fun _ ↦ .inl (hclimbs.resolve_left hplace), hall fun _ ↦ ⟨hptSize, hblock⟩⟩
    · exact ⟨rfl, hle, fun _ ↦ (not_or.mp hclimbs).2, fun habove ↦ absurd rfl habove,
        hall fun _ ↦ ⟨hptSize, hblock⟩⟩

/-- Every IBLOCK that the encoder emits has the size that a download expects. -/
theorem encoded_size_agrees {te : TreeEncoder} {reads : List Bool} (hfsize : 0 < fsize)
    (hrun : run treeEncoderNext (treeEncoderCreate fsize) reads = some te) :
    ∀ block ∈ te.encoded, SizeAgrees fsize block := by
  have hstart : Positioned fsize (treeEncoderCreate fsize) :=
    ⟨rfl, UInt64.le_iff_toNat_le.mpr (zero_le _), fun _ ↦ UInt64.ne_of_lt hfsize,
      fun habove ↦ absurd rfl habove, fun _ hblock ↦ by cases hblock⟩
  have hlast : Positioned fsize te := run_invariant (fun _ _ _ h _ hnext ↦ h.next hnext) hstart
    (along_of_forall (fun _ _ ↦ trivial) _ reads) hrun
  exact hlast.sizes

theorem encoded_size_agrees_two_blocks :
    run treeEncoderNext (treeEncoderCreate 40000) [true, true, true] =
        some ⟨40000, 40000, 2, [⟨0, 0, 32768⟩, ⟨32768, 0, 7232⟩, ⟨40000, 1, 256⟩]⟩ ∧
      SizeAgrees 40000 ⟨40000, 1, 256⟩ := by
  refine ⟨rfl, ?_⟩
  apply encoded_size_agrees (by decide) (rfl : run _ _ [true, true, true] = _)
  exact List.mem_of_getLast? rfl

end Gnunet.Fs
