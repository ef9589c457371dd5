import Gnunet.Fs.DownloadRequest

/-!
# The tree of requests for a range

The tree that `create_download_request` builds is right if and only if the children of every block
with bytes of the range are computed in the right way.
-/

namespace Gnunet.Fs

open Lib.FanOut List Option UInt32 Nat

section Create

variable {fileStartOffset desiredLength drOffset : UInt64} {chkIdx : UInt32} {depth : ℕ}
  {request : DownloadRequest}

theorem createDownloadRequest_succ :
    createDownloadRequest fileStartOffset desiredLength (depth + 1) chkIdx drOffset = some request ↔
      ∃ headSkip numChildren, ∃ children : Fin (toNat numChildren) → DownloadRequest,
        childRange fileStartOffset desiredLength drOffset (computeTreeSize depth) =
            some (headSkip, numChildren) ∧
          (∀ i : Fin numChildren.toNat, createDownloadRequest fileStartOffset desiredLength depth
              (.ofNat i + headSkip)
              (drOffset + (ofNat i + headSkip).toUInt64 * computeTreeSize depth) =
            some (children i)) ∧
          request = .node (newRequest chkIdx (depth + 1) drOffset) numChildren.toNat children := by
  constructor
  · intro h
    obtain ⟨⟨headSkip, numChildren⟩, hrange, h⟩ := bind_eq_some_iff.mp h
    obtain ⟨children, hchildren, h⟩ := bind_eq_some_iff.mp h
    exact ⟨headSkip, numChildren, children, hrange, allSome_eq_some.mp hchildren, (some.inj h).symm⟩
  · intro ⟨headSkip, numChildren, children, hrange, hchildren, hrequest⟩
    refine bind_eq_some_iff.mpr ⟨_, hrange, bind_eq_some_iff.mpr ⟨children, ?_, ?_⟩⟩
    · exact allSome_eq_some.mpr hchildren
    · exact congrArg some hrequest.symm

theorem createDownloadRequest_info
    (h : createDownloadRequest fileStartOffset desiredLength depth chkIdx drOffset = some request) :
    request.info = newRequest chkIdx depth drOffset := by
  cases depth with
  | zero =>
    cases h
    rfl
  | succ depth =>
    obtain ⟨_, _, _, _, _, rfl⟩ := createDownloadRequest_succ.mp h
    rfl

theorem childRange_pos {childBlockSize : UInt64} {headSkip numChildren : UInt32}
    (h : childRange fileStartOffset desiredLength drOffset childBlockSize =
      some (headSkip, numChildren)) : 0 < numChildren.toNat := by
  rw [childRange] at h
  generalize (if drOffset < fileStartOffset then _ else _ : UInt32) = head at h
  dsimp only at h
  generalize (if _ < fileStartOffset + desiredLength - drOffset then _ else _ : UInt32) = num at h
  split_ifs at h with hassert hcap
  · cases h
    decide
  · cases h
    rw [le_iff_toNat_le, not_le] at hassert
    rw [UInt32.toNat_sub_of_le _ _ (UInt32.le_iff_toNat_le.mpr hassert.le)]
    exact Nat.sub_pos_of_lt hassert

theorem leaves_node {n : ℕ} {children : Fin n → DownloadRequest} :
    (DownloadRequest.node (newRequest chkIdx (depth + 1) drOffset) n children).leaves =
      (finRange n).flatMap fun i ↦ (children i).leaves :=
  if_neg (succ_ne_zero depth)

theorem mem_leaves_node {n : ℕ} {children : Fin n → DownloadRequest} {off : UInt64} :
    off ∈ (DownloadRequest.node (newRequest chkIdx (depth + 1) drOffset) n children).leaves ↔
      ∃ i, off ∈ (children i).leaves := by
  rw [leaves_node, mem_flatMap]
  exact exists_congr fun i ↦ and_iff_right (mem_finRange i)

theorem exists_mem_leaves
    (h : createDownloadRequest fileStartOffset desiredLength depth chkIdx drOffset = some request) :
    ∃ off, off ∈ request.leaves := by
  induction depth generalizing chkIdx drOffset request with
  | zero =>
    cases h
    exact ⟨drOffset, mem_singleton.mpr rfl⟩
  | succ depth ih =>
    obtain ⟨_, _, _, hrange, hchildren, rfl⟩ :=
      createDownloadRequest_succ.mp h
    obtain ⟨off, hoff⟩ := ih (hchildren ⟨0, childRange_pos hrange⟩)
    exact ⟨off, mem_leaves_node.mpr ⟨_, hoff⟩⟩

end Create

section Touched

variable {start stop o o' depth depth' k : ℕ}

theorem Touches.exists_child (h : Touches start stop o' depth') (hdepth : depth' ≤ depth)
    (ho : tree.span depth ∣ o) (hle : o ≤ o') (hlt : o' < o + tree.span (depth + 1)) :
    ∃ k < chkPerInode, Touches start stop (o + k * tree.span depth) depth ∧
      o + k * tree.span depth ≤ o' ∧ o' < o + k * tree.span depth + tree.span depth := by
  obtain ⟨hdvd, hstop, hstart⟩ := h
  obtain ⟨k, hk, hfrom, hto⟩ := tree.exists_child hle hlt
  have hchild : tree.span depth ∣ o + k * tree.span depth :=
    Nat.dvd_add ho (Nat.dvd_mul_left _ _)
  refine ⟨k, hk, ⟨hchild, hfrom.trans_lt hstop, hstart.trans_le ?_⟩, hfrom, hto⟩
  exact tree.add_span_le hdepth hchild hdvd hto

theorem touches_child_iff (ho : tree.span depth ∣ o) (hstop : o ≤ stop) :
    Touches start stop (o + k * tree.span depth) depth ↔
      skippedChildren start o depth ≤ k ∧ k < tree.blocks (stop - o) depth := by
  have hpos := tree.span_pos depth
  have hdvd : tree.span depth ∣ o + k * tree.span depth :=
    Nat.dvd_add ho (Nat.dvd_mul_left _ _)
  rw [Touches, Shape.lt_blocks_iff, skippedChildren, ← Nat.lt_succ_iff,
    div_lt_iff_lt_mul hpos, succ_mul]
  omega

def Below (start stop o depth off : ℕ) : Prop :=
  Touches start stop off 0 ∧ o ≤ off ∧ off < o + tree.span depth

theorem Touches.exists_dblock (h : Touches start stop o depth) (hrange : start < stop) :
    ∃ off, Below start stop o depth off := by
  obtain ⟨hdvd, hstop, _⟩ := h
  have hpos := tree.span_pos 0
  have hspan := tree.span_pos depth
  have hzero : tree.span 0 ∣ o := (tree.span_dvd_span (zero_le depth)).trans hdvd
  have hfloor := div_mul_le_self start (tree.span 0)
  have hnext := lt_div_mul_add hpos (a := start)
  by_cases hle : start ≤ o
  · exact ⟨o, ⟨hzero, hstop, by omega⟩, le_refl _, by omega⟩
  · have hafter : o ≤ start / tree.span 0 * tree.span 0 :=
      le_of_lt_add_of_dvd (by omega) hzero (dvd_mul_left _ _)
    exact ⟨_, ⟨dvd_mul_left _ _, by omega, hnext⟩, hafter, by omega⟩

theorem below_zero_iff {off : ℕ} (ho : Touches start stop o 0) :
    Below start stop o 0 off ↔ off = o := by
  constructor
  · intro ⟨htouched, hfrom, hto⟩
    exact le_antisymm (le_of_lt_add_of_dvd hto htouched.1 ho.1) hfrom
  · rintro rfl
    exact ⟨ho, Nat.le_refl _, Nat.lt_add_of_pos_right (tree.span_pos 0)⟩

theorem Below.of_child {off : ℕ} (hk : k < chkPerInode)
    (h : Below start stop (o + k * tree.span depth) depth off) :
    Below start stop o (depth + 1) off := by
  obtain ⟨htouched, hfrom, hto⟩ := h
  exact ⟨htouched, le_of_add_right_le hfrom, hto.trans_le (tree.child_le o hk)⟩

theorem below_succ_iff {off : ℕ} (ho : tree.span depth ∣ o) (hstop : o ≤ stop) :
    Below start stop o (depth + 1) off ↔
      ∃ k, skippedChildren start o depth ≤ k ∧ k < tree.blocks (stop - o) depth ∧
        k < chkPerInode ∧ Below start stop (o + k * tree.span depth) depth off := by
  constructor
  · intro ⟨htouched, hfrom, hto⟩
    obtain ⟨k, hk, habove, hwithin⟩ := htouched.exists_child (zero_le depth) ho hfrom hto
    rw [touches_child_iff ho hstop] at habove
    exact ⟨k, habove.1, habove.2, hk, htouched, hwithin⟩
  · intro ⟨k, _, _, hk, hbelow⟩
    exact hbelow.of_child hk

end Touched

section Right

variable {fsize start length o : UInt64} {headSkip : UInt32} {depth i : ℕ}

theorem toNat_childIndex (h : i + headSkip.toNat < 2 ^ 32) :
    (UInt32.ofNat i + headSkip).toNat = i + headSkip.toNat := by
  rw [UInt32.toNat_add, UInt32.toNat_ofNat_of_lt' (show i < 2 ^ 32 by omega)]
  exact mod_eq_of_lt h

theorem toNat_childOffset (hdepth : depth ≤ 6) (ho : o.toNat + tree.span (depth + 1) ≤ 2 ^ 63)
    (h : i + headSkip.toNat < chkPerInode) :
    (o + (ofNat i + headSkip).toUInt64 * computeTreeSize depth).toNat =
      o.toNat + (i + headSkip.toNat) * tree.span depth := by
  have hindex : (ofNat i + headSkip).toNat = i + headSkip.toNat :=
    toNat_childIndex (h.trans (by decide))
  have hsucc : tree.span (depth + 1) = tree.span depth * chkPerInode := tree.span_succ depth
  have hlt : (i + headSkip.toNat) * tree.span depth < tree.span (depth + 1) := by
    rw [hsucc, mul_comm]
    exact mul_lt_mul_of_pos_left h (tree.span_pos depth)
  rw [UInt64.toNat_add, UInt64.toNat_mul, toNat_toUInt64, hindex, toNat_computeTreeSize hdepth,
    mod_eq_of_lt (show (i + headSkip.toNat) * tree.span depth < 2 ^ 64 by omega)]
  exact mod_eq_of_lt (by omega)

theorem add_span_le_of_touches {stop : ℕ} (h : Touches start.toNat stop o.toNat depth)
    (hdepth : depth ≤ 6) (hstop : stop ≤ 2 ^ 63) : o.toNat + tree.span depth ≤ 2 ^ 63 := by
  obtain ⟨hdvd, _, _⟩ := h
  have hsix : tree.span 6 = 2 ^ 63 := span_eq 6
  have hle := tree.add_span_le hdepth (dvd_zero _) hdvd (o := 0) (by omega)
  omega

structure Serves (fsize start length o : UInt64) (depth : ℕ) (request : DownloadRequest) :
    Prop where
  linked : request.Linked fsize
  nodup : request.leaves.Nodup
  mem_leaves : ∀ off, off ∈ request.leaves ↔
    Below start.toNat (start.toNat + length.toNat) o.toNat depth off.toNat

theorem serves_dblock (chkIdx : UInt32)
    (ho : Touches start.toNat (start.toNat + length.toNat) o.toNat 0) :
    Serves fsize start length o 0 (.node (newRequest chkIdx 0 o) 0 Fin.elim0) where
  linked := fun i ↦ i.elim0
  nodup := nodup_singleton _
  mem_leaves := fun off ↦ by
    have hleaves : off ∈ (DownloadRequest.node (newRequest chkIdx 0 o) 0 Fin.elim0).leaves ↔
        off = o := mem_singleton
    rw [hleaves, below_zero_iff ho, UInt64.toNat_inj]

theorem create_right (hfsize : fsize.toNat ≤ 2 ^ 63)
    (hle : start.toNat + length.toNat ≤ fsize.toNat) (hdepth : depth ≤ 6) (chkIdx : UInt32)
    (o : UInt64) (ho : Touches start.toNat (start.toNat + length.toNat) o.toNat depth)
    (hright : ∀ d < depth, ∀ o' : UInt64,
      Touches start.toNat (start.toNat + length.toNat) o'.toNat (d + 1) → o.toNat ≤ o'.toNat →
        o'.toNat < o.toNat + tree.span depth → ChildrenRight start length o' d) :
    ∃ request, createDownloadRequest start length depth chkIdx o = some request ∧
      Serves fsize start length o depth request := by
  induction depth generalizing chkIdx o with
  | zero => exact ⟨_, rfl, serves_dblock chkIdx ho⟩
  | succ depth ih =>
    obtain ⟨headSkip, numChildren, hrange, _, _⟩ :=
      hright depth (lt_succ_self depth) o ho (le_refl _)
        (Nat.lt_add_of_pos_right (tree.span_pos _))
    have hdepth' : depth ≤ 6 := le_of_succ_le hdepth
    have hroom := add_span_le_of_touches ho hdepth (hle.trans hfsize)
    have hdvd : tree.span depth ∣ o.toNat := (tree.span_dvd_span (le_succ depth)).trans ho.1
    have hindex (i : Fin numChildren.toNat) : i + headSkip.toNat < chkPerInode := by omega
    have hoffset (i : Fin numChildren.toNat) := toNat_childOffset hdepth' hroom (hindex i)
    have htouches (i : Fin numChildren.toNat) :
        Touches start.toNat (start.toNat + length.toNat)
          (o + (ofNat i + headSkip).toUInt64 * computeTreeSize depth).toNat depth := by
      rw [hoffset i, touches_child_iff hdvd ho.2.1.le]
      omega
    choose children hcreate hserves using fun i : Fin numChildren.toNat ↦
      ih hdepth' (.ofNat i + headSkip) _ (htouches i) fun d hd o' ho' hfrom hto ↦ by
        rw [hoffset i] at hfrom hto
        exact hright d (lt_succ_of_lt hd) o' ho' (le_of_add_right_le hfrom)
          (hto.trans_le (tree.child_le _ (hindex i)))
    refine ⟨_, createDownloadRequest_succ.mpr ⟨_, _, children, hrange, hcreate, rfl⟩, ?_, ?_, ?_⟩
    · have hlt : o < fsize := UInt64.lt_iff_toNat_lt.mpr (ho.2.1.trans_le hle)
      obtain ⟨size, hsize, hkeys⟩ := calculateBlockSize_succ hlt (le_of_succ_le_succ hdepth)
      replace hkeys := congrArg (· / contentHashKeySize) hkeys
      rw [Nat.mul_div_cancel_left _ (by decide)] at hkeys
      have hblocks : tree.blocks (start.toNat + length.toNat - o.toNat) depth ≤
          tree.blocks (fsize.toNat - o.toNat) depth :=
        tree.blocks_mono depth (Nat.sub_le_sub_right hle _)
      intro i
      have hinfo := createDownloadRequest_info (hcreate i)
      have hidx : (ofNat i + headSkip).toNat = i + headSkip.toNat :=
        toNat_childIndex ((hindex i).trans (by decide))
      rw [hinfo]
      refine ⟨⟨size, hsize, ?_⟩, ?_, (hserves i).linked⟩
      · change (ofNat i + headSkip).toNat < _
        omega
      · change _ = o.toNat + (ofNat i + headSkip).toNat * (computeTreeSize depth).toNat
        rw [hidx, toNat_computeTreeSize hdepth']
        exact hoffset i
    · rw [leaves_node, nodup_flatMap]
      refine ⟨fun i _ ↦ (hserves i).nodup, (nodup_finRange _).imp fun {i j} hne off hi hj ↦ hne ?_⟩
      obtain ⟨-, hi, hi'⟩ := ((hserves i).mem_leaves off).mp hi
      obtain ⟨-, hj, hj'⟩ := ((hserves j).mem_leaves off).mp hj
      rw [hoffset] at hi hi' hj hj'
      exact Fin.ext (add_right_cancel (tree.child_unique hi hi' hj hj'))
    · intro off
      rw [mem_leaves_node, below_succ_iff hdvd ho.2.1.le]
      constructor
      · intro ⟨i, hi⟩
        have hbelow := ((hserves i).mem_leaves off).mp hi
        rw [hoffset] at hbelow
        exact ⟨_, by omega, by omega, hindex i, hbelow⟩
      · intro ⟨k, hfirst, hlast, hk, hbelow⟩
        refine ⟨⟨k - headSkip.toNat, by omega⟩, ((hserves _).mem_leaves off).mpr ?_⟩
        rw [hoffset, Nat.sub_add_cancel (by omega)]
        exact hbelow

end Right

section Necessary

variable {fsize start length o : UInt64} {headSkip numChildren chkIdx : UInt32} {depth : ℕ}
  {request : DownloadRequest}

theorem calculateBlockSize_le {size : UInt64}
    (h : calculateBlockSize fsize o (depth + 1) = some size) :
    size.toNat / contentHashKeySize ≤ chkPerInode := by
  rw [calculateBlockSize] at h
  dsimp only at h
  generalize ((_ : UInt64) / computeTreeSize depth).toUInt32 = chks at h
  split_ifs at h with hassert hcap
  cases h
  rw [lt_iff_toNat_lt, not_lt] at hcap
  have hle : chks.toNat ≤ 256 := hcap
  have hsize : (chks.toUInt64 * .ofNat contentHashKeySize).toNat =
      chks.toNat * contentHashKeySize := by
    exact mod_eq_of_lt ((mul_le_mul_right contentHashKeySize hle).trans_lt (by decide))
  rw [hsize, Nat.mul_div_cancel _ (by decide)]
  exact hle

variable {off : UInt64}

theorem leaves_within (hdepth : depth ≤ 6)
    (hcreate : createDownloadRequest start length depth chkIdx o = some request)
    (hlinked : request.Linked fsize) (hoff : off ∈ request.leaves) :
    o.toNat ≤ off.toNat ∧ off.toNat < o.toNat + tree.span depth := by
  induction depth generalizing chkIdx o request with
  | zero =>
    cases hcreate
    obtain rfl : off = o := mem_singleton.mp hoff
    exact ⟨Nat.le_refl _, Nat.lt_add_of_pos_right (tree.span_pos 0)⟩
  | succ depth ih =>
    have hdepth' : depth ≤ 6 := le_of_succ_le hdepth
    obtain ⟨_, _, _, -, hchildren, rfl⟩ :=
      createDownloadRequest_succ.mp hcreate
    obtain ⟨i, hi⟩ := mem_leaves_node.mp hoff
    obtain ⟨⟨_, hsize, hidx⟩, hoffset, hlinked⟩ := hlinked i
    have hwithin := ih hdepth' (hchildren i) hlinked hi
    rw [createDownloadRequest_info (hchildren i)] at hidx hoffset
    change _ = o.toNat + _ * (computeTreeSize depth).toNat at hoffset
    rw [toNat_computeTreeSize hdepth'] at hoffset
    have hnext := tree.child_le (d := depth) o.toNat (hidx.trans_le (calculateBlockSize_le hsize))
    change (o + _).toNat = _ at hoffset
    omega

section Leaves

variable {stop base skip n : ℕ} {children : Fin n → DownloadRequest}
  (hwithin : ∀ i off, off ∈ (children i).leaves →
    base + (i + skip) * tree.span depth ≤ off.toNat ∧
      off.toNat < base + (i + skip) * tree.span depth + tree.span depth)
  (hleaves : ∀ off : UInt64, (∃ i, off ∈ (children i).leaves) ↔
    Below start.toNat stop base (depth + 1) off.toNat)

include hwithin hleaves

theorem exists_mem_child_leaves {k : ℕ} (hk : k < chkPerInode)
    (hoff : Below start.toNat stop (base + k * tree.span depth) depth off.toNat) :
    ∃ i, i.val + skip = k ∧ off ∈ (children i).leaves := by
  obtain ⟨i, hi⟩ := (hleaves off).mpr (hoff.of_child hk)
  obtain ⟨-, hfrom, hto⟩ := hoff
  obtain ⟨hfrom', hto'⟩ := hwithin i off hi
  exact ⟨i, tree.child_unique hfrom' hto' hfrom hto, hi⟩

theorem mem_child_leaves_iff {i : Fin n} (hi : i + skip < chkPerInode) (off : UInt64) :
    off ∈ (children i).leaves ↔
      Below start.toNat stop (base + (i + skip) * tree.span depth) depth off.toNat := by
  constructor
  · intro hoff
    exact ⟨((hleaves off).mp ⟨i, hoff⟩).1, hwithin i off hoff⟩
  · intro hoff
    obtain ⟨j, hj, hmem⟩ := exists_mem_child_leaves hwithin hleaves hi hoff
    obtain rfl : j = i := Fin.ext (add_right_cancel hj)
    exact hmem

theorem exists_index_of_touches {k : ℕ} (hrange : start.toNat < stop) (hstop : stop < 2 ^ 64)
    (hk : k < chkPerInode)
    (htouched : Touches start.toNat stop (base + k * tree.span depth) depth) :
    ∃ i : Fin n, i + skip = k := by
  obtain ⟨off, hoff⟩ := htouched.exists_dblock hrange
  have hnat : (UInt64.ofNat off).toNat = off := UInt64.toNat_ofNat_of_lt' (hoff.1.2.1.trans hstop)
  rw [← hnat] at hoff
  obtain ⟨i, hi, -⟩ := exists_mem_child_leaves hwithin hleaves hk hoff
  exact ⟨i, hi⟩

end Leaves

variable (hfsize : fsize.toNat ≤ 2 ^ 63) (hle : start.toNat + length.toNat ≤ fsize.toNat)
  (hlength : 0 < length.toNat)

include hfsize hle hlength

theorem Serves.children (hdepth : depth + 1 ≤ 6)
    (ho : Touches start.toNat (start.toNat + length.toNat) o.toNat (depth + 1))
    (hcreate : createDownloadRequest start length (depth + 1) chkIdx o = some request)
    (h : Serves fsize start length o (depth + 1) request) :
    ChildrenRight start length o depth ∧
      ∀ k < chkPerInode, Touches start.toNat (start.toNat + length.toNat)
          (o.toNat + k * tree.span depth) depth →
        ∃ chkIdx o' child, UInt64.toNat o' = o.toNat + k * tree.span depth ∧
          createDownloadRequest start length depth chkIdx o' = some child ∧
          Serves fsize start length o' depth child := by
  obtain ⟨headSkip, numChildren, children, hrange, hchildren, rfl⟩ :=
    createDownloadRequest_succ.mp hcreate
  have hdepth' : depth ≤ 6 := le_of_succ_le hdepth
  have hsum := hle.trans_lt fsize.toNat_lt
  have hroom := add_span_le_of_touches ho hdepth (hle.trans hfsize)
  have hdvd : tree.span depth ∣ o.toNat := (tree.span_dvd_span (le_succ depth)).trans ho.1
  have hskip' := skippedChildren_lt ho.2.2
  obtain ⟨-, hskip, hcount⟩ := (childRange_eq_some_iff hdepth' hsum ho.2.1.le hskip').mp hrange
  have hindex (i : Fin numChildren.toNat) : i + headSkip.toNat < chkPerInode := by
    have hfan : chkPerInode = 256 := rfl
    obtain ⟨⟨_, hsize, hidx⟩, -⟩ := h.linked i
    rw [createDownloadRequest_info (hchildren i)] at hidx
    change (ofNat i + headSkip).toNat < _ at hidx
    rw [toNat_childIndex (by omega)] at hidx
    exact hidx.trans_le (calculateBlockSize_le hsize)
  have hoffset (i : Fin numChildren.toNat) := toNat_childOffset hdepth' hroom (hindex i)
  have hwithin (i : Fin numChildren.toNat) (off : UInt64) (hoff : off ∈ (children i).leaves) :
      o.toNat + (i + headSkip.toNat) * tree.span depth ≤ off.toNat ∧
        off.toNat < o.toNat + (i + headSkip.toNat) * tree.span depth + tree.span depth := by
    rw [← hoffset i]
    exact leaves_within hdepth' (hchildren i) (h.linked i).2.2 hoff
  have hleaves (off : UInt64) := mem_leaves_node.symm.trans (h.mem_leaves off)
  have hall {k : ℕ} := exists_index_of_touches hwithin hleaves (k := k)
    (Nat.lt_add_of_pos_right hlength) hsum
  have hlast (i : Fin numChildren.toNat) :
      i + headSkip.toNat < tree.blocks (start.toNat + length.toNat - o.toNat) depth := by
    obtain ⟨off, hoff⟩ := exists_mem_leaves (hchildren i)
    have hstop := ((hleaves off).mp ⟨i, hoff⟩).1.2.1
    have hfrom := (hwithin i off hoff).1
    rw [Shape.lt_blocks_iff]
    omega
  constructor
  · refine ⟨headSkip, numChildren, hrange, hskip, le_antisymm ?_ ?_⟩
    · have hpos := childRange_pos hrange
      have hlast' := hlast ⟨numChildren.toNat - 1, sub_one_lt_of_lt hpos⟩
      have hindex' := hindex ⟨numChildren.toNat - 1, sub_one_lt_of_lt hpos⟩
      dsimp only at hlast' hindex'
      omega
    · by_contra hlt
      have htouched : Touches start.toNat (start.toNat + length.toNat)
          (o.toNat + (headSkip.toNat + numChildren.toNat) * tree.span depth) depth := by
        rw [touches_child_iff hdvd ho.2.1.le]
        omega
      obtain ⟨i, _⟩ := hall (by omega) htouched
      omega
  · intro k hk htouched
    obtain ⟨i, rfl⟩ := hall hk htouched
    have hnodup := h.nodup
    rw [leaves_node, nodup_flatMap] at hnodup
    refine ⟨_, _, _, hoffset i, hchildren i, (h.linked i).2.2,
      hnodup.1 i (mem_finRange i), fun off ↦ ?_⟩
    rw [hoffset i]
    exact mem_child_leaves_iff hwithin hleaves (hindex i) off

theorem Serves.childrenRight (hdepth : depth ≤ 6)
    (ho : Touches start.toNat (start.toNat + length.toNat) o.toNat depth)
    (hcreate : createDownloadRequest start length depth chkIdx o = some request)
    (h : Serves fsize start length o depth request) {d : ℕ} (hd : d < depth) {o' : UInt64}
    (ho' : Touches start.toNat (start.toNat + length.toNat) o'.toNat (d + 1))
    (hfrom : o.toNat ≤ o'.toNat) (hto : o'.toNat < o.toNat + tree.span depth) :
    ChildrenRight start length o' d := by
  induction depth generalizing chkIdx o request with
  | zero => exact absurd hd (not_lt_zero d)
  | succ depth ih =>
    obtain ⟨hright, hchildren⟩ := h.children hfsize hle hlength hdepth ho hcreate
    rcases eq_or_lt_of_le (le_of_lt_succ hd) with rfl | hd
    · obtain rfl : o' = o := UInt64.toNat_inj.mp
        (le_antisymm (le_of_lt_add_of_dvd hto ho'.1 ho.1) hfrom)
      exact hright
    · obtain ⟨k, hk, habove, hfrom', hto'⟩ := ho'.exists_child (succ_le_of_lt hd)
        ((tree.span_dvd_span (Nat.le_succ depth)).trans ho.1) hfrom hto
      obtain ⟨chkIdx, _, _, hoffset, hchild, hserves⟩ := hchildren k hk habove
      rw [← hoffset] at habove hfrom' hto'
      exact ih (le_of_succ_le hdepth) habove hchild hserves hd hfrom' hto'

end Necessary

instance (start stop depth : ℕ) : Decidable (LevelSupported start stop depth) :=
  inferInstanceAs (Decidable (_ ∧ _))

/-- The file has at most `2 ^ 63` bytes, and at every level the range starts at the first child of a
block or ends within the block in which it starts. -/
def RangeSupported (fsize offset length : UInt64) : Prop :=
  fsize.toNat ≤ 2 ^ 63 ∧ ∀ d < computeDepth fsize - 1,
    LevelSupported offset.toNat (offset.toNat + length.toNat) d

instance (fsize offset length : UInt64) : Decidable (RangeSupported fsize offset length) :=
  inferInstanceAs (Decidable (_ ∧ _))

section Range

variable {fsize offset length : UInt64}

theorem computeDepth_le_of_le (h : fsize.toNat ≤ 2 ^ 63) : computeDepth fsize - 1 ≤ 6 := by
  have hlast := mt (succ_lt_computeDepth_iff fsize 6).mp
    (not_lt.mpr (h.trans_eq (span_eq 6).symm))
  omega

theorem le_span_computeDepth (fsize : UInt64) :
    fsize.toNat ≤ tree.span (computeDepth fsize - 1) := by
  rw [← not_lt, ← succ_lt_computeDepth_iff]
  omega

theorem touches_top (hle : offset.toNat + length.toNat ≤ fsize.toNat) (hlength : 0 < length.toNat) :
    Touches offset.toNat (offset.toNat + length.toNat) 0 (computeDepth fsize - 1) := by
  have htop := le_span_computeDepth fsize
  exact ⟨dvd_zero _, by omega, by omega⟩

theorem forall_childrenRight_iff (hfsize : fsize.toNat ≤ 2 ^ 63)
    (hle : offset.toNat + length.toNat ≤ fsize.toNat) (hlength : 0 < length.toNat) :
    (∀ d < computeDepth fsize - 1, ∀ o : UInt64,
        Touches offset.toNat (offset.toNat + length.toNat) o.toNat (d + 1) →
          ChildrenRight offset length o d) ↔
      ∀ d < computeDepth fsize - 1,
        LevelSupported offset.toNat (offset.toNat + length.toNat) d := by
  have hsum := hle.trans_lt fsize.toNat_lt
  refine forall₂_congr fun d hd ↦ ?_
  have hd' : d ≤ 6 := hd.le.trans (computeDepth_le_of_le hfsize)
  rw [levelSupported_iff (Nat.lt_add_of_pos_right hlength)]
  constructor
  · intro h o ho
    have hnat : (UInt64.ofNat o).toNat = o := UInt64.toNat_ofNat_of_lt' (ho.2.1.trans hsum)
    rw [← hnat] at ho ⊢
    exact (childrenRight_iff hd' hsum hlength ho.2.1 ho.2.2).mp (h _ ho)
  · intro h o ho
    exact (childrenRight_iff hd' hsum hlength ho.2.1 ho.2.2).mpr (h _ ho)

theorem not_requestsRight_of_lt (h : 2 ^ 63 < fsize.toNat) :
    ¬ RequestsRight fsize offset length := by
  intro ⟨top, hcreate, hlinked, _⟩
  have hdepth : computeDepth fsize - 1 = 7 := by
    have hle := computeDepth_le fsize
    have hlt := (succ_lt_computeDepth_iff fsize 6).mpr ((span_eq 6).trans_lt h)
    omega
  rw [hdepth] at hcreate
  obtain ⟨_, _, _, hrange, -, rfl⟩ := createDownloadRequest_succ.mp hcreate
  obtain ⟨⟨size, hsize, hidx⟩, -⟩ := hlinked ⟨0, childRange_pos hrange⟩
  have hempty : calculateBlockSize fsize 0 7 = some 0 := by
    -- the size of the tree overflows, so that the block seems to end at its start
    have hend : (0 : UInt64) + computeTreeSize 6 * .ofNat chkPerInode = 0 := by decide
    have hzero : ¬ fsize < 0 := by
      exact not_lt_zero _
    have hassert : ¬ (fsize = 0 ∨ fsize < 0) := by
      rintro (rfl | hlt)
      · exact absurd h (by decide)
      · exact hzero hlt
    rw [calculateBlockSize, if_neg hassert]
    dsimp only
    rw [hend, if_neg (not_or.mpr ⟨by decide, hzero⟩)]
    decide
  obtain rfl : 0 = size := some.inj (hempty.symm.trans hsize)
  exact absurd hidx (not_lt_zero _)

/-- The requests for a range of a file are right if and only if the range is supported. -/
theorem requestsRight_iff (hle : offset.toNat + length.toNat ≤ fsize.toNat) (hlength : 0 < length) :
    RequestsRight fsize offset length ↔ RangeSupported fsize offset length := by
  have hpos : 0 < length.toNat := UInt64.lt_iff_toNat_lt.mp hlength
  by_cases hfsize : fsize.toNat ≤ 2 ^ 63
  · have hdepth := computeDepth_le_of_le hfsize
    have htop := touches_top hle hpos
    have hspan := le_span_computeDepth fsize
    have hbelow (off : ℕ) : Below offset.toNat (offset.toNat + length.toNat) 0
        (computeDepth fsize - 1) off ↔
        Touches offset.toNat (offset.toNat + length.toNat) off 0 :=
      and_iff_left_of_imp fun htouched ↦ ⟨zero_le _, by have := htouched.2.1; omega⟩
    rw [RangeSupported, and_iff_right hfsize, ← forall_childrenRight_iff hfsize hle hpos]
    constructor
    · intro ⟨top, hcreate, hlinked, hnodup, hleaves⟩ d hd o ho
      have hserves : Serves fsize offset length 0 (computeDepth fsize - 1) top :=
        ⟨hlinked, hnodup, fun off ↦ (hleaves off).trans (hbelow off.toNat).symm⟩
      exact hserves.childrenRight (o := 0) hfsize hle hpos hdepth htop hcreate hd ho (zero_le _)
        (by have := ho.2.1; rw [UInt64.toNat_zero]; omega)
    · intro h
      obtain ⟨top, hcreate, hserves⟩ := create_right hfsize hle hdepth 0 0 htop
        fun d hd o ho _ _ ↦ h d hd o ho
      exact ⟨top, hcreate, hserves.linked, hserves.nodup,
        fun off ↦ (hserves.mem_leaves off).trans (hbelow off.toNat)⟩
  · exact iff_of_false (not_requestsRight_of_lt (Nat.lt_of_not_le hfsize)) fun h ↦ hfsize h.1

end Range

/-- A range that starts at the first byte of an IBLOCK and ends in the next one. -/
theorem requestsRight_two_iblocks :
    (0 : UInt64).toNat + (8421376 : UInt64).toNat ≤ (8421376 : UInt64).toNat ∧
      (0 : UInt64) < 8421376 ∧ RequestsRight 8421376 0 8421376 :=
  ⟨by decide, by decide, (requestsRight_iff (by decide) (by decide)).mpr (by decide)⟩

/-- For a range of 256 DBLOCKs that starts at the second one, the first IBLOCK gets a child with
the index 256. -/
theorem child_out_of_iblock :
    (32768 : UInt64).toNat + (8388608 : UInt64).toNat ≤ (8421376 : UInt64).toNat ∧
      (0 : UInt64) < 8388608 ∧ ¬ RequestsRight 8421376 32768 8388608 := by
  refine ⟨by decide, by decide, fun ⟨top, hcreate, hlinked, _⟩ ↦ ?_⟩
  obtain ⟨headSkip, numChildren, children, hrange, hchildren, rfl⟩ :=
    createDownloadRequest_succ.mp hcreate
  have hfirst : childRange 32768 8388608 0 (computeTreeSize 1) = some (0, 2) := by decide
  cases hfirst.symm.trans hrange
  have hiblock := hchildren ⟨0, by decide⟩
  have hlinked := (hlinked ⟨0, by decide⟩).2.2
  obtain ⟨headSkip, numChildren, children, hrange, hchildren, hnode⟩ :=
    createDownloadRequest_succ.mp hiblock
  have hsecond : childRange 32768 8388608
      (0 + (ofNat 0 + 0).toUInt64 * computeTreeSize 1) (computeTreeSize 0) =
        some (1, 256) := by decide
  cases hsecond.symm.trans hrange
  rw [hnode] at hlinked
  obtain ⟨⟨_, hsize, hidx⟩, -⟩ := hlinked ⟨255, by decide⟩
  rw [createDownloadRequest_info (hchildren ⟨255, by decide⟩)] at hidx
  exact absurd (hidx.trans_le (calculateBlockSize_le hsize)) (by decide)

end Gnunet.Fs
