import Gnunet.Fs.DownloadTree

/-!
# What a download has completed

The number of completed bytes is the number of bytes of the range that are in DBLOCKs below requests
that are done, as long as no block that starts before the range is taken from the existing file, and
no child download completes before the download itself.
-/

namespace Gnunet.Fs

open DownloadRequest Lib.FanOut Lib.Runs Option Finset UInt64 Nat

def bytesIn (start stop o width : ℕ) : ℕ := min (o + width) stop - max o start

section Bytes

variable {start stop o depth : ℕ}

theorem exists_below_iff {byte : ℕ} (ho : Touches start stop o depth) (hstart : start ≤ byte)
    (hstop : byte < stop) (hsmall : stop < 2 ^ 64) :
    (∃ off : UInt64, Below start stop o depth off.toNat ∧ off.toNat ≤ byte ∧
        byte < off.toNat + dblockSize) ↔ o ≤ byte ∧ byte < o + tree.span depth := by
  have hzero : tree.span 0 ∣ o := (tree.span_dvd_span (zero_le depth)).trans ho.1
  constructor
  · intro ⟨off, ⟨htouched, hfrom, hto⟩, hle, hlt⟩
    have hend := tree.add_span_le (zero_le depth) ho.1 htouched.1 hto
    exact ⟨hfrom.trans hle, hlt.trans_le hend⟩
  · intro ⟨hfrom, hto⟩
    have hfloor := div_mul_le_self byte (tree.span 0)
    have hnext := lt_div_mul_add (tree.span_pos 0) (a := byte)
    have hdvd : tree.span 0 ∣ byte / tree.span 0 * tree.span 0 := dvd_mul_left _ _
    have hfirst : o ≤ byte / tree.span 0 * tree.span 0 :=
      le_of_lt_add_of_dvd (hfrom.trans_lt hnext) hzero hdvd
    have hnat : (ofNat (byte / tree.span 0 * tree.span 0)).toNat =
        byte / tree.span 0 * tree.span 0 :=
      toNat_ofNat_of_lt' (hfloor.trans_lt (hstop.trans hsmall))
    refine ⟨.ofNat (byte / tree.span 0 * tree.span 0), ?_⟩
    rw [hnat]
    exact ⟨⟨⟨hdvd, hfloor.trans_lt hstop, hstart.trans_lt hnext⟩, hfirst, hfloor.trans_lt hto⟩,
      hfloor, hnext⟩

theorem card_filter_bytes (start stop o width : ℕ) :
    ((Ico start stop).filter fun byte ↦ o ≤ byte ∧ byte < o + width).card =
      bytesIn start stop o width := by
  have heq : ((Ico start stop).filter fun byte ↦ o ≤ byte ∧ byte < o + width) =
      Ico (max o start) (min (o + width) stop) := by
    ext byte
    simp only [mem_filter, mem_Ico]
    omega
  rw [heq, card_Ico, bytesIn]

end Bytes

section Covered

variable {dc : DownloadContext} {top new sub : DownloadRequest} {path : List ℕ}

theorem mem_coveredBytes {byte : ℕ} : byte ∈ coveredBytes dc top ↔
    (dc.offset.toNat ≤ byte ∧ byte < dc.offset.toNat + dc.length.toNat) ∧
      ∃ off ∈ top.covered, off.toNat ≤ byte ∧ byte < off.toNat + dblockSize := by
  rw [coveredBytes, mem_filter, mem_Ico]

theorem card_coveredBytes_of_nil (h : top.covered = []) : (coveredBytes dc top).card = 0 := by
  rw [Finset.card_eq_zero, eq_empty_iff_forall_notMem]
  intro byte hbyte
  obtain ⟨-, _, hoff, -⟩ := mem_coveredBytes.mp hbyte
  rw [h] at hoff
  cases hoff

theorem card_coveredBytes_le : (coveredBytes dc top).card ≤ dc.length.toNat := by
  calc (coveredBytes dc top).card
      ≤ (Ico dc.offset.toNat (dc.offset.toNat + dc.length.toNat)).card :=
        card_filter_le _ _
    _ = dc.length.toNat := by rw [Nat.card_Ico, Nat.add_sub_cancel_left]

theorem card_coveredBytes_add (hsum : dc.offset.toNat + dc.length.toNat < 2 ^ 64)
    (hsound : top.Sound dc.offset dc.length) (hreaches : Reaches dc.offset dc.length sub path top)
    (h : Advances dc.offset dc.length top new fun off ↦ Below dc.offset.toNat
      (dc.offset.toNat + dc.length.toNat) sub.info.offset.toNat sub.info.depth off.toNat) :
    (coveredBytes dc new).card = (coveredBytes dc top).card +
      bytesIn dc.offset.toNat (dc.offset.toNat + dc.length.toNat) sub.info.offset.toNat
        (tree.span sub.info.depth) := by
  have htouches := hreaches.waiting.1.placed.touches
  have hunit : tree.span 0 = dblockSize := tree.span_zero
  rw [← card_filter_bytes, ← card_union_of_disjoint]
  · congr 1
    ext byte
    simp only [mem_union, mem_coveredBytes, mem_filter, mem_Ico, h.covered_iff, ← and_or_left]
    refine and_congr_right fun ⟨hstart, hstop⟩ ↦ ?_
    rw [← exists_below_iff htouches hstart hstop hsum, ← exists_or]
    exact exists_congr fun off ↦ or_and_right
  · rw [disjoint_left]
    intro byte hcovered hpart
    obtain ⟨-, off, hoff, _, _⟩ := mem_coveredBytes.mp hcovered
    obtain ⟨-, _, _⟩ := mem_filter.mp hpart
    by_cases hafter : sub.info.offset.toNat ≤ off.toNat
    · have houtside := hreaches.covered_outside hoff hafter
      omega
    · -- a DBLOCK before the request ends before it
      have hdvd := (hsound.covered_below hoff).1.1
      have hzero : tree.span 0 ∣ sub.info.offset.toNat :=
        (tree.span_dvd_span (zero_le _)).trans htouches.1
      have hend : off.toNat + tree.span 0 ≤ sub.info.offset.toNat :=
        Nat.le_of_lt_add_of_dvd (by omega) (Nat.dvd_add hdvd (Nat.dvd_refl _)) hzero
      omega

end Covered

section Counting

variable {start length o size app : UInt64} {depth : ℕ}

theorem toNat_add_of_lt {a b : UInt64} (h : a.toNat + b.toNat < 2 ^ 64) :
    (a + b).toNat = a.toNat + b.toNat := by
  exact mod_eq_of_lt h

theorem toNat_dblockProgress (hsum : start.toNat + length.toNat < 2 ^ 64)
    (hend : o.toNat + size.toNat < 2 ^ 64) (hstop : o.toNat < start.toNat + length.toNat)
    (h : dblockProgress start length o size = some app) :
    app.toNat = bytesIn start.toNat (start.toNat + length.toNat) o.toNat size.toNat := by
  obtain ⟨tail, htail, h⟩ := bind_eq_some_iff.mp h
  have hskip : tail.toNat = o.toNat + size.toNat - max o.toNat start.toNat := by
    split_ifs at htail with hbefore hassert
    · cases htail
      have hgap := UInt64.toNat_sub_of_le _ _ (UInt64.le_iff_toNat_le.mpr hbefore.le)
      rw [UInt64.toNat_sub_of_le _ _ (UInt64.le_iff_toNat_le.mpr hassert.le)]
      omega
    · cases htail
      rw [lt_iff_toNat_lt] at hbefore
      omega
  rw [bytesIn]
  split_ifs at h with hafter hassert
  · cases h
    rw [lt_iff_toNat_lt, toNat_add_of_lt hsum, toNat_add_of_lt hend] at hafter
    have hgap : (o + size - (start + length)).toNat =
        o.toNat + size.toNat - (start.toNat + length.toNat) := by
      rw [UInt64.toNat_sub_of_le, toNat_add_of_lt hsum, toNat_add_of_lt hend]
      rw [le_iff_toNat_le, toNat_add_of_lt hsum, toNat_add_of_lt hend]
      exact hafter.le
    rw [UInt64.toNat_sub_of_le _ _ (UInt64.le_iff_toNat_le.mpr hassert.le)]
    omega
  · cases h
    rw [lt_iff_toNat_lt, toNat_add_of_lt hsum, toNat_add_of_lt hend] at hafter
    omega

theorem toNat_reconstructProgress (hsum : start.toNat + length.toNat < 2 ^ 64) (hdepth : depth ≤ 6)
    (hstop : o.toNat < start.toNat + length.toNat) (hstart : start.toNat ≤ o.toNat) :
    (reconstructProgress start length o depth).toNat =
      bytesIn start.toNat (start.toNat + length.toNat) o.toNat (tree.span depth) := by
  have hadd : (length + start).toNat = start.toNat + length.toNat := by
    rw [UInt64.add_comm]
    exact toNat_add_of_lt hsum
  have hrest : (length + start - o).toNat = start.toNat + length.toNat - o.toNat := by
    rw [UInt64.toNat_sub_of_le _ _ (UInt64.le_iff_toNat_le.mpr (hadd ▸ hstop.le)), hadd]
  have hmin : (reconstructProgress start length o depth).toNat =
      min (tree.span depth) (start.toNat + length.toNat - o.toNat) := by
    rw [reconstructProgress, toNat_min, hrest, toNat_computeTreeSize hdepth]
  rw [bytesIn]
  omega

end Counting

structure Tracks (dc : DownloadContext) (top : DownloadRequest) : Prop where
  pos : 0 < dc.length.toNat
  sound : top.Sound dc.offset dc.length
  offset_eq : top.info.offset = 0
  depth_eq : top.info.depth = computeDepth dc.fsize - 1
  completed_eq : dc.completed.toNat = (coveredBytes dc top).card

structure Consistent (dc : DownloadContext) : Prop where
  range : dc.offset.toNat + dc.length.toNat ≤ dc.fsize.toNat
  fits : CountsFit dc.fsize dc.offset dc.length
  completed_le : dc.completed.toNat ≤ dc.length.toNat
  finished : dc.hasFinished = true → dc.completed = dc.length
  tracks : ∀ top, dc.topRequest = some top → Tracks dc top

/-- A block taken from the existing file does not start before the range, and no child download
completes before the download itself. -/
def StepFits (dc : DownloadContext) : DownloadEvent → Prop
  | .reconstruct chk offset depth _ => ∀ top path dr, dc.topRequest = some top →
      findRequest offset depth top = some (some path) → top.at? path = some dr →
      dr.info.state = .chkSet → chk = dr.info.chk → dc.offset ≤ dr.info.offset
  | .childCompleted childrenDone => childrenDone = true → dc.completed = dc.length
  | _ => True

section Steps

variable {dc next : DownloadContext} {top new sub : DownloadRequest} {path : List ℕ}

theorem Consistent.accounted (h : Consistent dc) : Accounted dc where
  completed_eq := fun top htop ↦ (h.tracks top htop).completed_eq
  completed_le := le_iff_toNat_le.mpr h.completed_le
  finished := fun hfinished ↦ by
    refine ⟨h.finished hfinished, fun top htop off ⟨hdvd, _, _⟩ ↦ ?_⟩
    obtain ⟨_, hsound, -, -, hcompleted⟩ := h.tracks top htop
    rw [h.finished hfinished] at hcompleted
    have hunit : tree.span 0 = dblockSize := tree.span_zero
    have hall : coveredBytes dc top = Ico dc.offset.toNat (dc.offset.toNat + dc.length.toNat) := by
      apply eq_of_subset_of_card_le (filter_subset _ _)
      rw [Nat.card_Ico, Nat.add_sub_cancel_left]
      exact hcompleted.le
    have hbyte : max off.toNat dc.offset.toNat ∈ coveredBytes dc top := by
      rw [hall, mem_Ico]
      omega
    obtain ⟨-, off', hoff', _, _⟩ := mem_coveredBytes.mp hbyte
    have hdvd' := (hsound.covered_below hoff').1.1
    have heq : off.toNat = off'.toNat := le_antisymm
      (le_of_lt_add_of_dvd (by omega) hdvd hdvd')
      (le_of_lt_add_of_dvd (by omega) hdvd' hdvd)
    rw [UInt64.toNat_inj.mp heq]
    exact hoff'

theorem Consistent.signalError (h : Consistent dc) (emsg : DownloadError) :
    Consistent (dc.signalError emsg) :=
  ⟨h.range, h.fits, h.completed_le, h.finished, nofun⟩

theorem Consistent.checkCompleted (h : Consistent dc) (childrenDone : Bool)
    (hcompleted : childrenDone = true → dc.completed = dc.length) :
    Consistent (dc.checkCompleted childrenDone) := by
  rw [DownloadContext.checkCompleted]
  split_ifs with hdone
  · refine ⟨h.range, h.fits, h.completed_le, fun _ ↦ hcompleted hdone, fun top htop ↦ ?_⟩
    obtain ⟨hpos, hsound, hoffset, hdepth, hcompleted⟩ := h.tracks top htop
    exact ⟨hpos, hsound, hoffset, hdepth, hcompleted⟩
  · exact h

section

variable (h : Consistent dc) (htop : dc.topRequest = some top)
include h htop

theorem Consistent.advance
    (hadvances : Advances dc.offset dc.length top new fun _ ↦ False) (issueRequests : Bool) :
    Consistent { dc with topRequest := some new, issueRequests := issueRequests } := by
  have htracks := h.tracks top htop
  have heq : coveredBytes dc new = coveredBytes dc top := by
    ext byte
    simp only [mem_coveredBytes, hadvances.covered_iff, or_false]
  refine ⟨h.range, h.fits, h.completed_le, h.finished, fun top' htop' ↦ ?_⟩
  cases htop'
  refine ⟨htracks.pos, hadvances.sound, hadvances.offset_eq.trans htracks.offset_eq,
    hadvances.depth_eq.trans htracks.depth_eq, ?_⟩
  exact htracks.completed_eq.trans (congrArg card heq.symm)

/-- A request that waits for a block becomes done, and its bytes are counted. -/
theorem Consistent.progress (hreaches : Reaches dc.offset dc.length sub path top)
    (hadvances : Advances dc.offset dc.length top new fun off ↦ Below dc.offset.toNat
      (dc.offset.toNat + dc.length.toNat) sub.info.offset.toNat sub.info.depth off.toNat)
    {app : UInt64} (happ : app.toNat = bytesIn dc.offset.toNat (dc.offset.toNat + dc.length.toNat)
      sub.info.offset.toNat (tree.span sub.info.depth)) :
    Consistent { dc with topRequest := some new, completed := dc.completed + app } := by
  have htracks := h.tracks top htop
  have hsum := h.range.trans_lt dc.fsize.toNat_lt
  have hcard := card_coveredBytes_add hsum htracks.sound hreaches hadvances
  have hle : (coveredBytes dc new).card ≤ dc.length.toNat := card_coveredBytes_le
  rw [← htracks.completed_eq, ← happ] at hcard
  have hcompleted : (dc.completed + app).toNat = (coveredBytes dc new).card := by
    rw [hcard]
    exact toNat_add_of_lt (by omega)
  refine ⟨h.range, h.fits, hcompleted.trans_le hle, fun hfinished ↦ ?_, fun top' htop' ↦ ?_⟩
  · -- there is nothing left to count after completion was signalled
    have hlength := congrArg toNat (h.finished hfinished)
    refine UInt64.toNat_inj.mp (le_antisymm (hcompleted.trans_le hle) ?_)
    change dc.length.toNat ≤ (dc.completed + app).toNat
    omega
  · cases htop'
    exact ⟨htracks.pos, hadvances.sound, hadvances.offset_eq.trans htracks.offset_eq,
      hadvances.depth_eq.trans htracks.depth_eq, hcompleted⟩

theorem Consistent.completed_of_up
    (hup : top.info.state = .downloadUp) : dc.completed = dc.length := by
  obtain ⟨_, hsound, hoffset, hdepth, hcompleted⟩ := h.tracks top htop
  have htouches := hsound.placed.touches
  have hspan := le_span_computeDepth dc.fsize
  have hrange := h.range
  have hall : coveredBytes dc top = Ico dc.offset.toNat (dc.offset.toNat + dc.length.toNat) := by
    ext byte
    rw [mem_coveredBytes, mem_Ico, and_iff_left_iff_imp]
    intro ⟨hstart, hstop⟩
    rw [hoffset, hdepth] at htouches
    rw [covered_of_up hup]
    have hiff := exists_below_iff htouches hstart hstop (hrange.trans_lt dc.fsize.toNat_lt)
    obtain ⟨off, hbelow, hbyte⟩ := hiff.mpr ⟨zero_le _, by rw [UInt64.toNat_zero]; omega⟩
    refine ⟨off, ((hsound.of_up hup).2 off).mpr ?_, hbyte⟩
    rw [hoffset, hdepth]
    exact hbelow
  rw [← UInt64.toNat_inj, hcompleted, hall, Nat.card_Ico, Nat.add_sub_cancel_left]

end

variable {childrenDone : Bool}

section

variable (h : Consistent dc) (htop : dc.topRequest = some top)
  (hreaches : Reaches dc.offset dc.length sub path top)
include h htop hreaches

theorem Consistent.processDblock (hdepth : sub.info.depth = 0)
    {size : UInt64} (hsize : calculateBlockSize dc.fsize sub.info.offset 0 = some size)
    (hnext : processDblock dc top path sub size childrenDone = some next) :
    Consistent next := by
  have htouches := hreaches.waiting.1.placed.touches
  have hlt := htouches.2.1.trans_le h.range
  have hfsize := dc.fsize.toNat_lt
  have hsum := h.range.trans_lt hfsize
  have hbytes : size.toNat = min dblockSize (dc.fsize.toNat - sub.info.offset.toNat) := by
    obtain ⟨_, hsize', heq⟩ := calculateBlockSize_zero (lt_iff_toNat_lt.mpr hlt)
    cases hsize.symm.trans hsize'
    exact heq
  obtain ⟨app, happ, hnext⟩ := bind_eq_some_iff.mp hnext
  have hcounted : app.toNat = bytesIn dc.offset.toNat (dc.offset.toNat + dc.length.toNat)
      sub.info.offset.toNat (tree.span sub.info.depth) := by
    have hunit : tree.span 0 = dblockSize := tree.span_zero
    have hrange := h.range
    rw [toNat_dblockProgress hsum (by omega) htouches.2.1 happ, hdepth, bytesIn, bytesIn]
    omega
  have hprogress := h.progress htop hreaches (advances_propagateUp hreaches hdepth) hcounted
  dsimp only at hnext
  split_ifs at hnext with hassert hcompleted
  · cases hnext
    exact hprogress.checkCompleted childrenDone fun _ ↦ hcompleted
  · cases hnext
    exact hprogress

theorem Consistent.processIblock {depth : ℕ} (hdepth : sub.info.depth = depth + 1) {pt : List UInt8}
    (hpt : pt.length / contentHashKeySize ≤ chkPerInode)
    (hnext : processIblock dc top path sub pt = some next) : Consistent next := by
  obtain ⟨hsound, hwaits⟩ := hreaches.waiting
  cases sub with
  | node info n children =>
    rw [Fs.processIblock] at hnext
    split_ifs at hnext with hassert
    obtain ⟨_, hset, hnext⟩ := bind_eq_some_iff.mp hnext
    cases hnext
    have hlength : pt.length ≤ chkPerInode * contentHashKeySize := by
      have hmod : pt.length % contentHashKeySize = 0 := not_not.mp (not_or.mp hassert).2
      rw [← div_add_mod pt.length contentHashKeySize, hmod, mul_comm]
      exact mul_le_mul_right _ hpt
    exact h.advance htop (.put hreaches (advances_expand h.fits h.range hsound hwaits hdepth hlength
      (allSome_eq_some.mp hset))) dc.issueRequests

theorem Consistent.processBlock {bs : UInt64}
    (hbs : calculateBlockSize dc.fsize sub.info.offset sub.info.depth = some bs) {pt : List UInt8}
    (hpt : pt.length = bs.toNat)
    (hnext : processBlock dc top path sub pt childrenDone = some next) : Consistent next := by
  rw [Fs.processBlock] at hnext
  split_ifs at hnext with hdepth
  · rw [hdepth] at hbs
    rw [hpt, UInt64.ofNat_toNat] at hnext
    exact h.processDblock htop hreaches hdepth hbs hnext
  · obtain ⟨_, hdepth⟩ := exists_eq_succ_of_ne_zero hdepth
    rw [hdepth] at hbs
    refine h.processIblock htop hreaches hdepth ?_ hnext
    rw [hpt]
    exact calculateBlockSize_le hbs

theorem Consistent.processResultWithRequest {crypto : Crypto} {data : List UInt8}
    {failure : Option BlockFailure}
    (hnext : processResultWithRequest crypto dc top path sub data failure childrenDone =
      some next) : Consistent next := by
  obtain ⟨_, hbs, hnext⟩ := bind_eq_some_iff.mp hnext
  split_ifs at hnext with hsize hdecrypt
  · cases hnext
    exact h.signalError _
  · cases hnext
    exact h.signalError _
  · obtain ⟨_, -, hnext⟩ := bind_eq_some_iff.mp hnext
    split at hnext
    · cases hnext
      exact h.signalError _
    · cases hnext
      exact h.signalError _
    · cases hnext
      exact h.signalError _
    · refine h.processBlock htop hreaches hbs ?_ hnext
      rw [crypto.length_decrypt]
      exact not_not.mp hsize

end

theorem Consistent.reconstructCb (h : Consistent dc) (htop : dc.topRequest = some top)
    {chk : ContentHashKey} {offset : UInt64} {depth : ℕ}
    (hfits : StepFits dc (.reconstruct chk offset depth childrenDone))
    (hnext : reconstructCb dc top chk offset depth childrenDone = some next) :
    Consistent next := by
  obtain ⟨found, hfound, hnext⟩ := bind_eq_some_iff.mp hnext
  cases found with
  | none =>
    cases hnext
    exact h
  | some path =>
    obtain ⟨dr, hat, hnext⟩ := bind_eq_some_iff.mp hnext
    have htracks := h.tracks top htop
    by_cases hmatches : dr.info.state = .chkSet ∧ chk = dr.info.chk
    · rw [if_pos hmatches] at hnext
      cases hnext
      have hwaits : dr.Waits := Or.inr hmatches.1
      have hreaches := htracks.sound.reaches hat hwaits
      have hsound := hreaches.waiting.1
      have hstart := le_iff_toNat_le.mp
        (hfits top path dr htop hfound hat hmatches.1 hmatches.2)
      have hcomplete := complete_of_le h.fits h.range htracks.pos hsound.placed
        (hsound.waits hwaits).2 hstart
      have hprogress := h.progress htop hreaches
        (.put hreaches (advances_reconstructed hsound hwaits hcomplete))
        (toNat_reconstructProgress (h.range.trans_lt dc.fsize.toNat_lt) hsound.placed.depth_le
          hsound.placed.touches.2.1 hstart)
      split_ifs with hpath
      · refine hprogress.checkCompleted childrenDone fun _ ↦ hprogress.completed_of_up rfl ?_
        rw [hpath, DownloadRequest.put, reconstructed, info_withInfo]
      · exact hprogress
    · rw [if_neg hmatches] at hnext
      cases hnext
      split_ifs with hpath
      · obtain ⟨rfl, hup⟩ := hpath
        cases hat
        exact h.checkCompleted childrenDone fun _ ↦ h.completed_of_up htop hup
      · exact h

end Steps

section Runs

variable {crypto : Crypto} {fsize offset length : UInt64} {chk : ContentHashKey}
  {dc next : DownloadContext}

theorem consistent_start (hfit : CountsFit fsize offset length)
    (hstart : startDownload fsize chk offset length = some dc) : Consistent dc := by
  rw [startDownload] at hstart
  by_cases hrefused : offset + length < offset ∨ fsize < offset + length
  · rw [if_pos hrefused] at hstart
    cases hstart
  rw [if_neg hrefused, lt_iff_toNat_lt, lt_iff_toNat_lt] at *
  have hsum : offset.toNat + length.toNat ≤ fsize.toNat := by
    rw [UInt64.toNat_add] at hrefused
    have hlength := length.toNat_lt
    omega
  split_ifs at hstart with hzero
  · cases hstart
    exact ⟨hsum, hfit, zero_le _, fun _ ↦ hzero.symm, nofun⟩
  · obtain ⟨top, htop, hstart⟩ := bind_eq_some_iff.mp hstart
    cases hstart
    have hpos : 0 < length.toNat :=
      pos_of_ne_zero fun h ↦ hzero (UInt64.toNat_inj.mp h)
    have hinfo := createDownloadRequest_info htop
    have hplaced : Placed offset length { top.info with state := .chkSet, chk := chk } := by
      rw [hinfo]
      exact ⟨touches_top hsum hpos, computeDepth_le_of_le hfit.1⟩
    have huntouched :
        (top.withInfo { top.info with state := .chkSet, chk := chk }).Untouched offset length :=
      untouched_withInfo htop (by rw [hinfo]; rfl) (by rw [hinfo]; rfl) (by rw [hinfo]; rfl)
    refine ⟨hsum, hfit, zero_le _, nofun, fun top' htop' ↦ ?_⟩
    cases htop'
    refine ⟨hpos, .waiting ?_ ?_ huntouched, ?_, ?_, ?_⟩
    · rw [info_withInfo]
      exact hplaced
    · rw [info_withInfo]
    · rw [info_withInfo, hinfo]
      rfl
    · rw [info_withInfo, hinfo]
      rfl
    · rw [card_coveredBytes_of_nil (huntouched.covered_eq_nil (by rw [info_withInfo]))]
      rfl

theorem Consistent.step {event : DownloadEvent} (h : Consistent dc) (hfits : StepFits dc event)
    (hnext : downloadStep crypto dc event = some next) : Consistent next := by
  cases event with
  | processResult path data failure childrenDone =>
    rw [downloadStep] at hnext
    split at hnext
    · cases hnext
      exact h
    · rename_i top htop
      split at hnext
      · cases hnext
        exact h
      · rename_i dr hat
        split_ifs at hnext with hactive
        · have hreaches := (h.tracks top htop).sound.reaches hat (.inl hactive.1)
          exact h.processResultWithRequest htop hreaches hnext
        · cases hnext
          exact h
  | reconstruct chk offset depth childrenDone =>
    rw [downloadStep] at hnext
    split at hnext
    · cases hnext
      exact h
    · rename_i top htop
      exact h.reconstructCb htop hfits hnext
  | issueRequests =>
    rw [downloadStep] at hnext
    split at hnext
    · cases hnext
      exact h
    · rename_i top htop
      obtain ⟨_, hnew, hnext⟩ := bind_eq_some_iff.mp hnext
      cases hnext
      exact h.advance htop (advances_schedule (h.tracks top htop).sound hnew) true
  | childCompleted childrenDone =>
    cases hnext
    exact h.checkCompleted childrenDone hfits

/-- In every run of a download in which the steps fit, the completed bytes are those of the DBLOCKs
below requests that are done, and completion is signalled only when all DBLOCKs are done. -/
theorem progress_accounted (crypto : Crypto) {last : DownloadContext} {events : List DownloadEvent}
    (hfit : CountsFit fsize offset length)
    (hstart : startDownload fsize chk offset length = some dc)
    (halong : Along (downloadStep crypto) StepFits dc events)
    (hrun : run (downloadStep crypto) dc events = some last) : Accounted last :=
  (run_invariant (fun _ _ _ ↦ Consistent.step) (consistent_start hfit hstart) halong
    hrun).accounted

end Runs

def plainCrypto : Crypto where
  hash := fun _ ↦ Vector.replicate 64 0
  encrypt := fun _ data ↦ data
  decrypt := fun _ data ↦ data
  length_encrypt := fun _ _ ↦ rfl
  length_decrypt := fun _ _ ↦ rfl
  decrypt_encrypt := fun _ _ ↦ rfl

def plainChk : ContentHashKey := ⟨Vector.replicate 64 0, Vector.replicate 64 0⟩

theorem stepFits_reconstruct {dc : DownloadContext} {chk : ContentHashKey} {offset : UInt64}
    {depth : ℕ} {childrenDone : Bool} :
    (∀ top ∈ dc.topRequest, ∀ found ∈ findRequest offset depth top, ∀ path ∈ found,
      ∀ dr ∈ top.at? path, dr.info.state = .chkSet → chk = dr.info.chk →
        dc.offset ≤ dr.info.offset) ↔
      StepFits dc (.reconstruct chk offset depth childrenDone) := by
  constructor
  · intro h top path dr htop hpath hdr
    exact h top htop (some path) hpath path rfl dr hdr
  · rintro h top htop _ hpath path rfl dr hdr
    exact h top path dr htop hpath hdr

instance (dc : DownloadContext) : DecidablePred (StepFits dc)
  | .reconstruct _ _ _ _ => decidable_of_iff _ stepFits_reconstruct
  | .childCompleted childrenDone =>
    inferInstanceAs (Decidable (childrenDone = true → dc.completed = dc.length))
  | .issueRequests | .processResult _ _ _ _ => isTrue trivial

/-- The IBLOCK arrives, then one DBLOCK is found in the existing file and the other one arrives. -/
def rangeEvents : List DownloadEvent :=
  [.issueRequests, .processResult [] (List.replicate 384 0) none true,
    .reconstruct plainChk 32768 0 true, .processResult [1] [1, 2] none true, .childCompleted true]

/-- All but the first DBLOCK of a file of three are downloaded. -/
theorem progress_accounted_range : ∃ dc last, startDownload 65538 plainChk 32768 32770 = some dc ∧
    run (downloadStep plainCrypto) dc rangeEvents = some last ∧
    last.completed = 32770 ∧ last.hasFinished = true ∧ Accounted last := by
  have hrun : ((startDownload 65538 plainChk 32768 32770).bind fun dc ↦
      (run (downloadStep plainCrypto) dc rangeEvents).map fun last ↦
        (last.completed, last.hasFinished)) = some (32770, true) := by
    decide +kernel
  obtain ⟨dc, hstart, hrun⟩ := Option.bind_eq_some_iff.mp hrun
  obtain ⟨last, hlast, heq⟩ := Option.map_eq_some_iff.mp hrun
  have halong : ∀ dc ∈ startDownload 65538 plainChk 32768 32770,
      Along (downloadStep plainCrypto) StepFits dc rangeEvents := by
    decide +kernel
  have hfit : CountsFit 65538 32768 32770 := by decide
  have haccounted := progress_accounted plainCrypto hfit hstart (halong dc hstart) hlast
  exact ⟨dc, last, hstart, hlast, congrArg Prod.fst heq, congrArg Prod.snd heq, haccounted⟩

/-- The last 50 of 100 bytes are wanted, and all 100 bytes are counted when the DBLOCK is taken from
the existing file. -/
theorem reconstructed_before_range : ∃ dc last, startDownload 100 plainChk 50 50 = some dc ∧
    run (downloadStep plainCrypto) dc [.reconstruct plainChk 0 0 true] = some last ∧
    last.completed = 100 ∧ ¬ Accounted last := by
  refine ⟨_, _, rfl, rfl, rfl, fun h ↦ ?_⟩
  exact absurd h.completed_le (by decide)

end Gnunet.Fs
