import Gnunet.Fs.Download
import Gnunet.Fs.RequestTree

/-!
# The requests of a download

An invariant of the tree of requests: a request whose content hash key is known has the requests
below it as they were created, the children of a request that is being worked on are in the right
places, and a request that is done has exactly the DBLOCKs of its part of the range below it.
-/

namespace Gnunet.Fs

open Lib.FanOut Function List Option Nat

def CountsFit (fsize offset length : UInt64) : Prop :=
  fsize.toNat ≤ 2 ^ 63 ∧ tree.blocks (offset.toNat + length.toNat -
    offset.toNat / tree.span 1 * tree.span 1) 0 < 2 ^ 32

instance (fsize offset length : UInt64) : Decidable (CountsFit fsize offset length) :=
  inferInstanceAs (Decidable (_ ∧ _))

namespace DownloadRequest

def Idle : DownloadRequest → Prop
  | .node info _ children =>
    info.state ≠ .chkSet ∧ info.active = false ∧ ∀ i, (children i).Idle

def Untouched (start length : UInt64) : DownloadRequest → Prop
  | .node info numChildren children =>
    createDownloadRequest start length info.depth info.chkIdx info.offset =
      some (.node (newRequest info.chkIdx info.depth info.offset) numChildren children)

structure Expanded (start stop o depth : ℕ) {n : ℕ} (children : Fin n → DownloadRequest) :
    Prop where
  count : skippedChildren start o depth + n = min chkPerInode (tree.blocks (stop - o) depth)
  depth_eq : ∀ i, (children i).info.depth = depth
  offset_eq : ∀ i, (children i).info.offset.toNat =
    o + (i + skippedChildren start o depth) * tree.span depth

structure Placed (start length : UInt64) (info : RequestInfo) : Prop where
  touches : Touches start.toNat (start.toNat + length.toNat) info.offset.toNat info.depth
  depth_le : info.depth ≤ 6

def Complete (start length : UInt64) (dr : DownloadRequest) : Prop :=
  ∀ off, off ∈ dr.leaves ↔
    Below start.toNat (start.toNat + length.toNat) dr.info.offset.toNat dr.info.depth off.toNat

inductive Sound (start length : UInt64) : DownloadRequest → Prop
  | waiting {dr} (hplaced : Placed start length dr.info) (hstate : dr.info.state = .chkSet)
    (huntouched : dr.Untouched start length) : Sound start length dr
  | down {info n} {children : Fin n → DownloadRequest} {depth : ℕ}
    (hplaced : Placed start length info) (hstate : info.state = .downloadDown)
    (hactive : info.active = false) (hdepth : info.depth = depth + 1)
    (hexpanded : Expanded start.toNat (start.toNat + length.toNat) info.offset.toNat depth children)
    (hchildren : ∀ i, Sound start length (children i)) : Sound start length (.node info n children)
  | up {dr} (hplaced : Placed start length dr.info) (hstate : dr.info.state = .downloadUp)
    (hidle : dr.Idle) (hcomplete : dr.Complete start length) : Sound start length dr

end DownloadRequest

open DownloadRequest

/-! ## Requests that were created -/

section Created

variable {fsize start length o : UInt64} {chkIdx : UInt32} {depth d : ℕ} {dr : DownloadRequest}

theorem idle_of_create (h : createDownloadRequest start length depth chkIdx o = some dr) :
    dr.Idle := by
  induction depth generalizing chkIdx o dr with
  | zero =>
    cases h
    exact ⟨nofun, rfl, fun i ↦ i.elim0⟩
  | succ depth ih =>
    obtain ⟨_, _, _, _, hchildren, rfl⟩ := createDownloadRequest_succ.mp h
    exact ⟨nofun, rfl, fun i ↦ ih (hchildren i)⟩

variable {info : RequestInfo}

theorem covered_node {n : ℕ} {children : Fin n → DownloadRequest}
    (h : info.state ≠ .downloadUp) : (DownloadRequest.node info n children).covered =
      (finRange n).flatMap fun i ↦ (children i).covered :=
  if_neg h

theorem covered_of_up (h : dr.info.state = .downloadUp) : dr.covered = dr.leaves := by
  cases dr with
  | node info n children => exact if_pos h

theorem covered_of_create (h : createDownloadRequest start length depth chkIdx o = some dr) :
    dr.covered = [] := by
  induction depth generalizing chkIdx o dr with
  | zero =>
    cases h
    rfl
  | succ depth ih =>
    obtain ⟨_, _, _, _, hchildren, rfl⟩ := createDownloadRequest_succ.mp h
    rw [covered_node (nofun : BlockRequestState.init ≠ .downloadUp), flatMap_eq_nil_iff]
    exact fun i _ ↦ ih (hchildren i)

theorem DownloadRequest.Untouched.child {n : ℕ} {children : Fin n → DownloadRequest}
    (h : Untouched start length (.node info n children)) (i : Fin n) :
    ∃ depth chkIdx o, createDownloadRequest start length depth chkIdx o = some (children i) := by
  rw [Untouched] at h
  cases hdepth : info.depth with
  | zero =>
    rw [hdepth] at h
    cases h
    exact i.elim0
  | succ depth =>
    rw [hdepth] at h
    obtain ⟨_, _, _, _, hchildren, heq⟩ := createDownloadRequest_succ.mp h
    cases heq
    exact ⟨_, _, _, hchildren i⟩

theorem DownloadRequest.Untouched.covered_eq_nil (h : dr.Untouched start length)
    (hstate : dr.info.state = .chkSet) : dr.covered = [] := by
  cases dr with
  | node info n children =>
    change info.state = _ at hstate
    rw [covered_node (by rw [hstate]; nofun), flatMap_eq_nil_iff]
    intro i _
    obtain ⟨_, _, _, hcreate⟩ := h.child i
    exact covered_of_create hcreate

theorem blocks_lt_of_countsFit (h : CountsFit fsize start length) {o : ℕ}
    (ho : Touches start.toNat (start.toNat + length.toNat) o (d + 1)) :
    tree.blocks (start.toNat + length.toNat - o) d < 2 ^ 32 := by
  obtain ⟨-, _⟩ := h
  obtain ⟨hdvd, -, hstart⟩ := ho
  have hfloor := div_mul_le_self start.toNat (tree.span 1)
  have hbound : start.toNat + length.toNat - start.toNat / tree.span 1 * tree.span 1 ≤
      (2 ^ 32 - 1) * tree.span 0 := by
    rw [← not_lt, ← Shape.lt_blocks_iff]
    omega
  have hgoal : start.toNat + length.toNat - o ≤ (2 ^ 32 - 1) * tree.span d := by
    cases d with
    | zero =>
      have hle : start.toNat / tree.span 1 * tree.span 1 ≤ o :=
        le_of_lt_add_of_dvd (hfloor.trans_lt hstart) (dvd_mul_left _ _) hdvd
      exact (Nat.sub_le_sub_left hle _).trans hbound
    | succ d =>
      have hone : tree.span 1 = tree.span 0 * 256 := tree.span_succ 0
      have hmono : tree.span 1 ≤ tree.span (d + 1) :=
        tree.span_strictMono.monotone (succ_le_succ (zero_le d))
      have hnext : tree.span (d + 1 + 1) = tree.span (d + 1) * 256 := tree.span_succ (d + 1)
      omega
  have hnot : ¬ 2 ^ 32 - 1 < tree.blocks (start.toNat + length.toNat - o) d := by
    rw [Shape.lt_blocks_iff]
    exact not_lt.mpr hgoal
  omega

end Created

/-! ## Requests at a path -/

section Paths

variable {start length : UInt64} {dr sub new : DownloadRequest} {path : List ℕ}

section Node

variable {info : RequestInfo} {n : ℕ} {children : Fin n → DownloadRequest}

theorem at?_cons {i : ℕ} (h : (DownloadRequest.node info n children).at? (i :: path) = some sub) :
    ∃ k : Fin n, k.val = i ∧ (children k).at? path = some sub := by
  rw [at?] at h
  split_ifs at h with hi
  exact ⟨⟨i, hi⟩, rfl, h⟩

theorem put_cons (k : Fin n) :
    (DownloadRequest.node info n children).put (k.val :: path) new =
      .node info n (update children k ((children k).put path new)) :=
  dif_pos k.isLt

end Node

theorem DownloadRequest.Idle.at (h : dr.Idle) (hat : dr.at? path = some sub) : sub.Idle := by
  induction path generalizing dr with
  | nil =>
    cases hat
    exact h
  | cons i path ih =>
    cases dr with
    | node info n children =>
      obtain ⟨k, -, hk⟩ := at?_cons hat
      exact ih (h.2.2 k) hk

def DownloadRequest.Waits (dr : DownloadRequest) : Prop :=
  dr.info.active = true ∨ dr.info.state = .chkSet

theorem DownloadRequest.Idle.not_waits (h : dr.Idle) : ¬ dr.Waits := by
  cases dr with
  | node info n children =>
    rintro (hactive | hstate)
    · exact Bool.false_ne_true (h.2.1.symm.trans hactive)
    · exact h.1 hstate

theorem DownloadRequest.Sound.placed (h : dr.Sound start length) : Placed start length dr.info := by
  cases h with
  | waiting hplaced => exact hplaced
  | down hplaced => exact hplaced
  | up hplaced => exact hplaced

theorem DownloadRequest.Sound.waits (h : dr.Sound start length) (hwaits : dr.Waits) :
    dr.info.state = .chkSet ∧ dr.Untouched start length := by
  cases h with
  | waiting _ hstate huntouched => exact ⟨hstate, huntouched⟩
  | down _ hstate hactive =>
    rcases hwaits with h | h
    · exact absurd (hactive.symm.trans h) Bool.false_ne_true
    · cases hstate.symm.trans h
  | up _ _ hidle => exact absurd hwaits hidle.not_waits

section Node

variable {info : RequestInfo} {n : ℕ} {children : Fin n → DownloadRequest}

structure WorkedOn (start length : UInt64) (info : RequestInfo) (depth : ℕ)
    (children : Fin n → DownloadRequest) : Prop where
  placed : Placed start length info
  state : info.state = .downloadDown
  active : info.active = false
  depth_eq : info.depth = depth + 1
  expanded : Expanded start.toNat (start.toNat + length.toNat) info.offset.toNat depth children
  sound : ∀ i, (children i).Sound start length

theorem DownloadRequest.Sound.above
    (h : (DownloadRequest.node info n children).Sound start length) {i : Fin n}
    (hat : (children i).at? path = some sub) (hwaits : sub.Waits) :
    ∃ depth, WorkedOn start length info depth children := by
  cases h with
  | waiting _ _ huntouched =>
    obtain ⟨_, _, _, hcreate⟩ := huntouched.child i
    exact absurd hwaits ((idle_of_create hcreate).at hat).not_waits
  | down hplaced hstate hactive hdepth hexpanded hchildren =>
    exact ⟨_, hplaced, hstate, hactive, hdepth, hexpanded, hchildren⟩
  | up _ _ hidle _ => exact absurd hwaits ((hidle.2.2 i).at hat).not_waits

theorem DownloadRequest.Expanded.index_lt {start stop o depth : ℕ}
    (h : Expanded start stop o depth children) (i : Fin n) :
    i + skippedChildren start o depth < chkPerInode := by
  have hcount := h.count
  omega

end Node

/-- Down to a request that waits for a block, the requests are being worked on. -/
inductive Reaches (start length : UInt64) (sub : DownloadRequest) :
    List ℕ → DownloadRequest → Prop
  | here (hsound : sub.Sound start length) (hwaits : sub.Waits) : Reaches start length sub [] sub
  | child {info n depth path} {children : Fin n → DownloadRequest} {k : Fin n}
    (hwork : WorkedOn start length info depth children)
    (h : Reaches start length sub path (children k)) :
    Reaches start length sub (k.val :: path) (.node info n children)

theorem DownloadRequest.Sound.reaches (h : dr.Sound start length) (hat : dr.at? path = some sub)
    (hwaits : sub.Waits) : Reaches start length sub path dr := by
  induction path generalizing dr with
  | nil =>
    cases hat
    exact .here h hwaits
  | cons i path ih =>
    cases dr with
    | node info n children =>
      obtain ⟨k, rfl, hk⟩ := at?_cons hat
      obtain ⟨_, habove⟩ := h.above hk hwaits
      exact .child habove (ih (habove.sound k) hk)

theorem Reaches.waiting (h : Reaches start length sub path dr) :
    sub.Sound start length ∧ sub.Waits := by
  induction h with
  | here hsound hwaits => exact ⟨hsound, hwaits⟩
  | child _ _ ih => exact ih

theorem Reaches.within (h : Reaches start length sub path dr) :
    dr.info.offset.toNat ≤ sub.info.offset.toNat ∧
      sub.info.offset.toNat + tree.span sub.info.depth ≤
        dr.info.offset.toNat + tree.span dr.info.depth := by
  induction h with
  | here => exact ⟨le_refl _, le_refl _⟩
  | @child info _ depth _ _ k hwork _ hwithin =>
    have hchild := tree.child_le (d := depth) info.offset.toNat (hwork.expanded.index_lt k)
    rw [hwork.expanded.offset_eq, hwork.expanded.depth_eq] at hwithin
    change info.offset.toNat ≤ _ ∧ _ ≤ info.offset.toNat + tree.span info.depth
    rw [hwork.depth_eq]
    omega

theorem DownloadRequest.Sound.covered_below (h : dr.Sound start length) {off : UInt64}
    (hoff : off ∈ dr.covered) :
    Below start.toNat (start.toNat + length.toNat) dr.info.offset.toNat dr.info.depth
      off.toNat := by
  induction h with
  | waiting _ hstate huntouched =>
    rw [huntouched.covered_eq_nil hstate] at hoff
    cases hoff
  | @down info n children depth _ hstate _ hdepth hexpanded _ ih =>
    rw [covered_node (by rw [hstate]; nofun), mem_flatMap] at hoff
    obtain ⟨i, -, hi⟩ := hoff
    have hbelow := ih i hi
    rw [hexpanded.offset_eq, hexpanded.depth_eq] at hbelow
    change Below _ _ info.offset.toNat info.depth _
    rw [hdepth]
    exact hbelow.of_child (hexpanded.index_lt i)
  | @up dr _ hstate _ hcomplete =>
    rw [covered_of_up hstate] at hoff
    exact (hcomplete off).mp hoff

theorem Reaches.covered_outside (h : Reaches start length sub path dr) {off : UInt64}
    (hoff : off ∈ dr.covered) (hfrom : sub.info.offset.toNat ≤ off.toNat) :
    sub.info.offset.toNat + tree.span sub.info.depth ≤ off.toNat := by
  induction h with
  | here hsound hwaits =>
    obtain ⟨hstate, huntouched⟩ := hsound.waits hwaits
    rw [huntouched.covered_eq_nil hstate] at hoff
    cases hoff
  | @child _ _ _ _ _ k hwork hk ih =>
    rw [covered_node (by rw [hwork.state]; nofun), mem_flatMap] at hoff
    obtain ⟨j, -, hj⟩ := hoff
    by_cases hjk : j = k
    · rw [hjk] at hj
      exact ih hj
    · -- the DBLOCK is below another child
      by_contra hlt
      have hwithin := hk.within
      have hbelow := (hwork.sound j).covered_below hj
      rw [hwork.expanded.offset_eq, hwork.expanded.depth_eq] at hwithin hbelow
      have heq := tree.child_unique hbelow.2.1 hbelow.2.2 (hwithin.1.trans hfrom) (by omega)
      exact hjk (Fin.ext (add_right_cancel heq))

end Paths

/-! ## Steps of a request -/

structure Advances (start length : UInt64) (dr new : DownloadRequest) (done : UInt64 → Prop) :
    Prop where
  sound : new.Sound start length
  offset_eq : new.info.offset = dr.info.offset
  depth_eq : new.info.depth = dr.info.depth
  covered_iff : ∀ off, off ∈ new.covered ↔ off ∈ dr.covered ∨ done off

section Steps

variable {start length : UInt64} {dr sub new : DownloadRequest} {path : List ℕ}
  {done : UInt64 → Prop} {info : RequestInfo} {n : ℕ} {children : Fin n → DownloadRequest}

theorem Advances.refl (h : dr.Sound start length) : Advances start length dr dr fun _ ↦ False :=
  ⟨h, rfl, rfl, fun _ ↦ (or_iff_left id).symm⟩

theorem Advances.congr {done' : UInt64 → Prop} (h : Advances start length dr new done)
    (hdone : ∀ off, done off ↔ done' off) : Advances start length dr new done' :=
  ⟨h.sound, h.offset_eq, h.depth_eq, fun off ↦ by rw [h.covered_iff, hdone]⟩

variable {depth : ℕ}

theorem Advances.node {children' : Fin n → DownloadRequest} {done : Fin n → UInt64 → Prop}
    (hwork : WorkedOn start length info depth children)
    (h : ∀ i, Advances start length (children i) (children' i) (done i)) :
    Advances start length (.node info n children) (.node info n children')
      fun off ↦ ∃ i, done i off where
  sound := by
    refine .down hwork.placed hwork.state hwork.active hwork.depth_eq
      ⟨hwork.expanded.count, fun i ↦ ?_, fun i ↦ ?_⟩ fun i ↦ (h i).sound
    · rw [(h i).depth_eq]
      exact hwork.expanded.depth_eq i
    · rw [(h i).offset_eq]
      exact hwork.expanded.offset_eq i
  offset_eq := rfl
  depth_eq := rfl
  covered_iff := fun off ↦ by
    have hne : info.state ≠ .downloadUp := by
      rw [hwork.state]
      nofun
    simp only [covered_node hne, mem_flatMap, mem_finRange, true_and, (h _).covered_iff, exists_or]

theorem Advances.update {k : Fin n} {child : DownloadRequest}
    (hwork : WorkedOn start length info depth children)
    (h : Advances start length (children k) child done) :
    Advances start length (.node info n children)
      (.node info n (update children k child)) done := by
  have hall (i : Fin n) : Advances start length (children i) (Function.update children k child i)
      fun off ↦ i = k ∧ done off := by
    rcases eq_or_ne i k with rfl | hne
    · rw [update_self]
      exact h.congr fun off ↦ (and_iff_right rfl).symm
    · rw [update_of_ne hne]
      exact (Advances.refl (hwork.sound i)).congr fun off ↦ iff_of_false id fun h ↦ hne h.1
  exact (Advances.node hwork hall).congr fun off ↦ exists_eq_left

/-- A step of a request that waits for a block is a step of the tree. -/
theorem Advances.put (hreaches : Reaches start length sub path dr)
    (h : Advances start length sub new done) :
    Advances start length dr (dr.put path new) done := by
  induction hreaches with
  | here => exact h
  | child hwork _ ih =>
    rw [put_cons]
    exact .update hwork ih

theorem DownloadRequest.Sound.of_up (h : dr.Sound start length)
    (hup : dr.info.state = .downloadUp) : dr.Idle ∧ dr.Complete start length := by
  cases h with
  | waiting _ hstate => cases hstate.symm.trans hup
  | down _ hstate => cases hstate.symm.trans hup
  | up _ _ hidle hcomplete => exact ⟨hidle, hcomplete⟩

theorem mem_leaves_of_depth (hdepth : info.depth = depth + 1) {off : UInt64} :
    off ∈ (DownloadRequest.node info n children).leaves ↔ ∃ i, off ∈ (children i).leaves := by
  have hne : info.depth ≠ 0 := by
    rw [hdepth]
    exact succ_ne_zero depth
  rw [leaves, if_neg hne, mem_flatMap]
  exact exists_congr fun i ↦ and_iff_right (mem_finRange i)

theorem WorkedOn.finish (h : WorkedOn start length info depth children)
    (hup : ∀ i, (children i).info.state = .downloadUp) :
    (DownloadRequest.node { info with state := .downloadUp } n children).Sound start length := by
  obtain ⟨hplaced, -, hactive, hdepth, hexpanded, hchildren⟩ := h
  have hparts (i : Fin n) := (hchildren i).of_up (hup i)
  refine .up ⟨hplaced.touches, hplaced.depth_le⟩ rfl ⟨nofun, hactive, fun i ↦ (hparts i).1⟩
    fun off ↦ ?_
  have htouches := hplaced.touches
  rw [hdepth] at htouches
  have hdvd : tree.span depth ∣ info.offset.toNat :=
    (tree.span_dvd_span (le_succ depth)).trans htouches.1
  change _ ↔ Below _ _ info.offset.toNat info.depth _
  rw [mem_leaves_of_depth (by exact hdepth), hdepth, below_succ_iff hdvd htouches.2.1.le]
  have hcount := hexpanded.count
  constructor
  · intro ⟨i, hi⟩
    have hbelow := ((hparts i).2 off).mp hi
    rw [hexpanded.offset_eq, hexpanded.depth_eq] at hbelow
    exact ⟨_, le_add_left _ _, by omega, hexpanded.index_lt i, hbelow⟩
  · intro ⟨k, hfirst, hlast, hk, hbelow⟩
    refine ⟨⟨k - skippedChildren start.toNat info.offset.toNat depth, by omega⟩,
      ((hparts _).2 off).mpr ?_⟩
    rw [hexpanded.offset_eq, hexpanded.depth_eq, Nat.sub_add_cancel hfirst]
    exact hbelow

theorem Advances.finish (h : Advances start length dr (.node info n children) done)
    (hstate : info.state = .downloadDown) (hup : ∀ i, (children i).info.state = .downloadUp) :
    Advances start length dr (.node { info with state := .downloadUp } n children) done := by
  have hsound := h.sound
  cases hsound with
  | waiting _ hstate' => cases hstate.symm.trans hstate'
  | up _ hstate' => cases hstate.symm.trans hstate'
  | down hplaced _ hactive hdepth hexpanded hchildren =>
    refine ⟨WorkedOn.finish ⟨hplaced, hstate, hactive, hdepth, hexpanded, hchildren⟩ hup,
      h.offset_eq, h.depth_eq, fun off ↦ ?_⟩
    rw [← h.covered_iff, covered_of_up rfl, covered_node (by rw [hstate]; nofun),
      mem_leaves_of_depth (by exact hdepth)]
    simp only [mem_flatMap, mem_finRange, true_and, covered_of_up (hup _)]

theorem advances_reconstructed (h : sub.Sound start length) (hwaits : sub.Waits)
    (hcomplete : sub.Complete start length) :
    Advances start length sub (reconstructed sub) fun off ↦ Below start.toNat
      (start.toNat + length.toNat) sub.info.offset.toNat sub.info.depth off.toNat := by
  cases sub with
  | node info n children =>
    obtain ⟨hstate, huntouched⟩ := h.waits hwaits
    have hidle (i : Fin n) : (children i).Idle := by
      obtain ⟨_, _, _, hcreate⟩ := huntouched.child i
      exact idle_of_create hcreate
    refine ⟨.up ⟨h.placed.touches, h.placed.depth_le⟩ rfl ⟨nofun, rfl, hidle⟩ hcomplete, rfl, rfl,
      fun off ↦ ?_⟩
    rw [huntouched.covered_eq_nil hstate]
    exact (hcomplete off).trans (or_iff_right not_mem_nil).symm

theorem complete_of_depth_eq_zero (h : Placed start length sub.info)
    (hdepth : sub.info.depth = 0) : sub.Complete start length := by
  cases sub with
  | node info n children =>
    have htouches := h.touches
    change info.depth = 0 at hdepth
    intro off
    change _ ↔ Below _ _ info.offset.toNat info.depth _
    change Touches _ _ info.offset.toNat info.depth at htouches
    rw [hdepth] at htouches ⊢
    rw [leaves, if_pos hdepth, mem_singleton, below_zero_iff htouches, UInt64.toNat_inj]

theorem advances_propagateUp (h : Reaches start length sub path dr) (hdepth : sub.info.depth = 0) :
    Advances start length dr
      (propagateUp path (dr.put path
        (sub.withInfo { sub.info with state := .downloadDown, active := false }))).1
      fun off ↦ Below start.toNat (start.toNat + length.toNat) sub.info.offset.toNat
        sub.info.depth off.toNat := by
  induction h with
  | here hsound hwaits =>
    cases sub with
    | node info n children =>
      exact advances_reconstructed hsound hwaits (complete_of_depth_eq_zero hsound.placed hdepth)
  | @child _ _ _ _ _ k hwork _ ih =>
    have hadvances := Advances.update hwork ih
    rw [put_cons, propagateUp, dif_pos k.isLt]
    simp only [update_self, update_idem]
    split_ifs with hup
    · exact hadvances.finish hwork.state hup.2
    · exact hadvances

theorem advances_schedule (h : dr.Sound start length)
    (hschedule : scheduleBlockDownload dr = some new) :
    Advances start length dr new fun _ ↦ False := by
  induction h generalizing new with
  | @waiting dr hplaced hstate huntouched =>
    cases dr with
    | node info n children =>
      change info.state = .chkSet at hstate
      have hne : info.state ≠ .downloadUp := by
        rw [hstate]
        nofun
      simp only [scheduleBlockDownload, hstate, some.injEq] at hschedule
      subst hschedule
      refine ⟨.waiting ⟨hplaced.touches, hplaced.depth_le⟩ rfl huntouched, rfl, rfl, fun off ↦ ?_⟩
      rw [covered_node hne]
      exact (or_iff_left id).symm
  | @down info n children depth hplaced hstate hactive hdepth hexpanded hchildren ih =>
    simp only [scheduleBlockDownload, hstate, map_eq_some_iff, allSome_eq_some] at hschedule
    obtain ⟨_, hall, rfl⟩ := hschedule
    have hwork : WorkedOn start length info depth children :=
      ⟨hplaced, hstate, hactive, hdepth, hexpanded, hchildren⟩
    exact (Advances.node hwork fun i ↦ ih i (hall i)).congr
      fun off ↦ exists_const_iff.trans (and_iff_right_of_imp False.elim)
  | @up dr hplaced hstate hidle hcomplete =>
    cases dr with
    | node info n children =>
      change info.state = .downloadUp at hstate
      simp only [scheduleBlockDownload, hstate, some.injEq] at hschedule
      subst hschedule
      exact .refl (.up hplaced hstate hidle hcomplete)

/-! ## Blocks below which everything is known -/

variable {fsize : UInt64}

theorem countedChildren_eq {wanted : ℕ} (h : tree.blocks wanted depth < 2 ^ 32) :
    countedChildren wanted depth = tree.blocks wanted depth := by
  rw [blocks_eq_add] at h ⊢
  have hsmall : wanted / tree.span depth < 2 ^ 32 := lt_of_le_of_lt (le_add_right _ _) h
  rw [countedChildren, if_pos hsmall, mod_eq_of_lt hsmall, mod_eq_of_lt h]

variable {o : UInt64}

theorem childrenRight_of_le {d : ℕ} (hfit : CountsFit fsize start length)
    (hle : start.toNat + length.toNat ≤ fsize.toNat) (hlength : 0 < length.toNat) (hd : d ≤ 6)
    (ho : Touches start.toNat (start.toNat + length.toNat) o.toNat (d + 1))
    (hstart : start.toNat ≤ o.toNat) : ChildrenRight start length o d := by
  have hblocks := blocks_lt_of_countsFit hfit ho
  rw [blocks_eq_add] at hblocks
  rw [childrenRight_iff hd (hle.trans_lt fsize.toNat_lt) hlength ho.2.1 ho.2.2, NodeSupported,
    if_pos (lt_of_le_of_lt (le_add_right _ _) hblocks)]
  refine ⟨hblocks, Or.inl ?_⟩
  rw [skippedChildren, Nat.sub_eq_zero_of_le hstart, Nat.zero_div]

theorem complete_of_le (hfit : CountsFit fsize start length)
    (hle : start.toNat + length.toNat ≤ fsize.toNat) (hlength : 0 < length.toNat)
    (hplaced : Placed start length sub.info) (huntouched : sub.Untouched start length)
    (hstart : start.toNat ≤ sub.info.offset.toNat) : sub.Complete start length := by
  cases sub with
  | node info n children =>
    have hdepth : info.depth ≤ 6 := hplaced.depth_le
    obtain ⟨_, hcreate, hserves⟩ := create_right hfit.1 hle hdepth info.chkIdx info.offset
      hplaced.touches fun d hd o' ho' hfrom _ ↦
        childrenRight_of_le hfit hle hlength (hd.le.trans hdepth) ho' (hstart.trans hfrom)
    cases hcreate.symm.trans huntouched
    exact hserves.mem_leaves

theorem setChk_spec {issueRequests : Bool} {pt : List UInt8}
    (h : setChk issueRequests pt dr = some new) :
    (dr.info.chkIdx + 1).toNat * contentHashKeySize ≤ pt.length ∧
      ∃ info, new = dr.withInfo info ∧ info.state = .chkSet ∧ info.offset = dr.info.offset ∧
        info.depth = dr.info.depth ∧ info.chkIdx = dr.info.chkIdx := by
  cases dr with
  | node info n children =>
    rw [setChk] at h
    split_ifs at h with hstate hsize
    · obtain ⟨chk, -, h⟩ := bind_eq_some_iff.mp h
      cases h
      exact ⟨Nat.le_of_not_lt hsize, _, rfl, rfl, rfl, rfl, rfl⟩
    · obtain ⟨chk, -, h⟩ := bind_eq_some_iff.mp h
      cases h
      exact ⟨Nat.le_of_not_lt hsize, _, rfl, rfl, rfl, rfl, rfl⟩

theorem info_withInfo : (dr.withInfo info).info = info := by
  cases dr with
  | node _ _ _ => rfl

theorem untouched_withInfo {chkIdx : UInt32}
    (h : createDownloadRequest start length depth chkIdx o = some dr) (hoffset : info.offset = o)
    (hdepth : info.depth = depth) (hchkIdx : info.chkIdx = chkIdx) :
    (dr.withInfo info).Untouched start length := by
  have hinfo := createDownloadRequest_info h
  cases dr with
  | node info' n children =>
    change info' = _ at hinfo
    rw [withInfo, Untouched, hoffset, hdepth, hchkIdx, h, hinfo]

theorem advances_expand {issueRequests : Bool} {pt : List UInt8}
    {children' : Fin n → DownloadRequest} (hfit : CountsFit fsize start length)
    (hle : start.toNat + length.toNat ≤ fsize.toNat)
    (h : (DownloadRequest.node info n children).Sound start length)
    (hwaits : (DownloadRequest.node info n children).Waits) (hdepth : info.depth = depth + 1)
    (hpt : pt.length ≤ chkPerInode * contentHashKeySize)
    (hset : ∀ i, setChk issueRequests pt (children i) = some (children' i)) :
    Advances start length (.node info n children)
      (.node { info with state := .downloadDown, active := false } n children')
      fun _ ↦ False := by
  obtain ⟨hstate, huntouched⟩ := h.waits hwaits
  have hplaced : Placed start length info := h.placed
  have htouches := hplaced.touches
  have hdepth' := hplaced.depth_le
  have hnil := huntouched.covered_eq_nil hstate
  rw [hdepth] at htouches hdepth'
  rw [Untouched, hdepth] at huntouched
  obtain ⟨headSkip, numChildren, _, hrange, hcreate, heq⟩ :=
    createDownloadRequest_succ.mp huntouched
  cases heq
  have hsum := hle.trans_lt fsize.toNat_lt
  have hskip := skippedChildren_lt htouches.2.2
  obtain ⟨hlt, hheadSkip, hnumChildren⟩ :=
    (childRange_eq_some_iff (le_of_succ_le hdepth') hsum htouches.2.1.le hskip).mp hrange
  rw [countedChildren_eq (blocks_lt_of_countsFit hfit htouches)] at hlt hnumChildren
  choose hsize infos hinfos hstates hoffsets hdepths hindices using fun i ↦ setChk_spec (hset i)
  have hinfo (i : Fin numChildren.toNat) := createDownloadRequest_info (hcreate i)
  have hindex (i : Fin numChildren.toNat) : i + headSkip.toNat < chkPerInode := by
    have hfan : chkPerInode = 256 := rfl
    have hkeys := le_of_mul_le_mul_right ((hsize i).trans hpt) (by decide)
    rw [hinfo] at hkeys
    change (UInt32.ofNat i + headSkip + 1).toNat ≤ _ at hkeys
    rw [UInt32.toNat_add, toNat_childIndex (by omega), UInt32.toNat_one] at hkeys
    omega
  have hroom := add_span_le_of_touches htouches hdepth' (hle.trans hfit.1)
  have hoffset (i : Fin numChildren.toNat) :
      (children' i).info.offset.toNat = info.offset.toNat +
        (i + skippedChildren start.toNat info.offset.toNat depth) * tree.span depth := by
    rw [hinfos, info_withInfo, hoffsets, hinfo, ← hheadSkip]
    exact toNat_childOffset (le_of_succ_le hdepth') hroom (hindex i)
  have hchild (i : Fin numChildren.toNat) : (children' i).info.depth = depth := by
    rw [hinfos, info_withInfo, hdepths, hinfo]
    rfl
  have hcount : skippedChildren start.toNat info.offset.toNat depth + numChildren.toNat =
      min chkPerInode (tree.blocks (start.toNat + length.toNat - info.offset.toNat) depth) := by
    have hlast := hindex ⟨numChildren.toNat - 1, sub_one_lt_of_lt (childRange_pos hrange)⟩
    dsimp only at hlast
    omega
  have huntouched' (i : Fin numChildren.toNat) : (children' i).Untouched start length := by
    rw [hinfos]
    exact untouched_withInfo (hcreate i) ((hoffsets i).trans (congrArg _ (hinfo i)))
      ((hdepths i).trans (congrArg _ (hinfo i))) ((hindices i).trans (congrArg _ (hinfo i)))
  have hstate' (i : Fin numChildren.toNat) : (children' i).info.state = .chkSet := by
    rw [hinfos, info_withInfo]
    exact hstates i
  refine ⟨.down ⟨hplaced.touches, hplaced.depth_le⟩ rfl rfl hdepth ⟨hcount, hchild, hoffset⟩
    fun i ↦ .waiting ⟨?_, ?_⟩ (hstate' i) (huntouched' i), rfl, rfl, fun off ↦ ?_⟩
  · have hdvd := (tree.span_dvd_span (le_succ depth)).trans htouches.1
    rw [hoffset, hchild, touches_child_iff hdvd htouches.2.1.le]
    omega
  · rw [hchild]
    exact le_of_succ_le hdepth'
  · have hnil' : (finRange numChildren.toNat).flatMap (fun i ↦ (children' i).covered) = [] :=
      flatMap_eq_nil_iff.mpr fun i _ ↦ (huntouched' i).covered_eq_nil (hstate' i)
    rw [covered_node (nofun : BlockRequestState.downloadDown ≠ .downloadUp), hnil', hnil]
    exact (or_iff_left id).symm

end Steps

end Gnunet.Fs
