import Gnunet.Lib.QueueFamily
import Gnunet.Util.Scheduler

/-!
# The task lists of the scheduler

`Sound` says that the lists hold exactly the tasks that were added and neither started nor
cancelled, each once, that `ready_count` counts the ready tasks modulo `2 ^ 32`, and that the
timeout list and its cached last insertion are in order.  Every step of the scheduler keeps it.
-/

namespace Gnunet.Util.Scheduler

open Lib Function Multiset Option
open List hiding Nodup mem_cons nodup_cons
open QueueFamily

def idsOf (tasks : List Task) : Multiset ℕ := (tasks.map Task.id : Multiset ℕ)

def ids (state : State) : Multiset ℕ :=
  idsOf state.pending + idsOf state.pendingTimeout + total idsOf state.ready

/-- The listed tasks are those that were added and neither started nor cancelled. -/
structure Recorded (listed : Multiset ℕ) (lastId : ℕ) (added started cancelled : List ℕ) :
    Prop where
  nodup : listed.Nodup
  mem_iff : ∀ id, id ∈ listed ↔ id ∈ added ∧ id ∉ started ∧ id ∉ cancelled
  added_le : ∀ id ∈ added, id ≤ lastId
  started_added : ∀ id ∈ started, id ∈ added
  cancelled_added : ∀ id ∈ cancelled, id ∈ added
  started_nodup : started.Nodup
  not_cancelled : ∀ id ∈ started, id ∉ cancelled

/-- `ready_count` is the number of ready tasks, as an `unsigned int`. -/
def Counted (state : State) : Prop := state.readyCount = .ofNat (total length state.ready)

structure Sound (state : State) : Prop where
  recorded : Recorded (ids state) state.lastId state.added state.started state.cancelled
  ready_count : Counted state
  ordered : ZonedList.Ordered taskFront Task.timeout state.pendingTimeout
  entry : ∀ t ∈ state.pendingTimeout,
    (t.reason ≠ .startup → t.reason.shutdown = true) ∧ t.timeout ≤ forever
  last : ∀ last, state.pendingTimeoutLast = some last →
    ∃ t ∈ state.pendingTimeout, t.id = last

@[simp] theorem idsOf_nil : idsOf [] = 0 := rfl

@[simp] theorem idsOf_cons (t : Task) (tasks : List Task) :
    idsOf (t :: tasks) = t.id ::ₘ idsOf tasks := rfl

variable {tasks : List Task} {state : State}

theorem Counted.succ {state' : State} (h : Counted state)
    (hcount : state'.readyCount = state.readyCount + 1)
    (htotal : total length state'.ready = total length state.ready + 1) : Counted state' := by
  rw [Counted, hcount, h, htotal, UInt32.ofNat_add]
  rfl

theorem Counted.pred {state' : State} (h : Counted state)
    (hcount : state'.readyCount = state.readyCount - 1)
    (htotal : total length state'.ready + 1 = total length state.ready) : Counted state' := by
  rw [Counted, hcount, h, ← htotal, UInt32.ofNat_add]
  exact UInt32.add_sub_cancel _ _

theorem idsOf_perm {tasks' : List Task} (h : tasks.Perm tasks') : idsOf tasks = idsOf tasks' :=
  coe_eq_coe.mpr (h.map Task.id)

theorem idsOf_map {f : Task → Task} (hf : ∀ t, (f t).id = t.id) (tasks : List Task) :
    idsOf (tasks.map f) = idsOf tasks := by
  simp [idsOf, comp_def, hf]

theorem idsOf_eraseP {task : ℕ} (h : tasks.any (hasId task) = true) :
    task ::ₘ idsOf (tasks.eraseP (hasId task)) = idsOf tasks := by
  induction tasks with
  | nil => simp at h
  | cons t tasks ih =>
    by_cases ht : t.id = task
    · rw [eraseP_cons_of_pos (by simpa [hasId] using ht), idsOf_cons, ht]
    · have hrest : tasks.any (hasId task) = true := by simpa [hasId, ht] using h
      rw [eraseP_cons_of_neg (by simpa [hasId] using ht), idsOf_cons, cons_swap,
        ih hrest, idsOf_cons]

/-- Soundness does not look at the fields that steer `run_ready`. -/
theorem Sound.steer (h : Sound state) (activeTask : Option ℕ)
    (tasksRun currentPriority maxPriorityAdded : ℕ) (currentLifeness : Bool) (loopPriority : ℕ) :
    Sound { state with
      activeTask := activeTask
      tasksRun := tasksRun
      currentPriority := currentPriority
      maxPriorityAdded := maxPriorityAdded
      currentLifeness := currentLifeness
      loopPriority := loopPriority } :=
  ⟨h.recorded, h.ready_count, h.ordered, h.entry, h.last⟩

theorem sound_initial : Sound initial := by
  constructor
  · constructor <;> simp [initial, ids, total]
  · simp [Counted, initial, total]
  · exact ZonedList.ordered_nil
  · simp [initial]
  · simp [initial]

section Recorded

variable {listed : Multiset ℕ} {lastId : ℕ} {added started cancelled : List ℕ}

theorem Recorded.add (h : Recorded listed lastId added started cancelled) :
    Recorded ((lastId + 1) ::ₘ listed) (lastId + 1) ((lastId + 1) :: added) started cancelled := by
  have hfresh : lastId + 1 ∉ added := fun hmem ↦ absurd (h.added_le _ hmem) (by omega)
  constructor
  · apply nodup_cons.mpr
    exact ⟨fun hmem ↦ hfresh ((h.mem_iff _).mp hmem).1, h.nodup⟩
  · intro id
    rw [mem_cons, List.mem_cons, h.mem_iff]
    constructor
    · rintro (rfl | hid)
      · refine ⟨.inl rfl, ?_, ?_⟩
        · exact fun hmem ↦ hfresh (h.started_added _ hmem)
        · exact fun hmem ↦ hfresh (h.cancelled_added _ hmem)
      · exact ⟨.inr hid.1, hid.2⟩
    · rintro ⟨rfl | hid, hrest⟩
      · exact .inl rfl
      · exact .inr ⟨hid, hrest⟩
  · intro id hid
    rcases List.mem_cons.mp hid with rfl | hid
    · exact le_rfl
    · exact Nat.le_succ_of_le (h.added_le id hid)
  · exact fun id hid ↦ mem_cons_of_mem _ (h.started_added id hid)
  · exact fun id hid ↦ mem_cons_of_mem _ (h.cancelled_added id hid)
  · exact h.started_nodup
  · exact h.not_cancelled

section

variable {id : ℕ} (h : Recorded (id ::ₘ listed) lastId added started cancelled)
include h

theorem Recorded.mem_rest_iff (other : ℕ) :
    other ∈ listed ↔
      other ≠ id ∧ other ∈ added ∧ other ∉ started ∧ other ∉ cancelled := by
  have hfresh := (nodup_cons.mp h.nodup).1
  rw [← h.mem_iff other, mem_cons]
  constructor
  · exact fun hmem ↦ ⟨fun heq ↦ hfresh (heq ▸ hmem), .inr hmem⟩
  · exact fun hother ↦ hother.2.resolve_left hother.1

theorem Recorded.start : Recorded listed lastId added (id :: started) cancelled := by
  have hlive := (h.mem_iff id).mp (mem_cons_self id listed)
  constructor
  · exact (nodup_cons.mp h.nodup).2
  · intro other
    rw [h.mem_rest_iff other, List.mem_cons, not_or, and_assoc]
    exact and_left_comm
  · exact h.added_le
  · exact forall_mem_cons.mpr ⟨hlive.1, h.started_added⟩
  · exact h.cancelled_added
  · exact List.nodup_cons.mpr ⟨hlive.2.1, h.started_nodup⟩
  · exact forall_mem_cons.mpr ⟨hlive.2.2, h.not_cancelled⟩

theorem Recorded.cancel : Recorded listed lastId added started (id :: cancelled) := by
  have hlive := (h.mem_iff id).mp (mem_cons_self id listed)
  constructor
  · exact (nodup_cons.mp h.nodup).2
  · intro other
    rw [h.mem_rest_iff other, List.mem_cons, not_or, and_left_comm]
    exact and_congr_right fun _ ↦ and_left_comm
  · exact h.added_le
  · exact h.started_added
  · exact forall_mem_cons.mpr ⟨hlive.1, h.cancelled_added⟩
  · exact h.started_nodup
  · intro other hstarted hmem
    cases List.mem_cons.mp hmem with
    | inl heq => exact hlive.2.1 (heq ▸ hstarted)
    | inr hmem => exact h.not_cancelled other hstarted hmem

end

end Recorded

structure OnlyReady (state state' : State) : Prop where
  eq : state' = { state with ready := state'.ready, readyCount := state'.readyCount }
  count : Counted state → Counted state'

theorem OnlyReady.refl (state : State) : OnlyReady state state := ⟨rfl, id⟩

variable {state' : State}

theorem OnlyReady.trans {state'' : State} (h : OnlyReady state state')
    (h' : OnlyReady state' state'') : OnlyReady state state'' := by
  refine ⟨?_, fun hcount ↦ h'.count (h.count hcount)⟩
  calc state'' = { state' with ready := state''.ready, readyCount := state''.readyCount } := h'.eq
    _ = { state with ready := state''.ready, readyCount := state''.readyCount } := by rw [h.eq]

theorem total_idsOf_cons (ready : Fin 8 → List Task) (p : Fin 8) (t : Task) :
    total idsOf (update ready p (t :: ready p)) = t.id ::ₘ total idsOf ready := by
  have htotal := total_update idsOf ready p (t :: ready p)
  rw [idsOf_cons, add_cons] at htotal
  exact add_right_cancel htotal

theorem total_length_cons (ready : Fin 8 → List Task) (p : Fin 8) (t : Task) :
    total length (update ready p (t :: ready p)) = total length ready + 1 := by
  have htotal := total_update length ready p (t :: ready p)
  rw [length_cons] at htotal
  omega

theorem queueReadyTask_spec {t : Task} (h : queueReadyTask state t = some state') :
    OnlyReady state state' ∧
      total idsOf state'.ready = t.id ::ₘ total idsOf state.ready := by
  obtain ⟨p, -, hp⟩ := bind_eq_some_iff.mp h
  cases hp
  refine ⟨⟨rfl, fun hcount ↦ ?_⟩, total_idsOf_cons _ _ _⟩
  exact hcount.succ rfl (total_length_cons _ _ _)

theorem markTimeout_id (now : ℕ) (t : Task) : (markTimeout now t).id = t.id := by
  unfold markTimeout
  split <;> rfl

variable {now : ℕ}

theorem markTimeout_startup {t : Task} (h : (markTimeout now t).reason = .startup) :
    now < t.timeout ∧ t.reason = .startup := by
  unfold markTimeout at h
  split at h
  · exact absurd (congrArg Reason.timeout h) (by simp [Reason.startup])
  next hdue => exact ⟨not_le.mp hdue, h⟩

theorem checkTimeouts_spec (hsound : Sound state)
    (htasks : state.pendingTimeout = tasks) (h : checkTimeouts now tasks state = some state') :
    Sound state' ∧ ∀ t ∈ state'.pendingTimeout, now < t.timeout ∧ t.reason = .startup := by
  induction tasks generalizing state with
  | nil =>
    cases h
    exact ⟨hsound, by simp [htasks]⟩
  | cons pos next ih =>
    have hordered := htasks ▸ hsound.ordered
    rw [checkTimeouts] at h
    split at h
    next hstop =>
      cases h
      have hpos := markTimeout_startup hstop
      refine ⟨hsound, ?_⟩
      rw [htasks]
      intro t ht
      cases List.mem_cons.mp ht with
      | inl h => exact h ▸ hpos
      | inr ht =>
        have hbehind := hordered.of_cons (by simp [taskFront, hpos.2]) ht
        exact ⟨lt_of_lt_of_le hpos.1 hbehind.2, by simpa [taskFront] using hbehind.1⟩
    next =>
      obtain ⟨queued, hqueue, hrest⟩ := bind_eq_some_iff.mp h
      obtain ⟨honly, htotal⟩ := queueReadyTask_spec hqueue
      have heq := honly.eq
      have hqueued : Sound queued := by
        constructor
        · have hids : ids queued = ids state := by
            rw [heq, ids, ids, htasks]
            rw [htotal, markTimeout_id, idsOf_cons, add_cons, add_cons, cons_add]
          rw [hids, heq]
          exact hsound.recorded
        · exact honly.count hsound.ready_count
        · rw [heq]
          exact hordered.sublist (sublist_cons_self pos next)
        · intro t ht
          rw [heq] at ht
          exact hsound.entry t (htasks ▸ mem_cons_of_mem pos ht)
        · intro last hlast
          rw [heq] at hlast ⊢
          split at hlast
          · cases hlast
          next hne =>
            obtain ⟨t, ht, hid⟩ := hsound.last last hlast
            rw [htasks] at ht
            rcases List.mem_cons.mp ht with rfl | ht
            · rw [markTimeout_id, hid] at hne
              exact absurd hlast hne
            · exact ⟨t, ht, hid⟩
      have hnext : queued.pendingTimeout = next := by rw [heq]
      exact ih hqueued hnext hrest

variable {rs ws : FdSet}

theorem isReady_id {t t' : Task} (h : isReady t now rs ws = some t') : t'.id = t.id := by
  unfold isReady at h
  dsimp only at h
  split at h
  · cases h
  · cases h
    rfl

theorem isReady_none {t : Task} (h : isReady t now rs ws = none) :
    now < t.timeout ∧ t.reason = .startup := by
  unfold isReady at h
  dsimp only at h
  split at h
  next hreason =>
    simp only [Reason.startup] at hreason
    rw [Reason.startup]
    cases hr : t.reason
    simp_all
  next => cases h

theorem checkPending_spec {kept : List Task}
    (h : checkPending now rs ws tasks state = some (kept, state')) :
    OnlyReady state state' ∧
      idsOf kept + total idsOf state'.ready = idsOf tasks + total idsOf state.ready ∧
      ∀ t ∈ kept, now < t.timeout ∧ t.reason = .startup := by
  induction tasks generalizing state kept with
  | nil =>
    cases h
    exact ⟨OnlyReady.refl state', rfl, by simp⟩
  | cons pos next ih =>
    rw [checkPending] at h
    split at h
    next pos' hready =>
      obtain ⟨_, hqueue, hrest⟩ := bind_eq_some_iff.mp h
      obtain ⟨honly, htotal⟩ := queueReadyTask_spec hqueue
      obtain ⟨honly', hids, hkept⟩ := ih hrest
      refine ⟨honly.trans honly', ?_, hkept⟩
      rw [hids, htotal, isReady_id hready, idsOf_cons, add_cons, cons_add]
    next hready =>
      obtain ⟨⟨_, _⟩, hrest, hpair⟩ := bind_eq_some_iff.mp h
      cases hpair
      obtain ⟨honly, hids, hkept⟩ := ih hrest
      refine ⟨honly, ?_, forall_mem_cons.mpr ⟨isReady_none hready, hkept⟩⟩
      rw [idsOf_cons, idsOf_cons, cons_add, cons_add, hids]

/-- After `check_ready` nothing that is due or flagged is left waiting. -/
theorem checkReady_spec (hsound : Sound state) (h : checkReady now rs ws state = some state') :
    Sound state' ∧
      ∀ t, t ∈ state'.pending ∨ t ∈ state'.pendingTimeout →
        now < t.timeout ∧ t.reason = .startup := by
  obtain ⟨middle, htimeouts, h⟩ := bind_eq_some_iff.mp h
  obtain ⟨⟨kept, last⟩, hpending, h⟩ := bind_eq_some_iff.mp h
  cases h
  obtain ⟨hmiddle, hleft⟩ := checkTimeouts_spec hsound rfl htimeouts
  obtain ⟨honly, hids, hkept⟩ := checkPending_spec hpending
  have heq := honly.eq
  refine ⟨⟨?_, ?_, ?_, ?_, ?_⟩, ?_⟩
  · have hall : ids { last with pending := kept } = ids middle := by
      calc ids { last with pending := kept }
          = idsOf middle.pendingTimeout + (idsOf kept + total idsOf last.ready) := by
            rw [heq, ids]
            abel
        _ = idsOf middle.pendingTimeout +
            (idsOf middle.pending + total idsOf middle.ready) := by rw [hids]
        _ = ids middle := by
            rw [ids]
            abel
    rw [hall, heq]
    exact hmiddle.recorded
  · exact honly.count hmiddle.ready_count
  · rw [heq]
    exact hmiddle.ordered
  · rw [heq]
    exact hmiddle.entry
  · rw [heq]
    exact hmiddle.last
  · rintro t (ht | ht)
    · exact hkept t ht
    · rw [heq] at ht
      exact hleft t ht

end Gnunet.Util.Scheduler
