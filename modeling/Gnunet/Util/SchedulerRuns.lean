import Gnunet.Util.SchedulerLists

/-!
# Runs of the scheduler

Every step of the scheduler keeps the task lists sound, so they are sound in every state that is
reached, for all clock readings and all results of `select`.  The deadline computed by
`update_sets` is then never too late.
-/

namespace Gnunet.Util.Scheduler

open Lib Multiset List Option QueueFamily ZonedList

variable {state state' : State}

theorem taskFront_markShutdown (t : Task) : taskFront (markShutdown t) = true := by
  have hne : (markShutdown t).reason ≠ .startup :=
    fun h ↦ absurd (congrArg Reason.shutdown h) (by simp [markShutdown, Reason.startup])
  simpa [taskFront] using hne

theorem Sound.shutdown (h : Sound state) : Sound (shutdown state) := by
  have hids : ids (Scheduler.shutdown state) = ids state := by
    have hmap := idsOf_map (f := markShutdown) fun _ ↦ rfl
    simp only [ids, Scheduler.shutdown, total, hmap]
  constructor
  · rw [hids]
    exact h.recorded
  · rw [Scheduler.shutdown]
    simpa [Counted, total] using h.ready_count
  · apply ordered_of_front
    simp only [Scheduler.shutdown, List.mem_map, forall_exists_index, and_imp]
    rintro _ t - rfl
    exact taskFront_markShutdown t
  · simp only [Scheduler.shutdown, List.mem_map, forall_exists_index, and_imp]
    rintro _ t ht rfl
    exact ⟨fun _ ↦ rfl, (h.entry t ht).2⟩
  · intro last hlast
    obtain ⟨t, ht, hid⟩ := h.last last hlast
    exact ⟨markShutdown t, mem_map_of_mem ht, hid⟩

theorem Sound.checkLifeness (h : Sound state) : Sound (checkLifeness state) := by
  unfold Scheduler.checkLifeness
  split_ifs
  all_goals first | exact h | exact h.shutdown

structure Unlinked (task : ℕ) (state state' : State) : Prop where
  ids_eq : task ::ₘ ids state' = ids state
  ready_count : Counted state → Counted state'
  sublist : state'.pendingTimeout.Sublist state.pendingTimeout
  last : (∀ last, state.pendingTimeoutLast = some last →
      ∃ t ∈ state.pendingTimeout, t.id = last) →
    ∀ last, state'.pendingTimeoutLast = some last → ∃ t ∈ state'.pendingTimeout, t.id = last
  lastId : state'.lastId = state.lastId
  added : state'.added = state.added
  started : state'.started = state.started
  cancelled : state'.cancelled = state.cancelled

variable {task : ℕ} {select : Select}

theorem cancelReady_unlinked {ps : List (Fin 8)} (h : cancelReady task ps state = some state') :
    Unlinked task state state' := by
  induction ps with
  | nil => cases h
  | cons p ps ih =>
    rw [cancelReady] at h
    split at h
    next hmem =>
      cases h
      have htotal := total_update idsOf state.ready p
        ((state.ready p).eraseP (hasId task))
      have hlength := total_update length state.ready p
        ((state.ready p).eraseP (hasId task))
      have herase : ((state.ready p).eraseP (hasId task)).length + 1 = (state.ready p).length := by
        have hcard := congrArg card (idsOf_eraseP hmem)
        simpa [idsOf] using hcard
      refine ⟨?_, ?_, Sublist.refl _, id, rfl, rfl, rfl, rfl⟩
      · rw [← idsOf_eraseP hmem, add_cons, ← cons_add] at htotal
        rw [ids, ids, ← add_cons, add_right_cancel htotal]
      · exact fun hcount ↦ hcount.pred rfl (by dsimp only; omega)
    next => exact ih h

theorem unlink_unlinked (h : unlink state task = some state') : Unlinked task state state' := by
  unfold unlink at h
  split at h
  next hmem =>
    cases h
    refine ⟨?_, id, Sublist.refl _, id, rfl, rfl, rfl, rfl⟩
    rw [ids, ids, ← cons_add, ← cons_add, idsOf_eraseP hmem]
  next =>
    split at h
    next hmem =>
      cases h
      refine ⟨?_, id, eraseP_sublist, ?_, rfl, rfl, rfl, rfl⟩
      · rw [ids, ids, ← cons_add, ← add_cons, idsOf_eraseP hmem]
      · intro hcached last hlast
        split at hlast
        next => cases hlast
        next hne =>
          obtain ⟨t, ht, hid⟩ := hcached last hlast
          refine ⟨t, (mem_eraseP_of_neg ?_).mpr ht, hid⟩
          have hother : t.id ≠ task := fun heq ↦ hne (by rw [hlast, ← hid, heq])
          simpa [hasId] using hother
    next => exact cancelReady_unlinked h

section

variable (hsound : Sound state)
include hsound

theorem Sound.cancel (h : cancel state task = some state') :
    Sound state' := by
  unfold Scheduler.cancel at h
  split at h
  · cases h
  obtain ⟨_, hunlink, rfl⟩ := map_eq_some_iff.mp h
  have hunlinked := unlink_unlinked hunlink
  have hrecorded := hsound.recorded
  rw [← hunlinked.ids_eq] at hrecorded
  constructor
  · have hcancel := hrecorded.cancel
    rw [← hunlinked.lastId, ← hunlinked.added, ← hunlinked.started, ← hunlinked.cancelled]
      at hcancel
    exact hcancel
  · exact hunlinked.ready_count hsound.ready_count
  · exact hsound.ordered.sublist hunlinked.sublist
  · exact fun t ht ↦ hsound.entry t (hunlinked.sublist.subset ht)
  · exact hunlinked.last hsound.last

variable {priority now : ℕ}

theorem Sound.addContinuationWithPriority {reason : Reason}
    (h : addContinuationWithPriority state reason priority = some state') : Sound state' := by
  unfold Scheduler.addContinuationWithPriority at h
  split at h
  · cases h
  obtain ⟨honly, htotal⟩ := queueReadyTask_spec h
  have heq := honly.eq
  constructor
  · have hids : ids state' = (state.lastId + 1) ::ₘ ids state := by
      rw [heq, ids]
      rw [htotal, add_cons]
      rfl
    rw [hids, heq]
    exact hsound.recorded.add
  · exact honly.count hsound.ready_count
  · rw [heq]
    exact hsound.ordered
  · rw [heq]
    exact hsound.entry
  · rw [heq]
    exact hsound.last

omit hsound in
theorem relativeToAbsolute_le (now delay : ℕ) : relativeToAbsolute now delay ≤ forever := by
  unfold relativeToAbsolute
  split_ifs
  · exact le_rfl
  · exact le_rfl
  · rw [forever]
    omega

theorem insertTimeout_spec {t : Task} {tasks : List Task}
    (ht : t.reason = .startup) (h : insertTimeout state t = some tasks) :
    tasks.Perm (t :: state.pendingTimeout) ∧
      Ordered taskFront Task.timeout tasks := by
  have hfront : taskFront t = false := by simp [taskFront, ht]
  unfold insertTimeout at h
  split at h
  next =>
    cases h
    exact ⟨place_perm t _, hsound.ordered.place hfront⟩
  next last _ =>
    split at h
    next => cases h
    next prev next hdrop =>
      split at h
      next =>
        cases h
        exact ⟨place_perm t _, hsound.ordered.place hfront⟩
      next hbehind =>
        cases h
        have hsplit := takeWhile_append_dropWhile
          (p := fun task ↦ !hasId last task) (l := state.pendingTimeout)
        rw [hdrop] at hsplit
        constructor
        · nth_rewrite 2 [← hsplit]
          have hplace : (place taskFront Task.timeout t next).Perm (t :: next) :=
            place_perm t next
          exact (((hplace.cons prev).trans (Perm.swap t prev next)).append_left _).trans
            perm_middle
        · have hordered := hsound.ordered
          rw [← hsplit] at hordered
          exact hordered.place_behind hfront (not_lt.mp hbehind)

theorem Sound.addDelayedWithPriority {delay : ℕ}
    (h : addDelayedWithPriority now state delay priority = some state') : Sound state' := by
  unfold Scheduler.addDelayedWithPriority at h
  split at h
  · cases h
  obtain ⟨tasks, hinsert, rfl⟩ := map_eq_some_iff.mp h
  obtain ⟨hperm, hordered⟩ := insertTimeout_spec hsound rfl hinsert
  have hadded := hperm.mem_iff.mpr mem_cons_self
  constructor
  · have hids : ids { freshId state with pendingTimeout := tasks } =
        (state.lastId + 1) ::ₘ ids state := by
      rw [ids, ids]
      dsimp only [freshId]
      rw [idsOf_perm hperm, idsOf_cons, add_cons, cons_add]
    exact hids ▸ hsound.recorded.add
  · exact hsound.ready_count
  · exact hordered
  · intro t ht
    cases mem_cons.mp (hperm.mem_iff.mp ht) with
    | inl hnew =>
      subst hnew
      exact ⟨fun hreason ↦ absurd rfl hreason, relativeToAbsolute_le now delay⟩
    | inr hold => exact hsound.entry t hold
  · intro last hlast
    cases hlast
    exact ⟨_, hadded, rfl⟩

theorem Sound.addPending {delay : ℕ} {readFd writeFd : Option ℕ}
    {readSet writeSet : Option FdSet}
    (h : addPending now state priority delay readFd writeFd readSet writeSet = some state') :
    Sound state' := by
  unfold Scheduler.addPending at h
  split at h
  · cases h
  obtain ⟨p, -, hp⟩ := bind_eq_some_iff.mp h
  cases hp
  refine ⟨?_, hsound.ready_count, hsound.ordered, hsound.entry, hsound.last⟩
  exact hsound.recorded.add

theorem Sound.addNowWithLifeness {lifeness : Bool}
    (h : addNowWithLifeness now state lifeness = some state') : Sound state' := by
  obtain ⟨middle, hadd, h⟩ := bind_eq_some_iff.mp h
  have hmiddle : Sound middle := hsound.addPending hadd
  split at h
  next t rest hpending =>
    cases h
    refine ⟨?_, hmiddle.ready_count, hmiddle.ordered, hmiddle.entry, hmiddle.last⟩
    have hrecorded := hmiddle.recorded
    rw [ids, hpending] at hrecorded
    exact hrecorded
  next => cases h

omit hsound in
theorem highestReady_spec {ready : Fin 8 → List Task} {ps : List (Fin 8)} {p : Fin 8}
    {pos : Task} {next : List Task} (h : highestReady ready ps = some (p, pos, next)) :
    ready p = pos :: next := by
  induction ps with
  | nil => cases h
  | cons q ps ih =>
    rw [highestReady] at h
    split at h
    next hready =>
      cases h
      exact hready
    next => exact ih h

theorem Sound.startTask (h : startTask state = some state') :
    Sound state' := by
  unfold Scheduler.startTask at h
  split at h
  · cases h
    exact hsound
  split at h
  · cases h
  obtain ⟨⟨p, _, next⟩, hhighest, rfl⟩ := map_eq_some_iff.mp h
  have hready := highestReady_spec hhighest
  have htotal := total_update idsOf state.ready p next
  have hlength := total_update length state.ready p next
  rw [hready] at htotal hlength
  refine ⟨?_, ?_, hsound.ordered, hsound.entry, hsound.last⟩
  · have hrecorded := hsound.recorded
    rw [idsOf_cons, add_cons, ← cons_add] at htotal
    rw [ids, ← add_right_cancel htotal, add_cons] at hrecorded
    exact hrecorded.start
  · rw [length_cons] at hlength
    exact hsound.ready_count.pred rfl (by dsimp only; omega)

theorem Sound.runReady (h : runReady state = some state') :
    Sound state' := by
  have hstart : Sound { state with maxPriorityAdded := priorityKeep } := hsound.steer _ _ _ _ _ _
  exact hstart.startTask h

theorem Sound.taskDone (h : taskDone state = some state') :
    Sound state' := by
  have hreturned : Sound { state with activeTask := none, tasksRun := state.tasksRun + 1 } :=
    hsound.steer _ _ _ _ _ _
  unfold Scheduler.taskDone at h
  dsimp only at h
  split at h
  · exact hreturned.startTask h
  · cases h
    exact hreturned

theorem Sound.startup (h : startup now state = some state') :
    Sound state' := by
  obtain ⟨first, hfirst, h⟩ := bind_eq_some_iff.mp h
  obtain ⟨_, hsecond, h⟩ := bind_eq_some_iff.mp h
  cases h
  have hready : Sound { state with currentPriority := priorityDefault, currentLifeness := true } :=
    hsound.steer _ _ _ _ _ _
  have hcontinued : Sound { first with activeTask := some 0 } :=
    (hready.addContinuationWithPriority hfirst).steer _ _ _ _ _ _
  exact (hcontinued.addNowWithLifeness hsecond).steer _ _ _ _ _ _

theorem Sound.step {event : Event} (h : step state event = some state') :
    Sound state' := by
  cases event with
  | startup now => exact hsound.startup (ite_none_right_eq_some.mp h).2
  | addContinuation reason priority => exact hsound.addContinuationWithPriority h
  | addDelayed now delay priority => exact hsound.addDelayedWithPriority h
  | addSelect now priority delay rs ws => exact hsound.addPending h
  | addWithoutSets now delay priority rfd wfd => exact hsound.addPending h
  | addNowWithLifeness now lifeness => exact hsound.addNowWithLifeness h
  | cancel task => exact hsound.cancel h
  | shutdown =>
    cases h
    exact hsound.shutdown
  | checkLifeness =>
    have hlast := (ite_none_right_eq_some.mp h).2
    cases hlast
    exact hsound.checkLifeness
  | checkReady now rs ws => exact (checkReady_spec hsound (ite_none_right_eq_some.mp h).2).1
  | runReady => exact hsound.runReady (ite_none_right_eq_some.mp h).2
  | taskDone => exact hsound.taskDone (ite_none_left_eq_some.mp h).2

end

theorem updateFromTask_timeout_le (now : ℕ) (t : Task) (h : select.timeout ≤ forever) :
    (updateFromTask now select t).timeout ≤ select.timeout ∧
      (updateFromTask now select t).timeout ≤ absoluteGetDifference now t.timeout := by
  have hforever : t.timeout = forever → absoluteGetDifference now t.timeout = forever := by
    intro ht
    simp [absoluteGetDifference, ht]
  unfold updateFromTask
  dsimp only
  split_ifs with hreason hsmaller
  · exact ⟨Nat.zero_le _, Nat.zero_le _⟩
  · exact ⟨hsmaller.2.le, le_rfl⟩
  · refine ⟨le_rfl, ?_⟩
    by_cases ht : t.timeout = forever
    · exact hforever ht ▸ h
    · exact not_lt.mp fun hlt ↦ hsmaller ⟨ht, hlt⟩

theorem foldl_updateFromTask_timeout_le (now : ℕ) (tasks : List Task)
    (h : select.timeout ≤ forever) :
    (tasks.foldl (updateFromTask now) select).timeout ≤ select.timeout ∧
      ∀ t ∈ tasks, (tasks.foldl (updateFromTask now) select).timeout ≤
        absoluteGetDifference now t.timeout := by
  induction tasks generalizing select with
  | nil => exact ⟨le_rfl, by simp⟩
  | cons first rest ih =>
    have hfirst := updateFromTask_timeout_le now first h
    have hrest := ih (hfirst.1.trans h)
    refine ⟨hrest.1.trans hfirst.1, ?_⟩
    exact forall_mem_cons.mpr ⟨hrest.1.trans hfirst.2, hrest.2⟩

theorem updateFromHead_timeout_le (now : ℕ) (hsound : Sound state) (h : select.timeout ≤ forever) :
    (updateFromHead now state.pendingTimeout select).timeout ≤ forever ∧
      ∀ t ∈ state.pendingTimeout, (updateFromHead now state.pendingTimeout select).timeout ≤
        absoluteGetDifference now t.timeout := by
  have hordered := hsound.ordered
  have hentry := hsound.entry
  cases hlist : state.pendingTimeout with
  | nil => exact ⟨h, by simp⟩
  | cons pos next =>
    rw [hlist] at hordered hentry
    unfold updateFromHead
    dsimp only
    split_ifs with hreason hsmaller
    · exact ⟨Nat.zero_le _, fun t _ ↦ Nat.zero_le _⟩
    all_goals
      have hfront : taskFront pos = false := by simpa [taskFront] using hreason
      have hpos : ∀ t ∈ pos :: next,
          absoluteGetDifference now pos.timeout ≤ absoluteGetDifference now t.timeout := by
        intro t ht
        cases mem_cons.mp ht with
        | inl heq => exact heq ▸ le_rfl
        | inr hnext =>
          have hlater := (hordered.of_cons hfront hnext).2
          have hforever := (hentry t ht).2
          unfold absoluteGetDifference
          split_ifs <;> omega
    · exact ⟨hsmaller.le.trans h, hpos⟩
    · exact ⟨h, fun t ht ↦ (not_lt.mp hsmaller).trans (hpos t ht)⟩

theorem updateSets_timeout_le (now : ℕ) (hsound : Sound state) {t : Task}
    (ht : t ∈ state.pending ∨ t ∈ state.pendingTimeout) :
    (updateSets now state).timeout ≤ absoluteGetDifference now t.timeout := by
  have hforever : (Select.mk [] [] forever).timeout ≤ forever := le_rfl
  have hhead := updateFromHead_timeout_le now hsound hforever
  have hfold := foldl_updateFromTask_timeout_le now state.pending hhead.1
  cases ht with
  | inl hpending => exact hfold.2 t hpending
  | inr htimeout => exact hfold.1.trans (hhead.2 t htimeout)

theorem sound_of_run {events : List Event} {last : State}
    (h : Runs.run step initial events = some last) : Sound last := by
  have halong : Runs.Along step (fun _ _ ↦ True) initial events :=
    Runs.along_of_forall (fun _ _ ↦ trivial) initial events
  exact Runs.run_invariant (fun _ _ _ hsound _ hstep ↦ hsound.step hstep) sound_initial halong h

/-- A listed task is in one list only, and it is one that was added and neither started nor
cancelled. -/
theorem Sound.count_ids (hsound : Sound state) (id : ℕ) :
    (ids state).count id =
      if id ∈ state.added ∧ id ∉ state.started ∧ id ∉ state.cancelled then 1 else 0 := by
  have hmem := hsound.recorded.mem_iff id
  split_ifs with hlive
  · exact count_eq_one_of_mem hsound.recorded.nodup (hmem.mpr hlive)
  · exact count_eq_zero.mpr fun hlisted ↦ hlive (hmem.mp hlisted)

theorem Sound.exists_split (hsound : Sound state) :
    ∃ marked sorted, state.pendingTimeout = marked ++ sorted ∧
      (∀ t ∈ marked, t.reason.shutdown = true) ∧ (∀ t ∈ sorted, t.reason.shutdown = false) ∧
        sorted.Pairwise fun t t' ↦ t.timeout ≤ t'.timeout := by
  obtain ⟨marked, sorted, heq, hmarked, hsorted, hpairwise⟩ := hsound.ordered.exists_split
  refine ⟨marked, sorted, heq, fun t ht ↦ ?_, fun t ht ↦ ?_, hpairwise⟩
  · have hlisted : t ∈ state.pendingTimeout := heq ▸ mem_append_left sorted ht
    exact (hsound.entry t hlisted).1 (by simpa [taskFront] using hmarked t ht)
  · have hunmarked : t.reason = .startup := by simpa [taskFront] using hsorted t ht
    rw [hunmarked, Reason.startup]

/-- In every state the scheduler reaches, each task that was added and neither started nor cancelled
is in exactly one list and no other task is listed; `ready_count` is the number of ready tasks
modulo `2 ^ 32`; the timeout list is in order behind the tasks flagged for shutdown, with the cached
last insertion in it; no task was started twice, or started and cancelled; `check_ready` leaves
nothing that is due or flagged; and `select` sleeps no longer than to the next deadline. -/
theorem run_keeps_lists {events : List Event} {last : State}
    (h : Runs.run step initial events = some last) :
    (∀ id, (ids last).count id =
        if id ∈ last.added ∧ id ∉ last.started ∧ id ∉ last.cancelled then 1 else 0) ∧
      last.readyCount.toNat = total length last.ready % 2 ^ 32 ∧
      (∃ marked sorted, last.pendingTimeout = marked ++ sorted ∧
        (∀ t ∈ marked, t.reason.shutdown = true) ∧ (∀ t ∈ sorted, t.reason.shutdown = false) ∧
          sorted.Pairwise fun t t' ↦ t.timeout ≤ t'.timeout) ∧
      (∀ id, last.pendingTimeoutLast = some id → ∃ t ∈ last.pendingTimeout, t.id = id) ∧
      last.started.Nodup ∧ (∀ id ∈ last.started, id ∉ last.cancelled) ∧
      (∀ now rs ws next, checkReady now rs ws last = some next →
        ∀ t, t ∈ next.pending ∨ t ∈ next.pendingTimeout →
          now < t.timeout ∧ t.reason.shutdown = false) ∧
      ∀ now t, t ∈ last.pending ∨ t ∈ last.pendingTimeout →
        (updateSets now last).timeout ≤ absoluteGetDifference now t.timeout := by
  have hsound := sound_of_run h
  have hcount : last.readyCount.toNat = total length last.ready % 2 ^ 32 :=
    (congrArg UInt32.toNat hsound.ready_count).trans UInt32.toNat_ofNat'
  refine ⟨hsound.count_ids, hcount, hsound.exists_split, hsound.last,
    hsound.recorded.started_nodup, hsound.recorded.not_cancelled, ?_, ?_⟩
  · intro now rs ws next hnext t ht
    have hleft := (checkReady_spec hsound hnext).2 t ht
    exact ⟨hleft.1, by rw [hleft.2, Reason.startup]⟩
  · exact fun now t ht ↦ updateSets_timeout_le now hsound ht

/-- The first task adds three delayed tasks and cancels one; the second is inserted in front of the
cached one and the third behind it. -/
def delayedRun : List Event :=
  [.startup 0, .checkReady 0 [] [], .runReady, .addDelayed 5 10 3, .addDelayed 6 2 3,
    .addDelayed 7 6 3, .cancel 3, .taskDone]

theorem delayedRun_keeps_lists :
    ∃ last, Runs.run step initial delayedRun = some last ∧
      last.pendingTimeout.map Task.id = [4, 5] ∧ last.started = [1, 2] ∧ last.cancelled = [3] ∧
      (∀ id, (ids last).count id =
        if id ∈ last.added ∧ id ∉ last.started ∧ id ∉ last.cancelled then 1 else 0) ∧
      last.readyCount.toNat = total length last.ready % 2 ^ 32 := by
  have hrun : ∃ last, Runs.run step initial delayedRun = some last ∧
      last.pendingTimeout.map Task.id = [4, 5] ∧ last.started = [1, 2] ∧ last.cancelled = [3] :=
    ⟨_, rfl, rfl, rfl, rfl⟩
  obtain ⟨last, hlast, hlists⟩ := hrun
  have hkeeps := run_keeps_lists hlast
  exact ⟨last, hlast, hlists.1, hlists.2.1, hlists.2.2, hkeeps.1, hkeeps.2.1⟩

def continuation : Event :=
  .addContinuation { Reason.startup with prereqDone := true } priorityDefault

theorem run_continuations {task : ℕ} (hactive : state.activeTask = some task) (n : ℕ) :
    ∃ last, Runs.run step state (List.replicate n continuation) = some last ∧
      total length last.ready = total length state.ready + n := by
  induction n generalizing state with
  | zero => exact ⟨state, rfl, rfl⟩
  | succ n ih =>
    obtain ⟨next, hnext, hstill, hqueued⟩ : ∃ next, step state continuation = some next ∧
        next.activeTask = some task ∧
        total length next.ready = total length state.ready + 1 := by
      refine ⟨_, if_neg fun h ↦ ?_, hactive, total_length_cons _ _ _⟩
      rw [hactive] at h
      cases h.1
    obtain ⟨last, hlast, htotal⟩ := ih hstill
    refine ⟨last, ?_, by omega⟩
    rw [List.replicate_succ, Runs.run_cons, hnext]
    exact hlast

theorem exists_run_ready (n : ℕ) : ∃ events last,
    Runs.run step initial events = some last ∧ total length last.ready = n := by
  obtain ⟨started, hstarted, hactive, hempty⟩ : ∃ started,
      Runs.run step initial [.startup 0, .runReady] = some started ∧
        started.activeTask = some 1 ∧ total length started.ready = 0 :=
    ⟨_, rfl, rfl, rfl⟩
  obtain ⟨last, hlast, htotal⟩ := run_continuations hactive n
  refine ⟨[.startup 0, .runReady] ++ List.replicate n continuation, last, ?_, by omega⟩
  rw [Runs.run_append, hstarted]
  exact hlast

/-- With as many ready tasks as an `unsigned int` has values, `ready_count` is zero. -/
theorem readyCount_wraps : ∃ events last, Runs.run step initial events = some last ∧
    total length last.ready = 2 ^ 32 ∧ last.readyCount = 0 := by
  obtain ⟨events, last, hrun, htotal⟩ := exists_run_ready (2 ^ 32)
  refine ⟨events, last, hrun, htotal, ?_⟩
  rw [(sound_of_run hrun).ready_count, htotal]
  rfl

end Gnunet.Util.Scheduler
