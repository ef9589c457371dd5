import Gnunet.Lib.Runs
import Gnunet.Lib.ZonedList
import Mathlib.Algebra.Group.Nat.Defs

/-!
# The scheduler

A model of the task lists of `scheduler.c`.  A pointer to a task is the task's identifier.
`run_ready` is split at the calls of the tasks: `runReady` runs up to the first call, the running
task then uses the interface, and `taskDone` goes on when the task returns.  `none` is a failed
assertion or the use of a pointer to a task that is gone.  The lists `added`, `started` and
`cancelled` record the history and are not looked at by the code.
-/

namespace Gnunet.Util.Scheduler

open Lib Function

structure Reason where
  shutdown : Bool
  timeout : Bool
  readReady : Bool
  writeReady : Bool
  prereqDone : Bool
  deriving DecidableEq, Repr

def Reason.startup : Reason := ⟨false, false, false, false, false⟩

abbrev FdSet := List ℕ

structure Task where
  id : ℕ
  timeout : ℕ
  reason : Reason
  priority : ℕ
  readFd : Option ℕ
  writeFd : Option ℕ
  readSet : Option FdSet
  writeSet : Option FdSet
  lifeness : Bool
  deriving DecidableEq, Repr

def priorityKeep : ℕ := 0

def priorityDefault : ℕ := 3

def priorityShutdown : ℕ := 7

structure State where
  pending : List Task
  pendingTimeout : List Task
  pendingTimeoutLast : Option ℕ
  activeTask : Option ℕ
  ready : Fin 8 → List Task
  lastId : ℕ
  readyCount : UInt32
  tasksRun : ℕ
  currentPriority : ℕ
  maxPriorityAdded : ℕ
  currentLifeness : Bool
  /-- The priority level `p` in the loop of `run_ready`. -/
  loopPriority : ℕ
  added : List ℕ
  started : List ℕ
  cancelled : List ℕ

def initial : State where
  pending := []
  pendingTimeout := []
  pendingTimeoutLast := none
  activeTask := none
  ready := fun _ ↦ []
  lastId := 0
  readyCount := 0
  tasksRun := 0
  currentPriority := priorityDefault
  maxPriorityAdded := priorityKeep
  currentLifeness := true
  loopPriority := 0
  added := []
  started := []
  cancelled := []

/-- `GNUNET_TIME_UNIT_FOREVER_ABS` and `GNUNET_TIME_UNIT_FOREVER_REL`. -/
def forever : ℕ := 2 ^ 64 - 1

def relativeToAbsolute (now delay : ℕ) : ℕ :=
  if delay = forever then forever
  else if 2 ^ 64 ≤ delay + now then forever
  else delay + now

def absoluteGetDifference (start stop : ℕ) : ℕ :=
  if stop = forever then forever
  else if stop < start then 0
  else stop - start

structure Select where
  rs : FdSet
  ws : FdSet
  timeout : ℕ
  deriving DecidableEq, Repr

def updateFromHead (now : ℕ) (pendingTimeout : List Task) (select : Select) : Select :=
  match pendingTimeout with
  | [] => select
  | pos :: _ =>
    let remaining := absoluteGetDifference now pos.timeout
    let timeout := if remaining < select.timeout then remaining else select.timeout
    { select with timeout := if pos.reason ≠ .startup then 0 else timeout }

def updateFromTask (now : ℕ) (select : Select) (pos : Task) : Select :=
  let remaining := absoluteGetDifference now pos.timeout
  let timeout := if pos.timeout ≠ forever ∧ remaining < select.timeout then remaining
    else select.timeout
  { rs := select.rs ++ pos.readFd.toList ++ pos.readSet.getD []
    ws := select.ws ++ pos.writeFd.toList ++ pos.writeSet.getD []
    timeout := if pos.reason ≠ .startup then 0 else timeout }

def updateSets (now : ℕ) (state : State) : Select :=
  state.pending.foldl (updateFromTask now)
    (updateFromHead now state.pendingTimeout ⟨[], [], forever⟩)

def setOverlaps (ready : FdSet) (want : Option FdSet) : Bool :=
  (want.getD []).any (· ∈ ready)

/-- The task with its reasons. A descriptor set that overlaps is replaced by the set of ready ones.
-/
def isReady (task : Task) (now : ℕ) (rs ws : FdSet) : Option Task :=
  let timeout := task.reason.timeout || decide (task.timeout ≤ now)
  let read := !task.reason.readReady &&
    (task.readFd.any (· ∈ rs) || setOverlaps rs task.readSet)
  let write := !task.reason.writeReady &&
    (task.writeFd.any (· ∈ ws) || setOverlaps ws task.writeSet)
  let reason : Reason :=
    { task.reason with
      timeout := timeout
      readReady := task.reason.readReady || read
      writeReady := task.reason.writeReady || write }
  if reason = .startup then none
  else some { task with
    reason := { reason with prereqDone := true }
    readSet := if read && !task.readFd.any (· ∈ rs) then some rs else task.readSet
    writeSet := if write && !task.writeFd.any (· ∈ ws) then some ws else task.writeSet }

def checkPriority (p : ℕ) : Option (Fin 8) := if h : p < 8 then some ⟨p, h⟩ else none

def queueReadyTask (state : State) (task : Task) : Option State := do
  let p ← checkPriority (if task.reason.shutdown then priorityShutdown else task.priority)
  some { state with
    ready := update state.ready p (task :: state.ready p)
    readyCount := state.readyCount + 1 }

def markTimeout (now : ℕ) (task : Task) : Task :=
  if task.timeout ≤ now then { task with reason := { task.reason with timeout := true } } else task

def checkTimeouts (now : ℕ) : List Task → State → Option State
  | [], state => some state
  | pos :: next, state =>
    let pos := markTimeout now pos
    if pos.reason = .startup then some state
    else do
      let state ← queueReadyTask
        { state with
          pendingTimeout := next
          pendingTimeoutLast :=
            if state.pendingTimeoutLast = some pos.id then none
            else state.pendingTimeoutLast } pos
      checkTimeouts now next state

def checkPending (now : ℕ) (rs ws : FdSet) : List Task → State → Option (List Task × State)
  | [], state => some ([], state)
  | pos :: next, state =>
    match isReady pos now rs ws with
    | some pos => do
        let state ← queueReadyTask state pos
        checkPending now rs ws next state
    | none => do
        let (kept, state) ← checkPending now rs ws next state
        some (pos :: kept, state)

def checkReady (now : ℕ) (rs ws : FdSet) (state : State) : Option State := do
  let state ← checkTimeouts now state.pendingTimeout state
  let (kept, state) ← checkPending now rs ws state.pending state
  some { state with pending := kept }

def markShutdown (task : Task) : Task :=
  { task with reason := { task.reason with shutdown := true } }

def shutdown (state : State) : State :=
  { state with
    pendingTimeout := state.pendingTimeout.map markShutdown
    pending := state.pending.map markShutdown
    ready := fun p ↦ (state.ready p).map markShutdown }

def checkLifeness (state : State) : State :=
  if 0 < state.readyCount then state
  else if state.pending.any Task.lifeness then state
  else if state.pendingTimeout.any Task.lifeness then state
  else if state.pending ≠ [] ∨ state.pendingTimeout ≠ [] then shutdown state
  else state

def hasId (task : ℕ) (t : Task) : Bool := t.id = task

def cancelReady (task : ℕ) : List (Fin 8) → State → Option State
  | [], _ => none
  | p :: ps, state =>
    if (state.ready p).any (hasId task) then
      some { state with
        ready := update state.ready p ((state.ready p).eraseP (hasId task))
        readyCount := state.readyCount - 1 }
    else cancelReady task ps state

def unlink (state : State) (task : ℕ) : Option State :=
  if state.pending.any (hasId task) then
    some { state with pending := state.pending.eraseP (hasId task) }
  else if state.pendingTimeout.any (hasId task) then
    some { state with
      pendingTimeout := state.pendingTimeout.eraseP (hasId task)
      pendingTimeoutLast :=
        if state.pendingTimeoutLast = some task then none else state.pendingTimeoutLast }
  else cancelReady task [1, 2, 3, 4, 5, 6, 7] state

def cancel (state : State) (task : ℕ) : Option State :=
  if state.activeTask = none then none
  else (unlink state task).map fun state ↦
    { state with cancelled := task :: state.cancelled }

def freshId (state : State) : State :=
  { state with lastId := state.lastId + 1, added := (state.lastId + 1) :: state.added }

def addContinuationWithPriority (state : State) (reason : Reason) (priority : ℕ) :
    Option State :=
  if state.activeTask = none ∧ reason ≠ .startup then none
  else queueReadyTask (freshId state)
    { id := state.lastId + 1
      timeout := 0
      reason := reason
      priority := priority
      readFd := none
      writeFd := none
      readSet := none
      writeSet := none
      lifeness := state.currentLifeness }

def taskFront (task : Task) : Bool := task.reason ≠ .startup

/-- The search starts behind the task inserted last if that works. -/
def insertTimeout (state : State) (t : Task) : Option (List Task) :=
  match state.pendingTimeoutLast with
  | none => some (ZonedList.place taskFront Task.timeout t state.pendingTimeout)
  | some last =>
    match state.pendingTimeout.dropWhile (fun task ↦ !hasId last task) with
    | [] => none
    | prev :: next =>
      if t.timeout < prev.timeout then
        some (ZonedList.place taskFront Task.timeout t state.pendingTimeout)
      else
        some (state.pendingTimeout.takeWhile (fun task ↦ !hasId last task) ++
          prev :: ZonedList.place taskFront Task.timeout t next)

def addDelayedWithPriority (now : ℕ) (state : State) (delay priority : ℕ) : Option State :=
  if state.activeTask = none then none
  else
    let t : Task :=
      { id := state.lastId + 1
        timeout := relativeToAbsolute now delay
        reason := .startup
        priority := priority
        readFd := none
        writeFd := none
        readSet := none
        writeSet := none
        lifeness := state.currentLifeness }
    (insertTimeout state t).map fun pendingTimeout ↦
      { freshId state with
        pendingTimeout := pendingTimeout
        pendingTimeoutLast := some t.id }

/-- The common part of `GNUNET_SCHEDULER_add_select` and `add_without_sets`. -/
def addPending (now : ℕ) (state : State) (priority delay : ℕ) (readFd writeFd : Option ℕ)
    (readSet writeSet : Option FdSet) : Option State :=
  if state.activeTask = none then none
  else do
    let p ← checkPriority (if priority = priorityKeep then state.currentPriority else priority)
    let t : Task :=
      { id := state.lastId + 1
        timeout := relativeToAbsolute now delay
        reason := .startup
        priority := p
        readFd := readFd
        writeFd := writeFd
        readSet := readSet
        writeSet := writeSet
        lifeness := state.currentLifeness }
    some { freshId state with
      pending := t :: state.pending
      maxPriorityAdded := max state.maxPriorityAdded p }

def addSelect (now : ℕ) (state : State) (priority delay : ℕ) (rs ws : Option FdSet) :
    Option State :=
  addPending now state priority delay none none rs ws

def addWithoutSets (now : ℕ) (state : State) (delay priority : ℕ) (rfd wfd : Option ℕ) :
    Option State :=
  addPending now state priority delay rfd wfd none none

def addNowWithLifeness (now : ℕ) (state : State) (lifeness : Bool) : Option State := do
  let state ← addSelect now state priorityDefault 0 none none
  match state.pending with
  | t :: rest => some { state with pending := { t with lifeness := lifeness } :: rest }
  | [] => none

def highestReady (ready : Fin 8 → List Task) : List (Fin 8) → Option (Fin 8 × Task × List Task)
  | [] => none
  | p :: ps =>
    match ready p with
    | pos :: next => some (p, pos, next)
    | [] => highestReady ready ps

def startTask (state : State) : Option State :=
  if state.readyCount = 0 then some state
  else if state.ready 0 ≠ [] then none
  else (highestReady state.ready [7, 6, 5, 4, 3, 2, 1]).map fun (p, pos, next) ↦
    { state with
      ready := update state.ready p next
      readyCount := state.readyCount - 1
      currentPriority := pos.priority
      currentLifeness := pos.lifeness
      activeTask := some pos.id
      loopPriority := p
      started := pos.id :: state.started }

def runReady (state : State) : Option State :=
  startTask { state with maxPriorityAdded := priorityKeep }

def taskDone (state : State) : Option State :=
  let state := { state with activeTask := none, tasksRun := state.tasksRun + 1 }
  if state.pending = [] ∨ state.maxPriorityAdded ≤ state.loopPriority then startTask state
  else some state

/-- The sanity check of the second task is passed by a fake active task. -/
def startup (now : ℕ) (state : State) : Option State := do
  let state ← addContinuationWithPriority
    { state with currentPriority := priorityDefault, currentLifeness := true } .startup
    priorityDefault
  let state ← addNowWithLifeness now { state with activeTask := some 0 } false
  some { state with activeTask := none }

/-- Calls of the interface and steps of the main loop, each with the time the code reads. -/
inductive Event where
  | startup (now : ℕ)
  | addContinuation (reason : Reason) (priority : ℕ)
  | addDelayed (now delay priority : ℕ)
  | addSelect (now priority delay : ℕ) (rs ws : Option FdSet)
  | addWithoutSets (now delay priority : ℕ) (rfd wfd : Option ℕ)
  | addNowWithLifeness (now : ℕ) (lifeness : Bool)
  | cancel (task : ℕ)
  | shutdown
  | checkLifeness
  | checkReady (now : ℕ) (rs ws : FdSet)
  | runReady
  | taskDone

/-- The main loop runs only between tasks, and only a running task returns. -/
def step (state : State) : Event → Option State
  | .startup now => if state.activeTask = none then startup now state else none
  | .addContinuation reason priority => addContinuationWithPriority state reason priority
  | .addDelayed now delay priority => addDelayedWithPriority now state delay priority
  | .addSelect now priority delay rs ws => addSelect now state priority delay rs ws
  | .addWithoutSets now delay priority rfd wfd => addWithoutSets now state delay priority rfd wfd
  | .addNowWithLifeness now lifeness => addNowWithLifeness now state lifeness
  | .cancel task => cancel state task
  | .shutdown => some (shutdown state)
  | .checkLifeness => if state.activeTask = none then some (checkLifeness state) else none
  | .checkReady now rs ws => if state.activeTask = none then checkReady now rs ws state else none
  | .runReady => if state.activeTask = none then runReady state else none
  | .taskDone => if state.activeTask = none then none else taskDone state

end Gnunet.Util.Scheduler
