import Gnunet.Lib.AssocStore
import Gnunet.Lib.Runs
import Gnunet.Util.CommonAllocation

/-!
# The lock manager service

A model of `gnunet-service-lockmanager.c`.  The service keeps a list of connected clients, each
with a lock list that mixes held and awaited locks, and a map of locks, each with its owner and
its wait list.  Pointers are addresses that are never handed out twice; following one whose
object has been freed stops the machine.  What the clients can observe is recorded in a log,
newest entry first, and the log alone defines who holds a lock from the clients' point of view.
-/

namespace Gnunet.Lockmanager.Service

open Lib.AssocStore

abbrev Client := ℕ

abbrev Address := ℕ

structure LockName where
  domainName : List UInt8
  lockNum : UInt32
  deriving DecidableEq, Repr

structure Lock where
  name : LockName
  clEntry : Address
  wl : List Address
  deriving DecidableEq, Repr

/-- The connection and the list of its held and awaited locks. -/
structure ClientEntry where
  client : Client
  ll : List Address
  deriving DecidableEq, Repr

/-- The lock number and the bytes that follow the structure. -/
structure Message where
  lock : UInt32
  body : List UInt8
  deriving DecidableEq, Repr

inductive Event where
  | acquire (client : Client) (message : Message)
  | release (client : Client) (message : Message)
  | disconnect (client : Client)
  deriving DecidableEq, Repr

/-- SUCCESS messages sent, RELEASE messages received, clients gone, and the value passed to
`GNUNET_SERVER_receive_done`. -/
inductive Observation where
  | success (client : Client) (name : LockName)
  | released (client : Client) (name : LockName)
  | disconnected (client : Client)
  | receiveDone (client : Client) (ok : Bool)
  deriving DecidableEq, Repr

structure State where
  clList : AList fun _ : Address ↦ ClientEntry
  lockMap : AList fun _ : Address ↦ Lock
  nextAddress : Address
  log : List Observation

def initial : State where
  clList := ∅
  lockMap := ∅
  nextAddress := 0
  log := []

def observe (state : State) (observation : Observation) : State :=
  { state with log := observation :: state.log }

/-- A message without a body or without a terminating zero is refused. -/
def messageName (message : Message) : Option LockName :=
  if message.body.getLast? = some 0 then
    some ⟨message.body.takeWhile (· ≠ 0), message.lock⟩
  else none

/-- `match_iterator` compares number and domain, so the hash that selects the bucket is
immaterial. -/
def findLock (state : State) (name : LockName) : Option Address :=
  findKey state.lockMap fun lock ↦ lock.name = name

def clFindClient (state : State) (client : Client) : Option Address :=
  findKey state.clList fun entry ↦ entry.client = client

def clAddClient (state : State) (client : Client) : Address × State :=
  (state.nextAddress, { state with
      clList := state.clList.insert state.nextAddress ⟨client, []⟩
      nextAddress := state.nextAddress + 1 })

/-- The lock map starts with 32 buckets of eight bytes and doubles them at three locks for four
buckets. With 4194304 buckets it cannot be doubled any more. -/
def maxLocks : ℕ := 4194304 / 4 * 3

example : 32 * 2 ^ 17 = 4194304 ∧ 8 * 4194304 ≤ Util.maxMallocChecked ∧
    Util.maxMallocChecked < 2 * (8 * 4194304) := by decide

/-- With the assignment of the owner that follows its only call; `none` if the program stops because
the lock map is full. -/
def addLock (state : State) (name : LockName) (owner : Address) : Option (Address × State) :=
  if state.lockMap.entries.length < maxLocks then
    some (state.nextAddress, { state with
      lockMap := state.lockMap.insert state.nextAddress ⟨name, owner, []⟩
      nextAddress := state.nextAddress + 1 })
  else none

def removeLock (state : State) (lock : Address) : State :=
  { state with lockMap := state.lockMap.erase lock }

def clRemoveClient (state : State) (entry : Address) : State :=
  { state with clList := state.clList.erase entry }

def setLl (state : State) (entry : Address) (update : List Address → List Address) :
    Option State := do
  let value ← state.clList.lookup entry
  some { state with clList := state.clList.insert entry { value with ll := update value.ll } }

def clLlAddLock (state : State) (entry lock : Address) : Option State :=
  setLl state entry (· ++ [lock])

def clLlRemoveLock (state : State) (entry lock : Address) : Option State :=
  setLl state entry (·.erase lock)

def setLock (state : State) (lock : Address) (update : Lock → Lock) : Option State := do
  let value ← state.lockMap.lookup lock
  some { state with lockMap := state.lockMap.insert lock (update value) }

def lockWlAddClient (state : State) (lock entry : Address) : Option State :=
  setLock state lock fun value ↦ { value with wl := value.wl ++ [entry] }

def lockWlRemove (state : State) (lock entry : Address) : Option State :=
  setLock state lock fun value ↦ { value with wl := value.wl.erase entry }

def sendSuccessMsg (state : State) (entry : Address) (name : LockName) : Option State := do
  let value ← state.clList.lookup entry
  some (observe state (.success value.client name))

/-- Hand the lock to the first waiting client, or drop it. -/
def processLockRelease (state : State) (lock : Address) : Option State := do
  let value ← state.lockMap.lookup lock
  match value.wl with
  | [] => some (removeLock state lock)
  | next :: rest =>
    let state ← setLock state lock fun value ↦ { value with clEntry := next, wl := rest }
    sendSuccessMsg state next value.name

def receiveDone (client : Client) (ok : Bool) (state : State) : State :=
  observe state (.receiveDone client ok)

def clFindOrAddClient (state : State) (client : Client) : Address × State :=
  match clFindClient state client with
  | some entry => (entry, state)
  | none => clAddClient state client

def acquireFor (state : State) (client : Client) (entry : Address) (name : LockName) :
    Option State :=
  match findLock state name with
  | some lock => do
      let value ← state.lockMap.lookup lock
      if value.clEntry = entry then
        some (receiveDone client false state)
      else
        let state ← lockWlAddClient state lock entry
        let state ← clLlAddLock state entry lock
        some (receiveDone client true state)
  | none => do
      let (lock, state) ← addLock state name entry
      let state ← clLlAddLock state entry lock
      let state ← sendSuccessMsg state entry name
      some (receiveDone client true state)

def handleAcquire (state : State) (client : Client) (message : Message) : Option State :=
  match messageName message with
  | none => some (receiveDone client false state)
  | some name =>
    let (entry, state) := clFindOrAddClient state client
    acquireFor state client entry name

def releaseFor (state : State) (client : Client) (entry lock : Address) : Option State := do
  let clientEntry ← state.clList.lookup entry
  if lock ∉ clientEntry.ll then
    some (receiveDone client false state)
  else
    let state ← clLlRemoveLock state entry lock
    let value ← state.lockMap.lookup lock
    if value.clEntry = entry then
      let state ← processLockRelease state lock
      some (receiveDone client true state)
    else
      let state ← lockWlRemove state lock entry
      some (receiveDone client true state)

def handleRelease (state : State) (client : Client) (message : Message) : Option State :=
  match messageName message with
  | none => some (receiveDone client false state)
  | some name =>
    let state := observe state (.released client name)
    match clFindClient state client, findLock state name with
    | some entry, some lock => releaseFor state client entry lock
    | _, _ => some (receiveDone client false state)

/-- The `while` loop of `client_disconnect_cb`: every lock on the client's list is released, whether
the client holds it or only waits for it. -/
def releaseAll (entry : Address) : ℕ → State → Option State
  | 0, state => some state
  | fuel + 1, state => do
      let value ← state.clList.lookup entry
      match value.ll with
      | [] => some state
      | lock :: _ =>
        let state ← clLlRemoveLock state entry lock
        let state ← processLockRelease state lock
        releaseAll entry fuel state

def clientDisconnectCb (state : State) (client : Client) : Option State :=
  let state := observe state (.disconnected client)
  match clFindClient state client with
  | none => some state
  | some entry => do
      let value ← state.clList.lookup entry
      let state ← releaseAll entry value.ll.length state
      some (clRemoveClient state entry)

def step (state : State) : Event → Option State
  | .acquire client message => handleAcquire state client message
  | .release client message => handleRelease state client message
  | .disconnect client => clientDisconnectCb state client

/-- The client was sent SUCCESS for the lock and has since neither released it nor gone. -/
def holds : List Observation → Client → LockName → Bool
  | [], _, _ => false
  | .success client' name' :: older, client, name =>
    (client' = client ∧ name' = name) || holds older client name
  | .released client' name' :: older, client, name =>
    !(client' = client ∧ name' = name) && holds older client name
  | .disconnected client' :: older, client, name =>
    !decide (client' = client) && holds older client name
  | .receiveDone _ _ :: older, client, name => holds older client name

/-- At every SUCCESS in the log no other client holds the lock. -/
def Exclusive : List Observation → Prop
  | [] => True
  | .success client name :: older =>
    (∀ other, other ≠ client → holds older other name = false) ∧ Exclusive older
  | _ :: older => Exclusive older

theorem Exclusive.holder_unique {log : List Observation} (h : Exclusive log)
    {client other : Client} {name : LockName} (hclient : holds log client name = true)
    (hother : holds log other name = true) : client = other := by
  induction log with
  | nil => simp [holds] at hclient
  | cons observation older ih =>
    cases observation with
    | success client' name' =>
      simp only [holds, Bool.or_eq_true, decide_eq_true_eq] at hclient hother
      obtain ⟨hfresh, holder⟩ := h
      rcases hclient with ⟨rfl, rfl⟩ | hclient
      · rcases hother with ⟨rfl, -⟩ | hother
        · rfl
        · by_contra hne
          simp [hfresh other (Ne.symm hne)] at hother
      · rcases hother with ⟨rfl, rfl⟩ | hother
        · by_contra hne
          simp [hfresh client hne] at hclient
        · exact ih holder hclient hother
    | released client' name' =>
      simp only [holds, Bool.and_eq_true] at hclient hother
      exact ih h hclient.2 hother.2
    | disconnected client' =>
      simp only [holds, Bool.and_eq_true] at hclient hother
      exact ih h hclient.2 hother.2
    | receiveDone client' ok => exact ih h hclient hother

end Gnunet.Lockmanager.Service
