import Gnunet.Lockmanager.Service
import Mathlib.Data.Set.Subsingleton

/-!
# Mutual exclusion of the lock manager

`Consistent` ties the three places in which the service records ownership to each other and to
the log: the lock list of a client counts exactly the locks it owns and its entries in wait
lists, and a client that holds a lock by the log owns it.  Every event keeps this, except that
a client which is still waiting for a lock disconnects: `client_disconnect_cb` then releases a
lock which that client does not hold.
-/

namespace Gnunet.Lockmanager.Service

open Lib Lib.AssocStore List Option

structure Consistent (state : State) : Prop where
  entry_lt : ∀ {i e}, state.clList.lookup i = some e → i < state.nextAddress
  lock_lt : ∀ {j l}, state.lockMap.lookup j = some l → j < state.nextAddress
  client_inj : ∀ {i i' e e'}, state.clList.lookup i = some e → state.clList.lookup i' = some e' →
    e.client = e'.client → i = i'
  name_inj : ∀ {j j' l l'}, state.lockMap.lookup j = some l → state.lockMap.lookup j' = some l' →
    l.name = l'.name → j = j'
  counted : ∀ {i e j l}, state.clList.lookup i = some e → state.lockMap.lookup j = some l →
    e.ll.count j = (if l.clEntry = i then 1 else 0) + l.wl.count i
  lock_live : ∀ {i e}, state.clList.lookup i = some e → ∀ j ∈ e.ll,
    ∃ l, state.lockMap.lookup j = some l
  owner_live : ∀ {j l}, state.lockMap.lookup j = some l →
    ∃ e, state.clList.lookup l.clEntry = some e
  waiter_live : ∀ {j l}, state.lockMap.lookup j = some l → ∀ i ∈ l.wl,
    ∃ e, state.clList.lookup i = some e
  holder : ∀ {client name}, holds state.log client name = true →
    ∃ j l e, state.lockMap.lookup j = some l ∧ l.name = name ∧
      state.clList.lookup l.clEntry = some e ∧ e.client = client
  exclusive : Exclusive state.log

theorem consistent_initial : Consistent initial := by
  constructor <;> simp [initial, holds, Exclusive]

/-- A client disconnects only when it waits for no lock. -/
def NoWaiterLeaves (state : State) : Event → Prop
  | .disconnect client => ∀ e ∈ state.clList.entries, e.2.client = client →
      ∀ l ∈ state.lockMap.entries, e.1 ∉ l.2.wl
  | _ => True

instance (state : State) : DecidablePred (NoWaiterLeaves state)
  | .disconnect client => inferInstanceAs (Decidable (∀ e ∈ state.clList.entries,
      e.2.client = client → ∀ l ∈ state.lockMap.entries, e.1 ∉ l.2.wl))
  | .acquire _ _ => .isTrue trivial
  | .release _ _ => .isTrue trivial

/-- A lock that is not in the map is asked for only while there is room for it. -/
def HasRoom (state : State) : Event → Prop
  | .acquire _ message => ∀ name ∈ messageName message, findLock state name = none →
      state.lockMap.entries.length < maxLocks
  | _ => True

instance (state : State) : DecidablePred (HasRoom state)
  | .acquire _ message => inferInstanceAs (Decidable (∀ name ∈ messageName message, _ → _))
  | .release _ _ | .disconnect _ => .isTrue trivial

/-- Who does not own the lock waits behind all others. -/
def Lock.awaited (entry : Address) (l : Lock) : Option Lock :=
  some (if l.clEntry = entry then l else { l with wl := l.wl ++ [entry] })

/-- The lock goes to the client that has waited longest, and is removed if nobody waits. -/
def Lock.handedOn (l : Lock) : Option Lock :=
  match l.wl with
  | [] => none
  | next :: rest => some { l with clEntry := next, wl := rest }

def Lock.left (entry : Address) (l : Lock) : Option Lock :=
  if l.clEntry = entry then l.handedOn else some { l with wl := l.wl.erase entry }

def Event.queued (entry : Address) (l : Lock) : Event → Option Lock
  | .acquire _ message => if messageName message = some l.name then l.awaited entry else some l
  | .release _ message => if messageName message = some l.name then l.left entry else some l
  | .disconnect _ => l.left entry

def Event.client : Event → Client
  | .acquire client _ | .release client _ | .disconnect client => client

def Queued (state : State) (event : Event) (next : State) : Prop :=
  ∀ {j l}, state.lockMap.lookup j = some l →
    next.lockMap.lookup j = event.queued (clFindOrAddClient state event.client).1 l

/-! ## Lookups after each operation -/

variable {state : State} {entry i : Address} {e : ClientEntry} {client : Client} {name : LockName}

theorem setLl_eq (h : state.clList.lookup entry = some e) (update : List Address → List Address) :
    setLl state entry update =
      some { state with clList := state.clList.insert entry { e with ll := update e.ll } } := by
  simp [setLl, h]

theorem clFindClient_some (h : clFindClient state client = some entry) :
    ∃ e, state.clList.lookup entry = some e ∧ e.client = client := by
  simpa using findKey_some h

theorem clFindClient_none (h : clFindClient state client = none)
    (he : state.clList.lookup i = some e) : e.client ≠ client := by
  simpa using findKey_none h he

theorem findLock_some {lock : Address} (h : findLock state name = some lock) :
    ∃ l, state.lockMap.lookup lock = some l ∧ l.name = name := by
  simpa using findKey_some h

theorem findLock_none (h : findLock state name = none) {j : Address} {l : Lock}
    (hl : state.lockMap.lookup j = some l) : l.name ≠ name := by
  simpa using findKey_none h hl

/-! ## Observations that hand out no lock -/

theorem Consistent.observe (h : Consistent state) {observation : Observation}
    (hholds : ∀ client name, holds (observation :: state.log) client name = true →
      holds state.log client name = true)
    (hexclusive : Exclusive (observation :: state.log) ↔ Exclusive state.log) :
    Consistent (observe state observation) :=
  { h with
    holder := fun hhold ↦ h.holder (hholds _ _ hhold)
    exclusive := hexclusive.mpr h.exclusive }

theorem Consistent.receiveDone (h : Consistent state) (client : Client) (ok : Bool) :
    Consistent (receiveDone client ok state) :=
  h.observe (fun _ _ hhold ↦ hhold) Iff.rfl

theorem Consistent.released (h : Consistent state) (client : Client) (name : LockName) :
    Consistent (Service.observe state (.released client name)) := by
  refine h.observe (fun _ _ hhold ↦ ?_) Iff.rfl
  simp only [holds, Bool.and_eq_true] at hhold
  exact hhold.2

theorem Consistent.disconnected (h : Consistent state) (client : Client) :
    Consistent (Service.observe state (.disconnected client)) := by
  refine h.observe (fun _ _ hhold ↦ ?_) Iff.rfl
  simp only [holds, Bool.and_eq_true] at hhold
  exact hhold.2

/-! ## One client and one lock change -/

/-- A client has other lock list entries and a lock has a new value or is gone; nothing else but the
log is different. -/
structure Relinked (state state' : State) (entry : Address) (e : ClientEntry)
    (ll : List Address) (lock : Address) (value : Option Lock) : Prop where
  found : state.clList.lookup entry = some e
  clList : ∀ i, state'.clList.lookup i =
    if i = entry then some { e with ll := ll } else state.clList.lookup i
  lockMap : ∀ j, state'.lockMap.lookup j = if j = lock then value else state.lockMap.lookup j
  nextAddress : state.nextAddress ≤ state'.nextAddress

section Relinked

variable {state state' : State} {entry lock : Address} {e : ClientEntry} {ll : List Address}
  {value : Option Lock}

theorem Relinked.entry_of (hlink : Relinked state state' entry e ll lock value) {e' : ClientEntry}
    (he' : state'.clList.lookup i = some e') :
    ∃ old, state.clList.lookup i = some old ∧ old.client = e'.client := by
  rw [hlink.clList] at he'
  split at he'
  next hi =>
    cases he'
    exact ⟨e, hi ▸ hlink.found, rfl⟩
  next => exact ⟨e', he', rfl⟩

theorem Relinked.entry_kept (hlink : Relinked state state' entry e ll lock value)
    {old : ClientEntry} (hold : state.clList.lookup i = some old) :
    ∃ e', state'.clList.lookup i = some e' ∧ e'.client = old.client := by
  rw [hlink.clList]
  split
  next hi =>
    subst hi
    rw [hlink.found] at hold
    cases hold
    exact ⟨_, rfl, rfl⟩
  next => exact ⟨old, hold, rfl⟩

theorem relinked_insert (he : state.clList.lookup entry = some e) (ll : List Address)
    (lock : Address) (v : Lock) {next : Address} (hnext : state.nextAddress ≤ next)
    (log : List Observation) :
    Relinked state
      ⟨state.clList.insert entry { e with ll := ll }, state.lockMap.insert lock v, next, log⟩
      entry e ll lock (some v) :=
  ⟨he, fun i ↦ lookup_insert_eq _ _ i _, fun j ↦ lookup_insert_eq _ _ j _, hnext⟩

theorem relinked_erase (he : state.clList.lookup entry = some e) (ll : List Address)
    (lock : Address) :
    Relinked state
      ⟨state.clList.insert entry { e with ll := ll }, state.lockMap.erase lock,
        state.nextAddress, state.log⟩
      entry e ll lock none :=
  ⟨he, fun i ↦ lookup_insert_eq _ _ i _, fun j ↦ lookup_erase_eq _ _ j, le_rfl⟩

def Lock.claims (i : Address) (l : Lock) : ℕ := (if l.clEntry = i then 1 else 0) + l.wl.count i

theorem Consistent.relink (h : Consistent state)
    (hlink : Relinked state state' entry e ll lock value) (hlt : lock < state'.nextAddress)
    (hname : ∀ v ∈ value, ∀ j l, j ≠ lock → state.lockMap.lookup j = some l → l.name ≠ v.name)
    (hlive : ∀ v ∈ value, ∀ i, i = v.clEntry ∨ i ∈ v.wl → ∃ e, state.clList.lookup i = some e)
    (hentry : ll.count lock = value.elim 0 (Lock.claims entry))
    (hothers : ∀ i, i ≠ entry → ∀ e', state.clList.lookup i = some e' →
      e'.ll.count lock = value.elim 0 (Lock.claims i))
    (hother : ∀ j, j ≠ lock → ll.count j = e.ll.count j)
    (hholder : ∀ client name, holds state'.log client name = true →
      (∃ j l e, j ≠ lock ∧ state.lockMap.lookup j = some l ∧ l.name = name ∧
        state.clList.lookup l.clEntry = some e ∧ e.client = client) ∨
      ∃ v e, value = some v ∧ v.name = name ∧ state.clList.lookup v.clEntry = some e ∧
        e.client = client) (hexclusive : Exclusive state'.log) : Consistent state' := by
  have hcounted {i : Address} {e' : ClientEntry} (he' : state'.clList.lookup i = some e') :
      e'.ll.count lock = value.elim 0 (Lock.claims i) ∧
        ∃ old, state.clList.lookup i = some old ∧
          ∀ j, j ≠ lock → e'.ll.count j = old.ll.count j := by
    rw [hlink.clList] at he'
    split at he'
    next hi =>
      cases he'
      exact ⟨hi ▸ hentry, e, hi ▸ hlink.found, hother⟩
    next hi => exact ⟨hothers i hi e' he', e', he', fun _ _ ↦ rfl⟩
  have hkept : ∀ {i}, (∃ e, state.clList.lookup i = some e) →
      ∃ e, state'.clList.lookup i = some e := by
    rintro i ⟨old, hold⟩
    obtain ⟨e', he', -⟩ := hlink.entry_kept hold
    exact ⟨e', he'⟩
  constructor
  case entry_lt =>
    intro i e' he'
    obtain ⟨old, hold, -⟩ := hlink.entry_of he'
    exact lt_of_lt_of_le (h.entry_lt hold) hlink.nextAddress
  case lock_lt =>
    intro j l hl
    rw [hlink.lockMap] at hl
    split at hl
    next hj => exact hj ▸ hlt
    next => exact lt_of_lt_of_le (h.lock_lt hl) hlink.nextAddress
  case client_inj =>
    intro i i' e₁ e₂ he₁ he₂ heq
    obtain ⟨_, hold₁, hc₁⟩ := hlink.entry_of he₁
    obtain ⟨_, hold₂, hc₂⟩ := hlink.entry_of he₂
    exact h.client_inj hold₁ hold₂ (by rw [hc₁, hc₂, heq])
  case name_inj =>
    intro j j' l l' hl hl' heq
    rw [hlink.lockMap] at hl hl'
    split at hl <;> split at hl'
    next hj hj' => exact hj.trans hj'.symm
    next hj' => exact absurd heq.symm (hname l hl j' l' hj' hl')
    next hj _ => exact absurd heq (hname l' hl' j l hj hl)
    next => exact h.name_inj hl hl' heq
  case counted =>
    intro i e' j l he' hl
    rw [hlink.lockMap] at hl
    obtain ⟨hlock, old, hold, hsame⟩ := hcounted he'
    split at hl
    next hj => rw [hj, hlock, hl, Option.elim_some, Lock.claims]
    next hj => rw [hsame j hj, h.counted hold hl]
  case lock_live =>
    intro i e' he' j hj
    obtain ⟨hlock, old, hold, hsame⟩ := hcounted he'
    rw [← count_pos_iff] at hj
    rw [hlink.lockMap]
    split
    next heq =>
      cases hvalue : value with
      | none => simp [heq, hlock, hvalue] at hj
      | some v => exact ⟨v, rfl⟩
    next hne => exact h.lock_live hold j (count_pos_iff.mp (hsame j hne ▸ hj))
  case owner_live =>
    intro j l hl
    rw [hlink.lockMap] at hl
    apply hkept
    split at hl
    next => exact hlive l hl _ (.inl rfl)
    next => exact h.owner_live hl
  case waiter_live =>
    intro j l hl i hi
    rw [hlink.lockMap] at hl
    apply hkept
    split at hl
    next => exact hlive l hl i (.inr hi)
    next => exact h.waiter_live hl i hi
  case holder =>
    intro client name hhold
    rcases hholder client name hhold with
      ⟨j, l, old, hj, hl, hn, hold, hc⟩ | ⟨v, old, hv, hn, hold, hc⟩
    · obtain ⟨e', he', hc'⟩ := hlink.entry_kept hold
      refine ⟨j, l, e', ?_, hn, he', hc'.trans hc⟩
      rw [hlink.lockMap, if_neg hj, hl]
    · obtain ⟨e', he', hc'⟩ := hlink.entry_kept hold
      refine ⟨lock, v, e', ?_, hn, he', hc'.trans hc⟩
      rw [hlink.lockMap, if_pos rfl, hv]
  case exclusive => exact hexclusive

end Relinked

/-! ## Acquiring -/

section

variable (h : Consistent state)
include h

/-- An address that no lock refers to may get any entry without locks, or none. -/
theorem Consistent.setUnused {clList : AList fun _ : Address ↦ ClientEntry}
    {value : Option ClientEntry} {next : Address}
    (hlookup : ∀ i, clList.lookup i = if i = entry then value else state.clList.lookup i)
    (hnext : state.nextAddress ≤ next)
    (hunused : ∀ {j l}, state.lockMap.lookup j = some l → l.clEntry ≠ entry ∧ entry ∉ l.wl)
    (hvalue : ∀ e, value = some e → e.ll = [] ∧ entry < next ∧
      ∀ {i e'}, state.clList.lookup i = some e' → e'.client ≠ e.client) :
    Consistent { state with clList := clList, nextAddress := next } := by
  have hkept : ∀ {i e'}, i ≠ entry → state.clList.lookup i = some e' →
      clList.lookup i = some e' := by
    intro i e' hi he'
    rw [hlookup, if_neg hi, he']
  constructor
  case entry_lt =>
    intro i e' he'
    rw [hlookup] at he'
    split at he'
    next hi => exact hi ▸ (hvalue e' he').2.1
    next => exact lt_of_lt_of_le (h.entry_lt he') hnext
  case lock_lt => exact fun hl ↦ lt_of_lt_of_le (h.lock_lt hl) hnext
  case client_inj =>
    intro i i' e₁ e₂ he₁ he₂ heq
    rw [hlookup] at he₁ he₂
    split at he₁ <;> split at he₂
    next hi hi' => exact hi.trans hi'.symm
    next => exact absurd heq.symm ((hvalue e₁ he₁).2.2 he₂)
    next => exact absurd heq ((hvalue e₂ he₂).2.2 he₁)
    next => exact h.client_inj he₁ he₂ heq
  case name_inj => exact h.name_inj
  case counted =>
    intro i e' j l he' hl
    rw [hlookup] at he'
    split at he'
    next hi =>
      obtain ⟨howner, hwait⟩ := hunused hl
      rw [hi, (hvalue e' he').1, if_neg howner, count_eq_zero.mpr hwait]
      rfl
    next => exact h.counted he' hl
  case lock_live =>
    intro i e' he' j hj
    rw [hlookup] at he'
    split at he'
    · rw [(hvalue e' he').1] at hj
      cases hj
    · exact h.lock_live he' j hj
  case owner_live =>
    intro j l hl
    obtain ⟨owner, howner⟩ := h.owner_live hl
    exact ⟨owner, hkept (hunused hl).1 howner⟩
  case waiter_live =>
    intro j l hl i hi
    obtain ⟨waiter, hwaiter⟩ := h.waiter_live hl i hi
    refine ⟨waiter, hkept ?_ hwaiter⟩
    rintro rfl
    exact (hunused hl).2 hi
  case holder =>
    intro client name hhold
    obtain ⟨j, l, owner, hl, hname, howner, hclient⟩ := h.holder hhold
    exact ⟨j, l, owner, hl, hname, hkept (hunused hl).1 howner, hclient⟩
  case exclusive => exact h.exclusive

theorem Consistent.unused {j : Address} {l : Lock} (hl : state.lockMap.lookup j = some l) :
    l.clEntry ≠ state.nextAddress ∧ state.nextAddress ∉ l.wl := by
  refine ⟨fun howner ↦ ?_, fun hmem ↦ ?_⟩
  · obtain ⟨_, he⟩ := h.owner_live hl
    exact absurd (h.entry_lt he) (howner ▸ lt_irrefl _)
  · obtain ⟨_, he⟩ := h.waiter_live hl _ hmem
    exact absurd (h.entry_lt he) (lt_irrefl _)

theorem Consistent.clAddClient (hnew : clFindClient state client = none) :
    Consistent (clAddClient state client).2 := by
  refine h.setUnused (fun i ↦ lookup_insert_eq _ _ i _) (Nat.le_succ _) h.unused ?_
  rintro _ ⟨⟩
  exact ⟨rfl, Nat.lt_succ_self _, clFindClient_none hnew⟩

theorem Consistent.lookup_named {j lock : Address} {l v : Lock} (f : Lock → Option Lock)
    (hv : state.lockMap.lookup lock = some v) (hl : state.lockMap.lookup j = some l) :
    (if j = lock then f v else state.lockMap.lookup j) =
      if v.name = l.name then f l else some l := by
  by_cases hj : j = lock
  · obtain rfl : v = l := some.inj (hv.symm.trans (hj ▸ hl))
    simp [hj]
  · have hname : v.name ≠ l.name := fun hname ↦ hj (h.name_inj hl hv hname.symm)
    simp [hj, hname, hl]

omit h in
theorem clFindOrAddClient_lockMap (client : Client) :
    (clFindOrAddClient state client).2.lockMap = state.lockMap := by
  unfold Service.clFindOrAddClient
  split <;> rfl

theorem Consistent.clFindOrAddClient (client : Client) :
    Consistent (clFindOrAddClient state client).2 ∧
      ∃ e, (clFindOrAddClient state client).2.clList.lookup (clFindOrAddClient state client).1 =
        some e ∧ e.client = client := by
  unfold Service.clFindOrAddClient
  cases hfind : clFindClient state client with
  | some entry => exact ⟨h, clFindClient_some hfind⟩
  | none => exact ⟨h.clAddClient hfind, ⟨client, []⟩, by simp [Service.clAddClient], rfl⟩

theorem Consistent.rewait {lock : Address} {v : Lock}
    (he : state.clList.lookup entry = some e) (hv : state.lockMap.lookup lock = some v)
    (howner : v.clEntry ≠ entry) (ll wl : List Address) (hentered : ll.count lock = wl.count entry)
    (hlocks : ∀ j, j ≠ lock → ll.count j = e.ll.count j)
    (hwaiting : ∀ i, i ≠ entry → wl.count i = v.wl.count i) :
    Consistent { state with
      clList := state.clList.insert entry { e with ll := ll }
      lockMap := state.lockMap.insert lock { v with wl := wl } } := by
  have hlink := relinked_insert he ll lock { v with wl := wl } le_rfl state.log
  refine h.relink hlink (h.lock_lt hv) ?_ ?_ (by simp [Lock.claims, howner, hentered]) ?_ hlocks ?_
    h.exclusive
  case refine_1 =>
    rintro _ ⟨⟩ j l hj hl heq
    exact hj (h.name_inj hl hv heq)
  case refine_2 =>
    rintro _ ⟨⟩ i hi
    rcases hi with rfl | hi
    · exact h.owner_live (l := v) hv
    · by_cases hentry : i = entry
      · exact ⟨e, hentry ▸ he⟩
      · rw [← count_pos_iff, hwaiting i hentry, count_pos_iff] at hi
        exact h.waiter_live hv i hi
  case refine_3 =>
    intro i hi e' he'
    rw [h.counted he' hv, ← hwaiting i hi]
    rfl
  case refine_4 =>
    intro client name hhold
    obtain ⟨j, l, old, hl, hname, hold, hc⟩ := h.holder hhold
    by_cases hj : j = lock
    · subst hj
      obtain rfl : l = v := some.inj (hl.symm.trans hv)
      exact .inr ⟨_, old, rfl, hname, hold, hc⟩
    · exact .inl ⟨j, l, old, hj, hl, hname, hold, hc⟩

theorem Consistent.not_holds_of_findLock (hnew : findLock state name = none) (client : Client) :
    holds state.log client name = false := by
  by_contra hhold
  obtain ⟨j, l, e, hl, hname, -⟩ := h.holder (Bool.of_not_eq_false hhold)
  exact findLock_none hnew hl hname

theorem Consistent.create (he : state.clList.lookup entry = some e)
    (hnew : findLock state name = none) :
    Consistent
      { clList := state.clList.insert entry { e with ll := e.ll ++ [state.nextAddress] }
        lockMap := state.lockMap.insert state.nextAddress ⟨name, entry, []⟩
        nextAddress := state.nextAddress + 1
        log := .success e.client name :: state.log } := by
  have hlink := relinked_insert he (e.ll ++ [state.nextAddress]) state.nextAddress
    ⟨name, entry, []⟩ (Nat.le_succ _) (.success e.client name :: state.log)
  have hunlisted : ∀ {i e'}, state.clList.lookup i = some e' → state.nextAddress ∉ e'.ll := by
    intro i e' he' hmem
    obtain ⟨l, hl⟩ := h.lock_live he' _ hmem
    exact lt_irrefl _ (h.lock_lt hl)
  refine h.relink hlink (Nat.lt_succ_self _) ?_ ?_
    (by simp [Lock.claims, count_eq_zero.mpr (hunlisted he)]) ?_ ?_ ?_
    ⟨fun other _ ↦ h.not_holds_of_findLock hnew other, h.exclusive⟩
  case refine_1 =>
    rintro _ ⟨⟩ j l - hl
    exact findLock_none hnew hl
  case refine_2 =>
    rintro _ ⟨⟩ i hi
    rcases hi with rfl | hi
    · exact ⟨e, he⟩
    · simp at hi
  case refine_3 =>
    intro i hi e' he'
    simp [Lock.claims, Ne.symm hi, count_eq_zero.mpr (hunlisted he')]
  case refine_4 =>
    intro j hj
    simp [Ne.symm hj]
  case refine_5 =>
    intro client name' hhold
    simp only [holds, Bool.or_eq_true, decide_eq_true_eq] at hhold
    rcases hhold with ⟨rfl, rfl⟩ | hhold
    · exact .inr ⟨_, e, rfl, rfl, he, rfl⟩
    · obtain ⟨j, l, old, hl, hrest⟩ := h.holder hhold
      exact .inl ⟨j, l, old, ne_of_lt (h.lock_lt hl), hl, hrest⟩

theorem Consistent.acquireFor (client : Client)
    (he : state.clList.lookup entry = some e) {name : LockName}
    (hroom : findLock state name = none → state.lockMap.entries.length < maxLocks) :
    ∃ next, acquireFor state client entry name = some next ∧ Consistent next ∧
      ∀ {j l}, state.lockMap.lookup j = some l →
        next.lockMap.lookup j = if name = l.name then l.awaited entry else some l := by
  unfold Service.acquireFor
  cases hfind : findLock state name with
  | some lock =>
    obtain ⟨v, hv, rfl⟩ := findLock_some hfind
    by_cases howner : v.clEntry = entry
    · refine ⟨_, by simp [hv, howner], h.receiveDone client false, fun {j l} hl ↦ ?_⟩
      rw [← h.lookup_named (Lock.awaited entry) hv hl, Lock.awaited, if_pos howner, ← hv]
      split
      next hj => rw [hj]; rfl
      next => rfl
    · have hcount := h.counted he hv
      have hwaits := h.rewait he hv howner (e.ll ++ [lock]) (v.wl ++ [entry])
        (by simp [hcount, howner]) (fun j hj ↦ by simp [Ne.symm hj])
        (fun i hi ↦ by simp [Ne.symm hi])
      refine ⟨_, ?_, hwaits.receiveDone client true, fun {j l} hl ↦ ?_⟩
      · simp [hv, howner, lockWlAddClient, setLock, clLlAddLock, setLl, he]
      · rw [← h.lookup_named (Lock.awaited entry) hv hl, Lock.awaited, if_neg howner]
        exact lookup_insert_eq _ _ j _
  | none =>
    refine ⟨_, ?_, (h.create he hfind).receiveDone client true, fun {j l} hl ↦ ?_⟩
    · simp [addLock, hroom hfind, clLlAddLock, setLl, sendSuccessMsg, he, Service.observe]
    · rw [if_neg (findLock_none hfind hl).symm, ← hl]
      exact AList.lookup_insert_ne (ne_of_lt (h.lock_lt hl))

omit h in
theorem findLock_clFindOrAddClient (client : Client) (name : LockName) :
    findLock (clFindOrAddClient state client).2 name = findLock state name := by
  rw [findLock, clFindOrAddClient_lockMap, findLock]

theorem Consistent.handleAcquire (client : Client) {message : Message}
    (hroom : HasRoom state (.acquire client message)) :
    ∃ next, handleAcquire state client message = some next ∧ Consistent next ∧
      Queued state (.acquire client message) next := by
  unfold Service.handleAcquire
  cases hname : messageName message with
  | none =>
    refine ⟨_, rfl, h.receiveDone client false, fun {j l} hl ↦ ?_⟩
    simp [Event.queued, hname]
    exact hl
  | some name =>
    obtain ⟨hstate, e, he, -⟩ := h.clFindOrAddClient client
    have hnew := hroom name hname
    rw [← findLock_clFindOrAddClient client, ← clFindOrAddClient_lockMap client] at hnew
    obtain ⟨next, hnext, hconsistent, hlocks⟩ := hstate.acquireFor client he hnew
    refine ⟨next, hnext, hconsistent, fun {j l} hl ↦ ?_⟩
    rw [← clFindOrAddClient_lockMap client] at hl
    simp [hlocks hl, Event.queued, hname, Event.client]

end

/-! ## Releasing -/

section Release

variable {state : State} {entry lock : Address} {e : ClientEntry} {v : Lock}

/-- The other locks stay, and the lock itself has the first waiting client as its owner. -/
structure HandedOver (state next : State) (entry : Address) (e : ClientEntry) (lock : Address)
    (v : Lock) : Prop where
  consistent : Consistent next
  entry_eq : next.clList.lookup entry = some { e with ll := e.ll.erase lock }
  lock_of : ∀ {j l}, next.lockMap.lookup j = some l →
    (j ≠ lock ∧ state.lockMap.lookup j = some l) ∨
      (j = lock ∧ l.name = v.name ∧ v.wl = l.clEntry :: l.wl)
  holds_of : ∀ {client name}, name ≠ v.name → holds next.log client name = true →
    holds state.log client name = true

theorem Lock.left_eq (hunused : v.clEntry ≠ entry ∧ entry ∉ v.wl) : v.left entry = some v := by
  rw [Lock.left, if_neg hunused.1, erase_of_not_mem hunused.2]

theorem Lock.left_left (hmem : entry ∉ v.wl) :
    (v.left entry).bind (Lock.left entry) = v.left entry := by
  by_cases howner : v.clEntry = entry
  · cases hwl : v.wl with
    | nil => simp [Lock.left, howner, Lock.handedOn, hwl]
    | cons next rest =>
      rw [hwl, mem_cons, not_or] at hmem
      simp [Lock.left, howner, Lock.handedOn, hwl, Ne.symm hmem.1, erase_of_not_mem hmem.2]
  · rw [Lock.left_eq ⟨howner, hmem⟩, bind_some, Lock.left_eq ⟨howner, hmem⟩]

theorem Lock.of_handedOn {v' : Lock} (h : v' ∈ v.handedOn) :
    v'.name = v.name ∧ v.wl = v'.clEntry :: v'.wl := by
  unfold Lock.handedOn at h
  split at h
  · cases h
  next hwl =>
    cases h
    exact ⟨rfl, hwl⟩

theorem Lock.claims_handedOn (i : Address) :
    v.handedOn.elim 0 (Lock.claims i) = v.wl.count i := by
  unfold Lock.handedOn
  split
  next hwl => rw [hwl]; rfl
  next hwl => simp [hwl, Lock.claims, count_cons, Nat.add_comm]

variable (h : Consistent state) (he : state.clList.lookup entry = some e)
  (hv : state.lockMap.lookup lock = some v)
include h he hv

theorem Consistent.left_of_not_listed (hmem : lock ∉ e.ll) : v.left entry = some v := by
  have hcount := h.counted he hv
  rw [count_eq_zero.mpr hmem, eq_comm, Nat.add_eq_zero_iff, count_eq_zero] at hcount
  exact Lock.left_eq ⟨by simpa using hcount.1, hcount.2⟩

theorem Consistent.handOver (howner : v.clEntry = entry)
    (hfree : ∀ client, holds state.log client v.name = false) :
    ∃ next, ((clLlRemoveLock state entry lock).bind fun state ↦ processLockRelease state lock) =
      some next ∧ HandedOver state next entry e lock v ∧ ∀ j, next.lockMap.lookup j =
        if j = lock then v.left entry else state.lockMap.lookup j := by
  have hholder : ∀ {client name}, holds state.log client name = true →
      ∃ j l e, j ≠ lock ∧ state.lockMap.lookup j = some l ∧ l.name = name ∧
        state.clList.lookup l.clEntry = some e ∧ e.client = client := by
    intro client name hhold
    obtain ⟨j, l, old, hl, hname, hrest⟩ := h.holder hhold
    refine ⟨j, l, old, ?_, hl, hname, hrest⟩
    rintro rfl
    obtain rfl : l = v := some.inj (hl.symm.trans hv)
    simp [← hname, hfree] at hhold
  have hcount := h.counted he hv
  rw [if_pos howner] at hcount
  rw [Lock.left, if_pos howner]
  have hover {next : State} (hlink : Relinked state next entry e (e.ll.erase lock) lock v.handedOn)
      (hlog : ∀ {client name}, holds next.log client name = true →
        holds state.log client name = true ∨ ∃ v' w, v' ∈ v.handedOn ∧ v'.name = name ∧
          state.clList.lookup v'.clEntry = some w ∧ w.client = client)
      (hexclusive : Exclusive next.log) : HandedOver state next entry e lock v := by
    constructor
    case consistent =>
      refine h.relink hlink (lt_of_lt_of_le (h.lock_lt hv) hlink.nextAddress) ?_ ?_ ?_ ?_
        (fun j hj ↦ count_erase_of_ne hj) (fun client name hhold ↦ ?_) hexclusive
      · intro v' hv' j l hj hl heq
        exact hj (h.name_inj hl hv (heq.trans (Lock.of_handedOn hv').1))
      · intro v' hv' i hi
        refine h.waiter_live hv i ?_
        rw [(Lock.of_handedOn hv').2]
        exact mem_cons.mpr hi
      · simp [Lock.claims_handedOn, hcount]
      · intro i hi e' he'
        rw [Lock.claims_handedOn, h.counted he' hv, howner, if_neg (Ne.symm hi), Nat.zero_add]
      · exact (hlog hhold).imp hholder id
    case entry_eq => rw [hlink.clList, if_pos rfl]
    case lock_of =>
      intro j l hl
      rw [hlink.lockMap] at hl
      split at hl
      next hj => exact .inr ⟨hj, Lock.of_handedOn hl⟩
      next hj => exact .inl ⟨hj, hl⟩
    case holds_of =>
      intro client name hname hhold
      refine (hlog hhold).resolve_right ?_
      rintro ⟨v', -, hv', rfl, -⟩
      exact hname (Lock.of_handedOn hv').1
  cases hwl : v.wl with
  | nil =>
    have hlink := relinked_erase he (e.ll.erase lock) lock
    have hnone : v.handedOn = none := by rw [Lock.handedOn, hwl]
    rw [← hnone] at hlink
    refine ⟨_, ?_, hover hlink .inl h.exclusive, hlink.lockMap⟩
    simp [clLlRemoveLock, setLl_eq he, processLockRelease, hv, hwl, removeLock]
  | cons waiter rest =>
    obtain ⟨w, hw⟩ := h.waiter_live hv waiter (by simp [hwl])
    have hlink := relinked_insert he (e.ll.erase lock) lock
      { v with clEntry := waiter, wl := rest } le_rfl (.success w.client v.name :: state.log)
    have hsome : v.handedOn = some { v with clEntry := waiter, wl := rest } := by
      rw [Lock.handedOn, hwl]
    rw [← hsome] at hlink
    refine ⟨_, ?_, hover hlink (fun hhold ↦ ?_) ⟨fun other _ ↦ hfree other, h.exclusive⟩,
      hlink.lockMap⟩
    · obtain ⟨_, hw', hclient⟩ := hlink.entry_kept hw
      simp [clLlRemoveLock, setLl_eq he, processLockRelease, hv, hwl, setLock, sendSuccessMsg,
        hw', hclient, Service.observe]
    · simp only [holds, Bool.or_eq_true, decide_eq_true_eq] at hhold
      rcases hhold with ⟨rfl, rfl⟩ | hhold
      · exact .inr ⟨_, w, hsome, rfl, hw, rfl⟩
      · exact .inl hhold

theorem Consistent.releaseFor (client : Client)
    (hfree : v.clEntry = entry → ∀ client, holds state.log client v.name = false) :
    ∃ next, releaseFor state client entry lock = some next ∧ Consistent next ∧
      ∀ j, next.lockMap.lookup j =
        if j = lock then v.left entry else state.lockMap.lookup j := by
  have hcount := h.counted he hv
  unfold Service.releaseFor
  by_cases hmem : lock ∈ e.ll
  · by_cases howner : v.clEntry = entry
    · obtain ⟨next, hnext, hover, hlocks⟩ := h.handOver he hv howner (hfree howner)
      refine ⟨_, ?_, hover.consistent.receiveDone client true, hlocks⟩
      rw [clLlRemoveLock, setLl_eq he, bind_some] at hnext
      simp [he, hmem, clLlRemoveLock, setLl_eq he, hv, howner, hnext]
    · have hleft := h.rewait he hv howner (e.ll.erase lock) (v.wl.erase entry)
        (by simp [hcount, howner]) (fun _ hj ↦ count_erase_of_ne hj)
        (fun _ hi ↦ count_erase_of_ne hi)
      refine ⟨_, ?_, hleft.receiveDone client true, ?_⟩
      · simp [he, hmem, clLlRemoveLock, setLl_eq he, hv, howner, lockWlRemove, setLock]
      · rw [Lock.left, if_neg howner]
        exact fun j ↦ lookup_insert_eq _ _ j _
  · refine ⟨_, by simp [he, hmem], h.receiveDone client false, fun j ↦ ?_⟩
    rw [h.left_of_not_listed he hv hmem, ← hv]
    split
    next hj => rw [hj]; rfl
    next => rfl

end Release

section

variable (h : Consistent state)
include h

theorem Consistent.owner_of_holds {j : Address} {l : Lock}
    (hl : state.lockMap.lookup j = some l) (he : state.clList.lookup l.clEntry = some e)
    (hhold : holds state.log client l.name = true) : e.client = client := by
  obtain ⟨_, l', e', hl', hname, he', hc⟩ := h.holder hhold
  obtain rfl := h.name_inj hl' hl hname
  obtain rfl : l' = l := some.inj (hl'.symm.trans hl)
  obtain rfl : e' = e := some.inj (he'.symm.trans he)
  exact hc

theorem Consistent.not_holds_released {j : Address} {l : Lock}
    (hl : state.lockMap.lookup j = some l) (he : state.clList.lookup l.clEntry = some e)
    (client : Client) :
    holds (.released e.client l.name :: state.log) client l.name = false := by
  by_contra hhold
  simp only [holds, Bool.not_eq_false, Bool.and_eq_true] at hhold
  obtain ⟨hne, hhold⟩ := hhold
  simp [h.owner_of_holds hl he hhold] at hne

theorem Consistent.handleRelease (client : Client) (message : Message) :
    ∃ next, handleRelease state client message = some next ∧ Consistent next ∧
      Queued state (.release client message) next := by
  unfold Service.handleRelease
  cases hname : messageName message with
  | none =>
    refine ⟨_, rfl, h.receiveDone client false, fun {j l} hl ↦ ?_⟩
    simp [Event.queued, hname]
    exact hl
  | some name =>
    have h' := h.released client name
    simp only []
    split
    next entry lock hentry hlock =>
      obtain ⟨e, he, rfl⟩ := clFindClient_some hentry
      obtain ⟨v, hv, rfl⟩ := findLock_some hlock
      have hfree : v.clEntry = entry → ∀ client,
          holds (.released e.client v.name :: state.log) client v.name = false := by
        rintro rfl
        exact h.not_holds_released hv he
      obtain ⟨next, hnext, hconsistent, hlocks⟩ := h'.releaseFor he hv e.client hfree
      refine ⟨next, hnext, hconsistent, fun {j l} hl ↦ ?_⟩
      have hentry : Service.clFindClient state e.client = some entry := hentry
      rw [hlocks, h'.lookup_named _ hv hl]
      simp [Event.queued, hname, Event.client, Service.clFindOrAddClient, hentry]
    next hmissing =>
      refine ⟨_, rfl, h'.receiveDone client false, fun {j l} hl ↦ hl.trans ?_⟩
      rw [Event.queued, hname]
      split
      next heq =>
        cases heq
        cases hentry : clFindClient state client with
        | none =>
          rw [Event.client, Service.clFindOrAddClient, hentry]
          exact (Lock.left_eq (h.unused hl)).symm
        | some entry =>
          exact absurd rfl (findLock_none (eq_none_iff_forall_ne_some.mpr
            fun lock ↦ hmissing entry lock hentry) hl)
      next => rfl

end

/-! ## Disconnecting -/

/-- The client waits for none of its remaining locks, and nobody holds one that it owns. -/
structure Leaving (state : State) (entry : Address) : Prop where
  not_waiting : ∀ {j l}, state.lockMap.lookup j = some l → entry ∉ l.wl
  free : ∀ {j l}, state.lockMap.lookup j = some l → l.clEntry = entry →
    ∀ client, holds state.log client l.name = false

theorem Leaving.handedOver {next : State} {lock : Address} {v : Lock}
    (hleaving : Leaving state entry) (h : Consistent state)
    (hv : state.lockMap.lookup lock = some v) (hover : HandedOver state next entry e lock v) :
    Leaving next entry := by
  have hwaiting := hleaving.not_waiting hv
  constructor
  · intro j l hl
    rcases hover.lock_of hl with ⟨-, hl⟩ | ⟨-, -, hwl⟩
    · exact hleaving.not_waiting hl
    · simp only [hwl, mem_cons, not_or] at hwaiting
      exact hwaiting.2
  · intro j l hl howner client
    rcases hover.lock_of hl with ⟨hj, hl⟩ | ⟨-, -, hwl⟩
    · by_contra hhold
      have hname : l.name ≠ v.name := fun heq ↦ hj (h.name_inj hl hv heq)
      have hbefore := hover.holds_of hname (Bool.of_not_eq_false hhold)
      simp [hleaving.free hl howner client] at hbefore
    · simp [hwl, howner] at hwaiting

/-- The loop gives up one held lock after the other until the client's list is empty. -/
theorem Consistent.releaseAll (fuel : ℕ) (h : Consistent state) (hleaving : Leaving state entry)
    (he : state.clList.lookup entry = some e) (hfuel : e.ll.length = fuel) :
    ∃ next, releaseAll entry fuel state = some next ∧ Consistent next ∧
      next.clList.lookup entry = some { e with ll := [] } ∧
      ∀ j, next.lockMap.lookup j = (state.lockMap.lookup j).bind (Lock.left entry) := by
  induction fuel generalizing state e with
  | zero =>
    have hll := length_eq_zero_iff.mp hfuel
    refine ⟨state, rfl, h, by rw [he, ← hll], fun j ↦ ?_⟩
    cases hl : state.lockMap.lookup j with
    | none => rfl
    | some l => exact (h.left_of_not_listed he hl (by simp [hll])).symm
  | succ fuel ih =>
    obtain ⟨lock, _, hll⟩ := exists_cons_of_length_eq_add_one hfuel
    obtain ⟨v, hv⟩ := h.lock_live he lock (by simp [hll])
    have howner : v.clEntry = entry := by
      have hcount := h.counted he hv
      rw [count_eq_zero.mpr (hleaving.not_waiting hv), hll] at hcount
      by_contra hne
      simp [hne] at hcount
    obtain ⟨_, hmiddle, hover, hlocks⟩ := h.handOver he hv howner (hleaving.free hv howner)
    have hlength : (e.ll.erase lock).length = fuel := by
      simpa [hll] using hfuel
    obtain ⟨next, hnext, hconsistent, hentry, hrest⟩ :=
      ih hover.consistent (hleaving.handedOver h hv hover) hover.entry_eq hlength
    refine ⟨next, ?_, hconsistent, hentry, fun j ↦ ?_⟩
    · rw [clLlRemoveLock, setLl_eq he] at hmiddle
      simp [Service.releaseAll, he, hll, clLlRemoveLock, setLl_eq he]
      simp [hll] at hmiddle
      simp [hmiddle, hnext]
    · rw [hrest, hlocks]
      split
      next hj =>
        rw [hj, hv, bind_some, Lock.left_left (hleaving.not_waiting hv)]
      next => rfl

theorem Consistent.clRemoveClient (h : Consistent state) (he : state.clList.lookup entry = some e)
    (hll : e.ll = []) :
    Consistent (clRemoveClient state entry) := by
  refine h.setUnused (fun i ↦ lookup_erase_eq _ _ i) le_rfl (fun hl ↦ ?_) nofun
  have hcount := h.counted he hl
  rw [hll, count_nil] at hcount
  refine ⟨fun howner ↦ ?_, fun hmem ↦ ?_⟩
  · simp [howner] at hcount
    omega
  · have hpos := count_pos_iff.mpr hmem
    omega

theorem Consistent.clientDisconnectCb (h : Consistent state)
    (hcondition : NoWaiterLeaves state (.disconnect client)) :
    ∃ next, clientDisconnectCb state client = some next ∧ Consistent next ∧
      Queued state (.disconnect client) next := by
  have h' := h.disconnected client
  unfold Service.clientDisconnectCb
  cases hfind : clFindClient (Service.observe state (.disconnected client)) client with
  | none =>
    refine ⟨_, by simp only [hfind], h', fun {j l} hl ↦ hl.trans ?_⟩
    have hfind : clFindClient state client = none := hfind
    rw [Event.client, Service.clFindOrAddClient, hfind]
    exact (Lock.left_eq (h.unused hl)).symm
  | some entry =>
    obtain ⟨e, he, rfl⟩ := clFindClient_some hfind
    have hleaving : Leaving (Service.observe state (.disconnected e.client)) entry := by
      refine ⟨fun {j l} hl ↦ ?_, ?_⟩
      · exact hcondition ⟨entry, e⟩ (AList.mem_lookup_iff.mp he) rfl ⟨j, l⟩
          (AList.mem_lookup_iff.mp hl)
      rintro j l hl rfl client
      by_contra hhold
      simp only [Service.observe, holds, Bool.not_eq_false, Bool.and_eq_true, Bool.not_eq_true',
        decide_eq_false_iff_not] at hhold
      exact hhold.1 (h.owner_of_holds hl he hhold.2)
    obtain ⟨next, hnext, hconsistent, hentry, hlocks⟩ :=
      h'.releaseAll e.ll.length hleaving he rfl
    refine ⟨_, ?_, hconsistent.clRemoveClient hentry rfl, fun {j l} hl ↦ ?_⟩
    · simp only [hfind, he, bind_eq_bind, bind_some, hnext]
    · have hfind : clFindClient state e.client = some entry := hfind
      have hl' : (Service.observe state (.disconnected e.client)).lockMap.lookup j = some l := hl
      rw [Event.client, Service.clFindOrAddClient, hfind]
      exact (hlocks j).trans (by rw [hl']; rfl)

/-! ## Runs -/

theorem hasRoom_of_step {next : State} {event : Event} (h : step state event = some next) :
    HasRoom state event := by
  cases event with
  | acquire client message =>
    intro name hname hnew
    rw [← findLock_clFindOrAddClient client] at hnew
    by_contra hfull
    rw [← clFindOrAddClient_lockMap client] at hfull
    simp [Service.step, Service.handleAcquire, Option.mem_def.mp hname, Service.acquireFor, hnew,
      addLock, hfull] at h
  | release client message => trivial
  | disconnect client => trivial

theorem Consistent.step {event : Event} (h : Consistent state)
    (hcondition : NoWaiterLeaves state event) (hroom : HasRoom state event) :
    ∃ next, step state event = some next ∧ Consistent next ∧ Queued state event next := by
  cases event with
  | acquire client message => exact h.handleAcquire client hroom
  | release client message => exact h.handleRelease client message
  | disconnect client => exact h.clientDisconnectCb hcondition

theorem consistent_run {events : List Event}
    (halong : Runs.Along step NoWaiterLeaves initial events)
    (hroom : Runs.Along step HasRoom initial events) :
    ∃ last, Runs.run step initial events = some last ∧ Consistent last := by
  refine Runs.run_total (fun _ _ h hcondition ↦ ?_) consistent_initial (halong.and hroom)
  obtain ⟨next, hnext, hconsistent, -⟩ := h.step hcondition.1 hcondition.2
  exact ⟨next, hnext, hconsistent⟩

theorem consistent_of_run {events : List Event} {last : State}
    (halong : Runs.Along step NoWaiterLeaves initial events)
    (hlast : Runs.run step initial events = some last) : Consistent last := by
  obtain ⟨_, hrun, hconsistent⟩ :=
    consistent_run halong (Runs.along_of_run (fun _ _ _ ↦ hasRoom_of_step) hlast)
  cases hrun.symm.trans hlast
  exact hconsistent

/-- In every run in which no client disconnects while it is waiting, a SUCCESS message for a lock
is only ever sent while no other client holds that lock; and the service does not stop as long as
there is room for new locks. -/
theorem exclusive_of_no_waiter_leaves (events : List Event)
    (halong : Runs.Along step NoWaiterLeaves initial events) :
    (∀ last, Runs.run step initial events = some last → Exclusive last.log) ∧
      (Runs.Along step HasRoom initial events →
        ∃ last, Runs.run step initial events = some last) := by
  refine ⟨fun last hlast ↦ (consistent_of_run halong hlast).exclusive, fun hroom ↦ ?_⟩
  obtain ⟨last, hlast, -⟩ := consistent_run halong hroom
  exact ⟨last, hlast⟩

/-- Client 1 waits, is handed the lock by client 0 and disconnects as its owner. -/
theorem exclusive_hand_over :
    Runs.Along step NoWaiterLeaves initial
        [.acquire 0 ⟨1, [97, 0]⟩, .acquire 1 ⟨1, [97, 0]⟩, .release 0 ⟨1, [97, 0]⟩, .disconnect 1] ∧
      ∃ last, Runs.run step initial
        [.acquire 0 ⟨1, [97, 0]⟩, .acquire 1 ⟨1, [97, 0]⟩, .release 0 ⟨1, [97, 0]⟩,
          .disconnect 1] = some last ∧ Exclusive last.log := by
  have halong : Runs.Along step NoWaiterLeaves initial [.acquire 0 ⟨1, [97, 0]⟩,
    .acquire 1 ⟨1, [97, 0]⟩, .release 0 ⟨1, [97, 0]⟩, .disconnect 1] := by decide
  obtain ⟨hexclusive, htotal⟩ := exclusive_of_no_waiter_leaves _ halong
  obtain ⟨last, hlast⟩ := htotal (by decide)
  exact ⟨halong, last, hlast, hexclusive last hlast⟩

/-- In such a run at most one client holds a lock. -/
theorem one_holder_of_no_waiter_leaves (events : List Event)
    (halong : Runs.Along step NoWaiterLeaves initial events)
    (hroom : Runs.Along step HasRoom initial events) :
    ∃ last, Runs.run step initial events = some last ∧
      ∀ name, {client | holds last.log client name = true}.Subsingleton := by
  obtain ⟨last, hlast, hconsistent⟩ := consistent_run halong hroom
  exact ⟨last, hlast, fun _ _ hclient _ ↦ hconsistent.exclusive.holder_unique hclient⟩

/-- Two clients want two locks each; the lock that was given up has a new holder. -/
theorem one_holder_waiting :
    ∃ last, Runs.run step initial
        [.acquire 0 ⟨1, [97, 0]⟩, .acquire 1 ⟨1, [97, 0]⟩, .acquire 1 ⟨2, [97, 0]⟩,
          .acquire 0 ⟨2, [97, 0]⟩, .release 0 ⟨1, [97, 0]⟩] = some last ∧
      holds last.log 1 ⟨[97], 1⟩ = true ∧
      ∀ name, {client | holds last.log client name = true}.Subsingleton := by
  obtain ⟨last, hlast, hone⟩ := one_holder_of_no_waiter_leaves
    [.acquire 0 ⟨1, [97, 0]⟩, .acquire 1 ⟨1, [97, 0]⟩, .acquire 1 ⟨2, [97, 0]⟩,
      .acquire 0 ⟨2, [97, 0]⟩, .release 0 ⟨1, [97, 0]⟩] (by decide) (by decide)
  refine ⟨last, hlast, ?_, hone⟩
  cases hlast
  decide

/-- Client 0 holds the lock, clients 1 and 2 wait for it, and client 2 disconnects: the lock is
then handed to client 1 although client 0 never released it. -/
theorem not_exclusive_waiter_leaves :
    ∃ last, Runs.run step initial
        [.acquire 0 ⟨1, [97, 0]⟩, .acquire 1 ⟨1, [97, 0]⟩, .acquire 2 ⟨1, [97, 0]⟩,
          .disconnect 2] = some last ∧
      ¬ Exclusive last.log ∧ holds last.log 0 ⟨[97], 1⟩ = true ∧
      holds last.log 1 ⟨[97], 1⟩ = true := by
  refine ⟨_, rfl, fun h ↦ ?_, by decide, by decide⟩
  have hother := h.1 0 (by decide)
  revert hother
  decide

/-- The lists of locks and of waiting clients agree, and wait lists are served in order. -/
structure InOrder (state : State) : Prop where
  owner_connected : ∀ j l, state.lockMap.lookup j = some l →
    ∃ e, state.clList.lookup l.clEntry = some e
  waiter_connected : ∀ j l, state.lockMap.lookup j = some l → ∀ i ∈ l.wl,
    ∃ e, state.clList.lookup i = some e
  listed : ∀ i e, state.clList.lookup i = some e → ∀ j, e.ll.count j =
    match state.lockMap.lookup j with
    | none => 0
    | some l => (if l.clEntry = i then 1 else 0) + l.wl.count i
  served : ∀ event, NoWaiterLeaves state event →
    (HasRoom state event → ∃ next, step state event = some next) ∧
      ∀ next, step state event = some next → Queued state event next

/-- In every run in which no client disconnects while it is waiting, owners and waiting clients
are connected, lock lists count what their clients own and await, and a lock that its owner gives
up goes to the client that has waited longest. -/
theorem inOrder_of_no_waiter_leaves (events : List Event)
    (halong : Runs.Along step NoWaiterLeaves initial events) :
    (∀ last, Runs.run step initial events = some last → InOrder last) ∧
      (Runs.Along step HasRoom initial events →
        ∃ last, Runs.run step initial events = some last) := by
  constructor
  · intro last hlast
    have h := consistent_of_run halong hlast
    refine ⟨fun _ _ ↦ h.owner_live, fun _ _ ↦ h.waiter_live, fun i e he j ↦ ?_,
      fun event hcondition ↦ ⟨fun hroom ↦ ?_, fun next hnext ↦ ?_⟩⟩
    · cases hl : last.lockMap.lookup j with
      | none =>
        refine count_eq_zero.mpr fun hmem ↦ ?_
        obtain ⟨l, hsome⟩ := h.lock_live he j hmem
        simp [hl] at hsome
      | some l => exact h.counted he hl
    · obtain ⟨next, hnext, -⟩ := h.step hcondition hroom
      exact ⟨next, hnext⟩
    · obtain ⟨_, hsame, -, hqueued⟩ := h.step hcondition (hasRoom_of_step hnext)
      cases hsame.symm.trans hnext
      exact hqueued
  · intro hroom
    obtain ⟨last, hlast, -⟩ := consistent_run halong hroom
    exact ⟨last, hlast⟩

/-- Client 2 stops waiting, and the lock goes from client 0 to client 1. -/
theorem inOrder_hand_over :
    ∃ last, Runs.run step initial
        [.acquire 0 ⟨1, [97, 0]⟩, .acquire 1 ⟨1, [97, 0]⟩, .acquire 2 ⟨1, [97, 0]⟩,
          .release 2 ⟨1, [97, 0]⟩, .disconnect 0] = some last ∧ InOrder last := by
  obtain ⟨hinOrder, htotal⟩ := inOrder_of_no_waiter_leaves
    [.acquire 0 ⟨1, [97, 0]⟩, .acquire 1 ⟨1, [97, 0]⟩, .acquire 2 ⟨1, [97, 0]⟩,
      .release 2 ⟨1, [97, 0]⟩, .disconnect 0] (by decide)
  obtain ⟨last, hlast⟩ := htotal (by decide)
  exact ⟨last, hlast, hinOrder last hlast⟩

/-- Client 0 holds the lock, clients 1 and 2 wait for it, and client 2 disconnects: it stays on
the wait list. -/
theorem not_inOrder_waiter_leaves :
    ∃ last, Runs.run step initial
        [.acquire 0 ⟨1, [97, 0]⟩, .acquire 1 ⟨1, [97, 0]⟩, .acquire 2 ⟨1, [97, 0]⟩,
          .disconnect 2] = some last ∧ ¬ InOrder last := by
  refine ⟨_, rfl, fun h ↦ ?_⟩
  obtain ⟨e, he⟩ := h.waiter_connected 1 _ rfl 3 (by decide)
  cases he

end Gnunet.Lockmanager.Service
