import Gnunet.Hello.Merge

/-!
# The expirations of HELLO messages

`GNUNET_HELLO_get_last_expiration` takes the minimum of the expirations, starting from zero.
`GNUNET_HELLO_equals` looks for every unexpired address of one message in the other one, in both
directions, and keeps the least expiration of those that differ.
-/

namespace Gnunet.Hello

open Lib.LatestUnion List

variable {K : Type*} {h1 h2 hello : HelloMessage K} {now : ℕ}

def findMinExpire (least : ℕ) (_ : Address) (expiration : ℕ) : ℕ × IterResult :=
  (min least expiration, .ok)

def getLastExpiration (msg : HelloMessage K) : ℕ := (iterateAddresses msg false findMinExpire 0).1

theorem visit_findMinExpire (entries : List Entry) (least : ℕ) :
    visit findMinExpire entries least = (entries.map Prod.snd).foldl min least := by
  induction entries generalizing least with
  | nil => rfl
  | cons entry rest ih => exact ih _

/-- The result is the largest expiration, and zero only without an expiration above zero, just if
all expirations are zero.  The addresses are those that are packed in the body of the message. -/
theorem getLastExpiration_iff (hello : HelloMessage K) :
    (∀ entries, Packs hello entries → addressesOf hello = entries) ∧
    (((∀ entry ∈ addressesOf hello, entry.2 ≤ getLastExpiration hello) ∧
        (addressesOf hello ≠ [] →
          ∃ entry ∈ addressesOf hello, entry.2 = getLastExpiration hello) ∧
        (getLastExpiration hello = 0 ↔ ¬ ∃ entry ∈ addressesOf hello, entry.2 ≠ 0)) ↔
      ∀ entry ∈ addressesOf hello, entry.2 = 0) := by
  refine ⟨fun _ ↦ Packs.addressesOf_eq, ?_⟩
  rw [getLastExpiration, iterateAddresses_eq, visit_findMinExpire, foldl_fixed' Nat.zero_min]
  constructor
  · intro ⟨hle, _⟩ entry hentry
    exact Nat.le_zero.mp (hle entry hentry)
  · intro hzero
    refine ⟨fun entry hentry ↦ (hzero entry hentry).le, fun hne ↦ ?_, iff_of_true rfl ?_⟩
    · obtain ⟨entry, hentry⟩ := exists_mem_of_ne_nil _ hne
      exact ⟨entry, hentry, hzero entry hentry⟩
    · exact fun ⟨entry, hentry, hne⟩ ↦ hne (hzero entry hentry)

def oneAddress (time : UInt8) : HelloMessage Unit :=
  { type := typeHello, publicKey := (), body := [116, 0, 0, 0, 0, 0, 0, 0, 0, 0, 0, time]
    size_lt := show 284 < 2 ^ 16 by decide }

theorem getLastExpiration_oneAddress :
    addressesOf (oneAddress 5) = [(⟨[116], []⟩, 5)] ∧ getLastExpiration (oneAddress 5) = 0 := by
  decide

def forever : ℕ := 2 ^ 64 - 1

/-- `find_other_matching`; the state is `result` and `found`. -/
def findOtherMatching (limit : ℕ) (wanted : Entry) (ec : ℕ × Bool) (address : Address)
    (expiration : ℕ) : (ℕ × Bool) × IterResult :=
  if expiration < limit then (ec, .ok)
  else if address = wanted.1 then
    ((if expiration < wanted.2 then min expiration ec.1 else ec.1, true), .syserr)
  else (ec, .ok)

def findMatching (limit : ℕ) (other : HelloMessage K) (result : ℕ) (address : Address)
    (expiration : ℕ) : ℕ × IterResult :=
  if expiration < limit then (result, .ok)
  else
    match (iterateAddresses other false (findOtherMatching limit (address, expiration))
      (result, false)).1 with
    | (_, false) => (0, .syserr)
    | (result, true) => (result, .ok)

def equals [DecidableEq K] (h1 h2 : HelloMessage K) (now : ℕ) : ℕ :=
  if h1.publicKey ≠ h2.publicKey then 0
  else
    let result := (iterateAddresses h1 false (findMatching now h2) forever).1
    if result = 0 then result else (iterateAddresses h2 false (findMatching now h1) result).1

def unexpired (hello : HelloMessage K) (now : ℕ) : List Entry :=
  (addressesOf hello).filter fun entry ↦ now ≤ entry.2

/-- An unexpired address of the first message is missing among those of the second one. -/
def Missing (h1 h2 : HelloMessage K) (now : ℕ) : Prop :=
  ∃ entry ∈ unexpired h1 now, entry.1 ∉ (unexpired h2 now).map Prod.fst

/-- The times at which two unexpired entries for an address differ. -/
def differences (h1 h2 : HelloMessage K) (now : ℕ) : Set ℕ :=
  { time | ∃ address e1 e2, (address, e1) ∈ unexpired h1 now ∧ (address, e2) ∈ unexpired h2 now ∧
    e1 ≠ e2 ∧ time = min e1 e2 }

/-- Zero if the entry is missing in the other message, and the other expiration if that is earlier.
-/
def clash (other : HelloMessage K) (now : ℕ) (entry : Entry) : Option ℕ :=
  match valueOf (unexpired other now) entry.1 with
  | none => some 0
  | some time => if time < entry.2 then some time else none

theorem visit_findOtherMatching (limit : ℕ) (wanted : Entry) (result : ℕ) (entries : List Entry) :
    visit (findOtherMatching limit wanted) entries (result, false) =
      match valueOf (entries.filter fun entry ↦ limit ≤ entry.2) wanted.1 with
      | none => (result, false)
      | some time => (if time < wanted.2 then min time result else result, true) := by
  induction entries with
  | nil => rfl
  | cons entry rest ih =>
    rw [visit, findOtherMatching]
    by_cases hlimit : entry.2 < limit
    · rw [if_pos hlimit, filter_cons_of_neg (by simpa using hlimit)]
      exact ih
    · rw [if_neg hlimit, filter_cons_of_pos (by simpa using hlimit), valueOf, find?_cons]
      by_cases heq : entry.1 = wanted.1
      · rw [if_pos heq, decide_eq_true heq]
        rfl
      · rw [if_neg heq, decide_eq_false heq]
        exact ih

theorem visit_findMatching (result : ℕ) (entries : List Entry) :
    visit (findMatching now h2) entries result =
      ((entries.filter fun entry ↦ now ≤ entry.2).filterMap (clash h2 now)).foldl min result := by
  induction entries generalizing result with
  | nil => rfl
  | cons entry rest ih =>
    rw [visit, findMatching]
    by_cases hexpired : entry.2 < now
    · rw [if_pos hexpired, filter_cons_of_neg (by simpa using hexpired)]
      exact ih result
    · rw [if_neg hexpired, filter_cons_of_pos (by simpa using hexpired), iterateAddresses_eq,
        visit_findOtherMatching, filterMap_cons, clash, unexpired]
      cases valueOf ((addressesOf h2).filter fun entry ↦ now ≤ entry.2) entry.1 with
      | none =>
        rw [foldl_cons, Nat.min_zero, foldl_fixed' Nat.zero_min]
      | some time =>
        dsimp only
        rw [ih]
        split_ifs
        · rw [foldl_cons, min_comm]
        · rfl

def clashes (h1 h2 : HelloMessage K) (now : ℕ) : List ℕ :=
  (unexpired h1 now).filterMap (clash h2 now)

theorem equals_eq [DecidableEq K] (hkey : h1.publicKey = h2.publicKey) :
    equals h1 h2 now = (clashes h1 h2 now ++ clashes h2 h1 now).foldl min forever := by
  rw [equals, if_neg (not_not.mpr hkey), iterateAddresses_eq, visit_findMatching]
  dsimp only
  rw [iterateAddresses_eq, visit_findMatching, foldl_append]
  change (if (clashes h1 h2 now).foldl min forever = 0 then _
    else (clashes h2 h1 now).foldl min _) = _
  split_ifs with hzero
  · rw [hzero, foldl_fixed' Nat.zero_min]
    exact hzero
  · rfl

theorem mem_clashes (h2once : ListsOnce h2) {time : ℕ} :
    time ∈ clashes h1 h2 now ↔ time = 0 ∧ Missing h1 h2 now ∨
      ∃ address e1, (address, e1) ∈ unexpired h1 now ∧ (address, time) ∈ unexpired h2 now ∧
        time < e1 := by
  have hnodup : ((unexpired h2 now).map Prod.fst).Nodup := h2once.sublist (filter_sublist.map _)
  have hclash (entry : Entry) : clash h2 now entry = some time ↔
      time = 0 ∧ entry.1 ∉ (unexpired h2 now).map Prod.fst ∨
        (entry.1, time) ∈ unexpired h2 now ∧ time < entry.2 := by
    rw [clash, ← valueOf_eq_none_iff, ← valueOf_eq_some_iff hnodup]
    cases valueOf (unexpired h2 now) entry.1 with
    | none => simp [eq_comm]
    | some other => grind
  rw [clashes]
  simp only [Missing]
  grind

/-- The comparison is symmetric, and its result is zero or the least time at which the messages
differ.  Their addresses are those that are packed in their bodies. -/
theorem equals_spec [DecidableEq K] (h1 h2 : HelloMessage K) (now : ℕ) (h1once : ListsOnce h1)
    (h2once : ListsOnce h2) :
    (∀ (hello : HelloMessage K) (entries : List Entry), Packs hello entries →
      addressesOf hello = entries) ∧
    equals h1 h2 now = equals h2 h1 now ∧
      (equals h1 h2 now = 0 ↔ h1.publicKey ≠ h2.publicKey ∨ Missing h1 h2 now ∨ Missing h2 h1 now ∨
        now = 0 ∧ 0 ∈ differences h1 h2 now) ∧
      (h1.publicKey = h2.publicKey → ¬ Missing h1 h2 now → ¬ Missing h2 h1 now →
        IsLeast (insert forever (differences h1 h2 now)) (equals h1 h2 now)) := by
  refine ⟨fun _ _ ↦ Packs.addressesOf_eq, ?_⟩
  by_cases hkey : h1.publicKey = h2.publicKey
  · have hmem (time : ℕ) : time ∈ clashes h1 h2 now ++ clashes h2 h1 now ↔
        time = 0 ∧ (Missing h1 h2 now ∨ Missing h2 h1 now) ∨ time ∈ differences h1 h2 now := by
      rw [mem_append, mem_clashes h2once, mem_clashes h1once, differences]
      grind
    have hleast : (forever :: (clashes h1 h2 now ++ clashes h2 h1 now)).min? =
        some (equals h1 h2 now) := by
      rw [equals_eq hkey]
      rfl
    obtain ⟨hfound, hle⟩ := min?_eq_some_iff.mp hleast
    refine ⟨?_, ?_, fun _ hmissing hmissing' ↦ ?_⟩
    · rw [equals_eq hkey, equals_eq hkey.symm]
      exact perm_append_comm.foldl_eq forever
    · have hzero : equals h1 h2 now = 0 ↔ 0 ∈ clashes h1 h2 now ++ clashes h2 h1 now := by
        refine ⟨fun heq ↦ ?_, fun hzero ↦ Nat.le_zero.mp (hle 0 (mem_cons_of_mem _ hzero))⟩
        exact (mem_cons.mp (heq ▸ hfound)).resolve_left (by decide)
      have hnow (h : 0 ∈ differences h1 h2 now) : now = 0 := by
        obtain ⟨_, e1, e2, he1, he2, -, hmin⟩ := h
        have hle1 := of_decide_eq_true (mem_filter.mp he1).2
        have hle2 := of_decide_eq_true (mem_filter.mp he2).2
        omega
      grind
    · refine ⟨?_, fun time htime ↦ hle time ?_⟩
      · grind
      · grind
  · have hzero (h h' : HelloMessage K) (hne : h.publicKey ≠ h'.publicKey) : equals h h' now = 0 :=
      if_pos hne
    refine ⟨?_, iff_of_true (hzero _ _ hkey) (.inl hkey), fun h ↦ absurd h hkey⟩
    rw [hzero _ _ hkey, hzero _ _ (Ne.symm hkey)]

instance : Decidable (ListsOnce hello) := inferInstanceAs (Decidable (Nodup _))

def packed (entries : List Entry)
    (h : messageSize + (entries.flatMap encodeEntry).length < 2 ^ 16) : HelloMessage Unit :=
  { type := typeHello, publicKey := (), body := entries.flatMap encodeEntry, size_lt := h }

/-- Of two common addresses one expires at 7 in one message and at 9 in the other one; a third
address has expired. -/
theorem equals_spec_twoAddresses :
    let tcp : Address := { transportName := [116], address := [1, 2] }
    let udp : Address := { transportName := [117], address := [] }
    let old : Address := { transportName := [116], address := [3] }
    ∃ h1 h2 : HelloMessage Unit, addressesOf h1 = [(tcp, 5), (old, 2), (udp, 7)] ∧
      addressesOf h2 = [(udp, 9), (tcp, 5)] ∧ equals h1 h2 3 = 7 ∧ equals h2 h1 3 = 7 ∧
      IsLeast (insert forever (differences h1 h2 3)) 7 := by
  intro tcp udp old
  let h1 := packed [(tcp, 5), (old, 2), (udp, 7)] (by decide)
  let h2 := packed [(udp, 9), (tcp, 5)] (by decide)
  have hequals : equals h1 h2 3 = 7 := by decide
  have hmissing : ¬ Missing h1 h2 3 ∧ ¬ Missing h2 h1 3 := by
    unfold Missing
    decide
  obtain ⟨-, hsymm, -, hleast⟩ := equals_spec h1 h2 3 (by decide) (by decide)
  refine ⟨h1, h2, by decide, by decide, hequals, hsymm ▸ hequals, ?_⟩
  exact hequals ▸ hleast rfl hmissing.1 hmissing.2

/-- At the time zero, zero may be the least time at which two messages differ. -/
theorem equals_zero_not_missing : ListsOnce (oneAddress 0) ∧ ListsOnce (oneAddress 7) ∧
    equals (oneAddress 0) (oneAddress 7) 0 = 0 ∧
    ¬ Missing (oneAddress 0) (oneAddress 7) 0 ∧ ¬ Missing (oneAddress 7) (oneAddress 0) 0 := by
  unfold Missing
  decide

end Gnunet.Hello
