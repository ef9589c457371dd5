import Gnunet.Lib.Runs
import Mathlib.Algebra.Order.BigOperators.Group.List
import Mathlib.Algebra.Order.Group.Nat
import Mathlib.Algebra.GroupWithZero.Nat

/-!
# Reservations of the datastore

Clients of the datastore reserve space and use it up with PUT messages
(`gnunet-service-datastore.c`). The service keeps the reservations and, in a 64-bit counter, the
space they hold together. Amounts come from the clients and are added, multiplied and subtracted
modulo powers of two; `Orderly` are the messages for which nothing wraps around.
-/

namespace Gnunet.Datastore

open Lib.Runs List UInt64

def entryOverhead : ℕ := 256

structure ReservationList where
  client : ℕ
  amount : UInt64
  entries : UInt64
  rid : Int32
  deriving DecidableEq

structure Service where
  reservations : List ReservationList
  reserved : UInt64
  payload : UInt64
  quota : UInt64
  reservationGen : Int32

def required (amount entries : UInt64) : UInt64 := amount + 256 * entries

def granted (service : Service) (amount : UInt64) (entries : UInt32) : Bool :=
  !decide (service.quota < service.payload + service.reserved + required amount entries.toUInt64)

def handleReserve (service : Service) (client : ℕ) (amount : UInt64) (entries : UInt32) : Service :=
  if granted service amount entries then
    let rid := service.reservationGen + 1
    { service with
      reserved := service.reserved + required amount entries.toUInt64
      reservations := ⟨client, amount, entries.toUInt64, rid⟩ :: service.reservations
      reservationGen := if rid < 0 then 0 else rid }
  else service

def replaceFirst (rid : Int32) (replacement : ReservationList → List ReservationList) :
    List ReservationList → Option (ReservationList × List ReservationList)
  | [] => none
  | pos :: rest =>
    if rid = pos.rid then some (pos, replacement pos ++ rest)
    else (replaceFirst rid replacement rest).map fun found ↦ (found.1, pos :: found.2)

/-- `none` is a failed assertion. -/
def handleReleaseReserve (service : Service) (rid : Int32) : Option Service :=
  match replaceFirst rid (fun _ ↦ []) service.reservations with
  | none => some service
  | some (pos, rest) =>
    let rem := required pos.amount pos.entries
    if service.reserved < rem then none
    else some { service with reservations := rest, reserved := service.reserved - rem }

def use (size : UInt16) (pos : ReservationList) : ReservationList :=
  { pos with entries := pos.entries - 1, amount := pos.amount - size.toUInt64 }

/-- The part of `handle_put` that uses a reservation, for a well-formed message. -/
def handlePut (service : Service) (rid : Int32) (size : UInt16) : Service :=
  if 0 < rid then
    match replaceFirst rid (fun pos ↦ [use size pos]) service.reservations with
    | none => service
    | some (_, rest) =>
      { service with
        reservations := rest
        reserved := service.reserved - (size.toUInt32 + 256).toUInt64 }
  else service

def cleanup (client : ℕ) : List ReservationList → UInt64 → List ReservationList × UInt64
  | [], reserved => ([], reserved)
  | pos :: rest, reserved =>
    if pos.client = client then
      cleanup client rest (reserved - (pos.amount + pos.entries * 256))
    else
      let result := cleanup client rest reserved
      (pos :: result.1, result.2)

def cleanupReservations (service : Service) (client : ℕ) : Service :=
  let result := cleanup client service.reservations service.reserved
  { service with reservations := result.1, reserved := result.2 }

inductive Event where
  | reserve (client : ℕ) (amount : UInt64) (entries : UInt32)
  | releaseReserve (rid : Int32)
  | put (rid : Int32) (size : UInt16)
  | disconnect (client : ℕ)
  | utilizationChange (payload : UInt64)

def step (service : Service) : Event → Option Service
  | .reserve client amount entries => some (handleReserve service client amount entries)
  | .releaseReserve rid => handleReleaseReserve service rid
  | .put rid size => some (handlePut service rid size)
  | .disconnect client => some (cleanupReservations service client)
  | .utilizationChange payload => some { service with payload := payload }

def initial (quota payload : UInt64) : Service := ⟨[], 0, payload, quota, 0⟩

def held (pos : ReservationList) : ℕ := pos.amount.toNat + entryOverhead * pos.entries.toNat

def total (reservations : List ReservationList) : ℕ := (reservations.map held).sum

def demand (service : Service) (amount : UInt64) (entries : UInt32) : ℕ :=
  service.payload.toNat + service.reserved.toNat + amount.toNat + entryOverhead * entries.toNat

/-- A RESERVE does not wrap the sum of all space, and a PUT uses no more than its reservation has.
-/
def Orderly (service : Service) : Event → Prop
  | .reserve _ amount entries => demand service amount entries < 2 ^ 64
  | .put rid size => 0 < rid →
    ∀ pos, service.reservations.find? (fun pos ↦ rid = pos.rid) = some pos →
      0 < pos.entries.toNat ∧ size.toNat ≤ pos.amount.toNat
  | _ => True

instance (service : Service) : (event : Event) → Decidable (Orderly service event)
  | .reserve _ _ _ => inferInstanceAs (Decidable (_ < _))
  | .put rid _ =>
    inferInstanceAs (Decidable (0 < rid → ∀ pos ∈ service.reservations.find? _, _))
  | .releaseReserve _ | .disconnect _ | .utilizationChange _ => inferInstanceAs (Decidable True)

/-- A RESERVE is granted only if there is room for it. -/
def GrantsRoom (service : Service) : Event → Prop
  | .reserve _ amount entries =>
    granted service amount entries → demand service amount entries ≤ service.quota.toNat
  | _ => True

theorem toNat_required {amount entries : UInt64}
    (h : amount.toNat + entryOverhead * entries.toNat < 2 ^ 64) :
    (required amount entries).toNat = amount.toNat + entryOverhead * entries.toNat := by
  have hmul : (256 * entries).toNat = entryOverhead * entries.toNat := by
    rw [UInt64.toNat_mul]
    exact Nat.mod_eq_of_lt (by change entryOverhead * _ < _; omega)
  rw [required, UInt64.toNat_add, hmul]
  exact Nat.mod_eq_of_lt h

theorem replaceFirst_spec {rid : Int32} {replacement : ReservationList → List ReservationList}
    {reservations rest : List ReservationList} {pos : ReservationList}
    (h : replaceFirst rid replacement reservations = some (pos, rest)) :
    reservations.find? (fun pos ↦ rid = pos.rid) = some pos ∧
      total rest + held pos = total reservations + total (replacement pos) := by
  induction reservations generalizing rest with
  | nil => cases h
  | cons first others ih =>
    rw [replaceFirst] at h
    split_ifs at h with hrid
    · cases h
      refine ⟨find?_cons_of_pos (decide_eq_true hrid), ?_⟩
      simp only [total, map_append, sum_append, map_cons, sum_cons]
      omega
    · obtain ⟨⟨_, _⟩, hfound, heq⟩ := Option.map_eq_some_iff.mp h
      cases heq
      obtain ⟨hfirst, htotal⟩ := ih hfound
      refine ⟨(find?_cons_of_neg (by simpa using hrid)).trans hfirst, ?_⟩
      simp only [total, map_cons, sum_cons] at htotal ⊢
      omega

theorem held_le_total {reservations : List ReservationList} {pos : ReservationList}
    (h : pos ∈ reservations) : held pos ≤ total reservations :=
  single_le_sum (fun _ _ ↦ Nat.zero_le _) _ (mem_map_of_mem h)

def Counted (service : Service) : Prop := service.reserved.toNat = total service.reservations

variable {service : Service}

theorem Counted.reserve (h : Counted service) {client : ℕ} {amount : UInt64} {entries : UInt32}
    (horderly : Orderly service (.reserve client amount entries)) :
    Counted (handleReserve service client amount entries) ∧
      GrantsRoom service (.reserve client amount entries) := by
  simp only [Orderly, demand] at horderly
  have hrequired : (required amount entries.toUInt64).toNat =
      amount.toNat + entryOverhead * entries.toNat :=
    toNat_required (by rw [UInt32.toNat_toUInt64]; omega)
  have hsum : (service.payload + service.reserved + required amount entries.toUInt64).toNat =
      demand service amount entries := by
    rw [UInt64.toNat_add, UInt64.toNat_add, hrequired, Nat.mod_add_mod, ← Nat.add_assoc]
    exact Nat.mod_eq_of_lt horderly
  constructor
  · unfold handleReserve
    split_ifs
    · simp only [Counted] at h ⊢
      rw [UInt64.toNat_add, hrequired, Nat.mod_eq_of_lt (by omega), h]
      exact Nat.add_comm _ _
    · exact h
  · intro hgranted
    simp only [granted, Bool.not_eq_true', decide_eq_false_iff_not, lt_iff_toNat_lt,
      hsum, not_lt] at hgranted
    exact hgranted

theorem Counted.release (h : Counted service) (rid : Int32) :
    ∃ next, handleReleaseReserve service rid = some next ∧ Counted next := by
  unfold handleReleaseReserve
  cases hfind : replaceFirst rid (fun _ ↦ []) service.reservations with
  | none => exact ⟨service, rfl, h⟩
  | some found =>
    obtain ⟨pos, _⟩ := found
    obtain ⟨hfirst, htotal⟩ := replaceFirst_spec hfind
    have hheld := held_le_total (mem_of_find?_eq_some hfirst)
    have hlt := service.reserved.toNat_lt
    rw [Counted] at h
    have hrem : (required pos.amount pos.entries).toNat = held pos :=
      toNat_required (by rw [held] at hheld; omega)
    have hle : required pos.amount pos.entries ≤ service.reserved := by
      rw [le_iff_toNat_le]
      omega
    refine ⟨_, if_neg (UInt64.not_lt.mpr hle), ?_⟩
    · rw [Counted, UInt64.toNat_sub_of_le _ _ hle]
      simp only [total, map_nil, sum_nil] at htotal h ⊢
      omega

theorem Counted.put (h : Counted service) {rid : Int32} {size : UInt16}
    (horderly : Orderly service (.put rid size)) : Counted (handlePut service rid size) := by
  unfold handlePut
  split_ifs with hrid
  · cases hfind : replaceFirst rid (fun pos ↦ [use size pos]) service.reservations with
    | none => exact h
    | some found =>
      obtain ⟨pos, _⟩ := found
      obtain ⟨hfirst, htotal⟩ := replaceFirst_spec hfind
      obtain ⟨hentries, hamount⟩ := horderly hrid pos hfirst
      have hheld := held_le_total (mem_of_find?_eq_some hfirst)
      have hsize := size.toNat_lt
      have hused : (size.toUInt32 + 256).toUInt64.toNat = size.toNat + entryOverhead := by
        rw [UInt32.toNat_toUInt64, UInt32.toNat_add, UInt16.toNat_toUInt32]
        exact Nat.mod_eq_of_lt (by change _ + 256 < _; omega)
      have hleft : held (use size pos) + (size.toNat + entryOverhead) = held pos := by
        have hone : (1 : UInt64) ≤ pos.entries := le_iff_toNat_le.mpr hentries
        have hsmall : size.toUInt64 ≤ pos.amount := by
          exact hamount
        have hentry : (1 : UInt64).toNat = 1 := rfl
        simp only [held, use, entryOverhead, UInt64.toNat_sub_of_le _ _ hsmall,
          UInt64.toNat_sub_of_le _ _ hone, UInt16.toNat_toUInt64]
        omega
      rw [Counted] at h ⊢
      have hle : (size.toUInt32 + 256).toUInt64 ≤ service.reserved := by
        rw [le_iff_toNat_le]
        omega
      simp only [total, map_cons, map_nil, sum_cons, sum_nil] at htotal h ⊢
      rw [UInt64.toNat_sub_of_le _ _ hle]
      omega
  · exact h

/-- The loop keeps what the counter exceeds the reservations by. -/
theorem cleanup_spec (client : ℕ) (reservations : List ReservationList) (reserved : UInt64)
    (others : ℕ) (h : reserved.toNat = total reservations + others) :
    (cleanup client reservations reserved).2.toNat =
      total (cleanup client reservations reserved).1 + others := by
  induction reservations generalizing reserved others with
  | nil => exact h
  | cons pos rest ih =>
    have hsplit : total (pos :: rest) = held pos + total rest := sum_cons
    rw [cleanup]
    split_ifs
    · have hlt := reserved.toNat_lt
      have hheld : (pos.amount + pos.entries * 256).toNat = held pos := by
        rw [UInt64.mul_comm]
        exact toNat_required (by rw [held] at hsplit; omega)
      have hle : pos.amount + pos.entries * 256 ≤ reserved := by
        rw [le_iff_toNat_le]
        omega
      apply ih
      rw [UInt64.toNat_sub_of_le _ _ hle]
      omega
    · have hrest := ih reserved (held pos + others) (by omega)
      have hcons : total (pos :: (cleanup client rest reserved).1) =
          held pos + total (cleanup client rest reserved).1 := sum_cons
      dsimp only
      omega

theorem Counted.step {event : Event} (h : Counted service) (horderly : Orderly service event) :
    ∃ next, step service event = some next ∧ Counted next := by
  cases event with
  | reserve client amount entries => exact ⟨_, rfl, (h.reserve horderly).1⟩
  | releaseReserve rid => exact h.release rid
  | put rid size => exact ⟨_, rfl, h.put horderly⟩
  | disconnect client =>
    exact ⟨_, rfl, cleanup_spec client service.reservations service.reserved 0 h⟩
  | utilizationChange payload => exact ⟨_, rfl, h⟩

/-- In every run of orderly events the counter is exact, no assertion fails, and a RESERVE is
granted only if there is room for it. -/
theorem reservations_counted (quota payload : UInt64) (events : List Event)
    (horderly : Along step Orderly (initial quota payload) events) :
    (∃ last, run step (initial quota payload) events = some last ∧
        last.reserved.toNat = total last.reservations) ∧
      Along step GrantsRoom (initial quota payload) events := by
  have hstart : Counted (initial quota payload) := rfl
  constructor
  · exact run_total (fun _ _ ↦ Counted.step) hstart horderly
  · refine along_of_invariant (fun _ _ ↦ Counted.step) hstart horderly fun _ event h horderly ↦ ?_
    cases event with
    | reserve client amount entries => exact (h.reserve horderly).2
    | _ => trivial

theorem reservations_counted_used :
    Along step Orderly (initial 4096 100)
        [.reserve 1 1000 2, .put 1 500, .reserve 2 10 0, .disconnect 1, .releaseReserve 2] ∧
      (∃ last, run step (initial 4096 100)
        [.reserve 1 1000 2, .put 1 500, .reserve 2 10 0, .disconnect 1, .releaseReserve 2] =
          some last ∧ last.reserved.toNat = total last.reservations) ∧
      Along step GrantsRoom (initial 4096 100)
        [.reserve 1 1000 2, .put 1 500, .reserve 2 10 0, .disconnect 1, .releaseReserve 2] := by
  have horderly : Along step Orderly (initial 4096 100)
      [.reserve 1 1000 2, .put 1 500, .reserve 2 10 0, .disconnect 1, .releaseReserve 2] := by
    decide +kernel
  exact ⟨horderly, reservations_counted 4096 100 _ horderly⟩

/-- A PUT with a reservation without entries makes the counter wrap around, and a RESERVE of nearly
`2 ^ 64` bytes is granted. -/
theorem reservations_miscounted :
    (∃ last, run step (initial 4096 0) [.reserve 1 1000 0, .put 1 500] = some last ∧
      last.reserved.toNat ≠ total last.reservations) ∧
    granted (initial 4096 100) 18446744073709551615 0 = true :=
  ⟨⟨_, rfl, by decide +kernel⟩, by decide +kernel⟩

end Gnunet.Datastore
