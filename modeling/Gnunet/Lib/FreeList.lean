import Mathlib.Data.List.Range

/-!
# Free lists

The unused slots of a table are chained by a number in each of them. Following the numbers from the
start of the chain leads through the slots, one after the other, to an end that is no slot.
-/

namespace Gnunet.Lib.FreeList

open Function

variable {next : ℕ → ℕ} {start stop slot : ℕ} {slots : List ℕ}

def Visits (next : ℕ → ℕ) : ℕ → List ℕ → ℕ → Prop
  | start, [], stop => start = stop
  | start, slot :: slots, stop => start = slot ∧ Visits next (next slot) slots stop

theorem Visits.congr {next' : ℕ → ℕ} (h : Visits next start slots stop)
    (hsame : ∀ slot ∈ slots, next' slot = next slot) : Visits next' start slots stop := by
  induction slots generalizing start with
  | nil => exact h
  | cons slot slots ih =>
    rw [List.forall_mem_cons] at hsame
    refine ⟨h.1, ?_⟩
    rw [hsame.1]
    exact ih h.2 hsame.2

theorem Visits.push (h : Visits next start slots stop) (hslot : slot ∉ slots) :
    Visits (update next slot start) slot (slot :: slots) stop := by
  refine ⟨rfl, ?_⟩
  rw [update_self]
  apply h.congr
  intro other hother
  have hne : other ≠ slot := by
    rintro rfl
    exact hslot hother
  exact update_of_ne hne _ _

theorem visits_range {n : ℕ} (h : ∀ i, start ≤ i → i < start + n → next i = i + 1) :
    Visits next start (List.range' start n) (start + n) := by
  induction n generalizing start with
  | zero => rfl
  | succ n ih =>
    refine ⟨rfl, ?_⟩
    rw [h start le_rfl (by omega), show start + (n + 1) = start + 1 + n by omega]
    exact ih fun i hle hlt ↦ h i (by omega) (by omega)

theorem Visits.exists_cons (h : Visits next start slots stop) (hstart : start ≠ stop) :
    ∃ rest, slots = start :: rest ∧ Visits next (next start) rest stop := by
  cases slots with
  | nil => exact absurd h hstart
  | cons slot rest =>
    obtain ⟨rfl, hrest⟩ := h
    exact ⟨rest, rfl, hrest⟩

theorem Visits.eq_nil (h : Visits next stop slots stop) (hstop : stop ∉ slots) : slots = [] := by
  cases slots with
  | nil => rfl
  | cons slot rest => exact absurd (h.1 ▸ List.mem_cons_self) hstop

end Gnunet.Lib.FreeList
