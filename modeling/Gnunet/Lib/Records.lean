import Mathlib.Order.BoundedOrder.Lattice
import Mathlib.Data.List.Basic

/-!
# Records of a history

A history is a list with its newest entry first.  Its largest entry is `⊥` for the empty history,
and its records are the entries that exceeded everything before them.
-/

namespace Gnunet.Lib.Records

open List

variable {α : Type*} [LinearOrder α] [OrderBot α]

def largest (history : List α) : α := history.foldr max ⊥

def records : List α → List α
  | [] => []
  | entry :: older => if largest older < entry then entry :: records older else records older

@[simp] theorem largest_nil : largest ([] : List α) = ⊥ := rfl

@[simp] theorem largest_cons (entry : α) (older : List α) :
    largest (entry :: older) = max entry (largest older) := rfl

variable {history : List α}

theorem le_largest {entry : α} (h : entry ∈ history) : entry ≤ largest history := by
  induction history with
  | nil => cases h
  | cons newest older ih =>
    rcases mem_cons.mp h with rfl | h
    · exact le_max_left _ _
    · exact (ih h).trans (le_max_right _ _)

theorem mem_of_mem_records {entry : α} (h : entry ∈ records history) : entry ∈ history := by
  induction history with
  | nil => cases h
  | cons newest older ih =>
    rw [records] at h
    split at h
    · rcases mem_cons.mp h with rfl | h
      · exact mem_cons_self
      · exact mem_cons_of_mem _ (ih h)
    · exact mem_cons_of_mem _ (ih h)

theorem largest_mem_records (h : ⊥ < largest history) : largest history ∈ records history := by
  induction history with
  | nil => exact absurd h (lt_irrefl _)
  | cons newest older ih =>
    rw [records, largest_cons]
    split
    next hlt =>
      rw [max_eq_left hlt.le]
      exact mem_cons_self
    next hle =>
      rw [largest_cons, max_eq_right (le_of_not_gt hle)] at h
      rw [max_eq_right (le_of_not_gt hle)]
      exact ih h

end Gnunet.Lib.Records
