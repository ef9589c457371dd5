import Mathlib.Algebra.BigOperators.Pi
import Mathlib.Tactic.Abel

/-!
# Finite families of queues

A quantity that is defined for lists, such as the length or the multiset of keys, is summed over
a finite family of lists.  Replacing one list changes the sum by the difference for that list.
-/

namespace Gnunet.Lib.QueueFamily

open Function Finset

variable {ι α M : Type*} [Fintype ι] [DecidableEq ι] [AddCommMonoid M]

def total (measure : List α → M) (queues : ι → List α) : M := ∑ i, measure (queues i)

theorem total_update (measure : List α → M) (queues : ι → List α) (i : ι) (queue : List α) :
    total measure (update queues i queue) + measure (queues i) =
      total measure queues + measure queue := by
  have hsplit : ∀ family : ι → List α, total measure family =
      measure (family i) + ∑ j ∈ univ.erase i, measure (family j) := by
    intro family
    exact (add_sum_erase _ _ (mem_univ i)).symm
  have hothers : ∑ j ∈ univ.erase i, measure (update queues i queue j) =
      ∑ j ∈ univ.erase i, measure (queues j) := by
    apply sum_congr rfl
    intro j hj
    rw [update_of_ne (ne_of_mem_erase hj)]
  calc total measure (update queues i queue) + measure (queues i)
      = measure queue + ∑ j ∈ univ.erase i, measure (queues j) + measure (queues i) := by
        rw [hsplit, update_self, hothers]
    _ = measure (queues i) + ∑ j ∈ univ.erase i, measure (queues j) + measure queue := by
        abel
    _ = total measure queues + measure queue := by rw [← hsplit]

end Gnunet.Lib.QueueFamily
