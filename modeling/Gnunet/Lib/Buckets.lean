import Mathlib.Algebra.BigOperators.Group.Finset.Basic
import Mathlib.Data.List.OfFn

/-!
# Arrays of buckets

The elements of an array of buckets as one multiset.  When every element stands in the bucket that
its index selects, a bucket holds all elements that a test restricted to this index can meet.
-/

namespace Gnunet.Lib.Buckets

open Function Multiset

variable {α : Type*} {n : ℕ} {buckets : ℕ → List α} {index : α → ℕ}

def contents (n : ℕ) (buckets : ℕ → List α) : Multiset α :=
  ∑ i ∈ Finset.range n, (buckets i : Multiset α)

def Placed (index : α → ℕ) (n : ℕ) (buckets : ℕ → List α) : Prop :=
  ∀ i < n, ∀ a ∈ buckets i, index a = i

theorem mem_contents {a : α} : a ∈ contents n buckets ↔ ∃ i < n, a ∈ buckets i := by
  simp only [contents, mem_sum, Finset.mem_range, mem_coe]

@[simp] theorem contents_nil (n : ℕ) : contents n (fun _ ↦ ([] : List α)) = 0 :=
  Finset.sum_const_zero

theorem placed_nil (index : α → ℕ) (n : ℕ) : Placed index n fun _ ↦ [] := by
  intro i _ a ha
  cases ha

variable {i : ℕ} {chain : List α}

theorem coe_le_contents (hi : i < n) : (buckets i : Multiset α) ≤ contents n buckets := by
  rw [contents, ← Finset.add_sum_erase _ _ (Finset.mem_range.mpr hi)]
  exact le_add_right _ _

theorem coe_flatMap_range (n : ℕ) (buckets : ℕ → List α) :
    (((List.range n).flatMap buckets : List α) : Multiset α) = contents n buckets := by
  induction n with
  | zero => rfl
  | succ n ih =>
    rw [List.range_succ, List.flatMap_append, ← coe_add, ih, List.flatMap_singleton]
    exact (Finset.sum_range_succ _ n).symm

theorem contents_update (buckets : ℕ → List α) (hi : i < n) (chain : List α) :
    contents n (update buckets i chain) + (buckets i : Multiset α) =
      contents n buckets + (chain : Multiset α) := by
  have hmem : i ∈ Finset.range n := Finset.mem_range.mpr hi
  have hothers : ∑ j ∈ (Finset.range n).erase i, (update buckets i chain j : Multiset α) =
      ∑ j ∈ (Finset.range n).erase i, (buckets j : Multiset α) := by
    refine Finset.sum_congr rfl fun j hj ↦ ?_
    rw [update_of_ne (Finset.ne_of_mem_erase hj)]
  calc
    contents n (update buckets i chain) + (buckets i : Multiset α) =
        (chain : Multiset α) + ∑ j ∈ (Finset.range n).erase i, (buckets j : Multiset α) +
          (buckets i : Multiset α) := by
      rw [contents, ← Finset.add_sum_erase _ _ hmem, hothers, update_self]
    _ = (buckets i : Multiset α) + ∑ j ∈ (Finset.range n).erase i, (buckets j : Multiset α) +
          (chain : Multiset α) := by
      rw [add_comm, add_comm (chain : Multiset α), add_assoc]
    _ = contents n buckets + (chain : Multiset α) := by
      rw [contents, ← Finset.add_sum_erase _ _ hmem]

theorem add_contents_update (hi : i < n) {old new : Multiset α}
    (hchain : old + (chain : Multiset α) = new + (buckets i : Multiset α)) :
    old + contents n (update buckets i chain) = new + contents n buckets := by
  apply add_right_cancel (b := (buckets i : Multiset α))
  rw [add_assoc, contents_update buckets hi chain, add_left_comm, hchain, add_left_comm,
    ← add_assoc]

theorem contents_update_of_eq_cons (hi : i < n) {a : α}
    (hchain : (chain : Multiset α) = a ::ₘ (buckets i : Multiset α)) :
    contents n (update buckets i chain) = a ::ₘ contents n buckets := by
  rw [← singleton_add] at hchain ⊢
  rw [← add_contents_update hi ((zero_add _).trans hchain), zero_add]

theorem cons_contents_update (hi : i < n) {a : α}
    (hchain : (buckets i : Multiset α) = a ::ₘ (chain : Multiset α)) :
    a ::ₘ contents n (update buckets i chain) = contents n buckets := by
  rw [← singleton_add, add_contents_update hi (hchain.symm.trans (zero_add _).symm), zero_add]

theorem Placed.update (h : Placed index n buckets) (hchain : ∀ a ∈ chain, index a = i) :
    Placed index n (update buckets i chain) := by
  intro j hj a ha
  by_cases hji : j = i
  · rw [hji, update_self] at ha
    rw [hji]
    exact hchain a ha
  · rw [update_of_ne hji] at ha
    exact h j hj a ha

/-- The elements that pass a test are all in one bucket, if the test implies its index. -/
theorem Placed.filter_contents (h : Placed index n buckets) (hi : i < n) {p : α → Prop}
    [DecidablePred p] (hp : ∀ a, p a → index a = i) :
    (contents n buckets).filter p = ((buckets i).filter p : List α) := by
  have hsum : (contents n buckets).filter p =
      ∑ j ∈ Finset.range n, (buckets j : Multiset α).filter p :=
    map_sum (⟨⟨filter p, filter_zero p⟩, filter_add p⟩ :
      Multiset α →+ Multiset α) _ _
  rw [hsum, Finset.sum_eq_single i]
  · exact filter_coe p _
  · intro j hj hji
    rw [filter_eq_nil]
    intro a ha hpa
    exact hji ((h j (Finset.mem_range.mp hj) a ha).symm.trans (hp a hpa))
  · intro hnot
    exact absurd (Finset.mem_range.mpr hi) hnot

def push (index : α → ℕ) (buckets : ℕ → List α) (a : α) : ℕ → List α :=
  update buckets (index a) (a :: buckets (index a))

theorem contents_push (hindex : ∀ a, index a < n) (a : α) :
    contents n (push index buckets a) = a ::ₘ contents n buckets :=
  contents_update_of_eq_cons (hindex a) rfl

theorem Placed.push (h : Placed index n buckets) (a : α) :
    Placed index n (push index buckets a) := by
  intro j hj b hb
  by_cases hji : j = index a
  · rw [Buckets.push, hji, update_self, List.mem_cons] at hb
    rcases hb with rfl | hb
    · exact hji.symm
    · rw [hji]
      exact h (index a) (hji ▸ hj) b hb
  · rw [Buckets.push, update_of_ne hji] at hb
    exact h j hj b hb

theorem contents_foldl_push (hindex : ∀ a, index a < n) (elements : List α) :
    contents n (elements.foldl (push index) buckets) =
      contents n buckets + (elements : Multiset α) := by
  induction elements generalizing buckets with
  | nil => exact (add_zero _).symm
  | cons a elements ih =>
    rw [List.foldl_cons, ih, contents_push hindex, ← cons_coe, add_cons, cons_add]

theorem Placed.foldl_push (h : Placed index n buckets) (elements : List α) :
    Placed index n (elements.foldl (Buckets.push index) buckets) := by
  induction elements generalizing buckets with
  | nil => exact h
  | cons a elements ih => exact ih (h.push a)

end Gnunet.Lib.Buckets
