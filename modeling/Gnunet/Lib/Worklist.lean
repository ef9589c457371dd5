import Mathlib.Data.List.Nodup
import Mathlib.Data.List.Perm.Subperm

/-!
# Exploring a finite graph with a stack

`explore` pops a node, appends those of its successors that were not found before to the list of
found nodes and pushes them.  With one unit of fuel per node it finds exactly what is reachable in
at least one step.
-/

namespace Gnunet.Lib.Worklist

open List

variable {V : Type*} [DecidableEq V] {succ : V → List V} {nodes stack found targets : List V}
  {x y : V}

def absorb : List V → List V → List V → List V × List V
  | [], stack, found => (stack, found)
  | x :: targets, stack, found =>
    if x ∈ found then absorb targets stack found
    else absorb targets (x :: stack) (found ++ [x])

/-- Work off the stack; returns the found nodes in the order of their discovery. -/
def explore (succ : V → List V) : ℕ → List V → List V → List V
  | 0, _, found => found
  | _ + 1, [], found => found
  | fuel + 1, x :: stack, found =>
    let next := absorb (succ x) stack found
    explore succ fuel next.1 next.2

theorem absorb_eq (targets stack found : List V) :
    ∃ new, absorb targets stack found = (new.reverse ++ stack, found ++ new) ∧ new.Nodup ∧
      ∀ y, y ∈ new ↔ y ∈ targets ∧ y ∉ found := by
  induction targets generalizing stack found with
  | nil => exact ⟨[], by simp [absorb], nodup_nil, by simp⟩
  | cons x targets ih =>
    by_cases hx : x ∈ found
    · obtain ⟨new, heq, hnodup, hmem⟩ := ih stack found
      refine ⟨new, by rw [absorb, if_pos hx, heq], hnodup, fun y ↦ ?_⟩
      rw [hmem, mem_cons]
      refine and_congr_left fun hy ↦ (or_iff_right ?_).symm
      rintro rfl
      exact hy hx
    · obtain ⟨new, heq, hnodup, hmem⟩ := ih (x :: stack) (found ++ [x])
      simp only [mem_append, mem_singleton, not_or] at hmem
      have hx' : x ∉ new := fun hin ↦ ((hmem x).mp hin).2.2 rfl
      refine ⟨x :: new, ?_, nodup_cons.mpr ⟨hx', hnodup⟩, fun y ↦ ?_⟩
      · rw [absorb, if_neg hx, heq, reverse_cons, append_assoc, append_assoc]
        rfl
      · rw [mem_cons, hmem]
        by_cases hyx : y = x
        · simp [hyx, hx]
        · simp [hyx]

/-- Between two rounds of an exploration that began at `start`. -/
structure Explored (succ : V → List V) (nodes : List V) (start : V) (stack found : List V) :
    Prop where
  nodup : found.Nodup
  found_sub : found ⊆ nodes
  sound : ∀ y ∈ found, Relation.TransGen (fun a b ↦ b ∈ succ a) start y
  stack_sub : ∀ y ∈ stack, y = start ∨ y ∈ found
  done : ∀ y, y = start ∨ y ∈ found → y ∉ stack → succ y ⊆ found

namespace Explored

variable {start : V}

omit [DecidableEq V] in
theorem initial (succ : V → List V) (nodes : List V) (start : V) :
    Explored succ nodes start [start] [] where
  nodup := nodup_nil
  found_sub := nil_subset _
  sound := by simp
  stack_sub := by simp
  done := by
    intro y hy hstack
    rcases hy with rfl | hy
    · exact absurd (mem_singleton.mpr rfl) hstack
    · exact absurd hy not_mem_nil

theorem round {new : List V} (h : Explored succ nodes start (x :: stack) found)
    (hnodes : ∀ y, y = start ∨ y ∈ nodes → succ y ⊆ nodes) (hnew : new.Nodup)
    (hmem : ∀ y, y ∈ new ↔ y ∈ succ x ∧ y ∉ found) :
    Explored succ nodes start (new.reverse ++ stack) (found ++ new) where
  nodup := h.nodup.append hnew fun y hy hin ↦ ((hmem y).mp hin).2 hy
  found_sub := by
    refine append_subset.mpr ⟨h.found_sub, fun y hy ↦ hnodes x ?_ ((hmem y).mp hy).1⟩
    exact (h.stack_sub x mem_cons_self).imp_right fun hx ↦ h.found_sub hx
  sound := by
    refine forall_mem_append.mpr ⟨h.sound, fun y hy ↦ ?_⟩
    rcases h.stack_sub x mem_cons_self with rfl | hx
    · exact Relation.TransGen.single ((hmem y).mp hy).1
    · exact (h.sound x hx).tail ((hmem y).mp hy).1
  stack_sub := by
    intro y hy
    rw [mem_append] at hy ⊢
    rcases hy with hy | hy
    · exact .inr (.inr (mem_reverse.mp hy))
    · exact (h.stack_sub y (mem_cons_of_mem _ hy)).imp_right .inl
  done := by
    intro y hy hstack z hz
    rw [mem_append, mem_reverse, not_or] at hstack
    rw [mem_append] at hy ⊢
    by_cases hyx : y = x
    · by_cases hfound : z ∈ found
      · exact .inl hfound
      · exact .inr ((hmem z).mpr ⟨hyx ▸ hz, hfound⟩)
    · have hnot : y ∉ x :: stack := by
        rw [mem_cons, not_or]
        exact ⟨hyx, hstack.2⟩
      exact .inl (h.done y (hy.imp_right (Or.resolve_right · hstack.1)) hnot hz)

end Explored

/-- An exploration with enough fuel ends with an empty stack. -/
theorem explored_explore {start : V} (hnodes : ∀ y, y = start ∨ y ∈ nodes → succ y ⊆ nodes)
    (fuel : ℕ) (h : Explored succ nodes start stack found)
    (hfuel : stack.length + nodes.length ≤ fuel + found.length) :
    Explored succ nodes start [] (explore succ fuel stack found) := by
  induction fuel generalizing stack found with
  | zero =>
    have hlen := (subperm_of_subset h.nodup h.found_sub).length_le
    have hempty : stack = [] := length_eq_zero_iff.mp (by omega)
    subst hempty
    exact h
  | succ fuel ih =>
    cases stack with
    | nil => exact h
    | cons x stack =>
      obtain ⟨new, heq, hnew, hmem⟩ := absorb_eq (succ x) stack found
      rw [explore, heq]
      refine ih (h.round hnodes hnew hmem) ?_
      simp only [length_cons, length_append, length_reverse] at hfuel ⊢
      omega

/-- The nodes found from `start` are those reachable in at least one step. -/
theorem mem_explore {start : V} (hnodes : ∀ y, y = start ∨ y ∈ nodes → succ y ⊆ nodes) :
    y ∈ explore succ (nodes.length + 1) [start] [] ↔
      Relation.TransGen (fun a b ↦ b ∈ succ a) start y := by
  have h := explored_explore hnodes (nodes.length + 1) (.initial succ nodes start)
    (by simp [Nat.add_comm])
  constructor
  · exact h.sound y
  · intro hreach
    induction hreach with
    | single hstep => exact h.done start (.inl rfl) not_mem_nil hstep
    | tail _ hstep ih => exact h.done _ (.inr ih) not_mem_nil hstep

end Gnunet.Lib.Worklist
