import Mathlib.Data.List.Basic
import Mathlib.Algebra.Order.Group.Nat

/-!
# Lists cut into chunks

The concatenation of a list of chunks is addressed by the offsets at which the chunks start.
Offsets of existing chunks do not change when further chunks are added at the end.
-/

namespace Gnunet.Lib.Chunks

open List Nat

variable {α : Type*} {chunks more : List (List α)} {chunk : List α} {i j : ℕ}

def offset (chunks : List (List α)) (i : ℕ) : ℕ := (chunks.take i).flatten.length

@[simp] theorem offset_zero (chunks : List (List α)) : offset chunks 0 = 0 := rfl

theorem offset_succ (h : chunks[i]? = some chunk) :
    offset chunks (i + 1) = offset chunks i + chunk.length := by
  rw [offset, take_add_one, h]
  simp [offset]

theorem offset_length (chunks : List (List α)) :
    offset chunks chunks.length = chunks.flatten.length := by
  rw [offset, take_length]

theorem offset_append (hi : i ≤ chunks.length) : offset (chunks ++ more) i = offset chunks i := by
  rw [offset, offset, take_append_of_le_length hi]

theorem offset_append_add (chunks more : List (List α)) (n : ℕ) :
    offset (chunks ++ more) (chunks.length + n) = chunks.flatten.length + offset more n := by
  rw [offset, take_length_add_append, flatten_append, length_append, offset]

theorem offset_mono (h : i ≤ j) : offset chunks i ≤ offset chunks j := by
  have hsplit : chunks.take i = (chunks.take j).take i := by
    rw [take_take, min_eq_left h]
  have hflatten := congrArg flatten (take_append_drop i (chunks.take j))
  rw [flatten_append] at hflatten
  rw [offset, offset, hsplit, ← hflatten, length_append]
  exact le_add_right _ _

theorem offset_disjoint {position : ℕ} (hij : i ≠ j) (hlow : offset chunks i ≤ position)
    (hhigh : position < offset chunks (i + 1)) :
    position < offset chunks j ∨ offset chunks (j + 1) ≤ position := by
  rcases lt_or_gt_of_ne hij with hlt | hgt
  · exact .inl (lt_of_lt_of_le hhigh (offset_mono hlt))
  · exact .inr ((offset_mono hgt).trans hlow)

theorem offset_le (chunks : List (List α)) (i : ℕ) : offset chunks i ≤ chunks.flatten.length := by
  rcases le_total i chunks.length with hi | hi
  · exact offset_length chunks ▸ offset_mono hi
  · rw [offset, take_of_length_le hi]

theorem offset_add_le {bound : ℕ} (h : ∀ chunk ∈ chunks, chunk.length ≤ bound) (i n : ℕ) :
    offset chunks (i + n) ≤ offset chunks i + n * bound := by
  induction n with
  | zero => simp
  | succ n ih =>
    have hnext : offset chunks (i + n + 1) ≤ offset chunks (i + n) + bound := by
      cases hchunk : chunks[i + n]? with
      | some chunk =>
        rw [offset_succ hchunk]
        exact Nat.add_le_add_left (h chunk (mem_of_getElem? hchunk)) _
      | none =>
        have hlength := getElem?_eq_none_iff.mp hchunk
        rw [offset, offset, take_of_length_le (by omega), take_of_length_le hlength]
        exact le_add_right _ _
    rw [← add_assoc, succ_mul]
    omega

theorem getElem?_flatten (h : chunks[i]? = some chunk) (hj : j < chunk.length) :
    chunks.flatten[offset chunks i + j]? = chunk[j]? := by
  obtain ⟨hi, rfl⟩ := List.getElem?_eq_some_iff.mp h
  have hsplit : chunks.flatten =
      (chunks.take i).flatten ++ (chunks[i] ++ (chunks.drop (i + 1)).flatten) := by
    conv_lhs => rw [← take_append_drop i chunks, drop_eq_getElem_cons hi]
    rw [flatten_append, flatten_cons]
  rw [hsplit, offset, getElem?_append_right (Nat.le_add_right _ _), Nat.add_sub_cancel_left,
    getElem?_append_left hj]

theorem exists_chunk_of_lt {first n position : ℕ} (hlow : offset chunks first ≤ position)
    (hhigh : position < offset chunks (first + n)) :
    ∃ k < n, offset chunks (first + k) ≤ position ∧
      position < offset chunks (first + k + 1) := by
  induction n with
  | zero => exact absurd hhigh (not_lt.mpr hlow)
  | succ n ih =>
    rcases lt_or_ge position (offset chunks (first + n)) with hlt | hge
    · obtain ⟨k, hk, hin⟩ := ih hlt
      exact ⟨k, lt_succ_of_lt hk, hin⟩
    · exact ⟨n, lt_succ_self n, hge, hhigh⟩

theorem take_append_map_range {list : List α} {entry : ℕ → α} {start n : ℕ}
    (h : ∀ i < n, list[start + i]? = some (entry i)) :
    list.take start ++ (range n).map entry = list.take (start + n) := by
  induction n with
  | zero => simp
  | succ n ih =>
    have hprefix := ih fun i hi ↦ h i (lt_succ_of_lt hi)
    rw [range_succ, map_append, ← append_assoc, hprefix, ← add_assoc,
      take_add_one, h n (lt_succ_self n)]
    rfl

end Gnunet.Lib.Chunks
