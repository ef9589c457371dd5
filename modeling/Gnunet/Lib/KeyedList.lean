import Mathlib.Data.List.Basic

/-!
# Lists of records with a key

A linked list of records is searched for the first record with a given key, and the record that was
found is changed in place.
-/

namespace Gnunet.Lib.KeyedList

open List

variable {α κ : Type*} [DecidableEq κ] (key : α → κ) {record other : α} {k : κ} {records : List α}

def find (records : List α) (k : κ) : Option α :=
  records.find? fun record ↦ key record = k

def replace (record : α) : List α → List α
  | [] => []
  | head :: records =>
    if key head = key record then record :: records else head :: replace record records

variable {key}

theorem find_cons : find key (record :: records) k =
    if key record = k then some record else find key records k := by
  rw [find, find]
  split_ifs with hkey
  · simp [hkey]
  · simp [hkey]

theorem mem_of_find (h : find key records k = some record) : record ∈ records :=
  mem_of_find?_eq_some h

theorem key_of_find (h : find key records k = some record) : key record = k := by
  have htest := find?_some h
  exact of_decide_eq_true htest

theorem find_eq_none_iff : find key records k = none ↔ ∀ record ∈ records, key record ≠ k := by
  rw [find, find?_eq_none]
  simp only [decide_eq_true_eq]

theorem mem_replace (h : other ∈ replace key record records) :
    other = record ∨ other ∈ records := by
  induction records with
  | nil => cases h
  | cons head records ih =>
    rw [replace] at h
    split_ifs at h
    · rcases mem_cons.mp h with heq | hmem
      · exact Or.inl heq
      · exact Or.inr (mem_cons_of_mem _ hmem)
    · rcases mem_cons.mp h with heq | hmem
      · exact Or.inr (heq ▸ mem_cons_self)
      · exact (ih hmem).imp_right (mem_cons_of_mem _)

theorem find_replace_of_ne (h : key record ≠ k) :
    find key (replace key record records) k = find key records k := by
  induction records with
  | nil => rfl
  | cons head records ih =>
    rw [replace]
    split_ifs with hkey
    · rw [find_cons, find_cons, if_neg h, if_neg (hkey ▸ h)]
    · rw [find_cons, find_cons, ih]

theorem find_replace_self (h : find key records (key record) = some other) :
    find key (replace key record records) (key record) = some record := by
  induction records with
  | nil => cases h
  | cons head records ih =>
    rw [replace]
    split_ifs with hkey
    · rw [find_cons, if_pos rfl]
    · rw [find_cons, if_neg hkey] at h ⊢
      exact ih h

theorem find_eraseP_of_ne {removed : κ} (h : removed ≠ k) :
    find key (records.eraseP fun record ↦ key record = removed) k = find key records k := by
  induction records with
  | nil => rfl
  | cons head records ih =>
    by_cases hkey : key head = removed
    · rw [eraseP_cons_of_pos (by simp [hkey]), find_cons, if_neg (hkey ▸ h)]
    · rw [eraseP_cons_of_neg (by simp [hkey]), find_cons, find_cons, ih]

end Gnunet.Lib.KeyedList
