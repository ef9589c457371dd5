import Mathlib.Data.List.TakeWhile

/-!
# Arrays that end with a sentinel

`scanUntil` searches an array for an entry that passes a test and gives up at the first entry
that looks like the end marker.  It agrees with a search of the whole array exactly if an entry
in front of the first marker passes, or none from it on does.
-/

namespace Gnunet.Lib.Sentinel

open List

variable {α : Type*}

def scanUntil (stop test : α → Bool) : List α → Bool
  | [] => false
  | entry :: rest => if stop entry then false else if test entry then true else
      scanUntil stop test rest

theorem scanUntil_eq_any_takeWhile (stop test : α → Bool) (entries : List α) :
    scanUntil stop test entries = (entries.takeWhile fun entry ↦ !stop entry).any test := by
  induction entries with
  | nil => rfl
  | cons entry rest ih =>
    rw [scanUntil, takeWhile_cons]
    cases stop entry <;> cases htest : test entry <;> simp [ih, htest]

theorem all_ne_of_not_mem [DecidableEq α] {mark : α} {text : List α} (h : mark ∉ text) :
    ∀ c ∈ text, decide (c ≠ mark) = true := by
  intro c hc
  rw [decide_eq_true_eq]
  rintro rfl
  exact h hc

theorem takeWhile_ne_append [DecidableEq α] {mark : α} {text : List α} (h : mark ∉ text)
    (rest : List α) : (text ++ mark :: rest).takeWhile (· ≠ mark) = text := by
  rw [takeWhile_append_of_pos (all_ne_of_not_mem h)]
  simp

theorem scanUntil_append_stop (stop test : α → Bool) (entries : List α) {marker : α}
    (hmarker : stop marker = true) :
    scanUntil stop test (entries ++ [marker]) = scanUntil stop test entries := by
  induction entries with
  | nil => simp [scanUntil, hmarker]
  | cons entry rest ih => simp only [cons_append, scanUntil, ih]

theorem scanUntil_map {β : Type*} (stop test : α → Bool) (f : β → α) (entries : List β) :
    scanUntil stop test (entries.map f) = scanUntil (stop ∘ f) (test ∘ f) entries := by
  induction entries with
  | nil => rfl
  | cons entry rest ih => simp only [map_cons, scanUntil, ih, Function.comp_apply]

theorem scanUntil_eq_any_iff (stop test : α → Bool) (entries : List α) :
    scanUntil stop test entries = entries.any test ↔
      (∃ entry ∈ entries.takeWhile (fun entry ↦ !stop entry), test entry = true) ∨
        ∀ entry ∈ entries.dropWhile (fun entry ↦ !stop entry), test entry = false := by
  have hsplit : entries.any test = ((entries.takeWhile fun entry ↦ !stop entry).any test ||
        (entries.dropWhile fun entry ↦ !stop entry).any test) := by
    rw [← any_append, takeWhile_append_dropWhile]
  have hafter : (∀ entry ∈ entries.dropWhile (fun entry ↦ !stop entry), test entry = false) ↔
      (entries.dropWhile fun entry ↦ !stop entry).any test = false := by
    simp
  rw [scanUntil_eq_any_takeWhile, hsplit, ← any_eq_true, hafter]
  cases (entries.takeWhile fun entry ↦ !stop entry).any test <;>
    cases (entries.dropWhile fun entry ↦ !stop entry).any test <;> decide

/-- If every marker passes, nothing from the first marker on passes only if there is none. -/
theorem forall_dropWhile_iff {inside : α → Bool} {passes : α → Prop}
    (hmarker : ∀ entry, inside entry = false → passes entry) {entries : List α} :
    (∀ entry ∈ entries.dropWhile inside, ¬ passes entry) ↔
      ∀ entry ∈ entries, inside entry = true := by
  induction entries with
  | nil => simp
  | cons entry rest ih =>
    cases hinside : inside entry with
    | true => simp [hinside, ih]
    | false =>
      have hpasses := hmarker entry hinside
      simp [hinside, hpasses]

end Gnunet.Lib.Sentinel
