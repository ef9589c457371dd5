import Mathlib.Data.List.Induction

/-!
# Contests

A list is searched for its best element by comparing each element with the best one so far. The
comparison need not be an order, so that the winner may depend on the order of the list.
-/

namespace Gnunet.Lib.Contest

open List

variable {α : Type*} (beats : α → α → Prop) [DecidableRel beats] {good : α → Prop}
  {l before after : List α} {a g w : α}

def challenge : Option α → α → α
  | none, a => a
  | some b, a => if beats a b then a else b

def winner (l : List α) : Option α := l.foldl (fun best a ↦ some (challenge beats best a)) none

theorem winner_concat (l : List α) (a : α) :
    winner beats (l ++ [a]) = some (challenge beats (winner beats l) a) := by
  rw [winner, winner, foldl_append, foldl_cons, foldl_nil]

theorem exists_split (h : winner beats l = some w) :
    ∃ before after, l = before ++ w :: after ∧ ∀ z ∈ after, ¬ beats z w := by
  induction l using reverseRecOn with
  | nil => cases h
  | append_singleton l a ih =>
    rw [winner_concat, Option.some.injEq] at h
    cases hbest : winner beats l with
    | none =>
      rw [hbest, challenge] at h
      exact ⟨l, [], by rw [h], by simp⟩
    | some b =>
      rw [hbest, challenge] at h
      split_ifs at h
      · exact ⟨l, [], by rw [h], by simp⟩
      · obtain ⟨before, after, hl, hafter⟩ := ih (hbest.trans (congrArg some h))
        refine ⟨before, after ++ [a], by rw [hl]; simp, fun z hz ↦ ?_⟩
        rcases mem_append.mp hz with hz | hz
        · exact hafter z hz
        · rwa [mem_singleton.mp hz, ← h]

/-- Elements that are not good lose against good ones, and whoever cannot beat a good element cannot
beat one that resisted it. -/
theorem good_winner (hgood : ∀ b ∈ before, ¬ good b → beats g b)
    (htrans : ∀ b ∈ before, good b → ¬ beats g b → ∀ z ∈ after, ¬ beats z g → ¬ beats z b)
    (hg : good g) (hafter : ∀ z ∈ after, ¬ beats z g) :
    ∃ w, winner beats (before ++ g :: after) = some w ∧ good w := by
  obtain ⟨w, hw, hgoodW, hlast⟩ : ∃ w, winner beats (before ++ [g]) = some w ∧ good w ∧
      ∀ z ∈ after, ¬ beats z w := by
    rw [winner_concat]
    refine ⟨_, rfl, ?_⟩
    cases hbest : winner beats before with
    | none => exact ⟨hg, hafter⟩
    | some b =>
      obtain ⟨_, _, hsplit, -⟩ := exists_split beats hbest
      have hb : b ∈ before := by simp [hsplit]
      rw [challenge]
      split_ifs with hbeats
      · exact ⟨hg, hafter⟩
      · have hgoodB : good b := by_contra fun hbad ↦ hbeats (hgood b hb hbad)
        exact ⟨hgoodB, fun z hz ↦ htrans b hb hgoodB hbeats z hz (hafter z hz)⟩
  refine ⟨w, ?_, hgoodW⟩
  have hkeep : ∀ rest : List α, (∀ z ∈ rest, ¬ beats z w) →
      rest.foldl (fun best a ↦ some (challenge beats best a)) (some w) = some w := by
    intro rest hrest
    induction rest with
    | nil => rfl
    | cons z rest ih =>
      rw [forall_mem_cons] at hrest
      rw [foldl_cons, challenge, if_neg hrest.1]
      exact ih hrest.2
  rw [winner, append_cons, foldl_append, ← winner, hw]
  exact hkeep after hlast

end Gnunet.Lib.Contest
