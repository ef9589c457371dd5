import Mathlib.Data.List.TakeWhile
import Mathlib.Order.Lattice

/-!
# Sorted lists with an unsorted front

A list is ordered if it is a run of entries marked as `front`, in any order, followed by unmarked
entries sorted by `key`.  New unmarked entries are placed behind the marked ones and behind the
entries whose key is not larger; the search for that place may start behind any entry whose key
is not larger.
-/

namespace Gnunet.Lib.ZonedList

open List

variable {α κ : Type*} [LinearOrder κ] {front : α → Bool} {key : α → κ}

def Ordered (front : α → Bool) (key : α → κ) (list : List α) : Prop :=
  list.Pairwise fun x y ↦ front x = true ∨ (front y = false ∧ key x ≤ key y)

def passes (front : α → Bool) (key : α → κ) (entry other : α) : Bool :=
  key other ≤ key entry || front other

def place (front : α → Bool) (key : α → κ) (entry : α) (list : List α) : List α :=
  list.takeWhile (passes front key entry) ++ entry :: list.dropWhile (passes front key entry)

theorem ordered_nil : Ordered front key [] := Pairwise.nil

variable {list : List α} {entry : α}

theorem ordered_of_front (h : ∀ x ∈ list, front x = true) : Ordered front key list :=
  pairwise_of_forall_mem_list fun x hx _ _ ↦ .inl (h x hx)

theorem Ordered.sublist {list' : List α} (h : Ordered front key list) (hsub : list'.Sublist list) :
    Ordered front key list' :=
  Pairwise.sublist hsub h

theorem Ordered.of_cons (h : Ordered front key (entry :: list)) (hentry : front entry = false)
    {other : α} (hother : other ∈ list) :
    front other = false ∧ key entry ≤ key other := by
  have hhead := (pairwise_cons.mp h).1 other hother
  simpa [hentry] using hhead

theorem mem_place {other : α} :
    other ∈ place front key entry list ↔ other = entry ∨ other ∈ list := by
  have hsplit : other ∈ list ↔ other ∈ list.takeWhile (passes front key entry) ∨
      other ∈ list.dropWhile (passes front key entry) := by
    rw [← mem_append, takeWhile_append_dropWhile]
  rw [place, mem_append, mem_cons, hsplit]
  exact or_left_comm

theorem place_perm (entry : α) (list : List α) :
    (place front key entry list).Perm (entry :: list) := by
  have hmiddle : (place front key entry list).Perm (entry ::
      (list.takeWhile (passes front key entry) ++ list.dropWhile (passes front key entry))) :=
    perm_middle
  rwa [takeWhile_append_dropWhile] at hmiddle

theorem Ordered.of_mem_dropWhile {other : α} (h : Ordered front key list)
    (hother : other ∈ list.dropWhile (passes front key entry)) :
    front other = false ∧ key entry ≤ key other := by
  induction list with
  | nil => cases hother
  | cons first rest ih =>
    have hrest : Ordered front key rest := (pairwise_cons.mp h).2
    rw [dropWhile_cons] at hother
    split at hother
    next => exact ih hrest hother
    next hstop =>
      have hfirst : front first = false ∧ key entry < key first := by
        simpa [passes, and_comm] using hstop
      rcases mem_cons.mp hother with rfl | hother
      · exact ⟨hfirst.1, hfirst.2.le⟩
      · have hbehind := h.of_cons hfirst.1 hother
        exact ⟨hbehind.1, hfirst.2.le.trans hbehind.2⟩

theorem Ordered.place (h : Ordered front key list) (hentry : front entry = false) :
    Ordered front key (place front key entry list) := by
  apply pairwise_append.mpr
  refine ⟨h.sublist (takeWhile_sublist _), ?_, ?_⟩
  · apply pairwise_cons.mpr
    refine ⟨fun other hother ↦ .inr (h.of_mem_dropWhile hother), ?_⟩
    exact h.sublist (dropWhile_sublist _)
  · intro x hx y hy
    have hpasses : key x ≤ key entry ∨ front x = true := by
      simpa [passes] using mem_takeWhile_imp hx
    rcases mem_cons.mp hy with rfl | hy
    · rcases hpasses with hle | hfront
      · exact .inr ⟨hentry, hle⟩
      · exact .inl hfront
    · have hbehind := h.of_mem_dropWhile hy
      rcases hpasses with hle | hfront
      · exact .inr ⟨hbehind.1, hle.trans hbehind.2⟩
      · exact .inl hfront

/-- The search may start behind an entry whose key is not larger. -/
theorem Ordered.place_behind {start : α} {before after : List α}
    (h : Ordered front key (before ++ start :: after)) (hentry : front entry = false)
    (hstart : key start ≤ key entry) :
    Ordered front key (before ++ start :: ZonedList.place front key entry after) := by
  obtain ⟨hbefore, hrest, hcross⟩ := pairwise_append.mp h
  obtain ⟨hstart_after, hafter⟩ := pairwise_cons.mp hrest
  apply pairwise_append.mpr
  refine ⟨hbefore, pairwise_cons.mpr ⟨?_, Ordered.place hafter hentry⟩, ?_⟩
  · intro y hy
    rcases mem_place.mp hy with rfl | hy
    · exact .inr ⟨hentry, hstart⟩
    · exact hstart_after y hy
  · intro x hx y hy
    have hx_start := hcross x hx start mem_cons_self
    rcases mem_cons.mp hy with rfl | hy
    · exact hx_start
    rcases mem_place.mp hy with rfl | hy
    · rcases hx_start with hfront | ⟨-, hle⟩
      · exact .inl hfront
      · exact .inr ⟨hentry, hle.trans hstart⟩
    · exact hcross x hx y (mem_cons_of_mem _ hy)

theorem Ordered.exists_split (h : Ordered front key list) :
    ∃ marked sorted, list = marked ++ sorted ∧ (∀ x ∈ marked, front x = true) ∧
      (∀ x ∈ sorted, front x = false) ∧ sorted.Pairwise fun x y ↦ key x ≤ key y := by
  induction list with
  | nil => exact ⟨[], [], rfl, by simp, by simp, Pairwise.nil⟩
  | cons first rest ih =>
    obtain ⟨_, hrest⟩ := pairwise_cons.mp h
    obtain ⟨marked, sorted, rfl, hmarked, hsorted, hpairwise⟩ := ih hrest
    cases hfront : front first with
    | true =>
      refine ⟨first :: marked, sorted, rfl, ?_, hsorted, hpairwise⟩
      exact forall_mem_cons.mpr ⟨hfront, hmarked⟩
    | false =>
      refine ⟨[], first :: (marked ++ sorted), rfl, by simp, ?_, ?_⟩
      · intro x hx
        rcases mem_cons.mp hx with rfl | hx
        · exact hfront
        · exact (h.of_cons hfront hx).1
      · apply pairwise_cons.mpr
        refine ⟨fun x hx ↦ (h.of_cons hfront hx).2, ?_⟩
        exact hrest.imp_of_mem fun {x y} hx hy hxy ↦ by
          have hunmarked := (h.of_cons hfront hx).1
          exact (hxy.resolve_left (by simp [hunmarked])).2

end Gnunet.Lib.ZonedList
