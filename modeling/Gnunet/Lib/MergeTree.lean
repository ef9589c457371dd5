import Gnunet.Lib.LinkedTree

/-!
# Merging ordered trees

Two ordered trees are merged by putting the one with the larger root somewhere below the other one:
the descent ends at a free place, or it goes on with exchanged roles where the root that comes down
belongs above the one that is there.  Every node that is passed takes notice of what comes below it.
Which child is taken is left open.
-/

namespace Gnunet.Lib.LinkedTree

open Multiset

variable {ι δ γ : Type*}

/-- Merging the second tree into the first gives the third; `absorb` is what a node notices of the
root that comes below it. -/
inductive Merges (above : δ → δ → Prop) (absorb : δ → δ → δ) :
    CellTree ι δ → CellTree ι δ → CellTree ι δ → Prop
  | nil (s : CellTree ι δ) : Merges above absorb .nil s s
  | sink (frame : Frame ι δ) {t s m : CellTree ι δ} {e : δ} : s.rootData = some e →
      above frame.data e → Merges above absorb t s m →
      Merges above absorb (frame.attach t) s ({ frame with data := absorb frame.data e }.attach m)
  | swap {t s m : CellTree ι δ} {d e : δ} : t.rootData = some d → s.rootData = some e →
      ¬ above d e → Merges above absorb s t m → Merges above absorb t s m

variable {above : δ → δ → Prop} {absorb : δ → δ → δ} {t s m : CellTree ι δ}

namespace Merges

section

variable (h : Merges above absorb t s m)
include h

/-- What is not noticed stays as it is: nothing is lost and nothing is doubled. -/
theorem map_entries {f : ι × δ → γ} (hf : ∀ i d e, f (i, absorb d e) = f (i, d)) :
    m.entries.map f = t.entries.map f + s.entries.map f := by
  induction h with
  | nil s => rw [CellTree.entries, map_zero, zero_add]
  | sink frame _ _ _ ih =>
    rw [entries_attach, entries_attach, map_cons, map_cons, map_add,
      map_add, ih, hf, cons_add, add_assoc]
  | swap _ _ _ _ ih => rw [ih, add_comm]

theorem ids_eq : m.ids = t.ids + s.ids :=
  h.map_entries fun _ _ _ ↦ rfl

theorem count_eq : m.count = t.count + s.count := by
  rw [← CellTree.card_ids, h.ids_eq, card_add, CellTree.card_ids, CellTree.card_ids]

theorem above_root (hright : ∀ x d e, above x d → above x (absorb d e)) {x : δ}
    (ht : ∀ d ∈ t.rootData, above x d) (hs : ∀ d ∈ s.rootData, above x d) :
    ∀ d ∈ m.rootData, above x d := by
  induction h with
  | nil s => exact hs
  | sink frame _ _ _ _ =>
    intro d hd
    rw [Frame.rootData_attach] at hd ht
    cases hd
    exact hright _ _ _ (ht _ rfl)
  | swap _ _ _ _ ih => exact ih hs ht

theorem ordered (hleft : ∀ d e x, above d x → above (absorb d e) x)
    (hright : ∀ x d e, above x d → above x (absorb d e))
    (ht : t.Ordered above) (hs : s.Ordered above) : m.Ordered above := by
  induction h with
  | nil s => exact hs
  | sink frame hroot habove hmerges ih =>
    rw [ordered_attach] at ht ⊢
    obtain ⟨hsibling, hsibling', hbelow, ht⟩ := ht
    refine ⟨fun e he ↦ hleft _ _ _ (hsibling e he), hsibling', fun e he ↦ hleft _ _ _ ?_, ih ht hs⟩
    apply hmerges.above_root hright hbelow _ e he
    intro d hd
    rw [hroot] at hd
    cases hd
    exact habove
  | swap _ _ _ _ ih => exact ih hs ht

end

end Merges

end Gnunet.Lib.LinkedTree
