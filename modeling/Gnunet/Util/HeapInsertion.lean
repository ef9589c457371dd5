import Gnunet.Util.HeapTrees
import Mathlib.Data.Multiset.Range

/-!
# Inserting into a heap

`insert_node` merges a detached tree into the tree at a position.  The lemmas follow its steps: the
size of the node at the position is changed, the detached tree is put in a free place, or it takes
the place of the tree at the position.
-/

namespace Gnunet.Util

open Lib.LinkedTree Function Multiset Option CellTree

variable {α : Type}

namespace Heap

structure Layout (heap : Heap α) (path : List (Frame ℕ (HeapEntry α)))
    (tree : CellTree ℕ (HeapEntry α)) : Prop where
  path_stored : PathStored heap.memory path tree.rootId
  stored : tree.Stored heap.memory (parentId path)
  root_eq : heap.root = rootPointer path tree.rootId

structure Unchanged (ids : Multiset ℕ) (heap heap' : Heap α) : Prop where
  memory : ∀ id, id ∉ ids → heap'.memory id = heap.memory id
  nextAddress : heap'.nextAddress = heap.nextAddress
  size : heap'.size = heap.size
  order : heap'.order = heap.order

variable {heap heap' heap'' : Heap α} {path : List (Frame ℕ (HeapEntry α))}
  {frame : Frame ℕ (HeapEntry α)} {tree t s : CellTree ℕ (HeapEntry α)} {ids ids' : Multiset ℕ}
  {node pos : ℕ} {parent : Option ℕ} {e : HeapEntry α}

theorem Unchanged.refl (ids : Multiset ℕ) (heap : Heap α) : Unchanged ids heap heap :=
  ⟨fun _ _ ↦ rfl, rfl, rfl, rfl⟩

theorem Unchanged.trans (h : Unchanged ids heap heap') (h' : Unchanged ids heap' heap'') :
    Unchanged ids heap heap'' :=
  ⟨fun id hid ↦ (h'.memory id hid).trans (h.memory id hid), h'.nextAddress.trans h.nextAddress,
    h'.size.trans h.size, h'.order.trans h.order⟩

theorem Unchanged.mono (h : Unchanged ids heap heap') (hsub : ∀ id ∈ ids, id ∈ ids') :
    Unchanged ids' heap heap' :=
  ⟨fun id hid ↦ h.memory id fun hmem ↦ hid (hsub id hmem), h.nextAddress, h.size, h.order⟩

theorem Unchanged.stored (h : Unchanged ids heap heap') (hs : s.Stored heap.memory parent)
    (hids : Disjoint ids s.ids) : s.Stored heap'.memory parent :=
  hs.congr fun id hid ↦ h.memory id fun hin ↦ disjoint_left.mp hids hin hid

structure Allocated (heap : Heap α) (ids : Multiset ℕ) : Prop where
  nodup : ids.Nodup
  lt_next : ∀ id ∈ ids, id < heap.nextAddress

theorem Allocated.of_le (h : heap.Allocated ids) (hle : ids' ≤ ids) : heap.Allocated ids' :=
  ⟨nodup_of_le hle h.nodup, fun id hid ↦ h.lt_next id (mem_of_le hle hid)⟩

theorem Allocated.unchanged (h : heap.Allocated ids) (hun : Unchanged ids' heap heap') :
    heap'.Allocated ids :=
  ⟨h.nodup, hun.nextAddress ▸ h.lt_next⟩

theorem Allocated.card_le (h : heap.Allocated ids) : ids.card ≤ heap.nextAddress := by
  have hle : ids ≤ range heap.nextAddress :=
    (le_iff_subset h.nodup).mpr fun id hid ↦ mem_range.mpr (h.lt_next id hid)
  have hcard := card_le_card hle
  rw [card_range] at hcard
  exact hcard

theorem layout_cons : heap.Layout (frame :: path) tree ↔ heap.Layout path (frame.attach tree) := by
  constructor
  · intro ⟨⟨hcell, hsibling, hpath⟩, htree, hroot⟩
    refine ⟨?_, stored_attach frame |>.mpr ⟨hcell, hsibling, htree⟩, ?_⟩
    · rw [Frame.rootId_attach]
      exact hpath
    · rw [Frame.rootId_attach]
      exact hroot
  · intro ⟨hpath, hstored, hroot⟩
    rw [Frame.rootId_attach] at hpath hroot
    obtain ⟨hcell, hsibling, htree⟩ := (stored_attach frame).mp hstored
    exact ⟨⟨hcell, hsibling, hpath⟩, htree, hroot⟩

theorem modify_eq {cell cell' : HeapNode α} {change : HeapNode α → HeapNode α}
    (h : heap.memory node = some cell) (hchange : change cell = cell') :
    heap.modify node change =
      some { heap with memory := update heap.memory node (some cell') } := by
  rw [modify, h, map_some, hchange]

theorem unchanged_update (heap : Heap α) (node : ℕ) (cell : Option (HeapNode α)) (root : Option ℕ) :
    Unchanged {node} heap { heap with
      memory := update heap.memory node cell, root := root } :=
  ⟨fun _ hid ↦ update_of_ne (fun heq ↦ hid (mem_singleton.mpr heq)) _ _, rfl, rfl, rfl⟩

theorem setParent_spec (h : s.Stored heap.memory parent) (hnode : s.rootId = some node)
    (hnodup : s.ids.Nodup) (parent' : Option ℕ) :
    ∃ heap', heap.setParent node parent' = some heap' ∧ s.Stored heap'.memory parent' ∧
      Unchanged {node} heap heap' ∧ heap'.root = heap.root := by
  cases s with
  | nil => cases hnode
  | node id data left right =>
    cases hnode
    exact ⟨_, modify_eq h.1 rfl, h.update_root hnodup parent' data, unchanged_update heap node _ _,
      rfl⟩

theorem Layout.congr (h : heap.Layout path t) (hroot : heap'.root = heap.root)
    (hsame : ∀ id ∈ pathIds path + t.ids, heap'.memory id = heap.memory id) :
    heap'.Layout path t :=
  ⟨h.path_stored.congr fun id hid ↦ hsame id (mem_add.mpr (.inl hid)),
    h.stored.congr fun id hid ↦ hsame id (mem_add.mpr (.inr hid)), hroot.trans h.root_eq⟩

theorem Layout.modifySize (h : heap.Layout (frame :: path) t)
    (hnodup : (pathIds (frame :: path) + t.ids).Nodup) (change : UInt32 → UInt32) :
    ∃ heap', heap.modifySize frame.id change = some heap' ∧
      heap'.Layout ({ frame with data := { frame.data with
        treeSize := change frame.data.treeSize } } :: path) t ∧
      Unchanged {frame.id} heap heap' := by
  rw [nodup_add, disjoint_left] at hnodup
  have hid : frame.id ∉ t.ids := hnodup.2.2 (by simp)
  have htop := h.path_stored.update_top hnodup.1
    { frame.data with treeSize := change frame.data.treeSize } t.rootId
  refine ⟨_, modify_eq h.path_stored.1 ?_, ⟨htop, h.stored.update_of_notMem hid _, h.root_eq⟩,
    unchanged_update heap frame.id _ _⟩
  rw [Frame.cell]
  cases frame.side with
  | left => rfl
  | right => rfl

def setChild (side : Side) (child : Option ℕ) (cell : HeapNode α) : HeapNode α :=
  match side with
  | .left => { cell with left := child }
  | .right => { cell with right := child }

theorem setChild_cell (frame : Frame ℕ (HeapEntry α)) (parent hole hole' : Option ℕ) :
    setChild frame.side hole' (frame.cell parent hole) = frame.cell parent hole' := by
  obtain ⟨side, _, _, _⟩ := frame
  cases side with
  | left => rfl
  | right => rfl

section

variable (hs : s.Stored heap.memory none)
include hs

theorem Layout.fill (h : heap.Layout (frame :: path) .nil)
    (hnode : s.rootId = some node) (hnodup : (pathIds (frame :: path) + s.ids).Nodup) :
    ∃ heap', ((heap.modify frame.id (setChild frame.side (some node))).bind fun heap ↦
        heap.setParent node (some frame.id)) = some heap' ∧
      heap'.Layout (frame :: path) s ∧ Unchanged (frame.id ::ₘ {node}) heap heap' := by
  rw [nodup_add, disjoint_left] at hnodup
  have hid : frame.id ∉ s.ids := hnodup.2.2 (by simp)
  have hmem : node ∈ s.ids := mem_ids_of_rootId hnode
  have htop := h.path_stored.update_top hnodup.1 frame.data (some node)
  have hfirst := modify_eq h.path_stored.1 (setChild_cell frame (parentId path) none (some node))
  have hs' : s.Stored ({ heap with
      memory := update heap.memory frame.id
        (some (frame.cell (parentId path) (some node))) } : Heap α).memory none :=
    hs.update_of_notMem hid _
  obtain ⟨heap', hset, hs', hunchanged, hroot⟩ := setParent_spec hs' hnode hnodup.2.1
    (some frame.id)
  rw [hfirst]
  refine ⟨heap', hset, ⟨?_, hs', hroot.trans h.root_eq⟩, ?_⟩
  · rw [hnode]
    refine htop.congr fun id hid ↦ hunchanged.memory id fun hin ↦ ?_
    rw [mem_singleton] at hin
    exact hnodup.2.2 (hin ▸ hid) hmem
  · exact ((unchanged_update heap frame.id _ _).mono (by simp)).trans (hunchanged.mono (by simp))

omit hs in
theorem replaceChild_cell (frame : Frame ℕ (HeapEntry α)) (hpos : pos ∉ frame.sibling.ids)
    (parent hole : Option ℕ) :
    replaceChild pos hole (frame.cell parent (some pos)) = frame.cell parent hole := by
  obtain ⟨side, _, _, sibling⟩ := frame
  cases side with
  | left => exact if_pos rfl
  | right =>
    have hne : sibling.rootId ≠ some pos := fun heq ↦ hpos (mem_ids_of_rootId heq)
    exact if_neg hne

theorem Layout.takePlace (h : heap.Layout path t)
    (hpos : t.rootId = some pos) (hnode : s.rootId = some node)
    (hnodup : (pathIds path + t.ids + s.ids).Nodup) :
    ∃ heap', heap.takePlace pos node (parentId path) = some heap' ∧ heap'.Layout path s ∧
      t.Stored heap'.memory none ∧ Unchanged (pathIds path + t.ids + s.ids) heap heap' := by
  have hmemt := mem_ids_of_rootId hpos
  have hmems := mem_ids_of_rootId hnode
  simp only [nodup_add, disjoint_left, mem_add] at hnodup
  obtain ⟨⟨hpath, ht, hpt⟩, hsnodup, hpts⟩ := hnodup
  obtain ⟨heap₁, hset₁, ht₁, hun₁, hroot₁⟩ := setParent_spec h.stored hpos ht none
  have hs₁ := hun₁.stored hs (singleton_disjoint.mpr (hpts (.inr hmemt)))
  obtain ⟨heap₂, hset₂, hs₂, hun₂, hroot₂⟩ := setParent_spec hs₁ hnode hsnodup (parentId path)
  have ht₂ := hun₂.stored ht₁ (singleton_disjoint.mpr fun hin ↦ hpts (.inr hin) hmems)
  have hpath₂ : PathStored heap₂.memory path (some pos) := by
    rw [← hpos]
    refine h.path_stored.congr fun id hid ↦ (hun₂.memory id fun hin ↦ ?_).trans
      (hun₁.memory id fun hin ↦ ?_)
    · rw [mem_singleton] at hin
      exact hpts (.inl hid) (hin ▸ hmems)
    · rw [mem_singleton] at hin
      exact hpt hid (hin ▸ hmemt)
  have hun : Unchanged (pathIds path + t.ids + s.ids) heap heap₂ :=
    (hun₁.mono (by simp [hmemt])).trans (hun₂.mono (by simp [hmems]))
  rw [Heap.takePlace, hset₁]
  simp only [bind_eq_bind, bind_some, hset₂]
  cases path with
  | nil =>
    refine ⟨_, rfl, ⟨trivial, hs₂, ?_⟩, ht₂, hun.memory, hun.nextAddress, hun.size, hun.order⟩
    rw [hnode]
    rfl
  | cons frame path =>
    have htop : frame.id ∈ pathIds (frame :: path) := by simp
    have hsibling : pos ∉ frame.sibling.ids := fun hin ↦ hpt (by simp [hin]) hmemt
    have hmodify := modify_eq hpath₂.1
      (replaceChild_cell frame hsibling (parentId path) (some node))
    refine ⟨_, hmodify, ⟨?_, hs₂.update_of_notMem (hpts (.inl htop)) _, ?_⟩,
      ht₂.update_of_notMem (hpt htop) _, hun.trans ((unchanged_update heap₂ _ _ _).mono ?_)⟩
    · rw [hnode]
      exact hpath₂.update_top hpath frame.data (some node)
    · exact hroot₂.trans (hroot₁.trans h.root_eq)
    · simp

/-- The trees are merged at the position, and nothing else changes. -/
def Inserted (heap : Heap α) (path : List (Frame ℕ (HeapEntry α))) (t s : CellTree ℕ (HeapEntry α))
    (heap' : Heap α) : Prop :=
  ∃ m, Merges heap.order.Above HeapEntry.absorb t s m ∧ heap'.Layout path m ∧
    Unchanged (pathIds path + t.ids + s.ids) heap heap'

theorem Layout.sink (h : heap.Layout (frame :: path) t)
    (hnodup : (pathIds (frame :: path) + t.ids + s.ids).Nodup) (e : HeapEntry α) :
    ∃ heap', heap.modifySize frame.id (· + (1 + e.treeSize)) = some heap' ∧
      heap'.Layout ({ frame with data := frame.data.absorb e } :: path) t ∧
      s.Stored heap'.memory none ∧ Unchanged {frame.id} heap heap' := by
  rw [nodup_add, disjoint_left] at hnodup
  obtain ⟨heap', hmodify, hlayout, hunchanged⟩ := h.modifySize hnodup.1 (· + (1 + e.treeSize))
  have hid : frame.id ∈ pathIds (frame :: path) + t.ids := by simp
  exact ⟨heap', hmodify, hlayout,
    hunchanged.stored hs (singleton_disjoint.mpr (hnodup.2.2 hid)), hunchanged⟩

omit hs in
theorem pathIds_cons_add (frame : Frame ℕ (HeapEntry α)) (path : List (Frame ℕ (HeapEntry α)))
    (t : CellTree ℕ (HeapEntry α)) :
    pathIds (frame :: path) + t.ids = pathIds path + (frame.attach t).ids := by
  rw [pathIds_cons, ids_attach, cons_add, add_cons]
  congr 1
  abel

omit hs in
theorem Inserted.sink (hunchanged : Unchanged {frame.id} heap heap')
    (he : s.rootData = some e) (habove : heap.order.Above frame.data e)
    (h : Inserted heap' ({ frame with data := frame.data.absorb e } :: path) t s heap'') :
    Inserted heap path (frame.attach t) s heap'' := by
  obtain ⟨m, hmerges, hlayout, hunchanged'⟩ := h
  rw [hunchanged.order] at hmerges
  have hids : pathIds ({ frame with data := frame.data.absorb e } :: path) =
      pathIds (frame :: path) := by
    rw [pathIds_cons, pathIds_cons]
  rw [hids, pathIds_cons_add] at hunchanged'
  refine ⟨_, .sink frame he habove hmerges, layout_cons.mp hlayout,
    (hunchanged.mono fun id hid ↦ ?_).trans hunchanged'⟩
  rw [mem_singleton] at hid
  rw [hid, ids_attach]
  simp

def LoopSpec (α : Type) (rounds : ℕ) : Prop :=
  ∀ (heap : Heap α) (path : List (Frame ℕ (HeapEntry α))) (t s : CellTree ℕ (HeapEntry α))
    (pos node : ℕ) (d e : HeapEntry α), heap.Layout path t → s.Stored heap.memory none →
    t.rootId = some pos → s.rootId = some node → t.rootData = some d → s.rootData = some e →
    (pathIds path + t.ids + s.ids).Nodup →
    (2 * (t.count + s.count) ≤ rounds ∨
      heap.order.Above d e ∧ 2 * (t.count + s.count) ≤ rounds + 1) →
    ∃ heap', insertLoop rounds heap pos node = some heap' ∧ Inserted heap path t s heap'

variable {rounds : ℕ}

theorem insertLoop_attach (h : heap.Layout (frame :: path) .nil)
    (hnode : s.rootId = some node) (he : s.rootData = some e)
    (hnodup : (pathIds (frame :: path) + (.nil : CellTree ℕ (HeapEntry α)).ids + s.ids).Nodup)
    (habove : heap.order.Above frame.data e) :
    ∃ heap', ((heap.modifySize frame.id (· + (1 + e.treeSize))).bind fun heap ↦
        (heap.modify frame.id (setChild frame.side (some node))).bind fun heap ↦
          heap.setParent node (some frame.id)) = some heap' ∧
      Inserted heap path (frame.attach .nil) s heap' := by
  obtain ⟨_, hmodify, hlayout₁, hs₁, hun₁⟩ := h.sink hs hnodup e
  rw [ids_nil, add_zero] at hnodup
  have hids : pathIds ({ frame with data := frame.data.absorb e } :: path) =
      pathIds (frame :: path) := by
    rw [pathIds_cons, pathIds_cons]
  obtain ⟨heap₂, hfill, hlayout₂, hun₂⟩ := hlayout₁.fill hs₁ hnode (by rw [hids]; exact hnodup)
  refine ⟨heap₂, by rw [hmodify]; exact hfill, .sink hun₁ he habove ⟨s, .nil s, hlayout₂, ?_⟩⟩
  exact hun₂.mono (by simp [mem_ids_of_rootId hnode])

/-- A round in which the node at the position stays above the other tree. -/
theorem insertLoop_above (ih : LoopSpec α rounds) {d : HeapEntry α}
    {left right : CellTree ℕ (HeapEntry α)} (h : heap.Layout path (.node pos d left right))
    (hnode : s.rootId = some node) (he : s.rootData = some e)
    (hnodup : (pathIds path + (CellTree.node pos d left right).ids + s.ids).Nodup)
    (habove : heap.order.Above d e)
    (hcount : 2 * ((CellTree.node pos d left right).count + s.count) ≤ rounds + 2) :
    ∃ heap', insertLoop (rounds + 1) heap pos node = some heap' ∧
      Inserted heap path (.node pos d left right) s heap' := by
  have hposCell := h.stored.1
  obtain ⟨_, _, hnodeCell⟩ := hs.root_cell hnode he
  have habove' : heap.order.Precedes d.cost e.cost := habove
  rw [count_node] at hcount
  rw [insertLoop]
  simp only [bind_eq_bind, hposCell, hnodeCell, bind_some]
  rw [if_pos habove']
  -- the same tree, as seen from its left and its right child
  have hleft : heap.Layout (⟨.left, pos, d, right⟩ :: path) left := layout_cons.mpr h
  have hright : heap.Layout (⟨.right, pos, d, left⟩ :: path) right := layout_cons.mpr h
  have hnodupLeft : (pathIds (⟨.left, pos, d, right⟩ :: path) + left.ids + s.ids).Nodup := by
    rw [pathIds_cons_add]
    exact hnodup
  have hnodupRight : (pathIds (⟨.right, pos, d, left⟩ :: path) + right.ids + s.ids).Nodup := by
    rw [pathIds_cons_add]
    exact hnodup
  cases left with
  | nil => exact insertLoop_attach hs hleft hnode he hnodupLeft habove
  | node i dl ll lr =>
    cases right with
    | nil => exact insertLoop_attach hs hright hnode he hnodupRight habove
    | node j dr rl rr =>
      obtain ⟨heap₁, hmodify, hlayout₁, hs₁, hun₁⟩ := hleft.sink hs hnodupLeft e
      have hmodify' : heap.modifySize pos (· + (1 + e.treeSize)) = some heap₁ := hmodify
      simp only [hmodify', rootId]
      have hboth : heap₁.Layout path
          (.node pos (d.absorb e) (.node i dl ll lr) (.node j dr rl rr)) :=
        layout_cons.mp hlayout₁
      have hlayout₂ : heap₁.Layout (⟨.right, pos, d.absorb e, .node i dl ll lr⟩ :: path)
          (.node j dr rl rr) := layout_cons.mpr hboth
      have hleftCell := hlayout₁.stored.1
      have hrightCell := hlayout₂.stored.1
      rw [count_node] at hcount
      simp only [hleftCell, hrightCell, bind_some]
      split_ifs
      · obtain ⟨heap', hloop, hinserted⟩ := ih heap₁ _ _ s i node dl e hlayout₁ hs₁ rfl hnode rfl he
          (by rw [pathIds_cons] at hnodupLeft ⊢; exact hnodupLeft) (.inl (by
            rw [count_node]
            omega))
        exact ⟨heap', hloop, .sink hun₁ he habove hinserted⟩
      · obtain ⟨heap', hloop, hinserted⟩ := ih heap₁ _ _ s j node dr e hlayout₂ hs₁ rfl hnode rfl he
          (by rw [pathIds_cons] at hnodupRight ⊢; exact hnodupRight) (.inl (by omega))
        have hun₂ : Unchanged {(⟨.right, pos, d, .node i dl ll lr⟩ :
            Frame ℕ (HeapEntry α)).id} heap heap₁ := hun₁
        exact ⟨heap', hloop, .sink hun₂ he habove hinserted⟩

/-- A round in which the other tree takes the place of the one at the position. -/
theorem insertLoop_below (ih : LoopSpec α rounds) {d : HeapEntry α} (h : heap.Layout path t)
    (hpos : t.rootId = some pos) (hnode : s.rootId = some node)
    (hd : t.rootData = some d) (he : s.rootData = some e)
    (hnodup : (pathIds path + t.ids + s.ids).Nodup) (hbelow : ¬ heap.order.Above d e)
    (hcount : 2 * (t.count + s.count) ≤ rounds + 1) :
    ∃ heap', insertLoop (rounds + 1) heap pos node = some heap' ∧ Inserted heap path t s heap' := by
  obtain ⟨heap₁, htake, hlayout₁, ht₁, hun₁⟩ := h.takePlace hs hpos hnode hnodup
  have hperm : pathIds path + s.ids + t.ids = pathIds path + t.ids + s.ids := by abel
  obtain ⟨heap', hloop, m, hmerges, hlayout', hun'⟩ := ih heap₁ path s t node pos e d hlayout₁ ht₁
    hnode hpos he hd (hperm ▸ hnodup) (.inr ⟨by
      rw [hun₁.order]
      exact (heap.order.precedes_total d.cost e.cost).resolve_left hbelow, by omega⟩)
  rw [hun₁.order] at hmerges
  rw [hperm] at hun'
  refine ⟨heap', ?_, m, .swap hd he hbelow hmerges, hlayout', hun₁.trans hun'⟩
  obtain ⟨_, _, hposCell⟩ := h.stored.root_cell hpos hd
  obtain ⟨_, _, hnodeCell⟩ := hs.root_cell hnode he
  have hbelow' : ¬ heap.order.Precedes d.cost e.cost := hbelow
  rw [insertLoop]
  simp only [bind_eq_bind, hposCell, hnodeCell, bind_some]
  rw [if_neg hbelow', htake]
  exact hloop

omit hs in
theorem insertLoop_spec (rounds : ℕ) : LoopSpec α rounds := by
  induction rounds with
  | zero =>
    intro heap path t s pos node d e _ _ hpos hnode _ _ _ hcount
    have ht : 0 < t.count := count_pos_of_rootId hpos
    omega
  | succ rounds ih =>
    intro heap path t s pos node d e h hs hpos hnode hd he hnodup hcount
    by_cases habove : heap.order.Above d e
    · cases t with
      | nil => cases hpos
      | node id data left right =>
        cases hpos
        cases hd
        exact insertLoop_above hs ih h hnode he hnodup habove (by omega)
    · apply insertLoop_below hs ih h hpos hnode hd he hnodup habove
      exact hcount.resolve_right fun hcount ↦ habove hcount.1

end

theorem insertNode_spec (h : heap.Layout path t) (hs : s.Stored heap.memory none)
    (hpos : t.rootId = some pos) (hnode : s.rootId = some node)
    (halloc : heap.Allocated (pathIds path + t.ids + s.ids)) :
    ∃ heap', heap.insertNode pos node = some heap' ∧ Inserted heap path t s heap' := by
  obtain ⟨d, hd⟩ := exists_rootData hpos
  obtain ⟨e, he⟩ := exists_rootData hnode
  obtain ⟨_, _, hnodeCell⟩ := hs.root_cell hnode he
  rw [insertNode]
  simp only [hnodeCell]
  refine insertLoop_spec _ heap path t s pos node d e h hs hpos hnode hd he halloc.nodup (.inl ?_)
  have hcard := halloc.card_le
  rw [card_add, card_add, card_ids, card_ids] at hcard
  omega

/-- Whatever the costs are, `insert_node` ends, after at most two rounds for each node. -/
theorem insertNode_terminates (h : heap.Layout path t) (hs : s.Stored heap.memory none)
    (hpos : t.rootId = some pos) (hnode : s.rootId = some node)
    (halloc : heap.Allocated (pathIds path + t.ids + s.ids)) :
    (∃ heap', heap.insertNode pos node = some heap') ∧
      ∀ rounds, 2 * (t.count + s.count) ≤ rounds →
        ∃ heap', insertLoop rounds heap pos node = some heap' := by
  obtain ⟨d, hd⟩ := exists_rootData hpos
  obtain ⟨e, he⟩ := exists_rootData hnode
  constructor
  · obtain ⟨heap', hinsert, -⟩ := insertNode_spec h hs hpos hnode halloc
    exact ⟨heap', hinsert⟩
  · intro rounds hrounds
    obtain ⟨heap', hloop, -⟩ := insertLoop_spec rounds heap path t s pos node d e h hs hpos hnode
      hd he halloc.nodup (.inl hrounds)
    exact ⟨heap', hloop⟩

/-- A heap of three nodes, and a node with a child that comes below the root. -/
def nestedHeap : Heap Unit where
  memory
    | 0 => some ⟨none, some 1, some 2, ⟨(), 1, 2⟩⟩
    | 1 => some ⟨some 0, none, none, ⟨(), 5, 0⟩⟩
    | 2 => some ⟨some 0, none, none, ⟨(), 7, 0⟩⟩
    | 3 => some ⟨none, some 4, none, ⟨(), 4, 1⟩⟩
    | 4 => some ⟨some 3, none, none, ⟨(), 6, 0⟩⟩
    | _ => none
  nextAddress := 5
  root := some 0
  size := 5
  order := .min

/-- After the descent to the right child, the roles are exchanged: the child is inserted below the
node. -/
theorem insertNode_terminates_nested :
    (∃ heap', nestedHeap.insertNode 0 3 = some heap') ∧
      (∀ rounds, 10 ≤ rounds → ∃ heap', insertLoop rounds nestedHeap 0 3 = some heap') ∧
      (insertLoop 3 nestedHeap 0 3).map (fun heap' ↦
        ((heap'.memory 0).map Cell.right, (heap'.memory 3).map Cell.right)) =
          some (some (some 3), some (some 2)) := by
  have htree : nestedHeap.Layout [] (.node 0 ⟨(), 1, 2⟩ (.node 1 ⟨(), 5, 0⟩ .nil .nil)
      (.node 2 ⟨(), 7, 0⟩ .nil .nil)) :=
    ⟨trivial, ⟨rfl, ⟨rfl, trivial, trivial⟩, rfl, trivial, trivial⟩, rfl⟩
  have hnode : (CellTree.node 3 ⟨(), 4, 1⟩ (.node 4 ⟨(), 6, 0⟩ .nil .nil) .nil).Stored
      nestedHeap.memory none :=
    ⟨rfl, ⟨rfl, trivial, trivial⟩, trivial⟩
  obtain ⟨hinsert, hrounds⟩ := insertNode_terminates htree hnode rfl rfl ⟨by decide, by decide⟩
  exact ⟨hinsert, hrounds, rfl⟩

end Heap

end Gnunet.Util
