import Gnunet.Util.HeapInsertion

/-!
# Removing from a heap

`remove_node` corrects the sizes of the ancestors, takes the node out of the tree and merges the
trees below it with what is left: at the root they become the heap, elsewhere they are put below the
parent of the node.
-/

namespace Gnunet.Util

open Lib.LinkedTree Option Multiset CellTree

variable {α : Type}

namespace Heap

variable {heap heap' : Heap α} {path : List (Frame ℕ (HeapEntry α))}
  {frame : Frame ℕ (HeapEntry α)} {t l r : CellTree ℕ (HeapEntry α)} {node : ℕ}

theorem cell_parent (frame : Frame ℕ (HeapEntry α)) (parent hole : Option ℕ) :
    (frame.cell parent hole).parent = parent := by
  obtain ⟨side, _, _, _⟩ := frame
  cases side with
  | left => rfl
  | right => rfl

theorem decrementAncestors_spec (rounds : ℕ) (h : heap.Layout path t)
    (hnodup : (pathIds path + t.ids).Nodup) (hrounds : path.length ≤ rounds) :
    ∃ heap', decrementAncestors rounds heap (parentId path) = some heap' ∧
      heap'.Layout (path.map decrement) t ∧ Unchanged (pathIds path) heap heap' := by
  induction path generalizing heap t rounds with
  | nil =>
    refine ⟨heap, ?_, h, .refl _ _⟩
    rw [parentId, List.head?_nil, map_none, decrementAncestors]
  | cons frame path ih =>
    cases rounds with
    | zero => exact absurd hrounds (Nat.not_succ_le_zero _)
    | succ rounds =>
      obtain ⟨_, hmodify, hlayout₁, hun₁⟩ := h.modifySize hnodup (· - 1)
      rw [pathIds_cons_add] at hnodup
      obtain ⟨heap₂, hloop, hlayout₂, hun₂⟩ := ih rounds (layout_cons.mp hlayout₁)
        (by rw [ids_attach] at hnodup ⊢; exact hnodup) (Nat.le_of_succ_le_succ hrounds)
      refine ⟨heap₂, ?_, layout_cons.mpr hlayout₂, (hun₁.mono (by simp)).trans (hun₂.mono ?_)⟩
      · have hcell := h.path_stored.1
        rw [parentId, List.head?_cons, map_some, decrementAncestors]
        simp only [bind_eq_bind, hcell, bind_some, hmodify, cell_parent]
        exact hloop
      · intro id hid
        simp [hid]

variable {parent : Option ℕ}

theorem subtractChild_spec (h : heap.Layout (frame :: path) t)
    (hnodup : (pathIds (frame :: path) + t.ids).Nodup) {child : CellTree ℕ (HeapEntry α)}
    (hchild : child.Stored heap.memory parent) :
    ∃ heap', heap.subtractChild frame.id child.rootId = some heap' ∧
      heap'.Layout ({ frame with data := without frame.data child } :: path) t ∧
      Unchanged {frame.id} heap heap' := by
  cases child with
  | nil => exact ⟨heap, rfl, h, .refl _ _⟩
  | node id data left right =>
    obtain ⟨heap₁, hmodify, hlayout₁, hun₁⟩ := h.modifySize hnodup (· - (1 + data.treeSize))
    refine ⟨heap₁, ?_, hlayout₁, hun₁⟩
    have hcell := hchild.1
    rw [rootId, subtractChild]
    simp only [hcell]
    exact hmodify

theorem setParent_root (hl : l.Stored heap.memory parent) (hnode : l.rootId = some node)
    (hnodup : l.ids.Nodup) :
    ∃ heap', ({ heap with root := some node } : Heap α).setParent node none = some heap' ∧
      heap'.Layout [] l ∧ Unchanged l.ids heap heap' := by
  have hl' : l.Stored ({ heap with root := some node } : Heap α).memory parent := hl
  obtain ⟨heap₁, hset, hl₁, hun, hroot⟩ := setParent_spec hl' hnode hnodup none
  refine ⟨heap₁, hset, ⟨trivial, hl₁, ?_⟩, ?_⟩
  · rw [hroot, rootPointer, hnode]
  · have hmem := mem_ids_of_rootId hnode
    exact ⟨fun id hid ↦ hun.memory id fun hin ↦ hid (mem_singleton.mp hin ▸ hmem),
      hun.nextAddress, hun.size, hun.order⟩

theorem promoteChildren_spec (hl : l.Stored heap.memory parent) (hr : r.Stored heap.memory parent)
    (halloc : heap.Allocated (l.ids + r.ids)) :
    ∃ heap' m, heap.promoteChildren l.rootId r.rootId = some heap' ∧ Joins heap.order l r m ∧
      heap'.Layout [] m ∧ Unchanged (l.ids + r.ids) heap heap' := by
  obtain ⟨hlnodup, hrnodup, hdisjoint⟩ := nodup_add.mp halloc.nodup
  cases hleft : l.rootId with
  | none =>
    cases l with
    | node => cases hleft
    | nil =>
      cases hright : r.rootId with
      | none =>
        cases r with
        | node => cases hright
        | nil =>
          exact ⟨_, .nil, rfl, .inl (.nil _), ⟨trivial, trivial, rfl⟩, fun _ _ ↦ rfl, rfl, rfl, rfl⟩
      | some right =>
        obtain ⟨heap', hset, hlayout, hun⟩ := setParent_root hr hright hrnodup
        exact ⟨heap', r, hset, .inl (.nil r), hlayout, hun.mono fun id hid ↦
          mem_add.mpr (.inr hid)⟩
  | some left =>
    cases hright : r.rootId with
    | none =>
      cases r with
      | node => cases hright
      | nil =>
        obtain ⟨heap', hset, hlayout, hun⟩ := setParent_root hl hleft hlnodup
        exact ⟨heap', l, hset, .inr ⟨rfl, rfl⟩, hlayout, hun.mono fun id hid ↦
          mem_add.mpr (.inl hid)⟩
    | some right =>
      have hmeml := mem_ids_of_rootId hleft
      have hmemr := mem_ids_of_rootId hright
      obtain ⟨heap₁, hset₁, hl₁, hun₁, -⟩ := setParent_spec hl hleft hlnodup none
      have hr₁ := hun₁.stored hr (singleton_disjoint.mpr (disjoint_left.mp hdisjoint hmeml))
      obtain ⟨heap₂, hset₂, hr₂, hun₂, -⟩ := setParent_spec hr₁ hright hrnodup none
      have hl₂ := hun₂.stored hl₁ (singleton_disjoint.mpr (disjoint_right.mp hdisjoint hmemr))
      have hun : Unchanged (l.ids + r.ids) heap { heap₂ with root := some left } := by
        have hboth : Unchanged (l.ids + r.ids) heap heap₂ :=
          (hun₁.mono (by simp [hmeml])).trans (hun₂.mono (by simp [hmemr]))
        exact ⟨hboth.memory, hboth.nextAddress, hboth.size, hboth.order⟩
      have hlayout : ({ heap₂ with root := some left } : Heap α).Layout [] l :=
        ⟨trivial, hl₂, by rw [rootPointer, hleft]⟩
      obtain ⟨heap', hinsert, m, hmerges, hlayout', hun'⟩ := insertNode_spec hlayout hr₂ hleft
        hright (by rw [pathIds_nil, zero_add]; exact halloc.unchanged hun)
      rw [hun.order] at hmerges
      rw [pathIds_nil, zero_add] at hun'
      refine ⟨heap', m, ?_, .inl hmerges, hlayout', hun.trans hun'⟩
      rw [promoteChildren]
      simp only [bind_eq_bind, hset₁, bind_some, hset₂]
      exact hinsert

theorem adoptChild_spec {id : ℕ} {data : HeapEntry α} {p child : CellTree ℕ (HeapEntry α)}
    (h : heap.Layout path p) (hid : p.rootId = some id) (hdata : p.rootData = some data)
    (hchild : child.Stored heap.memory parent)
    (habove : ∀ e ∈ child.rootData, heap.order.Above data e)
    (halloc : heap.Allocated (pathIds path + p.ids + child.ids)) :
    ∃ heap' p', heap.adoptChild id child.rootId = some heap' ∧
      Adopts heap.order p child p' ∧ heap'.Layout path p' ∧
      Unchanged (pathIds path + p.ids + child.ids) heap heap' := by
  cases hroot : child.rootId with
  | none =>
    cases child with
    | node => cases hroot
    | nil => exact ⟨heap, _, rfl, .inl ⟨rfl, rfl⟩, h, .refl _ _⟩
  | some c =>
    obtain ⟨e, he⟩ := exists_rootData hroot
    have hmem := mem_ids_of_rootId hroot
    have hparts := halloc.nodup
    rw [nodup_add, disjoint_left] at hparts
    obtain ⟨hpnodup, hcnodup, hdisjoint⟩ := hparts
    obtain ⟨heap₁, hset, hchild₁, hun₁, hroot₁⟩ := setParent_spec hchild hroot hcnodup none
    have hlayout₁ : heap₁.Layout path p := by
      refine h.congr hroot₁ fun i hi ↦ hun₁.memory i fun hin ↦ ?_
      exact hdisjoint hi (mem_singleton.mp hin ▸ hmem)
    cases p with
    | nil => cases hid
    | node i d l r =>
      cases hid
      cases hdata
      have hcons : heap₁.Layout (⟨.left, id, data, r⟩ :: path) l := layout_cons.mpr hlayout₁
      obtain ⟨heap₂, hsubtract, hlayout₂, hun₂⟩ := subtractChild_spec hcons
        (by rw [pathIds_cons_add]; exact hpnodup) hchild₁
      have hin : id ∈ pathIds path + (node id data l r).ids := by simp
      have hchild₂ := hun₂.stored hchild₁ (singleton_disjoint.mpr (hdisjoint hin))
      have hlayout₂' : heap₂.Layout path (.node id (without data child) l r) :=
        layout_cons.mp hlayout₂
      have hids : (node id (without data child) l r).ids = (node id data l r).ids := by
        rw [ids_node, ids_node]
      have hun : Unchanged (pathIds path + (node id data l r).ids + child.ids)
          heap heap₂ :=
        (hun₁.mono (by simp [hmem])).trans (hun₂.mono (by simp))
      obtain ⟨heap', hinsert, m, hmerges, hlayout', hun'⟩ := insertNode_spec hlayout₂' hchild₂ rfl
        hroot (by rw [hids]; exact halloc.unchanged hun)
      rw [hun.order] at hmerges
      rw [hids] at hun'
      refine ⟨heap', m, ?_, adopts_of_merges he (habove e he) hmerges, hlayout', hun.trans hun'⟩
      rw [adoptChild]
      rw [hroot] at hsubtract
      simp only [bind_eq_bind, hset, bind_some, hsubtract]
      exact hinsert

section Removing

variable {id : ℕ} {d : HeapEntry α}

theorem length_le_card_pathIds (path : List (Frame ℕ (HeapEntry α))) :
    path.length ≤ (pathIds path).card := by
  induction path with
  | nil => exact Nat.le_refl 0
  | cons frame path ih =>
    rw [pathIds_cons, card_cons, card_add, List.length_cons]
    omega

theorem Layout.unlink (h : heap.Layout (frame :: path) t) (hid : t.rootId = some id)
    (hnodup : (pathIds (frame :: path) + t.ids).Nodup) :
    ∃ heap', heap.modify frame.id (replaceChild id none) = some heap' ∧
      heap'.Layout (frame :: path) .nil ∧ t.Stored heap'.memory (some frame.id) ∧
      Unchanged {frame.id} heap heap' := by
  have hmem := mem_ids_of_rootId hid
  rw [nodup_add, disjoint_left] at hnodup
  obtain ⟨hpath, -, hdisjoint⟩ := hnodup
  have hsibling : id ∉ frame.sibling.ids := fun hin ↦ hdisjoint (by simp [hin]) hmem
  have hcell := h.path_stored.1
  rw [hid] at hcell
  exact ⟨_, modify_eq hcell (replaceChild_cell frame hsibling (parentId path) none),
    ⟨h.path_stored.update_top hpath frame.data none, trivial, h.root_eq⟩,
    h.stored.update_of_notMem (hdisjoint (by simp)) _, unchanged_update heap _ _ _⟩

theorem adoptChildren_spec (h : heap.Layout (frame :: path) (.node id d l r))
    (halloc : heap.Allocated (pathIds (frame :: path) + (CellTree.node id d l r).ids))
    (hleft : ∀ e ∈ l.rootData, heap.order.Above frame.data e)
    (hright : ∀ e ∈ r.rootData, heap.order.Above frame.data e) :
    ∃ heap' tree, heap.takeOut id (some frame.id) l.rootId r.rootId = some heap' ∧
      Leaves heap.order (frame :: path) l r tree ∧ heap'.Layout [] tree ∧
      Unchanged (pathIds (frame :: path) + (l.ids + r.ids)) heap heap' := by
  obtain ⟨_, hmodify, hlayout₁, hnode₁, hun₁⟩ := h.unlink rfl halloc.nodup
  have hids : pathIds (frame :: path) = pathIds path + (frame.attach .nil).ids := by
    rw [← pathIds_cons_add, ids_nil, add_zero]
  rw [ids_node, add_cons, hids] at halloc
  rw [hids]
  have hrest := halloc.of_le (le_cons_self _ _)
  rw [← add_assoc] at hrest
  obtain ⟨heap₂, p, hadopt₂, hp, hlayout₂, hun₂⟩ := adoptChild_spec (layout_cons.mp hlayout₁)
    (Frame.rootId_attach frame .nil) (Frame.rootData_attach frame .nil) hnode₁.2.1
    (by rw [hun₁.order]; exact hleft) ((hrest.of_le (Multiset.le_add_right _ _)).unchanged hun₁)
  have hun₁₂ : Unchanged (pathIds path + (frame.attach .nil).ids + (l.ids + r.ids)) heap heap₂ := by
    refine (hun₁.mono ?_).trans (hun₂.mono ?_)
    · intro i hi
      rw [mem_singleton] at hi
      rw [hi, ids_attach]
      simp
    · intro i hi
      simp only [mem_add] at hi ⊢
      tauto
  have hr₂ := hun₂.stored hnode₁.2.2 (nodup_add.mp hrest.nodup).2.2
  obtain ⟨heap₃, p', hadopt₃, hp', hlayout₃, hun₃⟩ := adoptChild_spec hlayout₂
    (hp.root_eq.1.trans (Frame.rootId_attach frame .nil))
    (hp.root_eq.2.trans (Frame.rootData_attach frame .nil)) hr₂
    (by rw [hun₁₂.order]; exact hright)
    (by rw [hp.ids_eq, ← add_assoc]; exact hrest.unchanged hun₁₂)
  rw [hun₁.order] at hp
  rw [hun₁₂.order] at hp'
  rw [hp.ids_eq, ← add_assoc, add_assoc] at hun₃
  refine ⟨heap₃, plug path p', ?_, ⟨p, p', hp, hp', rfl⟩, ?_, hun₁₂.trans hun₃⟩
  · rw [takeOut]
    simp only [bind_eq_bind, hmodify, bind_some, hadopt₂]
    exact hadopt₃
  · exact ⟨trivial, stored_plug.mpr ⟨hlayout₃.path_stored, hlayout₃.stored⟩,
      hlayout₃.root_eq.trans rootId_plug.symm⟩

theorem takeOut_spec (h : heap.Layout path (.node id d l r))
    (halloc : heap.Allocated (pathIds path + (CellTree.node id d l r).ids))
    (hleft : ∀ frame ∈ path.head?, ∀ e ∈ l.rootData, heap.order.Above frame.data e)
    (hright : ∀ frame ∈ path.head?, ∀ e ∈ r.rootData, heap.order.Above frame.data e) :
    ∃ heap' tree, heap.takeOut id (parentId path) l.rootId r.rootId = some heap' ∧
      Leaves heap.order path l r tree ∧ heap'.Layout [] tree ∧
      Unchanged (pathIds path + (l.ids + r.ids)) heap heap' := by
  cases path with
  | nil =>
    rw [pathIds_nil, zero_add, ids_node] at halloc
    obtain ⟨heap', m, hpromote, hjoins, hlayout, hun⟩ :=
      promoteChildren_spec h.stored.2.1 h.stored.2.2 (halloc.of_le (le_cons_self _ _))
    rw [pathIds_nil, zero_add]
    exact ⟨heap', m, hpromote, hjoins, hlayout, hun⟩
  | cons frame path =>
    exact adoptChildren_spec h halloc (hleft frame rfl) (hright frame rfl)

theorem subtractChildren_spec (h : heap.Layout path (.node id d l r))
    (hnodup : (pathIds path + (CellTree.node id d l r).ids).Nodup)
    (hsized : Sized (.node id d l r)) :
    ∃ heap₁ heap₂, heap.subtractChild id l.rootId = some heap₁ ∧
      heap₁.subtractChild id r.rootId = some heap₂ ∧
      heap₂.Layout path (.node id { d with treeSize := 0 } l r) ∧ Unchanged {id} heap heap₂ := by
  have hframe (d' : HeapEntry α) : (pathIds (⟨.left, id, d', r⟩ :: path) + l.ids).Nodup := by
    rw [ids_node, add_cons] at hnodup
    rw [pathIds_cons_add, ids_attach, add_cons, add_comm r.ids]
    exact hnodup
  have h₀ : heap.Layout (⟨.left, id, d, r⟩ :: path) l := layout_cons.mpr h
  obtain ⟨heap₁, hfirst, hlayout₁, hun₁⟩ := subtractChild_spec h₀ (hframe d) h₀.stored
  obtain ⟨heap₂, hsecond, hlayout₂, hun₂⟩ := subtractChild_spec hlayout₁ (hframe _)
    hlayout₁.path_stored.2.1
  rw [without_without hsized] at hlayout₂
  exact ⟨heap₁, heap₂, hfirst, hsecond, layout_cons.mp hlayout₂, hun₁.trans hun₂⟩

theorem Layout.clear (h : heap.Layout [] t) (hid : id ∉ t.ids) {left right : Option ℕ}
    (hcell : heap.memory id = some ⟨parent, left, right, d⟩) :
    ∃ heap', (heap.modify id fun cell ↦
        { cell with parent := none, left := none, right := none }) = some heap' ∧
      heap'.Layout [] t ∧ heap'.memory id = some ⟨none, none, none, d⟩ ∧
      Unchanged {id} heap heap' :=
  ⟨_, modify_eq hcell rfl, ⟨trivial, h.stored.update_of_notMem hid _, h.root_eq⟩,
    Function.update_self _ _ _, unchanged_update heap id _ _⟩

/-- The node is detached and holds what it held, and the other nodes form a tree in order. -/
structure Removed (heap : Heap α) (tree : CellTree ℕ (HeapEntry α)) (id : ℕ) (d : HeapEntry α)
    (heap' : Heap α) (tree' : CellTree ℕ (HeapEntry α)) : Prop where
  layout : heap'.Layout [] tree'
  detached : heap'.memory id = some ⟨none, none, none, { d with treeSize := 0 }⟩
  unchanged : Unchanged tree.ids heap heap'
  content_eq : tree.entries.map content = content (id, d) ::ₘ tree'.entries.map content
  ordered : tree'.Ordered heap.order.Above
  sized : Sized tree'

theorem removeNode_spec (h : heap.Layout path (.node id d l r))
    (halloc : heap.Allocated (pathIds path + (CellTree.node id d l r).ids))
    (hordered : (plug path (.node id d l r)).Ordered heap.order.Above)
    (hsized : Sized (plug path (.node id d l r))) :
    ∃ heap' tree, heap.removeNode id = some heap' ∧
      Removed heap (plug path (.node id d l r)) id d heap' tree := by
  have hcell := h.stored.1
  obtain ⟨hpathSized, hnodeSized⟩ := sized_plug.mp hsized
  obtain ⟨hpathOrdered, hnodeOrdered, htop⟩ := ordered_plug.mp hordered
  have hlength : path.length ≤ heap.nextAddress := by
    have hcard := halloc.card_le
    have hle := length_le_card_pathIds path
    rw [card_add] at hcard
    omega
  -- the sizes are corrected
  obtain ⟨_, hancestors, hlayout₁, hun₁⟩ := decrementAncestors_spec _ h halloc.nodup hlength
  obtain ⟨_, heap₃, hsubtract, hsubtract', hlayout₃, hun₃⟩ := subtractChildren_spec hlayout₁
    (by rw [pathIds_decrement]; exact halloc.nodup) hnodeSized
  have hun : Unchanged (pathIds path + (node id d l r).ids) heap heap₃ :=
    (hun₁.mono fun i hi ↦ mem_add.mpr (.inl hi)).trans (hun₃.mono (by simp))
  -- the node is taken out
  have hids : (node id { d with treeSize := 0 } l r).ids = (node id d l r).ids := by
    rw [ids_node, ids_node]
  have habove : ∀ frame ∈ (path.map decrement).head?, ∀ e, heap.order.Above d e →
      heap.order.Above frame.data e := by
    intro frame hframe e he
    cases path with
    | nil => cases hframe
    | cons top path =>
      cases hframe
      exact heap.order.precedes_trans (htop top rfl d rfl) he
  have hleft : ∀ frame ∈ (path.map decrement).head?, ∀ e ∈ l.rootData,
      heap.order.Above frame.data e :=
    fun frame hframe e he ↦ habove frame hframe e (hnodeOrdered.1 e he)
  have hright : ∀ frame ∈ (path.map decrement).head?, ∀ e ∈ r.rootData,
      heap.order.Above frame.data e :=
    fun frame hframe e he ↦ habove frame hframe e (hnodeOrdered.2.1 e he)
  obtain ⟨_, tree, htake, hleaves, hlayout₄, hun₄⟩ := takeOut_spec hlayout₃
    (by rw [pathIds_decrement, hids]; exact halloc.unchanged hun)
    (by rw [hun.order]; exact hleft) (by rw [hun.order]; exact hright)
  rw [hun.order] at hleaves
  rw [pathIds_decrement] at hun₄
  have hcontent : (plug path (.node id d l r)).entries.map content =
      content (id, d) ::ₘ tree.entries.map content := by
    rw [hleaves.content_eq, content_decrement, entries_plug, CellTree.entries, map_add,
      map_cons, map_add, add_cons]
  -- the links of the node are cleared
  rw [ids_node, add_cons] at hun
  have htreeIds : id ::ₘ (pathIds path + (l.ids + r.ids)) = id ::ₘ tree.ids := by
    calc id ::ₘ (pathIds path + (l.ids + r.ids))
        = (plug path (.node id d l r)).ids := by rw [ids_plug, ids_node, add_cons]
      _ = id ::ₘ tree.ids := by
        rw [ids_eq_content, hcontent, map_cons, ← ids_eq_content]
        rfl
  have hnodup := halloc.nodup
  rw [ids_node, add_cons] at hnodup
  have hnot := (nodup_cons.mp hnodup).1
  have hnotTree := (nodup_cons.mp (htreeIds ▸ hnodup)).1
  obtain ⟨heap₅, hclear, hlayout₅, hcell₅, hun₅⟩ := hlayout₄.clear hnotTree
    ((hun₄.memory id hnot).trans hlayout₃.stored.1)
  have hunchanged : Unchanged (id ::ₘ (pathIds path + (l.ids + r.ids))) heap heap₅ :=
    hun.trans ((hun₄.mono fun i hi ↦ mem_cons_of_mem hi).trans (hun₅.mono (by simp)))
  refine ⟨heap₅, tree, ?_, hlayout₅, hcell₅, ?_, hcontent, ?_, ?_⟩
  · rw [parentId_decrement] at htake
    rw [removeNode]
    simp only [bind_eq_bind, hcell, bind_some, hancestors, hsubtract, hsubtract',
      htake, hclear, hcell₅]
    exact if_pos trivial
  · rw [ids_plug, ids_node, add_cons]
    exact hunchanged
  · exact hleaves.ordered (pathOrdered_decrement hpathOrdered) hnodeOrdered.2.2.1
      hnodeOrdered.2.2.2 hleft hright
  · rw [count_node] at hpathSized
    exact hleaves.sized (pathSized_decrement hpathSized) hnodeSized.2.1 hnodeSized.2.2

end Removing

end Heap

end Gnunet.Util
