import Gnunet.Util.HeapRemoval

/-!
# The operations of a heap

`Holds` says that the nodes of a heap form a tree whose links, order and sizes are right.  Every
call keeps it and changes the contents of the heap in the way that is asked for, so that it holds
after every sequence of calls.
-/

namespace Gnunet.Util

open Lib.LinkedTree Lib.Runs Function Multiset Option UInt32

variable {α : Type}

namespace Heap

/-- The nodes of the heap are those of the tree, and the tree is in order. -/
structure Holds (heap : Heap α) (tree : CellTree ℕ (HeapEntry α)) : Prop where
  layout : heap.Layout [] tree
  nodup : tree.ids.Nodup
  allocated : ∀ id ∈ tree.ids, id < heap.nextAddress
  others_free : ∀ id, id ∉ tree.ids → heap.memory id = none
  ordered : tree.Ordered heap.order.Above
  sized : Sized tree
  size_eq : heap.size = ofNat tree.count

abbrev Contents (α : Type) := Multiset (ℕ × α × UInt64)

def contents (tree : CellTree ℕ (HeapEntry α)) : Contents α := tree.entries.map content

def Extremal (order : HeapOrder) (contents : Contents α) (entry : ℕ × α × UInt64) : Prop :=
  entry ∈ contents ∧ ∀ other ∈ contents, order.Precedes entry.2.2 other.2.2

/-- What is asked for by a call, with its result and the contents before and after it. -/
def Requested (order : HeapOrder) : Operation α → Result α → Contents α → Contents α → Prop
  | .insert element cost, .node node, before, after =>
    (∀ entry ∈ before, entry.1 ≠ node) ∧ after = (node, element, cost) ::ₘ before
  | .removeRoot, .element none, before, after => before = 0 ∧ after = 0
  | .removeRoot, .element (some element), before, after =>
    ∃ node cost, Extremal order before (node, element, cost) ∧
      before = (node, element, cost) ::ₘ after
  | .removeNode node, .element (some element), before, after =>
    ∃ cost, before = (node, element, cost) ::ₘ after
  | .updateCost node newCost, .void, before, after => ∃ element cost rest,
      before = (node, element, cost) ::ₘ rest ∧ after = (node, element, newCost) ::ₘ rest
  | _, _, _, _ => False

/-- An element of extremal cost, if there is any. -/
def Peeked (order : HeapOrder) : Option α → Contents α → Prop
  | none, contents => contents = 0
  | some element, contents => ∃ node cost, Extremal order contents (node, element, cost)

variable {heap heap' : Heap α} {tree tree' l r : CellTree ℕ (HeapEntry α)} {id : ℕ}
  {d : HeapEntry α}

theorem ids_eq_contents (tree : CellTree ℕ (HeapEntry α)) :
    tree.ids = (contents tree).map Prod.fst := ids_eq_content tree

variable {element : α} {cost : UInt64}

theorem ids_of_contents (h : contents tree = (id, element, cost) ::ₘ contents tree') :
    tree.ids = id ::ₘ tree'.ids := by
  rw [ids_eq_contents, h, map_cons, ← ids_eq_contents]

theorem count_of_contents (h : contents tree = (id, element, cost) ::ₘ contents tree') :
    tree.count = tree'.count + 1 := by
  rw [← CellTree.card_ids, ids_of_contents h, card_cons, CellTree.card_ids]

section

variable (h : heap.Holds tree)
include h

theorem Holds.isSome_iff :
    (heap.memory id).isSome = true ↔ id ∈ tree.ids := by
  constructor
  · intro hsome
    by_contra hid
    rw [h.others_free id hid] at hsome
    cases hsome
  · exact h.layout.stored.isSome

omit h in
theorem create_holds (order : HeapOrder) : (create order : Heap α).Holds .nil where
  layout := ⟨trivial, trivial, rfl⟩
  nodup := nodup_zero
  allocated := fun _ hid ↦ absurd hid (notMem_zero _)
  others_free := fun _ _ ↦ rfl
  ordered := trivial
  sized := trivial
  size_eq := rfl

omit h in
theorem Holds.root_extremal (h : heap.Holds (.node id d l r)) :
    Extremal heap.order (contents (.node id d l r)) (id, d.element, d.cost) := by
  have hroot : content (id, d) ∈ contents (.node id d l r) :=
    mem_map_of_mem content (mem_cons_self _ _)
  refine ⟨hroot, fun other hother ↦ ?_⟩
  obtain ⟨⟨i, e⟩, hentry, rfl⟩ := mem_map.mp hother
  have hrefl : heap.order.Above d d := (heap.order.precedes_total d.cost d.cost).elim (·) (·)
  refine h.ordered.rel_of_mem heap.order.above_trans (fun e he ↦ ?_) hentry
  cases he
  exact hrefl

theorem Holds.peek_spec : Peeked heap.order heap.peek (contents tree) := by
  have hroot := h.layout.root_eq
  cases tree with
  | nil =>
    rw [peek, hroot]
    rfl
  | node i d l r =>
    have hroot' : heap.root = some i := hroot
    have hcell := h.layout.stored.1
    rw [peek, hroot', bind_some, hcell]
    exact ⟨i, d.cost, h.root_extremal⟩

omit h in
theorem attachNode_spec (h : heap.Layout [] tree) (hordered : tree.Ordered heap.order.Above)
    (hsized : Sized tree) (hcell : heap.memory id = some ⟨none, none, none, ⟨element, cost, 0⟩⟩)
    (halloc : heap.Allocated (id ::ₘ tree.ids))
    (hfree : ∀ i, i ∉ id ::ₘ tree.ids → heap.memory i = none)
    (hsize : heap.size = ofNat (tree.count + 1)) :
    ∃ heap' tree', heap.attachNode id = some heap' ∧ heap'.Holds tree' ∧
      heap'.order = heap.order ∧ contents tree' = (id, element, cost) ::ₘ contents tree := by
  -- the node as a tree
  obtain ⟨leaf, hleaf⟩ : ∃ leaf : CellTree ℕ (HeapEntry α),
      leaf = .node id ⟨element, cost, 0⟩ .nil .nil := ⟨_, rfl⟩
  have hstored : leaf.Stored heap.memory none := hleaf ▸ ⟨hcell, trivial, trivial⟩
  have hids : leaf.ids = {id} := by
    rw [hleaf]
    rfl
  have hleafOrdered : leaf.Ordered heap.order.Above := by
    rw [hleaf]
    exact ⟨fun _ he ↦ absurd he (by simp [CellTree.rootData]),
      fun _ he ↦ absurd he (by simp [CellTree.rootData]), trivial, trivial⟩
  have hleafSized : Sized leaf := hleaf ▸ ⟨rfl, trivial, trivial⟩
  have hunion : tree.ids + leaf.ids = id ::ₘ tree.ids := by
    rw [hids, add_comm, singleton_add]
  suffices hmerge : ∃ heap' tree', heap.attachNode id = some heap' ∧ heap'.Layout [] tree' ∧
      Merges heap.order.Above HeapEntry.absorb tree leaf tree' ∧
      Unchanged (id ::ₘ tree.ids) heap heap' by
    obtain ⟨heap', tree', hattach, hlayout, hmerges, hun⟩ := hmerge
    have hcontents : contents tree' = (id, element, cost) ::ₘ contents tree := by
      rw [contents, content_of_merges hmerges, hleaf, add_comm]
      rfl
    have hids := ids_of_contents hcontents
    have halloc' := hids ▸ halloc.unchanged hun
    refine ⟨heap', tree', hattach, ⟨hlayout, halloc'.nodup, halloc'.lt_next, fun i hi ↦ ?_, ?_,
      sized_of_merges hmerges hsized hleafSized, ?_⟩, hun.order, hcontents⟩
    · rw [hids] at hi
      rw [hun.memory i hi, hfree i hi]
    · rw [hun.order]
      exact ordered_of_merges hmerges hordered hleafOrdered
    · rw [hun.size, hsize, count_of_contents hcontents]
  have hroot := h.root_eq
  rw [attachNode, hroot]
  cases hpos : tree.rootId with
  | none =>
    cases tree with
    | node => cases hpos
    | nil =>
      exact ⟨_, leaf, rfl, ⟨trivial, hstored, hleaf ▸ rfl⟩, .nil leaf, fun _ _ ↦ rfl, rfl, rfl, rfl⟩
  | some pos =>
    obtain ⟨heap', hinsert, m, hmerges, hlayout, hun⟩ := insertNode_spec h hstored hpos
      (show leaf.rootId = some id from hleaf ▸ rfl)
      (by rw [pathIds_nil, zero_add, hunion]; exact halloc)
    rw [pathIds_nil, zero_add, hunion] at hun
    exact ⟨heap', m, hinsert, hlayout, hmerges, hun⟩

theorem Holds.insert (element : α) (cost : UInt64) :
    ∃ heap' tree', heap.insert element cost = some (heap.nextAddress, heap') ∧
      heap'.Holds tree' ∧ heap'.order = heap.order ∧ heap.nextAddress ∉ tree.ids ∧
      contents tree' = (heap.nextAddress, element, cost) ::ₘ contents tree := by
  have hnew : heap.nextAddress ∉ tree.ids := fun hid ↦
    Nat.lt_irrefl _ (h.allocated _ hid)
  obtain ⟨start, hstart⟩ : ∃ start : Heap α, start = { heap with
      memory := update heap.memory heap.nextAddress
        (some ⟨none, none, none, ⟨element, cost, 0⟩⟩)
      nextAddress := heap.nextAddress + 1
      size := heap.size + 1 } := ⟨_, rfl⟩
  have hlayout : start.Layout [] tree := by
    rw [hstart]
    exact ⟨trivial, h.layout.stored.update_of_notMem hnew _, h.layout.root_eq⟩
  have horder : start.order = heap.order := hstart ▸ rfl
  have halloc : start.Allocated (heap.nextAddress ::ₘ tree.ids) := by
    refine ⟨nodup_cons.mpr ⟨hnew, h.nodup⟩, fun i hi ↦ ?_⟩
    rw [hstart]
    rcases mem_cons.mp hi with rfl | hi
    · exact Nat.lt_succ_self _
    · exact Nat.lt_succ_of_lt (h.allocated i hi)
  have hfree : ∀ i, i ∉ heap.nextAddress ::ₘ tree.ids → start.memory i = none := by
    intro i hi
    rw [mem_cons, not_or] at hi
    rw [hstart]
    exact (update_of_ne hi.1 _ _).trans (h.others_free i hi.2)
  have hsize : start.size = ofNat (tree.count + 1) := by
    rw [hstart, ofNat_add, ← h.size_eq]
    rfl
  obtain ⟨heap', tree', hattach, hholds, horder', hcontents⟩ :=
    attachNode_spec hlayout (horder ▸ h.ordered) h.sized
      (show start.memory heap.nextAddress = _ by rw [hstart]; exact update_self _ _ _) halloc hfree
      hsize
  refine ⟨heap', tree', ?_, hholds, horder'.trans horder, hnew, hcontents⟩
  rw [Heap.insert, ← hstart, hattach]
  cases tree' with
  | nil => exact absurd hcontents zero_ne_cons
  | node i e left right =>
    have hroot : heap'.root = some i := hholds.layout.root_eq
    have hassert : heap'.size = e.treeSize + 1 := by
      rw [hholds.size_eq, ← hholds.sized.one_add_root rfl, UInt32.add_comm]
    simp only [bind_eq_bind, bind_some, hroot, hholds.layout.stored.1]
    exact if_pos hassert

theorem Holds.free (hlayout : heap'.Layout [] tree')
    (hcontents : contents tree = content (id, d) ::ₘ contents tree')
    (hun : Unchanged tree.ids { heap with size := heap.size - 1 } heap')
    (hordered : tree'.Ordered heap.order.Above) (hsized : Sized tree') :
    (heap'.free id).Holds tree' := by
  have hids := ids_of_contents hcontents
  have hnodup := h.nodup
  rw [hids, nodup_cons] at hnodup
  have hmem {i : ℕ} (hi : i ∈ tree'.ids) : i ∈ tree.ids := hids ▸ mem_cons_of_mem hi
  refine ⟨⟨trivial, hlayout.stored.update_of_notMem hnodup.1 _, hlayout.root_eq⟩, hnodup.2,
    fun i hi ↦ (h.allocated i (hmem hi)).trans_eq hun.nextAddress.symm, fun i hi ↦ ?_, ?_, hsized,
    ?_⟩
  · by_cases heq : i = id
    · rw [heq]
      exact update_self _ _ _
    · have hi' : i ∉ tree.ids := by
        rw [hids, mem_cons, not_or]
        exact ⟨heq, hi⟩
      exact (update_of_ne heq _ _).trans ((hun.memory i hi').trans (h.others_free i hi'))
  · have horder : (heap'.free id).order = heap.order := hun.order
    rw [horder]
    exact hordered
  · have hsize : (heap'.free id).size = heap.size - 1 := hun.size
    rw [hsize, h.size_eq, count_of_contents hcontents, ofNat_add]
    exact UInt32.add_sub_cancel _ _

omit h in
theorem Holds.removeRoot (h : heap.Holds (.node id d l r)) :
    ∃ heap' tree', heap.removeRoot = some (some d.element, heap') ∧ heap'.Holds tree' ∧
      heap'.order = heap.order ∧
      contents (.node id d l r) = content (id, d) ::ₘ contents tree' := by
  have hroot : heap.root = some id := h.layout.root_eq
  obtain ⟨hcell, hl, hr⟩ := h.layout.stored
  have halloc : ({ heap with size := heap.size - 1 } : Heap α).Allocated
      (CellTree.node id d l r).ids := ⟨h.nodup, h.allocated⟩
  rw [CellTree.ids_node] at halloc
  have hl' : l.Stored ({ heap with size := heap.size - 1 } : Heap α).memory (some id) := hl
  obtain ⟨heap', tree', hpromote, hjoins, hlayout, hun⟩ := promoteChildren_spec hl' hr
    (halloc.of_le (le_cons_self _ _))
  have hcontents : contents (.node id d l r) = content (id, d) ::ₘ contents tree' := by
    rw [contents, contents, hjoins.content_eq, CellTree.entries, map_cons, map_add]
  refine ⟨heap'.free id, tree', ?_, h.free hlayout hcontents (hun.mono fun i hi ↦ ?_)
    (hjoins.ordered h.ordered.2.2.1 h.ordered.2.2.2) (hjoins.sized h.sized.2.1 h.sized.2.2),
    hun.order, hcontents⟩
  · rw [hroot] at hpromote
    rw [Heap.removeRoot, hroot]
    simp only [bind_eq_bind, hcell, bind_some, hpromote]
  · rw [CellTree.ids_node]
    exact mem_cons_of_mem hi

theorem Holds.removeNode (hid : id ∈ tree.ids) :
    ∃ d heap' tree', heap.removeNode id = some heap' ∧ Removed heap tree id d heap' tree' := by
  obtain ⟨path, d, l, r, rfl⟩ := exists_plug hid
  have hstored := stored_plug.mp h.layout.stored
  have hlayout : heap.Layout path (.node id d l r) :=
    ⟨hstored.1, hstored.2, h.layout.root_eq.trans rootId_plug⟩
  obtain ⟨heap', tree', hremove, hremoved⟩ :=
    removeNode_spec hlayout (ids_plug _ _ ▸ ⟨h.nodup, h.allocated⟩) h.ordered h.sized
  exact ⟨d, heap', tree', hremove, hremoved⟩

theorem Holds.heapRemoveNode (hid : id ∈ tree.ids) :
    ∃ d heap' tree', heap.heapRemoveNode id = some (d.element, heap') ∧ heap'.Holds tree' ∧
      heap'.order = heap.order ∧ contents tree = content (id, d) ::ₘ contents tree' := by
  obtain ⟨d, heap₁, tree', hremove, hremoved⟩ := h.removeNode hid
  have hun : Unchanged tree.ids { heap with size := heap.size - 1 }
      { heap₁ with size := heap₁.size - 1 } :=
    ⟨hremoved.unchanged.memory, hremoved.unchanged.nextAddress,
      congrArg (· - 1) hremoved.unchanged.size, hremoved.unchanged.order⟩
  have hlayout : ({ heap₁ with size := heap₁.size - 1 } : Heap α).Layout [] tree' :=
    ⟨trivial, hremoved.layout.stored, hremoved.layout.root_eq⟩
  refine ⟨d, _, tree', ?_, h.free hlayout hremoved.content_eq hun hremoved.ordered hremoved.sized,
    hremoved.unchanged.order, hremoved.content_eq⟩
  rw [Heap.heapRemoveNode, hremove]
  simp only [bind_eq_bind, bind_some, hremoved.detached]

theorem Holds.updateCost (hid : id ∈ tree.ids) (newCost : UInt64) :
    ∃ (d : HeapEntry α) (heap' : Heap α) (rest tree' : CellTree ℕ (HeapEntry α)),
      heap.updateCost id newCost = some heap' ∧ heap'.Holds tree' ∧
      heap'.order = heap.order ∧ contents tree = content (id, d) ::ₘ contents rest ∧
      contents tree' = (id, d.element, newCost) ::ₘ contents rest := by
  obtain ⟨d, heap₁, rest, hremove, hremoved⟩ := h.removeNode hid
  have hids := ids_of_contents hremoved.content_eq
  have hnodup := h.nodup
  rw [hids, nodup_cons] at hnodup
  obtain ⟨heap₂, hheap₂⟩ : ∃ heap₂ : Heap α, heap₂ = { heap₁ with
      memory := update heap₁.memory id
        (some ⟨none, none, none, ⟨d.element, newCost, 0⟩⟩) } := ⟨_, rfl⟩
  have hmodify : (heap₁.modify id fun cell ↦
      { cell with data := { cell.data with cost := newCost } }) = some heap₂ := by
    rw [hheap₂]
    exact modify_eq hremoved.detached rfl
  have hun₂ : Unchanged tree.ids heap heap₂ := by
    refine hremoved.unchanged.trans ?_
    rw [hheap₂]
    refine (unchanged_update heap₁ id _ _).mono fun i hi ↦ ?_
    rw [mem_singleton.mp hi]
    exact hid
  have hlayout₂ : heap₂.Layout [] rest := by
    rw [hheap₂]
    exact ⟨trivial, hremoved.layout.stored.update_of_notMem hnodup.1 _, hremoved.layout.root_eq⟩
  have hcell₂ : heap₂.memory id = some ⟨none, none, none, ⟨d.element, newCost, 0⟩⟩ := by
    rw [hheap₂]
    exact update_self _ _ _
  have hfree₂ : ∀ i, i ∉ tree.ids → heap₂.memory i = none := fun i hi ↦
    (hun₂.memory i hi).trans (h.others_free i hi)
  have hsize₂ : heap₂.size = ofNat (rest.count + 1) := by
    rw [hun₂.size, h.size_eq, count_of_contents hremoved.content_eq]
  obtain ⟨heap', tree', hattach, hholds, horder, hcontents⟩ :=
    attachNode_spec hlayout₂ (by rw [hun₂.order]; exact hremoved.ordered) hremoved.sized hcell₂
      (hids ▸ Allocated.unchanged ⟨h.nodup, h.allocated⟩ hun₂) (hids ▸ hfree₂) hsize₂
  refine ⟨d, heap', rest, tree', ?_, hholds, horder.trans hun₂.order, hremoved.content_eq,
    hcontents⟩
  rw [Heap.updateCost, hremove]
  simp only [bind_eq_bind, bind_some, hmodify]
  exact hattach

theorem Holds.perform {operation : Operation α}
    (hvalid : operation.Valid heap) :
    ∃ result heap' tree', heap.perform operation = some (result, heap') ∧ heap'.Holds tree' ∧
      heap'.order = heap.order ∧
      Requested heap.order operation result (contents tree) (contents tree') := by
  cases operation with
  | insert element cost =>
    obtain ⟨heap', tree', hinsert, hholds, horder, hnew, hcontents⟩ := h.insert element cost
    refine ⟨.node heap.nextAddress, heap', tree', ?_, hholds, horder, ?_, hcontents⟩
    · rw [Heap.perform, hinsert]
      rfl
    · intro entry hentry heq
      rw [ids_eq_contents, ← heq] at hnew
      exact hnew (mem_map_of_mem _ hentry)
  | removeRoot =>
    cases tree with
    | nil =>
      have hroot : heap.root = none := h.layout.root_eq
      refine ⟨.element none, heap, .nil, ?_, h, rfl, rfl, rfl⟩
      rw [Heap.perform, Heap.removeRoot, hroot]
      rfl
    | node id d l r =>
      obtain ⟨heap', tree', hremove, hholds, horder, hcontents⟩ := h.removeRoot
      refine ⟨.element (some d.element), heap', tree', ?_, hholds, horder, id, d.cost,
        h.root_extremal, hcontents⟩
      rw [Heap.perform, hremove]
      rfl
  | removeNode node =>
    obtain ⟨d, heap', tree', hremove, hholds, horder, hcontents⟩ :=
      h.heapRemoveNode (h.isSome_iff.mp hvalid)
    refine ⟨.element (some d.element), heap', tree', ?_, hholds, horder, d.cost, hcontents⟩
    rw [Heap.perform, hremove]
    rfl
  | updateCost node newCost =>
    obtain ⟨d, heap', rest, tree', hupdate, hholds, horder, hbefore, hafter⟩ :=
      h.updateCost (h.isSome_iff.mp hvalid) newCost
    refine ⟨.void, heap', tree', ?_, hholds, horder, d.element, d.cost, contents rest, hbefore,
      hafter⟩
    rw [Heap.perform, hupdate]
    rfl

end

/-- After every sequence of calls the nodes form a tree that is in order, `peek` returns an element
of extremal cost, and every further call does what is asked for. -/
theorem operations_performed (order : HeapOrder) (operations : List (Operation α))
    (hvalid : Along step (fun heap operation ↦ operation.Valid heap) (create order) operations) :
    ∃ heap tree, run step (create order) operations = some heap ∧ heap.Holds tree ∧
      heap.order = order ∧
      Peeked order heap.peek (contents tree) ∧
      ∀ operation : Operation α, operation.Valid heap →
        ∃ result heap' tree', heap.perform operation = some (result, heap') ∧ heap'.Holds tree' ∧
          Requested order operation result (contents tree) (contents tree') := by
  have hstep : ∀ (heap : Heap α) (operation : Operation α),
      ((∃ tree, heap.Holds tree) ∧ heap.order = order) → operation.Valid heap →
      ∃ next, step heap operation = some next ∧ (∃ tree, next.Holds tree) ∧
        next.order = order := by
    intro heap operation ⟨⟨tree, hholds⟩, horder⟩ hcall
    obtain ⟨result, heap', tree', hperform, hholds', horder', -⟩ := hholds.perform hcall
    exact ⟨heap', by rw [step, hperform]; rfl, ⟨tree', hholds'⟩, horder'.trans horder⟩
  obtain ⟨heap, hrun, ⟨tree, hholds⟩, horder⟩ :=
    run_total hstep ⟨⟨.nil, create_holds order⟩, rfl⟩ hvalid
  refine ⟨heap, tree, hrun, hholds, horder, ?_, fun operation hcall ↦ ?_⟩
  · rw [← horder]
    exact hholds.peek_spec
  · obtain ⟨result, heap', tree', hperform, hholds', -, hrequested⟩ := hholds.perform hcall
    exact ⟨result, heap', tree', hperform, hholds', horder ▸ hrequested⟩

/-- Two nodes are inserted, the cost of one is changed, and the other one is removed. -/
theorem operations_performed_short :
    ∃ operations : List (Operation ℕ), operations.length = 4 ∧
      Along step (fun heap operation ↦ operation.Valid heap) (create .min) operations ∧
      ∃ heap tree, run step (create .min) operations = some heap ∧ heap.Holds tree ∧
        Peeked .min heap.peek (contents tree) := by
  have hvalid : Along step (fun heap operation ↦ operation.Valid heap)
      (create .min) [.insert (10 : ℕ) 7, .insert 20 5, .updateCost 1 9, .removeNode 0] := by
    decide +kernel
  obtain ⟨heap, tree, hrun, hholds, -, hpeek, -⟩ := operations_performed .min _ hvalid
  exact ⟨_, rfl, hvalid, heap, tree, hrun, hholds, hpeek⟩

theorem run_inserts (order : HeapOrder) (element : α) (cost : UInt64) (n : ℕ) :
    ∃ heap tree, run step (create order) (List.replicate n (.insert element cost)) = some heap ∧
      heap.Holds tree ∧ tree.count = n := by
  induction n with
  | zero => exact ⟨_, .nil, rfl, create_holds order, rfl⟩
  | succ n ih =>
    obtain ⟨heap, tree, hrun, hholds, hcount⟩ := ih
    obtain ⟨heap', tree', hinsert, hholds', -, -, hcontents⟩ := hholds.insert element cost
    refine ⟨heap', tree', ?_, hholds', ?_⟩
    · rw [List.replicate_succ', run_append, hrun, bind_some, run_cons, step, Heap.perform, hinsert]
      rfl
    · rw [count_of_contents hcontents, hcount]

/-- With as many nodes as an `unsigned int` has values, the size is not the number of nodes. -/
theorem size_wraps : ∃ (operations : List (Operation Unit)) (heap : Heap Unit)
    (tree : CellTree ℕ (HeapEntry Unit)),
    Along step (fun heap operation ↦ operation.Valid heap) (create .min) operations ∧
      run step (create .min) operations = some heap ∧ heap.Layout [] tree ∧
      heap.size.toNat ≠ tree.count := by
  obtain ⟨heap, tree, hrun, hholds, hcount⟩ := run_inserts .min () 0 (2 ^ 32)
  refine ⟨_, heap, tree, along_of_mem _ fun operation hoperation _ ↦ ?_, hrun, hholds.layout, ?_⟩
  · rw [List.eq_of_mem_replicate hoperation]
    trivial
  · rw [hholds.size_eq, hcount]
    exact (Nat.two_pow_pos 32).ne

end Heap

end Gnunet.Util
