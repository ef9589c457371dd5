import Gnunet.Util.HeapOperations

/-!
# The random walk through a heap

A heap remembers the position of a random walk.  Every call keeps this a node of the heap, but
`GNUNET_CONTAINER_heap_remove_root` frees the root without a look at the position: a node at which
the walk stands may have become the root by earlier removals.
-/

namespace Gnunet.Util

open Lib.LinkedTree Lib.Runs Multiset Option

variable {α : Type}

structure WalkedHeap (α : Type) where
  heap : Heap α
  walkPos : Option ℕ

namespace WalkedHeap

open Heap

def create (order : HeapOrder) : WalkedHeap α := ⟨Heap.create order, none⟩

def walkGetNext (walked : WalkedHeap α) (random : Fin 2) : Option (Option α × WalkedHeap α) :=
  match walked.heap.root with
  | none => some (none, walked)
  | some root => do
    let pos ← walked.heap.memory (walked.walkPos.getD root)
    some (some pos.data.element,
      { walked with walkPos := if random = 0 then pos.right else pos.left })

def leaveNode (walked : WalkedHeap α) (node : ℕ) (random : Fin 2) : Option (WalkedHeap α) :=
  if walked.walkPos = some node then (walked.walkGetNext random).map Prod.snd else some walked

def heapRemoveNode (walked : WalkedHeap α) (node : ℕ) (random : Fin 2) :
    Option (α × WalkedHeap α) := do
  let walked ← walked.leaveNode node random
  let (element, heap) ← walked.heap.heapRemoveNode node
  some (element, ⟨heap, if walked.walkPos = some node then none else walked.walkPos⟩)

inductive Operation (α : Type)
  | walkGetNext (random : Fin 2)
  | call (operation : Heap.Operation α) (random : Fin 2)

def perform (walked : WalkedHeap α) : Operation α → Option (Result α × WalkedHeap α)
  | .walkGetNext random => (walked.walkGetNext random).map (Prod.map .element id)
  | .call (.removeNode node) random =>
    (walked.heapRemoveNode node random).map (Prod.map (.element ∘ some) id)
  | .call operation _ =>
    (walked.heap.perform operation).map (Prod.map id fun heap ↦ { walked with heap := heap })

def step (walked : WalkedHeap α) (operation : Operation α) : Option (WalkedHeap α) :=
  (walked.perform operation).map Prod.snd

def Operation.Valid (walked : WalkedHeap α) : Operation α → Prop
  | .walkGetNext _ => True
  | .call operation _ => operation.Valid walked.heap

def Operation.SparesWalk (walked : WalkedHeap α) : Operation α → Prop
  | .call .removeRoot _ => walked.walkPos = none ∨ walked.walkPos ≠ walked.heap.root
  | _ => True

instance Operation.decidableValid (walked : WalkedHeap α) : DecidablePred (Operation.Valid walked)
  | .walkGetNext _ => .isTrue trivial
  | .call operation _ => Heap.Operation.decidableValid walked.heap operation

instance Operation.decidableSparesWalk (walked : WalkedHeap α) :
    DecidablePred (Operation.SparesWalk walked)
  | .call .removeRoot _ => inferInstanceAs (Decidable (_ ∨ _))
  | .call (.insert _ _) _ => .isTrue trivial
  | .call (.removeNode _) _ => .isTrue trivial
  | .call (.updateCost _ _) _ => .isTrue trivial
  | .walkGetNext _ => .isTrue trivial

/-- What the walk is to return: an element of the heap, if there is any. -/
def Visited : Option α → Contents α → Prop
  | none, contents => contents = 0
  | some element, contents => ∃ node cost, (node, element, cost) ∈ contents

/-- The walk stands at one of the nodes of the heap or at none. -/
structure Current (walked : WalkedHeap α) (tree : CellTree ℕ (HeapEntry α)) : Prop where
  holds : walked.heap.Holds tree
  walkPos_mem : ∀ node, walked.walkPos = some node → node ∈ tree.ids

section Steps

variable {walked : WalkedHeap α} {tree tree' : CellTree ℕ (HeapEntry α)} {node : ℕ}

theorem Holds.cell_spec {heap : Heap α} (h : heap.Holds tree) (hid : node ∈ tree.ids) :
    ∃ cell cost, heap.memory node = some cell ∧ (node, cell.data.element, cost) ∈ contents tree ∧
      (∀ child, cell.left = some child → child ∈ tree.ids ∧ child ≠ node) ∧
      ∀ child, cell.right = some child → child ∈ tree.ids ∧ child ≠ node := by
  obtain ⟨path, d, l, r, rfl⟩ := exists_plug hid
  obtain ⟨hcell, -, -⟩ := (stored_plug.mp h.layout.stored).2
  have hnodup := h.nodup
  rw [ids_plug, CellTree.ids_node] at hnodup ⊢
  have hbelow {child : ℕ} (hchild : child ∈ l.ids + r.ids) :
      child ∈ pathIds path + node ::ₘ (l.ids + r.ids) ∧ child ≠ node := by
    refine ⟨mem_add.mpr (.inr (mem_cons_of_mem hchild)), ?_⟩
    rintro rfl
    exact (nodup_cons.mp (nodup_add.mp hnodup).2.1).1 hchild
  refine ⟨_, d.cost, hcell, ?_, fun child hchild ↦ ?_, fun child hchild ↦ ?_⟩
  · rw [contents, entries_plug, map_add]
    exact mem_add.mpr
      (.inr (mem_map_of_mem content (mem_cons_self (node, d) _)))
  · exact hbelow (mem_add.mpr (.inl (CellTree.mem_ids_of_rootId hchild)))
  · exact hbelow (mem_add.mpr (.inr (CellTree.mem_ids_of_rootId hchild)))

section

variable (h : walked.Current tree)
include h

theorem Current.walkGetNext (random : Fin 2) :
    ∃ element next, walked.walkGetNext random = some (element, next) ∧
      next.Current tree ∧ Visited element (contents tree) ∧
      ∀ pos, walked.walkPos = some pos → next.walkPos ≠ some pos := by
  have hroot := h.holds.layout.root_eq
  cases tree with
  | nil =>
    have hroot' : walked.heap.root = none := hroot
    refine ⟨none, walked, ?_, h, rfl, fun pos hpos ↦ ?_⟩
    · rw [WalkedHeap.walkGetNext, hroot']
    · exact absurd (h.walkPos_mem pos hpos) (notMem_zero pos)
  | node id d l r =>
    have hroot' : walked.heap.root = some id := hroot
    have hpos : walked.walkPos.getD id ∈ (CellTree.node id d l r).ids := by
      cases hwalk : walked.walkPos with
      | none => exact CellTree.mem_ids_of_rootId rfl
      | some pos => exact h.walkPos_mem pos hwalk
    obtain ⟨cell, _, hcell, helement, hleft, hright⟩ := Holds.cell_spec h.holds hpos
    have hnext : ∀ child, (if random = 0 then cell.right else cell.left) = some child →
        child ∈ (CellTree.node id d l r).ids ∧ child ≠ walked.walkPos.getD id := by
      intro child hchild
      split_ifs at hchild
      · exact hright child hchild
      · exact hleft child hchild
    refine ⟨some cell.data.element,
      { walked with walkPos := if random = 0 then cell.right else cell.left }, ?_,
      ⟨h.holds, fun child hchild ↦ (hnext child hchild).1⟩, ⟨_, _, helement⟩,
      fun pos hwalk hstays ↦ ?_⟩
    · rw [WalkedHeap.walkGetNext, hroot']
      simp only [hcell, bind_eq_bind, bind_some]
    · have hmoved := (hnext pos hstays).2
      rw [hwalk] at hmoved
      exact hmoved rfl

theorem Current.of_removed {heap : Heap α} {element : α} {cost : UInt64}
    (hholds : heap.Holds tree')
    (hcontents : contents tree = (node, element, cost) ::ₘ contents tree')
    (hpos : walked.walkPos ≠ some node) :
    Current { walked with heap := heap } tree' := by
  refine ⟨hholds, fun pos hwalk ↦ ?_⟩
  have hmem := h.walkPos_mem pos hwalk
  rw [ids_of_contents hcontents, mem_cons] at hmem
  refine hmem.resolve_left ?_
  rintro rfl
  exact hpos hwalk

theorem Current.leaveNode (node : ℕ) (random : Fin 2) :
    ∃ next, walked.leaveNode node random = some next ∧ next.Current tree ∧
      next.walkPos ≠ some node := by
  rw [WalkedHeap.leaveNode]
  split_ifs with hwalk
  · obtain ⟨_, next, hnext, hcurrent, -, hmoved⟩ := h.walkGetNext random
    exact ⟨next, by rw [hnext]; rfl, hcurrent, hmoved node hwalk⟩
  · exact ⟨walked, rfl, h, hwalk⟩

theorem Current.heapRemoveNode (hid : node ∈ tree.ids) (random : Fin 2) :
    ∃ element next tree', walked.heapRemoveNode node random = some (element, next) ∧
      next.Current tree' := by
  obtain ⟨left, hleft, hcurrent, hpos⟩ := h.leaveNode node random
  obtain ⟨d, heap', tree', hremove, hholds, -, hcontents⟩ := hcurrent.holds.heapRemoveNode hid
  refine ⟨d.element, ⟨heap', left.walkPos⟩, tree', ?_, hcurrent.of_removed hholds hcontents hpos⟩
  rw [WalkedHeap.heapRemoveNode, hleft]
  simp only [bind_eq_bind, bind_some, hremove, if_neg hpos]

omit h in
theorem perform_call {operation : Heap.Operation α} {result : Result α} {heap' : Heap α}
    (hother : ∀ node, operation ≠ .removeNode node)
    (h : walked.heap.perform operation = some (result, heap')) (random : Fin 2) :
    walked.perform (.call operation random) = some (result, { walked with heap := heap' }) := by
  rw [WalkedHeap.perform, h]
  · rfl
  · exact hother

/-- Every call that spares the walk keeps its position in the heap. -/
theorem Current.perform {operation : Operation α}
    (hvalid : operation.Valid walked) (hspares : operation.SparesWalk walked) :
    ∃ result next tree', walked.perform operation = some (result, next) ∧
      next.Current tree' := by
  cases operation with
  | walkGetNext random =>
    obtain ⟨element, next, hnext, hcurrent, -⟩ := h.walkGetNext random
    exact ⟨.element element, next, tree, by rw [WalkedHeap.perform, hnext]; rfl, hcurrent⟩
  | call operation random =>
    cases operation with
    | insert element cost =>
      obtain ⟨heap', tree', hinsert, hholds, -, -, hcontents⟩ := h.holds.insert element cost
      refine ⟨.node walked.heap.nextAddress, { walked with heap := heap' }, tree', ?_, hholds,
        fun pos hwalk ↦ ?_⟩
      · refine perform_call (by rintro _ ⟨⟩) ?_ random
        rw [Heap.perform, hinsert]
        rfl
      · rw [ids_of_contents hcontents]
        exact mem_cons_of_mem (h.walkPos_mem pos hwalk)
    | removeRoot =>
      cases tree with
      | nil =>
        have hroot : walked.heap.root = none := h.holds.layout.root_eq
        refine ⟨.element none, walked, .nil, ?_, h⟩
        refine perform_call (by rintro _ ⟨⟩) ?_ random
        rw [Heap.perform, Heap.removeRoot, hroot]
        rfl
      | node id d l r =>
        have hroot : walked.heap.root = some id := h.holds.layout.root_eq
        obtain ⟨heap', tree', hremove, hholds, -, hcontents⟩ := h.holds.removeRoot
        refine ⟨.element (some d.element), { walked with heap := heap' }, tree', ?_,
          h.of_removed hholds hcontents ?_⟩
        · refine perform_call (by rintro _ ⟨⟩) ?_ random
          rw [Heap.perform, hremove]
          rfl
        · intro hwalk
          rcases hspares with hnone | hne
          · cases hwalk.symm.trans hnone
          · exact hne (hwalk.trans hroot.symm)
    | removeNode node =>
      obtain ⟨element, next, tree', hremove, hcurrent⟩ :=
        h.heapRemoveNode (h.holds.isSome_iff.mp hvalid) random
      exact ⟨.element (some element), next, tree',
        by rw [WalkedHeap.perform, hremove]; rfl, hcurrent⟩
    | updateCost node newCost =>
      obtain ⟨d, heap', _, tree', hupdate, hholds, -, hbefore, hafter⟩ :=
        h.holds.updateCost (h.holds.isSome_iff.mp hvalid) newCost
      refine ⟨.void, { walked with heap := heap' }, tree', ?_, hholds, fun pos hwalk ↦ ?_⟩
      · refine perform_call (by rintro _ ⟨⟩) ?_ random
        rw [Heap.perform, hupdate]
        rfl
      · rw [ids_of_contents hafter, ← ids_of_contents hbefore]
        exact h.walkPos_mem pos hwalk

end

end Steps

/-- After every sequence of calls that do not remove the root while the walk stands at it, the walk
stands at a node of the heap or at none, and its next step returns an element of the heap. -/
theorem walk_current (order : HeapOrder) (operations : List (Operation α))
    (hvalid : Along step (fun walked operation ↦ operation.Valid walked ∧
      operation.SparesWalk walked) (create order) operations) :
    ∃ walked tree, run step (create order) operations = some walked ∧ walked.heap.Holds tree ∧
      (∀ node, walked.walkPos = some node → node ∈ tree.ids) ∧
      ∀ random, ∃ element next, walked.walkGetNext random = some (element, next) ∧
        Visited element (contents tree) := by
  have hstep : ∀ (walked : WalkedHeap α) (operation : Operation α),
      (∃ tree, walked.Current tree) → (operation.Valid walked ∧ operation.SparesWalk walked) →
      ∃ next, step walked operation = some next ∧ ∃ tree, next.Current tree := by
    intro walked operation ⟨tree, hcurrent⟩ ⟨hcall, hspares⟩
    obtain ⟨_, next, tree', hperform, hcurrent'⟩ := hcurrent.perform hcall hspares
    exact ⟨next, by rw [step, hperform]; rfl, tree', hcurrent'⟩
  have hstart : (create order : WalkedHeap α).Current .nil := ⟨create_holds order, nofun⟩
  obtain ⟨walked, hrun, tree, hcurrent⟩ := run_total hstep ⟨_, hstart⟩ hvalid
  refine ⟨walked, tree, hrun, hcurrent.holds, hcurrent.walkPos_mem, fun random ↦ ?_⟩
  obtain ⟨element, next, hnext, -, hvisited, -⟩ := hcurrent.walkGetNext random
  exact ⟨element, next, hnext, hvisited⟩

/-- The walk stands at a node that is removed. -/
theorem walk_current_short : ∃ operations : List (Operation ℕ), operations.length = 5 ∧
    Along step (fun walked operation ↦ operation.Valid walked ∧ operation.SparesWalk walked)
      (create .min) operations ∧
    ∃ walked tree, run step (create .min) operations = some walked ∧ walked.heap.Holds tree ∧
      ∀ node, walked.walkPos = some node → node ∈ tree.ids := by
  have hvalid : Along step (fun walked operation ↦ operation.Valid walked ∧
      operation.SparesWalk walked) (create .min)
        [.call (.insert (10 : ℕ) 1) 0, .call (.insert 20 2) 0, .walkGetNext 1,
          .call (.removeNode 1) 0, .call .removeRoot 0] := by
    decide +kernel
  obtain ⟨walked, tree, hrun, hholds, hwalk, -⟩ := walk_current .min _ hvalid
  exact ⟨_, rfl, hvalid, walked, tree, hrun, hholds, hwalk⟩

/-- The walk stands at a child of the root.  The root is removed twice, so that the node at which
the walk stands is freed, and its next step reads from it. -/
theorem walk_dangles : ∃ walked : WalkedHeap ℕ, run step (create .min)
      [.call (.insert 10 1) 0, .call (.insert 20 2) 0, .call (.insert 30 3) 0, .walkGetNext 1,
        .call .removeRoot 0, .call .removeRoot 0] = some walked ∧
    walked.heap.root = some 2 ∧ walked.walkPos = some 1 ∧ walked.heap.memory 1 = none ∧
    walked.walkGetNext 0 = none :=
  ⟨_, rfl, rfl, rfl, rfl, rfl⟩

end WalkedHeap

end Gnunet.Util
