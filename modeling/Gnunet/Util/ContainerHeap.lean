import Gnunet.Lib.LinkedTree
import Gnunet.Lib.Runs

/-!
# The heap container

A heap is a binary tree of nodes that are linked in both directions.  A node is named by its
address, and following a pointer to a node that was freed or never allocated has no result.  The
position of the random walk is left to `WalkedHeap`.
-/

namespace Gnunet.Util

open Lib.LinkedTree Function

structure HeapEntry (α : Type) where
  element : α
  cost : UInt64
  treeSize : UInt32

abbrev HeapNode (α : Type) := Cell ℕ (HeapEntry α)

inductive HeapOrder
  | max
  | min
  deriving DecidableEq

/-- With the memory that the nodes are in; `nextAddress` is that of the next node. -/
structure Heap (α : Type) where
  memory : Memory ℕ (HeapEntry α)
  nextAddress : ℕ
  root : Option ℕ
  size : UInt32
  order : HeapOrder

variable {α : Type}

def HeapOrder.Precedes (order : HeapOrder) (pos node : UInt64) : Prop :=
  match order with
  | .max => node ≤ pos
  | .min => pos ≤ node

instance (order : HeapOrder) (pos node : UInt64) : Decidable (order.Precedes pos node) :=
  match order with
  | .max => inferInstanceAs (Decidable (node ≤ pos))
  | .min => inferInstanceAs (Decidable (pos ≤ node))

namespace Heap

def modify (heap : Heap α) (node : ℕ) (change : HeapNode α → HeapNode α) : Option (Heap α) :=
  (heap.memory node).map fun cell ↦
    { heap with memory := update heap.memory node (some (change cell)) }

def setParent (heap : Heap α) (node : ℕ) (parent : Option ℕ) : Option (Heap α) :=
  heap.modify node fun cell ↦ { cell with parent := parent }

def modifySize (heap : Heap α) (node : ℕ) (change : UInt32 → UInt32) : Option (Heap α) :=
  heap.modify node fun cell ↦
    { cell with data := { cell.data with treeSize := change cell.data.treeSize } }

def create (order : HeapOrder) : Heap α :=
  { memory := fun _ ↦ none, nextAddress := 0, root := none, size := 0, order := order }

def peek (heap : Heap α) : Option α :=
  heap.root.bind fun root ↦ (heap.memory root).map fun cell ↦ cell.data.element

/-- A child that is not the left one is taken for the right one. -/
def replaceChild (child : ℕ) (newChild : Option ℕ) (cell : HeapNode α) : HeapNode α :=
  if cell.left = some child then { cell with left := newChild }
  else { cell with right := newChild }

def takePlace (heap : Heap α) (pos node : ℕ) (parent : Option ℕ) : Option (Heap α) := do
  let heap ← heap.setParent pos none
  let heap ← heap.setParent node parent
  match parent with
  | none => some { heap with root := some node }
  | some parent => heap.modify parent (replaceChild pos (some node))

/-- The loop of `insert_node` with its recursive call. A round descends to a child, attaches the
node, or exchanges the roles of `pos` and `node`; the recursive call that does so finds its
assertion true, as the parent of `pos` was just cleared. -/
def insertLoop : ℕ → Heap α → ℕ → ℕ → Option (Heap α)
  | 0, _, _, _ => none
  | rounds + 1, heap, pos, node => do
    let posCell ← heap.memory pos
    let nodeCell ← heap.memory node
    if heap.order.Precedes posCell.data.cost nodeCell.data.cost then
      let heap ← heap.modifySize pos (· + (1 + nodeCell.data.treeSize))
      match posCell.left, posCell.right with
      | none, _ =>
        let heap ← heap.modify pos fun cell ↦ { cell with left := some node }
        heap.setParent node (some pos)
      | some _, none =>
        let heap ← heap.modify pos fun cell ↦ { cell with right := some node }
        heap.setParent node (some pos)
      | some left, some right =>
        let leftCell ← heap.memory left
        let rightCell ← heap.memory right
        if leftCell.data.treeSize < rightCell.data.treeSize then insertLoop rounds heap left node
        else insertLoop rounds heap right node
    else
      let heap ← heap.takePlace pos node posCell.parent
      insertLoop rounds heap node pos

/-- The roles are never exchanged twice in a row, so that two rounds for every node are enough. -/
def insertNode (heap : Heap α) (pos node : ℕ) : Option (Heap α) := do
  let nodeCell ← heap.memory node
  if nodeCell.parent = none then insertLoop (2 * heap.nextAddress + 1) heap pos node else none

def attachNode (heap : Heap α) (node : ℕ) : Option (Heap α) :=
  match heap.root with
  | none => some { heap with root := some node }
  | some root => heap.insertNode root node

def insert (heap : Heap α) (element : α) (cost : UInt64) : Option (ℕ × Heap α) := do
  let node := heap.nextAddress
  let cell : HeapNode α := ⟨none, none, none, ⟨element, cost, 0⟩⟩
  let heap := { heap with
    memory := update heap.memory node (some cell)
    nextAddress := heap.nextAddress + 1
    size := heap.size + 1 }
  let heap ← heap.attachNode node
  let root ← heap.root
  let rootCell ← heap.memory root
  if heap.size = rootCell.data.treeSize + 1 then some (node, heap) else none

def free (heap : Heap α) (node : ℕ) : Heap α :=
  { heap with memory := update heap.memory node none }

def promoteChildren (heap : Heap α) (left right : Option ℕ) : Option (Heap α) :=
  match left, right with
  | none, none => some { heap with root := none }
  | none, some right => ({ heap with root := some right }).setParent right none
  | some left, none => ({ heap with root := some left }).setParent left none
  | some left, some right => do
    let heap ← heap.setParent left none
    let heap ← heap.setParent right none
    ({ heap with root := some left }).insertNode left right

def removeRoot (heap : Heap α) : Option (Option α × Heap α) :=
  match heap.root with
  | none => some (none, heap)
  | some root => do
    let cell ← heap.memory root
    let heap ← ({ heap with size := heap.size - 1 }).promoteChildren cell.left cell.right
    some (some cell.data.element, heap.free root)

def decrementAncestors : ℕ → Heap α → Option ℕ → Option (Heap α)
  | _, heap, none => some heap
  | 0, _, some _ => none
  | rounds + 1, heap, some ancestor => do
    let cell ← heap.memory ancestor
    let heap ← heap.modifySize ancestor (· - 1)
    decrementAncestors rounds heap cell.parent

def subtractChild (heap : Heap α) (node : ℕ) (child : Option ℕ) : Option (Heap α) :=
  match child with
  | none => some heap
  | some child => do
    let cell ← heap.memory child
    heap.modifySize node (· - (1 + cell.data.treeSize))

def adoptChild (heap : Heap α) (parent : ℕ) (child : Option ℕ) : Option (Heap α) :=
  match child with
  | none => some heap
  | some child => do
    let heap ← heap.setParent child none
    let heap ← heap.subtractChild parent (some child)
    heap.insertNode parent child

def takeOut (heap : Heap α) (node : ℕ) (parent left right : Option ℕ) : Option (Heap α) :=
  match parent with
  | none => heap.promoteChildren left right
  | some parent => do
    let heap ← heap.modify parent (replaceChild node none)
    let heap ← heap.adoptChild parent left
    heap.adoptChild parent right

def removeNode (heap : Heap α) (node : ℕ) : Option (Heap α) := do
  let cell ← heap.memory node
  let heap ← decrementAncestors heap.nextAddress heap cell.parent
  let heap ← heap.subtractChild node cell.left
  let heap ← heap.subtractChild node cell.right
  let heap ← heap.takeOut node cell.parent cell.left cell.right
  let heap ← heap.modify node fun cell ↦
    { cell with parent := none, left := none, right := none }
  let cell ← heap.memory node
  if cell.data.treeSize = 0 then some heap else none

def heapRemoveNode (heap : Heap α) (node : ℕ) : Option (α × Heap α) := do
  let heap ← heap.removeNode node
  let cell ← heap.memory node
  some (cell.data.element, ({ heap with size := heap.size - 1 }).free node)

def updateCost (heap : Heap α) (node : ℕ) (newCost : UInt64) : Option (Heap α) := do
  let heap ← heap.removeNode node
  let heap ← heap.modify node fun cell ↦ { cell with data := { cell.data with cost := newCost } }
  heap.attachNode node

inductive Operation (α : Type)
  | insert (element : α) (cost : UInt64)
  | removeRoot
  | removeNode (node : ℕ)
  | updateCost (node : ℕ) (newCost : UInt64)

/-- The new node, the element of a node that was removed, or nothing. -/
inductive Result (α : Type)
  | node (address : ℕ)
  | element (element : Option α)
  | void

def perform (heap : Heap α) : Operation α → Option (Result α × Heap α)
  | .insert element cost => (heap.insert element cost).map (Prod.map .node id)
  | .removeRoot => heap.removeRoot.map (Prod.map .element id)
  | .removeNode node => (heap.heapRemoveNode node).map (Prod.map (.element ∘ some) id)
  | .updateCost node newCost => (heap.updateCost node newCost).map (Prod.mk .void)

def Operation.Valid (heap : Heap α) : Operation α → Prop
  | .removeNode node => (heap.memory node).isSome = true
  | .updateCost node _ => (heap.memory node).isSome = true
  | _ => True

instance Operation.decidableValid (heap : Heap α) : DecidablePred (Operation.Valid heap)
  | .insert _ _ => .isTrue trivial
  | .removeRoot => .isTrue trivial
  | .removeNode node => inferInstanceAs (Decidable ((heap.memory node).isSome = true))
  | .updateCost node _ => inferInstanceAs (Decidable ((heap.memory node).isSome = true))

def step (heap : Heap α) (operation : Operation α) : Option (Heap α) :=
  (heap.perform operation).map Prod.snd

end Heap

end Gnunet.Util
