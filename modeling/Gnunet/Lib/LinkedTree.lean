import Mathlib.Data.Multiset.Bind
import Mathlib.Tactic.Abel

/-!
# Binary trees of linked cells

A cell has pointers to its parent and its two children.  `Stored` says that a tree is laid out in a
memory of cells with consistent links.  A position in a tree is given by the path to it, the list of
frames from the position up to the root, so that changes at the position can be stated without the
rest of the tree.
-/

namespace Gnunet.Lib.LinkedTree

open Function Multiset

/-- A binary tree whose nodes are named by the addresses of their cells. -/
inductive CellTree (ι δ : Type*)
  | nil
  | node (id : ι) (data : δ) (left right : CellTree ι δ)

structure Cell (ι δ : Type*) where
  parent : Option ι
  left : Option ι
  right : Option ι
  data : δ

inductive Side
  | left
  | right
  deriving DecidableEq

/-- A node on the path to a position: the side on which the path goes on, and the other child. -/
structure Frame (ι δ : Type*) where
  side : Side
  id : ι
  data : δ
  sibling : CellTree ι δ

variable {ι δ : Type*}

namespace CellTree

def rootId : CellTree ι δ → Option ι
  | nil => none
  | node id _ _ _ => some id

def rootData : CellTree ι δ → Option δ
  | nil => none
  | node _ data _ _ => some data

def entries : CellTree ι δ → Multiset (ι × δ)
  | nil => 0
  | node id data left right => (id, data) ::ₘ (left.entries + right.entries)

def ids (tree : CellTree ι δ) : Multiset ι := tree.entries.map Prod.fst

def count (tree : CellTree ι δ) : ℕ := tree.entries.card

@[simp] theorem ids_nil : (nil : CellTree ι δ).ids = 0 := rfl

@[simp] theorem ids_node (id : ι) (data : δ) (left right : CellTree ι δ) :
    (node id data left right).ids = id ::ₘ (left.ids + right.ids) := by
  rw [ids, entries, map_cons, map_add, ids, ids]

@[simp] theorem count_nil : (nil : CellTree ι δ).count = 0 := rfl

@[simp] theorem count_node (id : ι) (data : δ) (left right : CellTree ι δ) :
    (node id data left right).count = left.count + right.count + 1 := by
  rw [count, entries, card_cons, card_add, count, count]

theorem card_ids (tree : CellTree ι δ) : tree.ids.card = tree.count :=
  card_map _ _

variable {tree : CellTree ι δ}

theorem mem_ids_of_rootId {id : ι} (h : tree.rootId = some id) : id ∈ tree.ids := by
  cases tree with
  | nil => cases h
  | node =>
    cases h
    rw [ids_node]
    exact mem_cons_self _ _

theorem count_pos_of_rootId {id : ι} (h : tree.rootId = some id) : 0 < tree.count := by
  rw [← card_ids]
  exact card_pos_iff_exists_mem.mpr ⟨id, mem_ids_of_rootId h⟩

theorem exists_rootData {id : ι} (h : tree.rootId = some id) :
    ∃ data, tree.rootData = some data := by
  cases tree with
  | nil => cases h
  | node => exact ⟨_, rfl⟩

def Ordered (rel : δ → δ → Prop) : CellTree ι δ → Prop
  | nil => True
  | node _ data left right => (∀ e ∈ left.rootData, rel data e) ∧
      (∀ e ∈ right.rootData, rel data e) ∧ left.Ordered rel ∧ right.Ordered rel

theorem Ordered.rel_of_mem {rel : δ → δ → Prop}
    (htrans : ∀ a b c : δ, rel a b → rel b c → rel a c) (h : tree.Ordered rel) {data : δ}
    (hroot : ∀ e ∈ tree.rootData, rel data e) {id : ι} {e : δ} (hmem : (id, e) ∈ tree.entries) :
    rel data e := by
  induction tree with
  | nil => cases hmem
  | node i d left right ihleft ihright =>
    have hd : rel data d := hroot d rfl
    rw [entries, mem_cons, mem_add] at hmem
    rcases hmem with heq | hmem | hmem
    · cases heq
      exact hd
    · exact ihleft h.2.2.1 (fun e he ↦ htrans _ _ _ hd (h.1 e he)) hmem
    · exact ihright h.2.2.2 (fun e he ↦ htrans _ _ _ hd (h.2.1 e he)) hmem

end CellTree

def Frame.attach (frame : Frame ι δ) (tree : CellTree ι δ) : CellTree ι δ :=
  match frame.side with
  | .left => .node frame.id frame.data tree frame.sibling
  | .right => .node frame.id frame.data frame.sibling tree

def plug : List (Frame ι δ) → CellTree ι δ → CellTree ι δ
  | [], tree => tree
  | frame :: path, tree => plug path (frame.attach tree)

def parentId (path : List (Frame ι δ)) : Option ι := path.head?.map Frame.id

def pathEntries : List (Frame ι δ) → Multiset (ι × δ)
  | [] => 0
  | frame :: path => (frame.id, frame.data) ::ₘ (frame.sibling.entries + pathEntries path)

/-- The addresses of the nodes that are not at or below the position. -/
def pathIds (path : List (Frame ι δ)) : Multiset ι := (pathEntries path).map Prod.fst

theorem entries_attach (frame : Frame ι δ) (tree : CellTree ι δ) :
    (frame.attach tree).entries =
      (frame.id, frame.data) ::ₘ (frame.sibling.entries + tree.entries) := by
  rw [Frame.attach]
  split
  · rw [CellTree.entries, add_comm]
  · rw [CellTree.entries]

theorem entries_plug (path : List (Frame ι δ)) (tree : CellTree ι δ) :
    (plug path tree).entries = pathEntries path + tree.entries := by
  induction path generalizing tree with
  | nil => rw [plug, pathEntries, zero_add]
  | cons frame path ih =>
    rw [plug, pathEntries, ih, entries_attach, cons_add, add_cons]
    congr 1
    abel

@[simp] theorem pathIds_nil : pathIds ([] : List (Frame ι δ)) = 0 := rfl

@[simp] theorem pathIds_cons (frame : Frame ι δ) (path : List (Frame ι δ)) :
    pathIds (frame :: path) = frame.id ::ₘ (frame.sibling.ids + pathIds path) := by
  rw [pathIds, pathEntries, map_cons, map_add, pathIds, CellTree.ids]

theorem ids_attach (frame : Frame ι δ) (tree : CellTree ι δ) :
    (frame.attach tree).ids = frame.id ::ₘ (frame.sibling.ids + tree.ids) := by
  rw [CellTree.ids, entries_attach, map_cons, map_add, CellTree.ids, CellTree.ids]

theorem ids_plug (path : List (Frame ι δ)) (tree : CellTree ι δ) :
    (plug path tree).ids = pathIds path + tree.ids := by
  rw [CellTree.ids, entries_plug, map_add, pathIds, CellTree.ids]

variable {id : ι}

theorem exists_plug {tree : CellTree ι δ} (h : id ∈ tree.ids) :
    ∃ path data left right, tree = plug path (.node id data left right) := by
  suffices hmore : ∀ above, ∃ path data left right,
      plug above tree = plug path (.node id data left right) from hmore []
  induction tree with
  | nil => cases h
  | node i d left right ihleft ihright =>
    intro above
    rw [CellTree.ids_node, mem_cons, mem_add] at h
    rcases h with rfl | h | h
    · exact ⟨above, d, left, right, rfl⟩
    · exact ihleft h (⟨.left, i, d, right⟩ :: above)
    · exact ihright h (⟨.right, i, d, left⟩ :: above)

abbrev Memory (ι δ : Type*) := ι → Option (Cell ι δ)

def CellTree.Stored (memory : Memory ι δ) (parent : Option ι) : CellTree ι δ → Prop
  | nil => True
  | node id data left right => memory id = some ⟨parent, left.rootId, right.rootId, data⟩ ∧
      left.Stored memory (some id) ∧ right.Stored memory (some id)

def Frame.cell (frame : Frame ι δ) (parent hole : Option ι) : Cell ι δ :=
  match frame.side with
  | .left => ⟨parent, hole, frame.sibling.rootId, frame.data⟩
  | .right => ⟨parent, frame.sibling.rootId, hole, frame.data⟩

/-- The nodes outside of a position are laid out, with the given pointer to it. -/
def PathStored (memory : Memory ι δ) : List (Frame ι δ) → Option ι → Prop
  | [], _ => True
  | frame :: path, hole => memory frame.id = some (frame.cell (parentId path) hole) ∧
      frame.sibling.Stored memory (some frame.id) ∧ PathStored memory path (some frame.id)

def rootPointer : List (Frame ι δ) → Option ι → Option ι
  | [], hole => hole
  | frame :: path, _ => rootPointer path (some frame.id)

section Memory

variable {memory memory' : Memory ι δ} {parent hole : Option ι} {tree : CellTree ι δ}
  {path : List (Frame ι δ)}

theorem CellTree.Stored.congr (h : tree.Stored memory parent)
    (hsame : ∀ id ∈ tree.ids, memory' id = memory id) : tree.Stored memory' parent := by
  induction tree generalizing parent with
  | nil => trivial
  | node id data left right ihleft ihright =>
    rw [ids_node] at hsame
    refine ⟨(hsame id (mem_cons_self _ _)).trans h.1, ?_, ?_⟩
    · exact ihleft h.2.1 fun i hi ↦
        hsame i (mem_cons_of_mem (mem_add.mpr (.inl hi)))
    · exact ihright h.2.2 fun i hi ↦
        hsame i (mem_cons_of_mem (mem_add.mpr (.inr hi)))

theorem PathStored.congr (h : PathStored memory path hole)
    (hsame : ∀ id ∈ pathIds path, memory' id = memory id) : PathStored memory' path hole := by
  induction path generalizing hole with
  | nil => trivial
  | cons frame path ih =>
    rw [pathIds_cons] at hsame
    refine ⟨(hsame frame.id (mem_cons_self _ _)).trans h.1, ?_, ?_⟩
    · exact h.2.1.congr fun i hi ↦
        hsame i (mem_cons_of_mem (mem_add.mpr (.inl hi)))
    · exact ih h.2.2 fun i hi ↦
        hsame i (mem_cons_of_mem (mem_add.mpr (.inr hi)))

theorem Frame.rootId_attach (frame : Frame ι δ) (tree : CellTree ι δ) :
    (frame.attach tree).rootId = some frame.id := by
  rw [Frame.attach]
  split
  · rfl
  · rfl

theorem stored_attach (frame : Frame ι δ) :
    (frame.attach tree).Stored memory parent ↔
      memory frame.id = some (frame.cell parent tree.rootId) ∧
        frame.sibling.Stored memory (some frame.id) ∧ tree.Stored memory (some frame.id) := by
  obtain ⟨side, _, _, _⟩ := frame
  cases side with
  | left => exact and_congr_right fun _ ↦ and_comm
  | right => exact Iff.rfl

theorem rootId_plug : (plug path tree).rootId = rootPointer path tree.rootId := by
  induction path generalizing tree with
  | nil => rfl
  | cons frame path ih => rw [plug, ih, Frame.rootId_attach, rootPointer]

theorem stored_plug : (plug path tree).Stored memory none ↔
    PathStored memory path tree.rootId ∧ tree.Stored memory (parentId path) := by
  induction path generalizing tree with
  | nil => exact ⟨fun h ↦ ⟨trivial, h⟩, And.right⟩
  | cons frame path ih =>
    rw [plug, ih, Frame.rootId_attach, stored_attach]
    constructor
    · intro ⟨hpath, hcell, hsibling, htree⟩
      exact ⟨⟨hcell, hsibling, hpath⟩, htree⟩
    · intro ⟨⟨hcell, hsibling, hpath⟩, htree⟩
      exact ⟨hpath, hcell, hsibling, htree⟩

theorem CellTree.Stored.root_cell (h : tree.Stored memory parent) {data : δ}
    (hid : tree.rootId = some id) (hdata : tree.rootData = some data) :
    ∃ left right, memory id = some ⟨parent, left, right, data⟩ := by
  cases tree with
  | nil => cases hid
  | node =>
    cases hid
    cases hdata
    exact ⟨_, _, h.1⟩

theorem CellTree.Stored.isSome (h : tree.Stored memory parent) (hid : id ∈ tree.ids) :
    (memory id).isSome = true := by
  induction tree generalizing parent with
  | nil => cases hid
  | node i data left right ihleft ihright =>
    rw [ids_node, mem_cons, mem_add] at hid
    rcases hid with rfl | hid | hid
    · rw [h.1]
      rfl
    · exact ihleft h.2.1 hid
    · exact ihright h.2.2 hid

/-! Updates of single cells -/

variable [DecidableEq ι]

theorem CellTree.Stored.update_of_notMem (h : tree.Stored memory parent) (hid : id ∉ tree.ids)
    (cell : Option (Cell ι δ)) :
    tree.Stored (update memory id cell) parent := by
  refine h.congr fun i hi ↦ update_of_ne ?_ _ _
  rintro rfl
  exact hid hi

theorem PathStored.update_of_notMem (h : PathStored memory path hole) (hid : id ∉ pathIds path)
    (cell : Option (Cell ι δ)) :
    PathStored (update memory id cell) path hole := by
  refine h.congr fun i hi ↦ update_of_ne ?_ _ _
  rintro rfl
  exact hid hi

theorem CellTree.Stored.update_root {data : δ} {left right : CellTree ι δ}
    (h : (node id data left right).Stored memory parent)
    (hnodup : (node id data left right).ids.Nodup) (parent' : Option ι) (data' : δ) :
    (node id data' left right).Stored (update memory id
      (some ⟨parent', left.rootId, right.rootId, data'⟩)) parent' := by
  rw [ids_node, nodup_cons, mem_add, not_or] at hnodup
  exact ⟨update_self _ _ _, h.2.1.update_of_notMem hnodup.1.1 _,
    h.2.2.update_of_notMem hnodup.1.2 _⟩

theorem PathStored.update_top {frame : Frame ι δ} (h : PathStored memory (frame :: path) hole)
    (hnodup : (pathIds (frame :: path)).Nodup) (data : δ) (hole' : Option ι) :
    PathStored (update memory frame.id
      (some (Frame.cell { frame with data := data } (parentId path) hole')))
      ({ frame with data := data } :: path) hole' := by
  rw [pathIds_cons, nodup_cons, mem_add, not_or] at hnodup
  exact ⟨update_self _ _ _, h.2.1.update_of_notMem hnodup.1.1 _,
    h.2.2.update_of_notMem hnodup.1.2 _⟩

end Memory

section Order

variable {rel : δ → δ → Prop} {path : List (Frame ι δ)} {tree : CellTree ι δ}

def PathOrdered (rel : δ → δ → Prop) : List (Frame ι δ) → Prop
  | [] => True
  | frame :: path => (∀ e ∈ frame.sibling.rootData, rel frame.data e) ∧
      frame.sibling.Ordered rel ∧ (∀ above ∈ path.head?, rel above.data frame.data) ∧
      PathOrdered rel path

theorem ordered_attach (frame : Frame ι δ) : (frame.attach tree).Ordered rel ↔
    (∀ e ∈ frame.sibling.rootData, rel frame.data e) ∧ frame.sibling.Ordered rel ∧
      (∀ e ∈ tree.rootData, rel frame.data e) ∧ tree.Ordered rel := by
  obtain ⟨side, _, _, _⟩ := frame
  cases side with
  | left =>
    constructor
    · exact fun ⟨htree, hsibling, ht, hs⟩ ↦ ⟨hsibling, hs, htree, ht⟩
    · exact fun ⟨hsibling, hs, htree, ht⟩ ↦ ⟨htree, hsibling, ht, hs⟩
  | right =>
    constructor
    · exact fun ⟨hsibling, htree, hs, ht⟩ ↦ ⟨hsibling, hs, htree, ht⟩
    · exact fun ⟨hsibling, hs, htree, ht⟩ ↦ ⟨hsibling, htree, hs, ht⟩

theorem Frame.rootData_attach (frame : Frame ι δ) (tree : CellTree ι δ) :
    (frame.attach tree).rootData = some frame.data := by
  rw [Frame.attach]
  split
  · rfl
  · rfl

theorem ordered_plug : (plug path tree).Ordered rel ↔
    PathOrdered rel path ∧ tree.Ordered rel ∧
      ∀ frame ∈ path.head?, ∀ e ∈ tree.rootData, rel frame.data e := by
  induction path generalizing tree with
  | nil => exact ⟨fun h ↦ ⟨trivial, h, fun frame hframe ↦ by cases hframe⟩, fun h ↦ h.2.1⟩
  | cons frame path ih =>
    rw [plug, ih, ordered_attach]
    simp only [Frame.rootData_attach, List.head?_cons, Option.mem_def, Option.some.injEq,
      forall_eq']
    constructor
    · exact fun ⟨hpath, ⟨hsibling, hs, htree, ht⟩, habove⟩ ↦
        ⟨⟨hsibling, hs, habove, hpath⟩, ht, htree⟩
    · exact fun ⟨⟨hsibling, hs, habove, hpath⟩, ht, htree⟩ ↦
        ⟨hpath, ⟨hsibling, hs, htree, ht⟩, habove⟩

end Order

end Gnunet.Lib.LinkedTree
