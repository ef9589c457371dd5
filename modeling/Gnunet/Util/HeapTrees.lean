import Gnunet.Lib.MergeTree
import Gnunet.Util.ContainerHeap

/-!
# The trees of a heap

What the operations of a heap do to its tree, apart from the way it is laid out in memory: trees are
merged, the sizes along a path are corrected, and what is left of a tree without one of its nodes is
put together again.
-/

namespace Gnunet.Util

open Lib.LinkedTree Multiset UInt32 HeapEntry Frame

variable {α : Type}

def HeapOrder.Above (order : HeapOrder) (d e : HeapEntry α) : Prop := order.Precedes d.cost e.cost

def HeapEntry.absorb (d e : HeapEntry α) : HeapEntry α :=
  { d with treeSize := d.treeSize + (1 + e.treeSize) }

theorem HeapOrder.precedes_total (order : HeapOrder) (pos node : UInt64) :
    order.Precedes pos node ∨ order.Precedes node pos := by
  cases order with
  | max => exact UInt64.le_total node pos
  | min => exact UInt64.le_total pos node

theorem HeapOrder.precedes_trans (order : HeapOrder) {a b c : UInt64} (hab : order.Precedes a b)
    (hbc : order.Precedes b c) : order.Precedes a c := by
  cases order with
  | max => exact UInt64.le_trans hbc hab
  | min => exact UInt64.le_trans hab hbc

theorem HeapOrder.above_trans (order : HeapOrder) (a b c : HeapEntry α) (hab : order.Above a b)
    (hbc : order.Above b c) : order.Above a c :=
  order.precedes_trans hab hbc

/-- `tree_size` is the number of nodes below each node, as an `unsigned int`. -/
def Sized : CellTree ℕ (HeapEntry α) → Prop
  | .nil => True
  | .node _ data left right => data.treeSize = ofNat (left.count + right.count) ∧
      Sized left ∧ Sized right

def PathSized : List (Frame ℕ (HeapEntry α)) → ℕ → Prop
  | [], _ => True
  | frame :: path, count => frame.data.treeSize = ofNat (frame.sibling.count + count) ∧
      Sized frame.sibling ∧ PathSized path (frame.sibling.count + count + 1)

/-- The size of the root counts `extra` nodes that are not there. -/
def SizedUpTo (extra : ℕ) : CellTree ℕ (HeapEntry α) → Prop
  | .nil => True
  | .node _ data left right => data.treeSize = ofNat (left.count + right.count + extra) ∧
      Sized left ∧ Sized right

def content (entry : ℕ × HeapEntry α) : ℕ × α × UInt64 :=
  (entry.1, entry.2.element, entry.2.cost)

open Nat

section Sizes

variable {order : HeapOrder} {frame : Frame ℕ (HeapEntry α)}
  {path : List (Frame ℕ (HeapEntry α))} {t s m : CellTree ℕ (HeapEntry α)} {extra : ℕ}
  {e : HeapEntry α}

theorem sizedUpTo_zero : SizedUpTo 0 t ↔ Sized t := by
  cases t with
  | nil => exact Iff.rfl
  | node => exact Iff.rfl

theorem count_attach (frame : Frame ℕ (HeapEntry α)) (t : CellTree ℕ (HeapEntry α)) :
    (frame.attach t).count = frame.sibling.count + t.count + 1 := by
  rw [CellTree.count, entries_attach, card_cons, card_add, CellTree.count, CellTree.count]

theorem sizedUpTo_attach : SizedUpTo extra (frame.attach t) ↔
    frame.data.treeSize = ofNat (frame.sibling.count + t.count + extra) ∧
      Sized frame.sibling ∧ Sized t := by
  obtain ⟨side, _, _, _⟩ := frame
  cases side with
  | left =>
    rw [Frame.attach, SizedUpTo, add_comm t.count]
    exact and_congr_right fun _ ↦ and_comm
  | right => exact Iff.rfl

theorem sized_plug : Sized (plug path t) ↔ PathSized path t.count ∧ Sized t := by
  induction path generalizing t with
  | nil => exact ⟨fun h ↦ ⟨trivial, h⟩, And.right⟩
  | cons frame path ih =>
    rw [plug, ih, ← sizedUpTo_zero, sizedUpTo_attach, count_attach]
    constructor
    · rintro ⟨hpath, hsize, hsibling, ht⟩
      exact ⟨⟨hsize, hsibling, hpath⟩, ht⟩
    · rintro ⟨⟨hsize, hsibling, hpath⟩, ht⟩
      exact ⟨hpath, hsize, hsibling, ht⟩

theorem Sized.one_add_root (h : Sized t) (he : t.rootData = some e) :
    1 + e.treeSize = ofNat t.count := by
  cases t with
  | nil => cases he
  | node =>
    cases he
    rw [h.1, CellTree.count_node, add_comm _ 1]
    exact (ofNat_add 1 _).symm

theorem sized_of_merges (h : Merges order.Above absorb t s m) (ht : Sized t)
    (hs : Sized s) : Sized m := by
  induction h with
  | nil s => exact hs
  | @sink frame t s m e he habove hmerges ih =>
    rw [← sizedUpTo_zero, sizedUpTo_attach] at ht ⊢
    refine ⟨?_, ht.2.1, ih ht.2.2 hs⟩
    have hcount : frame.sibling.count + t.count + 0 + s.count =
        frame.sibling.count + m.count + 0 := by
      rw [hmerges.count_eq]
      omega
    rw [absorb, hs.one_add_root he, ht.1, ← ofNat_add, hcount]
  | swap _ _ _ _ ih => exact ih hs ht

theorem content_of_merges (h : Merges order.Above absorb t s m) :
    m.entries.map content = t.entries.map content + s.entries.map content :=
  h.map_entries fun _ _ _ ↦ rfl

theorem ordered_of_merges (h : Merges order.Above absorb t s m)
    (ht : t.Ordered order.Above) (hs : s.Ordered order.Above) : m.Ordered order.Above :=
  h.ordered (fun _ _ _ ↦ id) (fun _ _ _ ↦ id) ht hs

end Sizes

def decrement (frame : Frame ℕ (HeapEntry α)) : Frame ℕ (HeapEntry α) :=
  { frame with data := { frame.data with treeSize := frame.data.treeSize - 1 } }

section Ancestors

variable {path : List (Frame ℕ (HeapEntry α))} {n : ℕ} {order : HeapOrder}

theorem parentId_decrement : parentId (path.map decrement) = parentId path := by
  cases path with
  | nil => rfl
  | cons => rfl

theorem pathIds_decrement : pathIds (path.map decrement) = pathIds path := by
  induction path with
  | nil => rfl
  | cons frame path ih => rw [List.map_cons, pathIds_cons, pathIds_cons, ih, decrement]

theorem content_decrement :
    (pathEntries (path.map decrement)).map content = (pathEntries path).map content := by
  induction path with
  | nil => rfl
  | cons frame path ih =>
    rw [List.map_cons, pathEntries, pathEntries, map_cons, map_cons, map_add, map_add, ih]
    rfl

theorem pathOrdered_decrement (h : PathOrdered order.Above path) :
    PathOrdered order.Above (path.map decrement) := by
  induction path with
  | nil => trivial
  | cons frame path ih =>
    refine ⟨h.1, h.2.1, ?_, ih h.2.2.2⟩
    intro above habove
    cases path with
    | nil => cases habove
    | cons next path =>
      cases habove
      exact h.2.2.1 next rfl

theorem pathSized_decrement (h : PathSized path (n + 1)) : PathSized (path.map decrement) n := by
  induction path generalizing n with
  | nil => trivial
  | cons frame path ih =>
    refine ⟨?_, h.2.1, ih h.2.2⟩
    have hsize : frame.data.treeSize = ofNat (frame.sibling.count + n) + 1 :=
      h.1.trans (ofNat_add _ 1)
    rw [decrement]
    rw [hsize, UInt32.add_sub_cancel]

end Ancestors

namespace Heap

def without (data : HeapEntry α) (child : CellTree ℕ (HeapEntry α)) : HeapEntry α :=
  match child.rootData with
  | none => data
  | some e => { data with treeSize := data.treeSize - (1 + e.treeSize) }

def Joins (order : HeapOrder) (l r m : CellTree ℕ (HeapEntry α)) : Prop :=
  Merges order.Above absorb l r m ∨ r = .nil ∧ m = l

/-- A tree is put somewhere below the root of another one, which counts it already. -/
def Adopts (order : HeapOrder) (p child p' : CellTree ℕ (HeapEntry α)) : Prop :=
  child = .nil ∧ p' = p ∨ ∃ frame t m, p = attach frame t ∧
    Merges order.Above absorb t child m ∧ p' = frame.attach m

/-- At the root the trees below a removed node are joined, and elsewhere the node above adopts them.
-/
def Leaves (order : HeapOrder) (path : List (Frame ℕ (HeapEntry α)))
    (l r tree : CellTree ℕ (HeapEntry α)) : Prop :=
  match path with
  | [] => Joins order l r tree
  | frame :: path => ∃ p p', Adopts order (frame.attach .nil) l p ∧ Adopts order p r p' ∧
      tree = plug path p'

section Left

variable {order : HeapOrder} {path : List (Frame ℕ (HeapEntry α))}
  {frame : Frame ℕ (HeapEntry α)} {t l r p p' child m tree : CellTree ℕ (HeapEntry α)}
  {extra id : ℕ} {d : HeapEntry α}

theorem without_eq (h : Sized child) (d : HeapEntry α) :
    without d child = { d with treeSize := d.treeSize - ofNat child.count } := by
  cases child with
  | nil =>
    rw [without, CellTree.rootData, CellTree.count_nil]
    rw [show UInt32.ofNat 0 = 0 from rfl, UInt32.sub_zero]
  | node =>
    rw [without, CellTree.rootData]
    dsimp only
    rw [h.one_add_root rfl]

theorem without_without (h : Sized (.node id d l r)) :
    without (without d l) r = { d with treeSize := 0 } := by
  rw [without_eq h.2.2, without_eq h.2.1, h.1]
  rw [UInt32.ofNat_add, UInt32.add_comm, UInt32.add_sub_cancel, UInt32.sub_self]

theorem attach_eq_node {id : ℕ} {data : HeapEntry α} (h : frame.attach t = .node id data l r) :
    frame.data = data ∧
      ∀ data', ({ frame with data := data' } : Frame ℕ (HeapEntry α)).attach t =
        .node id data' l r := by
  obtain ⟨side, _, data', _⟩ := frame
  cases side with
  | left =>
    cases h
    exact ⟨rfl, fun _ ↦ rfl⟩
  | right =>
    cases h
    exact ⟨rfl, fun _ ↦ rfl⟩

theorem adopts_of_merges {order : HeapOrder} {id : ℕ} {data e : HeapEntry α}
    {child m : CellTree ℕ (HeapEntry α)} (he : child.rootData = some e)
    (habove : order.Above data e)
    (h : Merges order.Above absorb (.node id (without data child) l r) child m) :
    Adopts order (.node id data l r) child m := by
  generalize hp : CellTree.node id (without data child) l r = p at h
  cases h with
  | nil => cases hp
  | @sink frame t _ m e' he' _ hmerges =>
    obtain ⟨hdata, hattach⟩ := attach_eq_node hp.symm
    cases he.symm.trans he'
    refine Or.inr ⟨{ frame with data := data }, t, m, (hattach data).symm, hmerges, ?_⟩
    have habsorb : frame.data.absorb e = data := by
      rw [hdata, without, he, absorb]
      rw [UInt32.sub_add_cancel]
    rw [habsorb]
  | @swap _ _ _ d e' hd he' hnot _ =>
    rw [← hp] at hd
    cases hd
    cases he.symm.trans he'
    rw [without, he] at hnot
    exact absurd habove hnot

theorem Joins.content_eq (h : Joins order l r m) :
    m.entries.map content = l.entries.map content + r.entries.map content := by
  rcases h with h | ⟨rfl, rfl⟩
  · exact content_of_merges h
  · rw [CellTree.entries, map_zero, add_zero]

theorem Joins.ordered (h : Joins order l r m) (hl : l.Ordered order.Above)
    (hr : r.Ordered order.Above) : m.Ordered order.Above := by
  rcases h with h | ⟨-, rfl⟩
  · exact ordered_of_merges h hl hr
  · exact hl

theorem Joins.sized (h : Joins order l r m) (hl : Sized l) (hr : Sized r) : Sized m := by
  rcases h with h | ⟨-, rfl⟩
  · exact sized_of_merges h hl hr
  · exact hl

theorem Adopts.content_eq (h : Adopts order p child p') :
    p'.entries.map content = p.entries.map content + child.entries.map content := by
  rcases h with ⟨rfl, rfl⟩ | ⟨frame, t, m, rfl, hmerges, rfl⟩
  · rw [CellTree.entries, map_zero, add_zero]
  · rw [entries_attach, entries_attach, map_cons, map_cons, map_add,
      map_add, content_of_merges hmerges, cons_add, add_assoc]

theorem ids_eq_content (tree : CellTree ℕ (HeapEntry α)) :
    tree.ids = (tree.entries.map content).map Prod.fst := by
  rw [map_map]
  rfl

section

variable (h : Adopts order p child p')
include h

theorem Adopts.ids_eq : p'.ids = p.ids + child.ids := by
  rw [ids_eq_content, h.content_eq, map_add, ← ids_eq_content, ← ids_eq_content]

theorem Adopts.count_eq : p'.count = p.count + child.count := by
  rw [← CellTree.card_ids, h.ids_eq, card_add, CellTree.card_ids, CellTree.card_ids]

theorem Adopts.root_eq : p'.rootId = p.rootId ∧ p'.rootData = p.rootData := by
  rcases h with ⟨rfl, rfl⟩ | ⟨frame, t, m, rfl, hmerges, rfl⟩
  · exact ⟨rfl, rfl⟩
  · rw [rootId_attach, rootId_attach, rootData_attach, rootData_attach]
    exact ⟨rfl, rfl⟩

theorem Adopts.ordered (hp : p.Ordered order.Above) (hchild : child.Ordered order.Above)
    (habove : ∀ d ∈ p.rootData, ∀ e ∈ child.rootData, order.Above d e) :
    p'.Ordered order.Above := by
  rcases h with ⟨rfl, rfl⟩ | ⟨frame, t, m, rfl, hmerges, rfl⟩
  · exact hp
  · rw [rootData_attach] at habove
    rw [ordered_attach] at hp ⊢
    obtain ⟨hsibling, hsibling', hbelow, ht⟩ := hp
    exact ⟨hsibling, hsibling', hmerges.above_root (fun _ _ _ ↦ id) hbelow (habove _ rfl),
      ordered_of_merges hmerges ht hchild⟩

theorem Adopts.sizedUpTo
    (hp : SizedUpTo (child.count + extra) p) (hchild : Sized child) : SizedUpTo extra p' := by
  rcases h with ⟨rfl, rfl⟩ | ⟨frame, t, m, rfl, hmerges, rfl⟩
  · rw [CellTree.count_nil, zero_add] at hp
    exact hp
  · rw [sizedUpTo_attach] at hp ⊢
    refine ⟨?_, hp.2.1, sized_of_merges hmerges hp.2.2 hchild⟩
    rw [hp.1, hmerges.count_eq, add_assoc, add_assoc, add_assoc]

end

theorem Leaves.content_eq (h : Leaves order path l r tree) :
    tree.entries.map content =
      (pathEntries path).map content + (l.entries.map content + r.entries.map content) := by
  cases path with
  | nil => rw [Joins.content_eq h, pathEntries, map_zero, zero_add]
  | cons frame path =>
    obtain ⟨p, _, hp, hp', rfl⟩ := h
    rw [entries_plug, map_add, hp'.content_eq, hp.content_eq, entries_attach,
      map_cons, map_add, pathEntries, map_cons, map_add,
      CellTree.entries, map_zero, cons_add, cons_add, cons_add, add_cons]
    congr 1
    abel

theorem Leaves.ordered (h : Leaves order path l r tree) (hpath : PathOrdered order.Above path)
    (hl : l.Ordered order.Above) (hr : r.Ordered order.Above)
    (hleft : ∀ frame ∈ path.head?, ∀ e ∈ l.rootData, order.Above frame.data e)
    (hright : ∀ frame ∈ path.head?, ∀ e ∈ r.rootData, order.Above frame.data e) :
    tree.Ordered order.Above := by
  cases path with
  | nil => exact Joins.ordered h hl hr
  | cons frame path =>
    obtain ⟨p, _, hp, hp', rfl⟩ := h
    have hdata : p.rootData = some frame.data :=
      hp.root_eq.2.trans (rootData_attach frame .nil)
    have hfree : (frame.attach .nil).Ordered order.Above :=
      (ordered_attach frame).mpr ⟨hpath.1, hpath.2.1, (fun e he ↦ by cases he), trivial⟩
    have hordered : p.Ordered order.Above := by
      apply hp.ordered hfree hl
      intro d hd e he
      rw [rootData_attach] at hd
      cases hd
      exact hleft frame rfl e he
    refine ordered_plug.mpr ⟨hpath.2.2.2, hp'.ordered hordered hr ?_, ?_⟩
    · intro d hd e he
      rw [hdata] at hd
      cases hd
      exact hright frame rfl e he
    · intro above habove e he
      rw [hp'.root_eq.2, hdata] at he
      cases he
      exact hpath.2.2.1 above habove

theorem Leaves.sized (h : Leaves order path l r tree) (hpath : PathSized path (l.count + r.count))
    (hl : Sized l) (hr : Sized r) : Sized tree := by
  cases path with
  | nil => exact Joins.sized h hl hr
  | cons frame path =>
    obtain ⟨p, p', hp, hp', rfl⟩ := h
    have hfree : SizedUpTo (l.count + r.count) (frame.attach .nil) := by
      refine sizedUpTo_attach.mpr ⟨?_, hpath.2.1, trivial⟩
      rw [hpath.1, CellTree.count_nil, add_zero]
    have hsized : SizedUpTo 0 p' := hp'.sizedUpTo (hp.sizedUpTo hfree hl) hr
    refine sized_plug.mpr ⟨?_, sizedUpTo_zero.mp hsized⟩
    have hcount : p'.count = frame.sibling.count + (l.count + r.count) + 1 := by
      rw [hp'.count_eq, hp.count_eq, count_attach, CellTree.count_nil]
      omega
    rw [hcount]
    exact hpath.2.2

end Left

end Heap

end Gnunet.Util
