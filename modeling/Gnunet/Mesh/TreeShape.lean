import Gnunet.Lib.LinkedForest
import Gnunet.Mesh.TunnelTree

/-!
# The shape of a tunnel tree

The nodes in memory form a forest when the child lists have no node twice and the parent pointer of
each child leads back to its parent. What the single pointer changes of `mesh_tunnel_tree.c` do to
the shape is shown here.
-/

namespace Gnunet.Mesh

open Lib.LinkedForest Function

abbrev Nodes := ℕ → Option MeshTunnelTreeNode

def childrenOf (nodes : Nodes) (a : ℕ) : List ℕ := ((nodes a).map (·.children)).getD []

def peerOf (nodes : Nodes) (a : ℕ) : Option ℕ := (nodes a).map (·.peer)

def parentOf (nodes : Nodes) (a : ℕ) : Option ℕ := (nodes a).bind (·.parent)

def liveNodes (nodes : Nodes) : Set ℕ := {a | (peerOf nodes a).isSome}

def subtree (nodes : Nodes) (a : ℕ) : Set ℕ := {x | Below (childrenOf nodes) a x}

def peersOf (nodes : Nodes) (s : Set ℕ) : Set ℕ := {peer | ∃ a ∈ s, peerOf nodes a = some peer}

/-- The nodes are trees below the tops; each peer has one node, and the pointers agree. -/
structure Shape (nodes : Nodes) (fresh : ℕ) (tops : Set ℕ) : Prop where
  forest : Forest (childrenOf nodes) (liveNodes nodes) tops
  parent : ∀ {a c : ℕ}, c ∈ childrenOf nodes a → parentOf nodes c = some a
  bounded : ∀ {a : ℕ}, a ∈ liveNodes nodes → a < fresh
  distinct : ∀ {a b peer : ℕ}, peerOf nodes a = some peer → peerOf nodes b = some peer → a = b

variable {nodes nodes' : Nodes} {fresh peer : ℕ} {tops removed : Set ℕ} {a b c p x : ℕ}
  {node up : MeshTunnelTreeNode}

section Views

theorem childrenOf_eq (hnode : nodes a = some node) : childrenOf nodes a = node.children := by
  rw [childrenOf, hnode]
  rfl

theorem peerOf_eq (hnode : nodes a = some node) : peerOf nodes a = some node.peer := by
  rw [peerOf, hnode]
  rfl

theorem parentOf_eq (hnode : nodes a = some node) : parentOf nodes a = node.parent := by
  rw [parentOf, hnode]
  rfl

theorem live_of_peer (hpeer : peerOf nodes a = some peer) : a ∈ liveNodes nodes :=
  Option.isSome_iff_exists.mpr ⟨peer, hpeer⟩

theorem live_of_node (hnode : nodes a = some node) : a ∈ liveNodes nodes :=
  live_of_peer (peerOf_eq hnode)

theorem exists_peer (ha : a ∈ liveNodes nodes) : ∃ peer, peerOf nodes a = some peer :=
  Option.isSome_iff_exists.mp ha

theorem exists_node (ha : a ∈ liveNodes nodes) : ∃ node, nodes a = some node := by
  obtain ⟨_, hpeer⟩ := exists_peer ha
  obtain ⟨node, hnode, -⟩ := Option.map_eq_some_iff.mp hpeer
  exact ⟨node, hnode⟩

theorem childrenOf_update : childrenOf (update nodes a (some node)) =
    update (childrenOf nodes) a node.children :=
  comp_update (fun found ↦ (Option.map MeshTunnelTreeNode.children found).getD []) nodes a _

theorem peerOf_update : peerOf (update nodes a (some node)) =
    update (peerOf nodes) a (some node.peer) :=
  comp_update (Option.map MeshTunnelTreeNode.peer) nodes a (some node)

theorem parentOf_update : parentOf (update nodes a (some node)) =
    update (parentOf nodes) a node.parent :=
  comp_update (Option.bind · MeshTunnelTreeNode.parent) nodes a (some node)

theorem update_update_self {β : Type} {f : ℕ → β} {v w : β} (ha : f a = v) (hb : f b = w) :
    update (update f a v) b w = f := by
  rw [← ha, update_eq_self, ← hb, update_eq_self]

theorem liveNodes_congr (hpeers : peerOf nodes' = peerOf nodes) :
    liveNodes nodes' = liveNodes nodes := by
  rw [liveNodes, hpeers, liveNodes]

theorem peersOf_congr (hpeers : peerOf nodes' = peerOf nodes) (s : Set ℕ) :
    peersOf nodes' s = peersOf nodes s := by
  rw [peersOf, hpeers, peersOf]

theorem peersOf_union (s s' : Set ℕ) :
    peersOf nodes (s ∪ s') = peersOf nodes s ∪ peersOf nodes s' := by
  ext peer
  constructor
  · rintro ⟨a, ha | ha, hpeer⟩
    · exact .inl ⟨a, ha, hpeer⟩
    · exact .inr ⟨a, ha, hpeer⟩
  · rintro (⟨a, ha, hpeer⟩ | ⟨a, ha, hpeer⟩)
    · exact ⟨a, .inl ha, hpeer⟩
    · exact ⟨a, .inr ha, hpeer⟩

end Views

namespace Shape

variable (h : Shape nodes fresh tops)
include h

theorem live_subset : liveNodes nodes ⊆ (Finset.range fresh : Finset ℕ) := by
  intro a ha
  exact Finset.mem_coe.mpr (Finset.mem_range.mpr (h.bounded ha))

theorem parent_eq (hnode : nodes c = some node) (hc : c ∈ childrenOf nodes a) :
    node.parent = some a := (parentOf_eq hnode).symm.trans (h.parent hc)

theorem ne_of_child (hc : c ∈ childrenOf nodes a) : c ≠ a := by
  intro heq
  apply h.forest.not_below_child hc
  rw [heq]

theorem ne_fresh (ha : a ∈ liveNodes nodes) : a ≠ fresh := (h.bounded ha).ne

theorem fresh_notMem : fresh ∉ liveNodes nodes := fun hlive ↦ h.ne_fresh hlive rfl

omit h in
theorem size_le : size (childrenOf nodes) (Finset.range fresh) a ≤ fresh := by
  calc size (childrenOf nodes) (Finset.range fresh) a
      ≤ (Finset.range fresh).card := Lib.LinkedForest.size_le
    _ = fresh := Finset.card_range fresh

omit h in
theorem depth_le : depth (childrenOf nodes) (Finset.range fresh) a ≤ fresh := by
  calc depth (childrenOf nodes) (Finset.range fresh) a
      ≤ (Finset.range fresh).card := Lib.LinkedForest.depth_le
    _ = fresh := Finset.card_range fresh

end Shape

structure SameLinks (nodes nodes' : Nodes) : Prop where
  children : childrenOf nodes' = childrenOf nodes
  parents : parentOf nodes' = parentOf nodes
  peers : peerOf nodes' = peerOf nodes

theorem sameLinks_update (hnode : nodes a = some node) (status : MeshPeerState) :
    SameLinks nodes (update nodes a (some { node with status })) where
  children := by
    rw [childrenOf_update]
    exact update_eq_self_iff.mpr (childrenOf_eq hnode).symm
  parents := by
    rw [parentOf_update]
    exact update_eq_self_iff.mpr (parentOf_eq hnode).symm
  peers := by
    rw [peerOf_update]
    exact update_eq_self_iff.mpr (peerOf_eq hnode).symm

theorem Shape.relabel (h : Shape nodes fresh tops) (hsame : SameLinks nodes nodes') :
    Shape nodes' fresh tops where
  forest := by
    rw [hsame.children, liveNodes_congr hsame.peers]
    exact h.forest
  parent hc := by
    rw [hsame.children] at hc
    rw [hsame.parents]
    exact h.parent hc
  bounded ha := h.bounded (liveNodes_congr hsame.peers ▸ ha)
  distinct := by
    rw [hsame.peers]
    exact h.distinct

section Cut

variable {parent : Option ℕ}

def cutOff (nodes : Nodes) (p c : ℕ) (up node : MeshTunnelTreeNode) (parent : Option ℕ) : Nodes :=
  update (update nodes p (some { up with children := up.children.erase c })) c
    (some { node with parent })

variable (hup : nodes p = some up) (hnode : nodes c = some node)
include hup hnode

theorem childrenOf_cutOff (hne : c ≠ p) :
    childrenOf (cutOff nodes p c up node parent) = detach (childrenOf nodes) p c := by
  rw [cutOff, childrenOf_update, childrenOf_update, detach, childrenOf_eq hup]
  apply update_eq_self_iff.mpr
  rw [update_of_ne hne]
  exact (childrenOf_eq hnode).symm

theorem peerOf_cutOff : peerOf (cutOff nodes p c up node parent) = peerOf nodes := by
  rw [cutOff, peerOf_update, peerOf_update, update_update_self (peerOf_eq hup) (peerOf_eq hnode)]

omit hnode in
theorem parentOf_cutOff :
    parentOf (cutOff nodes p c up node parent) = update (parentOf nodes) c parent := by
  have hfirst : update (parentOf nodes) p up.parent = parentOf nodes :=
    update_eq_self_iff.mpr (parentOf_eq hup).symm
  rw [cutOff, parentOf_update, parentOf_update, hfirst]

/-- A node that is cut off is a top of its own, whatever its pointer says. -/
theorem Shape.cut (h : Shape nodes fresh tops) (hc : c ∈ up.children) :
    Shape (cutOff nodes p c up node parent) fresh (insert c tops) := by
  have hmem : c ∈ childrenOf nodes p := (childrenOf_eq hup).symm ▸ hc
  have hne := h.ne_of_child hmem
  have hlive : liveNodes (cutOff nodes p c up node parent) = liveNodes nodes :=
    liveNodes_congr (peerOf_cutOff hup hnode)
  constructor
  · rw [childrenOf_cutOff hup hnode hne, hlive]
    exact h.forest.detached hmem
  · intro a x hx
    rw [childrenOf_cutOff hup hnode hne, h.forest.mem_detach hmem] at hx
    rw [parentOf_cutOff hup, update_of_ne hx.2]
    exact h.parent hx.1
  · intro a ha
    exact h.bounded (hlive ▸ ha)
  · rw [peerOf_cutOff hup hnode]
    exact h.distinct

end Cut

section Hang

def hangBelow (nodes : Nodes) (p c : ℕ) (up node : MeshTunnelTreeNode) : Nodes :=
  update (update nodes c (some { node with parent := some p })) p
    (some { up with children := c :: up.children })

variable (hup : nodes p = some up) (hnode : nodes c = some node)
include hup hnode

theorem childrenOf_hangBelow :
    childrenOf (hangBelow nodes p c up node) = attach (childrenOf nodes) p c := by
  have hfirst : update (childrenOf nodes) c node.children = childrenOf nodes :=
    update_eq_self_iff.mpr (childrenOf_eq hnode).symm
  rw [hangBelow, childrenOf_update, childrenOf_update, hfirst, attach, childrenOf_eq hup]

theorem peerOf_hangBelow : peerOf (hangBelow nodes p c up node) = peerOf nodes := by
  rw [hangBelow, peerOf_update, peerOf_update, update_update_self (peerOf_eq hnode) (peerOf_eq hup)]

omit hnode in
theorem parentOf_hangBelow (hne : c ≠ p) :
    parentOf (hangBelow nodes p c up node) = update (parentOf nodes) c (some p) := by
  rw [hangBelow, parentOf_update, parentOf_update]
  apply update_eq_self_iff.mpr
  rw [update_of_ne (Ne.symm hne)]
  exact (parentOf_eq hup).symm

theorem Shape.hung (h : Shape nodes fresh tops) (hc : c ∈ tops) (hnot : p ∉ subtree nodes c) :
    Shape (hangBelow nodes p c up node) fresh (tops \ {c}) := by
  have hne : c ≠ p := by
    intro heq
    apply hnot
    rw [heq]
    exact .refl
  have hpeers := peerOf_hangBelow hup hnode
  have hlive := liveNodes_congr hpeers
  constructor
  · rw [childrenOf_hangBelow hup hnode, hlive]
    exact h.forest.attached hc (live_of_node hup) hnot
  · intro a x hx
    rw [childrenOf_hangBelow hup hnode, mem_attach] at hx
    rw [parentOf_hangBelow hup hne]
    cases hx with
    | inl hx =>
      have hxc : x ≠ c := fun heq ↦ h.forest.top_free hc (heq ▸ hx)
      rw [update_of_ne hxc]
      exact h.parent hx
    | inr heq =>
      rw [heq.1, heq.2]
      exact update_self ..
  · intro a ha
    exact h.bounded (hlive ▸ ha)
  · rw [hpeers]
    exact h.distinct

end Hang

theorem Shape.childrenOf_allocate (h : Shape nodes fresh tops) (hchildren : node.children = []) :
    childrenOf (update nodes fresh (some node)) = childrenOf nodes := by
  rw [childrenOf_update, hchildren]
  apply update_eq_self_iff.mpr
  have hnone : peerOf nodes fresh = none := Option.not_isSome_iff_eq_none.mp h.fresh_notMem
  rw [childrenOf, Option.map_eq_none_iff.mp hnone]
  rfl

theorem Shape.allocate (h : Shape nodes fresh tops) (hchildren : node.children = [])
    (hpeer : ∀ a, peerOf nodes a ≠ some node.peer) :
    Shape (update nodes fresh (some node)) (fresh + 1) (insert fresh tops) := by
  have hlive : liveNodes (update nodes fresh (some node)) = insert fresh (liveNodes nodes) := by
    ext x
    by_cases hx : x = fresh
    · subst hx
      exact iff_of_true (live_of_node (update_self ..)) (.inl rfl)
    · rw [Set.mem_insert_iff, or_iff_right hx]
      change (peerOf _ x).isSome = true ↔ _
      rw [peerOf_update, update_of_ne hx]
      rfl
  have hsame := h.childrenOf_allocate hchildren
  constructor
  · rw [hsame, hlive]
    exact h.forest.inserted h.fresh_notMem
  · intro a x hx
    rw [hsame] at hx
    rw [parentOf_update, update_of_ne (h.ne_fresh (h.forest.child_live hx))]
    exact h.parent hx
  · intro a ha
    rw [hlive] at ha
    cases ha with
    | inl heq => exact heq ▸ Nat.lt_succ_self _
    | inr ha => exact Nat.lt_succ_of_lt (h.bounded ha)
  · intro a b peer ha hb
    rw [peerOf_update] at ha hb
    by_cases hafresh : a = fresh
    · by_cases hbfresh : b = fresh
      · exact hafresh.trans hbfresh.symm
      · rw [update_of_ne hbfresh] at hb
        rw [hafresh, update_self] at ha
        exact absurd (hb.trans ha.symm) (hpeer b)
    · rw [update_of_ne hafresh] at ha
      by_cases hbfresh : b = fresh
      · rw [hbfresh, update_self] at hb
        exact absurd (ha.trans hb.symm) (hpeer a)
      · rw [update_of_ne hbfresh] at hb
        exact h.distinct ha hb

section Prune

open Classical in
noncomputable def kept (removed : Set ℕ) (c : ℕ) : Bool := decide (c ∉ removed)

open Classical in
theorem kept_iff : kept removed c = true ↔ c ∉ removed := decide_eq_true_iff

open Classical in
noncomputable def prune (nodes : Nodes) (removed : Set ℕ) : Nodes := fun x ↦
  if x ∈ removed then none
  else (nodes x).map fun node ↦ { node with children := node.children.filter (kept removed) }

theorem filter_kept_singleton {list : List ℕ} (hnodup : list.Nodup) :
    list.filter (kept {a}) = list.erase a := by
  rw [hnodup.erase_eq_filter]
  apply List.filter_congr
  intro c _
  rw [Bool.eq_iff_iff, kept_iff, bne_iff_ne]
  exact Set.mem_singleton_iff.not

theorem filter_kept_eq_self {list : List ℕ} (ha : a ∉ list) : list.filter (kept {a}) = list := by
  apply List.filter_eq_self.mpr
  intro c hc
  refine kept_iff.mpr fun heq ↦ ha ?_
  exact Set.mem_singleton_iff.mp heq ▸ hc

theorem prune_of_mem (hx : x ∈ removed) : prune nodes removed x = none := if_pos hx

theorem prune_of_notMem (hx : x ∉ removed) : prune nodes removed x =
    (nodes x).map fun node ↦ { node with children := node.children.filter (kept removed) } :=
  if_neg hx

open Classical in
theorem childrenOf_prune : childrenOf (prune nodes removed) a =
    if a ∈ removed then [] else (childrenOf nodes a).filter (kept removed) := by
  unfold childrenOf
  split_ifs with ha
  · rw [prune_of_mem ha]
    rfl
  · rw [prune_of_notMem ha]
    cases nodes a <;> rfl

theorem prune_eq_none (hnode : nodes x = none) : prune nodes removed x = none := by
  rw [prune, hnode]
  exact ite_self _

theorem prune_empty : prune nodes ∅ = nodes := by
  funext x
  rw [prune_of_notMem (Set.notMem_empty x)]
  cases nodes x with
  | none => rfl
  | some node =>
    have hall : node.children.filter (kept ∅) = node.children :=
      List.filter_eq_self.mpr fun c _ ↦ kept_iff.mpr (Set.notMem_empty c)
    rw [Option.map_some, hall]

theorem prune_prune (removed removed' : Set ℕ) :
    prune (prune nodes removed) removed' = prune nodes (removed ∪ removed') := by
  funext x
  by_cases hx : x ∈ removed
  · have hunion : prune nodes (removed ∪ removed') x = none := prune_of_mem (.inl hx)
    rw [hunion]
    exact prune_eq_none (prune_of_mem hx)
  · by_cases hx' : x ∈ removed'
    · have hunion : prune nodes (removed ∪ removed') x = none := prune_of_mem (.inr hx')
      rw [hunion]
      exact prune_of_mem hx'
    · have hboth : x ∉ removed ∪ removed' := fun hmem ↦ hmem.elim hx hx'
      rw [prune_of_notMem hx', prune_of_notMem hx, prune_of_notMem hboth, Option.map_map]
      apply congrArg (Option.map · (nodes x))
      funext node
      rw [comp_apply, List.filter_filter]
      apply congrArg fun children ↦ ({ node with children } : MeshTunnelTreeNode)
      apply List.filter_congr
      intro c _
      rw [Bool.eq_iff_iff, Bool.and_eq_true, kept_iff, kept_iff, kept_iff, Set.mem_union, not_or,
        and_comm]

def Closed (nodes : Nodes) (s : Set ℕ) : Prop := ∀ a ∈ s, ∀ c ∈ childrenOf nodes a, c ∈ s

theorem closed_leaf (hleaf : childrenOf nodes a = []) : Closed nodes {a} := by
  rintro _ rfl c hc
  rw [hleaf] at hc
  exact absurd hc List.not_mem_nil

theorem mem_childrenOf_prune (hclosed : Closed nodes removed) :
    c ∈ childrenOf (prune nodes removed) a ↔ c ∈ childrenOf nodes a ∧ c ∉ removed := by
  rw [childrenOf_prune]
  split_ifs with ha
  · exact iff_of_false List.not_mem_nil fun hc ↦ hc.2 (hclosed a ha c hc.1)
  · rw [List.mem_filter, kept_iff]

theorem peerOf_prune (hx : x ∉ removed) : peerOf (prune nodes removed) x = peerOf nodes x := by
  rw [peerOf, prune_of_notMem hx, Option.map_map]
  rfl

theorem peerOf_prune_eq_some : peerOf (prune nodes removed) x = some peer ↔
    peerOf nodes x = some peer ∧ x ∉ removed := by
  by_cases hx : x ∈ removed
  · rw [peerOf, prune_of_mem hx]
    exact iff_of_false (Option.some_ne_none _).symm fun hboth ↦ hboth.2 hx
  · rw [peerOf_prune hx]
    exact (and_iff_left hx).symm

theorem parentOf_prune (hx : x ∉ removed) :
    parentOf (prune nodes removed) x = parentOf nodes x := by
  rw [parentOf, prune_of_notMem hx, parentOf]
  cases nodes x <;> rfl

theorem liveNodes_prune : liveNodes (prune nodes removed) = liveNodes nodes \ removed := by
  ext x
  constructor
  · intro hx
    have hpeer := peerOf_prune_eq_some.mp (exists_peer hx).choose_spec
    exact ⟨live_of_peer hpeer.1, hpeer.2⟩
  · intro hx
    have hpeer := (exists_peer hx.1).choose_spec
    exact live_of_peer (peerOf_prune_eq_some.mpr ⟨hpeer, hx.2⟩)

theorem Shape.links_prune (h : Shape nodes fresh tops) (hclosed : Closed nodes removed) :
    Pruned (childrenOf nodes) (childrenOf (prune nodes removed)) removed where
  closed ha hc := hclosed _ ha _ hc
  mem := mem_childrenOf_prune hclosed
  nodup a := by
    rw [childrenOf_prune]
    split_ifs
    · exact List.nodup_nil
    · exact (h.forest.nodup a).filter _

theorem Shape.pruned (h : Shape nodes fresh tops) (hclosed : Closed nodes removed) :
    Shape (prune nodes removed) fresh (tops \ removed) where
  forest := by
    rw [liveNodes_prune]
    exact h.forest.pruned (h.links_prune hclosed)
  parent hc := by
    rw [mem_childrenOf_prune hclosed] at hc
    rw [parentOf_prune hc.2]
    exact h.parent hc.1
  bounded ha := h.bounded (liveNodes_prune ▸ ha : _ ∈ liveNodes nodes \ removed).1
  distinct ha hb :=
    h.distinct (peerOf_prune_eq_some.mp ha).1 (peerOf_prune_eq_some.mp hb).1

end Prune

end Gnunet.Mesh
