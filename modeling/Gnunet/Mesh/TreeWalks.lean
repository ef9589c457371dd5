import Gnunet.Lib.Runs
import Gnunet.Mesh.TreeShape
import Mathlib.Data.Set.BooleanAlgebra
import Mathlib.Order.CompletePartialOrder

/-!
# Walks over a tunnel tree

The recursions of `mesh_tunnel_tree.c` over a subtree end because there are no more levels than
allocated nodes. Each of them is described by the set of nodes that it visits.
-/

namespace Gnunet.Mesh

open Lib.LinkedForest Lib.Runs Function List Option Nat

variable {t : MeshTunnelTree} {tops : Set ℕ} {a c n p x root peer fuel hop : ℕ}

variable {nodes : Nodes} {list : List ℕ}

theorem mem_subtree_iff :
    x ∈ subtree nodes a ↔ x = a ∨ ∃ c ∈ childrenOf nodes a, x ∈ subtree nodes c :=
  Relation.ReflTransGen.cases_head_iff.trans (or_congr_left eq_comm)

theorem mem_subtree_self : a ∈ subtree nodes a := Relation.ReflTransGen.refl

theorem subtree_congr {nodes' : Nodes} (h : childrenOf nodes' = childrenOf nodes) :
    subtree nodes' a = subtree nodes a := by
  rw [subtree, h, subtree]

def subtrees (nodes : Nodes) (list : List ℕ) : Set ℕ := {x | ∃ c ∈ list, x ∈ subtree nodes c}

theorem subtrees_nil : subtrees nodes [] = ∅ := by
  ext x
  exact iff_of_false (fun hx ↦ absurd hx.choose_spec.1 not_mem_nil) (Set.notMem_empty x)

theorem subtrees_concat : subtrees nodes (list ++ [c]) = subtrees nodes list ∪ subtree nodes c := by
  ext x
  simp only [subtrees, Set.mem_ofPred_eq, Set.mem_union, mem_append, mem_singleton,
    or_and_right, exists_or, exists_eq_left]

theorem subtree_eq : subtree nodes a = insert a (subtrees nodes (childrenOf nodes a)) :=
  Set.ext fun _ ↦ mem_subtree_iff

section Find

theorem findIn_eq (peer : ℕ) (hlive : ∀ n ∈ list, n ∈ liveNodes t.nodes) :
    t.findIn peer list = some (list.find? fun n ↦ peerOf t.nodes n = some peer) := by
  induction list with
  | nil => rfl
  | cons n list ih =>
    rw [forall_mem_cons] at hlive
    obtain ⟨node, hnode⟩ := exists_node hlive.1
    rw [MeshTunnelTree.findIn, ih hlive.2, hnode, find?_cons, peerOf_eq hnode]
    by_cases hpeer : node.peer = peer <;> simp [hpeer]

theorem findIn_cases (peer : ℕ) (hlive : ∀ n ∈ list, n ∈ liveNodes t.nodes) :
    t.findIn peer list = some none ∧ (∀ n ∈ list, peerOf t.nodes n ≠ some peer) ∨
      ∃ n ∈ list, t.findIn peer list = some (some n) ∧ peerOf t.nodes n = some peer := by
  rw [findIn_eq peer hlive]
  cases hfind : list.find? fun n ↦ peerOf t.nodes n = some peer with
  | none => exact .inl ⟨rfl, fun n hn ↦ by simpa using find?_eq_none.mp hfind n hn⟩
  | some n =>
    exact .inr ⟨n, mem_of_find?_eq_some hfind, rfl, by simpa using find?_some hfind⟩

theorem firstFound_cases {search : ℕ → Option (Option ℕ)} {misses : ℕ → Prop} {finds : ℕ → ℕ → Prop}
    (h : ∀ n ∈ list, search n = some none ∧ misses n ∨ ∃ r, search n = some (some r) ∧ finds n r) :
    firstFound search list = some none ∧ (∀ n ∈ list, misses n) ∨
      ∃ n ∈ list, ∃ r, firstFound search list = some (some r) ∧ finds n r := by
  induction list with
  | nil => exact .inl ⟨rfl, fun n hn ↦ absurd hn not_mem_nil⟩
  | cons n list ih =>
    rw [forall_mem_cons] at h
    cases h.1 with
    | inr hfound =>
      obtain ⟨r, hsearch, hr⟩ := hfound
      exact .inr ⟨n, mem_cons_self, r, by rw [firstFound, hsearch]; rfl, hr⟩
    | inl hnone =>
      have hstep : firstFound search (n :: list) = firstFound search list := by
        rw [firstFound, hnone.1]
        rfl
      rw [hstep]
      cases ih h.2 with
      | inl hrest => exact .inl ⟨hrest.1, forall_mem_cons.mpr ⟨hnone.2, hrest.2⟩⟩
      | inr hrest =>
        obtain ⟨m, hm, hrest⟩ := hrest
        exact .inr ⟨m, mem_cons_of_mem n hm, hrest⟩

theorem treeNodeFindPeer_cases (h : Shape t.nodes t.fresh tops) (ha : a ∈ liveNodes t.nodes)
    (hfuel : size (childrenOf t.nodes) (Finset.range t.fresh) a ≤ fuel) :
    treeNodeFindPeer t peer fuel a = some none ∧
        (∀ x ∈ subtree t.nodes a, peerOf t.nodes x ≠ some peer) ∨
      ∃ n, treeNodeFindPeer t peer fuel a = some (some n) ∧ n ∈ subtree t.nodes a ∧
        peerOf t.nodes n = some peer := by
  induction fuel generalizing a with
  | zero => exact absurd hfuel (not_le.mpr (Forest.size_pos h.live_subset ha))
  | succ fuel ih =>
    obtain ⟨node, hnode⟩ := exists_node ha
    have hchildren := childrenOf_eq hnode
    have hstep : treeNodeFindPeer t peer (fuel + 1) a = if node.peer = peer then some (some a)
        else firstFound (treeNodeFindPeer t peer fuel) node.children := by
      rw [treeNodeFindPeer, hnode]
      rfl
    by_cases hpeer : node.peer = peer
    · refine .inr ⟨a, by rw [hstep, if_pos hpeer], mem_subtree_self, ?_⟩
      rw [peerOf_eq hnode, hpeer]
    · rw [hstep, if_neg hpeer, ← hchildren]
      have hsearch (c : ℕ) (hc : c ∈ childrenOf t.nodes a) :=
        ih (h.forest.child_live hc)
          (le_of_lt_succ ((h.forest.size_lt h.live_subset hc).trans_le hfuel))
      cases firstFound_cases hsearch with
      | inl hnone =>
        refine .inl ⟨hnone.1, fun x hx ↦ ?_⟩
        cases mem_subtree_iff.mp hx with
        | inl heq =>
          rw [heq, peerOf_eq hnode]
          exact fun heq ↦ hpeer (some.inj heq)
        | inr hx =>
          obtain ⟨c, hc, hx⟩ := hx
          exact hnone.2 c hc x hx
      | inr hfound =>
        obtain ⟨c, hc, r, hsearch, hr⟩ := hfound
        exact .inr ⟨r, hsearch, mem_subtree_iff.mpr (.inr ⟨c, hc, hr.1⟩), hr.2⟩

theorem treeFindPeer_cases (peer : ℕ) (h : Shape t.nodes t.fresh tops)
    (hroot : t.root = some root) (hlive : root ∈ liveNodes t.nodes) :
    treeFindPeer t peer = some none ∧
        (∀ x ∈ subtree t.nodes root, peerOf t.nodes x ≠ some peer) ∨
      ∃ n, treeFindPeer t peer = some (some n) ∧ n ∈ subtree t.nodes root ∧
        peerOf t.nodes n = some peer := by
  have heq : treeFindPeer t peer = treeNodeFindPeer t peer t.fresh root := by
    rw [treeFindPeer, hroot]
    rfl
  rw [heq]
  exact treeNodeFindPeer_cases h hlive Shape.size_le

theorem treeFindPeer_of_mem (h : Shape t.nodes t.fresh tops) (hroot : t.root = some root)
    (hlive : root ∈ liveNodes t.nodes) (hx : x ∈ subtree t.nodes root)
    (hpeer : peerOf t.nodes x = some peer) : treeFindPeer t peer = some (some x) := by
  cases treeFindPeer_cases peer h hroot hlive with
  | inl hnone => exact absurd hpeer (hnone.2 x hx)
  | inr hfound =>
    obtain ⟨n, hfind, -, hn⟩ := hfound
    rw [hfind, h.distinct hn hpeer]

end Find

section Hops

structure Overridden (hops hops' : ℕ → Option ℕ) (peers : Set ℕ) (entry : Option ℕ) : Prop where
  inside : ∀ {peer}, peer ∈ peers → hops' peer = entry
  outside : ∀ {peer}, peer ∉ peers → hops' peer = hops peer

theorem Overridden.trans {hops hops' hops'' : ℕ → Option ℕ} {peers peers' : Set ℕ}
    {entry : Option ℕ} (h : Overridden hops hops' peers entry)
    (h' : Overridden hops' hops'' peers' entry) :
    Overridden hops hops'' (peers ∪ peers') entry where
  inside {peer} hpeer := by
    by_cases hin : peer ∈ peers'
    · exact h'.inside hin
    · rw [h'.outside hin]
      exact h.inside (hpeer.resolve_right hin)
  outside hpeer := by
    rw [Set.mem_union, not_or] at hpeer
    rw [h'.outside hpeer.2, h.outside hpeer.1]

theorem overridden_update (hops : ℕ → Option ℕ) (entry : Option ℕ) :
    Overridden hops (update hops peer entry) {peer} entry where
  inside hpeer := by rw [Set.mem_singleton_iff.mp hpeer, update_self]
  outside hpeer := update_of_ne hpeer ..

theorem overridden_empty (hops : ℕ → Option ℕ) (entry : Option ℕ) :
    Overridden hops hops ∅ entry where
  inside hpeer := absurd hpeer (Set.notMem_empty _)
  outside _ := rfl

theorem peersOf_singleton {node : MeshTunnelTreeNode} (hnode : nodes a = some node) :
    peersOf nodes {a} = {node.peer} := by
  ext peer
  constructor
  · rintro ⟨b, rfl, hpeer⟩
    rw [peerOf_eq hnode] at hpeer
    exact (some.inj hpeer).symm
  · intro hpeer
    exact ⟨a, rfl, by rw [peerOf_eq hnode, Set.mem_singleton_iff.mp hpeer]⟩

theorem peersOf_empty : peersOf nodes ∅ = ∅ := by
  ext peer
  exact iff_of_false (fun hpeer ↦ absurd hpeer.choose_spec.1 (Set.notMem_empty _))
    (Set.notMem_empty peer)

structure Hopped (t t' : MeshTunnelTree) (s : Set ℕ) (hop : ℕ) : Prop where
  hops : Overridden t.firstHops t'.firstHops (peersOf t.nodes s) (some hop)
  rest : t' = { t with firstHops := t'.firstHops }

theorem Hopped.nodes_eq {t' : MeshTunnelTree} {s : Set ℕ} (h : Hopped t t' s hop) :
    t'.nodes = t.nodes := by
  rw [h.rest]

theorem Hopped.trans {t' t'' : MeshTunnelTree} {s s' : Set ℕ} (h : Hopped t t' s hop)
    (h' : Hopped t' t'' s' hop) : Hopped t t'' (s ∪ s') hop where
  hops := by
    rw [peersOf_union, ← h.nodes_eq]
    exact (h.nodes_eq ▸ h.hops).trans h'.hops
  rest := by
    rw [h'.rest, h.rest]

theorem treeNodeUpdateFirstHops_some (hop : ℕ) (h : Shape t.nodes t.fresh tops)
    (ha : a ∈ liveNodes t.nodes)
    (hfuel : size (childrenOf t.nodes) (Finset.range t.fresh) a ≤ fuel) :
    ∃ t', treeNodeUpdateFirstHops fuel a (some hop) t = some t' ∧
      Hopped t t' (subtree t.nodes a) hop := by
  induction fuel generalizing a t with
  | zero => exact absurd hfuel (not_le.mpr (Forest.size_pos h.live_subset ha))
  | succ fuel ih =>
    obtain ⟨node, hnode⟩ := exists_node ha
    let first : MeshTunnelTree :=
      { t with firstHops := update t.firstHops node.peer (some hop) }
    have hfirst : Hopped t first {a} hop :=
      ⟨by rw [peersOf_singleton hnode]; exact overridden_update _ _, rfl⟩
    have hstep : treeNodeUpdateFirstHops (fuel + 1) a (some hop) t = (childrenOf t.nodes a).foldlM
          (fun t n ↦ treeNodeUpdateFirstHops fuel n (some hop) t) first := by
      rw [treeNodeUpdateFirstHops, hnode, childrenOf_eq hnode]
      rfl
    rw [hstep, subtree_eq]
    apply foldlM_total fun t' seen ↦ Hopped t t' ({a} ∪ subtrees t.nodes seen) hop
    · rw [subtrees_nil, Set.union_empty]
      exact hfirst
    · intro seen c rest t₁ hlist hc hseen
      have hnodes := hseen.nodes_eq
      have hfresh : t₁.fresh = t.fresh := by rw [hseen.rest]
      have hsize : size (childrenOf t₁.nodes) (Finset.range t₁.fresh) c ≤ fuel := by
        rw [hnodes, hfresh]
        exact le_of_lt_succ ((h.forest.size_lt h.live_subset hc).trans_le hfuel)
      obtain ⟨t₂, ht₂, hhopped⟩ := ih (t := t₁) (a := c) (by rw [hnodes, hfresh]; exact h)
        (by rw [hnodes]; exact h.forest.child_live hc) hsize
      refine ⟨t₂, ht₂, ?_⟩
      rw [subtrees_concat, ← Set.union_assoc]
      rw [hnodes] at hhopped
      exact hseen.trans hhopped

section

variable (h : Shape t.nodes t.fresh tops) {m : ℕ} (hme : t.me = some m)
  (ha : a ∈ liveNodes t.nodes) (hbelow : a ∈ subtree t.nodes m)
include h hme ha hbelow

theorem climb_cases (old : ℕ)
    (hfuel : depth (childrenOf t.nodes) (Finset.range t.fresh) a ≤ fuel) :
    a = m ∧ climb t fuel a old = some old ∨
      ∃ c ∈ childrenOf t.nodes m, a ∈ subtree t.nodes c ∧ climb t fuel a old = some c := by
  induction fuel generalizing a old with
  | zero => exact absurd hfuel (not_le.mpr (Forest.depth_pos h.live_subset ha))
  | succ fuel ih =>
    by_cases hme' : m = a
    · refine .inl ⟨hme'.symm, ?_⟩
      rw [climb, if_pos (by rw [hme, hme'])]
    · cases hbelow with
      | refl => exact absurd rfl hme'
      | @tail y _ hmy hya =>
        obtain ⟨node, hnode⟩ := exists_node ha
        have hstep : climb t (fuel + 1) a old = climb t fuel y a := by
          rw [climb, if_neg (by rw [hme]; exact fun heq ↦ hme' (some.inj heq)), hnode]
          change node.parent.bind _ = _
          rw [h.parent_eq hnode hya]
          rfl
        have hdepth : depth (childrenOf t.nodes) (Finset.range t.fresh) y ≤ fuel :=
          le_of_lt_succ ((h.forest.depth_lt h.live_subset hya).trans_le hfuel)
        rw [hstep]
        right
        cases ih (h.forest.parent_live hya) hmy a hdepth with
        | inl heq => exact ⟨a, heq.1 ▸ hya, mem_subtree_self, heq.2⟩
        | inr hfound =>
          obtain ⟨c, hc, hcy, hclimb⟩ := hfound
          exact ⟨c, hc, hcy.tail hya, hclimb⟩

theorem findHop_cases :
    ∃ hop, findHop t a none = some hop ∧ (a = m ∨
      ∃ c ∈ childrenOf t.nodes m, a ∈ subtree t.nodes c ∧ peerOf t.nodes c = some hop) := by
  have hread {old : ℕ} {node : MeshTunnelTreeNode} (hclimb : climb t t.fresh a a = some old)
      (hnode : t.nodes old = some node) : findHop t a none = some node.peer := by
    rw [findHop, hclimb]
    simp only [bind_eq_bind, bind_some, hnode]
  cases climb_cases h hme ha hbelow a Shape.depth_le with
  | inl hself =>
    obtain ⟨node, hnode⟩ := exists_node ha
    exact ⟨node.peer, hread hself.2 hnode, .inl hself.1⟩
  | inr hfound =>
    obtain ⟨c, hc, hac, hclimb⟩ := hfound
    obtain ⟨node, hnode⟩ := exists_node (h.forest.child_live hc)
    exact ⟨node.peer, hread hclimb hnode, .inr ⟨c, hc, hac, peerOf_eq hnode⟩⟩

end

theorem treeNodeUpdateFirstHops_none (hhop : findHop t a none = some hop) :
    treeNodeUpdateFirstHops fuel a none t = treeNodeUpdateFirstHops fuel a (some hop) t := by
  cases fuel with
  | zero => rfl
  | succ fuel =>
    rw [treeNodeUpdateFirstHops, hhop]
    rfl

end Hops

section Mark

def markNode (node : MeshTunnelTreeNode) : MeshTunnelTreeNode :=
  if node.status = .ready then { node with status := .reconnecting } else node

def readyPeers (nodes : Nodes) (s : Set ℕ) : Set ℕ :=
  {peer | ∃ a ∈ s, ∃ node, nodes a = some node ∧ node.status = .ready ∧ node.peer = peer}

structure Marked (t t' : MeshTunnelTree) (s : Set ℕ) : Prop where
  inside : ∀ {x}, x ∈ s → t'.nodes x = (t.nodes x).map markNode
  outside : ∀ {x}, x ∉ s → t'.nodes x = t.nodes x
  hops : Overridden t.firstHops t'.firstHops (peersOf t.nodes s) none
  told : ∃ told, t'.reported = t.reported ++ told ∧ told.Nodup ∧
    ∀ peer, peer ∈ told ↔ peer ∈ readyPeers t.nodes s
  rest : t' = { t with nodes := t'.nodes, firstHops := t'.firstHops, reported := t'.reported }

theorem links_markNode (node : MeshTunnelTreeNode) : (markNode node).children = node.children ∧
    (markNode node).parent = node.parent ∧ (markNode node).peer = node.peer := by
  unfold markNode
  split <;> exact ⟨rfl, rfl, rfl⟩

variable {t' t'' : MeshTunnelTree} {s s' : Set ℕ}

theorem Marked.sameLinks (h : Marked t t' s) : SameLinks t.nodes t'.nodes := by
  constructor <;> funext x <;> by_cases hx : x ∈ s
  · rw [childrenOf, h.inside hx, Option.map_map]
    simp only [comp_def, links_markNode]
    rfl
  · rw [childrenOf, h.outside hx, childrenOf]
  · rw [parentOf, h.inside hx, Option.bind_map]
    simp only [comp_def, links_markNode]
    rfl
  · rw [parentOf, h.outside hx, parentOf]
  · rw [peerOf, h.inside hx, Option.map_map]
    simp only [comp_def, links_markNode]
    rfl
  · rw [peerOf, h.outside hx, peerOf]

theorem readyPeers_union :
    readyPeers nodes (s ∪ s') = readyPeers nodes s ∪ readyPeers nodes s' := by
  ext peer
  simp only [readyPeers, Set.mem_ofPred_eq, Set.mem_union, or_and_right, exists_or]

theorem readyPeers_congr {nodes' : Nodes} (h : ∀ x ∈ s, nodes' x = nodes x) :
    readyPeers nodes' s = readyPeers nodes s := by
  ext peer
  refine exists_congr fun x ↦ and_congr_right fun hx ↦ ?_
  rw [h x hx]

theorem marked_refl : Marked t t ∅ where
  inside hx := absurd hx (Set.notMem_empty _)
  outside _ := rfl
  hops := by
    rw [peersOf_empty]
    exact overridden_empty _ _
  told := by
    refine ⟨[], (append_nil _).symm, nodup_nil, fun peer ↦ ?_⟩
    refine iff_of_false not_mem_nil ?_
    rintro ⟨x, hx, -⟩
    exact Set.notMem_empty x hx
  rest := rfl

theorem Marked.trans (h : Marked t t' s) (h' : Marked t' t'' s') (hdisjoint : Disjoint s s')
    (hshape : Shape t.nodes t.fresh tops) : Marked t t'' (s ∪ s') where
  inside {x} hx := by
    by_cases hs : x ∈ s
    · rw [h'.outside (Set.disjoint_left.mp hdisjoint hs), h.inside hs]
    · rw [h'.inside (hx.resolve_left hs), h.outside hs]
  outside {x} hx := by
    rw [Set.mem_union, not_or] at hx
    rw [h'.outside hx.2, h.outside hx.1]
  hops := by
    have hpeers := peersOf_congr h.sameLinks.peers s'
    rw [peersOf_union, ← hpeers]
    exact h.hops.trans h'.hops
  told := by
    obtain ⟨told, htold, hnodup, hmem⟩ := h.told
    obtain ⟨told', htold', hnodup', hmem'⟩ := h'.told
    have hsame : readyPeers t'.nodes s' = readyPeers t.nodes s' :=
      readyPeers_congr fun x hx ↦ h.outside (Set.disjoint_right.mp hdisjoint hx)
    rw [hsame] at hmem'
    refine ⟨told ++ told', ?_, ?_, fun peer ↦ ?_⟩
    · rw [htold', htold, append_assoc]
    · apply hnodup.append hnodup'
      intro peer hpeer hpeer'
      obtain ⟨a, ha, _, hnode, -, heq⟩ := (hmem peer).mp hpeer
      obtain ⟨b, hb, _, hother, -, heq'⟩ := (hmem' peer).mp hpeer'
      have hab : a = b := hshape.distinct (peerOf_eq hnode)
        ((peerOf_eq hother).trans (congrArg some (heq'.trans heq.symm)))
      exact Set.disjoint_left.mp hdisjoint ha (hab ▸ hb)
    · rw [readyPeers_union, mem_append, hmem, hmem']
      rfl
  rest := by
    rw [h'.rest, h.rest]

theorem markPeer_marked {node : MeshTunnelTreeNode} (hnode : t.nodes a = some node) :
    ∃ t', markPeer t a = some t' ∧ Marked t t' {a} := by
  have hpeers := peersOf_singleton hnode
  by_cases hready : node.status = .ready
  · refine ⟨{ t.setNode a { node with status := .reconnecting } with
      reported := t.reported ++ [node.peer]
      firstHops := update t.firstHops node.peer none }, ?_, ?_⟩
    · rw [markPeer, hnode]
      simp only [bind_eq_bind, bind_some, if_pos hready]
      rfl
    · constructor
      · rintro x rfl
        rw [hnode, map_some, markNode, if_pos hready]
        exact update_self ..
      · intro x hx
        exact update_of_ne hx ..
      · rw [hpeers]
        exact overridden_update _ _
      · refine ⟨[node.peer], rfl, nodup_singleton _, fun peer ↦ ?_⟩
        rw [mem_singleton]
        constructor
        · rintro rfl
          exact ⟨a, rfl, node, hnode, hready, rfl⟩
        · rintro ⟨x, rfl, other, hother, -, hpeer⟩
          rw [hnode] at hother
          rw [← hpeer, some.inj hother]
      · rfl
  · refine ⟨{ t with firstHops := update t.firstHops node.peer none }, ?_, ?_⟩
    · rw [markPeer, hnode]
      simp only [bind_eq_bind, bind_some, if_neg hready]
    · constructor
      · rintro x rfl
        rw [hnode, map_some, markNode, if_neg hready]
      · intro x _
        rfl
      · rw [hpeers]
        exact overridden_update _ _
      · refine ⟨[], (append_nil _).symm, nodup_nil, fun peer ↦ ?_⟩
        refine iff_of_false not_mem_nil ?_
        rintro ⟨x, rfl, other, hother, hstatus, -⟩
        rw [hnode] at hother
        exact hready (some.inj hother ▸ hstatus)
      · rfl

theorem Shape.disjoint_subtrees {fresh : ℕ} (h : Shape nodes fresh tops) {seen rest : List ℕ}
    (hlist : childrenOf nodes a = seen ++ c :: rest) :
    Disjoint (subtrees nodes seen) (subtree nodes c) := by
  apply Set.disjoint_left.mpr
  rintro x ⟨d, hd, hdx⟩ hcx
  have hchildren : ∀ b ∈ seen ++ c :: rest, b ∈ childrenOf nodes a := fun b hb ↦ hlist ▸ hb
  have hdc := h.forest.child_unique (hchildren d (mem_append_left _ hd))
    (hchildren c (mem_append_right _ mem_cons_self)) hdx hcx
  have hnodup := h.forest.nodup a
  rw [hlist, nodup_append] at hnodup
  exact hnodup.2.2 d hd c mem_cons_self hdc

theorem Shape.notMem_subtrees {fresh : ℕ} (h : Shape nodes fresh tops) :
    a ∉ subtrees nodes (childrenOf nodes a) := by
  rintro ⟨c, hc, hca⟩
  exact h.forest.not_below_child hc hca

theorem treeMarkPeersDisconnected_marked (h : Shape t.nodes t.fresh tops)
    (ha : a ∈ liveNodes t.nodes)
    (hfuel : size (childrenOf t.nodes) (Finset.range t.fresh) a ≤ fuel) :
    ∃ t', treeMarkPeersDisconnected fuel a t = some t' ∧ Marked t t' (subtree t.nodes a) := by
  induction fuel generalizing a t with
  | zero => exact absurd hfuel (not_le.mpr (Forest.size_pos h.live_subset ha))
  | succ fuel ih =>
    obtain ⟨_, hnode⟩ := exists_node ha
    have hchildren : ∃ t', (childrenOf t.nodes a).foldlM
        (fun t n ↦ treeMarkPeersDisconnected fuel n t) t = some t' ∧
        Marked t t' (subtrees t.nodes (childrenOf t.nodes a)) := by
      apply foldlM_total fun t' seen ↦ Marked t t' (subtrees t.nodes seen)
      · rw [subtrees_nil]
        exact marked_refl
      · intro seen c rest t₁ hlist hc hseen
        have hsame := hseen.sameLinks
        have hfresh : t₁.fresh = t.fresh := by rw [hseen.rest]
        have hsize : size (childrenOf t₁.nodes) (Finset.range t₁.fresh) c ≤ fuel := by
          rw [hsame.children, hfresh]
          exact le_of_lt_succ ((h.forest.size_lt h.live_subset hc).trans_le hfuel)
        obtain ⟨t₂, ht₂, hmarked⟩ := ih (t := t₁) (a := c) (by rw [hfresh]; exact h.relabel hsame)
          (by rw [liveNodes_congr hsame.peers]; exact h.forest.child_live hc) hsize
        rw [subtree_congr hsame.children] at hmarked
        refine ⟨t₂, ht₂, ?_⟩
        rw [subtrees_concat]
        exact hseen.trans hmarked (h.disjoint_subtrees hlist) h
    obtain ⟨t₁, ht₁, hmarked⟩ := hchildren
    have hself : a ∉ subtrees t.nodes (childrenOf t.nodes a) := h.notMem_subtrees
    obtain ⟨t₂, ht₂, hlast⟩ := markPeer_marked ((hmarked.outside hself).trans hnode)
    refine ⟨t₂, ?_, ?_⟩
    · rw [treeMarkPeersDisconnected, hnode]
      rw [childrenOf_eq hnode] at ht₁
      simp only [bind_eq_bind, bind_some, ht₁]
      exact ht₂
    · rw [subtree_eq, ← Set.union_singleton]
      exact hmarked.trans hlast (Set.disjoint_singleton_right.mpr hself) h

end Mark

section Destroy

variable {nodes : Nodes} {node up : MeshTunnelTreeNode}

theorem prune_singleton_of_ne (hx : x ≠ a) (hmem : a ∉ childrenOf nodes x) :
    prune nodes {a} x = nodes x := by
  cases hnode : nodes x with
  | none => exact prune_eq_none hnode
  | some node =>
    rw [childrenOf_eq hnode] at hmem
    rw [prune_of_notMem (Set.mem_singleton_iff.not.mpr hx), hnode, map_some,
      filter_kept_eq_self hmem]

theorem prune_singleton_top (hmem : ∀ x, a ∉ childrenOf nodes x) :
    prune nodes {a} = update nodes a none := by
  funext x
  by_cases hx : x = a
  · rw [hx, update_self]
    exact prune_of_mem rfl
  · rw [update_of_ne hx]
    exact prune_singleton_of_ne hx (hmem x)

theorem prune_singleton_child (hup : nodes p = some up) (hne : p ≠ a) (hnodup : up.children.Nodup)
    (hmem : ∀ x, a ∈ childrenOf nodes x → x = p) :
    prune nodes {a} = update (update nodes p
      (some { up with children := up.children.erase a })) a none := by
  funext x
  by_cases hx : x = a
  · rw [hx, update_self]
    exact prune_of_mem rfl
  · rw [update_of_ne hx]
    by_cases hxp : x = p
    · subst hxp
      rw [update_self, prune_of_notMem (Set.mem_singleton_iff.not.mpr hne), hup, map_some,
        filter_kept_singleton hnodup]
    · rw [update_of_ne hxp]
      exact prune_singleton_of_ne hx fun hin ↦ hxp (hmem x hin)

theorem closed_subtrees (list : List ℕ) : Closed nodes (subtrees nodes list) := by
  rintro a ⟨d, hd, hda⟩ c hc
  exact ⟨d, hd, hda.tail hc⟩

theorem removeChild_eq (hup : t.nodes p = some up) (hmem : a ∈ up.children) :
    t.removeChild p a = some (t.setNode p { up with children := up.children.erase a }) := by
  rw [MeshTunnelTree.removeChild, hup]
  exact if_pos hmem

/-- A node is in the list of the parent it points to; it is a top if it points to none. -/
def Placed (nodes : Nodes) (tops : Set ℕ) (a : ℕ) : Prop :=
  (∀ up, parentOf nodes a = some up → a ∈ childrenOf nodes up) ∧
    (parentOf nodes a = none → a ∈ tops)

theorem Shape.placed_child {fresh : ℕ} (h : Shape nodes fresh tops) (hc : c ∈ childrenOf nodes a) :
    Placed nodes tops c := by
  rw [Placed, h.parent hc]
  exact ⟨fun up heq ↦ some.inj heq ▸ hc, fun hnone ↦ absurd hnone (some_ne_none _)⟩

theorem placed_top (htop : a ∈ tops) (hparent : parentOf nodes a = none) : Placed nodes tops a := by
  rw [Placed, hparent]
  exact ⟨fun up heq ↦ absurd heq.symm (some_ne_none up), fun _ ↦ htop⟩

theorem unlink_eq (h : Shape t.nodes t.fresh tops) (hnode : t.nodes a = some node)
    (hplaced : Placed t.nodes tops a) :
    (match node.parent with
      | none => some (t.free a)
      | some up => do
        let t ← t.removeChild up a
        some (t.free a)) = some { t with nodes := prune t.nodes {a} } := by
  have hparent := parentOf_eq hnode
  cases hcase : node.parent with
  | none =>
    rw [hcase] at hparent
    rw [prune_singleton_top fun x ↦ h.forest.top_free (hplaced.2 hparent)]
    rfl
  | some p =>
    rw [hcase] at hparent
    have hmem := hplaced.1 p hparent
    obtain ⟨upper, hupper⟩ := exists_node (h.forest.parent_live hmem)
    have hnodup := h.forest.nodup p
    rw [childrenOf_eq hupper] at hnodup
    rw [prune_singleton_child hupper (Ne.symm (h.ne_of_child hmem)) hnodup
      fun x hx ↦ h.forest.unique hx hmem]
    rw [childrenOf_eq hupper] at hmem
    simp only [removeChild_eq hupper hmem]
    rfl

theorem subtree_leaf (hleaf : childrenOf nodes a = []) : subtree nodes a = {a} := by
  rw [subtree_eq, hleaf, subtrees_nil, insert_empty_eq]

theorem treeNodeDestroy_eq (h : Shape t.nodes t.fresh tops) (ha : a ∈ liveNodes t.nodes)
    (hplaced : Placed t.nodes tops a)
    (hfuel : size (childrenOf t.nodes) (Finset.range t.fresh) a ≤ fuel) :
    treeNodeDestroy fuel a t = some { t with nodes := prune t.nodes (subtree t.nodes a) } := by
  induction fuel generalizing a t tops with
  | zero => exact absurd hfuel (not_le.mpr (Forest.size_pos h.live_subset ha))
  | succ fuel ih =>
    obtain ⟨_, hnode⟩ := exists_node ha
    have hchildren : ∃ t', (childrenOf t.nodes a).foldlM
        (fun t n ↦ treeNodeDestroy fuel n t) t = some t' ∧
        t' = { t with nodes := prune t.nodes (subtrees t.nodes (childrenOf t.nodes a)) } := by
      apply foldlM_total fun (t' : MeshTunnelTree) (seen : List ℕ) ↦
        t' = { t with nodes := prune t.nodes (subtrees t.nodes seen) }
      · rw [subtrees_nil, prune_empty]
      · intro seen c rest t₁ hlist hc hseen
        have hdisjoint := h.disjoint_subtrees hlist
        have hout : c ∉ subtrees t.nodes seen :=
          Set.disjoint_right.mp hdisjoint mem_subtree_self
        have hlinks := h.links_prune (closed_subtrees seen)
        have hpruned := h.pruned (closed_subtrees seen)
        have hsize : size (childrenOf (prune t.nodes (subtrees t.nodes seen)))
            (Finset.range t.fresh) c ≤ fuel := by
          refine (size_mono fun x ↦ hlinks.below_of_below).trans ?_
          exact le_of_lt_succ ((h.forest.size_lt h.live_subset hc).trans_le hfuel)
        have hmem : c ∈ childrenOf (prune t.nodes (subtrees t.nodes seen)) a :=
          hlinks.mem.mpr ⟨hc, hout⟩
        subst hseen
        have hlive := hpruned.forest.child_live hmem
        refine ⟨_, ih hpruned hlive (hpruned.placed_child hmem) hsize, ?_⟩
        have hunion : subtrees t.nodes seen ∪ subtree (prune t.nodes (subtrees t.nodes seen)) c =
            subtrees t.nodes (seen ++ [c]) := by
          rw [subtrees_concat]
          ext x
          by_cases hx : x ∈ subtrees t.nodes seen
          · exact iff_of_true (.inl hx) (.inl hx)
          · exact or_congr_right (hlinks.below_iff hx)
        rw [prune_prune, hunion]
    obtain ⟨t₁, ht₁, heq⟩ := hchildren
    have hself : a ∉ subtrees t.nodes (childrenOf t.nodes a) := h.notMem_subtrees
    have hclosed : Closed t.nodes (subtrees t.nodes (childrenOf t.nodes a)) := closed_subtrees _
    have hpruned := (prune_of_notMem hself).trans (congrArg (Option.map _) hnode)
    have hstays : Placed (prune t.nodes (subtrees t.nodes (childrenOf t.nodes a)))
        (tops \ subtrees t.nodes (childrenOf t.nodes a)) a := by
      rw [Placed, parentOf_prune hself]
      refine ⟨fun up hparent ↦ ?_, fun hparent ↦ ⟨hplaced.2 hparent, hself⟩⟩
      exact (mem_childrenOf_prune hclosed).mpr ⟨hplaced.1 up hparent, hself⟩
    have hlast := unlink_eq (t := t₁) (by rw [heq]; exact h.pruned hclosed)
      (by rw [heq]; exact hpruned) (by rw [heq]; exact hstays)
    rw [treeNodeDestroy, hnode]
    rw [childrenOf_eq hnode] at ht₁
    simp only [bind_eq_bind, bind_some, ht₁]
    refine hlast.trans ?_
    rw [heq]
    simp only [prune_prune, Set.union_singleton]
    rw [← subtree_eq]

end Destroy

end Gnunet.Mesh
