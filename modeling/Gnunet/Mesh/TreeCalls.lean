import Gnunet.Mesh.TreeAddPath

/-!
# The other operations on a tunnel tree

Taking a peer out of the tree, a broken connection, the status of a peer and the first hop to it.
-/

namespace Gnunet.Mesh

open Lib.LinkedForest Lib.Runs Function List Option

variable {t t' : MeshTunnelTree} {a c m n p x root peer : ℕ} {exempt : Set ℕ}
  {loose : Option ℕ} {node : MeshTunnelTreeNode}

section Broken

theorem Sound.disconnect_spec (h : Sound t none) (hroot : t.root = some root)
    (hp : p ∈ subtree t.nodes root) (hpn : n ∈ childrenOf t.nodes p) :
    ∃ t', disconnect t p n = some t' ∧ Sound t' none ∧
      (HopsRight t exempt → HopsRight t' exempt) := by
  have hn : n ∈ subtree t.nodes root := hp.tail hpn
  have hrootn : root ∉ subtree t.nodes n := by
    apply h.root_notMem_subtree hroot
    rintro rfl
    exact h.shape.forest.top_free (.inl hroot) hpn
  obtain ⟨t₁, ht₁, hmarked⟩ := treeMarkPeersDisconnected_marked h.shape
    (h.shape.forest.child_live hpn) Shape.size_le
  have hsame := hmarked.sameLinks
  have hshape₁ := h.shape.relabel hsame
  rw [← hsame.children] at hpn
  obtain ⟨up, hup⟩ := exists_node (hshape₁.forest.parent_live hpn)
  obtain ⟨node, hnode⟩ := exists_node (hshape₁.forest.child_live hpn)
  have hnp := hshape₁.ne_of_child hpn
  have hmem : n ∈ up.children := childrenOf_eq hup ▸ hpn
  let t' : MeshTunnelTree :=
    { t₁ with
      nodes := cutOff t₁.nodes p n up node node.parent
      disconnected := n :: t₁.disconnected }
  have hdisconnected : t₁.disconnected = t.disconnected := by rw [hmarked.rest]
  have hroot₁ : t₁.root = t.root := by rw [hmarked.rest]
  have hme₁ : t₁.me = t.me := by rw [hmarked.rest]
  have hfresh₁ : t₁.fresh = t.fresh := by rw [hmarked.rest]
  have hcut : cutOff t₁.nodes p n up node node.parent =
      update t₁.nodes p (some { up with children := up.children.erase n }) :=
    update_eq_self_iff.mpr ((update_of_ne hnp ..).trans hnode).symm
  have hchildren {a c : ℕ} (hc : c ∈ childrenOf t'.nodes a) : c ∈ childrenOf t.nodes a := by
    change c ∈ childrenOf (cutOff _ _ _ _ _ _) a at hc
    rw [childrenOf_cutOff hup hnode hnp, hshape₁.forest.mem_detach hpn, hsame.children] at hc
    exact hc.1
  have hpeers : peerOf t'.nodes = peerOf t.nodes := (peerOf_cutOff hup hnode).trans hsame.peers
  have hstatus : statusOf t'.nodes = statusOf t₁.nodes := statusOf_cutOff hup hnode
  have hshape : Shape t'.nodes t'.fresh (topsOf t' none) := by
    have htops : topsOf t' none = insert n (topsOf t none) := by
      ext x
      rw [Set.mem_insert_iff, mem_topsOf_none, mem_topsOf_none]
      change t₁.root = some x ∨ x ∈ n :: t₁.disconnected ↔ _
      rw [hroot₁, hdisconnected, mem_cons, or_left_comm]
    rw [htops]
    change Shape (cutOff _ _ _ _ _ _) t₁.fresh _
    rw [hfresh₁]
    exact hshape₁.cut hup hnode hmem
  refine ⟨t', ?_, ?_, fun hhops ↦ hhops.shrink hshape hchildren ?_ ?_ hme₁⟩
  · rw [disconnect, ht₁]
    simp only [bind_eq_bind, bind_some, removeChild_eq hup hmem, t', hcut]
    rfl
  · constructor
    · exact hshape
    · change (n :: t₁.disconnected).Nodup
      rw [hdisconnected]
      refine nodup_cons.mpr ⟨fun hd ↦ ?_, h.listed⟩
      exact h.notMem_subtree_disconnected hroot hn hd mem_subtree_self
    · intro top htop
      change top ∉ n :: t₁.disconnected
      have htop : t.root = some top := hroot₁.symm.trans htop
      rw [hdisconnected, mem_cons, not_or]
      refine ⟨?_, h.root_free htop⟩
      have htoproot : top = root := some.inj (htop.symm.trans hroot)
      exact fun heq ↦ hrootn (htoproot ▸ heq ▸ mem_subtree_self)
    · exact fun hm ↦ absurd hm.symm (some_ne_none _)
    · intro top htop
      have htop : t.root = some top := hroot₁.symm.trans htop
      obtain rfl := some.inj (htop.symm.trans hroot)
      rw [hstatus, statusOf, hmarked.outside hrootn]
      exact h.root_status htop
    · intro top htop
      have htop : t.root = some top := hroot₁.symm.trans htop
      obtain rfl := some.inj (htop.symm.trans hroot)
      change parentOf (cutOff _ _ _ _ _ _) top = none
      have htopn : top ≠ n := fun heq ↦ hrootn (heq ▸ mem_subtree_self)
      rw [parentOf_cutOff hup, update_of_ne htopn, hsame.parents]
      exact h.root_parent htop
    · intro a ha
      rw [hpeers] at ha
      exact hme₁.trans (h.me_known ha)
    · intro m hm hlive
      rw [liveNodes_congr hpeers] at hlive
      rw [hpeers]
      exact h.me_peer (hme₁.symm.trans hm) hlive
    · intro m hm
      change m < t₁.fresh
      rw [hfresh₁]
      exact h.me_bound (hme₁.symm.trans hm)
    · intro d hd
      apply readyPeers_eq_empty_iff.mpr
      intro x hx
      have hxd : x ∈ subtree t.nodes d := below_of_agree (fun _ _ _ hc ↦ hchildren hc) hx
      rw [hstatus]
      by_cases hxn : x ∈ subtree t.nodes n
      · exact hmarked.status hxn
      · rw [statusOf, hmarked.outside hxn]
        have hd := hd.resolve_right (some_ne_none _ ∘ Eq.symm)
        change d ∈ n :: t₁.disconnected at hd
        rw [hdisconnected, mem_cons] at hd
        cases hd with
        | inl heq => exact absurd (heq ▸ hxd) hxn
        | inr hd => exact readyPeers_eq_empty_iff.mp (h.quiet (.inl hd)) x hxd
  · intro x q hq
    rw [hpeers] at hq
    exact hq
  · intro q
    by_cases hq : q ∈ peersOf t.nodes (subtree t.nodes n)
    · exact .inl (hmarked.hops.inside hq)
    · exact .inr (hmarked.hops.outside hq)

/-- A broken connection cuts the link between two neighbours, if there is one. -/
theorem Sound.connectionBroken_spec (h : Sound t none) (hroot : t.root = some root) (p1 p2 : ℕ) :
    ∃ r t', treeNotifyConnectionBroken t p1 p2 = some (r, t') ∧ Sound t' none ∧
      (HopsRight t exempt → HopsRight t' exempt) ∧
      ((∀ a c, c ∈ childrenOf t.nodes a →
        ¬ (peerOf t.nodes a = some p1 ∧ peerOf t.nodes c = some p2) ∧
          ¬ (peerOf t.nodes a = some p2 ∧ peerOf t.nodes c = some p1)) → t' = t) := by
  cases treeFindPeer_cases p1 h.shape hroot (h.root_live hroot) with
  | inl hmiss =>
    refine ⟨0, t, ?_, h, id, fun _ ↦ rfl⟩
    rw [treeNotifyConnectionBroken, hmiss.1]
    rfl
  | inr hfound =>
    obtain ⟨n, hfind, hn, hpeer⟩ := hfound
    obtain ⟨node, hnode⟩ := exists_node (live_of_peer hpeer)
    have hstart : treeNotifyConnectionBroken t p1 p2 = _ := congrArg (Option.bind · _) hfind
    simp only [bind_eq_bind, bind_some, hnode] at hstart
    by_cases habove : ∃ q, n ∈ childrenOf t.nodes q ∧ peerOf t.nodes q = some p2
    · obtain ⟨q, hqn, hq⟩ := habove
      have hqroot : q ∈ subtree t.nodes root := by
        refine h.shape.forest.below_parent hqn hn ?_
        rintro rfl
        exact h.shape.forest.top_free (.inl hroot) hqn
      have hparent := h.shape.parent_eq hnode hqn
      obtain ⟨up, hup⟩ := exists_node (live_of_peer hq)
      have hpeer' : up.peer = p2 := some.inj ((peerOf_eq hup).symm.trans hq)
      have his : parentIs t p2 node.parent = some true := by
        rw [hparent, parentIs, hup]
        simp [hpeer']
      obtain ⟨t', ht', hsound, hhops⟩ := h.disconnect_spec hroot hqroot hqn
      refine ⟨p1, t', ?_, hsound, hhops, fun hno ↦ absurd ⟨hq, hpeer⟩ (hno q n hqn).2⟩
      rw [hstart, his, bind_some, hparent, bind_some, ht']
      rfl
    · have his : parentIs t p2 node.parent = some false := by
        by_cases hne : n = root
        · have hparent := h.root_parent hroot
          rw [← hne, parentOf_eq hnode] at hparent
          rw [hparent]
          rfl
        · obtain ⟨q, up, hqn, hup, -⟩ := h.exists_parent hroot hn hne
          have hparent := h.shape.parent_eq hnode hqn
          have hpeer' : up.peer ≠ p2 := fun heq ↦ habove ⟨q, hqn, heq ▸ peerOf_eq hup⟩
          rw [hparent, parentIs, hup]
          simp [hpeer']
      rw [his] at hstart
      have hlive (c : ℕ) (hc : c ∈ node.children) : c ∈ liveNodes t.nodes := by
        rw [← childrenOf_eq hnode] at hc
        exact h.shape.forest.child_live hc
      cases findIn_cases p2 hlive with
      | inl hnone =>
        refine ⟨0, t, ?_, h, id, fun _ ↦ rfl⟩
        rw [hstart, hnone.1]
        rfl
      | inr hchild =>
        obtain ⟨c, hc, hfindc, hcpeer⟩ := hchild
        rw [← childrenOf_eq hnode] at hc
        obtain ⟨t', ht', hsound, hhops⟩ := h.disconnect_spec hroot hn hc
        refine ⟨p2, t', ?_, hsound, hhops, fun hno ↦ absurd ⟨hpeer, hcpeer⟩ (hno n c hc).1⟩
        rw [hstart, hfindc]
        show (disconnect t n c).bind _ = _
        rw [ht', bind_some]

end Broken

section Removal

theorem Sound.freed (h : Sound t loose) {gone : Set ℕ} {kept : Option ℕ}
    (hclosed : Closed t.nodes gone)
    (hkept : ∀ top, kept = some top → t.root = some top ∧ top ∉ gone)
    (htops : topsOf { t with nodes := prune t.nodes gone, root := kept } none =
      topsOf t loose \ gone) :
    Sound { t with nodes := prune t.nodes gone, root := kept } none := by
  have hlinks := h.shape.links_prune hclosed
  constructor
  · rw [htops]
    exact h.shape.pruned hclosed
  · exact h.listed
  · exact fun htop ↦ h.root_free (hkept _ htop).1
  · exact fun hm ↦ absurd hm.symm (some_ne_none _)
  · intro top htop
    rw [statusOf_prune (hkept top htop).2]
    exact h.root_status (hkept top htop).1
  · intro top htop
    rw [parentOf_prune (hkept top htop).2]
    exact h.root_parent (hkept top htop).1
  · intro a ha
    exact h.me_known (peerOf_prune_eq_some.mp ha).1
  · intro m hm hlive
    rw [liveNodes_prune] at hlive
    rw [peerOf_prune hlive.2]
    exact h.me_peer hm hlive.1
  · exact h.me_bound
  · intro d hd
    have hlisted : d ∈ t.disconnected := hd.resolve_right (some_ne_none _ ∘ Eq.symm)
    apply readyPeers_eq_empty_iff.mpr
    intro x hx hready
    have hout : x ∉ gone := by
      intro hin
      have hnone : statusOf (prune t.nodes gone) x = none := by
        rw [statusOf, prune_of_mem hin]
        rfl
      exact some_ne_none _ (hready.symm.trans hnone)
    rw [statusOf_prune hout] at hready
    exact readyPeers_eq_empty_iff.mp (h.quiet (.inl hlisted)) x (hlinks.below_of_below hx) hready

theorem Sound.destroy_loose (h : Sound t (some n)) :
    Sound { t with nodes := prune t.nodes (subtree t.nodes n) } none := by
  have hout : ∀ d ∈ topsOf t none, d ∉ subtree t.nodes n := by
    intro d hd hbelow
    have heq : n = d := h.shape.forest.eq_of_below_top (topsOf_some ▸ .inr hd) hbelow
    exact h.loose_notMem (heq ▸ hd)
  refine h.freed (fun a ha c hc ↦ ha.tail hc) (fun top htop ↦ ⟨htop, hout top (.inl htop)⟩) ?_
  rw [topsOf_some, Set.insert_sdiff_of_mem _ mem_subtree_self,
    sdiff_eq_left.mpr (Set.disjoint_left.mpr hout)]
  rfl

theorem Sound.destroy_root (h : Sound t none) (hroot : t.root = some root)
    (hleaf : childrenOf t.nodes root = []) :
    Sound { t with nodes := prune t.nodes {root}, root := none } none := by
  refine h.freed (closed_leaf hleaf) (fun top htop ↦ absurd htop.symm (some_ne_none _)) ?_
  ext x
  rw [Set.mem_sdiff, mem_topsOf_none, mem_topsOf_none, hroot]
  constructor
  · rintro (hx | hx)
    · exact absurd hx.symm (some_ne_none _)
    · exact ⟨.inr hx, fun heq ↦ h.root_free hroot (heq ▸ hx)⟩
  · rintro ⟨hx | hx, hout⟩
    · exact absurd (some.inj hx).symm hout
    · exact .inr hx

/-- Nothing is added, and the local peer stays unless it is part of what is deleted. -/
structure PeerDeleted (t t' : MeshTunnelTree) (n : ℕ) : Prop where
  children : ∀ {a c}, c ∈ childrenOf t'.nodes a → c ∈ childrenOf t.nodes a
  peers : ∀ {x peer}, peerOf t'.nodes x = some peer → peerOf t.nodes x = some peer
  hops : ∀ peer, t'.firstHops peer = none ∨ t'.firstHops peer = t.firstHops peer
  disconnected : ∀ {x}, x ∈ t'.disconnected → x ∈ t.disconnected
  me : t'.me = t.me
  kept : ∀ {m}, t.me = some m → m ∈ liveNodes t.nodes → ¬ OnlyFor t.nodes n m →
    m ∉ subtree t.nodes n → m ∈ liveNodes t'.nodes

theorem PathDeleted.destroyed (h : PathDeleted t t' n) :
    PeerDeleted t { t' with nodes := prune t'.nodes (subtree t'.nodes n) } n where
  children hc := by
    rw [mem_childrenOf_prune fun a ha c hc ↦ ha.tail hc] at hc
    exact (h.children.mp hc.1).1
  peers hx := (h.peers.mp (peerOf_prune_eq_some.mp hx).1).1
  hops := h.hops
  disconnected hx := mem_of_mem_erase (h.disconnected ▸ hx)
  me := h.me
  kept {m} _ hlive honly hbelow := by
    obtain ⟨_, hpeer⟩ := exists_peer hlive
    exact live_of_peer (peerOf_prune_eq_some.mpr
      ⟨h.peers.mpr ⟨hpeer, honly⟩, fun hm ↦ hbelow (h.below_of_below hm)⟩)

theorem PeerDeleted.destroy_root (h : PeerDeleted t t' n) (hme : t'.me ≠ some root)
    (hleaf : childrenOf t'.nodes root = []) :
    PeerDeleted t { t' with nodes := prune t'.nodes {root}, root := none } n where
  children hc := h.children ((mem_childrenOf_prune (closed_leaf hleaf)).mp hc).1
  peers hx := h.peers (peerOf_prune_eq_some.mp hx).1
  hops := h.hops
  disconnected := h.disconnected
  me := h.me
  kept {m} hm hlive honly hbelow := by
    rw [liveNodes_prune]
    refine ⟨h.kept hm hlive honly hbelow, fun heq ↦ hme ?_⟩
    rw [h.me, hm, Set.mem_singleton_iff.mp heq]

theorem Sound.treeDelPeer_cases (h : Sound t none) (hroot : t.root = some root)
    (hlisted : ∀ n ∈ t.disconnected, peerOf t.nodes n ≠ some peer) :
    treeDelPeer t peer = some (true, t) ∨
      ∃ n ok t', peerOf t.nodes n = some peer ∧ treeDelPeer t peer = some (ok, t') ∧
        Sound t' none ∧ PeerDeleted t t' n := by
  cases h.treeDelPath_cases hroot peer with
  | inl hnone =>
    left
    rw [treeDelPeer, hnone.1]
    rfl
  | inr hfound =>
    obtain ⟨n, t₁, ht₁, hpeer, _, hplace, hdeleted, hloose⟩ := hfound
    have hparent : parentOf t₁.nodes n = none := by
      cases hplace with
      | inl hd => exact absurd hpeer (hlisted n hd)
      | inr hin => exact hin.2
    have htop : n ∈ topsOf t₁ (some n) := .inr (.inr rfl)
    have hlive : n ∈ liveNodes t₁.nodes := hloose.shape.forest.top_live htop
    have hfree : treeNodeDestroy t₁.fresh n t₁ =
        some { t₁ with nodes := prune t₁.nodes (subtree t₁.nodes n) } := by
      exact treeNodeDestroy_eq hloose.shape hlive (placed_top htop hparent) Shape.size_le
    have hsound := hloose.destroy_loose
    have hpeers := hdeleted.destroyed
    set t₂ : MeshTunnelTree := { t₁ with nodes := prune t₁.nodes (subtree t₁.nodes n) }
    have hroot₂ : t₂.root = some root := hdeleted.root.trans hroot
    obtain ⟨rootNode, hrootNode⟩ := exists_node (hsound.root_live hroot₂)
    have hstart : treeDelPeer t peer = if rootNode.children = [] ∧ t₂.me ≠ some root then
        (treeNodeDestroy t₂.fresh root t₂).bind fun t ↦ some (false, { t with root := none })
        else some (true, t₂) := by
      rw [treeDelPeer, ht₁]
      simp only [bind_eq_bind, bind_some, hfree, hroot₂, hrootNode]
    right
    by_cases hlast : rootNode.children = [] ∧ t₂.me ≠ some root
    · have hleaf : childrenOf t₂.nodes root = [] := (childrenOf_eq hrootNode).trans hlast.1
      have hfree₂ : treeNodeDestroy t₂.fresh root t₂ =
          some { t₂ with nodes := prune t₂.nodes {root} } := by
        rw [← subtree_leaf hleaf]
        exact treeNodeDestroy_eq hsound.shape (hsound.root_live hroot₂)
          (placed_top (.inl hroot₂) (hsound.root_parent hroot₂)) Shape.size_le
      refine ⟨n, false, _, hpeer, ?_, hsound.destroy_root hroot₂ hleaf,
        hpeers.destroy_root hlast.2 hleaf⟩
      rw [hstart, if_pos hlast, hfree₂]
      rfl
    · exact ⟨n, true, t₂, hpeer, hstart.trans (if_neg hlast), hsound, hpeers⟩

theorem PeerDeleted.hopsRight (h : PeerDeleted t t' n) (hsound : Sound t' none)
    (hhops : HopsRight t exempt) : HopsRight t' exempt :=
  hhops.shrink hsound.shape h.children h.peers h.hops h.me

end Removal

section Queries

section

variable (hroot : t.root = some root)
include hroot

theorem Sound.treeSetStatus_spec (h : Sound t none)
    {status : MeshPeerState} (hstatus : status = .relay → peerOf t.nodes root ≠ some peer) :
    ∃ t', treeSetStatus t peer status = some t' ∧ Sound t' none ∧
      (HopsRight t exempt → HopsRight t' exempt) ∧ SameLinks t.nodes t'.nodes ∧
      t'.disconnected = t.disconnected ∧ t'.me = t.me := by
  cases treeFindPeer_cases peer h.shape hroot (h.root_live hroot) with
  | inl hnone =>
    refine ⟨t, ?_, h, id, ⟨rfl, rfl, rfl⟩, rfl, rfl⟩
    rw [treeSetStatus, hnone.1]
    rfl
  | inr hfound =>
    obtain ⟨n, hfind, hn, hpeer⟩ := hfound
    obtain ⟨node, hnode⟩ := exists_node (live_of_peer hpeer)
    have hsame : SameLinks t.nodes (t.setNode n { node with status }).nodes :=
      sameLinks_update hnode status
    refine ⟨t.setNode n { node with status }, ?_, ?_, fun hhops ↦ ?_, hsame, rfl, rfl⟩
    · rw [treeSetStatus, hfind]
      change (t.nodes n).bind _ = _
      rw [hnode]
      rfl
    · apply h.setStatus hroot hn hnode
      rintro hrelay rfl
      exact hstatus hrelay hpeer
    · exact HopsRight.congr hhops hsame rfl rfl

theorem Sound.treeGetFirstHop_below (h : Sound t none)
    (hme : t.me = some m) (hx : x ∈ subtree t.nodes root) (hpeer : peerOf t.nodes x = some peer)
    (hbelow : x ∈ subtree t.nodes m) (hcache : t.firstHops peer = none) :
    ∃ hop t', treeGetFirstHop t peer = some (some hop, t') ∧ Hopped t t' (subtree t.nodes x) hop ∧
      (x = m ∨
        ∃ c ∈ childrenOf t.nodes m, x ∈ subtree t.nodes c ∧ peerOf t.nodes c = some hop) := by
  have hfind := treeFindPeer_of_mem h.shape hroot (h.root_live hroot) hx hpeer
  obtain ⟨hop, hhop, hplace⟩ := findHop_cases h.shape hme (live_of_peer hpeer) hbelow
  obtain ⟨t', ht', hhopped⟩ := treeNodeUpdateFirstHops_some hop h.shape (live_of_peer hpeer)
    Shape.size_le
  have hwritten : t'.firstHops peer = some hop :=
    hhopped.hops.inside ⟨x, mem_subtree_self, hpeer⟩
  refine ⟨hop, t', ?_, hhopped, hplace⟩
  simp only [treeGetFirstHop, hcache, hfind, hme, bind_eq_bind, bind_some,
    treeNodeUpdateFirstHops_none hhop, ht', hwritten]

theorem Sound.treeGetFirstHop_spec (h : Sound t none)
    (hway : t.firstHops peer = none → ∀ m, t.me = some m → ∀ x ∈ subtree t.nodes root,
      peerOf t.nodes x = some peer → x ∈ subtree t.nodes m) :
    ∃ hop t', treeGetFirstHop t peer = some (hop, t') ∧ t' = { t with firstHops := t'.firstHops } ∧
      ((t.firstHops peer = none → ∀ m, t.me = some m → peerOf t.nodes m = some peer →
          childrenOf t.nodes m = []) → HopsRight t exempt → HopsRight t' exempt) := by
  cases hcache : t.firstHops peer with
  | some hop =>
    refine ⟨some hop, t, ?_, rfl, fun _ ↦ id⟩
    rw [treeGetFirstHop, hcache]
  | none =>
    cases treeFindPeer_cases peer h.shape hroot (h.root_live hroot) with
    | inl hnone =>
      refine ⟨none, t, ?_, rfl, fun _ ↦ id⟩
      simp only [treeGetFirstHop, hcache, hnone.1]
      cases t.me <;> rfl
    | inr hfound =>
      obtain ⟨x, hfind, hx, hpeer⟩ := hfound
      cases t.me.eq_none_or_eq_some with
      | inl hme =>
        refine ⟨none, t, ?_, rfl, fun _ ↦ id⟩
        simp only [treeGetFirstHop, hcache, hfind, hme, bind_eq_bind, bind_some]
      | inr hsome =>
        obtain ⟨m, hme⟩ := hsome
        obtain ⟨hop, t', ht', hhopped, hplace⟩ := h.treeGetFirstHop_below hroot hme hx hpeer
          (hway hcache m hme x hx hpeer) hcache
        refine ⟨some hop, t', ht', hhopped.rest, fun hleaf hhops ↦ ?_⟩
        refine HopsRight.hopped @hhops h hme ?_ hhopped fun _ _ _ _ ↦ id
        refine hplace.imp_left fun heq ↦ hleaf rfl m hme ?_
        rw [← heq, hpeer]

theorem Sound.treeGetFirstHop_eq (h : Sound t none)
    (hhops : HopsRight t ∅) (hmroot : m ∈ subtree t.nodes root) (hme : t.me = some m)
    (hc : c ∈ childrenOf t.nodes m) (hx : x ∈ subtree t.nodes c)
    (hpeer : peerOf t.nodes x = some peer) :
    (treeGetFirstHop t peer).map Prod.fst = some (peerOf t.nodes c) := by
  cases hcache : t.firstHops peer with
  | some hop =>
    have hright := hhops hme hc hx hpeer (Set.notMem_empty peer) hcache
    rw [treeGetFirstHop, hcache, hright]
    rfl
  | none =>
    obtain ⟨hop, _, ht', -, hplace⟩ := h.treeGetFirstHop_below hroot hme
      ((hmroot.tail hc).trans hx) hpeer (.head hc hx) hcache
    rw [ht']
    cases hplace with
    | inl heq => exact absurd (heq ▸ hx) (h.shape.forest.not_below_child hc)
    | inr hbelow =>
      obtain ⟨b, hb, hxb, hbpeer⟩ := hbelow
      obtain rfl := h.shape.forest.child_unique hc hb hx hxb
      rw [hbpeer]
      rfl

end

end Queries

section Start

variable {owner : ℕ}

theorem shape_empty : Shape (fun _ ↦ none) 0 ∅ where
  forest :=
    { unique := fun hc ↦ absurd hc not_mem_nil
      nodup := fun _ ↦ nodup_nil
      parent_live := fun hc ↦ absurd hc not_mem_nil
      child_live := fun hc ↦ absurd hc not_mem_nil
      top_live := Set.empty_subset _
      top_free := fun htop ↦ absurd htop (Set.notMem_empty _)
      reach := fun hx ↦ absurd hx Bool.false_ne_true }
  parent hc := absurd hc not_mem_nil
  bounded hx := absurd hx Bool.false_ne_true
  distinct ha := absurd ha.symm (some_ne_none _)

theorem childrenOf_treeNew : childrenOf (treeNew owner).nodes a = [] :=
  congrFun (shape_empty.childrenOf_allocate rfl) a

theorem peerOf_treeNew_eq_some :
    peerOf (treeNew owner).nodes a = some peer ↔ a = 0 ∧ owner = peer := by
  simp only [peerOf, treeNew]
  by_cases ha : a = 0
  · rw [ha]
    exact some_inj.trans (and_iff_right rfl).symm
  · rw [update_of_ne ha]
    exact iff_of_false (some_ne_none _).symm fun hboth ↦ ha hboth.1

theorem me_treeNew {m : ℕ} (hm : (treeNew owner).me = some m) : owner = 1 ∧ m = 0 := by
  by_cases howner : owner = 1
  · rw [treeNew, if_pos howner] at hm
    exact ⟨howner, (some.inj hm).symm⟩
  · rw [treeNew, if_neg howner] at hm
    exact absurd hm.symm (some_ne_none _)

theorem hopsRight_treeNew : HopsRight (treeNew owner) exempt := by
  intro m c x q hop _ hc
  rw [childrenOf_treeNew] at hc
  exact absurd hc not_mem_nil

theorem sound_treeNew : Sound (treeNew owner) none where
  shape := by
    have htops : topsOf (treeNew owner) none = insert 0 ∅ := by
      ext x
      refine mem_topsOf_none.trans ((or_iff_left not_mem_nil).trans ?_)
      exact some_inj.trans (eq_comm.trans (or_iff_left (Set.notMem_empty x)).symm)
    rw [htops]
    exact shape_empty.allocate rfl fun _ ↦ (some_ne_none _).symm
  listed := nodup_nil
  root_free _ := not_mem_nil
  loose_free hm := absurd hm.symm (some_ne_none _)
  root_status hroot := by
    cases hroot
    exact fun hrelay ↦ MeshPeerState.noConfusion (some.inj hrelay)
  root_parent hroot := by
    cases hroot
    rfl
  me_known ha := by
    obtain ⟨rfl, howner⟩ := peerOf_treeNew_eq_some.mp ha
    rw [treeNew, if_pos howner]
  me_peer hm _ := peerOf_treeNew_eq_some.mpr (me_treeNew hm).symm
  me_bound hm := by
    rw [(me_treeNew hm).2]
    exact Nat.one_pos
  quiet := by
    rintro n (hn | hn)
    · exact absurd hn not_mem_nil
    · exact absurd hn.symm (some_ne_none _)

end Start

end Gnunet.Mesh
