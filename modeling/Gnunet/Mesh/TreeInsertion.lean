import Gnunet.Mesh.TreeDeletion

/-!
# Adding a path to a tunnel tree

`tree_add_path` follows the path down the tree as far as it is there and adds the rest of it as a
new branch. The labels on the way from the root to a node are the peers of the nodes passed.
-/

namespace Gnunet.Mesh

open Lib.LinkedForest Lib.Runs Function
open List hiding attach mem_attach
open Option hiding attach mem_attach

variable {t t' : MeshTunnelTree} {nodes nodes' : Nodes} {tops exempt : Set ℕ} {fresh : ℕ}
  {a c i n x y root parent peer : ℕ} {labels labels' p rest taken : List ℕ}
  {loose me : Option ℕ} {node up : MeshTunnelTreeNode}

inductive PathTo (nodes : Nodes) (root : ℕ) : ℕ → List ℕ → Prop
  | root {peer : ℕ} (hpeer : peerOf nodes root = some peer) : PathTo nodes root root [peer]
  | child {a c peer : ℕ} {labels : List ℕ} (ha : PathTo nodes root a labels)
      (hc : c ∈ childrenOf nodes a) (hpeer : peerOf nodes c = some peer) :
      PathTo nodes root c (labels ++ [peer])

section Paths

section

variable (h : PathTo nodes root x labels)
include h

theorem PathTo.mem_subtree : x ∈ subtree nodes root := by
  induction h with
  | root => exact mem_subtree_self
  | child _ hc _ ih => exact ih.tail hc

theorem PathTo.peer_eq : peerOf nodes x = labels.getLast? := by
  cases h with
  | root hpeer => exact hpeer
  | child _ _ hpeer => rw [hpeer, getLast?_concat]

theorem PathTo.live : x ∈ liveNodes nodes := by
  cases h with
  | root hpeer => exact live_of_peer hpeer
  | child _ _ hpeer => exact live_of_peer hpeer

theorem PathTo.ne_nil : labels ≠ [] := by
  cases h with
  | root => exact cons_ne_nil _ _
  | child => exact concat_ne_nil _ _

theorem PathTo.mono (hchildren : ∀ {a c}, c ∈ childrenOf nodes a → c ∈ childrenOf nodes' a)
    (hpeers : ∀ {a peer}, peerOf nodes a = some peer → peerOf nodes' a = some peer) :
    PathTo nodes' root x labels := by
  induction h with
  | root hpeer => exact .root (hpeers hpeer)
  | child _ hc hpeer ih => exact .child ih (hchildren hc) (hpeers hpeer)

end

theorem PathTo.above (h : Shape nodes fresh tops) (hroot : root ∈ tops)
    (hpath : PathTo nodes root x labels) (hx : x ∈ subtree nodes y) :
    ∃ labels', PathTo nodes root y labels' ∧ labels' <+: labels := by
  induction hpath with
  | root hpeer =>
    obtain rfl := h.forest.eq_of_below_top hroot hx
    exact ⟨_, .root hpeer, prefix_rfl⟩
  | @child a c peer labels ha hc hpeer ih =>
    by_cases hyc : y = c
    · subst hyc
      exact ⟨_, .child ha hc hpeer, prefix_rfl⟩
    · obtain ⟨labels', hpath', hpre⟩ := ih (h.forest.below_parent hc hx hyc)
      exact ⟨labels', hpath', hpre.trans (prefix_append _ _)⟩

theorem PathTo.exists_above (hpath : PathTo nodes root x labels) (hpre : labels' <+: labels)
    (hne : labels' ≠ []) : ∃ y, PathTo nodes root y labels' ∧ x ∈ subtree nodes y := by
  induction hpath with
  | @root peer hpeer =>
    have hconcat : labels' <+: [] ++ [peer] := hpre
    cases prefix_concat_iff.mp hconcat with
    | inl heq => exact ⟨root, heq ▸ .root hpeer, mem_subtree_self⟩
    | inr hnil => exact absurd (prefix_nil.mp hnil) hne
  | @child a c peer labels ha hc hpeer ih =>
    cases prefix_concat_iff.mp hpre with
    | inl heq => exact ⟨c, heq ▸ .child ha hc hpeer, mem_subtree_self⟩
    | inr hpre =>
      obtain ⟨y, hy, hay⟩ := ih hpre
      exact ⟨y, hy, hay.tail hc⟩

theorem PathTo.of_mem (hpath : PathTo nodes root x labels) (hpeer : peer ∈ labels) :
    ∃ y labels', PathTo nodes root y labels' ∧ labels' <+: labels ∧ peerOf nodes y = some peer ∧
      x ∈ subtree nodes y := by
  obtain ⟨before, after, hsplit⟩ := append_of_mem hpeer
  have hpre : before ++ [peer] <+: labels := ⟨after, by rw [hsplit, ← append_cons]⟩
  obtain ⟨y, hy, hxy⟩ := hpath.exists_above hpre (concat_ne_nil _ _)
  exact ⟨y, _, hy, hpre, by rw [hy.peer_eq, getLast?_concat], hxy⟩

theorem PathTo.unique (h : Shape nodes fresh tops) (hx : PathTo nodes root x labels)
    (hy : PathTo nodes root y labels') (hlast : labels.getLast? = labels'.getLast?) : x = y := by
  have hpeer := hx.peer_eq
  rw [getLast?_eq_some_getLast hx.ne_nil] at hpeer
  apply h.distinct hpeer
  rw [hy.peer_eq, ← hlast, getLast?_eq_some_getLast hx.ne_nil]

end Paths

structure MeSeen (p : List ℕ) (i : ℕ) (me : Option ℕ) : Prop where
  right : ∀ {k}, me = some k → p[k]? = some 1
  found : ∀ {k}, k < i → p[k]? = some 1 → me = some k

section Follow

theorem MeSeen.step (h : MeSeen p taken.length me) (hnodup : p.Nodup)
    (hp : p = taken ++ peer :: rest) :
    MeSeen p (taken.length + 1) (if peer = 1 then some taken.length else me) := by
  have hi : p[taken.length]? = some peer := by
    rw [hp, getElem?_append_right le_rfl, Nat.sub_self]
    rfl
  by_cases hpeer : peer = 1
  · rw [if_pos hpeer]
    rw [hpeer] at hi
    constructor
    · rintro k heq
      exact some.inj heq ▸ hi
    · intro k _ hk
      have hlt := (List.getElem?_eq_some_iff.mp hi).1
      exact congrArg some ((getElem?_inj hlt hnodup).mp (hi.trans hk.symm))
  · rw [if_neg hpeer]
    refine ⟨h.right, fun {k} hk hme ↦ h.found ?_ hme⟩
    refine lt_of_le_of_ne (Nat.le_of_lt_succ hk) ?_
    rintro rfl
    rw [hme] at hi
    exact hpeer (some.inj hi).symm

theorem MeSeen.of_succ (h : MeSeen p (i + 1) me) : MeSeen p i me :=
  ⟨h.right, fun hk ↦ h.found (Nat.lt_succ_of_lt hk)⟩

theorem followPath_spec (h : Shape t.nodes t.fresh tops) (hnodup : p.Nodup)
    (hp : p = taken ++ rest) (hpath : PathTo t.nodes root n taken)
    (hme : MeSeen p taken.length me) :
    ∃ taken' rest' n' me', followPath t rest taken.length n me =
        some (rest', taken'.length, n', me') ∧ p = taken' ++ rest' ∧
      PathTo t.nodes root n' taken' ∧ MeSeen p taken'.length me' ∧
      ∀ peer ∈ rest'.head?, ∀ c ∈ childrenOf t.nodes n', peerOf t.nodes c ≠ some peer := by
  induction rest generalizing taken n me with
  | nil =>
    refine ⟨taken, [], n, me, rfl, hp, hpath, hme, fun peer hpeer ↦ ?_⟩
    exact absurd hpeer (some_ne_none peer ∘ Eq.symm)
  | cons peer rest ih =>
    obtain ⟨node, hnode⟩ := exists_node hpath.live
    have hchildren (c : ℕ) (hc : c ∈ node.children) : c ∈ childrenOf t.nodes n :=
      (childrenOf_eq hnode).symm ▸ hc
    have hseen := hme.step hnodup hp
    cases findIn_cases peer fun c hc ↦ h.forest.child_live (hchildren c hc) with
    | inl hnone =>
      refine ⟨taken, peer :: rest, n, _, ?_, hp, hpath, hseen.of_succ, ?_⟩
      · rw [followPath, hnode]
        simp only [bind_eq_bind, bind_some, hnone.1]
      · intro q hq c hc
        rw [childrenOf_eq hnode] at hc
        exact some.inj hq ▸ hnone.2 c hc
    | inr hfound =>
      obtain ⟨c, hc, hfind, hpeer⟩ := hfound
      have hlength : (taken ++ [peer]).length = taken.length + 1 := length_append
      have hp' := hp.trans (append_cons taken peer rest)
      have hpath' := hpath.child (hchildren c hc) hpeer
      rw [← hlength] at hseen
      obtain ⟨taken', rest', n', me', hfollow, hrest⟩ := ih hp' hpath' hseen
      refine ⟨taken', rest', n', me', ?_, hrest⟩
      rw [followPath, hnode]
      simp only [bind_eq_bind, bind_some, hfind]
      exact hlength ▸ hfollow

end Follow

structure Grown (t t' : MeshTunnelTree) (added : List ℕ) : Prop where
  children : ∀ {a c}, c ∈ childrenOf t.nodes a → c ∈ childrenOf t'.nodes a
  peers : ∀ {a peer}, peerOf t.nodes a = some peer → peerOf t'.nodes a = some peer
  status : ∀ {a}, a ∈ liveNodes t.nodes → statusOf t'.nodes a = statusOf t.nodes a
  new : ∀ {a peer}, peerOf t'.nodes a = some peer → peerOf t.nodes a = some peer ∨ peer ∈ added
  root : t'.root = t.root
  disconnected : t'.disconnected = t.disconnected
  reported : t'.reported = t.reported

theorem Grown.trans {t'' : MeshTunnelTree} {added added' : List ℕ} (h : Grown t t' added)
    (h' : Grown t' t'' added') : Grown t t'' (added ++ added') where
  children hc := h'.children (h.children hc)
  peers hpeer := h'.peers (h.peers hpeer)
  status ha := by
    have hlive := live_of_peer (h.peers (exists_peer ha).choose_spec)
    rw [h'.status hlive, h.status ha]
  new hpeer := by
    rw [mem_append]
    cases h'.new hpeer with
    | inl hpeer => exact (h.new hpeer).imp_right .inl
    | inr hadded => exact .inr (.inr hadded)
  root := h'.root.trans h.root
  disconnected := h'.disconnected.trans h.disconnected
  reported := h'.reported.trans h.reported

theorem Grown.mono {added added' : List ℕ} (h : Grown t t' added) (hsub : added ⊆ added') :
    Grown t t' added' :=
  { h with new := fun hpeer ↦ (h.new hpeer).imp_right (hsub ·) }

theorem statusOf_hangBelow (hup : nodes parent = some up) (hnode : nodes n = some node) :
    statusOf (hangBelow nodes parent n up node) = statusOf nodes := by
  rw [hangBelow, statusOf_update, statusOf_update,
    update_update_self (statusOf_eq hnode) (statusOf_eq hup)]

section Relay

def relayNode (parent peer : ℕ) : MeshTunnelTreeNode where
  peer := peer
  parent := some parent
  children := []
  status := .relay

def withRelay (t : MeshTunnelTree) (parent peer : ℕ) (up : MeshTunnelTreeNode) :
    MeshTunnelTree :=
  { t with
    nodes := hangBelow (update t.nodes t.fresh (some (relayNode parent peer))) parent
      t.fresh up (relayNode parent peer)
    fresh := t.fresh + 1
    me := if peer = 1 then some t.fresh else t.me }

variable (h : Sound t loose) (hup : t.nodes parent = some up)
include h hup

theorem Sound.parent_ne_fresh : parent ≠ t.fresh := h.shape.ne_fresh (live_of_node hup)

theorem Sound.nodes_fresh :
    update t.nodes t.fresh (some (relayNode parent peer)) parent = some up :=
  (update_of_ne (h.parent_ne_fresh hup) ..).trans hup

theorem Sound.addBranch_relay {oldnode : Option ℕ} (hrest : rest ≠ [] ∨ oldnode = none) :
    addBranch oldnode (peer :: rest) i parent me t =
      addBranch oldnode rest (i + 1) t.fresh (if peer = 1 then some i else me)
        (withRelay t parent peer up) := by
  have hne := h.parent_ne_fresh hup
  let relay := relayNode parent peer
  let grown : MeshTunnelTree :=
    { t with
      nodes := hangBelow (update t.nodes t.fresh (some relay)) parent t.fresh up relay
      fresh := t.fresh + 1 }
  have hplace : placeNode oldnode rest parent peer t = some (t.fresh, grown) := by
    have hbranch : placeNode oldnode rest parent peer t =
        (treeNodeNew t (some parent) peer).bind fun new ↦
          (new.2.setStatus new.1 .relay).bind fun t ↦ some (new.1, t) := by
      unfold placeNode
      split
      · exact absurd rfl (hrest.resolve_right (some_ne_none _))
      · rfl
    rw [hbranch, treeNodeNew]
    have hread : update t.nodes t.fresh
        (some { peer := peer, parent := some parent, children := [], status := .invalid }) parent =
        some up := (update_of_ne hne ..).trans hup
    simp only [MeshTunnelTree.insertChild, MeshTunnelTree.setNode, MeshTunnelTree.setStatus,
      bind_eq_bind, bind_some, hread, update_of_ne (Ne.symm hne), update_self]
    simp only [grown, hangBelow, update_idem]
    rw [update_comm hne, update_idem]
    rfl
  have hread : grown.nodes t.fresh = some relay := by
    simp only [grown, hangBelow]
    rw [update_of_ne (Ne.symm hne), update_self]
    rfl
  rw [addBranch, hplace]
  simp only [bind_eq_bind, bind_some, hread]
  by_cases hpeer : peer = 1
  · rw [if_pos (show relay.peer = 1 from hpeer), if_pos hpeer, withRelay, if_pos hpeer]
  · rw [if_neg (show ¬ relay.peer = 1 from hpeer), if_neg hpeer, withRelay, if_neg hpeer]

theorem Sound.mem_children_withRelay : c ∈ childrenOf (withRelay t parent peer up).nodes a ↔
    c ∈ childrenOf t.nodes a ∨ a = parent ∧ c = t.fresh := by
  change c ∈ childrenOf (hangBelow _ _ _ _ _) a ↔ _
  rw [childrenOf_hangBelow (h.nodes_fresh hup) (update_self ..), mem_attach,
    h.shape.childrenOf_allocate rfl]

theorem Sound.peerOf_withRelay : peerOf (withRelay t parent peer up).nodes =
    update (peerOf t.nodes) t.fresh (some peer) := by
  change peerOf (hangBelow _ _ _ _ _) = _
  rw [peerOf_hangBelow (h.nodes_fresh hup) (update_self ..), peerOf_update]
  rfl

theorem Sound.parentOf_withRelay : parentOf (withRelay t parent peer up).nodes =
    update (parentOf t.nodes) t.fresh (some parent) := by
  have hne := h.parent_ne_fresh hup
  change parentOf (hangBelow _ _ _ _ _) = _
  rw [parentOf_hangBelow (h.nodes_fresh hup) (Ne.symm hne), parentOf_update, update_idem]

theorem Sound.statusOf_withRelay : statusOf (withRelay t parent peer up).nodes =
    update (statusOf t.nodes) t.fresh (some .relay) := by
  change statusOf (hangBelow _ _ _ _ _) = _
  rw [statusOf_hangBelow (h.nodes_fresh hup) (update_self ..), statusOf_update]
  rfl

theorem Sound.mem_subtree_withRelay (hx : x ∈ subtree (withRelay t parent peer up).nodes a) :
    x ∈ subtree t.nodes a ∨ x = t.fresh := by
  induction hx with
  | refl => exact .inl mem_subtree_self
  | tail _ hc ih =>
    cases (h.mem_children_withRelay hup).mp hc with
    | inl hold =>
      cases ih with
      | inl hbelow => exact .inl (hbelow.tail hold)
      | inr heq => exact absurd heq (h.shape.ne_fresh (h.shape.forest.parent_live hold))
    | inr heq => exact .inr heq.2

theorem Sound.grown_withRelay :
    Grown t (withRelay t parent peer up) [peer] where
  children hc := (h.mem_children_withRelay hup).mpr (.inl hc)
  peers {a q} ha := by
    rw [h.peerOf_withRelay hup, update_of_ne (h.shape.ne_fresh (live_of_peer ha))]
    exact ha
  status {a} ha := by
    rw [h.statusOf_withRelay hup, update_of_ne (h.shape.ne_fresh ha)]
  new {a q} ha := by
    rw [h.peerOf_withRelay hup] at ha
    by_cases heq : a = t.fresh
    · rw [heq, update_self] at ha
      exact .inr (mem_singleton.mpr (some.inj ha).symm)
    · rw [update_of_ne heq] at ha
      exact .inl ha
  root := rfl
  disconnected := rfl
  reported := rfl

theorem Sound.relay (hpeer : ∀ x, peerOf t.nodes x ≠ some peer) :
    Sound (withRelay t parent peer up) loose where
  shape := by
    have halloc : Shape (update t.nodes t.fresh (some (relayNode parent peer)))
        (t.fresh + 1) (insert t.fresh (topsOf t loose)) := h.shape.allocate rfl hpeer
    have htop : t.fresh ∉ topsOf t loose :=
      fun htop ↦ h.shape.fresh_notMem (h.shape.forest.top_live htop)
    have hleaf : parent ∉ subtree (update t.nodes t.fresh
        (some (relayNode parent peer))) t.fresh := by
      intro hbelow
      cases mem_subtree_iff.mp hbelow with
      | inl heq => exact h.parent_ne_fresh hup heq
      | inr hbelow =>
        obtain ⟨c, hc, -⟩ := hbelow
        rw [childrenOf_eq (update_self ..)] at hc
        exact not_mem_nil hc
    have hhung := halloc.hung (h.nodes_fresh hup) (update_self ..) (.inl rfl) hleaf
    rw [Set.insert_sdiff_self_of_notMem htop] at hhung
    exact hhung
  listed := h.listed
  root_free := h.root_free
  loose_free := h.loose_free
  root_status {root} hroot := by
    rw [h.statusOf_withRelay hup, update_of_ne (h.shape.ne_fresh (h.root_live hroot))]
    exact h.root_status hroot
  root_parent {root} hroot := by
    rw [h.parentOf_withRelay hup, update_of_ne (h.shape.ne_fresh (h.root_live hroot))]
    exact h.root_parent hroot
  me_known {a} ha := by
    change (if peer = 1 then some t.fresh else t.me) = some a
    rw [h.peerOf_withRelay hup] at ha
    by_cases heq : a = t.fresh
    · rw [heq, update_self] at ha
      rw [if_pos (some.inj ha), heq]
    · rw [update_of_ne heq] at ha
      have hone : peer ≠ 1 := by
        rintro rfl
        exact hpeer a ha
      rw [if_neg hone]
      exact h.me_known ha
  me_peer {m} hme hlive := by
    change (if peer = 1 then some t.fresh else t.me) = some m at hme
    rw [h.peerOf_withRelay hup]
    by_cases hone : peer = 1
    · rw [if_pos hone] at hme
      rw [← some.inj hme, update_self, hone]
    · rw [if_neg hone] at hme
      have hne : m ≠ t.fresh := (h.me_bound hme).ne
      obtain ⟨q, hq⟩ := exists_peer hlive
      rw [h.peerOf_withRelay hup, update_of_ne hne] at hq
      rw [update_of_ne hne]
      exact h.me_peer hme (live_of_peer hq)
  me_bound {m} hme := by
    change (if peer = 1 then some t.fresh else t.me) = some m at hme
    change m < t.fresh + 1
    split at hme
    · exact some.inj hme ▸ Nat.lt_succ_self _
    · exact Nat.lt_succ_of_lt (h.me_bound hme)
  quiet {n} hn := by
    apply readyPeers_eq_empty_iff.mpr
    intro x hx
    rw [h.statusOf_withRelay hup]
    by_cases heq : x = t.fresh
    · rw [heq, update_self]
      exact fun hready ↦ MeshPeerState.noConfusion (some.inj hready)
    · rw [update_of_ne heq]
      have hold := (h.mem_subtree_withRelay hup hx).resolve_right heq
      exact readyPeers_eq_empty_iff.mp (h.quiet hn) x hold

theorem Sound.hopsRight_withRelay (hhops : HopsRight t exempt) (hexempt : peer ∈ exempt) :
    HopsRight (withRelay t parent peer up) exempt := by
  intro m c x q hop hme hc hx hq hnot hhop
  change (if peer = 1 then some t.fresh else t.me) = some m at hme
  have hxfresh : x ≠ t.fresh := by
    rintro rfl
    rw [h.peerOf_withRelay hup, update_self] at hq
    exact hnot (some.inj hq ▸ hexempt)
  have hxc := (h.mem_subtree_withRelay hup hx).resolve_right hxfresh
  rw [h.peerOf_withRelay hup, update_of_ne hxfresh] at hq
  have hcfresh : c ≠ t.fresh := by
    rintro rfl
    cases mem_subtree_iff.mp hxc with
    | inl heq => exact hxfresh heq
    | inr hbelow =>
      obtain ⟨d, hd, -⟩ := hbelow
      exact h.shape.fresh_notMem (h.shape.forest.parent_live hd)
  have hcm := ((h.mem_children_withRelay hup).mp hc).resolve_right fun heq ↦ hcfresh heq.2
  have hme' : t.me = some m := by
    split at hme
    · exact absurd (some.inj hme ▸ h.shape.forest.parent_live hcm) h.shape.fresh_notMem
    · exact hme
  rw [h.peerOf_withRelay hup, update_of_ne hcfresh]
  exact hhops hme' hcm hxc hq hnot hhop

end Relay

theorem mem_subtree_hangBelow (hup : nodes parent = some up) (hnode : nodes n = some node)
    (hnot : parent ∉ subtree nodes n) :
    x ∈ subtree (hangBelow nodes parent n up node) a ↔
      x ∈ subtree nodes a ∨ parent ∈ subtree nodes a ∧ x ∈ subtree nodes n := by
  change Below (childrenOf (hangBelow nodes parent n up node)) a x ↔ _
  rw [childrenOf_hangBelow hup hnode]
  exact below_attach hnot

section Reattach

variable (h : Sound t (some n)) (hroot : t.root = some root) (hup : t.nodes parent = some up)
  (hparent : parent ∈ subtree t.nodes root) (hnode : t.nodes n = some node)
include h hroot hparent

theorem Sound.parent_notMem_loose : parent ∉ subtree t.nodes n := by
  intro hbelow
  have heq := h.shape.forest.top_unique (.inl hroot) (.inr (.inr rfl)) hparent hbelow
  exact (h.loose_free rfl).2 (heq ▸ hroot)

include hup hnode

theorem Sound.hung : Sound { t with nodes := hangBelow t.nodes parent n up node } none where
  shape := by
    have htops : topsOf t (some n) \ {n} = topsOf t none := by
      rw [topsOf_some, Set.insert_sdiff_self_of_notMem h.loose_notMem]
    have hshape := h.shape.hung hup hnode (.inr (.inr rfl)) (h.parent_notMem_loose hroot hparent)
    rw [htops] at hshape
    exact hshape
  listed := h.listed
  root_free := h.root_free
  loose_free hm := absurd hm.symm (some_ne_none _)
  root_status {top} htop := by
    rw [statusOf_hangBelow hup hnode]
    exact h.root_status htop
  root_parent {top} htop := by
    have hnot := h.parent_notMem_loose hroot hparent
    have hnp : n ≠ parent := fun heq ↦ hnot (heq ▸ mem_subtree_self)
    have htopn : top ≠ n := by
      rintro rfl
      exact (h.loose_free rfl).2 htop
    rw [parentOf_hangBelow hup hnp, update_of_ne htopn]
    exact h.root_parent htop
  me_known ha := by
    rw [peerOf_hangBelow hup hnode] at ha
    exact h.me_known ha
  me_peer hme hlive := by
    rw [liveNodes_congr (peerOf_hangBelow hup hnode)] at hlive
    rw [peerOf_hangBelow hup hnode]
    exact h.me_peer hme hlive
  me_bound := h.me_bound
  quiet {d} hd := by
    have hd := hd.resolve_right (some_ne_none _ ∘ Eq.symm)
    apply readyPeers_eq_empty_iff.mpr
    intro x hx
    rw [statusOf_hangBelow hup hnode]
    apply readyPeers_eq_empty_iff.mp (h.quiet (.inl hd)) x
    cases (mem_subtree_hangBelow hup hnode (h.parent_notMem_loose hroot hparent)).mp hx with
    | inl hx => exact hx
    | inr hx =>
      have heq := h.shape.forest.top_unique (.inl hroot) (.inr (.inl hd)) hparent hx.1
      exact absurd (heq ▸ hd) (h.root_free hroot)

omit hroot hup hparent hnode h in
theorem Sound.setHops (h : Sound t loose) (hops : ℕ → Option ℕ) :
    Sound { t with firstHops := hops } loose :=
  ⟨h.shape, h.listed, h.root_free, h.loose_free, h.root_status, h.root_parent, h.me_known,
    h.me_peer, h.me_bound, h.quiet⟩

theorem Sound.addBranch_old (i : ℕ) (me : Option ℕ) (exempt : Set ℕ) {m : ℕ}
    (hpeer : peerOf t.nodes n = some peer) (hme : t.me = some m)
    (habove : parent ∈ subtree t.nodes m ∨ n = m) :
    ∃ t', addBranch (some n) [peer] i parent me t = some (n, if peer = 1 then some i else me, t') ∧
      Sound t' none ∧ Grown t t' [] ∧ n ∈ childrenOf t'.nodes parent ∧
      childrenOf t'.nodes n = childrenOf t.nodes n ∧ t'.me = t.me ∧
      (HopsRight t exempt → peersOf t.nodes (subtree t.nodes n) ⊆ exempt →
        HopsRight t' exempt) := by
  have hnot := h.parent_notMem_loose hroot hparent
  have hnp : n ≠ parent := fun heq ↦ hnot (heq ▸ mem_subtree_self)
  let hung : MeshTunnelTree := { t with nodes := hangBelow t.nodes parent n up node }
  have hhung : Sound hung none := h.hung hroot hup hparent hnode
  have hchildren : childrenOf hung.nodes = attach (childrenOf t.nodes) parent n :=
    childrenOf_hangBelow hup hnode
  have hpeers : peerOf hung.nodes = peerOf t.nodes := peerOf_hangBelow hup hnode
  have hsub {a x : ℕ} : x ∈ subtree hung.nodes a ↔
      x ∈ subtree t.nodes a ∨ parent ∈ subtree t.nodes a ∧ x ∈ subtree t.nodes n :=
    mem_subtree_hangBelow hup hnode hnot
  have hself : subtree hung.nodes n = subtree t.nodes n :=
    Set.ext fun x ↦ hsub.trans (or_iff_left fun hx ↦ hnot hx.1)
  have hlive : n ∈ liveNodes hung.nodes := live_of_peer (hpeers ▸ hpeer)
  have hbelow : n ∈ subtree hung.nodes m := by
    cases habove with
    | inl habove => exact hsub.mpr (.inr ⟨habove, mem_subtree_self⟩)
    | inr heq => exact heq ▸ mem_subtree_self
  obtain ⟨hop, hhop, -⟩ := findHop_cases hhung.shape hme hlive hbelow
  obtain ⟨t', ht', hhopped⟩ := treeNodeUpdateFirstHops_some hop hhung.shape hlive Shape.size_le
  have hnodes : t'.nodes = hung.nodes := hhopped.nodes_eq
  have hme' : t'.me = some m := by
    rw [hhopped.rest]
    exact hme
  have hplace : placeNode (some n) [] parent peer t = some (n, t') := by
    have hread : update t.nodes n (some { node with parent := some parent }) parent =
        some up := (update_of_ne (Ne.symm hnp) ..).trans hup
    have hupdate : treeNodeUpdateFirstHops hung.fresh n none hung = some t' :=
      (treeNodeUpdateFirstHops_none hhop).trans ht'
    simp only [placeNode, MeshTunnelTree.setParent, MeshTunnelTree.insertChild,
      MeshTunnelTree.setNode, bind_eq_bind, bind_some, hnode, hread]
    exact congrArg (bind · fun t ↦ some (n, t)) hupdate
  obtain ⟨other, hother⟩ := exists_node (hnodes ▸ hlive : n ∈ liveNodes t'.nodes)
  have hotherPeer : other.peer = peer := by
    have hread := peerOf_eq hother
    rw [hnodes, hpeers, hpeer] at hread
    exact (some.inj hread).symm
  refine ⟨t', ?_, ?_, ?_, ?_, ?_, hme'.trans hme.symm, ?_⟩
  · rw [addBranch, hplace]
    simp only [bind_eq_bind, bind_some, hother, hotherPeer]
    by_cases hone : peer = 1
    · have hn : t'.me = some n := by
        rw [hone] at hpeer
        rw [hme', ← hme]
        exact h.me_known hpeer
      rw [if_pos hone, if_pos hone, ← hn, addBranch]
    · rw [if_neg hone, if_neg hone, addBranch]
  · rw [hhopped.rest]
    exact hhung.setHops _
  · constructor
    · intro a c hc
      rw [hnodes, hchildren]
      exact mem_attach.mpr (.inl hc)
    · intro a q hq
      rw [hnodes, hpeers]
      exact hq
    · intro a _
      rw [hnodes]
      exact congrFun (statusOf_hangBelow hup hnode) a
    · intro a q hq
      rw [hnodes, hpeers] at hq
      exact .inl hq
    · rw [hhopped.rest]
    · rw [hhopped.rest]
    · rw [hhopped.rest]
  · rw [hnodes, hchildren]
    exact mem_attach.mpr (.inr ⟨rfl, rfl⟩)
  · rw [hnodes, hchildren]
    exact update_of_ne hnp ..
  · intro hhops hexempt k c x q hop' hk hc hx hq hnotin hhop'
    rw [hnodes, hpeers] at hq
    -- The peers of the moved subtree are exempt; for the others nothing has changed.
    have hxn : x ∉ subtree t.nodes n := fun hx ↦ hnotin (hexempt ⟨x, hx, hq⟩)
    rw [hnodes] at hx
    have hxc := (hsub.mp hx).resolve_right fun hx ↦ hxn hx.2
    have hcn : c ≠ n := fun heq ↦ hxn (heq ▸ hxc)
    rw [hnodes, hchildren] at hc
    have hck := (mem_attach.mp hc).resolve_right fun heq ↦ hcn heq.2
    have hold : t.firstHops q = some hop' := by
      refine Eq.trans ?_ hhop'
      refine (hhopped.hops.outside fun hmem ↦ hnotin (hexempt ?_)).symm
      rw [hself, peersOf_congr hpeers] at hmem
      exact hmem
    rw [hnodes, hpeers]
    refine hhops ?_ hck hxc hq hnotin hold
    rw [hme, ← hme']
    exact hk

end Reattach

theorem Sound.addBranch_spec (h : Sound t loose) (hroot : t.root = some root) (hnodup : p.Nodup)
    (hp : p = taken ++ rest) (hrest : rest ≠ []) (hpath : PathTo t.nodes root parent taken)
    (hme : MeSeen p taken.length me) (hunused : ∀ q ∈ rest.dropLast, ∀ x, peerOf t.nodes x ≠ some q)
    (hlast : ∀ x, peerOf t.nodes x = rest.getLast? ↔ loose = some x)
    (hpasses : ∀ n, loose = some n → 1 ∈ p)
    (hhops : HopsRight t exempt) (hexempt : ∀ q ∈ rest, q ∈ exempt)
    (hmoved : ∀ n, loose = some n → peersOf t.nodes (subtree t.nodes n) ⊆ exempt) :
    ∃ n me' t', addBranch loose rest taken.length parent me t = some (n, me', t') ∧
      Sound t' none ∧ HopsRight t' exempt ∧ PathTo t'.nodes root n p ∧ MeSeen p p.length me' ∧
      Grown t t' rest ∧ (1 ∉ rest → t'.me = t.me) ∧
      (∀ c ∈ childrenOf t'.nodes n, ∃ old, loose = some old ∧ c ∈ childrenOf t.nodes old) := by
  obtain ⟨up, hup⟩ := exists_node hpath.live
  induction rest generalizing t taken parent me up with
  | nil => exact absurd rfl hrest
  | cons peer rest ih =>
    have hseen := hme.step hnodup hp
    have hp' := hp.trans (append_cons taken peer rest)
    have hlength : (taken ++ [peer]).length = taken.length + 1 := length_append
    have hgrown : Grown t (withRelay t parent peer up) [peer] := h.grown_withRelay hup
    have hchild : t.fresh ∈ childrenOf (withRelay t parent peer up).nodes parent :=
      (h.mem_children_withRelay hup).mpr (.inr ⟨rfl, rfl⟩)
    have hpath' : PathTo (withRelay t parent peer up).nodes root t.fresh (taken ++ [peer]) := by
      refine (hpath.mono hgrown.children hgrown.peers).child hchild ?_
      rw [h.peerOf_withRelay hup, update_self]
    by_cases hend : rest = []
    · subst hend
      rw [append_nil] at hp'
      rw [← hlength, ← hp'] at hseen
      cases loose with
      | none =>
        have hunused : ∀ x, peerOf t.nodes x ≠ some peer := fun x hx ↦
          some_ne_none x ((hlast x).mp hx).symm
        refine ⟨t.fresh, _, withRelay t parent peer up, h.addBranch_relay hup (.inr rfl),
          h.relay hup hunused, h.hopsRight_withRelay hup hhops (hexempt peer mem_cons_self),
          hp' ▸ hpath', hseen, hgrown, ?_, ?_⟩
        · intro hone
          have hne : peer ≠ 1 := by
            rintro rfl
            exact hone mem_cons_self
          exact if_neg hne
        · intro c hc
          cases (h.mem_children_withRelay hup).mp hc with
          | inl hc => exact absurd (h.shape.forest.parent_live hc) h.shape.fresh_notMem
          | inr heq => exact absurd heq.1.symm (h.parent_ne_fresh hup)
      | some n =>
        have hpeer : peerOf t.nodes n = some peer := (hlast n).mpr rfl
        obtain ⟨_, hnode⟩ := exists_node (live_of_peer hpeer)
        have habove : ∃ m, t.me = some m ∧ (parent ∈ subtree t.nodes m ∨ n = m) := by
          have hone := hpasses n rfl
          rw [hp', mem_append, mem_singleton] at hone
          cases hone with
          | inl htaken =>
            obtain ⟨m, -, -, -, hm, hbelow⟩ := hpath.of_mem htaken
            exact ⟨m, h.me_known hm, .inl hbelow⟩
          | inr heq => exact ⟨n, h.me_known (heq ▸ hpeer), .inr rfl⟩
        obtain ⟨m, hm, habove⟩ := habove
        obtain ⟨t', ht', hsound, hgrown, hchild, hsame, hmesame, hright⟩ :=
          h.addBranch_old hroot hup hpath.mem_subtree hnode taken.length me exempt hpeer hm habove
        refine ⟨n, _, t', ht', hsound, hright hhops (hmoved n rfl), ?_, hseen,
          hgrown.mono (nil_subset _), fun _ ↦ hmesame, ?_⟩
        · rw [hp']
          exact (hpath.mono hgrown.children hgrown.peers).child hchild (hgrown.peers hpeer)
        · intro c hc
          exact ⟨n, rfl, hsame ▸ hc⟩
    · have hpeer : ∀ x, peerOf t.nodes x ≠ some peer := by
        apply hunused
        rw [dropLast_cons_of_ne_nil hend]
        exact mem_cons_self
      have hnew {x q : ℕ} (hq : q ∈ rest)
          (hx : peerOf (withRelay t parent peer up).nodes x = some q) :
          peerOf t.nodes x = some q := by
        refine (hgrown.new hx).resolve_right fun heq ↦ ?_
        rw [mem_singleton.mp heq] at hq
        rw [hp, nodup_append] at hnodup
        exact (nodup_cons.mp hnodup.2.1).1 hq
      obtain ⟨up', hup'⟩ := exists_node hpath'.live
      rw [← hlength] at hseen
      have hunused' (q : ℕ) (hq : q ∈ rest.dropLast) (x : ℕ) :
          peerOf (withRelay t parent peer up).nodes x ≠ some q := by
        intro hx
        refine hunused q ?_ x (hnew (mem_of_mem_dropLast hq) hx)
        rw [dropLast_cons_of_ne_nil hend]
        exact mem_cons_of_mem peer hq
      have hlast' (x : ℕ) :
          peerOf (withRelay t parent peer up).nodes x = rest.getLast? ↔ loose = some x := by
        rw [← hlast x, getLast?_cons_of_ne_nil hend, getLast?_eq_some_getLast hend]
        exact ⟨hnew (getLast_mem hend), hgrown.peers⟩
      have hmoved' (n : ℕ) (hn : loose = some n) :
          peersOf (withRelay t parent peer up).nodes (subtree (withRelay t parent peer up).nodes n)
            ⊆ exempt := by
        rintro q ⟨x, hx, hq⟩
        cases hgrown.new hq with
        | inr heq =>
          rw [mem_singleton.mp heq]
          exact hexempt peer mem_cons_self
        | inl hold =>
          have hxfresh := h.shape.ne_fresh (live_of_peer hold)
          exact hmoved n hn ⟨x, (h.mem_subtree_withRelay hup hx).resolve_right hxfresh, hold⟩
      obtain ⟨n, me', t', ht', hsound', hhops', hpath'', hme', hgrown', hmesame, hchildren⟩ :=
        ih (h.relay hup hpeer) hroot hp' hend hpath' hseen hunused' hlast'
          (h.hopsRight_withRelay hup hhops (hexempt peer mem_cons_self))
          (fun q hq ↦ hexempt q (mem_cons_of_mem peer hq)) hmoved' up' hup'
      refine ⟨n, me', t', ?_, hsound', hhops', hpath'', hme', hgrown.trans hgrown', ?_, ?_⟩
      · rw [h.addBranch_relay hup (.inl hend), ← hlength]
        exact ht'
      · intro hone
        rw [mem_cons, not_or] at hone
        exact (hmesame hone.2).trans (if_neg (Ne.symm hone.1))
      · intro c hc
        obtain ⟨old, rfl, hold⟩ := hchildren c hc
        refine ⟨old, rfl, ((h.mem_children_withRelay hup).mp hold).resolve_right fun heq ↦ ?_⟩
        exact h.parent_notMem_loose hroot hpath.mem_subtree (heq.1 ▸ mem_subtree_self)

end Gnunet.Mesh
