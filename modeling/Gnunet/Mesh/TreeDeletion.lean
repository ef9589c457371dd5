import Gnunet.Mesh.TreeWalks

/-!
# Deleting a path of a tunnel tree

`tree_del_path` takes the node of a peer out of the tree, with the subtree below it, and frees the
relays that were only there for it. The node is loose then: it is a top of the forest that is
neither the root nor on the list of the disconnected nodes.
-/

namespace Gnunet.Mesh

open Lib.LinkedForest Lib.Runs Function List Option

variable {t t' : MeshTunnelTree} {nodes : Nodes} {tops : Set ℕ} {fresh : ℕ}
  {a c n p x y root peer fuel : ℕ} {node up : MeshTunnelTreeNode}

def statusOf (nodes : Nodes) (a : ℕ) : Option MeshPeerState := (nodes a).map (·.status)

theorem statusOf_eq (hnode : nodes a = some node) : statusOf nodes a = some node.status := by
  rw [statusOf, hnode]
  rfl

theorem statusOf_update : statusOf (update nodes a (some node)) =
    update (statusOf nodes) a (some node.status) :=
  comp_update (Option.map MeshTunnelTreeNode.status) nodes a (some node)

theorem statusOf_prune {removed : Set ℕ} (hx : x ∉ removed) :
    statusOf (prune nodes removed) x = statusOf nodes x := by
  rw [statusOf, prune, if_neg hx, Option.map_map]
  rfl

/-- The tops of the forest: the root, the disconnected nodes and a loose node. -/
def topsOf (t : MeshTunnelTree) (loose : Option ℕ) : Set ℕ :=
  {a | t.root = some a ∨ a ∈ t.disconnected ∨ loose = some a}

/-- What holds between two operations, and with a loose node in the middle of one. -/
structure Sound (t : MeshTunnelTree) (loose : Option ℕ) : Prop where
  shape : Shape t.nodes t.fresh (topsOf t loose)
  listed : t.disconnected.Nodup
  root_free : ∀ {root}, t.root = some root → root ∉ t.disconnected
  loose_free : ∀ {n}, loose = some n → n ∉ t.disconnected ∧ t.root ≠ some n
  root_status : ∀ {root}, t.root = some root → statusOf t.nodes root ≠ some .relay
  root_parent : ∀ {root}, t.root = some root → parentOf t.nodes root = none
  me_known : ∀ {a}, peerOf t.nodes a = some 1 → t.me = some a
  me_peer : ∀ {m}, t.me = some m → m ∈ liveNodes t.nodes → peerOf t.nodes m = some 1
  me_bound : ∀ {m}, t.me = some m → m < t.fresh
  quiet : ∀ {n}, n ∈ t.disconnected ∨ loose = some n →
    readyPeers t.nodes (subtree t.nodes n) = ∅

theorem mem_topsOf_none : x ∈ topsOf t none ↔ t.root = some x ∨ x ∈ t.disconnected :=
  or_congr_right (or_iff_left (some_ne_none _ ∘ Eq.symm))

theorem topsOf_some : topsOf t (some n) = insert n (topsOf t none) := by
  ext x
  rw [Set.mem_insert_iff, mem_topsOf_none]
  exact or_rotate.symm.trans (or_congr_left (some_inj.trans eq_comm))

theorem Sound.loose_notMem (h : Sound t (some n)) : n ∉ topsOf t none := by
  rw [mem_topsOf_none]
  exact fun hn ↦ hn.elim (h.loose_free rfl).2 (h.loose_free rfl).1

def HopsRight (t : MeshTunnelTree) (exempt : Set ℕ) : Prop :=
  ∀ {m c x peer hop : ℕ}, t.me = some m → c ∈ childrenOf t.nodes m → x ∈ subtree t.nodes c →
    peerOf t.nodes x = some peer → peer ∉ exempt → t.firstHops peer = some hop →
    peerOf t.nodes c = some hop

theorem HopsRight.shrink {exempt : Set ℕ} (h : HopsRight t exempt)
    (hshape : Shape t'.nodes t'.fresh tops)
    (hchildren : ∀ {a c}, c ∈ childrenOf t'.nodes a → c ∈ childrenOf t.nodes a)
    (hpeers : ∀ {x peer}, peerOf t'.nodes x = some peer → peerOf t.nodes x = some peer)
    (hhops : ∀ peer, t'.firstHops peer = none ∨ t'.firstHops peer = t.firstHops peer)
    (hme : t'.me = t.me) : HopsRight t' exempt := by
  intro m c x q hop hm hc hx hq hnot hhop
  have hold : t.firstHops q = some hop := by
    cases hhops q with
    | inl hnone =>
      rw [hnone] at hhop
      exact absurd hhop.symm (some_ne_none _)
    | inr hsame => exact hsame.symm.trans hhop
  obtain ⟨_, hq'⟩ := exists_peer (hshape.forest.child_live hc)
  have hright := h (hme.symm.trans hm) (hchildren hc)
    (below_of_agree (fun _ _ _ hd ↦ hchildren hd) hx) (hpeers hq) hnot hold
  rw [hq', ← hpeers hq', hright]

inductive OnlyFor (nodes : Nodes) (n : ℕ) : ℕ → Prop
  | parent {x : ℕ} {node : MeshTunnelTreeNode} (hnode : nodes x = some node)
      (hrelay : node.status = .relay) (hchildren : node.children = [n]) : OnlyFor nodes n x
  | above {x y : ℕ} {node : MeshTunnelTreeNode} (hy : OnlyFor nodes n y)
      (hnode : nodes x = some node) (hrelay : node.status = .relay)
      (hchildren : node.children = [y]) : OnlyFor nodes n x

/-- The relays above a node, with the node itself, that lead nowhere else. -/
inductive Idle (nodes : Nodes) (p : ℕ) : ℕ → Prop
  | here {node : MeshTunnelTreeNode} (hnode : nodes p = some node)
      (hrelay : node.status = .relay) (hchildren : node.children = []) : Idle nodes p p
  | above {x y : ℕ} {node : MeshTunnelTreeNode} (hy : Idle nodes p y)
      (hnode : nodes x = some node) (hrelay : node.status = .relay)
      (hchildren : node.children = [y]) : Idle nodes p x

section Relays

theorem childrenOf_singleton (hnode : nodes x = some node) (hchildren : node.children = [y]) :
    childrenOf nodes x = [y] := (childrenOf_eq hnode).trans hchildren

theorem mem_children_of_singleton (hnode : nodes x = some node) (hchildren : node.children = [y]) :
    y ∈ childrenOf nodes x := by
  rw [childrenOf_singleton hnode hchildren]
  exact mem_singleton_self y

theorem OnlyFor.exists_child (h : OnlyFor nodes n x) :
    ∃ c ∈ childrenOf nodes x, n ∈ subtree nodes c := by
  induction h with
  | parent hnode _ hchildren =>
    exact ⟨n, mem_children_of_singleton hnode hchildren, mem_subtree_self⟩
  | @above x y node _ hnode _ hchildren ih =>
    obtain ⟨c, hc, hn⟩ := ih
    exact ⟨y, mem_children_of_singleton hnode hchildren, .head hc hn⟩

theorem OnlyFor.mem_subtree (h : OnlyFor nodes n x) : n ∈ subtree nodes x :=
  mem_subtree_iff.mpr (.inr h.exists_child)

theorem OnlyFor.relay (h : OnlyFor nodes n x) : statusOf nodes x = some .relay := by
  cases h with
  | parent hnode hrelay => rw [statusOf_eq hnode, hrelay]
  | above _ hnode hrelay => rw [statusOf_eq hnode, hrelay]

theorem OnlyFor.cases_below (h : OnlyFor nodes n x) (hy : y ∈ subtree nodes x) :
    OnlyFor nodes n y ∨ y ∈ subtree nodes n := by
  induction h with
  | parent hnode hrelay hchildren =>
    cases mem_subtree_iff.mp hy with
    | inl heq => exact .inl (heq ▸ .parent hnode hrelay hchildren)
    | inr hbelow =>
      obtain ⟨c, hc, hy⟩ := hbelow
      rw [childrenOf_singleton hnode hchildren, mem_singleton] at hc
      exact .inr (hc ▸ hy)
  | above hz hnode hrelay hchildren ih =>
    cases mem_subtree_iff.mp hy with
    | inl heq => exact .inl (heq ▸ .above hz hnode hrelay hchildren)
    | inr hbelow =>
      obtain ⟨c, hc, hy⟩ := hbelow
      rw [childrenOf_singleton hnode hchildren, mem_singleton] at hc
      exact ih (hc ▸ hy)

theorem Shape.not_onlyFor_below (h : Shape nodes fresh tops) (hx : x ∈ subtree nodes n) :
    ¬ OnlyFor nodes n x := by
  intro hfor
  obtain ⟨c, hc, hn⟩ := hfor.exists_child
  exact h.forest.not_below_child hc (hn.trans hx)

theorem Idle.mem_subtree (h : Idle nodes p x) : p ∈ subtree nodes x := by
  induction h with
  | here => exact mem_subtree_self
  | above _ hnode _ hchildren ih => exact .head (mem_children_of_singleton hnode hchildren) ih

theorem Idle.live (h : Idle nodes p x) : x ∈ liveNodes nodes := by
  cases h with
  | here hnode => exact live_of_node hnode
  | above _ hnode => exact live_of_node hnode

theorem Idle.start (h : Idle nodes p x) :
    ∃ node, nodes p = some node ∧ node.status = .relay ∧ node.children = [] := by
  induction h with
  | here hnode hrelay hchildren => exact ⟨_, hnode, hrelay, hchildren⟩
  | above _ _ _ _ ih => exact ih

theorem Idle.closed (h : Idle nodes p x) (hc : c ∈ childrenOf nodes x) : Idle nodes p c := by
  cases h with
  | here hnode _ hchildren =>
    rw [childrenOf_eq hnode, hchildren] at hc
    exact absurd hc not_mem_nil
  | above hy hnode _ hchildren =>
    rw [childrenOf_singleton hnode hchildren, mem_singleton] at hc
    exact hc ▸ hy

theorem prune_singleton_eq (hxp : x ≠ p) (hnode : nodes x = some node) :
    prune nodes {p} x = some { node with children := node.children.filter (kept {p}) } := by
  rw [prune_of_notMem (Set.mem_singleton_iff.not.mpr hxp), hnode]
  rfl

theorem erase_eq_nil_iff {list : List ℕ} (hp : p ∈ list) : list.erase p = [] ↔ list = [p] := by
  rw [List.erase_eq_nil_iff, or_iff_right (ne_nil_of_mem hp)]

theorem Shape.idle_iff (h : Shape nodes fresh tops) (hnode : nodes p = some node)
    (hrelay : node.status = .relay) (hchildren : node.children = []) (hp : p ∈ childrenOf nodes y) :
    Idle nodes p x ↔ x = p ∨ Idle (prune nodes {p}) y x := by
  have hchild {z : ℕ} {other : MeshTunnelTreeNode} (hother : nodes z = some other)
      (hmem : p ∈ other.children) : z = y := by
    rw [← childrenOf_eq hother] at hmem
    exact h.forest.unique hmem hp
  constructor
  · intro hidle
    induction hidle with
    | here => exact .inl rfl
    | @above x z other hz hother hstatus hlist ih =>
      right
      have hxp : x ≠ p := by
        rintro rfl
        rw [hnode] at hother
        rw [← some.inj hother, hchildren] at hlist
        exact cons_ne_nil _ _ hlist.symm
      have hpruned := prune_singleton_eq hxp hother
      cases ih with
      | inl heq =>
        have hxy : x = y := hchild hother (by rw [hlist, heq]; exact mem_singleton_self p)
        have hnil : other.children.filter (kept {p}) = [] := by
          rw [hlist, heq, filter_kept_singleton (nodup_singleton p)]
          exact erase_cons_head ..
        rw [hnil] at hpruned
        exact hxy ▸ .here hpruned hstatus rfl
      | inr hrest =>
        have hzp : p ∉ other.children := by
          rw [hlist, mem_singleton]
          rintro rfl
          have hlive := hrest.live
          rw [liveNodes_prune] at hlive
          exact hlive.2 rfl
        rw [filter_kept_eq_self hzp] at hpruned
        exact .above hrest hpruned hstatus hlist
  · rintro (rfl | hidle)
    · exact .here hnode hrelay hchildren
    · have hkept {z : ℕ} {other : MeshTunnelTreeNode} (hother : prune nodes {p} z = some other) :
          ∃ before, nodes z = some before ∧
            other = { before with children := before.children.filter (kept {p}) } := by
        have hzp : z ∉ ({p} : Set ℕ) := by
          intro hzp
          rw [prune_of_mem hzp] at hother
          cases hother
        rw [prune_of_notMem hzp] at hother
        obtain ⟨before, hbefore, rfl⟩ := map_eq_some_iff.mp hother
        exact ⟨before, hbefore, rfl⟩
      induction hidle with
      | here hother hstatus hlist =>
        obtain ⟨before, hbefore, rfl⟩ := hkept hother
        have hnodup := h.forest.nodup y
        have hmem := hp
        rw [childrenOf_eq hbefore] at hnodup hmem
        rw [filter_kept_singleton hnodup] at hlist
        exact .above (.here hnode hrelay hchildren) hbefore hstatus
          ((erase_eq_nil_iff hmem).mp hlist)
      | @above x z other hz hother hstatus hlist ih =>
        obtain ⟨before, hbefore, rfl⟩ := hkept hother
        have hout : p ∉ before.children := by
          intro hmem
          -- The node would be the parent of the freed relay, and its child would be above it.
          have hxy : x = y := hchild hbefore hmem
          have hzx : z ∈ childrenOf (prune nodes {p}) x :=
            mem_children_of_singleton hother hlist
          have hclosed := closed_leaf ((childrenOf_eq hnode).trans hchildren)
          exact (h.pruned hclosed).forest.not_below_child hzx (hxy ▸ hz.mem_subtree)
        rw [filter_kept_eq_self hout] at hlist
        exact .above ih hbefore hstatus hlist

theorem destroyRelays_eq (h : Shape t.nodes t.fresh tops) (hroot : root ∈ tops)
    (hstatus : statusOf t.nodes root ≠ some .relay) (hp : p ∈ subtree t.nodes root)
    (hfuel : depth (childrenOf t.nodes) (Finset.range t.fresh) p ≤ fuel) :
    destroyRelays fuel p t = some { t with nodes := prune t.nodes {x | Idle t.nodes p x} } := by
  induction fuel generalizing p t tops with
  | zero =>
    have hlive := h.forest.live_of_below (h.forest.top_live hroot) hp
    exact absurd hfuel (Nat.not_le.mpr (Forest.depth_pos h.live_subset hlive))
  | succ fuel ih =>
    have hlive := h.forest.live_of_below (h.forest.top_live hroot) hp
    obtain ⟨node, hnode⟩ := exists_node hlive
    by_cases hidle : node.status = .relay ∧ node.children = []
    · have hne : p ≠ root := by
        rintro rfl
        rw [statusOf_eq hnode, hidle.1] at hstatus
        exact hstatus rfl
      cases hp with
      | refl => exact absurd rfl hne
      | @tail y _ hy hyp =>
        have hparent := h.parent_eq hnode hyp
        have hleaf := (childrenOf_eq hnode).trans hidle.2
        have hclosed := closed_leaf hleaf
        have hdestroy : treeNodeDestroy t.fresh p t =
            some { t with nodes := prune t.nodes {p} } := by
          rw [treeNodeDestroy_eq h hlive (h.placed_child hyp) Shape.size_le, subtree_leaf hleaf]
        have hlinks := h.links_prune hclosed
        have hyout : y ∉ ({p} : Set ℕ) := fun heq ↦ h.ne_of_child hyp (Eq.symm heq)
        have hrootout : root ∉ ({p} : Set ℕ) := fun heq ↦ hne (Eq.symm heq)
        have hrest := ih (t := { t with nodes := prune t.nodes {p} }) (p := y) (h.pruned hclosed)
          ⟨hroot, hrootout⟩
          (fun heq ↦ hstatus ((statusOf_prune hrootout).symm.trans heq))
          ((hlinks.below_iff hyout).mpr hy)
          ((depth_mono fun x ↦ hlinks.below_of_below).trans
            (Nat.le_of_lt_succ ((h.forest.depth_lt h.live_subset hyp).trans_le hfuel)))
        have hset : ({p} : Set ℕ) ∪ {x | Idle (prune t.nodes {p}) y x} =
            {x | Idle t.nodes p x} := by
          ext x
          exact (h.idle_iff hnode hidle.1 hidle.2 hyp).symm
        rw [destroyRelays, hnode]
        simp only [bind_eq_bind, bind_some, if_pos hidle, hdestroy, hparent]
        rw [hrest]
        simp only [prune_prune, hset]
    · have hset : {x | Idle t.nodes p x} = ∅ := by
        ext x
        refine iff_of_false (fun hx ↦ hidle ?_) (Set.notMem_empty x)
        obtain ⟨_, hother, hrest⟩ := Idle.start hx
        rw [hnode] at hother
        exact some.inj hother ▸ hrest
      rw [destroyRelays, hnode]
      simp only [bind_eq_bind, bind_some, if_neg hidle]
      rw [hset, prune_empty]

theorem Shape.idle_cutOff_iff (h : Shape nodes fresh tops) (hup : nodes p = some up)
    (hnode : nodes n = some node) (hn : n ∈ up.children) :
    Idle (cutOff nodes p n up node none) p x ↔ OnlyFor nodes n x := by
  have hmem : n ∈ childrenOf nodes p := (childrenOf_eq hup).symm ▸ hn
  have hne := h.ne_of_child hmem
  have hcut : Shape (cutOff nodes p n up node none) fresh (insert n tops) := h.cut hup hnode hn
  have hatp : cutOff nodes p n up node none p =
      some { up with children := up.children.erase n } := by
    rw [cutOff, update_of_ne (Ne.symm hne), update_self]
  have hother {z : ℕ} (hzp : z ≠ p) (hzn : z ≠ n) :
      cutOff nodes p n up node none z = nodes z := by
    rw [cutOff, update_of_ne hzn, update_of_ne hzp]
  constructor
  · intro hidle
    induction hidle with
    | here hat hstatus hlist =>
      rw [hatp] at hat
      obtain rfl := some.inj hat
      exact .parent hup hstatus ((erase_eq_nil_iff hn).mp hlist)
    | @above x z other hz hat hstatus hlist ih =>
      have hzx := mem_children_of_singleton hat hlist
      have hxp : x ≠ p := by
        rintro rfl
        exact hcut.forest.not_below_child hzx hz.mem_subtree
      have hxn : x ≠ n := by
        rintro rfl
        obtain ⟨c, hc, hx⟩ := ih.exists_child
        rw [childrenOf_cutOff hup hnode hne, h.forest.mem_detach hmem] at hzx
        exact h.forest.not_below_child hzx.1 (.head hc hx)
      rw [hother hxp hxn] at hat
      exact .above ih hat hstatus hlist
  · intro hfor
    induction hfor with
    | @parent x other hat hstatus hlist =>
      have hxp : x = p := h.forest.unique (mem_children_of_singleton hat hlist) hmem
      subst hxp
      rw [hup] at hat
      obtain rfl := some.inj hat
      exact .here hatp hstatus ((erase_eq_nil_iff hn).mpr hlist)
    | @above x z other hz hat hstatus hlist ih =>
      have hfor := OnlyFor.above hz hat hstatus hlist
      have hxn : x ≠ n := by
        rintro rfl
        exact h.not_onlyFor_below mem_subtree_self hfor
      have hxp : x ≠ p := by
        rintro rfl
        rw [childrenOf_singleton hat hlist, mem_singleton] at hmem
        exact h.not_onlyFor_below (hmem ▸ mem_subtree_self) hz
      rw [← hother hxp hxn] at hat
      exact .above ih hat hstatus hlist

end Relays

structure PathDeleted (t t' : MeshTunnelTree) (n : ℕ) : Prop where
  children : ∀ {a c}, c ∈ childrenOf t'.nodes a ↔
    c ∈ childrenOf t.nodes a ∧ c ≠ n ∧ ¬ OnlyFor t.nodes n c
  peers : ∀ {x peer}, peerOf t'.nodes x = some peer ↔
    peerOf t.nodes x = some peer ∧ ¬ OnlyFor t.nodes n x
  parents : ∀ {x}, ¬ OnlyFor t.nodes n x → x ≠ n → parentOf t'.nodes x = parentOf t.nodes x
  status : ∀ {x}, ¬ OnlyFor t.nodes n x → x ∉ subtree t.nodes n →
    statusOf t'.nodes x = statusOf t.nodes x
  marked : ∀ {x}, x ∈ subtree t.nodes n → statusOf t'.nodes x ≠ some .ready
  told : ∃ told, t'.reported = t.reported ++ told ∧ told.Nodup ∧
    ∀ peer, peer ∈ told ↔ peer ∈ readyPeers t.nodes (subtree t.nodes n)
  hops : ∀ peer, t'.firstHops peer = none ∨ t'.firstHops peer = t.firstHops peer
  fresh : t'.fresh = t.fresh
  root : t'.root = t.root
  me : t'.me = t.me
  disconnected : t'.disconnected = t.disconnected.erase n

section Deleted

theorem PathDeleted.below_of_below (h : PathDeleted t t' n) (hx : x ∈ subtree t'.nodes a) :
    x ∈ subtree t.nodes a :=
  below_of_agree (fun _ _ _ hc ↦ (h.children.mp hc).1) hx

theorem statusOf_cutOff {parent : Option ℕ} (hup : nodes p = some up)
    (hnode : nodes n = some node) :
    statusOf (cutOff nodes p n up node parent) = statusOf nodes := by
  rw [cutOff, statusOf_update, statusOf_update,
    update_update_self (statusOf_eq hup) (statusOf_eq hnode)]

variable {s : Set ℕ}

theorem Marked.status (h : Marked t t' s) (hx : x ∈ s) : statusOf t'.nodes x ≠ some .ready := by
  rw [statusOf, h.inside hx]
  cases t.nodes x with
  | none => exact some_ne_none _ ∘ Eq.symm
  | some node =>
    rw [map_some, markNode]
    split
    · exact fun heq ↦ MeshPeerState.noConfusion (some.inj heq)
    · next hstatus => exact fun heq ↦ hstatus (some.inj heq)

theorem mem_readyPeers_iff : peer ∈ readyPeers nodes s ↔
    ∃ x ∈ s, statusOf nodes x = some .ready ∧ peerOf nodes x = some peer := by
  constructor
  · rintro ⟨x, hx, node, hnode, hstatus, rfl⟩
    exact ⟨x, hx, by rw [statusOf_eq hnode, hstatus], peerOf_eq hnode⟩
  · rintro ⟨x, hx, hstatus, hpeer⟩
    obtain ⟨node, hnode⟩ := exists_node (live_of_peer hpeer)
    rw [statusOf_eq hnode] at hstatus
    rw [peerOf_eq hnode] at hpeer
    exact ⟨x, hx, node, hnode, some.inj hstatus, some.inj hpeer⟩

theorem readyPeers_eq_empty_iff : readyPeers nodes s = ∅ ↔
    ∀ x ∈ s, statusOf nodes x ≠ some .ready := by
  rw [Set.eq_empty_iff_forall_notMem]
  constructor
  · intro h x hx hstatus
    obtain ⟨node, hnode, -⟩ := map_eq_some_iff.mp hstatus
    exact h node.peer (mem_readyPeers_iff.mpr ⟨x, hx, hstatus, peerOf_eq hnode⟩)
  · intro h peer hpeer
    obtain ⟨x, hx, hstatus, -⟩ := mem_readyPeers_iff.mp hpeer
    exact h x hx hstatus

theorem Sound.root_live {loose : Option ℕ} (h : Sound t loose) (hroot : t.root = some root) :
    root ∈ liveNodes t.nodes := h.shape.forest.top_live (.inl hroot)

variable (h : Sound t none) (hroot : t.root = some root)
include h hroot

theorem Sound.exists_parent (hn : n ∈ subtree t.nodes root) (hne : n ≠ root) :
    ∃ p up, n ∈ childrenOf t.nodes p ∧ t.nodes p = some up ∧ p ∈ subtree t.nodes root := by
  cases hn with
  | refl => exact absurd rfl hne
  | @tail p _ hp hpn =>
    obtain ⟨up, hup⟩ := exists_node (h.shape.forest.parent_live hpn)
    exact ⟨p, up, hpn, hup, hp⟩

theorem Sound.notMem_subtree_disconnected (hn : n ∈ subtree t.nodes root)
    (hd : p ∈ t.disconnected) : n ∉ subtree t.nodes p := by
  intro hbelow
  have heq := h.shape.forest.top_unique (.inl hroot) (.inr (.inl hd)) hn hbelow
  exact h.root_free hroot (heq ▸ hd)

theorem Sound.root_notMem_subtree (hne : n ≠ root) : root ∉ subtree t.nodes n :=
  fun hbelow ↦ hne (h.shape.forest.eq_of_below_top (.inl hroot) hbelow)

theorem Sound.not_onlyFor_top (hn : n ∈ subtree t.nodes root) (htop : a ∈ topsOf t none) :
    ¬ OnlyFor t.nodes n a := by
  intro hfor
  have heq := h.shape.forest.top_unique (.inl hroot) htop hn hfor.mem_subtree
  exact h.root_status hroot (heq ▸ hfor.relay)

omit h hroot in
theorem PathDeleted.sound (hdeleted : PathDeleted t t' n) (h : Sound t none)
    (hroot : t.root = some root) (hne : n ≠ root)
    (hshape : Shape t'.nodes t'.fresh (topsOf t' (some n))) : Sound t' (some n) where
  shape := hshape
  listed := by
    rw [hdeleted.disconnected]
    exact h.listed.erase n
  root_free hroot' hd := by
    rw [hdeleted.root] at hroot'
    rw [hdeleted.disconnected] at hd
    exact h.root_free hroot' (mem_of_mem_erase hd)
  loose_free {m} hm := by
    rw [hdeleted.disconnected, hdeleted.root, hroot, ← some.inj hm]
    refine ⟨fun hd ↦ ?_, fun heq ↦ hne (some.inj heq).symm⟩
    exact (h.listed.mem_erase_iff.mp hd).1 rfl
  root_status {top} htop := by
    rw [hdeleted.root] at htop
    have hstatus := h.root_status htop
    rw [hdeleted.status (fun hfor ↦ hstatus hfor.relay) (h.root_notMem_subtree htop ?_)]
    · exact hstatus
    · rintro rfl
      exact hne (some.inj (htop.symm.trans hroot))
  root_parent {top} htop := by
    rw [hdeleted.root] at htop
    rw [hdeleted.parents (fun hfor ↦ h.root_status htop hfor.relay) ?_]
    · exact h.root_parent htop
    · rintro rfl
      exact hne (some.inj (htop.symm.trans hroot))
  me_known ha := by
    rw [hdeleted.me]
    exact h.me_known (hdeleted.peers.mp ha).1
  me_peer hme hlive := by
    rw [hdeleted.me] at hme
    have hpeer := hdeleted.peers.mp (exists_peer hlive).choose_spec
    exact hdeleted.peers.mpr ⟨h.me_peer hme (live_of_peer hpeer.1), hpeer.2⟩
  me_bound hme := by
    rw [hdeleted.me] at hme
    rw [hdeleted.fresh]
    exact h.me_bound hme
  quiet {m} hm := by
    apply readyPeers_eq_empty_iff.mpr
    intro x hx hready
    have hxt := hdeleted.below_of_below hx
    by_cases hxn : x ∈ subtree t.nodes n
    · exact hdeleted.marked hxn hready
    · obtain ⟨_, hnode, -⟩ := map_eq_some_iff.mp hready
      have hfor := (hdeleted.peers.mp (peerOf_eq hnode)).2
      rw [hdeleted.status hfor hxn] at hready
      cases hm with
      | inl hd =>
        rw [hdeleted.disconnected] at hd
        exact readyPeers_eq_empty_iff.mp (h.quiet (.inl (mem_of_mem_erase hd))) x hxt hready
      | inr heq => exact hxn (some.inj heq ▸ hxt)

theorem Sound.delete_connected (hn : n ∈ subtree t.nodes root) (hne : n ≠ root)
    (hnode : t.nodes n = some node) :
    ∃ t' parent, node.parent = some parent ∧
      (do
        let t ← t.removeChild parent n
        let t ← t.setParent n none
        let t ← destroyRelays t.fresh parent t
        treeMarkPeersDisconnected t.fresh n t) = some t' ∧
      PathDeleted t t' n ∧ Sound t' (some n) ∧ parentOf t'.nodes n = none := by
  obtain ⟨p, up, hpn, hup, hp⟩ := h.exists_parent hroot hn hne
  have hparent := h.shape.parent_eq hnode hpn
  have hnp := h.shape.ne_of_child hpn
  have hmem : n ∈ up.children := childrenOf_eq hup ▸ hpn
  let cut : MeshTunnelTree := { t with nodes := cutOff t.nodes p n up node none }
  have hfirst : (do
      let t ← t.removeChild p n
      t.setParent n none) = some cut := by
    have hread : (t.setNode p { up with children := up.children.erase n }).nodes n = some node :=
      (update_of_ne hnp ..).trans hnode
    simp only [removeChild_eq hup hmem, bind_eq_bind, bind_some, MeshTunnelTree.setParent, hread]
    rfl
  have hcut : Shape cut.nodes cut.fresh (insert n (topsOf t none)) := h.shape.cut hup hnode hmem
  have hbelow {a x : ℕ} : x ∈ subtree cut.nodes a ↔
      x ∈ subtree t.nodes a ∧ (x ∈ subtree t.nodes n → a ∈ subtree t.nodes n) := by
    change Below (childrenOf (cutOff t.nodes p n up node none)) a x ↔ _
    rw [childrenOf_cutOff hup hnode hnp]
    exact h.shape.forest.below_detach hpn
  have hpcut : p ∈ subtree cut.nodes root :=
    hbelow.mpr ⟨hp, fun hnp ↦ absurd hnp (h.shape.forest.not_below_child hpn)⟩
  have hstatus : statusOf cut.nodes = statusOf t.nodes := statusOf_cutOff hup hnode
  have hset : {x | Idle cut.nodes p x} = {x | OnlyFor t.nodes n x} :=
    Set.ext fun x ↦ h.shape.idle_cutOff_iff hup hnode hmem
  let freed : MeshTunnelTree := { cut with nodes := prune cut.nodes {x | OnlyFor t.nodes n x} }
  have hsecond : destroyRelays cut.fresh p cut = some freed := by
    rw [destroyRelays_eq hcut (.inr (.inl hroot)) (by rw [hstatus]; exact h.root_status hroot)
      hpcut Shape.depth_le, hset]
  have hclosed : ∀ a ∈ {x | OnlyFor t.nodes n x}, ∀ c ∈ childrenOf cut.nodes a,
      c ∈ {x | OnlyFor t.nodes n x} := by
    rw [← hset]
    exact fun a ha c hc ↦ Idle.closed ha hc
  have hfreed : Shape freed.nodes freed.fresh
      (insert n (topsOf t none) \ {x | OnlyFor t.nodes n x}) := hcut.pruned hclosed
  have hself : ¬ OnlyFor t.nodes n n := h.shape.not_onlyFor_below mem_subtree_self
  have hlive : n ∈ liveNodes freed.nodes :=
    hfreed.forest.top_live ⟨.inl rfl, hself⟩
  obtain ⟨t', ht', hmarked⟩ := treeMarkPeersDisconnected_marked hfreed hlive Shape.size_le
  have hlinks := hcut.links_prune hclosed
  have hsub : subtree freed.nodes n = subtree t.nodes n := by
    ext x
    constructor
    · exact fun hx ↦ (hbelow.mp (hlinks.below_of_below hx)).1
    · intro hx
      refine (hlinks.below_iff (h.shape.not_onlyFor_below hx)).mpr ?_
      exact hbelow.mpr ⟨hx, fun _ ↦ mem_subtree_self⟩
  rw [hsub] at hmarked
  have hsame := hmarked.sameLinks
  have hpeers {x peer : ℕ} : peerOf t'.nodes x = some peer ↔
      peerOf t.nodes x = some peer ∧ ¬ OnlyFor t.nodes n x := by
    rw [hsame.peers]
    refine peerOf_prune_eq_some.trans ?_
    rw [peerOf_cutOff hup hnode]
    rfl
  have hunmarked {x : ℕ} (hfor : ¬ OnlyFor t.nodes n x) :
      statusOf freed.nodes x = statusOf t.nodes x :=
    (statusOf_prune hfor).trans (congrFun hstatus x)
  have hdeleted : PathDeleted t t' n := by
    constructor
    · intro a c
      rw [hsame.children]
      refine hlinks.mem.trans ?_
      change c ∈ childrenOf (cutOff t.nodes p n up node none) a ∧ _ ↔ _
      rw [childrenOf_cutOff hup hnode hnp, h.shape.forest.mem_detach hpn, and_assoc]
      rfl
    · exact hpeers
    · intro x hfor hx
      rw [hsame.parents]
      refine (parentOf_prune hfor).trans ?_
      change parentOf (cutOff t.nodes p n up node none) x = _
      rw [parentOf_cutOff hup, update_of_ne hx]
    · intro x hfor hx
      rw [statusOf, hmarked.outside hx]
      exact hunmarked hfor
    · exact fun hx ↦ hmarked.status hx
    · obtain ⟨told, htold, hnodup, hready⟩ := hmarked.told
      refine ⟨told, htold, hnodup, fun peer ↦ (hready peer).trans ?_⟩
      rw [mem_readyPeers_iff, mem_readyPeers_iff]
      refine exists_congr fun x ↦ and_congr_right fun hx ↦ ?_
      have hfor := h.shape.not_onlyFor_below hx
      rw [hunmarked hfor, ← hsame.peers, hpeers, and_iff_left hfor]
    · intro peer
      by_cases hpeer : peer ∈ peersOf freed.nodes (subtree t.nodes n)
      · exact .inl (hmarked.hops.inside hpeer)
      · exact .inr (hmarked.hops.outside hpeer)
    · rw [hmarked.rest]
    · rw [hmarked.rest]
    · rw [hmarked.rest]
    · rw [hmarked.rest]
      have hout : n ∉ t.disconnected := fun hd ↦
        h.notMem_subtree_disconnected hroot hn hd mem_subtree_self
      exact (erase_of_not_mem hout).symm
  have hdisconnected : t'.disconnected = t.disconnected := by rw [hmarked.rest]
  have htops : topsOf t' (some n) = insert n (topsOf t none) \ {x | OnlyFor t.nodes n x} := by
    have hsame : topsOf t' none = topsOf t none := by
      rw [topsOf, hdeleted.root, hdisconnected, topsOf]
    rw [topsOf_some, hsame]
    refine (sdiff_eq_left.mpr (Set.disjoint_left.mpr ?_)).symm
    rintro x (rfl | hx)
    · exact hself
    · exact h.not_onlyFor_top hroot hn hx
  refine ⟨t', p, hparent, ?_, hdeleted, ?_, ?_⟩
  · have hassoc := congrArg
      (fun found ↦ found.bind fun t ↦ (destroyRelays t.fresh p t).bind fun t ↦
        treeMarkPeersDisconnected t.fresh n t) hfirst
    simp only [bind_eq_bind, bind_assoc, bind_some, hsecond] at hassoc
    exact hassoc.trans ht'
  · refine hdeleted.sound h hroot hne ?_
    rw [hdeleted.fresh, htops]
    exact hfreed.relabel hsame
  · rw [hsame.parents]
    refine (parentOf_prune hself).trans ?_
    change parentOf (cutOff t.nodes p n up node none) n = none
    rw [parentOf_cutOff hup]
    exact update_self ..

theorem Sound.delete_disconnected (hn : n ∈ t.disconnected) :
    PathDeleted t { t with disconnected := t.disconnected.erase n } n ∧
      Sound { t with disconnected := t.disconnected.erase n } (some n) := by
  have hfree {a : ℕ} : n ∉ childrenOf t.nodes a := h.shape.forest.top_free (.inr (.inl hn))
  have hfor {x : ℕ} : ¬ OnlyFor t.nodes n x := by
    intro hfor
    induction hfor with
    | parent hnode _ hchildren => exact hfree (mem_children_of_singleton hnode hchildren)
    | above _ _ _ _ ih => exact ih
  have hquiet := h.quiet (.inl hn)
  have htops : topsOf { t with disconnected := t.disconnected.erase n } (some n) =
      topsOf t none := by
    ext x
    rw [topsOf_some, Set.mem_insert_iff, mem_topsOf_none, mem_topsOf_none]
    by_cases hxn : x = n
    · exact iff_of_true (.inl hxn) (.inr (hxn ▸ hn))
    · rw [or_iff_right hxn]
      exact or_congr_right (mem_erase_of_ne hxn)
  have hdeleted : PathDeleted t { t with disconnected := t.disconnected.erase n } n := by
    constructor
    · exact ⟨fun hc ↦ ⟨hc, fun heq ↦ hfree (heq ▸ hc), hfor⟩, And.left⟩
    · exact fun {x peer} ↦ ⟨fun hpeer ↦ ⟨hpeer, hfor⟩, And.left⟩
    · exact fun _ _ ↦ rfl
    · exact fun _ _ ↦ rfl
    · exact fun {x} hx ↦ readyPeers_eq_empty_iff.mp hquiet x hx
    · refine ⟨[], (append_nil _).symm, nodup_nil, fun peer ↦ ?_⟩
      rw [hquiet]
      exact iff_of_false not_mem_nil (Set.notMem_empty peer)
    · exact fun _ ↦ .inr rfl
    · rfl
    · rfl
    · rfl
    · rfl
  refine ⟨hdeleted, hdeleted.sound h hroot ?_ ?_⟩
  · rintro rfl
    exact h.root_free hroot hn
  · rw [htops]
    exact h.shape

theorem Sound.treeDelPath_cases (peer : ℕ) :
    treeDelPath t peer = some (none, t) ∧ (peerOf t.nodes root = some peer ∨
        ∀ x, peerOf t.nodes x = some peer → x ∉ t.disconnected ∧ x ∉ subtree t.nodes root) ∨
      ∃ n t', treeDelPath t peer = some (some n, t') ∧ peerOf t.nodes n = some peer ∧ n ≠ root ∧
        (n ∈ t.disconnected ∨ n ∈ subtree t.nodes root ∧ parentOf t'.nodes n = none) ∧
        PathDeleted t t' n ∧ Sound t' (some n) := by
  obtain ⟨rootNode, hrootNode⟩ := exists_node (h.root_live hroot)
  have hstart : treeDelPath t peer = _ := congrArg (Option.bind · _) hroot
  simp only [bind_eq_bind, bind_some, hrootNode] at hstart
  by_cases hpeer : peer = rootNode.peer
  · exact .inl ⟨hstart.trans (if_pos hpeer), .inl (hpeer ▸ peerOf_eq hrootNode)⟩
  rw [if_neg hpeer] at hstart
  have hdifferent {n : ℕ} (hn : peerOf t.nodes n = some peer) : n ≠ root := by
    rintro rfl
    rw [peerOf_eq hrootNode] at hn
    exact hpeer (some.inj hn).symm
  have hlisted (n : ℕ) (hn : n ∈ t.disconnected) : n ∈ liveNodes t.nodes :=
    h.shape.forest.top_live (.inr (.inl hn))
  cases findIn_cases peer hlisted with
  | inr hfound =>
    obtain ⟨n, hn, hfind, hnpeer⟩ := hfound
    rw [hfind] at hstart
    have hdelete := h.delete_disconnected hroot hn
    exact .inr ⟨n, _, hstart, hnpeer, hdifferent hnpeer, .inl hn, hdelete⟩
  | inl hnone =>
    rw [hnone.1] at hstart
    cases treeFindPeer_cases peer h.shape hroot (h.root_live hroot) with
    | inl hmiss =>
      rw [hmiss.1] at hstart
      exact .inl ⟨hstart, .inr fun x hx ↦
        ⟨fun hd ↦ hnone.2 x hd hx, fun hbelow ↦ hmiss.2 x hbelow hx⟩⟩
    | inr hfound =>
      obtain ⟨n, hfind, hn, hnpeer⟩ := hfound
      obtain ⟨_, hnode⟩ := exists_node (live_of_peer hnpeer)
      obtain ⟨t', _, hparent, hsteps, hdeleted, hsound, hloose⟩ :=
        h.delete_connected hroot hn (hdifferent hnpeer) hnode
      refine .inr ⟨n, t', ?_, hnpeer, hdifferent hnpeer, .inr ⟨hn, hloose⟩, hdeleted, hsound⟩
      have hlast := congrArg (fun found ↦ found.bind fun t ↦ some (some n, t)) hsteps
      simp only [bind_eq_bind, bind_assoc] at hlast
      rw [hstart, hfind]
      simp only [bind_some, hnode, hparent]
      exact hlast

end Deleted

end Gnunet.Mesh
