import Gnunet.Mesh.TreeCalls

/-!
# Sequences of calls on a tunnel tree

A tunnel starts with a tree for its owner. Paths are added and peers deleted, connections break, and
the status of peers and first hops are asked for and changed.
-/

namespace Gnunet.Mesh

open Lib.LinkedForest Lib.Runs List Option

inductive TreeCall
  | addPath (p : List ℕ)
  | delPeer (peer : ℕ)
  | connectionBroken (p1 p2 : ℕ)
  | setStatus (peer : ℕ) (status : MeshPeerState)
  | getFirstHop (peer : ℕ)

def perform (t : MeshTunnelTree) : TreeCall → Option MeshTunnelTree
  | .addPath p => (treeAddPath t p).map Prod.snd
  | .delPeer peer => (treeDelPeer t peer).map Prod.snd
  | .connectionBroken p1 p2 => (treeNotifyConnectionBroken t p1 p2).map Prod.snd
  | .setStatus peer status => treeSetStatus t peer status
  | .getFirstHop peer => (treeGetFirstHop t peer).map Prod.snd

/-- A path that starts at the root has to fit, a disconnected peer is not deleted, the root does not
become a relay, and a first hop is asked only for nodes below the local peer. -/
def Allowed (t : MeshTunnelTree) (call : TreeCall) : Prop :=
  ∃ root, t.root = some root ∧ match call with
    | .addPath p => p ≠ [] ∧ (p.head? = peerOf t.nodes root → PathFits t root p)
    | .delPeer peer => ∀ n ∈ t.disconnected, peerOf t.nodes n ≠ some peer
    | .connectionBroken _ _ => True
    | .setStatus peer status => status = .relay → peerOf t.nodes root ≠ some peer
    | .getFirstHop peer => t.firstHops peer = none → ∀ m, t.me = some m →
        ∀ x ∈ subtree t.nodes root, peerOf t.nodes x = some peer → x ∈ subtree t.nodes m

/-- The call writes no first hop for the peers behind the local peer when it is about that peer. -/
def KeepsHops (t : MeshTunnelTree) : TreeCall → Prop
  | .addPath p => p.getLast? = some 1 → p.tail ≠ [] → ∀ x, peerOf t.nodes x = some 1 →
      childrenOf t.nodes x = []
  | .getFirstHop peer => t.firstHops peer = none → ∀ m, t.me = some m →
      peerOf t.nodes m = some peer → childrenOf t.nodes m = []
  | _ => True

/-- The call does not free the node of the local peer and breaks no connection of the tree. -/
def KeepsMe (t : MeshTunnelTree) : TreeCall → Prop
  | .delPeer peer => ∀ m n, t.me = some m → peerOf t.nodes n = some peer →
      ¬ OnlyFor t.nodes n m ∧ m ∉ subtree t.nodes n
  | .connectionBroken p1 p2 => ∀ a c, c ∈ childrenOf t.nodes a →
      ¬ (peerOf t.nodes a = some p1 ∧ peerOf t.nodes c = some p2) ∧
        ¬ (peerOf t.nodes a = some p2 ∧ peerOf t.nodes c = some p1)
  | _ => True

structure MeKept (t : MeshTunnelTree) : Prop where
  disconnected : t.disconnected = []
  live : ∀ {m}, t.me = some m → m ∈ liveNodes t.nodes

theorem MeKept.notMem {t : MeshTunnelTree} {x : ℕ} (h : MeKept t) : x ∉ t.disconnected := by
  rw [h.disconnected]
  exact not_mem_nil

variable {t t' : MeshTunnelTree} {call : TreeCall} {calls : List TreeCall}
  {a c m n p1 p2 x root peer owner : ℕ} {labels labels' p : List ℕ}

section Steps

theorem treeAddPath_other (hroot : t.root = some root) (hne : p ≠ [])
    (hlive : root ∈ liveNodes t.nodes) (hhead : p.head? ≠ peerOf t.nodes root) :
    treeAddPath t p = some (false, t) := by
  obtain ⟨rootNode, hrootNode⟩ := exists_node hlive
  rw [peerOf_eq hrootNode] at hhead
  cases p with
  | nil => exact absurd rfl hne
  | cons first branch =>
    have hfirst : rootNode.peer ≠ first := fun heq ↦ hhead (congrArg some heq.symm)
    rw [treeAddPath, hroot]
    simp only [bind_eq_bind, bind_some, hrootNode]
    exact if_pos hfirst

theorem PathAdded.meKept (h : PathAdded t t' root p) (hsound : Sound t' none) (hkept : MeKept t) :
    MeKept t' where
  disconnected := eq_nil_iff_forall_not_mem.mpr fun x hx ↦ hkept.notMem (h.disconnected hx)
  live {m} hm := by
    cases h.me with
    | inl hone =>
      obtain ⟨n, hpath⟩ := h.path
      obtain ⟨y, _, -, -, hpeer, -⟩ := hpath.of_mem hone
      obtain rfl := some.inj ((hsound.me_known hpeer).symm.trans hm)
      exact live_of_peer hpeer
    | inr hsame => exact hsame.2 (hkept.live (hsame.1 ▸ hm))

theorem PeerDeleted.meKept (h : PeerDeleted t t' n) (hpeer : peerOf t.nodes n = some peer)
    (hkeeps : KeepsMe t (.delPeer peer)) (hkept : MeKept t) : MeKept t' where
  disconnected := eq_nil_iff_forall_not_mem.mpr fun x hx ↦ hkept.notMem (h.disconnected hx)
  live {m} hm := by
    rw [h.me] at hm
    obtain ⟨honly, hbelow⟩ := hkeeps m n hm hpeer
    exact h.kept hm (hkept.live hm) honly hbelow

theorem Sound.perform_spec (h : Sound t none) (hallowed : Allowed t call) :
    ∃ t', perform t call = some t' ∧ Sound t' none ∧
      (KeepsHops t call → HopsRight t ∅ → HopsRight t' ∅) ∧
      (KeepsMe t call → MeKept t → MeKept t') := by
  obtain ⟨root, hroot, hcall⟩ := hallowed
  cases call with
  | addPath p =>
    by_cases hhead : p.head? = peerOf t.nodes root
    · obtain ⟨t', ht', hsound, hadded, hhops⟩ := h.treeAddPath_spec hroot hhead (hcall.2 hhead)
      refine ⟨t', ?_, hsound, hhops, fun _ ↦ hadded.meKept hsound⟩
      rw [perform, ht']
      rfl
    · refine ⟨t, ?_, h, fun _ ↦ id, fun _ ↦ id⟩
      rw [perform, treeAddPath_other hroot hcall.1 (h.root_live hroot) hhead]
      rfl
  | delPeer peer =>
    cases h.treeDelPeer_cases hroot hcall with
    | inl hnone =>
      refine ⟨t, ?_, h, fun _ ↦ id, fun _ ↦ id⟩
      rw [perform, hnone]
      rfl
    | inr hfound =>
      obtain ⟨n, _, t', hpeer, ht', hsound, hdeleted⟩ := hfound
      refine ⟨t', ?_, hsound, fun _ ↦ hdeleted.hopsRight hsound, hdeleted.meKept hpeer⟩
      rw [perform, ht']
      rfl
  | connectionBroken p1 p2 =>
    obtain ⟨_, t', ht', hsound, hhops, hsame⟩ := h.connectionBroken_spec hroot p1 p2
    refine ⟨t', ?_, hsound, fun _ ↦ hhops, fun hkeeps hkept ↦ ?_⟩
    · rw [perform, ht']
      rfl
    · rw [hsame hkeeps]
      exact hkept
  | setStatus peer status =>
    obtain ⟨t', ht', hsound, hhops, hlinks, hdisconnected, hme⟩ :=
      h.treeSetStatus_spec hroot hcall
    refine ⟨t', ht', hsound, fun _ ↦ hhops, fun _ hkept ↦ ⟨?_, fun {m} hm ↦ ?_⟩⟩
    · rw [hdisconnected]
      exact hkept.disconnected
    · rw [liveNodes_congr hlinks.peers]
      exact hkept.live (hme ▸ hm)
  | getFirstHop peer =>
    obtain ⟨_, t', ht', hrest, hhops⟩ := h.treeGetFirstHop_spec hroot hcall
    refine ⟨t', ?_, ?_, hhops, fun _ hkept ↦ ?_⟩
    · rw [perform, ht']
      rfl
    · rw [hrest]
      exact h.setHops _
    · rw [hrest]
      exact ⟨hkept.disconnected, hkept.live⟩

end Steps

section Paths

theorem PathTo.labels_unique {nodes : Nodes} {fresh : ℕ} {tops : Set ℕ}
    (h : Shape nodes fresh tops) (hroot : root ∈ tops) (hx : PathTo nodes root x labels)
    (hx' : PathTo nodes root x labels') : labels = labels' := by
  induction hx generalizing labels' with
  | root hpeer =>
    cases hx' with
    | root hpeer' => rw [some.inj (hpeer.symm.trans hpeer')]
    | child _ hc => exact absurd hc (h.forest.top_free hroot)
  | child _ hc hpeer ih =>
    cases hx' with
    | root => exact absurd hc (h.forest.top_free hroot)
    | child ha' hc' hpeer' =>
      obtain rfl := h.forest.unique hc hc'
      rw [ih ha', some.inj (hpeer.symm.trans hpeer')]

/-- The first hop to each node behind the local peer is its child on the way to the node. -/
def FirstHopsRight (t : MeshTunnelTree) : Prop :=
  ∀ root m c x peer, t.root = some root → m ∈ subtree t.nodes root → peerOf t.nodes m = some 1 →
    c ∈ childrenOf t.nodes m → x ∈ subtree t.nodes c → peerOf t.nodes x = some peer →
    (treeGetFirstHop t peer).map Prod.fst = some (peerOf t.nodes c)

theorem Sound.firstHopsRight (h : Sound t none) (hhops : HopsRight t ∅) : FirstHopsRight t :=
  fun _ _ _ _ _ hroot hm hme hc hx hpeer ↦
    h.treeGetFirstHop_eq hroot hhops hm (h.me_known hme) hc hx hpeer

/-- The path leads to its last peer, and peers that are not ready any more were reported once. -/
structure AddedRight (t t' : MeshTunnelTree) (p : List ℕ) : Prop where
  path : ∃ root last n, t'.root = some root ∧ p.getLast? = some last ∧
    treeFindPeer t' last = some (some n) ∧ ∀ labels, PathTo t'.nodes root n labels ↔ labels = p
  told : ∃ told, t'.reported = t.reported ++ told ∧ told.Nodup ∧ ∀ peer, peer ∈ told ↔
    treeGetStatus t peer = some .ready ∧ treeGetStatus t' peer ≠ some .ready

theorem PathAdded.right (h : PathAdded t t' root p) (hroot : t.root = some root)
    (hsound : Sound t' none) : AddedRight t t' p := by
  obtain ⟨n, hpath⟩ := h.path
  have hroot' := h.root.trans hroot
  have hlast := getLast?_eq_some_getLast hpath.ne_nil
  have hpeer := hpath.peer_eq.trans hlast
  refine ⟨⟨root, _, n, hroot', hlast, ?_, fun labels ↦ ⟨fun hlabels ↦ ?_, ?_⟩⟩, h.told⟩
  · exact treeFindPeer_of_mem hsound.shape hroot' (hsound.root_live hroot') hpath.mem_subtree hpeer
  · exact hlabels.labels_unique hsound.shape (.inl hroot') hpath
  · rintro rfl
    exact hpath

/-- In a sequence of allowed calls that are not about the local peer itself, first hops are right in
every tree, and every path that is added afterwards is there, with all losses reported. -/
theorem paths_and_first_hops_right
    (hcalls : Along perform (fun t call ↦ Allowed t call ∧ KeepsHops t call) (treeNew owner)
      calls) :
    ∃ t, run perform (treeNew owner) calls = some t ∧ FirstHopsRight t ∧
      ∀ p, Allowed t (.addPath p) → KeepsHops t (.addPath p) →
        ∃ ok t', treeAddPath t p = some (ok, t') ∧
          (ok = true ↔ ∃ root, t.root = some root ∧ p.head? = peerOf t.nodes root) ∧
          FirstHopsRight t' ∧ (ok = true → AddedRight t t' p) := by
  obtain ⟨t, ht, hsound, hhops⟩ : ∃ t, run perform (treeNew owner) calls = some t ∧
      Sound t none ∧ HopsRight t ∅ := by
    refine run_total ?_ ⟨sound_treeNew, hopsRight_treeNew⟩ hcalls
    rintro t call ⟨hsound, hhops⟩ ⟨hallowed, hkeeps⟩
    obtain ⟨t', ht', hsound', hhops', -⟩ := hsound.perform_spec hallowed
    exact ⟨t', ht', hsound', hhops' hkeeps hhops⟩
  refine ⟨t, ht, hsound.firstHopsRight hhops, ?_⟩
  rintro p ⟨root, hroot, hne, hfits⟩ hkeeps
  by_cases hhead : p.head? = peerOf t.nodes root
  · obtain ⟨t', ht', hsound', hadded, hhops'⟩ := hsound.treeAddPath_spec hroot hhead (hfits hhead)
    exact ⟨true, t', ht', iff_of_true rfl ⟨root, hroot, hhead⟩,
      hsound'.firstHopsRight (hhops' hkeeps hhops), fun _ ↦ hadded.right hroot hsound'⟩
  · refine ⟨false, t, treeAddPath_other hroot hne (hsound.root_live hroot) hhead, ?_,
      hsound.firstHopsRight hhops, fun hok ↦ absurd hok Bool.false_ne_true⟩
    refine iff_of_false Bool.false_ne_true ?_
    rintro ⟨root', hroot', hhead'⟩
    obtain rfl := some.inj (hroot.symm.trans hroot')
    exact hhead hhead'

theorem Sound.mem_subtree_root (h : Sound t none) (hroot : t.root = some root)
    (hdisconnected : t.disconnected = []) (hpeer : peerOf t.nodes x = some peer) :
    x ∈ subtree t.nodes root := by
  obtain ⟨top, htop, hbelow⟩ := h.shape.forest.reach (live_of_peer hpeer)
  rcases mem_topsOf_none.mp htop with htop | htop
  · rwa [some.inj (htop.symm.trans hroot)] at hbelow
  · rw [hdisconnected] at htop
    exact absurd htop not_mem_nil

theorem Sound.pathFits (h : Sound t none) (hroot : t.root = some root)
    (hone : peerOf t.nodes root = some 1) (hdisconnected : t.disconnected = [])
    (hnodup : [1, a, c].Nodup)
    (hrelay : ∀ x < t.fresh, peerOf t.nodes x = some a → x ∈ childrenOf t.nodes root) :
    PathFits t root [1, a, c] where
  nodup := hnodup
  placed {x peer} hmem hpeer := by
    rcases mem_pair.mp hmem with rfl | rfl
    · obtain rfl := h.shape.distinct hpeer hone
      exact .inl ⟨[1], ⟨[a, c], rfl⟩, .root hone⟩
    · have hchild := hrelay x (h.shape.bounded (live_of_peer hpeer)) hpeer
      exact .inl ⟨[1, peer], ⟨[c], rfl⟩, .child (.root hone) hchild hpeer⟩
  target hpeer := .inr (h.mem_subtree_root hroot hdisconnected hpeer)
  passes _ := .inl mem_cons_self

/-- Paths over one relay on a tree of the local peer: all conditions can be computed. -/
def plain (t : MeshTunnelTree) (call : TreeCall) : Bool :=
  t.root = some 0 && t.me = some 0 && peerOf t.nodes 0 = some 1 && t.disconnected = [] &&
    match call with
    | .addPath [owner, a, c] => owner = 1 && [1, a, c].Nodup &&
        decide (∀ x < t.fresh, peerOf t.nodes x = some a → x ∈ childrenOf t.nodes 0)
    | .delPeer peer =>
        decide (∀ x < t.fresh, peerOf t.nodes x = some peer → childrenOf t.nodes x = [] ∧ x ≠ 0)
    | .setStatus _ status => status ≠ .relay
    | .getFirstHop peer => (t.firstHops peer).isSome
    | _ => false

theorem Sound.of_plain (h : Sound t none) (hplain : plain t call = true) :
    Allowed t call ∧ KeepsHops t call ∧ KeepsMe t call := by
  rw [plain.eq_def] at hplain
  simp only [Bool.and_eq_true] at hplain
  obtain ⟨⟨⟨⟨hroot, hme⟩, hone⟩, hdisconnected⟩, hcall⟩ := hplain
  rw [decide_eq_true_iff] at hroot hme hone hdisconnected
  split at hcall
  · rename_i owner a c
    rw [Bool.and_eq_true, Bool.and_eq_true, decide_eq_true_iff, decide_eq_true_iff,
      decide_eq_true_iff] at hcall
    obtain ⟨⟨rfl, hnodup⟩, hrelay⟩ := hcall
    refine ⟨⟨0, hroot, cons_ne_nil _ _, fun _ ↦ ?_⟩, fun hlast ↦ ?_, trivial⟩
    · exact h.pathFits hroot hone hdisconnected hnodup hrelay
    · cases some.inj hlast
      exact absurd hnodup (by simp)
  · rename_i peer
    rw [decide_eq_true_iff] at hcall
    refine ⟨⟨0, hroot, fun n hn ↦ ?_⟩, trivial, fun m n hm hn ↦ ?_⟩
    · rw [hdisconnected] at hn
      exact absurd hn not_mem_nil
    · cases hme.symm.trans hm
      obtain ⟨hchildren, hne⟩ := hcall n (h.shape.bounded (live_of_peer hn)) hn
      have hbelow := h.mem_subtree_root hroot hdisconnected hn
      refine ⟨h.not_onlyFor_top hroot hbelow (mem_topsOf_none.mpr (.inl hroot)), fun hmem ↦ ?_⟩
      rcases Relation.ReflTransGen.cases_head hmem with heq | ⟨c, hc, -⟩
      · exact hne heq
      · rw [hchildren] at hc
        exact absurd hc not_mem_nil
  · rw [decide_eq_true_iff] at hcall
    exact ⟨⟨0, hroot, fun hrelay ↦ absurd hrelay hcall⟩, trivial, trivial⟩
  · obtain ⟨hop, hhop⟩ := isSome_iff_exists.mp hcall
    exact ⟨⟨0, hroot, fun hnone ↦ absurd hnone (by simp [hhop])⟩,
      fun hnone ↦ absurd hnone (by simp [hhop]), trivial⟩
  · cases hcall

theorem Sound.perform_of_plain (h : Sound t none) (hplain : plain t call = true) :
    ∃ t', perform t call = some t' ∧ Sound t' none := by
  obtain ⟨t', ht', hsound, -⟩ := h.perform_spec (h.of_plain hplain).1
  exact ⟨t', ht', hsound⟩

theorem along_of_plain {property : MeshTunnelTree → TreeCall → Prop}
    (hproperty : ∀ t call, Allowed t call ∧ KeepsHops t call ∧ KeepsMe t call → property t call)
    (hplain : Along perform (fun t call ↦ plain t call = true) (treeNew owner) calls) :
    Along perform property (treeNew owner) calls :=
  along_of_invariant (fun _ _ ↦ Sound.perform_of_plain) sound_treeNew hplain
    fun t call hsound hcall ↦ hproperty t call (hsound.of_plain hcall)

/-- A ready peer gets another path, a second peer comes below its relay, and the first one is
deleted. -/
def reroutedCalls : List TreeCall :=
  [.addPath [1, 2, 3], .setStatus 3 .ready, .getFirstHop 3, .addPath [1, 4, 3],
    .addPath [1, 4, 5], .delPeer 3]

theorem plain_reroutedCalls :
    Along perform (fun t call ↦ plain t call = true) (treeNew 1) reroutedCalls := by
  decide +kernel

/-- The relay is the first hop to the second peer, and the deleted peer gets a path again. -/
theorem paths_and_first_hops_right_rerouted :
    ∃ t t', run perform (treeNew 1) reroutedCalls = some t ∧ FirstHopsRight t ∧
      (treeGetFirstHop t 5).map Prod.fst = some (some 4) ∧
      treeAddPath t [1, 4, 3] = some (true, t') ∧ FirstHopsRight t' ∧
      AddedRight t t' [1, 4, 3] := by
  obtain ⟨t, ht, hfirst, hadd⟩ := paths_and_first_hops_right
    (along_of_plain (fun _ _ hcall ↦ ⟨hcall.1, hcall.2.1⟩) plain_reroutedCalls)
  obtain ⟨_, hlast, hsound⟩ :=
    run_total (fun _ _ ↦ Sound.perform_of_plain) sound_treeNew plain_reroutedCalls
  obtain rfl := some.inj (ht.symm.trans hlast)
  have hat : ∀ b : MeshTunnelTree → Bool,
      (run perform (treeNew 1) reroutedCalls).all b = true → b t = true := by
    intro b hb
    rwa [ht] at hb
  have hplain := hat (plain · (.addPath [1, 4, 3])) (by decide +kernel)
  obtain ⟨hallowed, hkeeps, -⟩ := hsound.of_plain hplain
  obtain ⟨ok, t', ht', hok, hfirst', hright⟩ := hadd _ hallowed hkeeps
  have hstart := hat (fun t ↦ t.root = some 0 ∧ peerOf t.nodes 0 = some 1) (by decide +kernel)
  obtain ⟨hroot, hone⟩ := of_decide_eq_true hstart
  have hwas : ok = true := hok.mpr ⟨0, hroot, hone.symm⟩
  subst hwas
  refine ⟨t, t', ht, hfirst, ?_, ht', hfirst', hright rfl⟩
  have hbelow := hat (fun t ↦ childrenOf t.nodes 0 = [3] ∧ childrenOf t.nodes 3 = [4] ∧
    peerOf t.nodes 3 = some 4 ∧ peerOf t.nodes 4 = some 5) (by decide +kernel)
  obtain ⟨hrelay, hchild, hpeer, hfive⟩ := of_decide_eq_true hbelow
  rw [← hpeer]
  refine hfirst 0 0 3 4 5 hroot .refl hone ?_ (.single ?_) hfive
  · rw [hrelay]
    exact mem_singleton_self 3
  · rw [hchild]
    exact mem_singleton_self 4

/-- The local peer gets a new path; the cache then has the local peer as the first hop to its
child. -/
theorem first_hop_stale :
    ∃ t, run perform (treeNew 5) [.addPath [5, 1, 2], .addPath [5, 3, 1]] = some t ∧
      PathTo t.nodes 0 2 [5, 3, 1, 2] ∧ (treeGetFirstHop t 2).map Prod.fst = some (some 1) := by
  refine ⟨_, rfl, ?_, rfl⟩
  change PathTo _ 0 2 ([5] ++ [3] ++ [1] ++ [2])
  refine .child (a := 1) (.child (a := 3) (.child (a := 0) (.root rfl) ?_ rfl) ?_ rfl) ?_ rfl
  · exact mem_of_elem_eq_true rfl
  · exact mem_of_elem_eq_true rfl
  · exact mem_of_elem_eq_true rfl

end Paths

section Links

def Listed (t : MeshTunnelTree) (x : ℕ) : Prop :=
  ∃ top, (t.root = some top ∨ top ∈ t.disconnected) ∧ x ∈ subtree t.nodes top

/-- Each peer is there at most once, and the children of a node point to it. -/
structure Linked (t : MeshTunnelTree) : Prop where
  once : ∀ {x y peer}, Listed t x → Listed t y → peerOf t.nodes x = some peer →
    peerOf t.nodes y = some peer → x = y
  nodup : ∀ a, (childrenOf t.nodes a).Nodup
  child : ∀ {a c}, c ∈ childrenOf t.nodes a → parentOf t.nodes c = some a
  tops : t.disconnected.Nodup ∧ ∀ {root}, t.root = some root → root ∉ t.disconnected
  free : ∀ {d a}, d ∈ t.disconnected → d ∉ childrenOf t.nodes a

/-- All pointers agree, disconnected nodes can be deleted, and the local peer is in the tree. -/
structure Consistent (t : MeshTunnelTree) : Prop where
  linked : Linked t
  parent : ∀ {a c}, Listed t c → parentOf t.nodes c = some a → c ∈ childrenOf t.nodes a
  deletes : ∀ {d peer}, d ∈ t.disconnected → peerOf t.nodes d = some peer →
    (treeDelPeer t peer).isSome
  me : ∀ {m}, t.me = some m →
    peerOf t.nodes m = some 1 ∧ ∃ root, t.root = some root ∧ m ∈ subtree t.nodes root

theorem Sound.linked (h : Sound t none) : Linked t where
  once _ _ hx hy := h.shape.distinct hx hy
  nodup := h.shape.forest.nodup
  child := h.shape.parent
  tops := ⟨h.listed, h.root_free⟩
  free hd := h.shape.forest.top_free (.inr (.inl hd))

theorem Sound.consistent (h : Sound t none) (hkept : MeKept t) : Consistent t where
  linked := h.linked
  parent {a c} hc hparent := by
    obtain ⟨top, htop, hbelow⟩ := hc
    cases hbelow with
    | refl =>
      cases htop with
      | inl hroot =>
        rw [h.root_parent hroot] at hparent
        exact absurd hparent.symm (some_ne_none a)
      | inr hd => exact absurd hd hkept.notMem
    | tail _ hchild =>
      rw [h.shape.parent hchild] at hparent
      exact some.inj hparent ▸ hchild
  deletes hd := absurd hd hkept.notMem
  me {m} hm := by
    refine ⟨h.me_peer hm (hkept.live hm), ?_⟩
    obtain ⟨top, htop, hbelow⟩ := h.shape.forest.reach (hkept.live hm)
    rcases htop with hroot | hd | hloose
    · exact ⟨top, hroot, hbelow⟩
    · exact absurd hd hkept.notMem
    · exact absurd hloose.symm (some_ne_none top)

theorem meKept_treeNew : MeKept (treeNew owner) where
  disconnected := rfl
  live hm := live_of_peer (peerOf_treeNew_eq_some.mpr (me_treeNew hm).symm)

/-- Allowed calls keep each peer in the tree at most once. If they break no connection of the tree
and do not free the node of the local peer, all pointers agree. -/
theorem tree_consistent (hcalls : Along perform Allowed (treeNew owner) calls) :
    ∃ t, run perform (treeNew owner) calls = some t ∧ Linked t ∧
      (Along perform KeepsMe (treeNew owner) calls → Consistent t) := by
  obtain ⟨t, ht, hsound⟩ : ∃ t, run perform (treeNew owner) calls = some t ∧ Sound t none := by
    refine run_total ?_ sound_treeNew hcalls
    intro t call hsound hallowed
    obtain ⟨t', ht', hsound', -⟩ := hsound.perform_spec hallowed
    exact ⟨t', ht', hsound'⟩
  refine ⟨t, ht, hsound.linked, fun hkeeps ↦ ?_⟩
  obtain ⟨last, hlast, -, hkept⟩ : ∃ t, run perform (treeNew owner) calls = some t ∧
      Sound t none ∧ MeKept t := by
    refine run_total ?_ ⟨sound_treeNew, meKept_treeNew⟩ (hcalls.and hkeeps)
    rintro t call ⟨hsound, hkept⟩ ⟨hallowed, hkeeps⟩
    obtain ⟨t', ht', hsound', -, hkept'⟩ := hsound.perform_spec hallowed
    exact ⟨t', ht', hsound', hkept' hkeeps hkept⟩
  obtain rfl := some.inj (ht.symm.trans hlast)
  exact hsound.consistent hkept

/-- The peer with the replaced path is deleted; its relay stays for the second peer. -/
theorem tree_consistent_rerouted :
    ∃ t, run perform (treeNew 1) reroutedCalls = some t ∧ Linked t ∧ Consistent t := by
  obtain ⟨t, ht, hlinked, hconsistent⟩ :=
    tree_consistent (along_of_plain (fun _ _ hcall ↦ hcall.1) plain_reroutedCalls)
  have hkeeps := along_of_plain (fun _ _ hcall ↦ hcall.2.2) plain_reroutedCalls
  exact ⟨t, ht, hlinked, hconsistent hkeeps⟩

/-- A disconnected node cannot be deleted; the local peer is freed with the relays for a deleted
peer; and a peer on the way gets a second node. -/
theorem tree_inconsistent :
    (∃ t, run perform (treeNew 1) [.addPath [1, 2], .connectionBroken 1 2] = some t ∧
      t.disconnected = [1] ∧ peerOf t.nodes 1 = some 2 ∧ treeDelPeer t 2 = none) ∧
    (∃ t, run perform (treeNew 5) [.addPath [5, 6], .addPath [5, 1, 2], .delPeer 2] = some t ∧
      t.me = some 2 ∧ t.nodes 2 = none) ∧
    ∃ t, run perform (treeNew 1) [.addPath [1, 2], .addPath [1, 3], .addPath [1, 2, 3, 4]] =
        some t ∧
      childrenOf t.nodes 0 = [2, 1] ∧ childrenOf t.nodes 1 = [3] ∧
      peerOf t.nodes 2 = some 3 ∧ peerOf t.nodes 3 = some 3 :=
  ⟨⟨_, rfl, rfl, rfl, rfl⟩, ⟨_, rfl, rfl, rfl⟩, _, rfl, rfl, rfl, rfl, rfl⟩

end Links

end Gnunet.Mesh
