import Gnunet.Mesh.TreeInsertion

/-!
# What adding a path does

The path to the old node of the destination is deleted first; then the part of the new path that is
missing is added, and the first hops behind the local peer are written. The result is right if no
peer of the path has a node elsewhere in the tree.
-/

namespace Gnunet.Mesh

open Lib.LinkedForest Lib.Runs Function List Option MeshPeerState

variable {t t' : MeshTunnelTree} {nodes : Nodes} {exempt : Set ℕ}
  {a c i n x y root parent peer : ℕ} {labels p rest taken : List ℕ}
  {loose me : Option ℕ} {node : MeshTunnelTreeNode}

/-- Each peer on the way that has a node has it at its place in the path, or as a relay that is only
there for the destination; the destination is in the tree or disconnected; and the path to a
destination that is known leads over the local peer. -/
structure PathFits (t : MeshTunnelTree) (root : ℕ) (p : List ℕ) : Prop where
  nodup : p.Nodup
  placed : ∀ {x peer}, peer ∈ p.dropLast → peerOf t.nodes x = some peer →
    (∃ labels, labels <+: p ∧ PathTo t.nodes root x labels) ∨
      ∃ n, peerOf t.nodes n = p.getLast? ∧ OnlyFor t.nodes n x
  target : ∀ {x}, peerOf t.nodes x = p.getLast? → x ∈ t.disconnected ∨ x ∈ subtree t.nodes root
  passes : p.tail ≠ [] → 1 ∈ p ∨ ∀ x, peerOf t.nodes x ≠ p.getLast?

section Branch

theorem PathTo.parent_of_concat (h : PathTo nodes root y (labels ++ [peer])) (hne : labels ≠ []) :
    ∃ a, PathTo nodes root a labels ∧ y ∈ childrenOf nodes a ∧ peerOf nodes y = some peer := by
  generalize hall : labels ++ [peer] = all at h
  cases h with
  | root =>
    have hlength := congrArg length hall
    rw [length_append] at hlength
    exact absurd (length_eq_zero_iff.mp (Nat.succ_injective hlength)) hne
  | child ha hc hpeer =>
    obtain ⟨rfl, hq⟩ := append_inj' hall rfl
    exact ⟨_, ha, hc, by rw [hpeer, singleton_inj.mp hq]⟩

theorem getLast_notMem_of_mem_dropLast (hnodup : p.Nodup) (hne : p ≠ []) (hpre : labels <+: p)
    (hpeer : ∃ peer ∈ p.dropLast, labels.getLast? = some peer) : p.getLast hne ∉ labels := by
  obtain ⟨peer, hmem, hlast⟩ := hpeer
  have hsplit := dropLast_append_getLast hne
  have hnodup' := hnodup
  rw [← hsplit, nodup_append] at hnodup'
  have hout : p.getLast hne ∉ p.dropLast := fun hin ↦
    hnodup'.2.2 _ hin _ (mem_singleton_self _) rfl
  rw [← hsplit] at hpre
  cases prefix_concat_iff.mp hpre with
  | inl heq =>
    rw [heq, getLast?_concat] at hlast
    exact absurd (some.inj hlast ▸ hmem) hout
  | inr hpre => exact fun hin ↦ hout (hpre.subset hin)

theorem PathDeleted.pathTo (hdeleted : PathDeleted t t' n) (hpath : PathTo t.nodes root x labels)
    (hfor : ¬ OnlyFor t.nodes n root)
    (hkeep : ∀ y, x ∈ subtree t.nodes y → y ≠ n ∧ ¬ OnlyFor t.nodes n y) :
    PathTo t'.nodes root x labels := by
  induction hpath with
  | root hpeer => exact .root (hdeleted.peers.mpr ⟨hpeer, hfor⟩)
  | child _ hc hpeer ih =>
    have hself := hkeep _ mem_subtree_self
    refine .child (ih fun y hy ↦ hkeep y (hy.tail hc)) (hdeleted.children.mpr ⟨hc, hself⟩) ?_
    exact hdeleted.peers.mpr ⟨hpeer, hself.2⟩

/-- The destination is loose or has no node, and the other peers of the path that have a node have
it at its place. -/
structure Ready (t : MeshTunnelTree) (loose : Option ℕ) (root : ℕ) (p : List ℕ) : Prop where
  sound : Sound t loose
  root_eq : t.root = some root
  nodup : p.Nodup
  head : p.head? = peerOf t.nodes root
  last : ∀ x, peerOf t.nodes x = p.getLast? ↔ loose = some x
  placed : ∀ {x peer}, peer ∈ p.dropLast → peerOf t.nodes x = some peer →
    ∃ labels, labels <+: p ∧ PathTo t.nodes root x labels
  passes : ∀ n, loose = some n → 1 ∈ p

theorem PathDeleted.ready (hdeleted : PathDeleted t t' n) (hsound : Sound t' (some n))
    (h : Sound t none) (hroot : t.root = some root) (hhead : p.head? = peerOf t.nodes root)
    (hfits : PathFits t root p) (htail : p.tail ≠ []) (hn : peerOf t.nodes n = p.getLast?) :
    Ready t' (some n) root p := by
  have hne : p ≠ [] := by
    rintro rfl
    exact htail rfl
  have hlast := getLast?_eq_some_getLast hne
  have hfor : ¬ OnlyFor t.nodes n root := fun hfor ↦ h.root_status hroot hfor.relay
  have hself : ¬ OnlyFor t.nodes n n := h.shape.not_onlyFor_below mem_subtree_self
  constructor
  · exact hsound
  · exact hdeleted.root.trans hroot
  · exact hfits.nodup
  · obtain ⟨q, hq⟩ := exists_peer (h.root_live hroot)
    rw [hhead, hq, hdeleted.peers.mpr ⟨hq, hfor⟩]
  · intro x
    rw [hlast] at hn ⊢
    constructor
    · intro hx
      exact congrArg some (h.shape.distinct hn (hdeleted.peers.mp hx).1)
    · intro heq
      exact some.inj heq ▸ hdeleted.peers.mpr ⟨hn, hself⟩
  · intro x q hq hx
    obtain ⟨hxt, hxfor⟩ := hdeleted.peers.mp hx
    cases hfits.placed hq hxt with
    | inr hrelay =>
      obtain ⟨_, hn', hrelay⟩ := hrelay
      rw [hlast] at hn hn'
      exact absurd (h.shape.distinct hn' hn ▸ hrelay) hxfor
    | inl hplaced =>
      obtain ⟨labels, hpre, hpath⟩ := hplaced
      have hout := getLast_notMem_of_mem_dropLast hfits.nodup hne hpre
        ⟨q, hq, hpath.peer_eq.symm.trans hxt⟩
      -- The destination is not above the node, so the way to the node is not touched.
      have habove : x ∉ subtree t.nodes n := by
        intro hbelow
        obtain ⟨_, hpath', hpre'⟩ := hpath.above h.shape (.inl hroot) hbelow
        rw [hpath'.peer_eq, hlast] at hn
        exact hout (hpre'.subset (mem_of_getLast? hn))
      refine ⟨labels, hpre, hdeleted.pathTo hpath hfor fun y hy ↦ ⟨?_, fun hyfor ↦ ?_⟩⟩
      · rintro rfl
        exact habove hy
      · exact (hyfor.cases_below hy).elim hxfor habove
  · intro m _
    refine (hfits.passes htail).resolve_right fun hnone ↦ hnone n hn

theorem ready_of_none (h : Sound t none) (hroot : t.root = some root)
    (hhead : p.head? = peerOf t.nodes root) (hfits : PathFits t root p)
    (hnone : ∀ x, peerOf t.nodes x ≠ p.getLast?) : Ready t none root p where
  sound := h
  root_eq := hroot
  nodup := hfits.nodup
  head := hhead
  last x := iff_of_false (hnone x) (some_ne_none x).symm
  placed hq hx := by
    refine (hfits.placed hq hx).resolve_right ?_
    rintro ⟨n, hn, -⟩
    exact hnone n hn
  passes n hn := absurd hn.symm (some_ne_none n)

/-- The peers whose first hops may be wrong in the middle of the operation. -/
def moving (t : MeshTunnelTree) (loose : Option ℕ) (p : List ℕ) : Set ℕ :=
  {q | q ∈ p ∨ ∃ n, loose = some n ∧ q ∈ peersOf t.nodes (subtree t.nodes n)}

theorem Ready.branch (h : Ready t loose root p) (htail : p.tail ≠ [])
    (hexempt : moving t loose p ⊆ exempt) (hhops : HopsRight t exempt) {me : Option ℕ}
    (hme : MeSeen p 1 me) :
    ∃ rest parent k me₁ n me₂ t', followPath t p.tail 1 root me = some (rest, k, parent, me₁) ∧
      addBranch loose rest k parent me₁ t = some (n, me₂, t') ∧ Sound t' none ∧
      HopsRight t' exempt ∧ PathTo t'.nodes root n p ∧ MeSeen p p.length me₂ ∧
      Grown t t' p ∧ (1 ∉ p → t'.me = t.me) ∧
      (∀ c ∈ childrenOf t'.nodes n, ∃ old, loose = some old ∧ c ∈ childrenOf t.nodes old) := by
  have hne : p ≠ [] := by
    rintro rfl
    exact htail rfl
  obtain ⟨first, branch, rfl⟩ := exists_cons_of_ne_nil hne
  have hstart : PathTo t.nodes root root [first] := .root h.head.symm
  obtain ⟨taken, rest, parent, me₁, hfollow, hp, hpath, hme₁, hstop⟩ :=
    followPath_spec h.sound.shape h.nodup (singleton_append).symm hstart hme
  have hrest : rest ≠ [] := by
    rintro rfl
    rw [append_nil] at hp
    rw [← hp] at hpath
    have hloose := (h.last parent).mp hpath.peer_eq
    subst hloose
    exact h.sound.parent_notMem_loose h.root_eq hpath.mem_subtree mem_subtree_self
  have hsub : rest ⊆ first :: branch := hp ▸ subset_append_right taken rest
  have hunused (q : ℕ) (hq : q ∈ rest.dropLast) (x : ℕ) : peerOf t.nodes x ≠ some q := by
    intro hx
    have hin : q ∈ (first :: branch).dropLast := by
      rw [hp, dropLast_append_of_ne_nil hrest]
      exact mem_append_right taken hq
    obtain ⟨labels, hpre, hplaced⟩ := h.placed hin hx
    have hlastq : labels.getLast? = some q := hplaced.peer_eq.symm.trans hx
    have hqtaken : q ∉ taken := by
      intro hmem
      have hnodup := h.nodup
      rw [hp, nodup_append] at hnodup
      exact hnodup.2.2 q hmem q (mem_of_mem_dropLast hq) rfl
    have htaken : taken <+: labels := by
      have htakenp : taken <+: first :: branch := ⟨rest, hp.symm⟩
      refine ( prefix_or_prefix_of_prefix htakenp hpre).resolve_right fun hle ↦ ?_
      exact hqtaken (hle.subset (mem_of_getLast? hlastq))
    obtain ⟨more, rfl⟩ := htaken
    obtain ⟨behind, hbehind⟩ := hpre
    cases more with
    | nil =>
      rw [append_nil] at hlastq
      exact hqtaken (mem_of_getLast? hlastq)
    | cons r more =>
      -- The next peer of the path is a child after all.
      have hnext : taken ++ [r] <+: taken ++ r :: more := ⟨more, (append_cons taken r more).symm⟩
      obtain ⟨y, hy, -⟩ := hplaced.exists_above hnext (concat_ne_nil _ _)
      obtain ⟨b, hb, hyb, hpeer⟩ := hy.parent_of_concat hpath.ne_nil
      obtain rfl := hb.unique h.sound.shape hpath rfl
      have hr : rest = r :: (more ++ behind) := by
        rw [hp, append_assoc] at hbehind
        exact (append_cancel_left hbehind).symm
      refine hstop r ?_ y hyb hpeer
      rw [hr]
      rfl
  have hlast (x : ℕ) : peerOf t.nodes x = rest.getLast? ↔ loose = some x := by
    rw [← h.last x, hp, getLast?_append_of_ne_nil _ hrest]
  obtain ⟨n, me₂, t', hadd, hsound, hhops', hpath', hme₂, hgrown, hmesame, hchildren⟩ :=
    h.sound.addBranch_spec h.root_eq h.nodup hp hrest hpath hme₁ hunused hlast h.passes hhops
      (fun q hq ↦ hexempt (.inl (hsub hq))) fun n hn q hq ↦ hexempt (.inr ⟨n, hn, hq⟩)
  exact ⟨rest, parent, taken.length, me₁, n, me₂, t', hfollow, hadd, hsound, hhops', hpath', hme₂,
    hgrown.mono hsub, fun hone ↦ hmesame fun hmem ↦ hone (hsub hmem), hchildren⟩

end Branch

section Hops

theorem HopsRight.congr (h : HopsRight t exempt) (hsame : SameLinks t.nodes t'.nodes)
    (hme : t'.me = t.me) (hhops : t'.firstHops = t.firstHops) : HopsRight t' exempt := by
  intro m c x q hop hm hc hx hq hnot hhop
  rw [hsame.children] at hc
  rw [subtree_congr hsame.children] at hx
  rw [hsame.peers] at hq ⊢
  rw [hme] at hm
  rw [hhops] at hhop
  exact h hm hc hx hq hnot hhop

theorem PathTo.congr {nodes' : Nodes} (h : PathTo nodes root x labels)
    (hsame : SameLinks nodes nodes') : PathTo nodes' root x labels :=
  h.mono (fun {_ _} hc ↦ by rw [hsame.children]; exact hc)
    fun {_ _} hpeer ↦ by rw [hsame.peers]; exact hpeer

theorem Sound.setStatus (h : Sound t none) (hroot : t.root = some root)
    (hn : n ∈ subtree t.nodes root) (hnode : t.nodes n = some node) {status : MeshPeerState}
    (hstatus : status = .relay → n ≠ root) :
    Sound (t.setNode n { node with status }) none := by
  have hsame : SameLinks t.nodes (t.setNode n { node with status }).nodes :=
    sameLinks_update hnode status
  have hother {x : ℕ} (hx : x ≠ n) :
      statusOf (t.setNode n { node with status }).nodes x = statusOf t.nodes x := by
    change statusOf (update _ _ _) x = _
    rw [statusOf_update, update_of_ne hx]
  constructor
  · exact h.shape.relabel hsame
  · exact h.listed
  · exact h.root_free
  · exact h.loose_free
  · intro top htop
    by_cases heq : top = n
    · subst heq
      have hnew : statusOf (t.setNode top { node with status }).nodes top = some status :=
        statusOf_eq (update_self ..)
      rw [hnew]
      intro hrelay
      exact hstatus (some.inj hrelay) (some.inj (htop.symm.trans hroot))
    · rw [hother heq]
      exact h.root_status htop
  · intro top htop
    rw [hsame.parents]
    exact h.root_parent htop
  · intro a ha
    rw [hsame.peers] at ha
    exact h.me_known ha
  · intro m hme hlive
    rw [liveNodes_congr hsame.peers] at hlive
    rw [hsame.peers]
    exact h.me_peer hme hlive
  · exact h.me_bound
  · intro d hd
    have hd := hd.resolve_right (some_ne_none _ ∘ Eq.symm)
    apply readyPeers_eq_empty_iff.mpr
    intro x hx
    rw [subtree_congr hsame.children] at hx
    have hxn : x ≠ n := by
      rintro rfl
      exact h.notMem_subtree_disconnected hroot hn hd hx
    rw [hother hxn]
    exact readyPeers_eq_empty_iff.mp (h.quiet (.inl hd)) x hx

theorem Sound.me_of_seen (h : Sound t none) (hpath : PathTo t.nodes root n p) {k : ℕ}
    (hk : p[k]? = some 1) : ∃ m, t.me = some m ∧ PathTo t.nodes root m (p.take (k + 1)) := by
  have hlast : (p.take (k + 1)).getLast? = some 1 := by
    rw [take_add_one, hk]
    exact getLast?_concat
  have hne : p.take (k + 1) ≠ [] := by
    intro heq
    rw [heq] at hlast
    exact some_ne_none _ hlast.symm
  obtain ⟨m, hm, -⟩ := hpath.exists_above ( take_prefix (k + 1) p) hne
  exact ⟨m, h.me_known (hm.peer_eq.trans hlast), hm⟩

theorem Sound.next_of_seen (h : Sound t none) (hroot : t.root = some root) (hnodup : p.Nodup)
    {m k : ℕ} (hm : PathTo t.nodes root m (p.take (k + 1))) (hk : p[k]? = some 1)
    (hc : c ∈ childrenOf t.nodes m) (hx : x ∈ subtree t.nodes c)
    (hpath : PathTo t.nodes root x labels) (hpre : labels <+: p) :
    peerOf t.nodes c = p[k + 1]? := by
  obtain ⟨_, hpath', hpre'⟩ := hpath.above h.shape (.inl hroot) hx
  cases hpath' with
  | root => exact absurd hc (h.shape.forest.top_free (.inl hroot))
  | @child b _ q before hb hcb hpeer =>
    obtain rfl := h.shape.forest.unique hc hcb
    have hbefore : before <+: p := (prefix_append before [q]).trans (hpre'.trans hpre)
    have hlength : before.length = k + 1 := by
      have hlast := hb.peer_eq.symm.trans hm.peer_eq
      rw [take_add_one, hk] at hlast
      change before.getLast? = (p.take k ++ [1]).getLast? at hlast
      rw [getLast?_concat, getLast?_eq_getElem?] at hlast
      have hpos : before.length ≠ 0 := fun hzero ↦ hb.ne_nil (length_eq_zero_iff.mp hzero)
      have hat : p[before.length - 1]? = some 1 := by
        obtain ⟨after, rfl⟩ := hbefore
        rw [getElem?_append_left (by omega), hlast]
      have hlt := (List.getElem?_eq_some_iff.mp hk).1
      have := (getElem?_inj hlt hnodup).mp (hk.trans hat.symm)
      omega
    obtain ⟨after, hafter⟩ := hpre'.trans hpre
    rw [hpeer, ← hafter, append_assoc, ← hlength, getElem?_append_right le_rfl, Nat.sub_self]
    rfl

/-- The first hop to a node is written for its whole subtree; the others stay exempt. -/
theorem HopsRight.hopped {exempt' : Set ℕ} {hop m : ℕ} (h : HopsRight t exempt)
    (hsound : Sound t loose) (hme : t.me = some m) (hplace : childrenOf t.nodes m = [] ∨
      ∃ c ∈ childrenOf t.nodes m, a ∈ subtree t.nodes c ∧ peerOf t.nodes c = some hop)
    (hhopped : Hopped t t' (subtree t.nodes a) hop)
    (hexempt : ∀ {c x q}, c ∈ childrenOf t.nodes m → x ∈ subtree t.nodes c →
      x ∉ subtree t.nodes a → peerOf t.nodes x = some q → q ∉ exempt' → q ∉ exempt) :
    HopsRight t' exempt' := by
  intro m' c x q hop' hm' hc hx hq hnot hhop'
  rw [hhopped.rest] at hm'
  obtain rfl := some.inj (hm'.symm.trans hme)
  rw [hhopped.nodes_eq] at hc hx hq ⊢
  by_cases hxa : x ∈ subtree t.nodes a
  · cases hplace with
    | inl hleaf =>
      rw [hleaf] at hc
      exact absurd hc not_mem_nil
    | inr hbelow =>
      obtain ⟨b, hb, hab, hbpeer⟩ := hbelow
      obtain rfl := hsound.shape.forest.child_unique hc hb hx (hab.trans hxa)
      rw [hhopped.hops.inside ⟨x, hxa, hq⟩] at hhop'
      rw [hbpeer, hhop']
  · have hout : q ∉ peersOf t.nodes (subtree t.nodes a) := by
      rintro ⟨y, hy, hyq⟩
      exact hxa (hsound.shape.distinct hyq hq ▸ hy)
    rw [hhopped.hops.outside hout] at hhop'
    exact h hme hc hx hq (hexempt hc hx hxa hq hnot) hhop'

theorem Sound.hopsOfPath_spec (exempt : Set ℕ) (h : Sound t none) (hroot : t.root = some root)
    (hnodup : p.Nodup) (hpath : PathTo t.nodes root n p) (hme : MeSeen p p.length me) :
    ∃ t', hopsOfPath t p me = some t' ∧ t' = { t with firstHops := t'.firstHops } ∧
      ((∀ x q, peerOf t.nodes x = some q → q ∈ exempt →
          (∃ labels, labels <+: p ∧ PathTo t.nodes root x labels) ∨
            1 ∈ p ∧ x ∈ subtree t.nodes n) →
        (p.getLast? = some 1 → childrenOf t.nodes n = []) →
        HopsRight t exempt → HopsRight t' ∅) := by
  have hseen {k : ℕ} (hk : p[k]? = some 1) : me = some k :=
    hme.found (List.getElem?_eq_some_iff.mp hk).1 hk
  cases me with
  | none =>
    refine ⟨t, rfl, rfl, fun hexempt _ hhops ↦ ?_⟩
    have hone : 1 ∉ p := by
      intro hmem
      obtain ⟨k, hk⟩ := mem_iff_getElem?.mp hmem
      exact some_ne_none k (hseen hk).symm
    intro m c x q hop hm hc hx hq _ hhop
    refine hhops hm hc hx hq (fun hin ↦ ?_) hhop
    obtain ⟨labels, hpre, hplaced⟩ := (hexempt x q hq hin).resolve_right fun hboth ↦ hone hboth.1
    obtain ⟨_, hpath', hpre'⟩ := hplaced.above h.shape (.inl hroot) (.head hc hx)
    have hpeer := h.me_peer hm (h.shape.forest.parent_live hc)
    rw [hpath'.peer_eq] at hpeer
    exact hone (hpre.subset (hpre'.subset (mem_of_getLast? hpeer)))
  | some k =>
    have hk := hme.right rfl
    obtain ⟨m, hm, hmpath⟩ := h.me_of_seen hpath hk
    by_cases hlt : k < p.length - 1
    · have hbound : k + 1 < p.length := by omega
      have hget : p[k + 1]? = some p[k + 1] := getElem?_eq_getElem hbound
      set hop := p[k + 1]
      have htake : p.take (k + 1 + 1) = p.take (k + 1) ++ [hop] := by
        rw [take_add_one, hget]
        rfl
      obtain ⟨b, hb, hnb⟩ := hpath.exists_above ( take_prefix (k + 1 + 1) p)
        (by rw [htake]; exact concat_ne_nil _ _)
      have hbpeer : peerOf t.nodes b = some hop := by
        rw [hb.peer_eq, htake, getLast?_concat]
      have hfind := treeFindPeer_of_mem h.shape hroot (h.root_live hroot) hb.mem_subtree hbpeer
      obtain ⟨t', ht', hhopped⟩ := treeNodeUpdateFirstHops_some hop h.shape (live_of_peer hbpeer)
        Shape.size_le
      refine ⟨t', ?_, hhopped.rest, fun hexempt _ hhops ↦ ?_⟩
      · rw [hopsOfPath, if_pos hlt, hget]
        simp only [bind_eq_bind, bind_some, treeUpdateFirstHops, hfind]
        exact ht'
      · have hbm : b ∈ childrenOf t.nodes m := by
          rw [htake] at hb
          obtain ⟨a, ha, hba, -⟩ := hb.parent_of_concat hmpath.ne_nil
          exact ha.unique h.shape hmpath rfl ▸ hba
        have hplace : ∃ c ∈ childrenOf t.nodes m, b ∈ subtree t.nodes c ∧
            peerOf t.nodes c = some hop := ⟨b, hbm, mem_subtree_self, hbpeer⟩
        apply HopsRight.hopped @hhops h hm (.inr hplace) hhopped
        intro c x q hc hx hxb hq _ hin
        cases hexempt x q hq hin with
        | inl hplaced =>
          obtain ⟨labels, hpre, hplaced⟩ := hplaced
          have hnext := h.next_of_seen hroot hnodup hmpath hk hc hx hplaced hpre
          rw [hget] at hnext
          exact hxb (h.shape.distinct hnext hbpeer ▸ hx)
        | inr hmoved => exact hxb (hnb.trans hmoved.2)
    · have hlast : p.getLast? = some 1 := by
        have hlen := (List.getElem?_eq_some_iff.mp hk).1
        rw [getLast?_eq_getElem?, ← hk]
        congr 1
        omega
      refine ⟨t, if_neg hlt, rfl, fun _ hleaf _ ↦ ?_⟩
      have hmn : m = n := by
        apply hmpath.unique h.shape hpath
        rw [hlast, ← hmpath.peer_eq]
        exact h.me_peer hm hmpath.live
      intro m' c x q hop' hm' hc
      obtain rfl := some.inj (hm'.symm.trans hm)
      rw [hmn, hleaf hlast] at hc
      exact absurd hc not_mem_nil

end Hops

section Status

theorem Sound.treeGetStatus_ready_iff (h : Sound t none) (hroot : t.root = some root) :
    treeGetStatus t peer = some .ready ↔ ∃ x ∈ subtree t.nodes root,
      statusOf t.nodes x = some .ready ∧ peerOf t.nodes x = some peer := by
  cases treeFindPeer_cases peer h.shape hroot (h.root_live hroot) with
  | inl hmiss =>
    have heq : treeGetStatus t peer = some .invalid := by
      rw [treeGetStatus, hmiss.1]
      rfl
    rw [heq]
    refine iff_of_false (fun hready ↦ noConfusion (some.inj hready)) ?_
    rintro ⟨x, hx, -, hpeer⟩
    exact hmiss.2 x hx hpeer
  | inr hfound =>
    obtain ⟨n, hfind, hn, hpeer⟩ := hfound
    obtain ⟨_, hnode⟩ := exists_node (live_of_peer hpeer)
    have heq : treeGetStatus t peer = statusOf t.nodes n := by
      rw [treeGetStatus, hfind, statusOf_eq hnode]
      simp only [bind_eq_bind, bind_some, hnode]
    rw [heq]
    constructor
    · exact fun hready ↦ ⟨n, hn, hready, hpeer⟩
    · rintro ⟨x, -, hready, hx⟩
      exact h.shape.distinct hx hpeer ▸ hready

structure BranchAdded (t t' : MeshTunnelTree) (root n : ℕ) (p : List ℕ) : Prop where
  sound : Sound t' none
  path : PathTo t'.nodes root n p
  children : ∀ {a c}, c ∈ childrenOf t.nodes a → c ∈ childrenOf t'.nodes a
  peers : ∀ {a peer}, peerOf t.nodes a = some peer → peerOf t'.nodes a = some peer
  status : ∀ {a}, a ∈ liveNodes t.nodes → a ≠ n → statusOf t'.nodes a = statusOf t.nodes a
  searching : statusOf t'.nodes n = some .searching
  root : t'.root = t.root
  disconnected : t'.disconnected = t.disconnected
  reported : t'.reported = t.reported
  me : 1 ∉ p → t'.me = t.me

def finishPath (loose : Option ℕ) (root : ℕ) (p : List ℕ) (me : Option ℕ) (t : MeshTunnelTree) :
    Option (Bool × MeshTunnelTree) := do
  let (rest, i, parent, me) ← followPath t p.tail 1 root me
  let (n, me, t) ← addBranch loose rest i parent me t
  let t ← t.setStatus n .searching
  let t ← hopsOfPath t p me
  match t.me with
  | some _ => some (true, t)
  | none => do
    let me ← treeFindPeer t 1
    some (true, { t with me })

theorem Ready.finish (h : Ready t loose root p) (htail : p.tail ≠ []) (hme : MeSeen p 1 me) :
    ∃ t' n, finishPath loose root p me t = some (true, t') ∧ BranchAdded t t' root n p ∧
      (HopsRight t ∅ →
        (p.getLast? = some 1 → ∀ old, loose = some old → childrenOf t.nodes old = []) →
        HopsRight t' ∅) := by
  -- If the cache was not right before, nothing is said about it.
  have hchoice : ∃ exempt, moving t loose p ⊆ exempt ∧ HopsRight t exempt ∧
      (HopsRight t ∅ → exempt = moving t loose p) := by
    by_cases hhops : HopsRight t ∅
    · refine ⟨_, subset_rfl, ?_, fun _ ↦ rfl⟩
      exact fun hm hc hx hq _ hhop ↦ hhops hm hc hx hq (Set.notMem_empty _) hhop
    · refine ⟨Set.univ, Set.subset_univ _, ?_, fun hright ↦ absurd @hright hhops⟩
      exact fun _ _ _ _ hnot _ ↦ absurd (Set.mem_univ _) hnot
  obtain ⟨exempt, hexempt, hhops, hexact⟩ := hchoice
  obtain ⟨rest, parent, k, me₁, n, me₂, t₂, hfollow, hadd, hsound, hhops₂, hpath, hme₂, hgrown,
    hmesame, hchildren⟩ := h.branch htail hexempt hhops hme
  have hroot₂ : t₂.root = some root := hgrown.root.trans h.root_eq
  obtain ⟨node, hnode⟩ := exists_node hpath.live
  have hsame : SameLinks t₂.nodes (t₂.setNode n { node with status := .searching }).nodes :=
    sameLinks_update hnode .searching
  have hset : t₂.setStatus n .searching =
      some (t₂.setNode n { node with status := .searching }) := by
    rw [MeshTunnelTree.setStatus, hnode]
    rfl
  have hsound₃ : Sound (t₂.setNode n { node with status := .searching }) none :=
    hsound.setStatus hroot₂ hpath.mem_subtree hnode fun hrelay ↦ noConfusion hrelay
  have hpath₃ := hpath.congr hsame
  obtain ⟨t₄, ht₄, hrest, hright⟩ :=
    hsound₃.hopsOfPath_spec exempt hroot₂ h.nodup hpath₃ hme₂
  have hnodes : t₄.nodes = (t₂.setNode n { node with status := .searching }).nodes := by
    rw [hrest]
  have hsound₄ : Sound t₄ none := by
    rw [hrest]
    exact hsound₃.setHops _
  have hme₄ : t₄.me = t₂.me := by
    rw [hrest]
    rfl
  have hlast : (match t₄.me with
      | some _ => some (true, t₄)
      | none => do
        let me ← treeFindPeer t₄ 1
        some (true, { t₄ with me })) = some (true, t₄) := by
    cases hcase : t₄.me with
    | some m => rfl
    | none =>
      have hroot₄ : t₄.root = some root := by
        rw [hrest]
        exact hroot₂
      cases treeFindPeer_cases 1 hsound₄.shape hroot₄ (hsound₄.root_live hroot₄) with
      | inl hmiss =>
        simp only [hmiss.1, bind_eq_bind, bind_some]
        rw [← hcase]
      | inr hfound =>
        obtain ⟨m, -, -, hm⟩ := hfound
        exact absurd (hcase.symm.trans (hsound₄.me_known hm)) (some_ne_none m).symm
  refine ⟨t₄, n, ?_, ?_, fun hold hleaf ↦ hright ?_ ?_ (hhops₂.congr hsame rfl rfl)⟩
  · simp only [finishPath, bind_eq_bind, hfollow, hadd, hset, ht₄, bind_some]
    exact hlast
  · constructor
    · exact hsound₄
    · rw [hnodes]
      exact hpath₃
    · intro a c hc
      rw [hnodes, hsame.children]
      exact hgrown.children hc
    · intro a q hq
      rw [hnodes, hsame.peers]
      exact hgrown.peers hq
    · intro a ha hne
      rw [hnodes]
      change statusOf (update _ _ _) a = _
      rw [statusOf_update, update_of_ne hne]
      exact hgrown.status ha
    · rw [hnodes]
      exact statusOf_eq (update_self ..)
    · rw [hrest]
      exact hgrown.root
    · rw [hrest]
      exact hgrown.disconnected
    · rw [hrest]
      exact hgrown.reported
    · exact fun hone ↦ hme₄.trans (hmesame hone)
  · intro x q hq hin
    rw [hsame.peers] at hq
    rw [hexact hold] at hin
    cases hin with
    | inl hmem =>
      obtain ⟨y, labels, hy, hpre, hpeer, -⟩ := hpath₃.of_mem hmem
      rw [hsame.peers] at hpeer
      exact .inl ⟨labels, hpre, hsound.shape.distinct hpeer hq ▸ hy⟩
    | inr hmoved =>
      obtain ⟨old, hold, y, hy, hyq⟩ := hmoved
      have hyx := hsound.shape.distinct (hgrown.peers hyq) hq
      have holdn : old = n := by
        have hpeer := (h.last old).mpr hold
        rw [getLast?_eq_some_getLast hpath.ne_nil] at hpeer
        exact hsound.shape.distinct (hgrown.peers hpeer)
          (hpath.peer_eq.trans (getLast?_eq_some_getLast hpath.ne_nil))
      refine .inr ⟨h.passes old hold, ?_⟩
      rw [subtree_congr hsame.children, ← hyx, ← holdn]
      exact below_of_agree (fun _ _ _ hc ↦ hgrown.children hc) hy
  · intro hone
    rw [hsame.children]
    apply eq_nil_iff_forall_not_mem.mpr
    intro c hc
    obtain ⟨old, hold, hcold⟩ := hchildren c hc
    rw [hleaf hone old hold] at hcold
    exact not_mem_nil hcold

structure PathAdded (t t' : MeshTunnelTree) (root : ℕ) (p : List ℕ) : Prop where
  path : ∃ n, PathTo t'.nodes root n p
  told : ∃ told, t'.reported = t.reported ++ told ∧ told.Nodup ∧ ∀ peer, peer ∈ told ↔
    treeGetStatus t peer = some .ready ∧ treeGetStatus t' peer ≠ some .ready
  root : t'.root = t.root
  disconnected : ∀ {x}, x ∈ t'.disconnected → x ∈ t.disconnected
  me : 1 ∈ p ∨ t'.me = t.me ∧ ∀ {x}, x ∈ liveNodes t.nodes → x ∈ liveNodes t'.nodes

theorem BranchAdded.treeGetStatus_ready (h : BranchAdded t t' root n p)
    (hroot : t.root = some root) (hx : x ∈ subtree t.nodes root) (hxn : x ≠ n)
    (hready : statusOf t.nodes x = some .ready) (hpeer : peerOf t.nodes x = some peer) :
    treeGetStatus t' peer = some .ready := by
  apply (h.sound.treeGetStatus_ready_iff (h.root.trans hroot)).mpr
  refine ⟨x, below_of_agree (fun _ _ _ hc ↦ h.children hc) hx, ?_, h.peers hpeer⟩
  rw [h.status (live_of_peer hpeer) hxn]
  exact hready

theorem BranchAdded.pathAdded_new (h : BranchAdded t t' root n p) (hsound : Sound t none)
    (hroot : t.root = some root) (hnone : ∀ x, peerOf t.nodes x ≠ p.getLast?) :
    PathAdded t t' root p where
  path := ⟨n, h.path⟩
  told := by
    refine ⟨[], by rw [h.reported, append_nil], nodup_nil, fun peer ↦ ?_⟩
    refine iff_of_false not_mem_nil ?_
    rintro ⟨hready, hnot⟩
    obtain ⟨x, hx, hstatus, hpeer⟩ := (hsound.treeGetStatus_ready_iff hroot).mp hready
    refine hnot (h.treeGetStatus_ready hroot hx ?_ hstatus hpeer)
    rintro rfl
    apply hnone x
    rw [← h.path.peer_eq, hpeer]
    exact (h.peers hpeer).symm
  root := h.root
  disconnected hx := h.disconnected ▸ hx
  me := by
    by_cases hone : 1 ∈ p
    · exact .inl hone
    · exact .inr ⟨h.me hone, fun hx ↦ live_of_peer (h.peers (exists_peer hx).choose_spec)⟩

theorem BranchAdded.pathAdded_old {t₁ : MeshTunnelTree} (h : BranchAdded t₁ t' root n p)
    (hsound : Sound t none) (hroot : t.root = some root) (hdeleted : PathDeleted t t₁ n)
    (hsound₁ : Sound t₁ (some n)) (hn : n ∈ t.disconnected ∨ n ∈ subtree t.nodes root)
    (hone : 1 ∈ p) : PathAdded t t' root p := by
  have hroot' : t'.root = some root := (h.root.trans hdeleted.root).trans hroot
  refine ⟨⟨n, h.path⟩, ?_, h.root.trans hdeleted.root, fun hx ↦ ?_, .inl hone⟩
  · obtain ⟨told, htold, hnodup, hmem⟩ := hdeleted.told
    refine ⟨told, by rw [h.reported, htold], hnodup, fun peer ↦ ?_⟩
    rw [hmem, mem_readyPeers_iff]
    constructor
    · rintro ⟨x, hx, hready, hpeer⟩
      have hconnected : x ∈ subtree t.nodes root := by
        cases hn with
        | inl hd => exact absurd hready (readyPeers_eq_empty_iff.mp (hsound.quiet (.inl hd)) x hx)
        | inr hn => exact hn.trans hx
      refine ⟨(hsound.treeGetStatus_ready_iff hroot).mpr ⟨x, hconnected, hready, hpeer⟩, ?_⟩
      rw [Ne, h.sound.treeGetStatus_ready_iff hroot']
      rintro ⟨y, -, hyready, hypeer⟩
      have hx₁ := hdeleted.peers.mpr ⟨hpeer, hsound.shape.not_onlyFor_below hx⟩
      obtain rfl := h.sound.shape.distinct hypeer (h.peers hx₁)
      by_cases hyn : y = n
      · rw [hyn, h.searching] at hyready
        exact noConfusion (some.inj hyready)
      · rw [h.status (live_of_peer hx₁) hyn] at hyready
        exact hdeleted.marked hx hyready
    · rintro ⟨hready, hnot⟩
      obtain ⟨x, hx, hstatus, hpeer⟩ := (hsound.treeGetStatus_ready_iff hroot).mp hready
      refine ⟨x, ?_, hstatus, hpeer⟩
      by_contra hxn
      have hfor : ¬ OnlyFor t.nodes n x := by
        intro hfor
        have hrelay := hfor.relay
        rw [hstatus] at hrelay
        exact noConfusion (some.inj hrelay)
      have hpeer₁ := hdeleted.peers.mpr ⟨hpeer, hfor⟩
      have hconnected : x ∈ subtree t₁.nodes root := by
        obtain ⟨_, htop, hbelow⟩ := hsound₁.shape.forest.reach (live_of_peer hpeer₁)
        have hbelow' := hdeleted.below_of_below hbelow
        rcases htop with htop | htop | htop
        · rw [hdeleted.root, hroot] at htop
          exact some.inj htop ▸ hbelow
        · rw [hdeleted.disconnected] at htop
          exact absurd hbelow' (hsound.notMem_subtree_disconnected hroot hx
            (mem_of_mem_erase htop))
        · exact absurd (some.inj htop ▸ hbelow') hxn
      have hxne : x ≠ n := fun heq ↦ hxn (heq ▸ mem_subtree_self)
      refine hnot (h.treeGetStatus_ready (hdeleted.root.trans hroot) hconnected hxne ?_ hpeer₁)
      rw [hdeleted.status hfor hxn]
      exact hstatus
  · rw [h.disconnected, hdeleted.disconnected] at hx
    exact mem_of_mem_erase hx

theorem meSeen_start {rootNode : MeshTunnelTreeNode} (hhead : p.head? = some rootNode.peer) :
    MeSeen p 1 (if rootNode.peer = 1 then some 0 else none) := by
  have hzero : p[0]? = some rootNode.peer := by
    rw [← head?_eq_getElem?]
    exact hhead
  constructor
  · intro k hk
    split at hk
    · next hone => rw [← some.inj hk, hzero, hone]
    · exact absurd hk.symm (some_ne_none k)
  · intro k hlt hk
    obtain rfl : k = 0 := by omega
    rw [hzero] at hk
    rw [if_pos (some.inj hk)]

theorem Sound.treeAddPath_spec (h : Sound t none) (hroot : t.root = some root)
    (hhead : p.head? = peerOf t.nodes root) (hfits : PathFits t root p) :
    ∃ t', treeAddPath t p = some (true, t') ∧ Sound t' none ∧ PathAdded t t' root p ∧
      ((p.getLast? = some 1 → p.tail ≠ [] → ∀ x, peerOf t.nodes x = some 1 →
          childrenOf t.nodes x = []) →
        HopsRight t ∅ → HopsRight t' ∅) := by
  obtain ⟨rootNode, hrootNode⟩ := exists_node (h.root_live hroot)
  rw [peerOf_eq hrootNode] at hhead
  obtain ⟨branch, rfl⟩ := head?_eq_some_iff.mp hhead
  have hseen := meSeen_start hhead
  have hhead' : (rootNode.peer :: branch).head? = peerOf t.nodes root :=
    hhead.trans (peerOf_eq hrootNode).symm
  cases hbranch : branch.getLast? with
  | none =>
    obtain rfl := getLast?_eq_none_iff.mp hbranch
    refine ⟨t, ?_, h, ⟨⟨root, .root (peerOf_eq hrootNode)⟩, ?_, rfl, id, .inr ⟨rfl, id⟩⟩,
      fun _ ↦ id⟩
    · rw [treeAddPath, hroot]
      simp only [bind_eq_bind, bind_some, hrootNode, ne_eq, not_true_eq_false,
        if_false, getLast?_nil]
    · refine ⟨[], (append_nil _).symm, nodup_nil, fun peer ↦ ?_⟩
      exact iff_of_false not_mem_nil fun hboth ↦ hboth.2 hboth.1
  | some last =>
    have htail : (rootNode.peer :: branch).tail ≠ [] := by
      rintro rfl
      exact some_ne_none last hbranch.symm
    have hlast : (rootNode.peer :: branch).getLast? = some last := by
      rw [getLast?_cons_of_ne_nil (show branch ≠ [] from htail)]
      exact hbranch
    have hunfold : treeAddPath t (rootNode.peer :: branch) =
        (treeDelPath t last).bind fun found ↦ finishPath found.1 root (rootNode.peer :: branch)
          (if rootNode.peer = 1 then some 0 else none) found.2 := by
      rw [treeAddPath, hroot]
      simp only [bind_eq_bind, bind_some, hrootNode, ne_eq, hbranch]
      rfl
    cases h.treeDelPath_cases hroot last with
    | inl hnone =>
      have hunknown (x : ℕ) : peerOf t.nodes x ≠ (rootNode.peer :: branch).getLast? := by
        intro hx
        have htarget := hfits.target hx
        rw [hlast] at hx
        cases hnone.2 with
        | inl hself =>
          -- The destination is not the root, since no peer is in the path twice.
          rw [peerOf_eq hrootNode] at hself
          have hmem := mem_of_getLast? hbranch
          rw [← some.inj hself] at hmem
          exact (nodup_cons.mp hfits.nodup).1 hmem
        | inr hout => exact htarget.elim (hout x hx).1 (hout x hx).2
      have hready := ready_of_none h hroot hhead' hfits hunknown
      obtain ⟨t', n, hfinish, hadded, hright⟩ := hready.finish htail hseen
      refine ⟨t', ?_, hadded.sound, hadded.pathAdded_new h hroot hunknown, fun _ hhops ↦ ?_⟩
      · rw [hunfold, hnone.1]
        exact hfinish
      · exact hright hhops fun _ old hold ↦ absurd hold.symm (some_ne_none old)
    | inr hfound =>
      obtain ⟨n, _, hdelete, hn, -, hplace, hdeleted, hsound₁⟩ := hfound
      have hready := hdeleted.ready hsound₁ h hroot hhead' hfits htail (hn.trans hlast.symm)
      obtain ⟨t', m, hfinish, hadded, hright⟩ := hready.finish htail hseen
      have hmn : m = n := by
        have hpeer := hadded.path.peer_eq.trans hlast
        have hself := hdeleted.peers.mpr ⟨hn, h.shape.not_onlyFor_below mem_subtree_self⟩
        exact hadded.sound.shape.distinct hpeer (hadded.peers hself)
      subst hmn
      refine ⟨t', ?_, hadded.sound, ?_, fun hleaf hhops ↦ hright ?_ ?_⟩
      · rw [hunfold, hdelete]
        exact hfinish
      · exact hadded.pathAdded_old h hroot hdeleted hsound₁ (hplace.imp_right And.left)
          (hready.passes m rfl)
      · exact hhops.shrink hsound₁.shape (fun hc ↦ (hdeleted.children.mp hc).1)
          (fun hx ↦ (hdeleted.peers.mp hx).1) hdeleted.hops hdeleted.me
      · intro hone old hold
        obtain rfl := some.inj hold
        apply eq_nil_iff_forall_not_mem.mpr
        intro c hc
        have hchildren := (hdeleted.children.mp hc).1
        rw [hone] at hlast
        rw [hleaf hone htail m (hn.trans hlast.symm)] at hchildren
        exact not_mem_nil hchildren

end Status

end Gnunet.Mesh
