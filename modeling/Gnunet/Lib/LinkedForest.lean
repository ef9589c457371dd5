import Mathlib.Data.Finset.Card

/-!
# Forests of linked nodes

Each node has a list of children. In a forest no node is in two lists, and the nodes in use are
those that are reached from the tops. The tops are in no list. Subtrees are cut off, hung below
another node and removed; what is below what afterwards is said in terms of what was before.
-/

namespace Gnunet.Lib.LinkedForest

open Function Finset

variable {α : Type*}

/-- The second node is reached from the first over child links. -/
abbrev Below (children : α → List α) : α → α → Prop :=
  Relation.ReflTransGen fun a c ↦ c ∈ children a

structure Forest (children : α → List α) (live tops : Set α) : Prop where
  unique : ∀ {a b c : α}, c ∈ children a → c ∈ children b → a = b
  nodup : ∀ a, (children a).Nodup
  parent_live : ∀ {a c : α}, c ∈ children a → a ∈ live
  child_live : ∀ {a c : α}, c ∈ children a → c ∈ live
  top_live : tops ⊆ live
  top_free : ∀ {a c : α}, c ∈ tops → c ∉ children a
  reach : ∀ {a : α}, a ∈ live → ∃ top ∈ tops, Below children top a

variable {children children' : α → List α} {live tops removed : Set α} {a b c n p top x : α}

theorem below_of_agree (hagree : ∀ y, Below children a y → ∀ c ∈ children y, c ∈ children' y)
    (h : Below children a x) : Below children' a x := by
  induction h with
  | refl => exact .refl
  | tail hab hbc ih => exact ih.tail (hagree _ hab _ hbc)

namespace Forest

variable (h : Forest children live tops)
include h

theorem live_of_below (ha : a ∈ live) (hab : Below children a x) : x ∈ live := by
  cases hab with
  | refl => exact ha
  | tail _ hc => exact h.child_live hc

theorem below_or_below (ha : Below children a x) (hb : Below children b x) :
    Below children a b ∨ Below children b a := by
  induction ha with
  | refl => exact .inr hb
  | tail hay hyx ih =>
    cases hb with
    | refl => exact .inl (hay.tail hyx)
    | tail hbz hzx =>
      obtain rfl := h.unique hyx hzx
      exact ih hbz

theorem eq_of_below_top (htop : top ∈ tops) (hab : Below children a top) : a = top := by
  cases hab with
  | refl => rfl
  | tail _ hc => exact absurd hc (h.top_free htop)

theorem not_below_child (hc : c ∈ children p) : ¬ Below children c p := by
  obtain ⟨_, htop, hp⟩ := h.reach (h.parent_live hc)
  induction hp generalizing c with
  | refl =>
    intro hcp
    obtain rfl := h.eq_of_below_top htop hcp
    exact h.top_free htop hc
  | tail hy hyp ih =>
    intro hcp
    cases hcp with
    | refl =>
      obtain rfl := h.unique hyp hc
      exact ih hyp .refl
    | tail hcz hzp =>
      obtain rfl := h.unique hyp hzp
      exact ih hyp (.head hc hcz)

theorem below_parent (hc : c ∈ children p) (hab : Below children a c) (hne : a ≠ c) :
    Below children a p := by
  cases hab with
  | refl => exact absurd rfl hne
  | tail hay hyc =>
    obtain rfl := h.unique hc hyc
    exact hay

theorem top_unique (ha : a ∈ tops) (hb : b ∈ tops) (hax : Below children a x)
    (hbx : Below children b x) : a = b := by
  cases h.below_or_below hax hbx with
  | inl hab => exact h.eq_of_below_top hb hab
  | inr hba => exact (h.eq_of_below_top ha hba).symm

theorem child_unique (ha : a ∈ children p) (hb : b ∈ children p) (hax : Below children a x)
    (hbx : Below children b x) : a = b := by
  by_contra hne
  cases h.below_or_below hax hbx with
  | inl hab => exact h.not_below_child ha (h.below_parent hb hab hne)
  | inr hba => exact h.not_below_child hb (h.below_parent ha hba (Ne.symm hne))

end Forest

section Finite

open Classical in
noncomputable def size (children : α → List α) (space : Finset α) (a : α) : ℕ :=
  (space.filter fun x ↦ Below children a x).card

open Classical in
noncomputable def depth (children : α → List α) (space : Finset α) (x : α) : ℕ :=
  (space.filter fun a ↦ Below children a x).card

variable {space : Finset α}

theorem size_le : size children space a ≤ space.card := by
  classical exact card_filter_le _ _

theorem depth_le : depth children space a ≤ space.card := by
  classical exact card_filter_le _ _

theorem size_mono (hfewer : ∀ x, Below children' a x → Below children a x) :
    size children' space a ≤ size children space a := by
  classical
  apply card_le_card
  exact monotone_filter_right space fun x _ hx ↦ hfewer x hx

theorem depth_mono (hfewer : ∀ x, Below children' x a → Below children x a) :
    depth children' space a ≤ depth children space a := by
  classical
  apply card_le_card
  exact monotone_filter_right space fun x _ hx ↦ hfewer x hx

theorem Forest.size_pos (hspace : live ⊆ space) (ha : a ∈ live) : 0 < size children space a := by
  classical
  apply card_pos.mpr
  exact ⟨a, mem_filter.mpr ⟨hspace ha, .refl⟩⟩

theorem Forest.depth_pos (hspace : live ⊆ space) (ha : a ∈ live) : 0 < depth children space a := by
  classical
  apply card_pos.mpr
  exact ⟨a, mem_filter.mpr ⟨hspace ha, .refl⟩⟩

open Classical in
theorem card_filter_lt {P Q : α → Prop} (hsub : ∀ x, P x → Q x) (hx : x ∈ space) (hQ : Q x)
    (hP : ¬ P x) : (space.filter P).card < (space.filter Q).card := by
  apply card_lt_card
  rw [ssubset_iff_of_subset (monotone_filter_right space fun x _ ↦ hsub x)]
  exact ⟨x, mem_filter.mpr ⟨hx, hQ⟩, fun hmem ↦ hP (mem_filter.mp hmem).2⟩

theorem Forest.size_lt (h : Forest children live tops) (hspace : live ⊆ space)
    (hc : c ∈ children p) : size children space c < size children space p :=
  card_filter_lt (fun _ hx ↦ .head hc hx) (hspace (h.parent_live hc)) .refl (h.not_below_child hc)

theorem Forest.depth_lt (h : Forest children live tops) (hspace : live ⊆ space)
    (hc : c ∈ children p) : depth children space p < depth children space c :=
  card_filter_lt (fun _ hx ↦ hx.tail hc) (hspace (h.child_live hc)) .refl (h.not_below_child hc)

end Finite

section Changes

variable [DecidableEq α]

def detach (children : α → List α) (p c : α) : α → List α :=
  update children p ((children p).erase c)

def attach (children : α → List α) (p c : α) : α → List α :=
  update children p (c :: children p)

section

variable (h : Forest children live tops) (hc : c ∈ children p)
include h hc

theorem Forest.mem_detach : x ∈ detach children p c a ↔ x ∈ children a ∧ x ≠ c := by
  unfold detach
  by_cases hap : a = p
  · subst hap
    rw [update_self, (h.nodup a).mem_erase_iff, and_comm]
  · rw [update_of_ne hap]
    refine ⟨fun hx ↦ ⟨hx, ?_⟩, And.left⟩
    rintro rfl
    exact hap (h.unique hx hc)

theorem Forest.below_detach :
    Below (detach children p c) a x ↔
      Below children a x ∧ (Below children c x → Below children c a) := by
  constructor
  · intro hax
    induction hax with
    | refl => exact ⟨.refl, id⟩
    | tail _ hyx ih =>
      rw [h.mem_detach hc] at hyx
      refine ⟨ih.1.tail hyx.1, fun hcx ↦ ih.2 ?_⟩
      exact h.below_parent hyx.1 hcx (Ne.symm hyx.2)
  · rintro ⟨hax, hin⟩
    induction hax with
    | refl => exact .refl
    | tail hay hyx ih =>
      refine (ih fun hcy ↦ hin (hcy.tail hyx)).tail ((h.mem_detach hc).mpr ⟨hyx, ?_⟩)
      -- The cut link is the only one into `c`, and nothing below `c` leads back to it.
      rintro rfl
      exact h.not_below_child hyx ((hin .refl).trans hay)

theorem Forest.detached :
    Forest (detach children p c) live (insert c tops) where
  unique hca hcb := h.unique ((h.mem_detach hc).mp hca).1 ((h.mem_detach hc).mp hcb).1
  nodup a := by
    unfold detach
    by_cases hap : a = p
    · subst hap
      rw [update_self]
      exact (h.nodup a).erase c
    · rw [update_of_ne hap]
      exact h.nodup a
  parent_live hca := h.parent_live ((h.mem_detach hc).mp hca).1
  child_live hca := h.child_live ((h.mem_detach hc).mp hca).1
  top_live := Set.insert_subset (h.child_live hc) h.top_live
  top_free htop := by
    intro hmem
    rw [h.mem_detach hc] at hmem
    cases htop with
    | inl heq => exact hmem.2 heq
    | inr htop => exact h.top_free htop hmem.1
  reach {a} ha := by
    by_cases hca : Below children c a
    · exact ⟨c, .inl rfl, (h.below_detach hc).mpr ⟨hca, fun _ ↦ .refl⟩⟩
    · obtain ⟨top, htop, hta⟩ := h.reach ha
      exact ⟨top, .inr htop, (h.below_detach hc).mpr ⟨hta, fun hin ↦ absurd hin hca⟩⟩

end

theorem mem_attach : x ∈ attach children p c a ↔ x ∈ children a ∨ a = p ∧ x = c := by
  unfold attach
  by_cases hap : a = p
  · subst hap
    rw [update_self, List.mem_cons, or_comm]
    exact or_congr_right (and_iff_right rfl).symm
  · rw [update_of_ne hap]
    exact (or_iff_left fun hx ↦ hap hx.1).symm

theorem below_attach (hnot : ¬ Below children c p) :
    Below (attach children p c) a x ↔
      Below children a x ∨ Below children a p ∧ Below children c x := by
  have hold {y z : α} (hyz : Below children y z) : Below (attach children p c) y z :=
    below_of_agree (fun _ _ _ hmem ↦ mem_attach.mpr (.inl hmem)) hyz
  constructor
  · intro hax
    induction hax with
    | refl => exact .inl .refl
    | tail _ hyx ih =>
      rcases mem_attach.mp hyx with hyx | ⟨rfl, rfl⟩
      · exact ih.imp (fun hay ↦ hay.tail hyx) (fun hay ↦ ⟨hay.1, hay.2.tail hyx⟩)
      · refine .inr ⟨?_, .refl⟩
        exact ih.elim id fun hay ↦ absurd hay.2 hnot
  · rintro (hax | ⟨hap, hcx⟩)
    · exact hold hax
    · exact ((hold hap).tail (mem_attach.mpr (.inr ⟨rfl, rfl⟩))).trans (hold hcx)

theorem Forest.attached (h : Forest children live tops) (hc : c ∈ tops) (hp : p ∈ live)
    (hnot : ¬ Below children c p) :
    Forest (attach children p c) live (tops \ {c}) where
  unique {x y z} hzx hzy := by
    rw [mem_attach] at hzx hzy
    rcases hzx with hzx | ⟨rfl, rfl⟩
    · rcases hzy with hzy | ⟨rfl, rfl⟩
      · exact h.unique hzx hzy
      · exact absurd hzx (h.top_free hc)
    · rcases hzy with hzy | ⟨rfl, -⟩
      · exact absurd hzy (h.top_free hc)
      · rfl
  nodup a := by
    unfold attach
    by_cases hap : a = p
    · subst hap
      rw [update_self]
      exact List.nodup_cons.mpr ⟨h.top_free hc, h.nodup a⟩
    · rw [update_of_ne hap]
      exact h.nodup a
  parent_live hmem := (mem_attach.mp hmem).elim h.parent_live fun heq ↦ heq.1 ▸ hp
  child_live hmem := (mem_attach.mp hmem).elim h.child_live fun heq ↦ heq.2 ▸ h.top_live hc
  top_live := Set.sdiff_subset.trans h.top_live
  top_free htop := by
    intro hmem
    cases mem_attach.mp hmem with
    | inl hmem => exact h.top_free htop.1 hmem
    | inr heq => exact htop.2 heq.2
  reach {a} ha := by
    obtain ⟨top, htop, hta⟩ := h.reach ha
    by_cases heq : top = c
    · subst heq
      obtain ⟨top, htop', htp⟩ := h.reach hp
      refine ⟨top, ⟨htop', ?_⟩, (below_attach hnot).mpr (.inr ⟨htp, hta⟩)⟩
      rintro rfl
      exact hnot htp
    · exact ⟨top, ⟨htop, heq⟩, (below_attach hnot).mpr (.inl hta)⟩

omit [DecidableEq α] in
theorem Forest.inserted (h : Forest children live tops) (hn : n ∉ live) :
    Forest children (insert n live) (insert n tops) where
  unique := h.unique
  nodup := h.nodup
  parent_live hmem := .inr (h.parent_live hmem)
  child_live hmem := .inr (h.child_live hmem)
  top_live := Set.insert_subset_insert h.top_live
  top_free htop := by
    intro hmem
    cases htop with
    | inl heq => exact hn (heq ▸ h.child_live hmem)
    | inr htop => exact h.top_free htop hmem
  reach ha := by
    cases ha with
    | inl heq => exact ⟨n, .inl rfl, heq ▸ .refl⟩
    | inr ha =>
      obtain ⟨top, htop, hta⟩ := h.reach ha
      exact ⟨top, .inr htop, hta⟩

end Changes

section Removal

structure Pruned (children children' : α → List α) (removed : Set α) : Prop where
  closed : ∀ {a c : α}, a ∈ removed → c ∈ children a → c ∈ removed
  mem : ∀ {a c : α}, c ∈ children' a ↔ c ∈ children a ∧ c ∉ removed
  nodup : ∀ a, (children' a).Nodup

theorem Pruned.below_removed (h : Pruned children children' removed) (ha : a ∈ removed)
    (hax : Below children a x) : x ∈ removed := by
  induction hax with
  | refl => exact ha
  | tail _ hyx ih => exact h.closed ih hyx

theorem Pruned.below_of_below (h : Pruned children children' removed)
    (hax : Below children' a x) : Below children a x :=
  below_of_agree (fun _ _ _ hc ↦ (h.mem.mp hc).1) hax

theorem Pruned.below_iff (h : Pruned children children' removed) (hx : x ∉ removed) :
    Below children' a x ↔ Below children a x := by
  refine ⟨h.below_of_below, fun hax ↦ ?_⟩
  induction hax with
  | refl => exact .refl
  | tail hay hyx ih =>
    have hy := fun hy ↦ hx (h.closed hy hyx)
    exact (ih hy).tail (h.mem.mpr ⟨hyx, hx⟩)

theorem Forest.pruned (h : Forest children live tops)
    (hpruned : Pruned children children' removed) :
    Forest children' (live \ removed) (tops \ removed) where
  unique hca hcb := h.unique (hpruned.mem.mp hca).1 (hpruned.mem.mp hcb).1
  nodup := hpruned.nodup
  parent_live hmem := by
    rw [hpruned.mem] at hmem
    exact ⟨h.parent_live hmem.1, fun ha ↦ hmem.2 (hpruned.closed ha hmem.1)⟩
  child_live hmem := by
    rw [hpruned.mem] at hmem
    exact ⟨h.child_live hmem.1, hmem.2⟩
  top_live := Set.sdiff_subset_sdiff_left h.top_live
  top_free htop hmem := h.top_free htop.1 (hpruned.mem.mp hmem).1
  reach ha := by
    obtain ⟨top, htop, hta⟩ := h.reach ha.1
    refine ⟨top, ⟨htop, fun hmem ↦ ha.2 (hpruned.below_removed hmem hta)⟩, ?_⟩
    exact (hpruned.below_iff ha.2).mpr hta

end Removal

end Gnunet.Lib.LinkedForest
