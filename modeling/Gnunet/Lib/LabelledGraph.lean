import Mathlib.Computability.Language
import Mathlib.Order.CompletePartialOrder

/-!
# Graphs whose edges are labelled with words

An edge carries a word, possibly the empty one, and a path reads the concatenation of the words on
its edges.  `words E x y` is the language read between two nodes.  The results below compute this
language for the ways in which small graphs are put together: one after the other, with an edge
back to the beginning, beside a bypass, and side by side.
-/

namespace Gnunet.Lib.LabelledGraph

open scoped Computability

variable {V α : Type*}

/-- `E x l y` says that an edge labelled `l` leads from `x` to `y`. -/
abbrev WordGraph (V α : Type*) := V → List α → V → Prop

variable {E F G : WordGraph V α} {A B : Set V} {x y z : V} {l u v w : List α}

/-- Walking along edges reads the concatenation of their labels. -/
inductive Walk (E : WordGraph V α) : V → List α → V → Prop
  | nil (x : V) : Walk E x [] x
  | cons {x y z : V} {l w : List α} : E x l y → Walk E y w z → Walk E x (l ++ w) z

open Walk

def words (E : WordGraph V α) (x y : V) : Language α := {w | Walk E x w y}

@[simp] theorem mem_words : w ∈ words E x y ↔ Walk E x w y := Iff.rfl

theorem Walk.single (h : E x l y) : Walk E x l y := by
  have hpath := cons h (nil y)
  rwa [List.append_nil] at hpath

theorem walk_iff : Walk E x w z ↔ (w = [] ∧ x = z) ∨
    ∃ l y v, E x l y ∧ Walk E y v z ∧ w = l ++ v := by
  constructor
  · intro h
    cases h with
    | nil => exact .inl ⟨rfl, rfl⟩
    | cons hedge hrest => exact .inr ⟨_, _, _, hedge, hrest, rfl⟩
  · rintro (⟨rfl, rfl⟩ | ⟨l, y, v, hedge, hrest, rfl⟩)
    · exact nil x
    · exact cons hedge hrest

theorem Walk.append (hxy : Walk E x u y) (hyz : Walk E y v z) : Walk E x (u ++ v) z := by
  induction hxy with
  | nil x => exact hyz
  | cons hedge _ ih =>
    rw [List.append_assoc]
    exact cons hedge (ih hyz)

theorem Walk.mono (hle : ∀ x l y, E x l y → F x l y) (h : Walk E x w y) : Walk F x w y := by
  induction h with
  | nil x => exact nil x
  | cons hedge _ ih => exact cons (hle _ _ _ hedge) ih

theorem words_mono (hle : ∀ x l y, E x l y → F x l y) (x y : V) : words E x y ≤ words F x y :=
  fun _ hw ↦ mono hle hw

theorem walk_nil_iff : Walk E x [] y ↔ Relation.ReflTransGen (fun a b ↦ E a [] b) x y := by
  constructor
  · intro h
    generalize hw : ([] : List α) = w at h
    induction h with
    | nil x => exact Relation.ReflTransGen.refl
    | cons hedge _ ih =>
      obtain ⟨rfl, rfl⟩ := List.append_eq_nil_iff.mp hw.symm
      exact Relation.ReflTransGen.head hedge (ih rfl)
  · intro h
    induction h with
    | refl => exact nil x
    | tail _ hedge ih => exact ih.append (single hedge)

/-- Where labels have at most one letter, the first letter of a word is read by one edge. -/
theorem walk_cons_iff (hE : ∀ x l y, E x l y → l.length ≤ 1) {c : α} :
    Walk E x (c :: w) z ↔ ∃ y y', Walk E x [] y ∧ E y [c] y' ∧ Walk E y' w z := by
  constructor
  · intro h
    generalize hv : c :: w = v at h
    induction h with
    | nil x => cases hv
    | @cons x y z l u hedge hrest ih =>
      match l, hE _ _ _ hedge with
      | [], _ =>
        obtain ⟨m, m', hm, hc, hw⟩ := ih hv
        exact ⟨m, m', cons hedge hm, hc, hw⟩
      | [b], _ =>
        cases hv
        exact ⟨x, y, nil x, hedge, hrest⟩
  · rintro ⟨y, y', hempty, hedge, hrest⟩
    exact hempty.append (cons hedge hrest)

theorem Walk.of_sink (hsink : ∀ l y, ¬ E x l y) (h : Walk E x w y) : w = [] ∧ y = x := by
  cases h with
  | nil => exact ⟨rfl, rfl⟩
  | cons hedge _ => exact absurd hedge (hsink _ _)

def Within (E : WordGraph V α) (A : Set V) : Prop := ∀ x l y, E x l y → x ∈ A ∧ y ∈ A

theorem Within.mono (h : Within E A) (hsub : A ⊆ B) : Within E B :=
  fun x l y hedge ↦ ⟨hsub (h x l y hedge).1, hsub (h x l y hedge).2⟩

theorem Walk.mem (hE : Within E A) (h : Walk E x w y) (hx : x ∈ A) : y ∈ A := by
  induction h with
  | nil x => exact hx
  | cons hedge _ ih => exact ih (hE _ _ _ hedge).2

/-- A path stays in a region whose edges all belong to `F` and end inside it. -/
theorem Walk.stay (hstep : ∀ x l y, x ∈ A → E x l y → F x l y ∧ y ∈ A) (h : Walk E x w y)
    (hx : x ∈ A) : Walk F x w y := by
  induction h with
  | nil x => exact nil x
  | cons hedge _ ih =>
    have hnext := hstep _ _ _ hx hedge
    exact cons hnext.1 (ih hnext.2)

variable {exit : V}

theorem Walk.leave
    (hstep : ∀ x l y, x ∈ A → E x l y → (F x l y ∧ y ∈ A) ∨ (x = exit ∧ l = [] ∧ y ∉ A))
    (h : Walk E x w z) (hx : x ∈ A) (hz : z ∉ A) :
    ∃ y u v, E exit [] y ∧ y ∉ A ∧ Walk F x u exit ∧ Walk E y v z ∧ w = u ++ v := by
  induction h with
  | nil x => exact absurd hx hz
  | @cons x y z l w hedge hrest ih =>
    rcases hstep _ _ _ hx hedge with ⟨hinner, hy⟩ | ⟨rfl, rfl, hy⟩
    · obtain ⟨m, u, v, hexit, hm, hbefore, hafter, rfl⟩ := ih hy hz
      exact ⟨m, l ++ u, v, hexit, hm, cons hinner hbefore, hafter, (List.append_assoc ..).symm⟩
    · exact ⟨y, [], w, hedge, hy, nil x, hrest, rfl⟩

/-- Two graphs joined by an edge from the exit of the first to the entry of the second. -/
theorem words_series {entry first last : V} (hF : Within F A) (hG : Within G B)
    (hdisjoint : Disjoint A B) (hfirst : first ∈ A) (hexit : exit ∈ A) (hentry : entry ∈ B)
    (hlast : last ∈ B)
    (hE : ∀ x l y, E x l y ↔ F x l y ∨ G x l y ∨ (x = exit ∧ l = [] ∧ y = entry)) :
    words E first last = words F first exit * words G entry last := by
  have hnot : ∀ {a : V}, a ∈ A → a ∉ B := fun ha hb ↦ Set.disjoint_left.mp hdisjoint ha hb
  have hstep : ∀ x l y, x ∈ A → E x l y → (F x l y ∧ y ∈ A) ∨ (x = exit ∧ l = [] ∧ y ∉ A) := by
    intro x l y hx hedge
    rcases (hE x l y).mp hedge with h | h | ⟨h, hl, hy⟩
    · exact .inl ⟨h, (hF x l y h).2⟩
    · exact absurd (hG x l y h).1 (hnot hx)
    · exact .inr ⟨h, hl, fun hA ↦ hnot hA (hy ▸ hentry)⟩
  ext w
  constructor
  · intro hw
    obtain ⟨m, u, v, hm, hmA, hbefore, hafter, rfl⟩ :=
      leave hstep hw hfirst fun hA ↦ hnot hA hlast
    have hmentry : m = entry := by
      rcases (hE exit [] m).mp hm with h | h | ⟨-, -, h⟩
      · exact absurd (hF _ _ _ h).2 hmA
      · exact absurd (hG _ _ _ h).1 (hnot hexit)
      · exact h
    subst hmentry
    refine Language.append_mem_mul hbefore (stay (A := B) ?_ hafter hentry)
    intro x l y hx hedge
    rcases (hE x l y).mp hedge with h | h | ⟨rfl, -, -⟩
    · exact absurd hx (hnot (hF x l y h).1)
    · exact ⟨h, (hG x l y h).2⟩
    · exact absurd hx (hnot hexit)
  · intro hw
    obtain ⟨u, hu, v, hv, rfl⟩ := Language.mem_mul.mp hw
    have hjoin : Walk E exit [] entry := single ((hE _ _ _).mpr (.inr (.inr ⟨rfl, rfl, rfl⟩)))
    have hfront : Walk E first u exit := mono (fun x l y h ↦ (hE x l y).mpr (.inl h)) hu
    have hback : Walk E entry v last := mono (fun x l y h ↦ (hE x l y).mpr (.inr (.inl h))) hv
    exact hfront.append (hjoin.append hback)

theorem words_loop {entry : V} (x : V)
    (hE : ∀ x l y, E x l y ↔ F x l y ∨ (x = exit ∧ l = [] ∧ y = entry)) :
    words E x exit = words F x exit * (words F entry exit)∗ := by
  apply le_antisymm
  · intro w hw
    change Walk E x w exit at hw
    induction hw with
    | nil x => exact Language.mem_mul.mpr ⟨[], nil x, [], Language.nil_mem_kstar _, rfl⟩
    | @cons x y _ l w hedge _ ih =>
      rcases (hE _ _ _).mp hedge with h | ⟨rfl, rfl, rfl⟩
      · obtain ⟨u, hu, v, hv, rfl⟩ := Language.mem_mul.mp (ih hE)
        rw [← List.append_assoc]
        exact Language.append_mem_mul (cons h hu) hv
      · have hstar : w ∈ (words F y x)∗ := by
          rw [← Language.one_add_self_mul_kstar_eq_kstar]
          exact .inr (ih hE)
        exact Language.mem_mul.mpr ⟨[], nil x, w, hstar, rfl⟩
  · have hinner : ∀ x, words F x exit ≤ words E x exit :=
      fun x ↦ words_mono (fun x l y h ↦ (hE x l y).mpr (.inl h)) x exit
    have hback : words E x exit * words F entry exit ≤ words E x exit := by
      intro w hw
      obtain ⟨u, hu, v, hv, rfl⟩ := Language.mem_mul.mp hw
      have hedge : Walk E exit [] entry := single ((hE _ _ _).mpr (.inr ⟨rfl, rfl, rfl⟩))
      exact append hu (hedge.append (hinner entry hv))
    calc words F x exit * (words F entry exit)∗
        ≤ words E x exit * (words F entry exit)∗ := by gcongr; exact hinner x
      _ ≤ words E x exit := mul_kstar_le_self hback

/-- A path from the opening node enters the region `A` at one of the entries or passes it, and
leaves the region for the closing node. -/
structure Shell (E F : WordGraph V α) (A : Set V) (opening closing : V) (entries exits : Set V) :
    Prop where
  within : Within F A
  opening_notMem : opening ∉ A
  closing_notMem : closing ∉ A
  ne : opening ≠ closing
  exits_sub : exits ⊆ A
  edge_iff : ∀ x l y, E x l y ↔ F x l y ∨ (x = opening ∧ l = [] ∧ y ∈ entries) ∨
    (x ∈ exits ∧ l = [] ∧ y = closing)

namespace Shell

variable {opening closing : V} {entries exits : Set V}

section

variable (h : Shell E F A opening closing entries exits)
include h

theorem words_opening :
    words E opening closing = {w | ∃ y ∈ entries, Walk E y w closing} := by
  ext w
  constructor
  · intro hw
    cases hw with
    | nil => exact absurd rfl h.ne
    | @cons _ y _ l w hedge hrest =>
      rcases (h.edge_iff _ _ _).mp hedge with hF | ⟨-, rfl, hy⟩ | ⟨hexit, -, -⟩
      · exact absurd (h.within _ _ _ hF).1 h.opening_notMem
      · exact ⟨y, hy, hrest⟩
      · exact absurd (h.exits_sub hexit) h.opening_notMem
  · rintro ⟨y, hy, hrest⟩
    exact cons ((h.edge_iff _ _ _).mpr (.inr (.inl ⟨rfl, rfl, hy⟩))) hrest

theorem walk_closing :
    Walk E closing w y ↔ w = [] ∧ y = closing := by
  constructor
  · apply of_sink
    intro l z hedge
    rcases (h.edge_iff _ _ _).mp hedge with hF | ⟨hopening, -, -⟩ | ⟨hexit, -, -⟩
    · exact h.closing_notMem (h.within _ _ _ hF).1
    · exact h.ne hopening.symm
    · exact h.closing_notMem (h.exits_sub hexit)
  · rintro ⟨rfl, rfl⟩
    exact nil _

/-- From a part `B` of the region that has one exit, the closing node is reached through it. -/
theorem walk_inner (hBA : B ⊆ A)
    (hclosed : ∀ x l y, x ∈ B → F x l y → y ∈ B) (hexits : ∀ x ∈ exits, x ∈ B → x = exit)
    (hexit : exit ∈ exits) (hexitB : exit ∈ B) (hx : x ∈ B) :
    Walk E x w closing ↔ Walk F x w exit := by
  have hstep : ∀ x l y, x ∈ B → E x l y → (F x l y ∧ y ∈ B) ∨ (x = exit ∧ l = [] ∧ y ∉ B) := by
    intro x l y hx hedge
    rcases (h.edge_iff _ _ _).mp hedge with hF | ⟨rfl, -, -⟩ | ⟨hmem, hl, hy⟩
    · exact .inl ⟨hF, hclosed x l y hx hF⟩
    · exact absurd (hBA hx) h.opening_notMem
    · exact .inr ⟨hexits x hmem hx, hl, fun hB ↦ h.closing_notMem (hy ▸ hBA hB)⟩
  have hlast : E exit [] closing := (h.edge_iff _ _ _).mpr (.inr (.inr ⟨hexit, rfl, rfl⟩))
  constructor
  · intro hw
    obtain ⟨m, u, v, hm, hmB, hbefore, hafter, rfl⟩ :=
      leave hstep hw hx fun hB ↦ h.closing_notMem (hBA hB)
    have hclosing : m = closing := by
      rcases (h.edge_iff _ _ _).mp hm with hF | ⟨hopening, -, -⟩ | ⟨-, -, hy⟩
      · exact absurd (hclosed _ _ _ hexitB hF) hmB
      · exact absurd (h.exits_sub hexit) (hopening ▸ h.opening_notMem)
      · exact hy
    subst hclosing
    rw [(h.walk_closing.mp hafter).1, List.append_nil]
    exact hbefore
  · intro hw
    have hfront : Walk E x w exit := mono (fun x l y hF ↦ (h.edge_iff _ _ _).mpr (.inl hF)) hw
    have hpath := hfront.append (single hlast)
    rwa [List.append_nil] at hpath

end

/-- A bypass beside a region with one entry and one exit adds the empty word. -/
theorem words_bypass {entry : V} (h : Shell E F A opening closing {entry, closing} {exit})
    (hentry : entry ∈ A) : words E opening closing = 1 + words F entry exit := by
  have hexit : exit ∈ A := h.exits_sub rfl
  rw [h.words_opening]
  ext w
  constructor
  · rintro ⟨y, rfl | rfl, hpath⟩
    · exact .inr ((h.walk_inner subset_rfl (fun x l y _ hF ↦ (h.within x l y hF).2)
        (fun x hx _ ↦ hx) rfl hexit hentry).mp hpath)
    · exact .inl (h.walk_closing.mp hpath).1
  · rintro (rfl | hpath)
    · exact ⟨closing, .inr rfl, nil closing⟩
    · exact ⟨entry, .inl rfl, (h.walk_inner subset_rfl (fun x l y _ hF ↦ (h.within x l y hF).2)
        (fun x hx _ ↦ hx) rfl hexit hentry).mpr hpath⟩

end Shell

/-- Two graphs side by side between an opening and a closing node. -/
theorem words_beside {opening closing entry entry' exit' : V} (hF : Within F A) (hG : Within G B)
    (hdisjoint : Disjoint A B) (hentry : entry ∈ A) (hexit : exit ∈ A) (hentry' : entry' ∈ B)
    (hexit' : exit' ∈ B)
    (h : Shell E (fun x l y ↦ F x l y ∨ G x l y) (A ∪ B) opening closing {entry, entry'}
      {exit, exit'}) :
    words E opening closing = words F entry exit + words G entry' exit' := by
  have hnot : ∀ {a : V}, a ∈ A → a ∉ B := fun ha hb ↦ Set.disjoint_left.mp hdisjoint ha hb
  have hcloseA : ∀ x l y, x ∈ A → F x l y ∨ G x l y → F x l y ∧ y ∈ A := by
    rintro x l y hx (hedge | hedge)
    · exact ⟨hedge, (hF _ _ _ hedge).2⟩
    · exact absurd (hG _ _ _ hedge).1 (hnot hx)
  have hcloseB : ∀ x l y, x ∈ B → F x l y ∨ G x l y → G x l y ∧ y ∈ B := by
    rintro x l y hx (hedge | hedge)
    · exact absurd hx (hnot (hF _ _ _ hedge).1)
    · exact ⟨hedge, (hG _ _ _ hedge).2⟩
  have hthroughA : ∀ w, Walk E entry w closing ↔ Walk F entry w exit := by
    intro w
    rw [h.walk_inner Set.subset_union_left (fun x l y hx hedge ↦ (hcloseA x l y hx hedge).2)
      (by rintro x (rfl | rfl) hx; exacts [rfl, absurd hexit' (hnot hx)]) (.inl rfl) hexit hentry]
    exact ⟨fun hpath ↦ hpath.stay hcloseA hentry, mono fun x l y ↦ .inl⟩
  have hthroughB : ∀ w, Walk E entry' w closing ↔ Walk G entry' w exit' := by
    intro w
    rw [h.walk_inner Set.subset_union_right (fun x l y hx hedge ↦ (hcloseB x l y hx hedge).2)
      (by rintro x (rfl | rfl) hx; exacts [absurd hx (hnot hexit), rfl]) (.inr rfl) hexit'
      hentry']
    exact ⟨fun hpath ↦ hpath.stay hcloseB hentry', mono fun x l y ↦ .inr⟩
  rw [h.words_opening]
  ext w
  constructor
  · rintro ⟨y, rfl | rfl, hpath⟩
    · exact .inl ((hthroughA w).mp hpath)
    · exact .inr ((hthroughB w).mp hpath)
  · rintro (hpath | hpath)
    · exact ⟨entry, .inl rfl, (hthroughA w).mpr hpath⟩
    · exact ⟨entry', .inr rfl, (hthroughB w).mpr hpath⟩

end Gnunet.Lib.LabelledGraph
