import Gnunet.Regex.Nfa

/-!
# The language of the NFA fragments

A fragment reads the words on the paths from its start to its end state.  Each operation on
fragments adds epsilon transitions, and the language of its result is computed from the languages
of its operands.
-/

namespace Gnunet.Regex

open Lib.LabelledGraph List
open scoped Computability

variable {a b : Automaton} {x y : ℕ} {l : List Char} {targets : List ℕ} {s : State}
  {t : Transition}

/-- Every transition has a target among the states, labels are single characters, and a state
entered by a labelled transition is only left by epsilon transitions. -/
structure Sound (states : List State) : Prop where
  nodup : (stateIds states).Nodup
  target : ∀ s ∈ states, ∀ t ∈ s.transitions, ∃ y ∈ stateIds states, t.toState = some y
  label : ∀ s ∈ states, ∀ t ∈ s.transitions, ∀ l, t.label = some l → l.length = 1
  calm : ∀ x l y, edges states x l y → l ≠ [] → ∀ l' z, edges states y l' z → l' = []

theorem stateIds_append (first second : List State) :
    stateIds (first ++ second) = stateIds first ++ stateIds second := map_append

namespace Sound

variable {states old : List State}

theorem within (h : Sound states) : Within (edges states) {x | x ∈ stateIds states} := by
  rintro x l y ⟨s, hs, hx, t, ht, -, hy⟩
  obtain ⟨z, hz, hz'⟩ := h.target s hs t ht
  rw [hy, Option.some.injEq] at hz'
  exact ⟨mem_stateIds.mpr ⟨s, hs, hx⟩, hz' ▸ hz⟩

/-- Adding epsilon transitions, and states without others, keeps the states sound. -/
theorem extend (h : Sound old) (hnodup : (stateIds states).Nodup)
    (hsub : stateIds old ⊆ stateIds states)
    (hext : ∀ s ∈ states, ∀ t ∈ s.transitions, (∃ r ∈ old, r.id = s.id ∧ t ∈ r.transitions) ∨
      (t.label = none ∧ ∃ y ∈ stateIds states, t.toState = some y)) : Sound states := by
  have hlabelled : ∀ x l y, edges states x l y → l ≠ [] → edges old x l y := by
    rintro x l y ⟨s, hs, hx, t, ht, hl, hy⟩ hne
    rcases hext s hs t ht with ⟨r, hr, hid, htr⟩ | ⟨hnone, -⟩
    · exact ⟨r, hr, hid.trans hx, t, htr, hl, hy⟩
    · rw [Transition.word, hnone] at hl
      exact absurd hl.symm hne
  constructor
  · exact hnodup
  · intro s hs t ht
    rcases hext s hs t ht with ⟨r, hr, -, htr⟩ | ⟨-, htarget⟩
    · obtain ⟨y, hy, hty⟩ := h.target r hr t htr
      exact ⟨y, hsub hy, hty⟩
    · exact htarget
  · intro s hs t ht l hl
    rcases hext s hs t ht with ⟨r, hr, -, htr⟩ | ⟨hnone, -⟩
    · exact h.label r hr t htr l hl
    · rw [hnone] at hl
      cases hl
  · intro x l y hxy hne l' z hyz
    by_contra hne'
    exact hne' (h.calm x l y (hlabelled x l y hxy hne) hne l' z (hlabelled y l' z hyz hne'))

theorem append {first second : List State} (h₁ : Sound first) (h₂ : Sound second)
    (hdisjoint : Disjoint (stateIds first) (stateIds second)) : Sound (first ++ second) := by
  constructor
  · rw [stateIds_append]
    exact Nodup.append h₁.nodup h₂.nodup hdisjoint
  · intro s hs t ht
    rw [stateIds_append]
    rcases mem_append.mp hs with hs | hs
    · obtain ⟨y, hy, hty⟩ := h₁.target s hs t ht
      exact ⟨y, mem_append_left _ hy, hty⟩
    · obtain ⟨y, hy, hty⟩ := h₂.target s hs t ht
      exact ⟨y, mem_append_right _ hy, hty⟩
  · intro s hs t ht l hl
    rcases mem_append.mp hs with hs | hs
    · exact h₁.label s hs t ht l hl
    · exact h₂.label s hs t ht l hl
  · intro x l y hxy hne l' z hyz
    rcases edges_append.mp hxy with hxy | hxy <;> rcases edges_append.mp hyz with hyz | hyz
    · exact h₁.calm x l y hxy hne l' z hyz
    · exact absurd (edges_mem_stateIds hyz) (hdisjoint (h₁.within _ _ _ hxy).2)
    · exact absurd (h₂.within _ _ _ hxy).2 (hdisjoint (edges_mem_stateIds hyz))
    · exact h₂.calm x l y hxy hne l' z hyz

end Sound

structure Fragment (a : Automaton) : Prop where
  type_eq : a.type = .nfa
  sound : Sound a.states
  start_mem : a.start ∈ stateIds a.states
  end_mem : a.endState ∈ stateIds a.states
  accepting_iff : ∀ s ∈ a.states, s.accepting = true ↔ s.id = a.endState
  reach : ∀ x ∈ stateIds a.states, ∃ u, Walk (edges a.states) a.start u x
  coreach : ∀ x ∈ stateIds a.states, ∃ v, Walk (edges a.states) x v a.endState

def Automaton.words (a : Automaton) : Language Char :=
  Lib.LabelledGraph.words (edges a.states) a.start a.endState

@[simp] theorem State.id_addEpsilons (s : State) (targets : List ℕ) :
    (s.addEpsilons targets).id = s.id := by
  induction targets generalizing s with
  | nil => rfl
  | cons target targets ih => exact (ih _).trans State.id_addTransition

@[simp] theorem State.accepting_addEpsilons (s : State) (targets : List ℕ) :
    (s.addEpsilons targets).accepting = s.accepting := by
  induction targets generalizing s with
  | nil => rfl
  | cons target targets ih => exact (ih _).trans State.accepting_addTransition

@[simp] theorem State.mem_addEpsilons (s : State) (targets : List ℕ) :
    t ∈ (s.addEpsilons targets).transitions ↔
      t ∈ s.transitions ∨ ∃ y ∈ targets, t = ⟨none, some y⟩ := by
  induction targets generalizing s with
  | nil => simp [addEpsilons]
  | cons target targets ih =>
    rw [addEpsilons, foldl_cons, ← addEpsilons, ih, State.mem_addTransition, or_assoc]
    simp only [mem_cons, exists_eq_or_imp]

theorem State.id_join (s : State) (targets : List ℕ) : (s.join targets).id = s.id :=
  s.id_addEpsilons targets

theorem joinEnd_ids (a : Automaton) (targets : List ℕ) :
    stateIds (joinEnd a targets) = stateIds a.states :=
  stateIds_modifyState fun s ↦ s.id_join targets

theorem mem_joinEnd (h : s ∈ joinEnd a targets) :
    ∃ r ∈ a.states, r.id = s.id ∧ (s.accepting = true → r.accepting = true ∧ r.id ≠ a.endState) ∧
      ∀ t, t ∈ s.transitions ↔
        t ∈ r.transitions ∨ (r.id = a.endState ∧ ∃ y ∈ targets, t = ⟨none, some y⟩) := by
  rcases mem_modifyState.mp h with ⟨r, hr, hid, rfl⟩ | ⟨hs, hid⟩
  · refine ⟨r, hr, (r.id_join targets).symm, ?_, fun t ↦ ?_⟩
    · intro hacc
      cases hacc
    · rw [State.join]
      simp [hid]
  · exact ⟨s, hs, rfl, fun hacc ↦ ⟨hacc, hid⟩, fun t ↦ by simp [hid]⟩

theorem edges_addEpsilons {states : List State} {id : ℕ} {f : State → State}
    (hf : ∀ s, (f s).id = s.id) (hadd : ∀ s t, t ∈ (f s).transitions ↔
      t ∈ s.transitions ∨ ∃ z ∈ targets, t = ⟨none, some z⟩) (hmem : id ∈ stateIds states) :
    edges (modifyState states id f) x l y ↔
      edges states x l y ∨ (x = id ∧ l = [] ∧ y ∈ targets) := by
  rw [edges_modifyState hf]
  simp only [hadd]
  constructor
  · rintro (⟨-, h⟩ | ⟨rfl, s, hs, hid, t, ht, hl, hy⟩)
    · exact .inl h
    · rcases ht with ht | ⟨z, hz, rfl⟩
      · exact .inl ⟨s, hs, hid, t, ht, hl, hy⟩
      · cases hy
        exact .inr ⟨rfl, hl.symm, hz⟩
  · rintro (h | ⟨rfl, rfl, hy⟩)
    · by_cases hx : x = id
      · obtain ⟨s, hs, hid, t, ht, hl, hy⟩ := h
        exact .inr ⟨hx, s, hs, hid.trans hx, t, .inl ht, hl, hy⟩
      · exact .inl ⟨hx, h⟩
    · obtain ⟨s, hs, hid⟩ := mem_stateIds.mp hmem
      exact .inr ⟨rfl, s, hs, hid, ⟨none, some y⟩, .inr ⟨y, hy, rfl⟩, rfl, rfl⟩

theorem edges_joinEnd (hend : a.endState ∈ stateIds a.states) :
    edges (joinEnd a targets) x l y ↔
      edges a.states x l y ∨ (x = a.endState ∧ l = [] ∧ y ∈ targets) :=
  edges_addEpsilons (fun s ↦ s.id_join targets) (fun s _ ↦ s.mem_addEpsilons targets) hend

namespace Fragment

theorem joinEnd_accepting (h : Fragment a) (hs : s ∈ joinEnd a targets) : s.accepting = false := by
  obtain ⟨r, hr, -, hacc, -⟩ := mem_joinEnd hs
  by_contra hne
  have htrue := hacc (Bool.eq_true_of_not_eq_false hne)
  exact htrue.2 ((h.accepting_iff r hr).mp htrue.1)

end Fragment

def wrapStates (id : ℕ) (targets : List ℕ) (inner : List State) : List State :=
  openingState id targets :: nfaStateCreate (id + 1) true :: inner

section Wrap

variable {old inner : List State} {id : ℕ}

theorem stateIds_wrapStates :
    stateIds (wrapStates id targets inner) = id :: (id + 1) :: stateIds inner := by
  simp [wrapStates, stateIds, openingState, nfaStateCreate]

theorem mem_wrapStates :
    s ∈ wrapStates id targets inner ↔
      s = openingState id targets ∨ s = nfaStateCreate (id + 1) true ∨ s ∈ inner := by
  rw [wrapStates, mem_cons, mem_cons]

theorem edges_wrapStates :
    edges (wrapStates id targets inner) x l y ↔
      edges inner x l y ∨ (x = id ∧ l = [] ∧ y ∈ targets) := by
  simp only [edges, mem_wrapStates, openingState, or_and_right, exists_or, exists_eq_left,
    State.id_addEpsilons, State.mem_addEpsilons, nfaStateCreate, not_mem_nil, false_and,
    exists_false, and_false, false_or]
  constructor
  · rintro (⟨rfl, t, ⟨z, hz, rfl⟩, hl, hy⟩ | h)
    · cases hy
      exact .inr ⟨rfl, hl.symm, hz⟩
    · exact .inl h
  · rintro (h | ⟨rfl, rfl, hy⟩)
    · exact .inr h
    · exact .inl ⟨rfl, ⟨none, some y⟩, ⟨y, hy, rfl⟩, rfl, rfl⟩

theorem Sound.wrap (hold : Sound old) (hids : stateIds inner = stateIds old)
    (hfresh : ∀ x ∈ stateIds old, x < id)
    (hext : ∀ s ∈ inner, ∀ t ∈ s.transitions, (∃ r ∈ old, r.id = s.id ∧ t ∈ r.transitions) ∨
      ∃ y, t = ⟨none, some y⟩ ∧ (y ∈ stateIds old ∨ y = id + 1))
    (htargets : ∀ y ∈ targets, y ∈ stateIds old ∨ y = id + 1) :
    Sound (wrapStates id targets inner) := by
  have hmem : ∀ y, y ∈ stateIds old ∨ y = id + 1 →
      y ∈ stateIds (wrapStates id targets inner) := by
    intro y hy
    rw [stateIds_wrapStates, hids, mem_cons, mem_cons]
    exact .inr hy.symm
  apply hold.extend
  · rw [stateIds_wrapStates, hids, nodup_cons, nodup_cons, mem_cons, not_or]
    have hnot : ∀ y, id ≤ y → y ∉ stateIds old := fun y hy h ↦ absurd (hfresh y h) (by omega)
    exact ⟨⟨by omega, hnot id le_rfl⟩, hnot (id + 1) (by omega), hold.nodup⟩
  · exact fun x hx ↦ hmem x (.inl hx)
  · intro s hs t ht
    rcases mem_wrapStates.mp hs with rfl | rfl | hs
    · rw [openingState, State.mem_addEpsilons] at ht
      obtain ht | ⟨y, hy, rfl⟩ := ht
      · exact absurd ht not_mem_nil
      · exact .inr ⟨rfl, y, hmem y (htargets y hy), rfl⟩
    · exact absurd ht not_mem_nil
    · rcases hext s hs t ht with hkeep | ⟨y, rfl, hy⟩
      · exact .inl hkeep
      · exact .inr ⟨rfl, y, hmem y hy, rfl⟩

/-- States put between an opening and a closing state form a fragment. -/
theorem Fragment.wrap (hsound : Sound (wrapStates id targets inner))
    (hfresh : ∀ x ∈ stateIds inner, x < id) (hacc : ∀ s ∈ inner, s.accepting = false)
    (hentry : ∃ y ∈ targets, y ∈ stateIds inner)
    (hreach : ∀ x ∈ stateIds inner, ∃ y ∈ targets, ∃ u, Walk (edges inner) y u x)
    (hcoreach : ∀ x ∈ stateIds inner, ∃ v, Walk (edges inner) x v (id + 1)) :
    Fragment ⟨.nfa, id, id + 1, wrapStates id targets inner⟩ := by
  have hmem : ∀ x, x ∈ stateIds (wrapStates id targets inner) ↔
      x = id ∨ x = id + 1 ∨ x ∈ stateIds inner := by
    intro x
    rw [stateIds_wrapStates, mem_cons, mem_cons]
  have hinner : ∀ x l y, edges inner x l y → edges (wrapStates id targets inner) x l y :=
    fun x l y h ↦ edges_wrapStates.mpr (.inl h)
  have hopen : ∀ y ∈ targets, Walk (edges (wrapStates id targets inner)) id [] y :=
    fun y hy ↦ Walk.single (edges_wrapStates.mpr (.inr ⟨rfl, rfl, hy⟩))
  have hthrough : ∃ v, Walk (edges (wrapStates id targets inner)) id v (id + 1) := by
    obtain ⟨y, hy, hmem⟩ := hentry
    obtain ⟨v, hv⟩ := hcoreach y hmem
    exact ⟨_, (hopen y hy).append (hv.mono hinner)⟩
  refine ⟨rfl, hsound, (hmem _).mpr (.inl rfl), (hmem _).mpr (.inr (.inl rfl)), ?_, ?_, ?_⟩
  · intro s hs
    rcases mem_wrapStates.mp hs with rfl | rfl | hs
    · simp [openingState, nfaStateCreate]
    · simp [nfaStateCreate]
    · have hid := hfresh s.id (mem_stateIds.mpr ⟨s, hs, rfl⟩)
      simp only [hacc s hs, Bool.false_eq_true, false_iff]
      omega
  · intro x hx
    rcases (hmem x).mp hx with rfl | rfl | hx
    · exact ⟨[], Walk.nil _⟩
    · exact hthrough
    · obtain ⟨y, hy, u, hu⟩ := hreach x hx
      exact ⟨_, (hopen y hy).append (hu.mono hinner)⟩
  · intro x hx
    rcases (hmem x).mp hx with rfl | rfl | hx
    · exact hthrough
    · exact ⟨[], Walk.nil _⟩
    · obtain ⟨v, hv⟩ := hcoreach x hx
      exact ⟨v, hv.mono hinner⟩

theorem nfaFragmentCreate_opening (id : ℕ) (targets : List ℕ) (inner : List State) :
    nfaFragmentCreate (openingState id targets) (nfaStateCreate (id + 1) true) inner =
      ⟨.nfa, id, id + 1, wrapStates id targets inner⟩ := by
  simp [nfaFragmentCreate, openingState, nfaStateCreate, wrapStates]

end Wrap

theorem joinEnd_transition (hs : s ∈ joinEnd a targets) (ht : t ∈ s.transitions) :
    (∃ r ∈ a.states, r.id = s.id ∧ t ∈ r.transitions) ∨ ∃ y, t = ⟨none, some y⟩ ∧ y ∈ targets := by
  obtain ⟨r, hr, hid, -, htransition⟩ := mem_joinEnd hs
  rcases (htransition t).mp ht with ht | ⟨-, y, hy, rfl⟩
  · exact .inl ⟨r, hr, hid, ht⟩
  · exact .inr ⟨y, rfl, hy⟩

variable {id : ℕ}

theorem edges_labelFragment {c : Char} :
    edges (labelFragment id [c]).states x l y ↔ x = id ∧ l = [c] ∧ y = id + 1 := by
  constructor
  · rintro ⟨s, hs, rfl, t, ht, rfl, hy⟩
    simp only [labelFragment, nfaFragmentCreate, mem_cons, not_mem_nil, or_false] at hs
    obtain rfl | rfl := hs
    · obtain ht | rfl := State.mem_addTransition.mp ht
      · exact absurd ht not_mem_nil
      · cases hy
        exact ⟨State.id_addTransition, rfl, rfl⟩
    · exact absurd ht not_mem_nil
  · rintro ⟨rfl, rfl, rfl⟩
    exact ⟨_, mem_cons_self, State.id_addTransition, ⟨some [c], some (x + 1)⟩,
      State.mem_addTransition.mpr (.inr rfl), rfl, rfl⟩

theorem stateIds_labelFragment (id : ℕ) (label : List Char) :
    stateIds (labelFragment id label).states = [id, id + 1] := by
  simp [stateIds, labelFragment, nfaFragmentCreate, nfaStateCreate]

theorem fragment_label (id : ℕ) (c : Char) : Fragment (labelFragment id [c]) := by
  have hmem : ∀ x, x ∈ stateIds (labelFragment id [c]).states ↔ x = id ∨ x = id + 1 := by
    simp [stateIds_labelFragment]
  have htransition : ∀ s ∈ (labelFragment id [c]).states, ∀ t ∈ s.transitions,
      t = ⟨some [c], some (id + 1)⟩ := by
    intro s hs t ht
    simp only [labelFragment, nfaFragmentCreate, mem_cons, not_mem_nil, or_false] at hs
    obtain rfl | rfl := hs
    · exact (State.mem_addTransition.mp ht).resolve_left not_mem_nil
    · exact absurd ht not_mem_nil
  have hread : Walk (edges (labelFragment id [c]).states) id [c] (id + 1) :=
    Walk.single (edges_labelFragment.mpr ⟨rfl, rfl, rfl⟩)
  have hstart : (labelFragment id [c]).start = id := State.id_addTransition
  refine ⟨rfl, ⟨?_, ?_, ?_, ?_⟩, ?_, ?_, ?_, ?_, ?_⟩
  · rw [stateIds_labelFragment]
    simp
  · intro s hs t ht
    exact ⟨id + 1, (hmem _).mpr (.inr rfl), by rw [htransition s hs t ht]⟩
  · intro s hs t ht l hl
    rw [htransition s hs t ht] at hl
    cases hl
    rfl
  · intro x l y hxy _ l' z hyz
    rw [edges_labelFragment] at hxy hyz
    omega
  · exact (hmem _).mpr (.inl hstart)
  · exact (hmem _).mpr (.inr rfl)
  · simp [labelFragment, nfaFragmentCreate, nfaStateCreate]
  · intro x hx
    rcases (hmem x).mp hx with rfl | rfl
    exacts [⟨_, Walk.nil _⟩, ⟨_, hread⟩]
  · intro x hx
    rcases (hmem x).mp hx with rfl | rfl
    exacts [⟨_, hread⟩, ⟨_, Walk.nil _⟩]

theorem words_label (id : ℕ) (c : Char) : (labelFragment id [c]).words = {[c]} := by
  ext w
  constructor
  · intro hw
    rcases walk_iff.mp hw with ⟨-, h⟩ | ⟨l, y, v, hedge, hrest, rfl⟩
    · exact absurd h (Nat.ne_add_one id)
    · obtain ⟨-, rfl, rfl⟩ := edges_labelFragment.mp hedge
      have hsink : ∀ l z, ¬ edges (labelFragment id [c]).states (id + 1) l z := by
        intro l z h
        exact absurd (edges_labelFragment.mp h).1 (Nat.succ_ne_self id)
      rw [(hrest.of_sink hsink).1]
      rfl
  · rintro rfl
    exact Walk.single (edges_labelFragment.mpr ⟨rfl, rfl, rfl⟩)

theorem Fragment.modify_accepting (h : Fragment b) :
    modifyState b.states b.endState (fun s ↦ { s with accepting := true }) = b.states := by
  conv_rhs => rw [← map_id b.states]
  apply map_congr_left
  intro s hs
  split_ifs with hid
  · have hacc := (h.accepting_iff s hs).mpr hid
    rw [id, ← hacc]
  · rfl

theorem edges_concatenation (ha : Fragment a) (hb : Fragment b) :
    edges (concatenation a b).states x l y ↔
      edges a.states x l y ∨ edges b.states x l y ∨ (x = a.endState ∧ l = [] ∧ y = b.start) := by
  rw [concatenation, hb.modify_accepting, edges_append, edges_joinEnd ha.end_mem, mem_singleton]
  rw [or_assoc, or_congr_right or_comm]

theorem stateIds_concatenation (hb : Fragment b) :
    stateIds (concatenation a b).states = stateIds a.states ++ stateIds b.states := by
  rw [concatenation, hb.modify_accepting, stateIds_append, joinEnd_ids]

section TwoFragments

variable (ha : Fragment a) (hb : Fragment b)
  (hdisjoint : Disjoint (stateIds a.states) (stateIds b.states))

include ha hb hdisjoint

theorem fragment_concatenation : Fragment (concatenation a b) := by
  have hedge := fun x l y ↦ edges_concatenation (x := x) (l := l) (y := y) ha hb
  have hfirst : ∀ x l y, edges a.states x l y → edges (concatenation a b).states x l y :=
    fun x l y h ↦ (hedge x l y).mpr (.inl h)
  have hsecond : ∀ x l y, edges b.states x l y → edges (concatenation a b).states x l y :=
    fun x l y h ↦ (hedge x l y).mpr (.inr (.inl h))
  have hjoin : Walk (edges (concatenation a b).states) a.endState [] b.start :=
    Walk.single ((hedge _ _ _).mpr (.inr (.inr ⟨rfl, rfl, rfl⟩)))
  have hmem : ∀ x, x ∈ stateIds (concatenation a b).states ↔
      x ∈ stateIds a.states ∨ x ∈ stateIds b.states := by
    intro x
    rw [stateIds_concatenation hb, mem_append]
  have hstates : ∀ s ∈ (concatenation a b).states, s ∈ joinEnd a [b.start] ∨ s ∈ b.states := by
    intro s hs
    rw [concatenation, hb.modify_accepting] at hs
    exact mem_append.mp hs
  refine ⟨rfl, ?_, (hmem _).mpr (.inl ha.start_mem), (hmem _).mpr (.inr hb.end_mem), ?_, ?_, ?_⟩
  · apply (ha.sound.append hb.sound hdisjoint).extend
    · rw [stateIds_concatenation hb]
      exact Nodup.append ha.sound.nodup hb.sound.nodup hdisjoint
    · rw [stateIds_concatenation hb, stateIds_append]
      exact Subset.refl _
    · intro s hs t ht
      rcases hstates s hs with hs | hs
      · rcases joinEnd_transition hs ht with ⟨r, hr, hid, ht⟩ | ⟨y, rfl, hy⟩
        · exact .inl ⟨r, mem_append_left _ hr, hid, ht⟩
        · rw [mem_singleton.mp hy]
          exact .inr ⟨rfl, b.start, (hmem _).mpr (.inr hb.start_mem), rfl⟩
      · exact .inl ⟨s, mem_append_right _ hs, rfl, ht⟩
  · intro s hs
    rcases hstates s hs with hs | hs
    · have hid : s.id ∈ stateIds a.states := by
        rw [← joinEnd_ids a [b.start]]
        exact mem_stateIds.mpr ⟨s, hs, rfl⟩
      simp only [ha.joinEnd_accepting hs, Bool.false_eq_true, false_iff]
      intro hend
      exact hdisjoint (hend ▸ hid) hb.end_mem
    · exact hb.accepting_iff s hs
  · intro x hx
    rcases (hmem x).mp hx with hx | hx
    · obtain ⟨u, hu⟩ := ha.reach x hx
      exact ⟨u, hu.mono hfirst⟩
    · obtain ⟨u, hu⟩ := ha.reach a.endState ha.end_mem
      obtain ⟨v, hv⟩ := hb.reach x hx
      exact ⟨_, (hu.mono hfirst).append (hjoin.append (hv.mono hsecond))⟩
  · intro x hx
    rcases (hmem x).mp hx with hx | hx
    · obtain ⟨u, hu⟩ := ha.coreach x hx
      obtain ⟨v, hv⟩ := hb.coreach b.start hb.start_mem
      exact ⟨_, (hu.mono hfirst).append (hjoin.append (hv.mono hsecond))⟩
    · obtain ⟨v, hv⟩ := hb.coreach x hx
      exact ⟨v, hv.mono hsecond⟩

theorem words_concatenation : (concatenation a b).words = a.words * b.words :=
  words_series ha.sound.within hb.sound.within (Set.disjoint_left.mpr fun _ h ↦ hdisjoint h)
    ha.start_mem ha.end_mem hb.start_mem hb.end_mem fun _ _ _ ↦ edges_concatenation ha hb

end TwoFragments

theorem edges_plusFragment (h : Fragment a) :
    edges (plusFragment a).states x l y ↔
      edges a.states x l y ∨ (x = a.endState ∧ l = [] ∧ y = a.start) := by
  have hadd : ∀ (s : State) t, t ∈ (s.addTransition none (some a.start)).transitions ↔
      t ∈ s.transitions ∨ ∃ z ∈ [a.start], t = ⟨none, some z⟩ := by simp
  rw [plusFragment, edges_addEpsilons (fun _ ↦ State.id_addTransition) hadd h.end_mem,
    mem_singleton]

theorem stateIds_plusFragment (a : Automaton) :
    stateIds (plusFragment a).states = stateIds a.states :=
  stateIds_modifyState fun _ ↦ State.id_addTransition

theorem fragment_plus (h : Fragment a) : Fragment (plusFragment a) := by
  have hkeep : ∀ x l y, edges a.states x l y → edges (plusFragment a).states x l y :=
    fun x l y hedge ↦ (edges_plusFragment h).mpr (.inl hedge)
  have hstates : ∀ s ∈ (plusFragment a).states, ∃ r ∈ a.states, r.id = s.id ∧
      r.accepting = s.accepting ∧
      ∀ t ∈ s.transitions, t ∈ r.transitions ∨ t = ⟨none, some a.start⟩ := by
    intro s hs
    rcases mem_modifyState.mp hs with ⟨r, hr, -, rfl⟩ | ⟨hs, -⟩
    · exact ⟨r, hr, by simp, by simp, fun t ht ↦ State.mem_addTransition.mp ht⟩
    · exact ⟨s, hs, rfl, rfl, fun t ht ↦ .inl ht⟩
  have hids := stateIds_plusFragment a
  refine ⟨h.type_eq, ?_, hids ▸ h.start_mem, hids ▸ h.end_mem, ?_, ?_, ?_⟩
  · apply h.sound.extend (hids ▸ h.sound.nodup) (hids ▸ Subset.refl _)
    intro s hs t ht
    obtain ⟨r, hr, hid, -, htransition⟩ := hstates s hs
    rcases htransition t ht with ht | rfl
    · exact .inl ⟨r, hr, hid, ht⟩
    · exact .inr ⟨rfl, a.start, hids ▸ h.start_mem, rfl⟩
  · intro s hs
    obtain ⟨r, hr, hid, hacc, -⟩ := hstates s hs
    rw [← hid, ← hacc]
    exact h.accepting_iff r hr
  · intro x hx
    obtain ⟨u, hu⟩ := h.reach x (hids ▸ hx)
    exact ⟨u, hu.mono hkeep⟩
  · intro x hx
    obtain ⟨v, hv⟩ := h.coreach x (hids ▸ hx)
    exact ⟨v, hv.mono hkeep⟩

theorem words_plus (h : Fragment a) : (plusFragment a).words = a.words * a.words∗ :=
  words_loop a.start fun _ _ _ ↦ edges_plusFragment h

theorem fragment_bypass (h : Fragment a) (hfresh : ∀ x ∈ stateIds a.states, x < id)
    (htargets : ∀ y ∈ targets, y = a.start ∨ y = id + 1) (hclose : id + 1 ∈ targets) :
    Fragment (nfaFragmentCreate (openingState id [a.start, id + 1]) (nfaStateCreate (id + 1) true)
      (joinEnd a targets)) := by
  have hids := joinEnd_ids a targets
  have hinner : ∀ x l y, edges a.states x l y → edges (joinEnd a targets) x l y :=
    fun x l y hedge ↦ (edges_joinEnd h.end_mem).mpr (.inl hedge)
  rw [nfaFragmentCreate_opening]
  apply Fragment.wrap
  · apply h.sound.wrap hids hfresh
    · intro s hs t ht
      rcases joinEnd_transition hs ht with hkeep | ⟨y, rfl, hy⟩
      · exact .inl hkeep
      · refine .inr ⟨y, rfl, (htargets y hy).imp_left ?_⟩
        rintro rfl
        exact h.start_mem
    · intro y hy
      simp only [mem_cons, not_mem_nil, or_false] at hy
      rcases hy with rfl | rfl
      exacts [.inl h.start_mem, .inr rfl]
  · rw [hids]
    exact hfresh
  · exact fun s hs ↦ h.joinEnd_accepting hs
  · exact ⟨a.start, mem_cons_self, hids ▸ h.start_mem⟩
  · intro x hx
    obtain ⟨u, hu⟩ := h.reach x (hids ▸ hx)
    exact ⟨a.start, mem_cons_self, u, hu.mono hinner⟩
  · intro x hx
    obtain ⟨v, hv⟩ := h.coreach x (hids ▸ hx)
    have hlast : edges (joinEnd a targets) a.endState [] (id + 1) :=
      (edges_joinEnd h.end_mem).mpr (.inr ⟨rfl, rfl, hclose⟩)
    exact ⟨_, (hv.mono hinner).append (Walk.single hlast)⟩

theorem words_bypassed (inner : WordGraph ℕ Char) (h : Fragment a)
    (hfresh : ∀ x ∈ stateIds a.states, x < id) (hwithin : Within inner {x | x ∈ stateIds a.states})
    (hinner : ∀ x l y, edges (joinEnd a targets) x l y ↔
      inner x l y ∨ (x = a.endState ∧ l = [] ∧ y = id + 1)) :
    (nfaFragmentCreate (openingState id [a.start, id + 1]) (nfaStateCreate (id + 1) true)
      (joinEnd a targets)).words = 1 + words inner a.start a.endState := by
  have hshell : Shell (edges (wrapStates id [a.start, id + 1] (joinEnd a targets))) inner
      {x | x ∈ stateIds a.states} id (id + 1) {a.start, id + 1} {a.endState} := by
    refine ⟨hwithin, fun hid ↦ ?_, fun hid ↦ ?_, by omega, ?_, fun x l y ↦ ?_⟩
    · exact absurd (hfresh id hid) (lt_irrefl id)
    · exact absurd (hfresh (id + 1) hid) (by omega)
    · rintro x rfl
      exact h.end_mem
    · rw [edges_wrapStates, hinner, or_assoc, or_congr_right or_comm]
      simp
  rw [nfaFragmentCreate_opening]
  exact hshell.words_bypass h.start_mem

section

variable (h : Fragment a) (hfresh : ∀ x ∈ stateIds a.states, x < id)
include h hfresh

theorem fragment_star : Fragment (starFragment id a) :=
  fragment_bypass h hfresh (by simp) (by simp)

theorem words_star : (starFragment id a).words = a.words∗ := by
  have hloop : words (edges (plusFragment a).states) a.start a.endState = a.words * a.words∗ :=
    words_plus h
  rw [starFragment, words_bypassed (edges (plusFragment a).states) h hfresh, hloop,
    Language.one_add_self_mul_kstar_eq_kstar]
  · intro x l y hedge
    have hwithin := (fragment_plus h).sound.within x l y hedge
    simpa only [stateIds_plusFragment] using hwithin
  · intro x l y
    rw [edges_joinEnd h.end_mem, edges_plusFragment h, or_assoc]
    simp only [mem_cons, not_mem_nil, or_false, and_or_left]

theorem fragment_question : Fragment (questionFragment id a) :=
  fragment_bypass h hfresh (by simp) (by simp)

theorem words_question : (questionFragment id a).words = 1 + a.words := by
  apply words_bypassed (edges a.states) h hfresh h.sound.within
  intro x l y
  rw [edges_joinEnd h.end_mem, mem_singleton]

end

section Alternation

variable (ha : Fragment a) (hb : Fragment b)
  (hdisjoint : Disjoint (stateIds a.states) (stateIds b.states))
  (hfresha : ∀ x ∈ stateIds a.states, x < id) (hfreshb : ∀ x ∈ stateIds b.states, x < id)

include ha hb hdisjoint hfresha hfreshb

theorem sound_joinBoth :
    Sound (wrapStates id [a.start, b.start] (joinEnd a [id + 1] ++ joinEnd b [id + 1])) := by
  have hids : stateIds (joinEnd a [id + 1] ++ joinEnd b [id + 1]) =
      stateIds (a.states ++ b.states) := by
    rw [stateIds_append, joinEnd_ids, joinEnd_ids, stateIds_append]
  have hmem : ∀ x, x ∈ stateIds (a.states ++ b.states) ↔
      x ∈ stateIds a.states ∨ x ∈ stateIds b.states := by
    simp [stateIds_append]
  apply (ha.sound.append hb.sound hdisjoint).wrap hids
  · intro x hx
    rcases (hmem x).mp hx with hx | hx
    exacts [hfresha x hx, hfreshb x hx]
  · intro s hs t ht
    rcases mem_append.mp hs with hs | hs
    · rcases joinEnd_transition hs ht with ⟨r, hr, h⟩ | ⟨y, rfl, hy⟩
      · exact .inl ⟨r, mem_append_left _ hr, h⟩
      · exact .inr ⟨y, rfl, .inr (mem_singleton.mp hy)⟩
    · rcases joinEnd_transition hs ht with ⟨r, hr, h⟩ | ⟨y, rfl, hy⟩
      · exact .inl ⟨r, mem_append_right _ hr, h⟩
      · exact .inr ⟨y, rfl, .inr (mem_singleton.mp hy)⟩
  · intro y hy
    simp only [mem_cons, not_mem_nil, or_false] at hy
    rcases hy with rfl | rfl
    · exact .inl ((hmem _).mpr (.inl ha.start_mem))
    · exact .inl ((hmem _).mpr (.inr hb.start_mem))

theorem fragment_alternation : Fragment (alternation id a b) := by
  have hmem : ∀ x, x ∈ stateIds (joinEnd a [id + 1] ++ joinEnd b [id + 1]) ↔
      x ∈ stateIds a.states ∨ x ∈ stateIds b.states := by
    intro x
    rw [stateIds_append, mem_append, joinEnd_ids, joinEnd_ids]
  have hedgea : ∀ x l y, edges a.states x l y ∨ (x = a.endState ∧ l = [] ∧ y ∈ [id + 1]) →
      edges (joinEnd a [id + 1] ++ joinEnd b [id + 1]) x l y :=
    fun x l y h ↦ edges_append.mpr (.inl ((edges_joinEnd ha.end_mem).mpr h))
  have hedgeb : ∀ x l y, edges b.states x l y ∨ (x = b.endState ∧ l = [] ∧ y ∈ [id + 1]) →
      edges (joinEnd a [id + 1] ++ joinEnd b [id + 1]) x l y :=
    fun x l y h ↦ edges_append.mpr (.inr ((edges_joinEnd hb.end_mem).mpr h))
  have hinnera := fun x l y h ↦ hedgea x l y (.inl h)
  have hinnerb := fun x l y h ↦ hedgeb x l y (.inl h)
  rw [alternation, nfaFragmentCreate_opening]
  apply Fragment.wrap (sound_joinBoth ha hb hdisjoint hfresha hfreshb)
  · intro x hx
    rcases (hmem x).mp hx with hx | hx
    exacts [hfresha x hx, hfreshb x hx]
  · intro s hs
    rcases mem_append.mp hs with hs | hs
    exacts [ha.joinEnd_accepting hs, hb.joinEnd_accepting hs]
  · exact ⟨a.start, by simp, (hmem _).mpr (.inl ha.start_mem)⟩
  · intro x hx
    rcases (hmem x).mp hx with hx | hx
    · obtain ⟨u, hu⟩ := ha.reach x hx
      exact ⟨a.start, by simp, u, hu.mono hinnera⟩
    · obtain ⟨u, hu⟩ := hb.reach x hx
      exact ⟨b.start, by simp, u, hu.mono hinnerb⟩
  · intro x hx
    rcases (hmem x).mp hx with hx | hx
    · obtain ⟨v, hv⟩ := ha.coreach x hx
      exact ⟨_, (hv.mono hinnera).append (Walk.single (hedgea _ _ _ (.inr ⟨rfl, rfl, by simp⟩)))⟩
    · obtain ⟨v, hv⟩ := hb.coreach x hx
      exact ⟨_, (hv.mono hinnerb).append (Walk.single (hedgeb _ _ _ (.inr ⟨rfl, rfl, by simp⟩)))⟩

theorem words_alternation : (alternation id a b).words = a.words + b.words := by
  have hunion : ∀ y, id ≤ y → y ∉ {x | x ∈ stateIds a.states} ∪ {x | x ∈ stateIds b.states} := by
    rintro y hy (h | h)
    exacts [absurd (hfresha y h) (by omega), absurd (hfreshb y h) (by omega)]
  rw [alternation, nfaFragmentCreate_opening]
  apply words_beside ha.sound.within hb.sound.within
    (Set.disjoint_left.mpr fun _ h ↦ hdisjoint h) ha.start_mem ha.end_mem hb.start_mem hb.end_mem
  refine ⟨?_, hunion id le_rfl, hunion (id + 1) (by omega), Nat.ne_add_one id, ?_, fun x l y ↦ ?_⟩
  · rintro x l y (h | h)
    · exact (ha.sound.within.mono Set.subset_union_left) x l y h
    · exact (hb.sound.within.mono Set.subset_union_right) x l y h
  · rintro x (rfl | rfl)
    exacts [.inl ha.end_mem, .inr hb.end_mem]
  · rw [edges_wrapStates, edges_append, edges_joinEnd ha.end_mem, edges_joinEnd hb.end_mem]
    grind

end Alternation

end Gnunet.Regex
