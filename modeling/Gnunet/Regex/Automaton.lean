import Gnunet.Lib.LabelledGraph

/-!
# Automata of the regex library

States are kept in the list of the automaton that owns them and are referred to by their number,
which plays the role of the pointers between the structures of the source.  A transition without
label is an epsilon transition; its target is missing while the automaton is being built.
-/

namespace Gnunet.Regex

open Lib.LabelledGraph List

structure Transition where
  label : Option (List Char)
  toState : Option ℕ
  deriving DecidableEq

structure State where
  id : ℕ
  accepting : Bool
  transitions : List Transition
  deriving DecidableEq

inductive AutomatonType
  | nfa
  | dfa
  deriving DecidableEq

structure Automaton where
  type : AutomatonType
  start : ℕ
  endState : ℕ
  states : List State
  deriving DecidableEq

def strcmpGreater (str1 str2 : List Char) : Bool := decide (str2 < str1)

/-- Strings that are not both missing or both present compare as less. -/
def nullstrcmpGreater : Option (List Char) → Option (List Char) → Bool
  | some str1, some str2 => strcmpGreater str1 str2
  | _, _ => false

/-- No transition is added twice, and transitions are sorted by label. -/
def State.addTransition (fromState : State) (label : Option (List Char)) (toState : Option ℕ) :
    State :=
  if ⟨label, toState⟩ ∈ fromState.transitions then fromState
  else
    let isBefore (other : Transition) : Bool := !nullstrcmpGreater other.label label
    { fromState with
      transitions := fromState.transitions.takeWhile isBefore ++
        ⟨label, toState⟩ :: fromState.transitions.dropWhile isBefore }

namespace State

variable {s : State} {label : Option (List Char)} {toState : Option ℕ} {t : Transition}

@[simp] theorem id_addTransition : (s.addTransition label toState).id = s.id := by
  rw [addTransition]
  split_ifs <;> rfl

@[simp] theorem accepting_addTransition :
    (s.addTransition label toState).accepting = s.accepting := by
  rw [addTransition]
  split_ifs <;> rfl

@[simp] theorem mem_addTransition :
    t ∈ (s.addTransition label toState).transitions ↔
      t ∈ s.transitions ∨ t = ⟨label, toState⟩ := by
  rw [addTransition]
  split_ifs with h
  · constructor
    · exact .inl
    · rintro (ht | rfl)
      exacts [ht, h]
  · simp only [mem_append, mem_cons]
    rw [or_left_comm, ← mem_append, takeWhile_append_dropWhile, or_comm]

end State

def Transition.word (t : Transition) : List Char := t.label.getD []

def stateIds (states : List State) : List ℕ := states.map State.id

def edges (states : List State) : WordGraph ℕ Char := fun x l y ↦
  ∃ s ∈ states, s.id = x ∧ ∃ t ∈ s.transitions, t.word = l ∧ t.toState = some y

def modifyState (states : List State) (id : ℕ) (f : State → State) : List State :=
  states.map fun s ↦ if s.id = id then f s else s

section Modify

variable {states : List State} {id : ℕ} {f : State → State} {s : State}

theorem stateIds_modifyState (hf : ∀ s, (f s).id = s.id) :
    stateIds (modifyState states id f) = stateIds states := by
  simp only [stateIds, modifyState, map_map]
  apply map_congr_left
  intro s _
  simp only [Function.comp_apply]
  split_ifs
  · exact hf s
  · rfl

theorem mem_modifyState :
    s ∈ modifyState states id f ↔
      (∃ r ∈ states, r.id = id ∧ s = f r) ∨ (s ∈ states ∧ s.id ≠ id) := by
  rw [modifyState, mem_map]
  constructor
  · rintro ⟨r, hr, rfl⟩
    by_cases hid : r.id = id
    · rw [if_pos hid]
      exact .inl ⟨r, hr, hid, rfl⟩
    · rw [if_neg hid]
      exact .inr ⟨hr, hid⟩
  · rintro (⟨r, hr, hid, rfl⟩ | ⟨hs, hid⟩)
    · exact ⟨r, hr, if_pos hid⟩
    · exact ⟨s, hs, if_neg hid⟩

theorem edges_modifyState (hf : ∀ s, (f s).id = s.id) {x y : ℕ} {l : List Char} :
    edges (modifyState states id f) x l y ↔
      (x ≠ id ∧ edges states x l y) ∨
        (x = id ∧ ∃ s ∈ states, s.id = id ∧ ∃ t ∈ (f s).transitions,
          t.word = l ∧ t.toState = some y) := by
  constructor
  · rintro ⟨s, hs, rfl, t, ht, hl, hy⟩
    rcases mem_modifyState.mp hs with ⟨r, hr, hid, rfl⟩ | ⟨hs, hid⟩
    · exact .inr ⟨(hf r).trans hid, r, hr, hid, t, ht, hl, hy⟩
    · exact .inl ⟨hid, s, hs, rfl, t, ht, hl, hy⟩
  · rintro (⟨hx, s, hs, rfl, t, ht, hl, hy⟩ | ⟨rfl, s, hs, hid, t, ht, hl, hy⟩)
    · exact ⟨s, mem_modifyState.mpr (.inr ⟨hs, hx⟩), rfl, t, ht, hl, hy⟩
    · exact ⟨f s, mem_modifyState.mpr (.inl ⟨s, hs, hid, rfl⟩), (hf s).trans hid, t, ht, hl, hy⟩

end Modify

theorem edges_append {first second : List State} {x y : ℕ} {l : List Char} :
    edges (first ++ second) x l y ↔ edges first x l y ∨ edges second x l y := by
  simp only [edges, mem_append]
  constructor
  · rintro ⟨s, hs | hs, h⟩
    exacts [.inl ⟨s, hs, h⟩, .inr ⟨s, hs, h⟩]
  · rintro (⟨s, hs, h⟩ | ⟨s, hs, h⟩)
    exacts [⟨s, .inl hs, h⟩, ⟨s, .inr hs, h⟩]

variable {states : List State}

theorem mem_stateIds {x : ℕ} :
    x ∈ stateIds states ↔ ∃ s ∈ states, s.id = x := mem_map

theorem edges_mem_stateIds {x y : ℕ} {l : List Char} (h : edges states x l y) :
    x ∈ stateIds states := by
  obtain ⟨s, hs, hx, -⟩ := h
  exact mem_stateIds.mpr ⟨s, hs, hx⟩

theorem find_state (hnodup : (stateIds states).Nodup) {s : State} (hs : s ∈ states) :
    states.find? (fun r ↦ r.id == s.id) = some s := by
  induction states with
  | nil => exact absurd hs not_mem_nil
  | cons r states ih =>
    obtain ⟨hnot, hrest⟩ := nodup_cons.mp hnodup
    rcases mem_cons.mp hs with rfl | hs
    · simp
    · have hne : (r.id == s.id) = false := by
        rw [beq_eq_false_iff_ne]
        intro heq
        apply hnot
        rw [heq]
        exact mem_stateIds.mpr ⟨s, hs, rfl⟩
      rw [find?_cons, hne]
      exact ih hrest hs

theorem of_find_state {s : State} {id : ℕ} (h : states.find? (fun r ↦ r.id == id) = some s) :
    s ∈ states ∧ s.id = id :=
  ⟨mem_of_find?_eq_some h, beq_iff_eq.mp (find?_some (p := fun r : State ↦ r.id == id) h)⟩

end Gnunet.Regex
