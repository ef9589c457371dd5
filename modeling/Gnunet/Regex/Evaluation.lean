import Gnunet.Regex.Fragments

/-!
# Evaluation of NFAs

The closures computed by the library are reachability along transitions of one label, and
evaluating a fragment on a string tells whether the string is among the words the fragment reads.
-/

namespace Gnunet.Regex

open Lib Lib.LabelledGraph List

variable {a : Automaton} {x y : ℕ} {label : Option (List Char)} {c : Char} {states : List ℕ}

section

variable (h : Sound a.states)
include h

theorem mem_successors :
    y ∈ successors a label x ↔
      ∃ s ∈ a.states, s.id = x ∧ ⟨label, some y⟩ ∈ s.transitions := by
  have htargets : ∀ s : State,
      y ∈ (s.transitions.filter fun t ↦ t.label = label).filterMap Transition.toState ↔
        ⟨label, some y⟩ ∈ s.transitions := by
    intro s
    rw [mem_filterMap]
    constructor
    · rintro ⟨t, ht, hy⟩
      obtain ⟨hmem, hlabel⟩ := mem_filter.mp ht
      rw [← of_decide_eq_true hlabel, ← hy]
      exact hmem
    · intro ht
      exact ⟨_, mem_filter.mpr ⟨ht, decide_eq_true rfl⟩, rfl⟩
  constructor
  · intro hy
    rw [successors] at hy
    split at hy
    · exact absurd hy not_mem_nil
    · rename_i s hfind
      obtain ⟨hs, hx⟩ := of_find_state hfind
      exact ⟨s, hs, hx, (htargets s).mp hy⟩
  · rintro ⟨s, hs, rfl, ht⟩
    rw [successors, find_state h.nodup hs]
    exact (htargets s).mpr ht

theorem word_eq_nil {s : State} {t : Transition} (hs : s ∈ a.states)
    (ht : t ∈ s.transitions) : t.word = [] ↔ t.label = none := by
  rw [Transition.word]
  cases hlabel : t.label with
  | none => simp
  | some l =>
    have hlength := h.label s hs t ht l hlabel
    simp only [reduceCtorEq, iff_false]
    rintro rfl
    cases hlength

theorem mem_successors_none :
    y ∈ successors a none x ↔ edges a.states x [] y := by
  rw [mem_successors h]
  constructor
  · rintro ⟨s, hs, hx, ht⟩
    exact ⟨s, hs, hx, _, ht, rfl, rfl⟩
  · rintro ⟨s, hs, hx, t, ht, hl, hy⟩
    rw [word_eq_nil h hs ht] at hl
    rw [← hl, ← hy]
    exact ⟨s, hs, hx, ht⟩

theorem mem_successors_some {l : List Char} (hl : l ≠ []) :
    y ∈ successors a (some l) x ↔ edges a.states x l y := by
  rw [mem_successors h]
  constructor
  · rintro ⟨s, hs, hx, ht⟩
    exact ⟨s, hs, hx, _, ht, rfl, rfl⟩
  · rintro ⟨s, hs, hx, t, ht, hword, hy⟩
    have hlabel : t.label = some l := by
      rw [Transition.word] at hword
      cases hlabel : t.label with
      | none =>
        rw [hlabel] at hword
        exact absurd hword.symm hl
      | some l' =>
        rw [hlabel] at hword
        exact congrArg some hword
    rw [← hlabel, ← hy]
    exact ⟨s, hs, hx, ht⟩

omit h in
theorem mem_sortStates : y ∈ sortStates states ↔ y ∈ states := by
  rw [sortStates, mem_insertionSort]

theorem mem_nfaClosureCreate :
    y ∈ nfaClosureCreate a x label ↔
      (label = none ∧ y = x) ∨
        Relation.TransGen (fun u v ↦ v ∈ successors a label u) x y := by
  have hnodes : ∀ y, y = x ∨ y ∈ stateIds a.states →
      successors a label y ⊆ stateIds a.states := by
    intro u _ v hv
    obtain ⟨s, hs, -, ht⟩ := (mem_successors h).mp hv
    obtain ⟨z, hz, hvz⟩ := h.target s hs _ ht
    cases hvz
    exact hz
  have hlength : a.states.length = (stateIds a.states).length := (length_map _).symm
  rw [nfaClosureCreate, mem_sortStates, hlength]
  split_ifs with hlabel
  · rw [mem_cons, Worklist.mem_explore hnodes]
    simp [hlabel]
  · rw [Worklist.mem_explore hnodes]
    simp [hlabel]

theorem mem_nfaClosureCreate_none :
    y ∈ nfaClosureCreate a x none ↔ Walk (edges a.states) x [] y := by
  have hsame : (fun u v ↦ v ∈ successors a none u) = fun u v ↦ edges a.states u [] v := by
    funext u v
    exact propext (mem_successors_none h)
  rw [mem_nfaClosureCreate h, walk_nil_iff, Relation.reflTransGen_iff_eq_or_transGen, hsame]
  simp only [true_and]

/-- Labelled transitions do not follow one another, so the closure is one transition. -/
theorem mem_nfaClosureCreate_some :
    y ∈ nfaClosureCreate a x (some [c]) ↔ edges a.states x [c] y := by
  have hsame : (fun u v ↦ v ∈ successors a (some [c]) u) = fun u v ↦ edges a.states u [c] v := by
    funext u v
    exact propext (mem_successors_some h (cons_ne_nil c []))
  rw [mem_nfaClosureCreate h, hsame]
  simp only [reduceCtorEq, false_and, false_or]
  constructor
  · intro hreach
    cases hreach with
    | single hedge => exact hedge
    | tail hbefore hedge =>
      cases hbefore with
      | single hfirst =>
        exact absurd (h.calm _ _ _ hfirst (cons_ne_nil c []) _ _ hedge) (cons_ne_nil c [])
      | tail _ hfirst =>
        exact absurd (h.calm _ _ _ hfirst (cons_ne_nil c []) _ _ hedge) (cons_ne_nil c [])
  · exact fun hedge ↦ Relation.TransGen.single hedge

omit h in
theorem mem_nfaClosureSetCreate :
    y ∈ nfaClosureSetCreate a states label ↔ ∃ x ∈ states, y ∈ nfaClosureCreate a x label := by
  have hinsert : ∀ new cls : List ℕ,
      y ∈ new.foldl (fun cls id ↦ if id ∈ cls then cls else cls ++ [id]) cls ↔
        y ∈ cls ∨ y ∈ new := by
    intro new
    induction new with
    | nil => simp
    | cons z new ih =>
      intro cls
      rw [foldl_cons, ih]
      split_ifs with hz
      · rw [mem_cons]
        constructor
        · rintro (h | h)
          exacts [.inl h, .inr (.inr h)]
        · rintro (h | rfl | h)
          exacts [.inl h, .inl hz, .inr h]
      · rw [mem_append, mem_singleton, mem_cons, or_assoc]
  have hfold : ∀ (states cls : List ℕ),
      y ∈ states.foldl (fun cls id ↦ (nfaClosureCreate a id label).foldl
        (fun cls id ↦ if id ∈ cls then cls else cls ++ [id]) cls) cls ↔
        y ∈ cls ∨ ∃ x ∈ states, y ∈ nfaClosureCreate a x label := by
    intro states
    induction states with
    | nil => simp
    | cons z states ih =>
      intro cls
      rw [foldl_cons, ih, hinsert, or_assoc]
      simp only [mem_cons, exists_eq_or_imp]
  rw [nfaClosureSetCreate, mem_sortStates, hfold]
  simp

omit h in
theorem isAccepting_iff (h : Fragment a) (hx : x ∈ stateIds a.states) :
    isAccepting a x = true ↔ x = a.endState := by
  obtain ⟨s, hs, rfl⟩ := mem_stateIds.mp hx
  rw [isAccepting, find_state h.sound.nodup hs]
  exact h.accepting_iff s hs

theorem Sound.edges_length_le (x : ℕ) (l : List Char) (y : ℕ)
    (hedge : edges a.states x l y) : l.length ≤ 1 := by
  obtain ⟨s, hs, -, t, ht, rfl, -⟩ := hedge
  rw [Transition.word]
  cases hlabel : t.label with
  | none => simp
  | some l => simpa using (h.label s hs t ht l hlabel).le

theorem mem_readCharacter :
    y ∈ nfaClosureSetCreate a (nfaClosureSetCreate a states (some [c])) none ↔
      ∃ x ∈ states, ∃ m, edges a.states x [c] m ∧ Walk (edges a.states) m [] y := by
  simp only [mem_nfaClosureSetCreate, mem_nfaClosureCreate_none h, mem_nfaClosureCreate_some h]
  constructor
  · rintro ⟨m, ⟨x, hx, hedge⟩, hpath⟩
    exact ⟨x, hx, m, hedge, hpath⟩
  · rintro ⟨x, hx, m, hedge, hpath⟩
    exact ⟨m, ⟨x, hx, hedge⟩, hpath⟩

theorem mem_readString (string : List Char)
    (hclosed : ∀ x ∈ states, ∀ y, Walk (edges a.states) x [] y → y ∈ states) :
    y ∈ readString a states string ↔ ∃ x ∈ states, Walk (edges a.states) x string y := by
  induction string generalizing states with
  | nil =>
    constructor
    · exact fun hy ↦ ⟨y, hy, Walk.nil y⟩
    · rintro ⟨x, hx, hpath⟩
      exact hclosed x hx y hpath
  | cons c string ih =>
    rw [readString, foldl_cons, ← readString, ih]
    · constructor
      · rintro ⟨m, hm, hrest⟩
        obtain ⟨x, hx, m', hedge, hpath⟩ := (mem_readCharacter h).mp hm
        exact ⟨x, hx, Walk.cons hedge (hpath.append hrest)⟩
      · rintro ⟨x, hx, hpath⟩
        obtain ⟨m, m', hempty, hedge, hrest⟩ := (walk_cons_iff h.edges_length_le).mp hpath
        exact ⟨m', (mem_readCharacter h).mpr ⟨m, hclosed x hx m hempty, m', hedge, Walk.nil m'⟩,
          hrest⟩
    · intro m hm z hpath
      obtain ⟨x, hx, m', hedge, hbefore⟩ := (mem_readCharacter h).mp hm
      exact (mem_readCharacter h).mpr ⟨x, hx, m', hedge, hbefore.append hpath⟩

theorem mem_readString_start (string : List Char) :
    y ∈ readString a (nfaClosureCreate a a.start none) string ↔
      Walk (edges a.states) a.start string y := by
  rw [mem_readString h]
  · simp only [mem_nfaClosureCreate_none h]
    exact ⟨fun ⟨x, hx, hpath⟩ ↦ hx.append hpath, fun hpath ↦ ⟨_, Walk.nil _, hpath⟩⟩
  · intro x hx y hpath
    rw [mem_nfaClosureCreate_none h] at hx ⊢
    exact hx.append hpath

end

theorem any_readString_start (h : Fragment a) (string : List Char) :
    (readString a (nfaClosureCreate a a.start none) string).any (isAccepting a) = true ↔
      string ∈ a.words := by
  rw [any_eq_true]
  constructor
  · rintro ⟨y, hy, hacc⟩
    rw [mem_readString_start h.sound] at hy
    have hmem := Walk.mem h.sound.within hy h.start_mem
    rw [isAccepting_iff h hmem] at hacc
    rw [hacc] at hy
    exact hy
  · intro hw
    exact ⟨a.endState, (mem_readString_start h.sound string).mpr hw,
      (isAccepting_iff h h.end_mem).mpr rfl⟩

/-- `evaluate_nfa` returns zero exactly on the words the fragment reads. -/
theorem evaluateNfa_eq_zero (h : Fragment a) (string : List Char) :
    evaluateNfa a string = 0 ↔ string ∈ a.words := by
  rw [evaluateNfa, if_neg (not_not.mpr h.type_eq)]
  split_ifs with hempty hacc
  · have hstart := (isAccepting_iff h h.start_mem).mp hempty.2
    have hpath : Walk (edges a.states) a.start [] a.endState := hstart ▸ Walk.nil a.start
    rw [hempty.1]
    exact iff_of_true rfl hpath
  · exact iff_of_true rfl ((any_readString_start h string).mp hacc)
  · exact iff_of_false one_ne_zero fun hw ↦ hacc ((any_readString_start h string).mpr hw)

end Gnunet.Regex
