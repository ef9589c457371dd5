import Gnunet.Lib.KeyedList
import Gnunet.Regex.Automaton

/-!
# Strides

`GNUNET_REGEX_dfa_add_multi_strides` adds transitions that read several characters to a DFA, and
the evaluation takes the longest label that matches.  An added transition stands for a path of the
DFA as it was, so the evaluation ends where it ended before, whichever labels it takes.
-/

namespace Gnunet.Regex

open Lib List
open Option KeyedList Automaton State Transition

def Automaton.state (a : Automaton) (id : ℕ) : Option State :=
  find State.id a.states id

def dfaMove (str : List Char) : List Transition → ℕ → Option ℕ → ℕ × Option ℕ
  | [], maxLen, newS => (maxLen, newS)
  | t :: transitions, maxLen, newS =>
    if t.word <+: str ∧ maxLen ≤ t.word.length then
      dfaMove str transitions t.word.length t.toState
    else dfaMove str transitions maxLen newS

def evaluateLoop (a : Automaton) : ℕ → State → List Char → Option ℤ
  | 0, _, _ => none
  | _ + 1, s, [] => some (if s.accepting then 0 else 1)
  | rounds + 1, s, strp@(_ :: _) =>
    let (stepLen, newS) := dfaMove strp s.transitions 0 none
    match newS.bind a.state with
    | none => some 1
    | some s => evaluateLoop a rounds s (strp.drop stepLen)

/-- `none` if it does not return. Every round reads a character unless there is an empty label. -/
def evaluateDfa (a : Automaton) (string : List Char) : Option ℤ :=
  if a.type = .dfa then (a.state a.start).bind fun s ↦
    if string = [] ∧ s.accepting then some 0 else evaluateLoop a (string.length + 1) s string
  else some (-1)

def Automaton.outgoing (a : Automaton) (id : ℕ) : List (List Char × ℕ) :=
  ((a.state id).elim [] transitions).filterMap fun t ↦ t.toState.map (t.word, ·)

/-- The marked states in the order of the visits. Every nested call is for a new state, so the depth
is at most the number of states. -/
def stateTraverse (a : Automaton) : ℕ → List ℕ → ℕ → List ℕ
  | 0, marks, _ => marks
  | depth + 1, marks, s =>
    if s ∈ marks then marks
    else ((a.outgoing s).map Prod.snd).foldl (stateTraverse a depth) (marks ++ [s])

/-- For the number of labels that are missing; transitions back to the same state are not
considered. -/
def addMultiStridesHelper (dfa : Automaton) : ℕ → List Char → ℕ → List (List Char × ℕ)
  | 0, label, s => [(label, s)]
  | missing + 1, label, s => (dfa.outgoing s).flatMap fun (l, toState) ↦
    if toState = s then [] else addMultiStridesHelper dfa missing (label ++ l) toState

/-- The new transitions are inserted at the head of a list. -/
def dfaAddMultiStrides (dfa : Automaton) (isMultistrided : Bool) (strideLen : ℕ) : Automaton :=
  if strideLen < 1 ∨ isMultistrided then dfa
  else
    let transitions := (stateTraverse dfa dfa.states.length [] dfa.start).flatMap fun s ↦
      (addMultiStridesHelper dfa strideLen [] s).map (s, ·)
    { dfa with
      states := transitions.reverse.foldl (fun states (fromState, label, toState) ↦
        modifyState states fromState (·.addTransition (some label) (some toState))) dfa.states }

/-- Labels are single characters, with at most one transition per label and state. -/
structure Deterministic (dfa : Automaton) : Prop where
  start : (dfa.state dfa.start).isSome
  label : ∀ s ∈ dfa.states, ∀ t ∈ s.transitions, t.label.map length = some 1
  target : ∀ s ∈ dfa.states, ∀ t ∈ s.transitions, (t.toState.bind dfa.state).isSome
  unique : ∀ s ∈ dfa.states, ∀ t ∈ s.transitions, ∀ t' ∈ s.transitions, t.label = t'.label → t = t'

def Automaton.follow (dfa : Automaton) (s : State) (word : List Char) : Option State :=
  word.foldlM (fun s c ↦ (find label s.transitions (some [c])).bind fun t ↦
    t.toState.bind dfa.state) s

structure Shortcuts (dfa : Automaton) (s s' : State) : Prop where
  accepting : s'.accepting = s.accepting
  kept : s.transitions ⊆ s'.transitions
  follow : ∀ t ∈ s'.transitions, t.word ≠ [] ∧
    ∃ r, t.toState.bind dfa.state = some r ∧ dfa.follow s t.word = some r

def Strided (dfa : Automaton) (states : List State) : Prop :=
  ∀ x s, dfa.state x = some s →
    ∃ s', find State.id states x = some s' ∧ Shortcuts dfa s s'

variable {dfa a : Automaton} {s s' : State} {x y : ℕ} {str : List Char}

theorem follow_append (s : State) (word rest : List Char) :
    dfa.follow s (word ++ rest) = (dfa.follow s word).bind (dfa.follow · rest) :=
  foldlM_append

theorem Deterministic.follow_word (h : Deterministic dfa) (hs : s ∈ dfa.states) {t : Transition}
    (ht : t ∈ s.transitions) :
    t.word ≠ [] ∧ ∃ r, t.toState.bind dfa.state = some r ∧ dfa.follow s t.word = some r := by
  obtain ⟨l, hl, hone⟩ := map_eq_some_iff.mp (h.label s hs t ht)
  obtain ⟨r, hr⟩ := isSome_iff_exists.mp (h.target s hs t ht)
  obtain ⟨c, rfl⟩ := length_eq_one_iff.mp hone
  have hfind : find Transition.label s.transitions (some [c]) = some t := by
    cases hfind : find Transition.label s.transitions (some [c]) with
    | none => exact absurd hl (find_eq_none_iff.mp hfind t ht)
    | some t' =>
      have hlabel := key_of_find hfind
      rw [h.unique s hs t' (mem_of_find hfind) t ht (hlabel.trans hl.symm)]
  rw [word, hl]
  refine ⟨cons_ne_nil _ _, r, hr, ?_⟩
  rw [getD_some, follow, foldlM_cons, hfind, bind_some, hr]
  rfl

theorem Deterministic.strided (h : Deterministic dfa) : Strided dfa dfa.states :=
  fun _ s hs ↦ ⟨s, hs, rfl, Subset.refl _, fun _ ht ↦ h.follow_word (mem_of_find hs) ht⟩

theorem dfaMove_cases (str : List Char) (transitions : List Transition) (maxLen : ℕ)
    (newS : Option ℕ) :
    (∃ t ∈ transitions, t.word <+: str ∧
      dfaMove str transitions maxLen newS = (t.word.length, t.toState)) ∨
    (dfaMove str transitions maxLen newS = (maxLen, newS) ∧
      ∀ t ∈ transitions, t.word <+: str → t.word.length < maxLen) := by
  induction transitions generalizing maxLen newS with
  | nil => exact .inr ⟨rfl, by simp⟩
  | cons t transitions ih =>
    rw [dfaMove]
    split_ifs with hmatch
    · rcases ih t.word.length t.toState with ⟨t', ht', hmove⟩ | ⟨hmove, -⟩
      · exact .inl ⟨t', mem_cons_of_mem _ ht', hmove⟩
      · exact .inl ⟨t, mem_cons_self, hmatch.1, hmove⟩
    · rcases ih maxLen newS with ⟨t', ht', hmove⟩ | ⟨hmove, hshort⟩
      · exact .inl ⟨t', mem_cons_of_mem _ ht', hmove⟩
      · refine .inr ⟨hmove, forall_mem_cons.mpr ⟨fun hword ↦ ?_, hshort⟩⟩
        exact Nat.lt_of_not_le fun hle ↦ hmatch ⟨hword, hle⟩

/-- Whichever labels the loop takes, it gets to where the characters lead. -/
theorem Strided.evaluateLoop (h : Strided dfa a.states) (rounds : ℕ) (hs : Shortcuts dfa s s')
    (hrounds : str.length < rounds) : evaluateLoop a rounds s' str =
      some (if (dfa.follow s str).any accepting then 0 else 1) := by
  induction rounds generalizing s s' str with
  | zero => exact absurd hrounds (Nat.not_lt_zero _)
  | succ rounds ih =>
    cases str with
    | nil =>
      rw [Regex.evaluateLoop, hs.accepting]
      rfl
    | cons c str =>
      rw [Regex.evaluateLoop]
      rcases dfaMove_cases (c :: str) s'.transitions 0 none with
        ⟨t, ht, ⟨rest, hrest⟩, hmove⟩ | ⟨hmove, hnone⟩
      · obtain ⟨hword, r, hr, hfollow⟩ := hs.follow t ht
        obtain ⟨y, hto, hy⟩ := bind_eq_some_iff.mp hr
        obtain ⟨r', hr', hshort⟩ := h y r hy
        have hlength := congrArg length hrest
        have hpos := length_pos_iff.mpr hword
        rw [length_append] at hlength
        rw [hmove, hto, ← hrest, follow_append, hfollow]
        dsimp only
        rw [bind_some, state, hr', drop_left]
        exact ih hshort (by omega)
      · have hfind : find label s.transitions (some [c]) = none := by
          apply find_eq_none_iff.mpr
          intro t ht hlabel
          apply Nat.not_lt_zero _ (hnone t (hs.kept ht) _)
          rw [word, hlabel]
          exact ⟨str, rfl⟩
        rw [hmove, follow, foldlM_cons, hfind]
        rfl

theorem Strided.evaluateDfa (h : Strided dfa a.states) (hs : dfa.state a.start = some s)
    (string : List Char) : evaluateDfa a string = some (if a.type = .dfa then
      if (dfa.follow s string).any accepting then 0 else 1 else -1) := by
  obtain ⟨s', hs', hshort⟩ := h _ s hs
  rw [Regex.evaluateDfa, state, hs', bind_some, h.evaluateLoop _ hshort (Nat.lt_succ_self _)]
  split_ifs with _ hempty haccept
  · rfl
  · rw [hempty.1] at haccept
    exact absurd (hshort.accepting.symm.trans hempty.2) haccept
  all_goals rfl

theorem Deterministic.follow_stride (h : Deterministic dfa) (missing : ℕ) {start : State}
    {label : List Char} {stride : List Char × ℕ} (hx : dfa.state x = some s)
    (hfollow : dfa.follow start label = some s)
    (hmem : stride ∈ addMultiStridesHelper dfa missing label x) :
    label.length + missing ≤ stride.1.length ∧
      ∃ r, dfa.state stride.2 = some r ∧ dfa.follow start stride.1 = some r := by
  induction missing generalizing label x s with
  | zero =>
    obtain rfl := mem_singleton.mp hmem
    exact ⟨le_rfl, s, hx, hfollow⟩
  | succ missing ih =>
    obtain ⟨⟨l, y⟩, hout, hrest⟩ := mem_flatMap.mp hmem
    rw [outgoing, hx] at hout
    obtain ⟨t, ht, hpair⟩ := mem_filterMap.mp hout
    obtain ⟨_, hto, hpair⟩ := map_eq_some_iff.mp hpair
    cases hpair
    obtain ⟨hword, r, hr, hread⟩ := h.follow_word (mem_of_find hx) ht
    rw [hto] at hr
    dsimp only at hrest
    split_ifs at hrest
    · cases hrest
    · obtain ⟨hlength, hstride⟩ := ih hr (by rw [follow_append, hfollow]; exact hread) hrest
      have hpos := length_pos_iff.mpr hword
      rw [length_append] at hlength
      exact ⟨by omega, hstride⟩

theorem find_modifyState {states : List State} {f : State → State} (hf : ∀ s, (f s).id = s.id) :
    find State.id (modifyState states x f) y =
      (find State.id states y).map fun s ↦ if s.id = x then f s else s := by
  have hkey : (fun s ↦ decide ((if s.id = x then f s else s).id = y)) =
      fun s ↦ decide (s.id = y) := by
    funext s
    split_ifs
    · rw [hf]
    · rfl
  rw [find, modifyState, find?_map]
  exact congrArg (fun key ↦ (find? key states).map _) hkey

theorem Strided.add {states : List State} (h : Strided dfa states) {stride : List Char × ℕ}
    (hstride : ∀ s, dfa.state x = some s → stride.1 ≠ [] ∧
      ∃ r, dfa.state stride.2 = some r ∧ dfa.follow s stride.1 = some r) :
    Strided dfa (modifyState states x (·.addTransition (some stride.1) (some stride.2))) := by
  intro z s hs
  obtain ⟨s', hs', hshort⟩ := h z s hs
  rw [find_modifyState fun _ ↦ id_addTransition, hs']
  refine ⟨_, rfl, ?_⟩
  dsimp only
  split_ifs with hid
  · obtain rfl : z = x := (key_of_find hs').symm.trans hid
    refine ⟨?_, fun t ht ↦ mem_addTransition.mpr (.inl (hshort.kept ht)), fun t ht ↦ ?_⟩
    · rw [accepting_addTransition, hshort.accepting]
    · rcases mem_addTransition.mp ht with ht | rfl
      · exact hshort.follow t ht
      · exact hstride s hs
  · exact hshort

/-- The strides do not change what the evaluation of a string returns. -/
theorem evaluateDfa_dfaAddMultiStrides (h : Deterministic dfa) (isMultistrided : Bool)
    (strideLen : ℕ) (string : List Char) : ∃ verdict, evaluateDfa dfa string = some verdict ∧
      evaluateDfa (dfaAddMultiStrides dfa isMultistrided strideLen) string = some verdict := by
  obtain ⟨s, hs⟩ := isSome_iff_exists.mp h.start
  refine ⟨_, h.strided.evaluateDfa hs string, ?_⟩
  rw [dfaAddMultiStrides]
  by_cases hskip : strideLen < 1 ∨ isMultistrided
  · rw [if_pos hskip]
    exact h.strided.evaluateDfa hs string
  · rw [if_neg hskip]
    refine Strided.evaluateDfa (a := { dfa with states := _ })
      (foldlRecOn _ _ h.strided ?_) hs string
    rintro states hstates ⟨x, stride⟩ hmem
    obtain ⟨x', -, hmem⟩ := mem_flatMap.mp (mem_reverse.mp hmem)
    obtain ⟨_, hmem, hpair⟩ := mem_map.mp hmem
    cases hpair
    refine hstates.add fun s hs ↦ ?_
    obtain ⟨hlength, hread⟩ := h.follow_stride strideLen hs rfl hmem
    refine ⟨fun hnil ↦ ?_, hread⟩
    rw [hnil, length_nil, Nat.zero_add] at hlength
    exact hskip (.inl (Nat.lt_succ_of_le hlength))

def alternating : Automaton :=
  ⟨.dfa, 0, 0, [⟨0, true, [⟨some ['a'], some 1⟩]⟩, ⟨1, false, [⟨some ['b'], some 0⟩]⟩]⟩

theorem evaluateDfa_alternating :
    ∃ verdict, evaluateDfa alternating ['a', 'b', 'a', 'b'] = some verdict ∧
      evaluateDfa (dfaAddMultiStrides alternating false 2) ['a', 'b', 'a', 'b'] = some verdict :=
  evaluateDfa_dfaAddMultiStrides ⟨by decide, by decide, by decide, by decide⟩ false 2 _

end Gnunet.Regex
