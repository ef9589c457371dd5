import Gnunet.Regex.Evaluation
import Gnunet.Regex.Parsing

/-!
# The language of the constructed NFA

Where nothing is left behind on the stack, the fragments on it read what the construction makes of
the parts of the string seen so far.  A quantifier behind a group without atom applies to
everything before that group in its alternative.
-/

namespace Gnunet.Lib.RegexText

open scoped Computability Regex

mutual

/-- The language the construction gives to a tree. -/
def Alternation.construed : Alternation → Language Char
  | .single s => s.construed
  | .or a s => a.construed + s.construed

def Sequence.construed : Sequence → Language Char
  | .empty => 1
  | .snoc s p => if p.hasAtom then s.construed * p.construed else p.rebind s.construed

def Piece.construed : Piece → Language Char
  | .literal c => {[c.val]}
  | .group a => a.construed
  | .quantified p q => q.apply p.construed

/-- What a piece without atom does to the part of the alternative before it. -/
def Piece.rebind : Piece → Language Char → Language Char
  | .literal _, before => before
  | .group _, before => before
  | .quantified p q, before => q.apply (p.rebind before)

end

mutual

def Alternation.full : Alternation → Bool
  | .single s => s.full && s.hasPiece
  | .or a s => a.full && s.full && s.hasPiece

def Sequence.full : Sequence → Bool
  | .empty => true
  | .snoc s p => s.full && p.full

def Piece.full : Piece → Bool
  | .literal _ => true
  | .group a => a.full
  | .quantified p _ => p.full

def Sequence.hasPiece : Sequence → Bool
  | .empty => false
  | .snoc _ _ => true

end

mutual

/-- A tree without empty group or alternative passes, and all its alternatives have atoms. -/
theorem Alternation.of_full (a : Alternation) (h : a.full = true) :
    a.passes = true ∧ a.lastHasAtom = true ∧ a.leftover = 0 := by
  cases a with
  | single s =>
    simp only [Alternation.full, Bool.and_eq_true] at h
    obtain ⟨hpasses, hleft, hatom⟩ := s.of_full h.1
    exact ⟨hpasses, hatom h.2, hleft⟩
  | or a s =>
    simp only [Alternation.full, Bool.and_eq_true] at h
    obtain ⟨hpassesa, hatoma, hlefta⟩ := a.of_full h.1.1
    obtain ⟨hpasses, hleft, hatom⟩ := s.of_full h.1.2
    refine ⟨?_, hatom h.2, ?_⟩
    · simp [Alternation.passes, hpassesa, hatoma, hpasses]
    · simp [Alternation.leftover, hlefta, hleft]

theorem Sequence.of_full (s : Sequence) (h : s.full = true) :
    s.passes = true ∧ s.leftover = 0 ∧ (s.hasPiece = true → s.hasAtom = true) := by
  cases s with
  | empty => exact ⟨rfl, rfl, fun hpiece ↦ by cases hpiece⟩
  | snoc s p =>
    simp only [Sequence.full, Bool.and_eq_true] at h
    obtain ⟨hpassess, hlefts, -⟩ := s.of_full h.1
    obtain ⟨hpassesp, hatom, hleftp⟩ := p.of_full h.2
    refine ⟨?_, ?_, fun _ ↦ ?_⟩
    · simp [Sequence.passes, hpassess, hpassesp]
    · simp [Sequence.leftover, hlefts, hleftp]
    · simp [Sequence.hasAtom, hatom]

theorem Piece.of_full (p : Piece) (h : p.full = true) :
    (∀ earlier, p.passes earlier = true) ∧ p.hasAtom = true ∧ p.leftover = 0 := by
  cases p with
  | literal c => exact ⟨fun _ ↦ rfl, rfl, rfl⟩
  | group a =>
    obtain ⟨hpasses, hatom, hleft⟩ := a.of_full h
    exact ⟨fun _ ↦ hpasses, hatom, by simp [Piece.leftover, hleft, hatom]⟩
  | quantified p q =>
    obtain ⟨hpasses, hatom, hleft⟩ := p.of_full h
    exact ⟨fun earlier ↦ by simp [Piece.passes, hpasses, hatom], hatom, hleft⟩

end

mutual

def Alternation.separate : Alternation → Bool
  | .single s => s.separate
  | .or a s => a.separate && s.separate

def Sequence.separate : Sequence → Bool
  | .empty => true
  | .snoc s p => s.separate && p.separate

def Piece.separate : Piece → Bool
  | .literal _ => true
  | .group a => a.separate
  | .quantified p _ => p.separate && p.hasAtom

end

mutual

/-- Only quantifiers behind groups without atom make a difference: other trees that leave nothing
behind are construed as the language they denote. -/
theorem Alternation.construed_of_separate (a : Alternation) (h : a.separate = true)
    (hleft : a.leftover = 0) :
    a.construed = a.denote ∧ (a.lastHasAtom = false → a.bars = 0 → a.denote = 1) := by
  cases a with
  | single s =>
    obtain ⟨heq, hone⟩ := s.construed_of_separate h hleft
    exact ⟨heq, fun hatom _ ↦ hone hatom⟩
  | or a s =>
    simp only [Alternation.separate, Bool.and_eq_true] at h
    obtain ⟨hlefta, hlefts⟩ := Nat.add_eq_zero_iff.mp hleft
    refine ⟨?_, fun _ hbars ↦ absurd hbars (Nat.succ_ne_zero _)⟩
    rw [Alternation.construed, Alternation.denote, (a.construed_of_separate h.1 hlefta).1,
      (s.construed_of_separate h.2 hlefts).1]

theorem Sequence.construed_of_separate (s : Sequence) (h : s.separate = true)
    (hleft : s.leftover = 0) :
    s.construed = s.denote ∧ (s.hasAtom = false → s.denote = 1) := by
  cases s with
  | empty => exact ⟨rfl, fun _ ↦ rfl⟩
  | snoc s p =>
    simp only [Sequence.separate, Bool.and_eq_true] at h
    obtain ⟨hlefts, hleftp⟩ := Nat.add_eq_zero_iff.mp hleft
    obtain ⟨heq, hone⟩ := s.construed_of_separate h.1 hlefts
    obtain ⟨heqp, honep⟩ := p.construed_of_separate h.2 hleftp
    rw [Sequence.construed, Sequence.denote, Sequence.hasAtom]
    cases hp : p.hasAtom with
    | true => exact ⟨by rw [if_pos rfl, heq, heqp], by simp⟩
    | false =>
      obtain ⟨hdenote, hrebind⟩ := honep hp
      refine ⟨by rw [if_neg Bool.false_ne_true, hrebind, hdenote, mul_one, heq], fun hs ↦ ?_⟩
      rw [hone (by simpa using hs), hdenote, mul_one]

theorem Piece.construed_of_separate (p : Piece) (h : p.separate = true) (hleft : p.leftover = 0) :
    p.construed = p.denote ∧
      (p.hasAtom = false → p.denote = 1 ∧ ∀ before, p.rebind before = before) := by
  cases p with
  | literal c => exact ⟨rfl, fun hatom ↦ by cases hatom⟩
  | group a =>
    obtain ⟨hlefta, hignored⟩ := Nat.add_eq_zero_iff.mp hleft
    obtain ⟨heq, hone⟩ := a.construed_of_separate h hlefta
    refine ⟨heq, fun hatom ↦ ⟨hone hatom ?_, fun _ ↦ rfl⟩⟩
    have hatom' : a.lastHasAtom = false := hatom
    simpa [hatom'] using hignored
  | quantified p q =>
    simp only [Piece.separate, Bool.and_eq_true] at h
    refine ⟨?_, fun hatom ↦ ?_⟩
    · rw [Piece.construed, Piece.denote, (p.construed_of_separate h.1 hleft).1]
    · rw [Piece.hasAtom, h.2] at hatom
      cases hatom

end

def Alternation.last : Alternation → Sequence
  | .single s => s
  | .or _ s => s

theorem Alternation.lastHasAtom_eq (a : Alternation) : a.lastHasAtom = a.last.hasAtom := by
  cases a <;> rfl

end Gnunet.Lib.RegexText

namespace Gnunet.Regex

open Lib.RegexText
open List hiding Disjoint
open scoped Computability

variable {ctx : Context} {id : ℕ} {a b f : Automaton} {stack : List Automaton}

structure Stacked (id : ℕ) (stack : List Automaton) : Prop where
  fragment : ∀ a ∈ stack, Fragment a
  disjoint : stack.Pairwise fun a b ↦ List.Disjoint (stateIds a.states) (stateIds b.states)
  fresh : ∀ a ∈ stack, ∀ x ∈ stateIds a.states, x < id

namespace Stacked

theorem replace {id' : ℕ} (popped : List Automaton) (h : Stacked id (popped ++ stack))
    (hf : Fragment f) (hle : id ≤ id') (hids : ∀ x ∈ stateIds f.states,
      (∃ a ∈ popped, x ∈ stateIds a.states) ∨ (id ≤ x ∧ x < id')) : Stacked id' (f :: stack) := by
  obtain ⟨-, hstack, hbetween⟩ := pairwise_append.mp h.disjoint
  constructor
  · intro a ha
    rcases mem_cons.mp ha with rfl | ha
    · exact hf
    · exact h.fragment a (mem_append_right _ ha)
  · rw [pairwise_cons]
    refine ⟨fun b hb x hx hxb ↦ ?_, hstack⟩
    rcases hids x hx with ⟨a, ha, hxa⟩ | ⟨hle, -⟩
    · exact hbetween a ha b hb hxa hxb
    · exact absurd (h.fresh b (mem_append_right _ hb) x hxb) (by omega)
  · intro a ha x hx
    rcases mem_cons.mp ha with rfl | ha
    · rcases hids x hx with ⟨b, hb, hxb⟩ | ⟨-, hlt⟩
      · exact (h.fresh b (mem_append_left _ hb) x hxb).trans_le hle
      · exact hlt
    · exact (h.fresh a (mem_append_right _ ha) x hx).trans_le hle

theorem top (h : Stacked id (a :: stack)) : Fragment a := h.fragment a mem_cons_self

theorem top_fresh (h : Stacked id (a :: stack)) : ∀ x ∈ stateIds a.states, x < id :=
  h.fresh a mem_cons_self

theorem tail (h : Stacked id (a :: stack)) : Stacked id stack where
  fragment b hb := h.fragment b (mem_cons_of_mem _ hb)
  disjoint := (pairwise_cons.mp h.disjoint).2
  fresh b hb := h.fresh b (mem_cons_of_mem _ hb)

theorem disjoint_second (h : Stacked id (b :: a :: stack)) :
    List.Disjoint (stateIds a.states) (stateIds b.states) :=
  ((pairwise_cons.mp h.disjoint).1 a mem_cons_self).symm

theorem concatenation (h : Stacked id (b :: a :: stack)) :
    Stacked id (concatenation a b :: stack) ∧
      (concatenation a b).words = a.words * b.words := by
  refine ⟨replace [b, a] h ?_ le_rfl ?_, ?_⟩
  · exact fragment_concatenation h.tail.top h.top h.disjoint_second
  · intro x hx
    rw [stateIds_concatenation h.top] at hx
    simpa [or_comm] using Or.inl hx
  · exact words_concatenation h.tail.top h.top h.disjoint_second

theorem alternation (h : Stacked id (b :: a :: stack)) :
    Stacked (id + 2) (alternation id a b :: stack) ∧
      (alternation id a b).words = a.words + b.words := by
  refine ⟨replace [b, a] h ?_ (by omega) ?_, ?_⟩
  · exact fragment_alternation h.tail.top h.top h.disjoint_second h.tail.top_fresh h.top_fresh
  · intro x hx
    rw [Regex.alternation, nfaFragmentCreate_opening, stateIds_wrapStates, stateIds_append,
      joinEnd_ids, joinEnd_ids] at hx
    simp only [mem_cons, mem_append, not_mem_nil, exists_eq_or_imp, or_false,
      exists_eq_left] at hx ⊢
    rcases hx with rfl | rfl | hx | hx
    exacts [.inr (by omega), .inr (by omega), .inl (.inr hx), .inl (.inl hx)]
  · exact words_alternation h.tail.top h.top h.disjoint_second h.tail.top_fresh h.top_fresh

/-- A fragment put between two new states, as the star and the question operator do. -/
theorem bypass {targets : List ℕ} (h : Stacked id (a :: stack))
    (hf : Fragment (nfaFragmentCreate (openingState id [a.start, id + 1])
      (nfaStateCreate (id + 1) true) (joinEnd a targets))) :
    Stacked (id + 2) (nfaFragmentCreate (openingState id [a.start, id + 1])
      (nfaStateCreate (id + 1) true) (joinEnd a targets) :: stack) := by
  apply replace [a] h hf (by omega)
  intro x hx
  rw [nfaFragmentCreate_opening, stateIds_wrapStates, joinEnd_ids, mem_cons, mem_cons] at hx
  rcases hx with rfl | rfl | hx
  · exact .inr (by omega)
  · exact .inr (by omega)
  · exact .inl ⟨a, mem_singleton.mpr rfl, hx⟩

theorem quantifierOp (h : Stacked id (a :: stack)) (q : Quantifier) :
    ∃ id' f, quantifierOp q ⟨id, a :: stack⟩ = ⟨id', f :: stack⟩ ∧
      Stacked id' (f :: stack) ∧ f.words = q.apply a.words := by
  cases q with
  | star =>
    exact ⟨_, _, rfl, h.bypass (fragment_star h.top h.top_fresh), words_star h.top h.top_fresh⟩
  | plus =>
    refine ⟨_, _, rfl, replace [a] h (fragment_plus h.top) le_rfl fun x hx ↦ ?_, words_plus h.top⟩
    rw [stateIds_plusFragment] at hx
    exact .inl ⟨a, mem_singleton.mpr rfl, hx⟩
  | question =>
    exact ⟨_, _, rfl, h.bypass (fragment_question h.top h.top_fresh),
      words_question h.top h.top_fresh⟩

theorem label (h : Stacked id stack) (c : Char) :
    Stacked (id + 2) (labelFragment id [c] :: stack) := by
  apply replace [] h (fragment_label id c) (by omega)
  intro x hx
  rw [stateIds_labelFragment] at hx
  simp only [mem_cons, not_mem_nil, or_false] at hx
  exact .inr (by omega)

theorem alternateAtoms (alts : List Automaton) (h : Stacked id (f :: (alts ++ stack))) :
    ∃ id' g, alternateAtoms alts.length ⟨id, f :: (alts ++ stack)⟩ = .ok ⟨id', g :: stack⟩ ∧
      Stacked id' (g :: stack) ∧ g.words = (alts.map Automaton.words).sum + f.words := by
  induction alts generalizing id f with
  | nil => exact ⟨id, f, rfl, h, by simp⟩
  | cons a alts ih =>
    obtain ⟨hstacked, hwords⟩ := h.alternation
    obtain ⟨id', g, hloop, hg, hgwords⟩ := ih hstacked
    refine ⟨id', g, hloop, hg, ?_⟩
    rw [hgwords, hwords, ← add_assoc]
    congr 1
    exact add_comm _ _

end Stacked

def Joined (s : Sequence) (atoms : List Automaton) : Prop :=
  match s.hasAtom with
  | true => ∃ g, atoms = [g] ∧ g.words = s.construed
  | false => atoms = [] ∧ s.construed = 1

/-- An atom at the end is kept apart, so that a quantifier can be applied to it. -/
def Atoms : Sequence → List Automaton → Prop
  | .empty, atoms => atoms = []
  | .snoc s p, atoms =>
    match p.hasAtom with
    | true => ∃ f before, atoms = f :: before ∧ f.words = p.construed ∧ Joined s before
    | false => Joined (.snoc s p) atoms

section Atoms

variable {s : Sequence} {p : Piece} {atoms : List Automaton}

theorem joined_iff_of_hasAtom (h : s.hasAtom = true) :
    Joined s atoms ↔ ∃ g, atoms = [g] ∧ g.words = s.construed := by
  rw [Joined, h]

theorem joined_iff_of_no_atom (h : s.hasAtom = false) :
    Joined s atoms ↔ atoms = [] ∧ s.construed = 1 := by
  rw [Joined, h]

theorem atoms_snoc_of_hasAtom (h : p.hasAtom = true) :
    Atoms (.snoc s p) atoms ↔
      ∃ f before, atoms = f :: before ∧ f.words = p.construed ∧ Joined s before := by
  rw [Atoms, h]

theorem atoms_snoc_of_no_atom (h : p.hasAtom = false) :
    Atoms (.snoc s p) atoms ↔ Joined (.snoc s p) atoms := by
  rw [Atoms, h]

theorem Atoms.cases (h : Atoms s atoms) :
    Joined s atoms ∨
      ∃ f g, atoms = [f, g] ∧ s.hasAtom = true ∧ g.words * f.words = s.construed := by
  cases s with
  | empty => exact .inl ((joined_iff_of_no_atom rfl).mpr ⟨h, rfl⟩)
  | snoc s p =>
    cases hp : p.hasAtom with
    | false => exact .inl ((atoms_snoc_of_no_atom hp).mp h)
    | true =>
      have hatom : (Sequence.snoc s p).hasAtom = true := by simp [Sequence.hasAtom, hp]
      have hconstrued : (Sequence.snoc s p).construed = s.construed * p.construed := by
        simp [Sequence.construed, hp]
      obtain ⟨f, _, rfl, hf, hbefore⟩ := (atoms_snoc_of_hasAtom hp).mp h
      cases hs : s.hasAtom with
      | false =>
        obtain ⟨rfl, hone⟩ := (joined_iff_of_no_atom hs).mp hbefore
        refine .inl ((joined_iff_of_hasAtom hatom).mpr ⟨f, rfl, ?_⟩)
        rw [hconstrued, hone, one_mul, hf]
      | true =>
        obtain ⟨g, rfl, hg⟩ := (joined_iff_of_hasAtom hs).mp hbefore
        exact .inr ⟨f, g, rfl, hatom, by rw [hconstrued, hg, hf]⟩

theorem Joined.length_le (h : Joined s atoms) : atoms.length ≤ 1 := by
  cases hs : s.hasAtom with
  | false =>
    obtain ⟨rfl, -⟩ := (joined_iff_of_no_atom hs).mp h
    exact Nat.zero_le _
  | true =>
    obtain ⟨g, rfl, -⟩ := (joined_iff_of_hasAtom hs).mp h
    exact le_rfl

end Atoms

namespace Parser

variable {parser : Parser} {p : List (ℕ × ℕ)} {altcount : ℕ} {rest : List Automaton}
  {s : Sequence}

/-- The fragments of the alternative lie on top of the stack. -/
structure Shows (p : List (ℕ × ℕ)) (altcount : ℕ) (rest : List Automaton)
    (fragments : List Automaton → Prop) (parser : Parser) : Prop where
  p_eq : parser.p = p
  altcount_eq : parser.altcount = altcount
  stacked : Stacked parser.ctx.stateId parser.ctx.stack
  atoms : ∃ atoms, parser.ctx.stack = atoms ++ rest ∧ parser.atomcount = atoms.length ∧
    fragments atoms

section

variable (h : Shows p altcount rest (Atoms s) parser)
include h

theorem joinAtoms_shows :
    ∃ parser', parser.joinAtoms = .ok parser' ∧ Shows p altcount rest (Joined s) parser' := by
  obtain ⟨atoms, hstack, hcount, hatoms⟩ := h.atoms
  have hstacked := h.stacked
  rcases hatoms.cases with hjoined | ⟨f, g, rfl, hs, hwords⟩
  · have hle := hjoined.length_le
    rw [joinAtoms, if_neg (by omega)]
    exact ⟨parser, rfl, h.p_eq, h.altcount_eq, h.stacked, atoms, hstack, hcount, hjoined⟩
  · rw [hstack] at hstacked
    obtain ⟨hconcat, hproduct⟩ := Stacked.concatenation hstacked
    have hstep : nfaAddConcatenation parser.ctx =
        .ok { parser.ctx with stack := concatenation g f :: rest } := by
      rw [nfaAddConcatenation, hstack]
      rfl
    rw [joinAtoms, if_pos (by simp [hcount]), hstep]
    refine ⟨_, rfl, h.p_eq, h.altcount_eq, hconcat, [concatenation g f], rfl, by simp [hcount], ?_⟩
    exact (joined_iff_of_hasAtom hs).mpr ⟨_, rfl, hproduct.trans hwords⟩

theorem step_literal_shows (c : Literal) :
    ∃ parser', parser.step c.val = .ok parser' ∧
      Shows p altcount rest (Atoms (.snoc s (.literal c))) parser' := by
  obtain ⟨next, hjoin, hnext⟩ := joinAtoms_shows h
  obtain ⟨atoms, hstack, hcount, hjoined⟩ := hnext.atoms
  rw [step_literal_eq, hjoin]
  refine ⟨_, rfl, hnext.p_eq, hnext.altcount_eq, hnext.stacked.label c.val,
    labelFragment next.ctx.stateId [c.val] :: atoms, ?_, ?_, ?_⟩
  · simp only [nfaAddLabel, hstack, cons_append]
  · simp only [hcount, length_cons]
  · exact (atoms_snoc_of_hasAtom rfl).mpr ⟨_, atoms, rfl, words_label _ _, hjoined⟩

omit h in
/-- A quantifier is applied to the atom before it, or to all atoms of the alternative behind a group
without atom. -/
theorem step_quantifier_shows {piece : Piece} (q : Quantifier)
    (h : Shows p altcount rest (Atoms (.snoc s piece)) parser)
    (hatom : (s.hasAtom || piece.hasAtom) = true) :
    ∃ parser', parser.step q.symbol = .ok parser' ∧
      Shows p altcount rest (Atoms (.snoc s (.quantified piece q))) parser' := by
  obtain ⟨atoms, hstack, hcount, hatoms⟩ := h.atoms
  have hstacked := h.stacked
  have happly : ∀ f before, atoms = f :: before → ∃ id' g,
      parser.step q.symbol = .ok { parser with ctx := ⟨id', g :: (before ++ rest)⟩ } ∧
        Stacked id' (g :: (before ++ rest)) ∧ g.words = q.apply f.words := by
    rintro f before rfl
    rw [hstack, cons_append] at hstacked
    obtain ⟨id', g, hop, hg, hwords⟩ := Stacked.quantifierOp hstacked q
    refine ⟨id', g, ?_, hg, hwords⟩
    have hctx : parser.ctx = ⟨parser.ctx.stateId, f :: (before ++ rest)⟩ := by
      rw [← cons_append, ← hstack]
    rw [step_quantifier_eq, applyOp, if_neg (by simp [hcount]), hctx, hop]
  cases hp : piece.hasAtom with
  | true =>
    obtain ⟨f, before, rfl, hf, hbefore⟩ := (atoms_snoc_of_hasAtom hp).mp hatoms
    obtain ⟨id', g, hstep, hg, hwords⟩ := happly f before rfl
    refine ⟨_, hstep, h.p_eq, h.altcount_eq, hg, g :: before, rfl, hcount, ?_⟩
    have hsome : (Piece.quantified piece q).hasAtom = true := hp
    exact (atoms_snoc_of_hasAtom hsome).mpr ⟨g, before, rfl, by rw [hwords, hf]; rfl, hbefore⟩
  | false =>
    have hs : s.hasAtom = true := by simpa [hp] using hatom
    have hboth : (Sequence.snoc s piece).hasAtom = true := by simp [Sequence.hasAtom, hs]
    obtain ⟨f, rfl, hf⟩ :=
      (joined_iff_of_hasAtom hboth).mp ((atoms_snoc_of_no_atom hp).mp hatoms)
    obtain ⟨id', g, hstep, hg, hwords⟩ := happly f [] rfl
    refine ⟨_, hstep, h.p_eq, h.altcount_eq, hg, [g], rfl, hcount, ?_⟩
    have hnone : (Piece.quantified piece q).hasAtom = false := hp
    have hsome : (Sequence.snoc s (.quantified piece q)).hasAtom = true := by
      simp [Sequence.hasAtom, hs]
    refine (atoms_snoc_of_no_atom hnone).mpr ((joined_iff_of_hasAtom hsome).mpr ⟨g, rfl, ?_⟩)
    rw [hwords, hf]
    simp [Sequence.construed, hp, hnone, Piece.rebind]

theorem step_opening_shows (hroom : p.length < maxNesting) :
    ∃ parser' atoms, parser.step '(' = .ok parser' ∧ Joined s atoms ∧
      Shows ((altcount, atoms.length) :: p) 0 (atoms ++ rest) (· = []) parser' := by
  obtain ⟨_, hjoin, hnext⟩ := joinAtoms_shows h
  obtain ⟨atoms, hstack, hcount, hjoined⟩ := hnext.atoms
  rw [← hnext.p_eq] at hroom
  simp only [step, hjoin, bind_ok, if_true, if_neg hroom.not_ge]
  refine ⟨_, atoms, rfl, hjoined, ?_, rfl, hnext.stacked, [], hstack, rfl, rfl⟩
  rw [hnext.p_eq, hnext.altcount_eq, hcount]

omit h in
theorem step_closing_ignored_shows {before : Sequence} {atoms : List Automaton} {a : Alternation}
    (h : Shows ((altcount, atoms.length) :: p) 0 (atoms ++ rest) (Atoms s) parser)
    (hs : s.hasAtom = false) (ha : a.lastHasAtom = false) (hjoined : Joined before atoms) :
    ∃ parser', parser.step ')' = .ok parser' ∧
      Shows p altcount rest (Atoms (.snoc before (.group a))) parser' := by
  obtain ⟨inner, hstack, hcount, hinner⟩ := h.atoms
  have hempty : inner = [] := by
    rcases hinner.cases with hinner | ⟨f, g, -, hatom, -⟩
    · exact ((joined_iff_of_no_atom hs).mp hinner).1
    · rw [hs] at hatom
      cases hatom
  subst hempty
  have hstep : parser.step ')' = .ok { parser with p, altcount, atomcount := atoms.length } := by
    simp only [step, if_false, Char.reduceEq, if_true, h.p_eq, hcount, length_nil]
  refine ⟨_, hstep, rfl, rfl, h.stacked, atoms, hstack, rfl, ?_⟩
  have hnone : (Piece.group a).hasAtom = false := ha
  rw [atoms_snoc_of_no_atom hnone]
  have hatom : (Sequence.snoc before (.group a)).hasAtom = before.hasAtom := by
    simp [Sequence.hasAtom, hnone]
  have hconstrued : (Sequence.snoc before (.group a)).construed = before.construed := by
    simp [Sequence.construed, hnone, Piece.rebind]
  rw [Joined, hatom, hconstrued]
  exact hjoined

/-- The loop over the atoms of an alternative leaves one fragment for it. -/
theorem concatenateAtoms_shows
    (hs : s.hasAtom = true) :
    parser.atomcount ≠ 0 ∧
      ∃ g, concatenateAtoms parser.atomcount parser.ctx = .ok ⟨parser.ctx.stateId, g :: rest⟩ ∧
        Stacked parser.ctx.stateId (g :: rest) ∧ g.words = s.construed := by
  obtain ⟨atoms, hstack, hcount, hatoms⟩ := h.atoms
  have hstacked := h.stacked
  have hctx : parser.ctx = ⟨parser.ctx.stateId, atoms ++ rest⟩ := by rw [← hstack]
  rw [hstack] at hstacked
  rw [hcount, hctx]
  rcases hatoms.cases with hjoined | ⟨f, g, rfl, -, hwords⟩
  · obtain ⟨g, rfl, hg⟩ := (joined_iff_of_hasAtom hs).mp hjoined
    exact ⟨Nat.one_ne_zero, g, rfl, hstacked, hg⟩
  · obtain ⟨hconcat, hproduct⟩ := Stacked.concatenation hstacked
    exact ⟨Nat.succ_ne_zero _, _, rfl, hconcat, hproduct.trans hwords⟩

omit h in
theorem closeGroup_shows {alts : List Automaton}
    (h : Shows p alts.length (alts ++ rest) (Atoms s) parser) (hs : s.hasAtom = true) :
    ∃ id f, parser.closeGroup = .ok ⟨id, f :: rest⟩ ∧ Stacked id (f :: rest) ∧
      f.words = (alts.map Automaton.words).sum + s.construed := by
  obtain ⟨-, g, hconcat, hg, hgwords⟩ := concatenateAtoms_shows h hs
  obtain ⟨id, f, halternate, hf, hfwords⟩ := hg.alternateAtoms alts
  refine ⟨id, f, ?_, hf, by rw [hfwords, hgwords]⟩
  rw [closeGroup, hconcat, bind_ok, h.altcount_eq, halternate]

omit h in
theorem step_closing_shows {before : Sequence} {atoms alts : List Automaton} {a : Alternation}
    (h : Shows ((altcount, atoms.length) :: p) alts.length (alts ++ (atoms ++ rest)) (Atoms s)
      parser) (hs : s.hasAtom = true) (ha : a.lastHasAtom = true) (hjoined : Joined before atoms)
    (hwords : (alts.map Automaton.words).sum + s.construed = a.construed) :
    ∃ parser', parser.step ')' = .ok parser' ∧
      Shows p altcount rest (Atoms (.snoc before (.group a))) parser' := by
  obtain ⟨id, f, hclose, hf, hfwords⟩ := closeGroup_shows h hs
  have hne := (concatenateAtoms_shows h hs).1
  have hstep : parser.step ')' =
      .ok { parser with ctx := ⟨id, f :: (atoms ++ rest)⟩, p, altcount,
                        atomcount := atoms.length + 1 } := by
    simp only [step, h.p_eq, hne, hclose]
    rfl
  refine ⟨_, hstep, rfl, rfl, hf, f :: atoms, rfl, rfl, ?_⟩
  have hsome : (Piece.group a).hasAtom = true := ha
  exact (atoms_snoc_of_hasAtom hsome).mpr ⟨f, atoms, rfl, hfwords.trans hwords, hjoined⟩

theorem step_bar_shows (hs : s.hasAtom = true) :
    ∃ parser' g, parser.step '|' = .ok parser' ∧ g.words = s.construed ∧
      Shows p (altcount + 1) (g :: rest) (· = []) parser' := by
  obtain ⟨hne, g, hconcat, hg, hgwords⟩ := concatenateAtoms_shows h hs
  have hstep : parser.step '|' =
      .ok { parser with ctx := ⟨parser.ctx.stateId, g :: rest⟩, atomcount := 0,
                        altcount := parser.altcount + 1 } := by
    simp only [step, hne]
    rw [hconcat]
    rfl
  refine ⟨_, g, hstep, hgwords, h.p_eq, ?_, hg, [], rfl, rfl, rfl⟩
  rw [h.altcount_eq]

end

theorem loop_concat {parser next final : Parser} {text : List Char} {c : Char}
    (hloop : parser.loop text = .ok next) (hstep : next.step c = .ok final) :
    parser.loop (text ++ [c]) = .ok final := by
  rw [loop_append, hloop, bind_ok, loop, hstep, bind_ok, loop]

mutual

theorem shows_alternation (a : Alternation) {parser : Parser} {p : List (ℕ × ℕ)}
    {rest : List Automaton} (h : Shows p 0 rest (· = []) parser) (hpasses : a.passes = true)
    (hleft : a.leftover = 0) (hdepth : p.length + a.depth ≤ maxNesting) :
    ∃ parser' alts, parser.loop a.text = .ok parser' ∧
      Shows p alts.length (alts ++ rest) (Atoms a.last) parser' ∧ alts.length = a.bars ∧
      (alts.map Automaton.words).sum + a.last.construed = a.construed := by
  cases a with
  | single s =>
    obtain ⟨parser', hloop, hshows⟩ := shows_sequence s h hpasses hleft hdepth
    exact ⟨parser', [], hloop, hshows, rfl, zero_add _⟩
  | or a s =>
    simp only [Alternation.passes, Bool.and_eq_true] at hpasses
    obtain ⟨⟨hpassesa, hatom⟩, hpassess⟩ := hpasses
    obtain ⟨hlefta, hlefts⟩ := Nat.add_eq_zero_iff.mp hleft
    rw [Alternation.depth, ← Nat.add_max_add_left, Nat.max_le] at hdepth
    obtain ⟨_, alts, hfirst, hshows, hlength, hwords⟩ :=
      shows_alternation a h hpassesa hlefta hdepth.1
    rw [a.lastHasAtom_eq] at hatom
    obtain ⟨_, g, hbar, hg, hshows⟩ := step_bar_shows hshows hatom
    obtain ⟨parser', hloop, hshows⟩ := shows_sequence s hshows hpassess hlefts hdepth.2
    have htext : (Alternation.or a s).text = (a.text ++ ['|']) ++ s.text := by
      simp [Alternation.text]
    refine ⟨parser', g :: alts, ?_, hshows, ?_, ?_⟩
    · rw [htext, loop_append, loop_concat hfirst hbar, bind_ok, hloop]
    · rw [length_cons, hlength, Alternation.bars]
    · rw [map_cons, sum_cons, hg, Alternation.construed, ← hwords, add_comm a.last.construed]
      rfl

theorem shows_sequence (s : Sequence) {parser : Parser} {p : List (ℕ × ℕ)} {altcount : ℕ}
    {rest : List Automaton} (h : Shows p altcount rest (· = []) parser)
    (hpasses : s.passes = true) (hleft : s.leftover = 0)
    (hdepth : p.length + s.depth ≤ maxNesting) :
    ∃ parser', parser.loop s.text = .ok parser' ∧ Shows p altcount rest (Atoms s) parser' := by
  cases s with
  | empty => exact ⟨parser, rfl, h⟩
  | snoc s piece =>
    simp only [Sequence.passes, Bool.and_eq_true] at hpasses
    obtain ⟨hlefts, hleftp⟩ := Nat.add_eq_zero_iff.mp hleft
    rw [Sequence.depth, ← Nat.add_max_add_left, Nat.max_le] at hdepth
    obtain ⟨_, hfirst, hshows⟩ := shows_sequence s h hpasses.1 hlefts hdepth.1
    obtain ⟨parser', hloop, hshows⟩ := shows_piece piece hshows hpasses.2 hleftp hdepth.2
    exact ⟨parser', by rw [Sequence.text, loop_append, hfirst, bind_ok, hloop], hshows⟩

theorem shows_piece (piece : Piece) {parser : Parser} {p : List (ℕ × ℕ)} {altcount : ℕ}
    {rest : List Automaton} {s : Sequence} (h : Shows p altcount rest (Atoms s) parser)
    (hpasses : piece.passes s.hasAtom = true) (hleft : piece.leftover = 0)
    (hdepth : p.length + piece.depth ≤ maxNesting) :
    ∃ parser', parser.loop piece.text = .ok parser' ∧
      Shows p altcount rest (Atoms (.snoc s piece)) parser' := by
  cases piece with
  | literal c =>
    obtain ⟨parser', hstep, hshows⟩ := step_literal_shows h c
    exact ⟨parser', by rw [Piece.text, loop, hstep]; rfl, hshows⟩
  | group a =>
    obtain ⟨hlefta, hignored⟩ := Nat.add_eq_zero_iff.mp hleft
    rw [Piece.depth] at hdepth
    have hroom : p.length < maxNesting := by omega
    obtain ⟨_, _, hopen, hjoined, hinner⟩ := step_opening_shows h hroom
    have hinside : p.length + 1 + a.depth ≤ maxNesting := by omega
    obtain ⟨next, alts, hloop, hnext, hlength, hwords⟩ :=
      shows_alternation a hinner hpasses hlefta hinside
    have htext : ∀ parser', next.step ')' = .ok parser' →
        parser.loop (Piece.group a).text = .ok parser' := by
      intro parser' hstep
      rw [Piece.text, loop, hopen]
      exact loop_concat hloop hstep
    cases ha : a.lastHasAtom with
    | true =>
      obtain ⟨parser', hstep, hshows⟩ :=
        step_closing_shows hnext (a.lastHasAtom_eq ▸ ha) ha hjoined hwords
      exact ⟨parser', htext parser' hstep, hshows⟩
    | false =>
      -- without an atom at the end, nothing is left behind only if there is one alternative
      have hbars : a.bars = 0 := by simpa [ha] using hignored
      have halts : alts = [] := length_eq_zero_iff.mp (hlength.trans hbars)
      subst halts
      obtain ⟨parser', hstep, hshows⟩ :=
        step_closing_ignored_shows hnext (a.lastHasAtom_eq ▸ ha) ha hjoined
      exact ⟨parser', htext parser' hstep, hshows⟩
  | quantified piece q =>
    simp only [Piece.passes, Bool.and_eq_true] at hpasses
    obtain ⟨next, hloop, hnext⟩ := shows_piece piece h hpasses.1 hleft hdepth
    obtain ⟨parser', hstep, hshows⟩ := step_quantifier_shows q hnext hpasses.2
    exact ⟨parser', loop_concat hloop hstep, hshows⟩

end

theorem shows_init : Shows [] 0 [] (· = []) init where
  p_eq := rfl
  altcount_eq := rfl
  stacked := ⟨by simp [init, contextInit], Pairwise.nil, by simp [init, contextInit]⟩
  atoms := ⟨[], rfl, rfl, rfl⟩

end Parser

/-- The NFA constructed from the text of a tree reads what the construction makes of the tree. -/
theorem constructNfa_construed {regex : List Char} {len : ℕ} {a : Alternation}
    (htext : a.text = regex.take len) (hne : regex.take len ≠ []) (hpasses : a.passes = true)
    (hdepth : a.depth ≤ maxNesting) (hatom : a.lastHasAtom = true) (hleft : a.leftover = 0) :
    ∃ nfa, constructNfa regex len = .ok nfa ∧ Fragment nfa ∧ nfa.words = a.construed ∧
      ∀ x ∈ stateIds nfa.states, x < 2 * (regex.take len).length := by
  obtain ⟨parser, _, hloop, hshows, -, hwords⟩ :=
    Parser.shows_alternation a Parser.shows_init hpasses hleft (by simpa using hdepth)
  obtain ⟨id, f, hclose, hf, hfwords⟩ := Parser.closeGroup_shows hshows (a.lastHasAtom_eq ▸ hatom)
  have hid : id ≤ 2 * (regex.take len).length := by
    calc id = parser.ctx.stateId + 2 * parser.altcount := Parser.closeGroup_stateId hclose
      _ ≤ parser.numbers := by rw [Parser.numbers]; omega
      _ ≤ Parser.init.numbers + 2 * a.text.length := Parser.numbers_loop hloop
      _ = 2 * (regex.take len).length := by rw [htext]; exact zero_add _
  refine ⟨f, ?_, hf.top, hfwords.trans hwords, fun x hx ↦ (hf.top_fresh x hx).trans_le hid⟩
  rw [constructNfa_eq hne, ← htext, hloop, bind_ok, Parser.finish, if_neg (not_not.mpr hshows.p_eq),
    hclose, bind_ok]

def groupedTree : Alternation :=
  .single (.snoc (.snoc .empty
    (.quantified (.group (.or (.single (.snoc (.snoc .empty (.literal ⟨'a', rfl⟩))
      (.literal ⟨'b', rfl⟩))) (.snoc .empty (.literal ⟨'c', rfl⟩)))) .plus))
    (.quantified (.literal ⟨'d', rfl⟩) .question))

/-- No assertion fails and no memory is misused, an NFA accepts the language of the string as a
regex, and a regex without empty group or alternative yields an NFA. -/
structure Faithful (regex : List Char) (len : ℕ) : Prop where
  asserted : constructNfa regex len ≠ .error .assertion
  valid : constructNfa regex len ≠ .error .invalidMemory
  language : ∀ nfa, constructNfa regex len = .ok nfa →
    ∃ a : Alternation, a.text = regex.take len ∧ ∀ w, evaluateNfa nfa w = 0 ↔ w ∈ a.denote
  accepted : ∀ a : Alternation, a.text = regex.take len → a.full = true → regex.take len ≠ [] →
    ∃ nfa, constructNfa regex len = .ok nfa

section Faithful

variable {regex : List Char} {len : ℕ} {a : Alternation}

theorem Faithful.of_rejected (h : Rejected (constructNfa regex len))
    (hfull : ∀ a : Alternation, a.text = regex.take len → a.full = true → regex.take len = []) :
    Faithful regex len := by
  refine ⟨?_, ?_, fun nfa hnfa ↦ absurd hnfa (h.ne_ok nfa),
    fun a htext ha hne ↦ absurd (hfull a htext ha) hne⟩
  · rcases h with ⟨e, he⟩ | he <;> simp [he]
  · rcases h with ⟨e, he⟩ | he <;> simp [he]

theorem Faithful.of_denote {nfa : Automaton} (htext : a.text = regex.take len)
    (hnfa : constructNfa regex len = .ok nfa) (hfragment : Fragment nfa)
    (hwords : nfa.words = a.denote) : Faithful regex len := by
  refine ⟨by simp [hnfa], by simp [hnfa], ?_, fun _ _ _ _ ↦ ⟨nfa, hnfa⟩⟩
  intro nfa' hnfa'
  cases hnfa.symm.trans hnfa'
  refine ⟨a, htext, fun w ↦ ?_⟩
  rw [evaluateNfa_eq_zero hfragment, hwords]

section

variable (h : Faithful regex len) (htext : a.text = regex.take len) (hne : regex.take len ≠ [])
include h htext hne

theorem Faithful.depth_le (hfull : a.full = true) : a.depth ≤ maxNesting := by
  obtain ⟨nfa, hnfa⟩ := h.accepted a htext hfull hne
  by_contra hdeep
  have hrejected := constructNfa_rejected htext hne fun _ ↦ not_le.mp hdeep
  exact hrejected.ne_ok nfa hnfa

theorem Faithful.construed_eq (hpasses : a.passes = true) (hdepth : a.depth ≤ maxNesting) :
    a.lastHasAtom = true ∧ a.leftover = 0 ∧ a.construed = a.denote := by
  obtain ⟨_, hfinish, hbehind⟩ := constructNfa_passes htext hne hpasses hdepth
  have hatom : a.lastHasAtom = true := by
    by_contra hnone
    rw [Bool.not_eq_true] at hnone
    rw [hnone] at hbehind
    exact h.asserted (hfinish.trans (Parser.finish_without_atom hbehind))
  have hleft : a.leftover = 0 := by
    by_contra hsome
    rw [hatom] at hbehind
    exact h.valid (hfinish.trans (Parser.finish_with_leftover hbehind (Nat.pos_of_ne_zero hsome)))
  refine ⟨hatom, hleft, ?_⟩
  obtain ⟨nfa, hnfa, hfragment, hwords, -⟩ :=
    constructNfa_construed htext hne hpasses hdepth hatom hleft
  obtain ⟨b, hb, hlanguage⟩ := h.language nfa hnfa
  obtain rfl : b = a := Alternation.text_injective (hb.trans htext.symm)
  rw [← hwords]
  ext w
  rw [← hlanguage w, evaluateNfa_eq_zero hfragment]

end

end Faithful

end Gnunet.Regex
