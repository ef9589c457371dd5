import Gnunet.Lib.RegexText
import Gnunet.Regex.Nfa
import Mathlib.Algebra.GroupWithZero.Nat

/-!
# What the construction makes of a syntax tree

The construction counts the fragments of the group it is in.  A group that ends in an alternative
without fragment leaves the counters as they were, so that a tree can be rejected, fail an
assertion or leave fragments behind.  This module follows the counters along the text of a tree.
-/

namespace Gnunet.Lib.RegexText

mutual

def Alternation.lastHasAtom : Alternation → Bool
  | .single s => s.hasAtom
  | .or _ s => s.hasAtom

def Sequence.hasAtom : Sequence → Bool
  | .empty => false
  | .snoc s p => s.hasAtom || p.hasAtom

def Piece.hasAtom : Piece → Bool
  | .literal _ => true
  | .group a => a.lastHasAtom
  | .quantified p _ => p.hasAtom

end

mutual

def Alternation.passes : Alternation → Bool
  | .single s => s.passes
  | .or a s => a.passes && a.lastHasAtom && s.passes

def Sequence.passes : Sequence → Bool
  | .empty => true
  | .snoc s p => s.passes && p.passes s.hasAtom

def Piece.passes : Piece → Bool → Bool
  | .literal _, _ => true
  | .group a, _ => a.passes
  | .quantified p _, earlier => p.passes earlier && (earlier || p.hasAtom)

end

def Alternation.bars : Alternation → ℕ
  | .single _ => 0
  | .or a _ => a.bars + 1

mutual

/-- The number of fragments left behind by groups whose last alternative has none. -/
def Alternation.leftover : Alternation → ℕ
  | .single s => s.leftover
  | .or a s => a.leftover + s.leftover

def Sequence.leftover : Sequence → ℕ
  | .empty => 0
  | .snoc s p => s.leftover + p.leftover

def Piece.leftover : Piece → ℕ
  | .literal _ => 0
  | .group a => a.leftover + if a.lastHasAtom then 0 else a.bars
  | .quantified p _ => p.leftover

end

mutual

/-- How many groups are open at once. -/
def Alternation.depth : Alternation → ℕ
  | .single s => s.depth
  | .or a s => max a.depth s.depth

def Sequence.depth : Sequence → ℕ
  | .empty => 0
  | .snoc s p => max s.depth p.depth

def Piece.depth : Piece → ℕ
  | .literal _ => 0
  | .group a => a.depth + 1
  | .quantified p _ => p.depth

end

end Gnunet.Lib.RegexText

namespace Gnunet.Regex

open Lib.RegexText List Nat

theorem bind_ok {ε α β : Type} (x : α) (f : α → Except ε β) : (Except.ok x >>= f) = f x := rfl

theorem bind_eq_ok {α β : Type} {x : Except Failure α} {f : α → Except Failure β} {b : β} :
    (x >>= f) = .ok b ↔ ∃ a, x = .ok a ∧ f a = .ok b := by
  cases x <;> simp [bind, Except.bind]

def Rejected {α : Type} (result : Except Failure α) : Prop :=
  (∃ e, result = .error (.null e)) ∨ result = .error .outOfMemory

theorem Rejected.bind {α β : Type} {result : Except Failure α} (h : Rejected result)
    (f : α → Except Failure β) : Rejected (result >>= f) := by
  rcases h with ⟨e, rfl⟩ | rfl
  · exact .inl ⟨e, rfl⟩
  · exact .inr rfl

theorem Rejected.ne_ok {α : Type} {result : Except Failure α} (h : Rejected result) (x : α) :
    result ≠ .ok x := by
  rcases h with ⟨e, rfl⟩ | rfl <;> simp

def quantifierOp : Quantifier → Context → Context
  | .star => nfaAddStarOp
  | .plus => nfaAddPlusOp
  | .question => nfaAddQuestionOp

def quantifierError : Quantifier → ParseError
  | .star => .starAfterNothing
  | .plus => .plusAfterNothing
  | .question => .questionAfterNothing

theorem quantifierOp_length (q : Quantifier) (ctx : Context) :
    (quantifierOp q ctx).stack.length = ctx.stack.length := by
  cases q <;> simp only [quantifierOp, nfaAddStarOp, nfaAddPlusOp, nfaAddQuestionOp] <;> split <;>
    simp_all

variable {ctx : Context}

theorem nfaAddConcatenation_length (h : 2 ≤ ctx.stack.length) :
    ∃ ctx', nfaAddConcatenation ctx = .ok ctx' ∧ ctx'.stack.length + 1 = ctx.stack.length := by
  rw [nfaAddConcatenation]
  match ctx.stack, h with
  | b :: a :: stack, _ => exact ⟨_, rfl, rfl⟩

theorem nfaAddAlternation_length (h : 2 ≤ ctx.stack.length) :
    ∃ ctx', nfaAddAlternation ctx = .ok ctx' ∧ ctx'.stack.length + 1 = ctx.stack.length := by
  rw [nfaAddAlternation]
  match ctx.stack, h with
  | b :: a :: stack, _ => exact ⟨_, rfl, rfl⟩

theorem concatenateAtoms_length (n : ℕ) (h : n + 1 ≤ ctx.stack.length) :
    ∃ ctx', concatenateAtoms (n + 1) ctx = .ok ctx' ∧
      ctx'.stack.length + n = ctx.stack.length := by
  induction n generalizing ctx with
  | zero => exact ⟨ctx, rfl, rfl⟩
  | succ n ih =>
    have htwo : 2 ≤ ctx.stack.length := by omega
    obtain ⟨ctx₁, hconcat, _⟩ := nfaAddConcatenation_length htwo
    have hnext : n + 1 ≤ ctx₁.stack.length := by omega
    obtain ⟨ctx₂, hrest, _⟩ := ih hnext
    refine ⟨ctx₂, ?_, by omega⟩
    rw [concatenateAtoms, hconcat, bind_ok, hrest]

theorem alternateAtoms_length (n : ℕ) (h : n + 1 ≤ ctx.stack.length) :
    ∃ ctx', alternateAtoms n ctx = .ok ctx' ∧ ctx'.stack.length + n = ctx.stack.length := by
  induction n generalizing ctx with
  | zero => exact ⟨ctx, rfl, rfl⟩
  | succ n ih =>
    have htwo : 2 ≤ ctx.stack.length := by omega
    obtain ⟨ctx₁, halternate, _⟩ := nfaAddAlternation_length htwo
    have hnext : n + 1 ≤ ctx₁.stack.length := by omega
    obtain ⟨ctx₂, hrest, _⟩ := ih hnext
    refine ⟨ctx₂, ?_, by omega⟩
    rw [alternateAtoms, halternate, bind_ok, hrest]

namespace Parser

variable {parser parser' : Parser} {left : ℕ}

def saved (p : List (ℕ × ℕ)) : ℕ := (p.map fun counters ↦ counters.1 + counters.2).sum

@[simp] theorem saved_nil : saved [] = 0 := rfl

@[simp] theorem saved_cons (altcount atomcount : ℕ) (p : List (ℕ × ℕ)) :
    saved ((altcount, atomcount) :: p) = altcount + atomcount + saved p := by
  simp [saved]

structure Counted (parser : Parser) (left : ℕ) : Prop where
  length_eq : parser.ctx.stack.length = parser.altcount + parser.atomcount + saved parser.p + left
  atomcount_le : parser.atomcount ≤ 2
  saved_le : ∀ counters ∈ parser.p, counters.2 ≤ 1
  allocated : parser.p ≠ [] ∨ 0 < left → parser.allocated = true
  nesting_le : parser.p.length ≤ maxNesting

theorem counted_init : Counted init 0 := by
  constructor <;> simp [init, contextInit]

section

variable (h : Counted parser left)
include h

theorem joinAtoms_counted :
    ∃ parser', parser.joinAtoms = .ok parser' ∧ Counted parser' left ∧
      parser'.p = parser.p ∧ parser'.altcount = parser.altcount ∧
      parser'.atomcount = min parser.atomcount 1 := by
  have hlength := h.length_eq
  have hle := h.atomcount_le
  rw [joinAtoms]
  split_ifs
  · have htwo : 2 ≤ parser.ctx.stack.length := by omega
    obtain ⟨_, hconcat, _⟩ := nfaAddConcatenation_length htwo
    rw [hconcat]
    refine ⟨_, rfl, ⟨?_, ?_, h.saved_le, h.allocated, h.nesting_le⟩, rfl, rfl, ?_⟩
    · dsimp only
      omega
    · dsimp only
      omega
    · dsimp only
      omega
  · exact ⟨parser, rfl, h, rfl, rfl, by omega⟩

theorem closeGroup_counted (hatoms : parser.atomcount ≠ 0) :
    ∃ ctx, parser.closeGroup = .ok ctx ∧ ctx.stack.length = 1 + saved parser.p + left := by
  have hlength := h.length_eq
  obtain ⟨n, hn⟩ := exists_eq_succ_of_ne_zero hatoms
  have hconcatLength : n + 1 ≤ parser.ctx.stack.length := by omega
  obtain ⟨ctx₁, hconcat, _⟩ := concatenateAtoms_length n hconcatLength
  have halternateLength : parser.altcount + 1 ≤ ctx₁.stack.length := by omega
  obtain ⟨ctx₂, halternate, _⟩ := alternateAtoms_length parser.altcount halternateLength
  refine ⟨ctx₂, ?_, by omega⟩
  rw [closeGroup, hn, hconcat, bind_ok, halternate]

theorem step_opening_full (hfull : maxNesting ≤ parser.p.length) :
    parser.step '(' = .error .outOfMemory := by
  obtain ⟨_, hjoin, -, hp, -⟩ := joinAtoms_counted h
  rw [← hp] at hfull
  simp only [step, hjoin, bind_ok, if_true, if_pos hfull]

theorem step_opening (hroom : parser.p.length < maxNesting) :
    ∃ parser', parser.step '(' = .ok parser' ∧ Counted parser' left ∧
      parser'.p = (parser.altcount, min parser.atomcount 1) :: parser.p ∧
      parser'.altcount = 0 ∧ parser'.atomcount = 0 := by
  obtain ⟨_, hjoin, hnext, hp, halt, hatom⟩ := joinAtoms_counted h
  rw [← hp] at hroom
  simp only [step, hjoin, bind_ok, if_true, if_neg hroom.not_ge]
  refine ⟨_, rfl, ⟨?_, ?_, ?_, ?_, hroom⟩, ?_, rfl, rfl⟩
  · have hlength := hnext.length_eq
    simp only [saved_cons]
    omega
  · exact zero_le _
  · intro counters hmem
    rcases mem_cons.mp hmem with rfl | hmem
    · exact hatom ▸ min_le_right _ _
    · exact hnext.saved_le counters hmem
  · exact fun _ ↦ rfl
  · rw [hp, halt, hatom]

omit h in
theorem step_literal_eq (parser : Parser) (c : Literal) :
    parser.step c.val = (do
      let parser ← parser.joinAtoms
      return { parser with ctx := nfaAddLabel parser.ctx [c.val],
                           atomcount := parser.atomcount + 1 }) := by
  have hc := c.property
  simp only [isOperator, Bool.or_eq_false_iff, beq_eq_false_iff_ne] at hc
  obtain ⟨⟨⟨⟨⟨h1, h2⟩, h3⟩, h4⟩, h5⟩, h6⟩ := hc
  rw [step, if_neg h1, if_neg h3, if_neg h2, if_neg h4, if_neg h5, if_neg h6]

theorem step_literal (c : Literal) :
    ∃ parser', parser.step c.val = .ok parser' ∧ Counted parser' left ∧
      parser'.p = parser.p ∧ parser'.altcount = parser.altcount ∧
      parser'.atomcount = min parser.atomcount 1 + 1 := by
  obtain ⟨_, hjoin, hnext, hp, halt, _⟩ := joinAtoms_counted h
  rw [step_literal_eq, hjoin]
  refine ⟨_, rfl, ⟨?_, ?_, hnext.saved_le, hnext.allocated, hnext.nesting_le⟩, hp, halt, ?_⟩
  · have hlength := hnext.length_eq
    simp only [nfaAddLabel, length_cons]
    omega
  · dsimp only
    omega
  · dsimp only
    omega

omit h in
theorem step_quantifier_eq (parser : Parser) (q : Quantifier) :
    parser.step q.symbol = parser.applyOp (quantifierError q) (quantifierOp q) := by
  cases q <;> simp [step, Quantifier.symbol, quantifierError, quantifierOp]

theorem step_quantifier (q : Quantifier) (hatoms : parser.atomcount ≠ 0) :
    ∃ parser', parser.step q.symbol = .ok parser' ∧ Counted parser' left ∧
      parser'.p = parser.p ∧ parser'.altcount = parser.altcount ∧
      parser'.atomcount = parser.atomcount := by
  rw [step_quantifier_eq, applyOp, if_neg hatoms]
  refine ⟨_, rfl, ⟨?_, h.atomcount_le, h.saved_le, h.allocated, h.nesting_le⟩, rfl, rfl, rfl⟩
  rw [quantifierOp_length, h.length_eq]

theorem step_bar (hatoms : parser.atomcount ≠ 0) :
    ∃ parser', parser.step '|' = .ok parser' ∧ Counted parser' left ∧
      parser'.p = parser.p ∧ parser'.altcount = parser.altcount + 1 ∧ parser'.atomcount = 0 := by
  have hlength := h.length_eq
  obtain ⟨n, hn⟩ := exists_eq_succ_of_ne_zero hatoms
  have hconcatLength : n + 1 ≤ parser.ctx.stack.length := by omega
  obtain ⟨ctx, hconcat, _⟩ := concatenateAtoms_length n hconcatLength
  have hstep : parser.step '|' =
      .ok { parser with ctx, atomcount := 0, altcount := parser.altcount + 1 } := by
    simp only [step]
    rw [hn, hconcat]
    rfl
  refine ⟨_, hstep, ⟨?_, zero_le _, h.saved_le, h.allocated, h.nesting_le⟩, rfl, rfl, rfl⟩
  dsimp only
  omega

/-- A group without fragment in its last alternative is ignored, its other fragments stay. -/
theorem step_closing {altcount atomcount : ℕ} {p : List (ℕ × ℕ)}
    (hp : parser.p = (altcount, atomcount) :: p) :
    ∃ parser', parser.step ')' = .ok parser' ∧
      Counted parser' (left + if parser.atomcount = 0 then parser.altcount else 0) ∧
      parser'.p = p ∧ parser'.altcount = altcount ∧
      parser'.atomcount = atomcount + if parser.atomcount = 0 then 0 else 1 := by
  have hlength := h.length_eq
  have hallocated : parser.allocated = true := h.allocated (.inl (by rw [hp]; simp))
  have hsaved := h.saved_le
  have hnesting := h.nesting_le
  rw [hp] at hsaved hlength hnesting
  rw [saved_cons] at hlength
  have hroom : p.length ≤ maxNesting := le_of_succ_le hnesting
  have hatom : atomcount ≤ 1 := hsaved _ mem_cons_self
  have houter (counters : ℕ × ℕ) (hmem : counters ∈ p) := hsaved counters (mem_cons_of_mem _ hmem)
  by_cases hatoms : parser.atomcount = 0
  · have hstep : parser.step ')' = .ok { parser with p, altcount, atomcount } := by
      simp only [step, if_false, Char.reduceEq, if_true, hp, hatoms]
    rw [if_pos hatoms, if_pos hatoms]
    refine ⟨_, hstep, ⟨?_, le_succ_of_le hatom, houter, fun _ ↦ hallocated, hroom⟩, rfl, rfl, rfl⟩
    dsimp only
    omega
  · obtain ⟨ctx, hclose, hctx⟩ := closeGroup_counted h hatoms
    have hstep : parser.step ')' =
        .ok { parser with ctx, p, altcount, atomcount := atomcount + 1 } := by
      simp only [step, hp, hatoms, hclose]
      rfl
    rw [hp, saved_cons] at hctx
    rw [if_neg hatoms, if_neg hatoms]
    refine ⟨_, hstep, ⟨?_, succ_le_succ hatom, houter, fun _ ↦ hallocated, hroom⟩, rfl, rfl, rfl⟩
    dsimp only
    omega

/-- A step of the construction is rejected or follows the reader of the syntax. -/
theorem step_follows {reader : Reader}
    (hdepth : parser.p.length = reader.outer.length)
    (hempty : reader.top.current = .empty → parser.atomcount = 0) (c : Char) :
    Rejected (parser.step c) ∨
      ∃ parser' left' reader', parser.step c = .ok parser' ∧ Counted parser' left' ∧
        reader.step (token c) = some reader' ∧ parser'.p.length = reader'.outer.length ∧
        (reader'.top.current = .empty → parser'.atomcount = 0) := by
  have hc := symbol_token c
  generalize token c = t at hc
  subst hc
  cases t with
  | opening =>
    rcases lt_or_ge parser.p.length maxNesting with hroom | hfull
    · obtain ⟨parser', hstep, hcounted, hp, -, hatoms⟩ := step_opening h hroom
      exact .inr ⟨parser', left, _, hstep, hcounted, rfl, by simp [hp, hdepth], fun _ ↦ hatoms⟩
    · exact .inl (.inr (step_opening_full h hfull))
  | closing =>
    cases hp : parser.p with
    | nil => exact .inl (.inl ⟨.missingOpening, by simp [step, hp, Token.symbol]⟩)
    | cons counters p =>
      rw [hp] at hdepth
      cases houter : reader.outer with
      | nil => simp [houter] at hdepth
      | cons frame outer =>
        have hlength : p.length = outer.length := by simpa [houter] using hdepth
        have hread : reader.step .closing =
            some (Reader.push ⟨frame, outer⟩ (.group reader.top.close)) := by
          simp [Reader.step, houter]
        obtain ⟨parser', hstep, hcounted, hp', -⟩ := step_closing h hp
        exact .inr ⟨parser', _, _, hstep, hcounted, hread, by rw [hp', hlength]; rfl,
          fun hnone ↦ by cases hnone⟩
  | bar =>
    by_cases hatoms : parser.atomcount = 0
    · exact .inl (.inl ⟨.barAfterNothing, by simp [step, hatoms, Token.symbol]⟩)
    · obtain ⟨parser', hstep, hcounted, hp, -, hatoms'⟩ := step_bar h hatoms
      exact .inr ⟨parser', left, _, hstep, hcounted, rfl, by rw [hp, hdepth], fun _ ↦ hatoms'⟩
  | quantifier q =>
    by_cases hatoms : parser.atomcount = 0
    · exact .inl (.inl ⟨quantifierError q, by
        simp [Token.symbol, step_quantifier_eq, applyOp, hatoms]⟩)
    · obtain ⟨parser', hstep, hcounted, hp, -, -⟩ := step_quantifier h q hatoms
      cases hcurrent : reader.top.current with
      | empty => exact absurd (hempty hcurrent) hatoms
      | snoc s p =>
        have hread : reader.step (.quantifier q) =
            some ⟨⟨reader.top.before, .snoc s (.quantified p q)⟩, reader.outer⟩ := by
          simp [Reader.step, hcurrent]
        exact .inr ⟨parser', left, _, hstep, hcounted, hread, by rw [hp, hdepth],
          fun hnone ↦ by cases hnone⟩
  | literal l =>
    obtain ⟨parser', hstep, hcounted, hp, -⟩ := step_literal h l
    exact .inr ⟨parser', left, _, hstep, hcounted, rfl, by rw [hp, hdepth]; rfl,
      fun hnone ↦ by cases hnone⟩

theorem loop_follows (reader : Reader)
    (hdepth : parser.p.length = reader.outer.length)
    (hempty : reader.top.current = .empty → parser.atomcount = 0) (regexp : List Char) :
    Rejected (parser.loop regexp) ∨
      ∃ parser' left' reader', parser.loop regexp = .ok parser' ∧ Counted parser' left' ∧
        reader.read regexp = some reader' ∧ parser'.p.length = reader'.outer.length := by
  induction regexp generalizing parser left reader with
  | nil => exact .inr ⟨parser, left, reader, rfl, h, rfl, hdepth⟩
  | cons c regexp ih =>
    rcases step_follows h hdepth hempty c with
      hstep | ⟨next, left', reader', hstep, hnext, hread, hdepth', hempty'⟩
    · exact .inl (hstep.bind _)
    · rw [loop, hstep, Reader.read_cons, hread]
      exact ih hnext reader' hdepth' hempty'

end

theorem loop_append (parser : Parser) (first second : List Char) :
    parser.loop (first ++ second) = parser.loop first >>= fun next ↦ next.loop second := by
  induction first generalizing parser with
  | nil => rfl
  | cons c first ih =>
    rw [cons_append, loop, loop]
    cases parser.step c with
    | error e => rfl
    | ok next => rw [bind_ok, bind_ok, ih]

/-- A text is rejected unless it passes and leaves room for the counters of its groups. -/
def Reads (parser : Parser) (text : List Char) (passes : Bool) (post : Parser → Prop) : Prop :=
  if passes then ∃ parser', parser.loop text = .ok parser' ∧ post parser'
  else Rejected (parser.loop text)

namespace Reads

variable {first second : List Char} {passes₁ passes₂ : Bool}
  {post post₁ post₂ : Parser → Prop} {c : Char}

theorem append (h₁ : Reads parser first passes₁ post₁)
    (h₂ : ∀ next, post₁ next → Reads next second passes₂ post₂) :
    Reads parser (first ++ second) (passes₁ && passes₂) post₂ := by
  cases passes₁ with
  | false =>
    rw [Reads, loop_append]
    exact Rejected.bind h₁ _
  | true =>
    obtain ⟨next, hloop, hpost⟩ := h₁
    have hrest := h₂ next hpost
    rw [Reads, loop_append, hloop]
    exact hrest

theorem single (h : ∃ parser', parser.step c = .ok parser' ∧ post parser') :
    Reads parser [c] true post := by
  obtain ⟨next, hstep, hpost⟩ := h
  exact ⟨next, by rw [loop, hstep]; rfl, hpost⟩

theorem rejected (h : Rejected (parser.step c)) : Reads parser [c] false post :=
  h.bind _

end Reads

/-- The part leaves its fragments behind, the groups around are the same, and there is an atom as
told. -/
structure Behind (p : List (ℕ × ℕ)) (left altcount : ℕ) (hasAtom : Bool) (parser : Parser) :
    Prop where
  counted : Counted parser left
  p_eq : parser.p = p
  altcount_eq : parser.altcount = altcount
  atomcount_eq : parser.atomcount = 0 ↔ hasAtom = false

section

variable {hasAtom : Bool} (h : Counted parser left)
  (hatoms : parser.atomcount = 0 ↔ hasAtom = false)
include h hatoms

theorem reads_quantifier (q : Quantifier) :
    Reads parser [q.symbol] hasAtom (Behind parser.p left parser.altcount hasAtom) := by
  cases hasAtom with
  | false =>
    apply Reads.rejected
    exact .inl ⟨quantifierError q, by rw [step_quantifier_eq, applyOp, if_pos (hatoms.mpr rfl)]⟩
  | true =>
    apply Reads.single
    have hne : parser.atomcount ≠ 0 := fun h0 ↦ absurd (hatoms.mp h0) (by simp)
    obtain ⟨parser', hstep, hcounted, hp, halt, hatom⟩ := step_quantifier h q hne
    exact ⟨parser', hstep, hcounted, hp, halt, by rw [hatom]; exact hatoms⟩

theorem reads_bar :
    Reads parser ['|'] hasAtom (Behind parser.p left (parser.altcount + 1) false) := by
  cases hasAtom with
  | false =>
    apply Reads.rejected
    exact .inl ⟨.barAfterNothing, by simp [step, hatoms.mpr rfl]⟩
  | true =>
    apply Reads.single
    have hne : parser.atomcount ≠ 0 := fun h0 ↦ absurd (hatoms.mp h0) (by simp)
    obtain ⟨parser', hstep, hcounted, hp, halt, hatom⟩ := step_bar h hne
    exact ⟨parser', hstep, hcounted, hp, halt, by simp [hatom]⟩

/-- A group counts as an atom if its last alternative has one, otherwise the fragments of the others
are left behind. -/
theorem reads_closing {altcount atomcount : ℕ} {p : List (ℕ × ℕ)}
    (hp : parser.p = (altcount, atomcount) :: p) :
    Reads parser [')'] true fun parser' ↦
      Counted parser' (left + if hasAtom then 0 else parser.altcount) ∧ parser'.p = p ∧
        parser'.altcount = altcount ∧ parser'.atomcount = atomcount + if hasAtom then 1 else 0 := by
  apply Reads.single
  have hstep := step_closing h hp
  simp only [hatoms] at hstep
  cases hasAtom with
  | false => exact hstep
  | true => exact hstep

end

/-- The counters of so many more nested groups can be saved. -/
def fits (parser : Parser) (depth : ℕ) : Bool := parser.p.length + depth ≤ maxNesting

theorem fits_max (parser : Parser) (i j : ℕ) :
    parser.fits (max i j) = (parser.fits i && parser.fits j) := by
  have hboth : parser.p.length + max i j ≤ maxNesting ↔
      parser.p.length + i ≤ maxNesting ∧ parser.p.length + j ≤ maxNesting := by omega
  simp only [fits, hboth, Bool.decide_and]

/-- The parentheses around an alternation, given how the alternation is read. -/
theorem reads_group {a : Alternation} {parser : Parser} {left : ℕ} {earlier : Bool}
    (h : Counted parser left) (hatom : parser.atomcount = 0 ↔ earlier = false)
    (hinside : ∀ inner, Counted inner left → inner.altcount = 0 → inner.atomcount = 0 →
      Reads inner a.text (a.passes && inner.fits a.depth)
        (Behind inner.p (left + a.leftover) a.bars a.lastHasAtom)) :
    Reads parser (Piece.group a).text
      ((Piece.group a).passes earlier && parser.fits (Piece.group a).depth)
      (Behind parser.p (left + (Piece.group a).leftover) parser.altcount
        (earlier || (Piece.group a).hasAtom)) := by
  rw [Piece.passes, Piece.depth]
  by_cases hroom : parser.p.length < maxNesting
  · have hopening : Reads parser ['('] true fun next ↦ Counted next left ∧
        next.p = (parser.altcount, min parser.atomcount 1) :: parser.p ∧
        next.altcount = 0 ∧ next.atomcount = 0 := Reads.single (step_opening h hroom)
    have hpasses : (a.passes && parser.fits (a.depth + 1)) =
        (true && ((a.passes && decide (parser.p.length + 1 + a.depth ≤ maxNesting)) && true)) := by
      have hdepth : parser.p.length + (a.depth + 1) ≤ maxNesting ↔
          parser.p.length + 1 + a.depth ≤ maxNesting := by omega
      simp only [fits, hdepth, Bool.true_and, Bool.and_true]
    rw [hpasses]
    apply hopening.append
    rintro inner ⟨hinner, hp, halt, hatoms⟩
    have hread := hinside inner hinner halt hatoms
    rw [fits, hp, length_cons] at hread
    rw [← hp] at hread
    apply hread.append
    intro next hnext
    have hclosing := reads_closing hnext.counted hnext.atomcount_eq (hnext.p_eq.trans hp)
    obtain ⟨parser', hloop, hcounted, hp', halt', hatom'⟩ := hclosing
    refine ⟨parser', hloop, ?_, hp', halt', ?_⟩
    · rw [hnext.altcount_eq, add_assoc] at hcounted
      exact hcounted
    · rw [hatom', Piece.hasAtom]
      cases a.lastHasAtom <;> simp [hatom]
  · have hfits : parser.fits (a.depth + 1) = false := decide_eq_false (by omega)
    have hfull : Rejected (parser.step '(') := .inr (step_opening_full h (not_lt.mp hroom))
    rw [hfits, Bool.and_false]
    exact hfull.bind _

mutual

theorem reads_alternation (a : Alternation) {parser : Parser} {left : ℕ} (h : Counted parser left)
    (halt : parser.altcount = 0) (hatom : parser.atomcount = 0) :
    Reads parser a.text (a.passes && parser.fits a.depth)
      (Behind parser.p (left + a.leftover) a.bars a.lastHasAtom) := by
  cases a with
  | single s =>
    rw [Alternation.bars, ← halt]
    exact reads_sequence s h hatom
  | or a s =>
    have hbar : Reads parser (a.text ++ ['|']) ((a.passes && parser.fits a.depth) && a.lastHasAtom)
        (Behind parser.p (left + a.leftover) (a.bars + 1) false) := by
      apply (reads_alternation a h halt hatom).append
      intro next hnext
      have hread := reads_bar hnext.counted hnext.atomcount_eq
      rwa [hnext.p_eq, hnext.altcount_eq] at hread
    have htext : (Alternation.or a s).text = (a.text ++ ['|']) ++ s.text := by
      simp [Alternation.text]
    have hpasses : ((Alternation.or a s).passes && parser.fits (Alternation.or a s).depth) =
        (((a.passes && parser.fits a.depth) && a.lastHasAtom) &&
          (s.passes && parser.fits s.depth)) := by
      simp only [Alternation.passes, Alternation.depth, fits_max]
      ac_rfl
    rw [htext, hpasses]
    apply hbar.append
    intro next hnext
    have hread := reads_sequence s hnext.counted (hnext.atomcount_eq.mpr rfl)
    rwa [fits, hnext.p_eq, hnext.altcount_eq, add_assoc] at hread

theorem reads_sequence (s : Sequence) {parser : Parser} {left : ℕ} (h : Counted parser left)
    (hatom : parser.atomcount = 0) :
    Reads parser s.text (s.passes && parser.fits s.depth)
      (Behind parser.p (left + s.leftover) parser.altcount s.hasAtom) := by
  cases s with
  | empty =>
    have hfits : parser.fits 0 = true := decide_eq_true h.nesting_le
    rw [Sequence.passes, Sequence.depth, hfits]
    exact ⟨parser, rfl, h, rfl, rfl, by simp [hatom, Sequence.hasAtom]⟩
  | snoc s p =>
    have hpasses : ((Sequence.snoc s p).passes && parser.fits (Sequence.snoc s p).depth) =
        ((s.passes && parser.fits s.depth) && (p.passes s.hasAtom && parser.fits p.depth)) := by
      simp only [Sequence.passes, Sequence.depth, fits_max]
      ac_rfl
    rw [hpasses]
    apply (reads_sequence s h hatom).append
    intro next hnext
    have hread := reads_piece p hnext.counted hnext.atomcount_eq
    rwa [fits, hnext.p_eq, hnext.altcount_eq, add_assoc] at hread

theorem reads_piece (p : Piece) {parser : Parser} {left : ℕ} {earlier : Bool}
    (h : Counted parser left) (hatom : parser.atomcount = 0 ↔ earlier = false) :
    Reads parser p.text (p.passes earlier && parser.fits p.depth)
      (Behind parser.p (left + p.leftover) parser.altcount (earlier || p.hasAtom)) := by
  cases p with
  | literal c =>
    have hfits : parser.fits 0 = true := decide_eq_true h.nesting_le
    rw [Piece.passes, Piece.depth, hfits]
    obtain ⟨parser', hstep, hcounted, hp, halt, hatom'⟩ := step_literal h c
    exact Reads.single ⟨parser', hstep, hcounted, hp, halt, by simp [hatom', Piece.hasAtom]⟩
  | group a => exact reads_group h hatom fun _ ↦ reads_alternation a
  | quantified p q =>
    have hpasses : ((Piece.quantified p q).passes earlier && parser.fits p.depth) =
        ((p.passes earlier && parser.fits p.depth) && (earlier || p.hasAtom)) := by
      simp only [Piece.passes]
      ac_rfl
    rw [Piece.depth, hpasses]
    apply (reads_piece p h hatom).append
    intro next hnext
    have hread := reads_quantifier hnext.counted hnext.atomcount_eq q
    rwa [hnext.p_eq, hnext.altcount_eq] at hread

end

section Numbers

variable {ctx' : Context} {n : ℕ}

theorem concatenateAtoms_stateId (h : concatenateAtoms n ctx = .ok ctx') :
    ctx'.stateId = ctx.stateId := by
  fun_induction concatenateAtoms n ctx with
  | case1 => cases h
  | case2 => cases h; rfl
  | case3 n ctx ih =>
    obtain ⟨next, hconcat, hrest⟩ := bind_eq_ok.mp h
    rw [ih next hrest]
    unfold nfaAddConcatenation at hconcat
    split at hconcat <;> cases hconcat
    rfl

theorem alternateAtoms_stateId (h : alternateAtoms n ctx = .ok ctx') :
    ctx'.stateId = ctx.stateId + 2 * n := by
  fun_induction alternateAtoms n ctx with
  | case1 => cases h; rfl
  | case2 n ctx ih =>
    obtain ⟨next, halternate, hrest⟩ := bind_eq_ok.mp h
    rw [ih next hrest]
    unfold nfaAddAlternation at halternate
    split at halternate <;> cases halternate
    dsimp only
    omega

theorem closeGroup_stateId (h : parser.closeGroup = .ok ctx') :
    ctx'.stateId = parser.ctx.stateId + 2 * parser.altcount := by
  obtain ⟨next, hconcat, halternate⟩ := bind_eq_ok.mp h
  rw [alternateAtoms_stateId halternate, concatenateAtoms_stateId hconcat]

/-- The numbers given to states, with those that the alternatives of the open groups will take. -/
def numbers (parser : Parser) : ℕ :=
  parser.ctx.stateId + 2 * (parser.altcount + (parser.p.map Prod.fst).sum)

theorem numbers_joinAtoms (h : parser.joinAtoms = .ok parser') :
    parser'.numbers = parser.numbers := by
  unfold joinAtoms at h
  split_ifs at h
  · obtain ⟨next, hconcat, hreturn⟩ := bind_eq_ok.mp h
    cases hreturn
    have hid := concatenateAtoms_stateId (n := 2) (bind_eq_ok.mpr ⟨next, hconcat, rfl⟩)
    simp only [numbers, hid]
  · cases h
    rfl

theorem numbers_applyOp {e : ParseError} {op : Context → Context}
    (hop : (op parser.ctx).stateId ≤ parser.ctx.stateId + 2)
    (h : parser.applyOp e op = .ok parser') : parser'.numbers ≤ parser.numbers + 2 := by
  unfold applyOp at h
  split_ifs at h
  cases h
  simp only [numbers]
  omega

theorem numbers_step {c : Char} (h : parser.step c = .ok parser') :
    parser'.numbers ≤ parser.numbers + 2 := by
  unfold step at h
  split_ifs at h
  · obtain ⟨next, hjoin, h⟩ := bind_eq_ok.mp h
    rw [← numbers_joinAtoms hjoin]
    split_ifs at h
    cases h
    simp [numbers]
  · obtain ⟨next, hconcat, h⟩ := bind_eq_ok.mp h
    cases h
    simp only [numbers, concatenateAtoms_stateId hconcat]
    omega
  · cases hp : parser.p with
    | nil => simp [hp] at h
    | cons counters p =>
      rw [hp] at h
      cases h
      simp only [numbers, hp, map_cons, sum_cons]
      omega
  · cases hp : parser.p with
    | nil => simp [hp] at h
    | cons counters p =>
      rw [hp] at h
      obtain ⟨next, hclose, h⟩ := bind_eq_ok.mp h
      cases h
      simp only [numbers, closeGroup_stateId hclose, hp, map_cons, sum_cons]
      omega
  · apply numbers_applyOp _ h
    unfold nfaAddStarOp
    split <;> simp
  · apply numbers_applyOp _ h
    unfold nfaAddPlusOp
    split <;> simp
  · apply numbers_applyOp _ h
    unfold nfaAddQuestionOp
    split <;> simp
  · obtain ⟨next, hjoin, h⟩ := bind_eq_ok.mp h
    rw [← numbers_joinAtoms hjoin]
    cases h
    simp only [numbers, nfaAddLabel]
    omega

theorem numbers_loop {regexp : List Char} (h : parser.loop regexp = .ok parser') :
    parser'.numbers ≤ parser.numbers + 2 * regexp.length := by
  induction regexp generalizing parser with
  | nil => cases h; rfl
  | cons c regexp ih =>
    obtain ⟨next, hstep, hrest⟩ := bind_eq_ok.mp h
    have hnext := numbers_step hstep
    have hlast := ih hrest
    rw [length_cons]
    omega

end Numbers

/-- The counter of the atoms wraps around at the end of a string whose last alternative has no
atom. -/
theorem finish_without_atom {altcount : ℕ} (h : Behind [] left altcount false parser) :
    parser.finish = .error .assertion := by
  have hatoms := h.atomcount_eq.mpr rfl
  rw [finish, if_neg (not_not.mpr h.p_eq), closeGroup, hatoms]
  rfl

/-- Fragments left behind are found at the end, when the saved counters are already freed. -/
theorem finish_with_leftover {altcount : ℕ} (h : Behind [] left altcount true parser)
    (hleft : 0 < left) : parser.finish = .error .invalidMemory := by
  have hne : parser.atomcount ≠ 0 := fun h0 ↦ absurd (h.atomcount_eq.mp h0) (by simp)
  obtain ⟨ctx, hclose, hlength⟩ := closeGroup_counted h.counted hne
  have hallocated := h.counted.allocated (.inr hleft)
  rw [finish, if_neg (not_not.mpr h.p_eq), hclose, bind_ok]
  match hstack : ctx.stack with
  | [] => rfl
  | [_] =>
    rw [hstack] at hlength
    simp only [length_cons, length_nil] at hlength
    omega
  | _ :: _ :: _ => exact if_pos hallocated

end Parser

section Outcome

variable {regex : List Char} {len : ℕ} {a : Alternation}

theorem constructNfa_eq (h : regex.take len ≠ []) :
    constructNfa regex len = Parser.init.loop (regex.take len) >>= Parser.finish := by
  have hne : ¬ (regex = [] ∨ len = 0) := by
    rintro (rfl | rfl)
    exacts [h (take_nil), h (take_zero)]
  rw [constructNfa, if_neg hne]

theorem constructNfa_empty (h : regex.take len = []) :
    constructNfa regex len = .error (.null .emptyRegex) := by
  rw [constructNfa, if_pos]
  exact (take_eq_nil_iff.mp h).symm

/-- A string that is not the text of a syntax tree is rejected. -/
theorem constructNfa_of_parse_none (h : parse (regex.take len) = none) :
    Rejected (constructNfa regex len) := by
  by_cases hempty : regex.take len = []
  · exact .inl ⟨_, constructNfa_empty hempty⟩
  rw [constructNfa_eq hempty]
  rcases Parser.loop_follows Parser.counted_init Reader.start rfl (fun _ ↦ rfl)
    (regex.take len) with hloop | ⟨parser, left, reader, hloop, -, hread, hdepth⟩
  · exact hloop.bind _
  · rw [parse, hread, Option.bind_some] at h
    have hp : parser.p ≠ [] := by
      intro hp
      rw [hp] at hdepth
      rw [length_eq_zero_iff.mp hdepth.symm] at h
      cases h
    exact .inl ⟨.unbalanced, by rw [hloop, bind_ok, Parser.finish, if_pos hp]⟩

theorem reads_text (a : Alternation) :
    Parser.init.Reads a.text (a.passes && decide (a.depth ≤ maxNesting))
      (Parser.Behind [] a.leftover a.bars a.lastHasAtom) := by
  have hread := Parser.reads_alternation a Parser.counted_init rfl rfl
  rw [Parser.fits, Parser.init, length_nil, zero_add, zero_add] at hread
  exact hread

variable (htext : a.text = regex.take len) (hne : regex.take len ≠ [])

include htext hne

theorem constructNfa_rejected (hpasses : a.passes = true → maxNesting < a.depth) :
    Rejected (constructNfa regex len) := by
  have hread := reads_text a
  have hnot : (a.passes && decide (a.depth ≤ maxNesting)) = false := by
    simpa [Bool.and_eq_false_imp] using hpasses
  rw [hnot, htext] at hread
  rw [constructNfa_eq hne]
  exact Rejected.bind hread _

theorem constructNfa_passes (hpasses : a.passes = true) (hdepth : a.depth ≤ maxNesting) :
    ∃ parser, constructNfa regex len = parser.finish ∧
      Parser.Behind [] a.leftover a.bars a.lastHasAtom parser := by
  have hread := reads_text a
  rw [hpasses, decide_eq_true hdepth, htext] at hread
  obtain ⟨parser, hloop, hbehind⟩ := hread
  exact ⟨parser, by rw [constructNfa_eq hne, hloop, bind_ok], hbehind⟩

end Outcome

end Gnunet.Regex
