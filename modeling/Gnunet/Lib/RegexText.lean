import Gnunet.Lib.Runs
import Mathlib.Computability.Language

/-!
# Regular expressions as text

The syntax trees of regular expressions over concatenation, `|`, `*`, `+`, `?` and parentheses,
the text of a tree and the language it denotes.  Groups and alternatives may be empty; an empty
one denotes the empty word.  A reader that keeps one frame per open parenthesis turns a text back
into its tree, so that a text has at most one tree.
-/

namespace Gnunet.Lib.RegexText

open scoped Computability

def isOperator (c : Char) : Bool :=
  c == '(' || c == ')' || c == '|' || c == '*' || c == '+' || c == '?'

abbrev Literal := {c : Char // isOperator c = false}

inductive Quantifier
  | star
  | plus
  | question
  deriving DecidableEq

namespace Quantifier

def symbol : Quantifier → Char
  | star => '*'
  | plus => '+'
  | question => '?'

def apply : Quantifier → Language Char → Language Char
  | star, L => L∗
  | plus, L => L * L∗
  | question, L => 1 + L

end Quantifier

mutual

inductive Alternation
  | single (sequence : Sequence)
  | or (before : Alternation) (sequence : Sequence)

inductive Sequence
  | empty
  | snoc (before : Sequence) (piece : Piece)

inductive Piece
  | literal (c : Literal)
  | group (alternation : Alternation)
  | quantified (piece : Piece) (quantifier : Quantifier)

end

mutual

def Alternation.text : Alternation → List Char
  | .single s => s.text
  | .or a s => a.text ++ '|' :: s.text

def Sequence.text : Sequence → List Char
  | .empty => []
  | .snoc s p => s.text ++ p.text

def Piece.text : Piece → List Char
  | .literal c => [c.val]
  | .group a => '(' :: (a.text ++ [')'])
  | .quantified p q => p.text ++ [q.symbol]

end

mutual

def Alternation.denote : Alternation → Language Char
  | .single s => s.denote
  | .or a s => a.denote + s.denote

def Sequence.denote : Sequence → Language Char
  | .empty => 1
  | .snoc s p => s.denote * p.denote

def Piece.denote : Piece → Language Char
  | .literal c => {[c.val]}
  | .group a => a.denote
  | .quantified p q => q.apply p.denote

end

inductive Token
  | opening
  | closing
  | bar
  | quantifier (q : Quantifier)
  | literal (c : Literal)

def token (c : Char) : Token :=
  if h : isOperator c = false then .literal ⟨c, h⟩
  else if c = '(' then .opening
  else if c = ')' then .closing
  else if c = '|' then .bar
  else if c = '*' then .quantifier .star
  else if c = '+' then .quantifier .plus
  else .quantifier .question

def Token.symbol : Token → Char
  | opening => '('
  | closing => ')'
  | bar => '|'
  | quantifier q => q.symbol
  | literal c => c.val

theorem symbol_token (c : Char) : (token c).symbol = c := by
  unfold token
  by_cases h : isOperator c = false
  · rw [dif_pos h, Token.symbol]
  · rw [dif_neg h]
    simp only [isOperator] at h
    split_ifs <;> simp_all [Token.symbol, Quantifier.symbol]

@[simp] theorem token_opening : token '(' = .opening := by simp [token, isOperator]

@[simp] theorem token_closing : token ')' = .closing := by simp [token, isOperator]

@[simp] theorem token_quantifier (q : Quantifier) : token q.symbol = .quantifier q := by
  cases q <;> simp [token, isOperator, Quantifier.symbol]

@[simp] theorem token_literal (c : Literal) : token c.val = .literal c := by
  simp [token, c.property]

/-- What was read since a parenthesis was opened: the alternatives before the last bar and the
pieces of the current one. -/
structure Frame where
  before : Option Alternation
  current : Sequence

namespace Frame

def close (frame : Frame) : Alternation :=
  match frame.before with
  | none => .single frame.current
  | some a => .or a frame.current

def text (frame : Frame) : List Char := frame.close.text

theorem text_snoc (before : Option Alternation) (s : Sequence) (p : Piece) :
    text ⟨before, .snoc s p⟩ = text ⟨before, s⟩ ++ p.text := by
  cases before <;> simp [text, close, Alternation.text, Sequence.text]

end Frame

def Alternation.frame : Alternation → Frame
  | .single s => ⟨none, s⟩
  | .or a s => ⟨some a, s⟩

@[simp] theorem Alternation.close_frame (a : Alternation) : a.frame.close = a := by
  cases a <;> rfl

structure Reader where
  top : Frame
  outer : List Frame

namespace Reader

def start : Reader := ⟨⟨none, .empty⟩, []⟩

def push (reader : Reader) (piece : Piece) : Reader :=
  { reader with top := { reader.top with current := .snoc reader.top.current piece } }

/-- Reading one character; a parenthesis without partner or a quantifier without operand stops
the reader. -/
def step (reader : Reader) : Token → Option Reader
  | .opening => some ⟨⟨none, .empty⟩, reader.top :: reader.outer⟩
  | .closing =>
    match reader.outer with
    | [] => none
    | frame :: outer => some (push ⟨frame, outer⟩ (.group reader.top.close))
  | .bar => some ⟨⟨some reader.top.close, .empty⟩, reader.outer⟩
  | .quantifier q =>
    match reader.top.current with
    | .empty => none
    | .snoc s p => some ⟨⟨reader.top.before, .snoc s (.quantified p q)⟩, reader.outer⟩
  | .literal c => some (reader.push (.literal c))

def read : Reader → List Char → Option Reader := Runs.run fun reader c ↦ reader.step (token c)

end Reader

def parse (text : List Char) : Option Alternation :=
  (Reader.start.read text).bind fun reader ↦
    match reader.outer with
    | [] => some reader.top.close
    | _ :: _ => none

namespace Reader

variable {reader reader' : Reader} {c : Char} {text : List Char}

@[simp] theorem read_nil (reader : Reader) : reader.read [] = some reader := rfl

@[simp] theorem read_cons (reader : Reader) (c : Char) (text : List Char) :
    reader.read (c :: text) = (reader.step (token c)).bind fun next ↦ next.read text := rfl

theorem read_append (reader : Reader) (first second : List Char) :
    reader.read (first ++ second) = (reader.read first).bind fun next ↦ next.read second :=
  Runs.run_append reader first second

def outerText : List Frame → List Char
  | [] => []
  | frame :: outer => outerText outer ++ (frame.text ++ ['('])

def seen (reader : Reader) : List Char := outerText reader.outer ++ reader.top.text

theorem seen_push (reader : Reader) (p : Piece) : (reader.push p).seen = reader.seen ++ p.text := by
  simp [seen, push, Frame.text_snoc]

theorem step_seen (h : reader.step (token c) = some reader') :
    reader'.seen = reader.seen ++ [c] := by
  have hc := symbol_token c
  generalize token c = t at h hc
  cases t with
  | opening =>
    cases h
    simp [seen, outerText, Frame.text, Frame.close, Alternation.text, Sequence.text, ← hc,
      Token.symbol]
  | closing =>
    simp only [step] at h
    split at h
    · cases h
    · rename_i frame outer houter
      cases h
      rw [seen_push]
      simp [seen, houter, outerText, Piece.text, Frame.text, ← hc, Token.symbol]
  | bar =>
    cases h
    simp [seen, Frame.text, Frame.close, Alternation.text, Sequence.text, ← hc, Token.symbol]
  | quantifier q =>
    simp only [step] at h
    split at h
    · cases h
    · rename_i s p hcurrent
      cases h
      have htop : reader.top = ⟨reader.top.before, .snoc s p⟩ := by rw [← hcurrent]
      rw [seen, seen, htop, Frame.text_snoc, Frame.text_snoc]
      simp [Piece.text, ← hc, Token.symbol]
  | literal l =>
    cases h
    rw [seen_push, Piece.text, ← hc, Token.symbol]

theorem read_seen (h : reader.read text = some reader') : reader'.seen = reader.seen ++ text := by
  induction text generalizing reader with
  | nil =>
    cases h
    simp
  | cons c text ih =>
    obtain ⟨_, hstep, hrest⟩ := Option.bind_eq_some_iff.mp h
    rw [ih hrest, step_seen hstep]
    simp

mutual

/-- Reading the text of a tree rebuilds the tree, whatever was read before. -/
theorem read_alternation (a : Alternation) (outer : List Frame) :
    read ⟨⟨none, .empty⟩, outer⟩ a.text = some ⟨a.frame, outer⟩ := by
  cases a with
  | single s => exact read_sequence s none outer
  | or a s =>
    rw [Alternation.text, read_append, read_alternation a outer, Option.bind_some, read_cons]
    simp only [step, Alternation.close_frame]
    exact read_sequence s (some a) outer

theorem read_sequence (s : Sequence) (before : Option Alternation) (outer : List Frame) :
    read ⟨⟨before, .empty⟩, outer⟩ s.text = some ⟨⟨before, s⟩, outer⟩ := by
  cases s with
  | empty => rfl
  | snoc s p =>
    rw [Sequence.text, read_append, read_sequence s before outer]
    exact read_piece p ⟨⟨before, s⟩, outer⟩

theorem read_piece (p : Piece) (reader : Reader) : reader.read p.text = some (reader.push p) := by
  cases p with
  | literal c => simp [Piece.text, step]
  | group a =>
    rw [Piece.text, read_cons, token_opening]
    simp only [step, Option.bind_some]
    rw [read_append, read_alternation a (reader.top :: reader.outer)]
    simp [step]
  | quantified p q =>
    rw [Piece.text, read_append, read_piece p reader]
    simp [step, push]

end

end Reader

theorem parse_text (a : Alternation) : parse a.text = some a := by
  rw [parse, Reader.start, Reader.read_alternation a []]
  simp

theorem text_of_parse {text : List Char} {a : Alternation} (h : parse text = some a) :
    a.text = text := by
  obtain ⟨_, hread, hclose⟩ := Option.bind_eq_some_iff.mp h
  have hseen := Reader.read_seen hread
  split at hclose
  · rename_i houter
    cases hclose
    rw [Reader.seen, houter] at hseen
    exact hseen
  · cases hclose

theorem Alternation.text_injective : Function.Injective Alternation.text := by
  intro a b h
  have hparse := parse_text a
  rw [h, parse_text b] at hparse
  exact (Option.some.inj hparse).symm

end Gnunet.Lib.RegexText
