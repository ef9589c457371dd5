import Gnunet.Lib.Worklist
import Gnunet.Regex.Automaton
import Gnunet.Util.CommonAllocation

/-!
# Construction and evaluation of NFAs

`constructNfa` reads a regex character by character and keeps a stack of NFA fragments together
with the number of atoms and alternatives of the group it is in; the counters of the groups
around it are saved per opening parenthesis.  Every fragment owns its states.  The counters are
natural numbers here: an `unsigned int` can only wrap around behind `2 ^ 31` characters.
-/

namespace Gnunet.Regex

open Lib

/-- The top of the fragment stack comes first. -/
structure Context where
  stateId : ℕ
  stack : List Automaton

def contextInit : Context := ⟨0, []⟩

inductive ParseError
  | emptyRegex
  | barAfterNothing
  | missingOpening
  | starAfterNothing
  | plusAfterNothing
  | questionAfterNothing
  | unbalanced
  | stackNotEmpty
  deriving DecidableEq

def ParseError.message : ParseError → String
  | emptyRegex => "Could not parse regex. Empty regex string provided.\n"
  | barAfterNothing => "Cannot append '|' to nothing"
  | missingOpening => "Missing opening '('"
  | starAfterNothing => "Cannot append '*' to nothing"
  | plusAfterNothing => "Cannot append '+' to nothing"
  | questionAfterNothing => "Cannot append '?' to nothing"
  | unbalanced => "Unbalanced parenthesis"
  | stackNotEmpty => "Creating the NFA failed. NFA stack was not empty!"

/-- The construction returns `NULL`, an assertion fails, memory is freed a second time or read
through `NULL`, or the allocator stops the program. -/
inductive Failure
  | null (error : ParseError)
  | assertion
  | invalidMemory
  | outOfMemory
  deriving DecidableEq

def nfaStateCreate (id : ℕ) (accepting : Bool) : State := ⟨id, accepting, []⟩

def nfaFragmentCreate (start endState : State) (states : List State) : Automaton :=
  ⟨.nfa, start.id, endState.id, start :: endState :: states⟩

def State.addEpsilons (s : State) (targets : List ℕ) : State :=
  targets.foldl (fun s target ↦ s.addTransition none (some target)) s

def State.join (s : State) (targets : List ℕ) : State :=
  { s.addEpsilons targets with accepting := false }

def joinEnd (a : Automaton) (targets : List ℕ) : List State :=
  modifyState a.states a.endState fun s ↦ s.join targets

def concatenation (a b : Automaton) : Automaton :=
  ⟨.nfa, a.start, b.endState,
    joinEnd a [b.start] ++ modifyState b.states b.endState fun s ↦ { s with accepting := true }⟩

def nfaAddConcatenation (ctx : Context) : Except Failure Context :=
  match ctx.stack with
  | b :: a :: stack => .ok { ctx with stack := concatenation a b :: stack }
  | _ => .error .assertion

def openingState (id : ℕ) (targets : List ℕ) : State :=
  (nfaStateCreate id false).addEpsilons targets

def starFragment (id : ℕ) (a : Automaton) : Automaton :=
  nfaFragmentCreate (openingState id [a.start, id + 1]) (nfaStateCreate (id + 1) true)
    (joinEnd a [a.start, id + 1])

def nfaAddStarOp (ctx : Context) : Context :=
  match ctx.stack with
  | [] => ctx
  | a :: stack => ⟨ctx.stateId + 2, starFragment ctx.stateId a :: stack⟩

def plusFragment (a : Automaton) : Automaton :=
  { a with states := modifyState a.states a.endState fun s ↦ s.addTransition none (some a.start) }

def nfaAddPlusOp (ctx : Context) : Context :=
  match ctx.stack with
  | [] => ctx
  | a :: stack => { ctx with stack := plusFragment a :: stack }

def questionFragment (id : ℕ) (a : Automaton) : Automaton :=
  nfaFragmentCreate (openingState id [a.start, id + 1]) (nfaStateCreate (id + 1) true)
    (joinEnd a [id + 1])

def nfaAddQuestionOp (ctx : Context) : Context :=
  match ctx.stack with
  | [] => ctx
  | a :: stack => ⟨ctx.stateId + 2, questionFragment ctx.stateId a :: stack⟩

def alternation (id : ℕ) (a b : Automaton) : Automaton :=
  nfaFragmentCreate (openingState id [a.start, b.start]) (nfaStateCreate (id + 1) true)
    (joinEnd a [id + 1] ++ joinEnd b [id + 1])

def nfaAddAlternation (ctx : Context) : Except Failure Context :=
  match ctx.stack with
  | b :: a :: stack => .ok ⟨ctx.stateId + 2, alternation ctx.stateId a b :: stack⟩
  | _ => .error .assertion

def labelFragment (id : ℕ) (label : List Char) : Automaton :=
  nfaFragmentCreate ((nfaStateCreate id false).addTransition (some label) (some (id + 1)))
    (nfaStateCreate (id + 1) true) []

def nfaAddLabel (ctx : Context) (label : List Char) : Context :=
  ⟨ctx.stateId + 2, labelFragment ctx.stateId label :: ctx.stack⟩

/-- `while (--atomcount > 0) nfa_add_concatenation (&ctx)`. -/
def concatenateAtoms : ℕ → Context → Except Failure Context
  -- the counter wraps around, and the loop goes on until the stack is used up
  | 0, _ => .error .assertion
  | 1, ctx => .ok ctx
  | atomcount + 2, ctx => do
    let ctx ← nfaAddConcatenation ctx
    concatenateAtoms (atomcount + 1) ctx

/-- `for (; altcount > 0; altcount--) nfa_add_alternation (&ctx)`. -/
def alternateAtoms : ℕ → Context → Except Failure Context
  | 0, ctx => .ok ctx
  | altcount + 1, ctx => do
    let ctx ← nfaAddAlternation ctx
    alternateAtoms altcount ctx

/-- `p` holds the saved pairs of altcount and atomcount, the latest first, and `allocated` says that
memory was allocated for it. -/
structure Parser where
  ctx : Context
  altcount : ℕ
  atomcount : ℕ
  p : List (ℕ × ℕ)
  allocated : Bool

/-- A saved pair takes eight bytes, and `GNUNET_array_grow` asks for all of them at once. -/
def maxNesting : ℕ := Util.maxMallocChecked / 8

namespace Parser

def init : Parser := ⟨contextInit, 0, 0, [], false⟩

/-- `if (atomcount > 1) { --atomcount; nfa_add_concatenation (&ctx); }`. -/
def joinAtoms (parser : Parser) : Except Failure Parser :=
  if 1 < parser.atomcount then do
    let ctx ← nfaAddConcatenation parser.ctx
    return { parser with ctx, atomcount := parser.atomcount - 1 }
  else .ok parser

/-- The loops at the end of a group. -/
def closeGroup (parser : Parser) : Except Failure Context := do
  let ctx ← concatenateAtoms parser.atomcount parser.ctx
  alternateAtoms parser.altcount ctx

def applyOp (parser : Parser) (error : ParseError) (op : Context → Context) :
    Except Failure Parser :=
  if parser.atomcount = 0 then .error (.null error)
  else .ok { parser with ctx := op parser.ctx }

def step (parser : Parser) (c : Char) : Except Failure Parser :=
  if c = '(' then do
    let parser ← parser.joinAtoms
    if maxNesting ≤ parser.p.length then .error .outOfMemory
    else return { parser with p := (parser.altcount, parser.atomcount) :: parser.p,
                              allocated := true, altcount := 0, atomcount := 0 }
  else if c = '|' then
    if parser.atomcount = 0 then .error (.null .barAfterNothing)
    else do
      let ctx ← concatenateAtoms parser.atomcount parser.ctx
      return { parser with ctx, atomcount := 0, altcount := parser.altcount + 1 }
  else if c = ')' then
    match parser.p with
    | [] => .error (.null .missingOpening)
    | (altcount, atomcount) :: p =>
      if parser.atomcount = 0 then .ok { parser with p, altcount, atomcount }
      else do
        let ctx ← parser.closeGroup
        return { parser with ctx, p, altcount, atomcount := atomcount + 1 }
  else if c = '*' then parser.applyOp .starAfterNothing nfaAddStarOp
  else if c = '+' then parser.applyOp .plusAfterNothing nfaAddPlusOp
  else if c = '?' then parser.applyOp .questionAfterNothing nfaAddQuestionOp
  else do
    let parser ← parser.joinAtoms
    return { parser with ctx := nfaAddLabel parser.ctx [c], atomcount := parser.atomcount + 1 }

def loop : Parser → List Char → Except Failure Parser
  | parser, [] => .ok parser
  | parser, c :: regexp => do
    let parser ← parser.step c
    parser.loop regexp

/-- The saved counters are freed before the stack is looked at and again when the string is
rejected. -/
def finish (parser : Parser) : Except Failure Automaton :=
  if parser.p ≠ [] then .error (.null .unbalanced)
  else do
    let ctx ← parser.closeGroup
    match ctx.stack with
    | [] => .error .invalidMemory
    | [nfa] => .ok nfa
    | _ :: _ :: _ =>
      if parser.allocated then .error .invalidMemory else .error (.null .stackNotEmpty)

end Parser

def constructNfa (regex : List Char) (len : ℕ) : Except Failure Automaton :=
  if regex = [] ∨ len = 0 then .error (.null .emptyRegex)
  else do
    let parser ← Parser.init.loop (regex.take len)
    parser.finish

def successors (a : Automaton) (label : Option (List Char)) (id : ℕ) : List ℕ :=
  match a.states.find? fun s ↦ s.id == id with
  | none => []
  | some s => (s.transitions.filter fun t ↦ t.label = label).filterMap Transition.toState

def sortStates (states : List ℕ) : List ℕ := states.insertionSort (· ≤ ·)

def nfaClosureCreate (nfa : Automaton) (id : ℕ) (label : Option (List Char)) : List ℕ :=
  let found := Worklist.explore (successors nfa label) (nfa.states.length + 1) [id] []
  sortStates (if label = none then id :: found else found)

def nfaClosureSetCreate (nfa : Automaton) (states : List ℕ) (label : Option (List Char)) :
    List ℕ :=
  let append (cls : List ℕ) (id : ℕ) : List ℕ := if id ∈ cls then cls else cls ++ [id]
  sortStates (states.foldl (fun cls id ↦ (nfaClosureCreate nfa id label).foldl append cls) [])

def isAccepting (a : Automaton) (id : ℕ) : Bool :=
  match a.states.find? fun s ↦ s.id == id with
  | none => false
  | some s => s.accepting

def readString (a : Automaton) (sset : List ℕ) (string : List Char) : List ℕ :=
  string.foldl
    (fun sset c ↦ nfaClosureSetCreate a (nfaClosureSetCreate a sset (some [c])) none) sset

def evaluateNfa (a : Automaton) (string : List Char) : ℤ :=
  if a.type ≠ .nfa then -1
  else if string = [] ∧ isAccepting a a.start then 0
  else if (readString a (nfaClosureCreate a a.start none) string).any (isAccepting a) then 0
  else 1

end Gnunet.Regex
