import Mathlib.Data.List.TakeWhile
import Mathlib.Algebra.Group.Nat.Defs

/-!
# Formatted input

The part of C's `sscanf` that handles formats made of `%u` and literal characters.  The result is
the list of the converted values, so that its length is the number `sscanf` returns.
-/

namespace Gnunet.Lib.Scanf

open List UInt32

inductive Directive where
  | unsigned
  | literal (c : Char)
  deriving DecidableEq, Repr

def isSpace (c : Char) : Bool := c = ' ' || (9 ≤ c.toNat && c.toNat ≤ 13)

def digitsValue (digits : List Char) : ℕ :=
  digits.foldl (fun value c ↦ 10 * value + (c.toNat - 48)) 0

/-- `strtoul` on a 64-bit machine, stored to an `unsigned int`. -/
def convertUnsigned (negative : Bool) (value : ℕ) : UInt32 :=
  if 2 ^ 64 ≤ value then ofNat (2 ^ 64 - 1)
  else if negative then ofNat (2 ^ 64 - value)
  else ofNat value

def splitSign : List Char → Bool × List Char
  | '-' :: rest => (true, rest)
  | '+' :: rest => (false, rest)
  | rest => (false, rest)

/-- `%u`: skip white space, then read an optional sign and the longest run of digits. -/
def scanUnsigned (input : List Char) : Option (UInt32 × List Char) :=
  let (negative, input) := splitSign (input.dropWhile isSpace)
  let digits := input.takeWhile Char.isDigit
  if digits = [] then none
  else some (convertUnsigned negative (digitsValue digits), input.dropWhile Char.isDigit)

def sscanf : List Directive → List Char → List UInt32
  | [], _ => []
  | .unsigned :: format, input =>
    match scanUnsigned input with
    | none => []
    | some (value, rest) => value :: sscanf format rest
  | .literal _ :: _, [] => []
  | .literal c :: format, c' :: rest => if c' = c then sscanf format rest else []

structure Numeral where
  digits : List Char
  ne_nil : digits ≠ []
  isDigit : ∀ c ∈ digits, c.isDigit = true

def Numeral.value (numeral : Numeral) : ℕ := digitsValue numeral.digits

theorem isDigit_not_special {c : Char} (h : c.isDigit = true) :
    isSpace c = false ∧ c ≠ '-' ∧ c ≠ '+' := by
  have hrange : 48 ≤ c.toNat ∧ c.toNat ≤ 57 := by
    simpa [Char.isDigit, le_iff_toNat_le] using h
  refine ⟨?_, ?_, ?_⟩
  · have hblank : c ≠ ' ' := by
      rintro rfl
      exact absurd hrange.1 (by decide)
    simp [isSpace, hblank]
    omega
  · rintro rfl
    exact absurd hrange.1 (by decide)
  · rintro rfl
    exact absurd hrange.1 (by decide)

theorem scanUnsigned_numeral (numeral : Numeral) {rest : List Char}
    (hrest : ∀ c ∈ rest.head?, c.isDigit = false) (hvalue : numeral.value < 2 ^ 64) :
    scanUnsigned (numeral.digits ++ rest) = some (ofNat numeral.value, rest) := by
  obtain ⟨digits, hne, hdigits⟩ := numeral
  have htake : (digits ++ rest).takeWhile Char.isDigit = digits := by
    rw [takeWhile_append_of_pos hdigits]
    cases rest with
    | nil => simp
    | cons c rest => simp [hrest c rfl]
  have hdrop : (digits ++ rest).dropWhile Char.isDigit = rest := by
    rw [dropWhile_append_of_pos hdigits]
    cases rest with
    | nil => simp
    | cons c rest => simp [hrest c rfl]
  have hsign : splitSign ((digits ++ rest).dropWhile isSpace) = (false, digits ++ rest) := by
    cases digits with
    | nil => exact absurd rfl hne
    | cons c digits =>
      obtain ⟨hspace, hminus, hplus⟩ := isDigit_not_special (hdigits c mem_cons_self)
      rw [cons_append, dropWhile_cons, hspace]
      simp [splitSign, hminus, hplus]
  change digitsValue digits < 2 ^ 64 at hvalue
  have hconvert : convertUnsigned false (digitsValue digits) = ofNat (digitsValue digits) := by
    rw [convertUnsigned, if_neg (not_le.mpr hvalue)]
    rfl
  simp only [scanUnsigned, hsign, htake, hdrop, if_neg hne, hconvert, Numeral.value]

theorem sscanf_numeral (format : List Directive) (numeral : Numeral) {rest : List Char}
    (hrest : ∀ c ∈ rest.head?, c.isDigit = false) (hvalue : numeral.value < 2 ^ 64) :
    sscanf (.unsigned :: format) (numeral.digits ++ rest) =
      ofNat numeral.value :: sscanf format rest := by
  rw [sscanf, scanUnsigned_numeral numeral hrest hvalue]

@[simp] theorem sscanf_literal (format : List Directive) (c c' : Char) (rest : List Char) :
    sscanf (.literal c :: format) (c' :: rest) = if c' = c then sscanf format rest else [] := rfl

end Gnunet.Lib.Scanf
