import Mathlib.Data.BitVec

/-!
# Text to IPv6 addresses

The library function `inet_pton` for `AF_INET6`: groups of one to four hexadecimal digits
separated by colons, of which one run of zero groups may be left out, and whose last two groups
may be a dotted IPv4 address.
-/

namespace Gnunet.Lib.InetPton

open List

abbrev In6Addr := Fin 16 → BitVec 8

def hexDigit (c : Char) : Option ℕ :=
  if c.isDigit then some (c.toNat - 48)
  else if 'a' ≤ c ∧ c ≤ 'f' then some (c.toNat - 87)
  else if 'A' ≤ c ∧ c ≤ 'F' then some (c.toNat - 55)
  else none

/-- A decimal number up to 255 without leading zeros. -/
def octet (text : List Char) : Option (BitVec 8) :=
  let value := text.foldl (fun value c ↦ 10 * value + (c.toNat - 48)) 0
  if text ≠ [] ∧ text.all Char.isDigit ∧ (text.length = 1 ∨ text.head? ≠ some '0') ∧
      value ≤ 255 then
    some (BitVec.ofNat 8 value)
  else none

def inetPton4 (text : List Char) : Option (List (BitVec 8)) :=
  match text.splitOn '.' with
  | [a, b, c, d] => do some [← octet a, ← octet b, ← octet c, ← octet d]
  | _ => none

/-- The bytes so far, the position of the double colon, and digits and value of the current group.
-/
structure Progress where
  bytes : List (BitVec 8)
  colonp : Option ℕ
  digits : ℕ
  value : ℕ

def Progress.closeGroup (progress : Progress) : Option Progress :=
  if 16 < progress.bytes.length + 2 then none
  else some
    { progress with
      bytes := progress.bytes ++
        [BitVec.ofNat 8 (progress.value / 256), BitVec.ofNat 8 progress.value]
      digits := 0
      value := 0 }

/-- Read the text; `curtok` is the text from the start of the current group on. -/
def scan : List Char → Progress → List Char → Option Progress
  | _, progress, [] => some progress
  | curtok, progress, c :: rest =>
    match hexDigit c with
    | some digit =>
      if progress.digits = 4 then none
      else scan curtok
        { progress with
          digits := progress.digits + 1
          value := 16 * progress.value + digit } rest
    | none =>
      if c = ':' then
        if progress.digits = 0 then
          if progress.colonp.isSome then none
          else scan rest { progress with colonp := some progress.bytes.length } rest
        else if rest = [] then none
        else progress.closeGroup.bind fun progress ↦ scan rest progress rest
      else if c = '.' ∧ progress.bytes.length + 4 ≤ 16 then
        (inetPton4 curtok).map fun bytes ↦
          { progress with bytes := progress.bytes ++ bytes, digits := 0, value := 0 }
      else none

/-- Close the last group and fill in the zero groups of a double colon. -/
def finish (progress : Progress) : Option (List (BitVec 8)) := do
  let progress ← if progress.digits = 0 then some progress else progress.closeGroup
  match progress.colonp with
  | none => if progress.bytes.length = 16 then some progress.bytes else none
  | some position =>
    if progress.bytes.length = 16 then none
    else some (progress.bytes.take position ++
      replicate (16 - progress.bytes.length) 0#8 ++ progress.bytes.drop position)

/-- A leading colon must be part of a double colon, whose second half is read below. -/
def leadingColon : List Char → Option (List Char)
  | ':' :: ':' :: rest => some (':' :: rest)
  | ':' :: _ => none
  | text => some text

def inetPton (text : List Char) : Option In6Addr := do
  let text ← leadingColon text
  let progress ← scan text ⟨[], none, 0, 0⟩ text
  let bytes ← finish progress
  some fun i ↦ bytes.getD i 0#8

def isAddressChar (c : Char) : Bool := (hexDigit c).isSome || c = ':' || c = '.'

theorem isAddressChar_of_isDigit {c : Char} (h : c.isDigit = true) : isAddressChar c = true := by
  simp [isAddressChar, hexDigit, h]

variable {text : List Char}

theorem isAddressChar_of_octet {byte : BitVec 8} (h : octet text = some byte) {c : Char}
    (hc : c ∈ text) : isAddressChar c = true := by
  simp only [octet, Option.ite_none_right_eq_some, all_eq_true] at h
  exact isAddressChar_of_isDigit (h.1.2.1 c hc)

theorem inetPton4_chars {bytes : List (BitVec 8)} (h : inetPton4 text = some bytes) :
    ∀ c ∈ text, isAddressChar c = true := by
  unfold inetPton4 at h
  split at h
  next parts a b c d hparts =>
    have htext : a ++ '.' :: b ++ '.' :: c ++ '.' :: d = text := by
      have hjoin : ['.'].intercalate (text.splitOn '.') = text := intercalate_splitOn '.'
      simpa [hparts] using hjoin
    simp only [Option.bind_eq_bind, Option.bind_eq_some_iff] at h
    obtain ⟨_, ha, _, hb, _, hc, _, hd, -⟩ := h
    intro x hx
    simp only [← htext, mem_append, mem_cons] at hx
    rcases hx with (((hx | rfl | hx) | rfl | hx) | rfl | hx)
    · exact isAddressChar_of_octet ha hx
    · decide
    · exact isAddressChar_of_octet hb hx
    · decide
    · exact isAddressChar_of_octet hc hx
    · decide
    · exact isAddressChar_of_octet hd hx
  next => cases h

/-- Everything read is a digit, a colon, or part of the dotted address that ends the text. -/
theorem scan_chars {curtok input : List Char} {progress last : Progress}
    (h : scan curtok progress input = some last) (hsuffix : input <:+ curtok) :
    ∀ c ∈ input, isAddressChar c = true := by
  induction input generalizing curtok progress with
  | nil => simp
  | cons c rest ih =>
    have hrest : rest <:+ curtok := (suffix_cons c rest).trans hsuffix
    rw [scan] at h
    split at h
    next digit hdigit =>
      split at h
      · cases h
      · exact forall_mem_cons.mpr ⟨by simp [isAddressChar, hdigit], ih h hrest⟩
    next hdigit =>
      split at h
      next hcolon =>
        have hc : isAddressChar c = true := by simp [isAddressChar, hcolon]
        refine forall_mem_cons.mpr ⟨hc, ?_⟩
        split at h
        · split at h
          · cases h
          · exact ih h suffix_rfl
        · split at h
          · cases h
          · obtain ⟨_, -, h⟩ := Option.bind_eq_some_iff.mp h
            exact ih h suffix_rfl
      next =>
        split at h
        · obtain ⟨_, hbytes, -⟩ := Option.map_eq_some_iff.mp h
          exact fun c hc ↦ inetPton4_chars hbytes c (hsuffix.mem hc)
        · cases h

theorem inetPton_chars {address : In6Addr} (h : inetPton text = some address) :
    ∀ c ∈ text, isAddressChar c = true := by
  simp only [inetPton, Option.bind_eq_bind, Option.bind_eq_some_iff] at h
  obtain ⟨_, htext, _, hscan, -⟩ := h
  have hchars := scan_chars hscan suffix_rfl
  unfold leadingColon at htext
  split at htext
  · cases htext
    exact forall_mem_cons.mpr ⟨by decide, hchars⟩
  · cases htext
  · cases htext
    exact hchars

theorem inetPton4_length {bytes : List (BitVec 8)} (h : inetPton4 text = some bytes) :
    bytes.length = 4 := by
  unfold inetPton4 at h
  split at h
  · simp only [Option.bind_eq_bind, Option.bind_eq_some_iff] at h
    obtain ⟨_, -, _, -, _, -, _, -, h⟩ := h
    cases h
    rfl
  · cases h

theorem scan_bytes_of_no_colon {curtok input : List Char} {progress last : Progress}
    (h : scan curtok progress input = some last) (hcolon : ':' ∉ input) :
    last.bytes.length ≤ progress.bytes.length + 4 ∧ last.colonp = progress.colonp := by
  induction input generalizing progress with
  | nil =>
    cases h
    exact ⟨by omega, rfl⟩
  | cons c rest ih =>
    simp only [mem_cons, not_or] at hcolon
    rw [scan] at h
    split at h
    · split at h
      · cases h
      · have hlast := ih h hcolon.2
        exact hlast
    · rw [if_neg (Ne.symm hcolon.1)] at h
      split at h
      · obtain ⟨_, hbytes, hlast⟩ := Option.map_eq_some_iff.mp h
        cases hlast
        simp [inetPton4_length hbytes]
      · cases h

theorem finish_none_of_short {progress : Progress} (hcolonp : progress.colonp = none)
    (hlength : progress.bytes.length ≤ 4) : finish progress = none := by
  unfold finish
  by_cases hdigits : progress.digits = 0
  · have hne : progress.bytes.length ≠ 16 := by omega
    simp [hdigits, hcolonp, hne]
  · have hne : progress.bytes.length ≠ 14 := by omega
    simp [hdigits, Progress.closeGroup, hcolonp, hne]

theorem inetPton_colon {address : In6Addr} (h : inetPton text = some address) : ':' ∈ text := by
  by_contra hcolon
  simp only [inetPton, Option.bind_eq_bind, Option.bind_eq_some_iff] at h
  obtain ⟨_, htext, _, hscan, _, hbytes, -⟩ := h
  unfold leadingColon at htext
  split at htext
  · simp at hcolon
  · cases htext
  · cases htext
    obtain ⟨hlength, hcolonp⟩ := scan_bytes_of_no_colon hscan hcolon
    rw [finish_none_of_short hcolonp hlength] at hbytes
    cases hbytes

end Gnunet.Lib.InetPton
