import Mathlib.Data.List.Basic

/-!
# Streams of frames

A frame begins with a header of fixed length that tells the length of the whole frame.  `tokenize`
cuts a stream at the lengths that the headers tell; a length that does not even cover the header
means that the stream is corrupt.
-/

namespace Gnunet.Lib.Framing

open List

structure Format (α : Type*) where
  headerSize : ℕ
  headerSize_pos : 0 < headerSize
  size : List α → ℕ
  size_append : ∀ stream more, headerSize ≤ stream.length → size (stream ++ more) = size stream

open Format

inductive Token
  | incomplete
  | corrupt
  | frame (length : ℕ)
  deriving DecidableEq

/-- The frames of a stream, what is left of it, and whether it is corrupt there. -/
structure Tokens (α : Type*) where
  frames : List (List α)
  rest : List α
  corrupt : Bool
  deriving DecidableEq

variable {α : Type*} (format : Format α) {stream : List α} {length : ℕ}

def Format.next (stream : List α) : Token :=
  if stream.length < format.headerSize then .incomplete
  else if format.size stream < format.headerSize then .corrupt
  else if stream.length < format.size stream then .incomplete
  else .frame (format.size stream)

theorem Format.next_of_no_header (h : stream.length < format.headerSize) :
    format.next stream = .incomplete :=
  if_pos h

theorem Format.next_of_corrupt (hheader : format.headerSize ≤ stream.length)
    (h : format.size stream < format.headerSize) : format.next stream = .corrupt := by
  rw [next, if_neg (by omega), if_pos h]

theorem Format.next_of_incomplete (hsize : format.headerSize ≤ format.size stream)
    (h : stream.length < format.size stream) : format.next stream = .incomplete := by
  rw [next, if_neg (show ¬ format.size stream < format.headerSize by omega)]
  split_ifs <;> rfl

theorem Format.next_of_frame (hsize : format.headerSize ≤ format.size stream)
    (h : format.size stream ≤ stream.length) :
    format.next stream = .frame (format.size stream) := by
  rw [next, if_neg (by omega), if_neg (by omega), if_neg (by omega)]

theorem Format.next_eq_frame (h : format.next stream = .frame length) :
    0 < length ∧ length ≤ stream.length := by
  have hpos := format.headerSize_pos
  rw [next] at h
  split_ifs at h
  cases h
  exact ⟨by omega, by omega⟩

/-- More data does not change a frame that is complete or a corrupt header. -/
theorem Format.next_append (more : List α) (h : format.next stream ≠ .incomplete) :
    format.next (stream ++ more) = format.next stream := by
  have hheader : ¬ stream.length < format.headerSize := fun hlt ↦ h (if_pos hlt)
  have hsize := format.size_append stream more (Nat.le_of_not_lt hheader)
  have hheader' : ¬ (stream ++ more).length < format.headerSize := by
    rw [length_append]
    omega
  rw [next, if_neg hheader] at h
  rw [next, next, if_neg hheader, if_neg hheader', hsize]
  by_cases hcorrupt : format.size stream < format.headerSize
  · rw [if_pos hcorrupt, if_pos hcorrupt]
  · have hlength : ¬ stream.length < format.size stream := by
      intro hlt
      rw [if_neg hcorrupt, if_pos hlt] at h
      exact h rfl
    rw [if_neg hcorrupt, if_neg hcorrupt, if_neg hlength, if_neg]
    rw [length_append]
    omega

def Format.tokenize (stream : List α) : Tokens α :=
  match h : format.next stream with
  | .incomplete => ⟨[], stream, false⟩
  | .corrupt => ⟨[], stream, true⟩
  | .frame length =>
    have : 0 < length ∧ length ≤ stream.length := format.next_eq_frame h
    let tokens := tokenize (stream.drop length)
    ⟨stream.take length :: tokens.frames, tokens.rest, tokens.corrupt⟩
termination_by stream.length
decreasing_by
  rw [length_drop]
  omega

theorem Format.tokenize_of_incomplete (h : format.next stream = .incomplete) :
    format.tokenize stream = ⟨[], stream, false⟩ := by
  rw [tokenize]
  split <;> simp_all

theorem Format.tokenize_of_corrupt (h : format.next stream = .corrupt) :
    format.tokenize stream = ⟨[], stream, true⟩ := by
  rw [tokenize]
  split <;> simp_all

theorem Format.tokenize_of_frame (h : format.next stream = .frame length) :
    format.tokenize stream = ⟨stream.take length :: (format.tokenize (stream.drop length)).frames,
      (format.tokenize (stream.drop length)).rest,
      (format.tokenize (stream.drop length)).corrupt⟩ := by
  rw [tokenize]
  split <;> simp_all

theorem Format.induction {motive : List α → Prop}
    (incomplete : ∀ stream, format.next stream = .incomplete → motive stream)
    (corrupt : ∀ stream, format.next stream = .corrupt → motive stream)
    (frame : ∀ stream length, format.next stream = .frame length → motive (stream.drop length) →
      motive stream) (stream : List α) : motive stream := by
  match h : format.next stream with
  | .incomplete => exact incomplete stream h
  | .corrupt => exact corrupt stream h
  | .frame length =>
    have hlength := format.next_eq_frame h
    exact frame stream length h (induction incomplete corrupt frame (stream.drop length))
termination_by stream.length
decreasing_by
  rw [length_drop]
  omega

/-- Tokenizing goes on with what is left when more data comes, unless the stream is corrupt. -/
theorem Format.tokenize_append (stream more : List α) :
    format.tokenize (stream ++ more) = if (format.tokenize stream).corrupt then
        ⟨(format.tokenize stream).frames, (format.tokenize stream).rest ++ more, true⟩
      else
        let tokens := format.tokenize ((format.tokenize stream).rest ++ more)
        ⟨(format.tokenize stream).frames ++ tokens.frames, tokens.rest, tokens.corrupt⟩ := by
  induction stream using format.induction with
  | incomplete stream hnext =>
    rw [format.tokenize_of_incomplete hnext]
    rfl
  | corrupt stream hnext =>
    have happend : format.next (stream ++ more) = .corrupt := by
      rw [format.next_append more (by simp [hnext]), hnext]
    rw [format.tokenize_of_corrupt hnext, format.tokenize_of_corrupt happend, if_pos rfl]
  | frame stream length hnext ih =>
    have hle := (format.next_eq_frame hnext).2
    have happend : format.next (stream ++ more) = .frame length := by
      rw [format.next_append more (by simp [hnext]), hnext]
    rw [format.tokenize_of_frame hnext, format.tokenize_of_frame happend,
      drop_append_of_le_length hle, take_append_of_le_length hle, ih]
    split_ifs
    · rfl
    · rfl

theorem Format.flatten_tokenize (stream : List α) :
    (format.tokenize stream).frames.flatten ++ (format.tokenize stream).rest = stream := by
  induction stream using format.induction with
  | incomplete stream hnext =>
    rw [format.tokenize_of_incomplete hnext]
    rfl
  | corrupt stream hnext =>
    rw [format.tokenize_of_corrupt hnext]
    rfl
  | frame stream length hnext ih =>
    rw [format.tokenize_of_frame hnext, flatten_cons, append_assoc, ih, take_append_drop]

theorem Format.next_rest (stream : List α) :
    format.next (format.tokenize stream).rest =
      if (format.tokenize stream).corrupt then .corrupt else .incomplete := by
  induction stream using format.induction with
  | incomplete stream hnext =>
    rw [format.tokenize_of_incomplete hnext, if_neg Bool.false_ne_true, hnext]
  | corrupt stream hnext => rw [format.tokenize_of_corrupt hnext, if_pos rfl, hnext]
  | frame stream length hnext ih =>
    rw [format.tokenize_of_frame hnext]
    exact ih

end Gnunet.Lib.Framing
