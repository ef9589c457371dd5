import Mathlib.Algebra.Order.Group.Nat
import Gnunet.Lib.Buffer

/-!
# Parts at aligned places

Parts of different lengths are written one after the other into a buffer that holds a filler. Each
part begins at the first place that is free or at a later one, so that there may be a gap before
it. Whoever looks for the next part can go from one multiple of the block size to the next one, if
the parts that do not begin right behind the one before begin at such a multiple.
-/

namespace Gnunet.Lib.AlignedLayout

open List

def nextBoundary (size pos : ℕ) : ℕ := (pos / size + 1) * size

theorem lt_nextBoundary {size : ℕ} (h : 0 < size) (pos : ℕ) : pos < nextBoundary size pos := by
  rw [nextBoundary, Nat.mul_comm]
  exact Nat.lt_mul_div_succ pos h

theorem nextBoundary_le {size pos target : ℕ} (hlt : pos < target) (hdvd : size ∣ target) :
    nextBoundary size pos ≤ target := by
  obtain ⟨k, rfl⟩ := hdvd
  have hk : pos / size < k := Nat.div_lt_of_lt_mul hlt
  rw [nextBoundary, Nat.mul_comm]
  exact Nat.mul_le_mul_left size hk

variable {α : Type*}

structure Placement where
  place : ℕ → ℕ → ℕ
  le_place : ∀ off length, off ≤ place off length

variable (placement : Placement) (filler : α)

def layOut : ℕ → List (List α) → List α
  | _, [] => []
  | off, part :: parts =>
    replicate (placement.place off part.length - off) filler ++ (part ++
      layOut (placement.place off part.length + part.length) parts)

def layOutEnd : ℕ → List (List α) → ℕ
  | off, [] => off
  | off, part :: parts => layOutEnd (placement.place off part.length + part.length) parts

theorem layOutEnd_eq (off : ℕ) (parts : List (List α)) :
    layOutEnd placement off parts = off + (layOut placement filler off parts).length := by
  induction parts generalizing off with
  | nil => rfl
  | cons part parts ih =>
    have hle := placement.le_place off part.length
    rw [layOutEnd, ih, layOut, length_append, length_append, length_replicate]
    omega

def writeParts : ℕ → List (List α) → List α → List α
  | _, [], buffer => buffer
  | off, part :: parts, buffer =>
    writeParts (placement.place off part.length + part.length) parts
      (Buffer.write buffer (placement.place off part.length) part)

theorem write_gap {done part : List α} {n place : ℕ} (hplace : done.length ≤ place)
    (hroom : place + part.length ≤ done.length + n) :
    Buffer.write (done ++ replicate n filler) place part =
      done ++ replicate (place - done.length) filler ++ part ++
        replicate (done.length + n - (place + part.length)) filler := by
  have htake : (done ++ replicate n filler).take place =
      done ++ replicate (place - done.length) filler := by
    rw [take_append, take_of_length_le hplace, take_replicate, Nat.min_eq_left (by omega)]
  have hdrop : (done ++ replicate n filler).drop (place + part.length) =
      replicate (done.length + n - (place + part.length)) filler := by
    rw [drop_append, drop_eq_nil_of_le (by omega), nil_append, drop_replicate]
    congr 1
    omega
  rw [Buffer.write, htake, hdrop]

theorem writeParts_eq (parts : List (List α)) {done : List α} {n : ℕ}
    (hend : layOutEnd placement done.length parts = done.length + n) :
    writeParts placement done.length parts (done ++ replicate n filler) =
      done ++ layOut placement filler done.length parts := by
  induction parts generalizing done n with
  | nil =>
    have hzero : n = 0 := by
      change done.length = done.length + n at hend
      omega
    rw [hzero]
    rfl
  | cons part parts ih =>
    have hle := placement.le_place done.length part.length
    have hbehind := layOutEnd_eq placement filler
      (placement.place done.length part.length + part.length) parts
    rw [layOutEnd] at hend
    let next := done ++ replicate (placement.place done.length part.length - done.length)
      filler ++ part
    have hlength : next.length = placement.place done.length part.length + part.length := by
      rw [length_append, length_append, length_replicate]
      omega
    rw [writeParts, write_gap filler hle (by omega), ← hlength]
    rw [ih (by rw [hlength]; omega), layOut, hlength, append_assoc, append_assoc]

end Gnunet.Lib.AlignedLayout
