import Mathlib.Data.List.Basic

/-!
# Buffers of bytes

A buffer is a list of fixed length.  `write` is what `memcpy` does to its target, and `read` is
what it takes from its source.
-/

namespace Gnunet.Lib.Buffer

open List

variable {α : Type*} {buffer data : List α} {offset length i : ℕ}

def write (buffer : List α) (offset : ℕ) (data : List α) : List α :=
  buffer.take offset ++ data ++ buffer.drop (offset + data.length)

theorem length_write (h : offset + data.length ≤ buffer.length) :
    (write buffer offset data).length = buffer.length := by
  rw [write, length_append, length_append, length_take, length_drop]
  omega

theorem getElem?_write (h : offset ≤ buffer.length) (i : ℕ) :
    (write buffer offset data)[i]? = if i < offset then buffer[i]?
      else if i < offset + data.length then data[i - offset]? else buffer[i]? := by
  have htake : (buffer.take offset).length = offset := by
    rw [length_take, Nat.min_eq_left h]
  rw [write, append_assoc]
  split_ifs with hlow hhigh
  · rw [getElem?_append_left (by omega), getElem?_take_of_lt hlow]
  · rw [getElem?_append_right (by omega), htake, getElem?_append_left (by omega)]
  · rw [getElem?_append_right (by omega), getElem?_append_right (by omega), getElem?_drop]
    congr 1
    omega

/-- Take bytes from the given offset on; bytes behind the end read as the default. -/
def read [Inhabited α] (buffer : List α) (offset length : ℕ) : List α :=
  (range length).map fun i ↦ buffer.getD (offset + i) default

@[simp] theorem length_read [Inhabited α] (buffer : List α) (offset length : ℕ) :
    (read buffer offset length).length = length := by
  rw [read, length_map, length_range]

theorem getElem?_read [Inhabited α] (h : offset + length ≤ buffer.length) (hi : i < length) :
    (read buffer offset length)[i]? = buffer[offset + i]? := by
  rw [read, getElem?_map, getElem?_range hi, Option.map_some, getD_eq_getElem?_getD,
    getElem?_eq_getElem (show offset + i < buffer.length by omega), Option.getD_some]

theorem read_eq_take_drop [Inhabited α] (h : offset + length ≤ buffer.length) :
    read buffer offset length = (buffer.drop offset).take length := by
  apply ext_getElem?
  intro i
  by_cases hi : i < length
  · rw [getElem?_read h hi, getElem?_take_of_lt hi, getElem?_drop]
  · rw [getElem?_eq_none (by rw [length_read]; omega),
      getElem?_eq_none (by rw [length_take]; omega)]

end Gnunet.Lib.Buffer
