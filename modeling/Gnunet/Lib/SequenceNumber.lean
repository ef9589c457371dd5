import Mathlib.Data.Int.ModEq
import Mathlib.Tactic.Ring

/-!
# Sequence numbers with wrap-around

Counters that are transmitted modulo `m`.  The difference of two transmitted counters is the
difference of the counters, as long as these are less than `m` apart in the right direction.
-/

namespace Gnunet.Lib.SequenceNumber

open Nat

variable {m : ℕ}

def add (m a b : ℕ) : ℕ := (a + b) % m

def sub (m a b : ℕ) : ℕ := (a + (m - b % m)) % m

theorem add_mod_left (m a b c : ℕ) : add m ((a + b) % m) c = (a + (b + c)) % m := by
  rw [add, mod_add_mod, add_assoc]

theorem add_of_lt {a b : ℕ} (h : a + b < m) : add m a b = a + b := mod_eq_of_lt h

theorem sub_of_le {a b : ℕ} (hle : b ≤ a) (ha : a < m) : sub m a b = a - b := by
  have hwrap : a + (m - b) = a - b + m := by omega
  rw [sub, mod_eq_of_lt (by omega : b < m), hwrap, add_mod_right, mod_eq_of_lt (by omega)]

theorem sub_cast (hm : 0 < m) (a b : ℕ) : (sub m a b : ℤ) = ((a : ℤ) - b) % m := by
  have hle : b % m ≤ m := (mod_lt b hm).le
  have hshift : ((a + (m - b % m) : ℕ) : ℤ) = (a : ℤ) - (b : ℤ) % m + m := by
    rw [cast_add, cast_sub hle, Int.natCast_mod]
    ring
  rw [sub, Int.natCast_mod, hshift, Int.add_emod_right, Int.sub_emod,
    Int.emod_emod_of_dvd _ dvd_rfl, ← Int.sub_emod]

theorem sub_counters (hm : 0 < m) (start i r : ℕ) :
    (sub m ((start + i) % m) ((start + r) % m) : ℤ) = ((i : ℤ) - r) % m := by
  rw [sub_cast hm, Int.natCast_mod, Int.natCast_mod, ← Int.sub_emod]
  congr 1
  push_cast
  ring

theorem sub_counters_of_le {start i r : ℕ} (hle : r ≤ i) (hlt : i < r + m) :
    sub m ((start + i) % m) ((start + r) % m) = i - r := by
  have hm : 0 < m := by omega
  have hsub := sub_counters hm start i r
  rw [Int.emod_eq_of_lt (by omega) (by omega)] at hsub
  omega

/-- A counter that is less than `m` behind is told from one that is ahead. -/
theorem sub_counters_of_lt {start i r : ℕ} (hlt : i < r) (hle : r ≤ i + m) :
    sub m ((start + i) % m) ((start + r) % m) = (i + m - r) % m := by
  have hm : 0 < m := by omega
  have hsub := sub_counters hm start i r
  have hwrap : ((i : ℤ) - r) % m = ((i + m - r : ℕ) : ℤ) % m := by
    rw [cast_sub hle, cast_add, ← Int.add_emod_right]
    congr 1
    ring
  rw [hwrap] at hsub
  exact Int.ofNat_inj.mp hsub

theorem eq_of_sub_lt {start i r window : ℕ}
    (hsub : sub m ((start + i) % m) ((start + r) % m) < window)
    (hbehind : r + window ≤ i + m) (hahead : i < r + m) :
    i = r + sub m ((start + i) % m) ((start + r) % m) := by
  rcases lt_or_ge i r with hlt | hge
  · rw [sub_counters_of_lt hlt (by omega), mod_eq_of_lt (by omega)] at hsub
    omega
  · rw [sub_counters_of_le hge hahead]
    omega

end Gnunet.Lib.SequenceNumber
