import Mathlib.Tactic.Ring

/-!
# Numbers in network byte order

A number is written as a fixed number of bytes, the most significant one first.
-/

namespace Gnunet.Lib.NetworkOrder

open Nat

def encode : ℕ → ℕ → List UInt8
  | 0, _ => []
  | width + 1, n => UInt8.ofNat (n / 256 ^ width) :: encode width n

def decode (bytes : List UInt8) : ℕ := bytes.foldl (fun acc byte ↦ 256 * acc + byte.toNat) 0

@[simp] theorem length_encode (width n : ℕ) : (encode width n).length = width := by
  induction width with
  | zero => rfl
  | succ width ih => rw [encode, List.length_cons, ih]

theorem foldl_encode (width n acc : ℕ) :
    (encode width n).foldl (fun acc byte ↦ 256 * acc + byte.toNat) acc =
      acc * 256 ^ width + n % 256 ^ width := by
  induction width generalizing acc with
  | zero => simp [encode, mod_one]
  | succ width ih =>
    have hbyte : (UInt8.ofNat (n / 256 ^ width)).toNat = n / 256 ^ width % 256 :=
      UInt8.toNat_ofNat'
    have hmod : n % 256 ^ (width + 1) =
        n % 256 ^ width + 256 ^ width * (n / 256 ^ width % 256) := by
      rw [pow_succ, mod_mul]
    rw [encode, List.foldl_cons, ih, hbyte, hmod]
    ring

@[simp] theorem decode_encode (width n : ℕ) : decode (encode width n) = n % 256 ^ width := by
  rw [decode, foldl_encode, zero_mul, zero_add]

theorem foldl_lt (bytes : List UInt8) (acc : ℕ) :
    bytes.foldl (fun acc byte ↦ 256 * acc + byte.toNat) acc < (acc + 1) * 256 ^ bytes.length := by
  induction bytes generalizing acc with
  | nil => simp
  | cons byte bytes ih =>
    have hbyte : byte.toNat < 256 := UInt8.toNat_lt byte
    calc bytes.foldl (fun acc byte ↦ 256 * acc + byte.toNat) (256 * acc + byte.toNat)
        < (256 * acc + byte.toNat + 1) * 256 ^ bytes.length := ih _
      _ ≤ ((acc + 1) * 256) * 256 ^ bytes.length :=
        mul_le_mul_right _ (by omega)
      _ = (acc + 1) * 256 ^ (bytes.length + 1) := by ring

theorem decode_lt (bytes : List UInt8) : decode bytes < 256 ^ bytes.length := by
  have hlt := foldl_lt bytes 0
  rw [zero_add, one_mul] at hlt
  exact hlt

def htonl (value : UInt32) : List UInt8 := encode 4 value.toNat

def ntohl (bytes : List UInt8) : UInt32 := UInt32.ofNat (decode bytes)

@[simp] theorem length_htonl (value : UInt32) : (htonl value).length = 4 := length_encode 4 _

@[simp] theorem ntohl_htonl (value : UInt32) : ntohl (htonl value) = value := by
  have hlt := UInt32.toNat_lt value
  rw [ntohl, htonl, decode_encode, mod_eq_of_lt (by omega), UInt32.ofNat_toNat]

end Gnunet.Lib.NetworkOrder
