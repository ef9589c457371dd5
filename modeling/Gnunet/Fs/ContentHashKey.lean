import Mathlib.Data.List.Basic

/-!
# Content hash keys

A block is encrypted with the hash of its content and found by the hash of the encrypted block.  An
IBLOCK is the sequence of the content hash keys of its children.
-/

namespace Gnunet.Fs

abbrev HashCode := Vector UInt8 64

structure ContentHashKey where
  key : HashCode
  query : HashCode
  deriving DecidableEq

/-- Hashing, and encryption with a key that is derived from a hash code. -/
structure Crypto where
  hash : List UInt8 → HashCode
  encrypt : HashCode → List UInt8 → List UInt8
  decrypt : HashCode → List UInt8 → List UInt8
  length_encrypt : ∀ key data, (encrypt key data).length = data.length
  length_decrypt : ∀ key data, (decrypt key data).length = data.length
  decrypt_encrypt : ∀ key data, decrypt key (encrypt key data) = data

namespace ContentHashKey

def hashAt (block : List UInt8) (start : ℕ) : Option HashCode :=
  if h : ((block.drop start).take 64).length = 64 then
    some ⟨((block.drop start).take 64).toArray, by simpa using h⟩
  else none

def at? (block : List UInt8) (i : ℕ) : Option ContentHashKey := do
  let key ← hashAt block (128 * i)
  let query ← hashAt block (128 * i + 64)
  some ⟨key, query⟩

end ContentHashKey

end Gnunet.Fs
