import Mathlib.Data.Nat.Notation

/-!
# Message headers

Every message begins with a `struct GNUNET_MessageHeader` of four bytes, the first two of which are
the size of the whole message in network byte order.
-/

namespace Gnunet.Util

open List

def messageHeaderSize : ℕ := 4

/-- `ntohs (hdr->size)` for the header at the beginning of the bytes. -/
def messageSize (bytes : List UInt8) : ℕ :=
  (bytes.getD 0 0).toNat * 256 + (bytes.getD 1 0).toNat

theorem messageSize_lt (bytes : List UInt8) : messageSize bytes < 65536 := by
  have hhigh := (bytes.getD 0 0).toNat_lt
  have hlow := (bytes.getD 1 0).toNat_lt
  rw [messageSize]
  omega

theorem messageSize_append {bytes : List UInt8} (more : List UInt8) (h : 2 ≤ bytes.length) :
    messageSize (bytes ++ more) = messageSize bytes := by
  rw [messageSize, messageSize, getD_eq_getElem?_getD, getD_eq_getElem?_getD,
    getD_eq_getElem?_getD, getD_eq_getElem?_getD, getElem?_append_left (by omega),
    getElem?_append_left (by omega)]

structure Message where
  bytes : List UInt8
  size_eq : messageSize bytes = bytes.length
  size_ge : messageHeaderSize ≤ bytes.length

theorem Message.length_lt (msg : Message) : msg.bytes.length < 65536 :=
  msg.size_eq ▸ messageSize_lt msg.bytes

end Gnunet.Util
