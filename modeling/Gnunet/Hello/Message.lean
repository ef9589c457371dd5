import Gnunet.Lib.NetworkOrder

/-!
# HELLO messages

A HELLO message of `hello.c` has the public key of a peer, followed by its addresses in a packed
format: the name of the transport up to a zero byte, the length of the address in two bytes, its
expiration in eight bytes and the bytes of the address.

The size in the header is that of the key and of all the bytes after it. The identity of the peer in
an address is left out, as no function here looks at it.
-/

namespace Gnunet.Hello

open Lib.NetworkOrder

def messageSize : ℕ := 4 + 4 + (2 + 2 + 258 + 2)

def typeHello : UInt16 := 16

def bufferSize : ℕ := 65536 - 1 - 256 - messageSize

structure HelloMessage (K : Type*) where
  type : UInt16
  publicKey : K
  body : List UInt8
  size_lt : messageSize + body.length < 2 ^ 16

structure Address where
  transportName : List UInt8
  address : List UInt8
  deriving DecidableEq

inductive IterResult
  | syserr
  | no
  | ok

variable {K σ : Type*}

def helloSize (hello : HelloMessage K) : ℕ :=
  if hello.type ≠ typeHello then 0 else messageSize + hello.body.length

def addAddress (address : Address) (expiration max : ℕ) : List UInt8 :=
  let slen := address.transportName.length + 1
  if slen + 2 + 8 + address.address.length > max then []
  else address.transportName ++ [0] ++ encode 2 address.address.length ++ encode 8 expiration ++
    address.address

/-- The length of the name with its end, and what is left. -/
def findEnd : List UInt8 → ℕ → Option (ℕ × List UInt8)
  | [], _ => none
  | c :: rest, slen => if c = 0 then some (slen, c :: rest) else findEnd rest (slen + 1)

/-- The size of the entry and the length of the address. -/
def getHelloAddressSize (buf : List UInt8) : Option (ℕ × ℕ) := do
  let (slen, left) ← findEnd buf 1
  if left.length < 2 + 8 then none
  else
    let alen := decode (left.tail.take 2)
    let slen := slen + alen + 2 + 8
    if buf.length < slen then none else some (slen, alen)

/-- What is written is missing if the message is malformed. -/
def iterateFrom (it : σ → Address → ℕ → σ × IterResult) :
    ℕ → List UInt8 → List UInt8 → σ → σ × Option (List UInt8)
  | 0, _, written, cls => (cls, some written)
  | _ + 1, [], written, cls => (cls, some written)
  | fuel + 1, inptr, written, cls =>
    match getHelloAddressSize inptr with
    | none => (cls, none)
    | some (esize, alen) =>
      let expire := decode ((inptr.drop (esize - alen - 8)).take 8)
      let address : Address :=
        { transportName := inptr.takeWhile (· ≠ 0)
          address := (inptr.drop (esize - alen)).take alen }
      match it cls address expire with
      | (cls, .syserr) => (cls, some written)
      | (cls, .ok) => iterateFrom it fuel (inptr.drop esize) (written ++ inptr.take esize) cls
      | (cls, .no) => iterateFrom it fuel (inptr.drop esize) written cls

/-- The state of the iterator, and the modified copy. -/
def iterateAddresses (msg : HelloMessage K) (returnModified : Bool)
    (it : σ → Address → ℕ → σ × IterResult) (cls : σ) : σ × Option (HelloMessage K) :=
  if helloSize msg < messageSize ∨ msg.type ≠ typeHello then (cls, none)
  else
    match iterateFrom it msg.body.length msg.body [] cls with
    | (cls, none) => (cls, none)
    | (cls, some written) =>
      if h : returnModified ∧ messageSize + written.length < 2 ^ 16 then
        (cls, some { msg with body := written, size_lt := h.2 })
      else (cls, none)

def getMatchExp (wanted : Address) (found : Option ℕ) (address : Address) (expiration : ℕ) :
    Option ℕ × IterResult :=
  -- `GNUNET_HELLO_address_cmp`
  if address = wanted then (some expiration, .syserr) else (found, .ok)

def copyLatest (other : HelloMessage K) (takeEqual : Bool) (max : ℕ) (buf : List UInt8)
    (address : Address) (expiration : ℕ) : List UInt8 × IterResult :=
  let found := (iterateAddresses other false (getMatchExp address) none).1
  let copies := match found with
    | none => true
    | some old => old < expiration || (old = expiration && takeEqual)
  (if copies then buf ++ addAddress address expiration (max - buf.length) else buf, .ok)

/-- `merge_addr`; the state is missing after the first call. -/
def mergeAddr (mc : Option (HelloMessage K × HelloMessage K)) (max : ℕ) :
    List UInt8 × Option (HelloMessage K × HelloMessage K) :=
  match mc with
  | none => ([], none)
  | some (h1, h2) =>
    let buf := (iterateAddresses h1 false (copyLatest h2 false max) []).1
    let buf := (iterateAddresses h2 false (copyLatest h1 true max) buf).1
    (buf, none)

def generate (addrgen : σ → ℕ → List UInt8 × σ) : ℕ → σ → ℕ → List UInt8 → List UInt8
  | 0, _, _, used => used
  | fuel + 1, cls, max, used =>
    match addrgen cls max with
    | ([], _) => used
    | (bytes, cls) => generate addrgen fuel cls (max - bytes.length) (used ++ bytes)

/-- A generator that does not keep to the buffer has no result. -/
def create (publicKey : K) (addrgen : σ → ℕ → List UInt8 × σ) (cls : σ) :
    Option (HelloMessage K) :=
  let used := generate addrgen (bufferSize + 1) cls bufferSize []
  if h : messageSize + used.length < 2 ^ 16 then
    some { type := typeHello, publicKey, body := used, size_lt := h }
  else none

def merge (h1 h2 : HelloMessage K) : Option (HelloMessage K) :=
  create h1.publicKey mergeAddr (some (h1, h2))

end Gnunet.Hello
