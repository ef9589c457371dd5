import Gnunet.Lib.InetPton
import Gnunet.Lib.PrefixMask
import Gnunet.Lib.Scanf
import Gnunet.Lib.Sentinel

/-!
# Access control of services

The part of `service.c` that parses lists of networks and checks whether an address is listed.
An IPv4 address is the number its four bytes denote in network order, so that `htonl` is the
identity.  A parsed list is the array the parser allocates, with its zero entry at the end.
-/

namespace Gnunet.Util.Service

open Lib Lib.InetPton Lib.Scanf

structure IPv4NetworkSet where
  network : BitVec 32
  netmask : BitVec 32
  deriving DecidableEq, Repr

structure IPv6NetworkSet where
  network : In6Addr
  netmask : In6Addr
  deriving DecidableEq

def dottedFormat : List Directive :=
  [.unsigned, .literal '.', .unsigned, .literal '.', .unsigned, .literal '.', .unsigned]

def maskFormat : List Directive :=
  dottedFormat ++ .literal '/' :: dottedFormat ++ [.literal ';']

def slashFormat : List Directive :=
  dottedFormat ++ [.literal '/', .unsigned, .literal ';']

def hostFormat : List Directive := dottedFormat ++ [.literal ';']

def inAddr (a b c d : UInt32) : BitVec 32 :=
  (a.toBitVec <<< 24) + (b.toBitVec <<< 16) + (c.toBitVec <<< 8) + d.toBitVec

def octetsOnly (temps : List UInt32) : Bool := temps.all (· ≤ 0xFF)

def netmaskOfSlash (slash : ℕ) : BitVec 32 := PrefixMask.pushOne^[slash] 0#32

/-- `slash` is read with `%u` into an `int`. -/
def slashLegal (slash : UInt32) : Bool :=
  slash.toBitVec.toInt ≤ 32 && 0 ≤ slash.toBitVec.toInt

/-- The three notations in turn. -/
def parseIpv4Entry (routeList : List Char) : Option IPv4NetworkSet :=
  match sscanf maskFormat routeList with
  | [a, b, c, d, e, f, g, h] =>
    if octetsOnly [a, b, c, d, e, f, g, h] then some ⟨inAddr a b c d, inAddr e f g h⟩ else none
  | _ =>
    match sscanf slashFormat routeList with
    | [a, b, c, d, slash] =>
      if octetsOnly [a, b, c, d] then
        if slashLegal slash then some ⟨inAddr a b c d, netmaskOfSlash slash.toNat⟩ else none
      else none
    | _ =>
      match sscanf hostFormat routeList with
      | [a, b, c, d] =>
        if octetsOnly [a, b, c, d] then some ⟨inAddr a b c d, netmaskOfSlash 32⟩ else none
      | _ => none

def afterSemicolon (routeList : List Char) : List Char :=
  (routeList.dropWhile (· ≠ ';')).drop 1

/-- The entries and the unread rest. -/
def parseIpv4Entries : ℕ → List Char → Option (List IPv4NetworkSet × List Char)
  | 0, routeList => some ([], routeList)
  | count + 1, routeList => do
      let entry ← parseIpv4Entry routeList
      let (entries, rest) ← parseIpv4Entries count (afterSemicolon routeList)
      some (entry :: entries, rest)

def parseIpv4Specification (routeList : List Char) : Option (List IPv4NetworkSet) :=
  if routeList = [] then none
  else do
    let (entries, rest) ← parseIpv4Entries (routeList.count ';') routeList
    if rest = [] then some (entries ++ [⟨0#32, 0#32⟩]) else none

def checkIpv4Listed (list : Option (List IPv4NetworkSet)) (add : BitVec 32) : Bool :=
  match list with
  | none => false
  | some list =>
    Sentinel.scanUntil (fun entry ↦ entry.network = 0#32 ∧ entry.netmask = 0#32)
      (fun entry ↦ add &&& entry.netmask = entry.network &&& entry.netmask) list

def zeroAddress : In6Addr := fun _ ↦ 0#8

def fullMask : In6Addr := fun _ ↦ 0xFF#8

def byteAt (address : In6Addr) (off : ℕ) : BitVec 8 :=
  if h : off < 16 then address ⟨off, h⟩ else 0#8

def setByte (address : In6Addr) (off : ℕ) (byte : BitVec 8) : In6Addr :=
  fun i ↦ if i.val = off then byte else address i

/-- `while (bits > 8)`: returns mask, `bits` and `off`. -/
def fillBytes : ℕ → ℕ → ℕ → In6Addr → In6Addr × ℕ × ℕ
  | 0, bits, off, netmask => (netmask, bits, off)
  | fuel + 1, bits, off, netmask =>
    if 8 < bits then fillBytes fuel (bits - 8) (off + 1) (setByte netmask off 0xFF#8)
    else (netmask, bits, off)

def fillBits : ℕ → ℕ → In6Addr → In6Addr
  | 0, _, netmask => netmask
  | bits + 1, off, netmask =>
    fillBits bits off (setByte netmask off (PrefixMask.pushOne (byteAt netmask off)))

def netmaskOfBits (bits : ℕ) : In6Addr :=
  let (netmask, bits, off) := fillBytes bits bits 0 zeroAddress
  fillBits bits off netmask

def parseIpv6Netmask (text : List Char) : Option In6Addr :=
  match inetPton text with
  | some netmask => some netmask
  | none =>
    match sscanf [.unsigned] text with
    | [bits] => if 128 ≤ bits.toNat then none else some (netmaskOfBits bits.toNat)
    | _ => none

def splitLastSlash (text : List Char) : Option (List Char × List Char) :=
  if '/' ∈ text then
    some (((text.reverse.dropWhile (· ≠ '/')).drop 1).reverse,
      (text.reverse.takeWhile (· ≠ '/')).reverse)
  else none

def parseIpv6Entry (text : List Char) : Option IPv6NetworkSet :=
  match splitLastSlash text with
  | none => (inetPton text).map fun network ↦ ⟨network, fullMask⟩
  | some (network, netmask) => do
      let netmask ← parseIpv6Netmask netmask
      let network ← inetPton network
      some ⟨network, netmask⟩

def parseIpv6Entries : ℕ → List Char → Option (List IPv6NetworkSet)
  | 0, _ => some []
  | count + 1, routeList => do
      let entry ← parseIpv6Entry (routeList.takeWhile (· ≠ ';'))
      let entries ← parseIpv6Entries count (afterSemicolon routeList)
      some (entry :: entries)

def parseIpv6Specification (routeList : List Char) : Option (List IPv6NetworkSet) :=
  if routeList = [] then none
  else if routeList.getLast? ≠ some ';' then none
  else (parseIpv6Entries (routeList.count ';') routeList).map
    (· ++ [⟨zeroAddress, zeroAddress⟩])

/-- The `j`-th `int` of an address on a little-endian machine. -/
def word (address : In6Addr) (j : ℕ) : BitVec (8 + 8 + 8 + 8) :=
  byteAt address (4 * j + 3) ++ byteAt address (4 * j + 2) ++ byteAt address (4 * j + 1) ++
    byteAt address (4 * j)

def checkIpv6Listed (list : Option (List IPv6NetworkSet)) (ip : In6Addr) : Bool :=
  match list with
  | none => false
  | some list =>
    Sentinel.scanUntil (fun entry ↦ entry.network = zeroAddress)
      (fun entry ↦ (List.range 4).all fun j ↦
        word ip j &&& word entry.netmask j = word entry.network j &&& word entry.netmask j) list

/-- A missing option and a list that cannot be parsed both end up as `NULL`, since the result of
`process_acl4` is not looked at. -/
structure ServiceContext where
  v4Denied : Option (List IPv4NetworkSet)
  v4Allowed : Option (List IPv4NetworkSet)
  v6Denied : Option (List IPv6NetworkSet)
  v6Allowed : Option (List IPv6NetworkSet)

def setupService (rejectFrom acceptFrom rejectFrom6 acceptFrom6 : Option (List Char)) :
    ServiceContext where
  v4Denied := rejectFrom.bind parseIpv4Specification
  v4Allowed := acceptFrom.bind parseIpv4Specification
  v6Denied := rejectFrom6.bind parseIpv6Specification
  v6Allowed := acceptFrom6.bind parseIpv6Specification

inductive SockAddr where
  | inet (address : BitVec 32)
  | inet6 (address : In6Addr)

def checkAccess (sctx : ServiceContext) : SockAddr → Bool
  | .inet address =>
    (sctx.v4Allowed.isNone || checkIpv4Listed sctx.v4Allowed address) &&
      (sctx.v4Denied.isNone || !checkIpv4Listed sctx.v4Denied address)
  | .inet6 address =>
    (sctx.v6Allowed.isNone || checkIpv6Listed sctx.v6Allowed address) &&
      (sctx.v6Denied.isNone || !checkIpv6Listed sctx.v6Denied address)

end Gnunet.Util.Service
