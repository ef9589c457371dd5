import Mathlib.Data.List.Basic
import Gnunet.Util.CommonAllocation
import Mathlib.Algebra.GroupWithZero.Nat

/-!
# Keyword URIs and their strings

A keyword URI (`ksk`) is a list of keywords, each stored with its marker in front: a plus for a
mandatory keyword and a space for an optional one. This module follows `fs_uri.c`: building such
a URI from arguments (`GNUNET_FS_uri_ksk_create_from_args`), writing its string
(`uri_ksk_to_string`) and reading a string back (`uri_ksk_parse`, `percent_decode_keyword`).

Strings are lists of bytes without their terminator. `char` is signed, as on the platforms the
code is built for, and `isalnum` is the one of the C locale.
-/

namespace Gnunet.Fs.KeywordUri

open Util

def bytes (text : String) : List UInt8 := text.toList.map Char.toUInt8

abbrev quote : UInt8 := 34
abbrev percent : UInt8 := 37
abbrev plus : UInt8 := 43
abbrev space : UInt8 := 32

def uriPrefix : List UInt8 := bytes "gnunet://fs/"

def kskInfix : List UInt8 := bytes "ksk/"

def kskPrefix : List UInt8 := uriPrefix ++ kskInfix

inductive Failure where
  /-- The call does not come back in a defined way: it loops, or it reads or writes outside of its
  buffers. -/
  | stuck
  /-- An allocation stops the program. -/
  | stopped
  /-- The call returns `NULL`, with the message it left in `emsg`. -/
  | null (emsg : Option String)
  deriving DecidableEq, Repr

def malloc (size : ℕ) : Except Failure Unit :=
  if size ≤ maxMallocChecked then .ok () else .error .stopped

def isalnum (c : UInt8) : Bool :=
  (48 ≤ c && c ≤ 57) || (65 ≤ c && c ≤ 90) || (97 ≤ c && c ≤ 122)

def needsPercent (c : UInt8) : Bool :=
  !(isalnum c || c = 45 || c = 95 || c = 46 || c = 126)

def hexDigit (n : ℕ) : UInt8 := if n < 10 then UInt8.ofNat (48 + n) else UInt8.ofNat (55 + n)

/-- What `sprintf` makes of `"%%%02X"` and a `char`, which is sign-extended: a byte from 128 on
prints with six digits `F` in front. -/
def percent02X (c : UInt8) : List UInt8 :=
  if c < 128 then [percent, hexDigit (c.toNat / 16), hexDigit (c.toNat % 16)]
  else percent :: (List.replicate 6 70 ++ [hexDigit (c.toNat / 16), hexDigit (c.toNat % 16)])

/-- One write of the second loop of `uri_ksk_to_string`. -/
inductive Piece where
  | plain (c : UInt8)
  | escape (c : UInt8)
  deriving DecidableEq, Repr

def Piece.width : Piece → ℕ
  | .plain _ => 1
  | .escape _ => 3

def pieceOf (c : UInt8) : Piece := if needsPercent c then .escape c else .plain c

def skipSpace : List UInt8 → List UInt8
  | [] => []
  | c :: text => if c = space then text else c :: text

def pieces : List (List UInt8) → List Piece
  | [] => []
  | [keyword] => (skipSpace keyword).map pieceOf
  | keyword :: keywords => (skipSpace keyword).map pieceOf ++ .plain plus :: pieces keywords

/-- Its length, one less for a space in front, and two more for every other byte that is escaped. -/
def keywordSize (keyword : List UInt8) : ℕ :=
  (skipSpace keyword).length + 2 * (skipSpace keyword).countP needsPercent

def stringSize (keywords : List (List UInt8)) : ℕ :=
  keywords.length + uriPrefix.length + kskInfix.length + 1 + (keywords.map keywordSize).sum

structure Output where
  written : List UInt8
  rest : List UInt8
  deriving DecidableEq, Repr

/-- One write at `wpos`; no result past the end of the buffer. `sprintf` writes its whole text and a
terminator, and `wpos` advances by three. -/
def writePiece (out : Output) : Piece → Option Output
  | .plain c =>
    match out.rest with
    | [] => none
    | _ :: rest => some ⟨out.written ++ [c], rest⟩
  | .escape c =>
    let text := percent02X c
    if text.length + 1 ≤ out.rest.length then
      some ⟨out.written ++ text.take 3, text.drop 3 ++ 0 :: out.rest.drop (text.length + 1)⟩
    else none

/-- The string returned ends at the first zero byte of the buffer. -/
def uriKskToString (keywords : List (List UInt8)) : Option (List UInt8) :=
  let n := stringSize keywords
  if n ≤ maxMallocChecked then
    match (pieces keywords).foldlM writePiece
        ⟨kskPrefix, List.replicate (n - kskPrefix.length) 0⟩ with
    | none => none
    | some out =>
      if 0 ∈ out.rest then some (out.written ++ out.rest.takeWhile (· ≠ 0)) else none
  else none

/-- `SSCANF` with the format `"%2X"`. It reads two hexadecimal digits; on other texts it may do what
it likes, but for a number with the low byte of a double quote it must have read just that. -/
structure Scan where
  read : List UInt8 → Option UInt32
  read_digits : ∀ (c : UInt8) (rest : List UInt8),
    read (hexDigit (c.toNat / 16) :: hexDigit (c.toNat % 16) :: rest) = some c.toUInt32
  read_quote : ∀ text hx, read text = some hx → hx.toUInt8 = quote → hx = quote.toUInt32

variable (scan : Scan)

/-- A percent sign always moves `rpos` by three, also past the end of the string. -/
def percentDecode : List UInt8 → Except Failure (List UInt8)
  | [] => .ok []
  | c :: rest =>
    if c = percent then
      match scan.read rest with
      | none => .error (.null (some "`%' must be followed by HEX number"))
      | some hx =>
        match rest with
        | _ :: _ :: rest =>
          if hx = quote.toUInt32 then percentDecode rest
          else (percentDecode rest).map (hx.toUInt8 :: ·)
        | _ => .error .stuck
    else (percentDecode rest).map (c :: ·)

/-- The string ends at its first zero byte, and gets a space in front unless it starts with a plus.
-/
def marked (decoded : List UInt8) : List UInt8 :=
  let out := decoded.takeWhile (· ≠ 0)
  if out.head? = some plus then out else space :: out

def percentDecodeKeyword (text : List UInt8) : Except Failure (List UInt8) := do
  malloc (text.length + 1)
  let decoded ← percentDecode scan text
  malloc ((marked decoded).length + 1)
  return marked decoded

/-- The first loop of `uri_ksk_parse`: the byte before, `saw_quote` and `max`. An escaped quote
moves the position by four. -/
def countKeywords : List UInt8 → UInt8 → Bool → ℕ → Except Failure ℕ
  | [], _, sawQuote, max =>
    if sawQuote then .error (.null (some "Quotes not balanced in KSK URI")) else .ok max
  | 37 :: 50 :: 50 :: [], c, sawQuote, max => countKeywords [] c (!sawQuote) max
  | 37 :: 50 :: 50 :: c :: rest, _, sawQuote, max => countKeywords rest c (!sawQuote) max
  | c :: rest, before, sawQuote, max =>
    if c = plus ∧ sawQuote = false then
      if before = plus then .error (.null (some "`++' not allowed in KSK URI"))
      else countKeywords rest c sawQuote (max + 1)
    else countKeywords rest c sawQuote max

/-- The second loop, from the end of the string. At an escaped quote the position goes forward by
three and back by one until it is there again, so that the loop does not end. -/
def splitKeywords : List UInt8 → Except Failure (List (List UInt8) × List UInt8)
  | [] => .ok ([], [])
  | c :: rest => do
    let (keywords, text) ← splitKeywords rest
    if c = percent ∧ text.take 2 = [50, 50] then .error .stuck
    else if c = plus then
      let keyword ← percentDecodeKeyword scan text
      return (keyword :: keywords, [])
    else return (keywords, c :: text)

def uriKskParse (s : List UInt8) : Except Failure (List (List UInt8)) :=
  if s.length ≤ kskPrefix.length ∨ s.take kskPrefix.length ≠ kskPrefix then .error (.null none)
  else
    let body := s.drop kskPrefix.length
    if body.getLast? = some plus ∨ body.head? = some plus then
      .error (.null (some "Malformed KSK URI (must not begin or end with `+')"))
    else do
      -- the byte before the first one is the slash that ends the infix
      let max ← countKeywords body 47 false 1
      malloc (s.length + 1)
      malloc (max * 8)
      let (keywords, text) ← splitKeywords scan body
      let keyword ← percentDecodeKeyword scan text
      return keyword :: keywords

/-- The types besides `ksk` are kept as one. -/
inductive Uri (O : Type) where
  | ksk (keywords : List (List UInt8))
  | other (uri : O)
  deriving DecidableEq

def uriToString {O : Type} (others : O → Option (List UInt8)) : Uri O → Option (List UInt8)
  | .ksk keywords => uriKskToString keywords
  | .other uri => others uri

/-- The parsers of the other types, each behind the test of its infix. -/
structure OtherParsers (O : Type) where
  chk : List UInt8 → Except Failure O
  sks : List UInt8 → Except Failure O
  loc : List UInt8 → Except Failure O

def behindInfix {O : Type} (name : String) (parse : List UInt8 → Except Failure O)
    (s : List UInt8) : Except Failure (Uri O) :=
  let start := uriPrefix ++ bytes name
  if s.length ≤ start.length ∨ s.take start.length ≠ start then .error (.null none)
  else (parse s).map .other

def orElse {α : Type} (first second : Except Failure α) : Except Failure α :=
  match first with
  | .error (.null message) =>
    match second with
    | .error (.null none) => .error (.null message)
    | result => result
  | result => result

variable {O : Type} (parsers : OtherParsers O)

def uriParse (uri : List UInt8) : Except Failure (Uri O) :=
  let ret := orElse (behindInfix "chk/" parsers.chk uri)
    (orElse ((uriKskParse scan uri).map .ksk)
      (orElse (behindInfix "sks/" parsers.sks uri) (behindInfix "loc/" parsers.loc uri)))
  match ret with
  | .error (.null none) => .error (.null (some "Unrecognized URI type"))
  | ret => ret

def markArgument (keyword : List UInt8) : Except Failure (List UInt8) := do
  let val := if keyword.head? = some plus then keyword else space :: keyword
  malloc (val.length + 1)
  return val.filter (· ≠ quote)

def kskOfArguments (argv : List (List UInt8)) : Except Failure (Uri O) := do
  malloc (argv.length * 8)
  let keywords ← argv.mapM markArgument
  return .ksk keywords

/-- A single argument that is a URI stands for that URI. -/
def uriKskCreateFromArgs (argv : List (List UInt8)) : Except Failure (Uri O) :=
  match argv with
  | [] => .error (.null none)
  | [uri] =>
    if uriPrefix.length < uri.length ∧ uri.take uriPrefix.length = uriPrefix then
      match uriParse scan parsers uri with
      | .error (.null _) => kskOfArguments [uri]
      | result => result
    else kskOfArguments [uri]
  | argv => kskOfArguments argv

end Gnunet.Fs.KeywordUri
