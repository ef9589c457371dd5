import Gnunet.Fs.UriEquality

/-!
# Parsing URIs of files

The parsers of the URIs that are not keyword URIs, and the texts on which the parser of all URIs
does not come back in a defined way.  That `GNUNET_STRINGS_utf8_toupper` ends the upper-case form of
a hash code with a zero right behind the array is left out: the array of 103 bytes is padded.
-/

namespace Gnunet.Fs.UriParsing

open Util Fs.KeywordUri Fs.UriEquality

/-- What the parsers rest on: `u8_toupper`, `NULL` for a text that is not UTF-8, `SSCANF` with the
format `"%llu"`, and the test of the signature of a location. -/
structure Library where
  toUpper : List UInt8 → Option (List UInt8)
  scanNumber : List UInt8 → Option UInt64
  verify : Location → Bool

def getValue (a : UInt8) : Option UInt32 :=
  if 48 ≤ a ∧ a ≤ 57 then some (a - 48).toUInt32
  else if 65 ≤ a ∧ a ≤ 86 then some (a - 65 + 10).toUInt32
  else none

/-- The loop goes through the text and through the data from their ends. -/
def dataLoop : List UInt8 → ℕ → UInt32 → UInt32 → List UInt8 → Option (List UInt8)
  | _, 0, _, _, out => some out
  | [], _ + 1, _, _, _ => none
  | c :: enc, wpos + 1, bits, vbit, out =>
    (getValue c).bind fun value ↦
      let bits := value <<< vbit ||| bits
      if vbit + 5 ≥ 8 then dataLoop enc wpos (bits >>> 8) (vbit + 5 - 8) (bits.toUInt8 :: out)
      else dataLoop enc (wpos + 1) bits (vbit + 5) out

def toVector (n : ℕ) (data : List UInt8) : Option (Vector UInt8 n) :=
  if h : data.toArray.size = n then some ⟨data.toArray, h⟩ else none

def stringToData (enc : List UInt8) : Option HashCode :=
  if enc.length ≠ 103 then none
  else
    match enc.reverse with
    | [] => none
    | last :: enc =>
      (getValue last).bind fun value ↦ (dataLoop enc 64 (value >>> 3) 2 []).bind (toVector 64)

def orNull {α : Type} (emsg : String) : Option α → Except Failure α
  | none => .error (.null (some emsg))
  | some a => .ok a

variable (library : Library)

/-- The upper-case form is copied into an array that is as long as the text. -/
def hashFromString (enc : List UInt8) : Except Failure (Option HashCode) :=
  match library.toUpper enc with
  | none => .error .stuck
  | some upper => if upper.length > enc.length then .error .stuck else .ok (stringToData upper)

/-- The part that the URIs of files and of locations have in common. -/
def readIdentifier (emsg : String) (text : List UInt8) : Except Failure FileIdentifier :=
  if text.length < 2 * 104 + 1 then .error (.null none)
  else if text.getD 103 0 ≠ 46 ∨ text.getD 207 0 ≠ 46 then .error (.null (some emsg))
  else do
    let key ← orNull emsg (← hashFromString library (text.take 103))
    let query ← orNull emsg (← hashFromString library ((text.drop 104).take 103))
    let flen ← orNull emsg (library.scanNumber (text.drop 208))
    return ⟨flen, ⟨key, query⟩⟩

def prefixLength : ℕ := 16

def uriChkParse (s : List UInt8) : Except Failure OtherUri :=
  (readIdentifier library "Malformed CHK URI" (s.drop prefixLength)).map .chk

def uriSksParse (s : List UInt8) : Except Failure OtherUri :=
  let text := s.drop prefixLength
  if text.length < 104 ∨ text.getD 103 0 ≠ 47 then .error (.null (some "Malformed SKS URI"))
  else do
    let ns ← orNull "Malformed SKS URI" (← hashFromString library (text.take 103))
    malloc ((text.drop 104).length + 1)
    return .sks ns (text.drop 104)

def c2v (a : UInt8) : UInt32 :=
  if 48 ≤ a ∧ a ≤ 57 then (a - 48).toUInt32
  else if 65 ≤ a ∧ a ≤ 90 then (a - 65 + 10).toUInt32
  else if 97 ≤ a ∧ a ≤ 122 then (a - 97 + 36).toUInt32
  else if a = 95 then 62
  else if a = 61 then 63
  else 0xFFFFFFFF

def fillBits : List UInt8 → UInt32 → UInt32 → UInt32 × UInt32 × List UInt8
  | [], bits, hbits => (bits, hbits, [])
  | c :: input, bits, hbits =>
    if hbits < 8 then fillBits input (bits ||| c2v c <<< hbits) (hbits + 6)
    else (bits, hbits, c :: input)

def binLoop : ℕ → List UInt8 → UInt32 → UInt32 → List UInt8 × List UInt8
  | 0, input, _, _ => ([], input)
  | size + 1, input, bits, hbits =>
    let (bits, hbits, input) := fillBits input bits hbits
    let (data, input) := binLoop size input (bits >>> 8) (hbits - 8)
    (bits.toUInt8 :: data, input)

def enc2bin (input : List UInt8) (size : ℕ) : Option (Vector UInt8 size × List UInt8) :=
  if input.length < (size * 8 + 5) / 6 then none
  else
    let (data, input) := binLoop size input 0 0
    (toVector size data).map (·, input)

def behindDot : List UInt8 → Option (List UInt8)
  | [] => none
  | c :: text => if c = 46 then some text else none

def uriLocParse (s : List UInt8) : Except Failure OtherUri := do
  let text := s.drop prefixLength
  let fi ← readIdentifier library "SKS URI malformed" text
  let text ← orNull "SKS URI malformed" (behindDot ((text.drop 208).dropWhile (· ≠ 46)))
  let (peer, text) ← orNull "SKS URI malformed (could not decode public key)" (enc2bin text 264)
  let text ← orNull "SKS URI malformed (could not find signature)" (behindDot text)
  let (sig, text) ← orNull "SKS URI malformed (could not decode signature)" (enc2bin text 256)
  let text ← orNull "SKS URI malformed" (behindDot text)
  let exptime ← orNull "SKS URI malformed (could not parse expiration time)"
    (library.scanNumber text)
  let location : Location := ⟨fi, peer, exptime, sig⟩
  if library.verify location then return .loc location
  else .error (.null (some "SKS URI malformed (signature failed validation)"))

def fileParsers : OtherParsers OtherUri :=
  ⟨uriChkParse library, uriSksParse library, uriLocParse library⟩

open List

section Results

variable {α β : Type} {x first second : Except Failure α} {f : α → Except Failure β}

@[simp] theorem bind_eq_stuck : (x >>= f) = .error .stuck ↔
    x = .error .stuck ∨ ∃ a, x = .ok a ∧ f a = .error .stuck := by
  cases x <;> simp [bind, Except.bind]

theorem bind_ok (a : α) : (Except.ok a >>= f) = f a := rfl

@[simp] theorem map_eq_stuck {f : α → β} : x.map f = .error .stuck ↔ x = .error .stuck := by
  cases x <;> simp [Except.map]

@[simp] theorem functor_map_eq_stuck {f : α → β} :
    f <$> x = .error .stuck ↔ x = .error .stuck := map_eq_stuck

@[simp] theorem orNull_ne_stuck (emsg : String) (a : Option α) :
    orNull emsg a ≠ .error .stuck := by
  cases a <;> simp [orNull]

@[simp] theorem orNull_eq_ok {emsg : String} {a : Option α} {b : α} :
    orNull emsg a = .ok b ↔ a = some b := by
  cases a <;> simp [orNull]

@[simp] theorem pure_ne_stuck (a : α) : (pure a : Except Failure α) ≠ .error .stuck := nofun

@[simp] theorem malloc_ne_stuck (size : ℕ) : malloc size ≠ .error .stuck := by
  unfold malloc
  split_ifs <;> simp

@[simp] theorem exists_malloc {size : ℕ} :
    (∃ a, malloc size = .ok a) ↔ size ≤ maxMallocChecked := by
  unfold malloc
  split_ifs with hroom <;> simp [hroom]

theorem orElse_eq_stuck : orElse first second = .error .stuck ↔
    first = .error .stuck ∨ (∃ emsg, first = .error (.null emsg)) ∧ second = .error .stuck := by
  unfold orElse
  split
  · split <;> simp_all
  · simp_all

end Results

variable {library}

/-- The text has no upper-case form, or it is longer than the text. -/
def Overlong (library : Library) (enc : List UInt8) : Prop :=
  ∀ upper ∈ library.toUpper enc, enc.length < upper.length

def OverlongFile (library : Library) (text : List UInt8) : Prop :=
  2 * 104 + 1 ≤ text.length ∧ text.getD 103 0 = 46 ∧ text.getD 207 0 = 46 ∧
    (Overlong library (text.take 103) ∨
      (∃ key, hashFromString library (text.take 103) = .ok (some key)) ∧
        Overlong library ((text.drop 104).take 103))

def OverlongNamespace (library : Library) (text : List UInt8) : Prop :=
  104 ≤ text.length ∧ text.getD 103 0 = 47 ∧ Overlong library (text.take 103)

@[simp] theorem hashFromString_eq_stuck {enc : List UInt8} :
    hashFromString library enc = .error .stuck ↔ Overlong library enc := by
  unfold hashFromString Overlong
  cases library.toUpper enc with
  | none => simp
  | some upper => by_cases hlong : upper.length > enc.length <;> simp [hlong]

theorem readIdentifier_eq_stuck {emsg : String} {text : List UInt8} :
    readIdentifier library emsg text = .error .stuck ↔ OverlongFile library text := by
  unfold readIdentifier OverlongFile
  split_ifs with hshort hdots
  · simp [hshort]
  · exact iff_of_false nofun fun h ↦ hdots.elim (absurd h.2.1) (absurd h.2.2.1)
  · rw [not_or, not_not, not_not] at hdots
    rw [and_iff_right (not_lt.mp hshort), and_iff_right hdots.1, and_iff_right hdots.2]
    simp

theorem uriChkParse_eq_stuck {s : List UInt8} :
    uriChkParse library s = .error .stuck ↔ OverlongFile library (s.drop prefixLength) := by
  rw [uriChkParse, map_eq_stuck, readIdentifier_eq_stuck]

theorem uriSksParse_eq_stuck {s : List UInt8} :
    uriSksParse library s = .error .stuck ↔ OverlongNamespace library (s.drop prefixLength) := by
  unfold uriSksParse OverlongNamespace
  dsimp only
  split_ifs with hform
  · exact iff_of_false nofun fun h ↦ hform.elim (not_lt.mpr h.1) (absurd h.2.1)
  · rw [not_or, not_lt, not_not] at hform
    rw [and_iff_right hform.1, and_iff_right hform.2]
    simp

theorem uriLocParse_eq_stuck {s : List UInt8} :
    uriLocParse library s = .error .stuck ↔ OverlongFile library (s.drop prefixLength) := by
  rw [← @readIdentifier_eq_stuck library "SKS URI malformed"]
  unfold uriLocParse
  have hverify (p : Prop) [Decidable p] (uri : OtherUri) (emsg : Option String) :
      (if p then pure uri else .error (.null emsg)) ≠ (.error .stuck : Except Failure _) := by
    split_ifs <;> nofun
  simp [hverify]

section Keywords

variable (scan : Scan)

def keywordTexts : List UInt8 → List UInt8 × List (List UInt8)
  | [] => ([], [])
  | c :: rest =>
    let (text, others) := keywordTexts rest
    if c = plus then ([], text :: others) else (c :: text, others)

def quoted : List UInt8 → Bool
  | [] => false
  | c :: text => (c = percent && text.take 2 = [50, 50]) || quoted text

/-- An escape is read that ends behind the text. -/
def overruns : List UInt8 → Bool
  | [] => false
  | c :: rest =>
    if c = percent then
      match scan.read rest with
      | none => false
      | some _ =>
        match rest with
        | _ :: _ :: rest => overruns rest
        | _ => true
    else overruns rest

def decodeKeywords : List (List UInt8) → Except Failure (List (List UInt8))
  | [] => .ok []
  | text :: others => do
    let keywords ← decodeKeywords others
    if quoted text then .error .stuck
    else do
      let keyword ← percentDecodeKeyword scan text
      return keyword :: keywords

/-- All keywords behind one of them are decoded, and that has an escaped double quote in it or
overruns its end. -/
def Hangs : List (List UInt8) → Prop
  | [] => False
  | text :: others => Hangs others ∨ (∃ keywords, decodeKeywords scan others = .ok keywords) ∧
      (quoted text ∨ text.length + 1 ≤ maxMallocChecked ∧ overruns scan text)

theorem percentDecode_eq_stuck (text : List UInt8) :
    percentDecode scan text = .error .stuck ↔ overruns scan text := by
  fun_induction percentDecode scan text with
  | case1 => simp [overruns]
  | case2 rest hread =>
    rw [overruns.eq_def scan (percent :: rest)]
    simp [hread]
  | case3 => simp_all [overruns]
  | case4 => simp_all [overruns, map_eq_stuck]
  | case5 => simp_all [overruns]
  | case6 c rest hplain ih =>
    rw [map_eq_stuck, ih, overruns.eq_def scan (c :: rest)]
    simp [hplain]

theorem percentDecodeKeyword_eq_stuck (text : List UInt8) :
    percentDecodeKeyword scan text = .error .stuck ↔
      text.length + 1 ≤ maxMallocChecked ∧ overruns scan text := by
  rw [← exists_malloc]
  simp [percentDecodeKeyword, percentDecode_eq_stuck]

theorem decodeKeywords_eq_stuck (texts : List (List UInt8)) :
    decodeKeywords scan texts = .error .stuck ↔ Hangs scan texts := by
  induction texts with
  | nil => simp [decodeKeywords, Hangs]
  | cons text others ih =>
    rw [decodeKeywords, bind_eq_stuck, ih, Hangs, ← percentDecodeKeyword_eq_stuck]
    cases quoted text <;> simp

def split (texts : List UInt8 × List (List UInt8)) :
    Except Failure (List (List UInt8) × List UInt8) := do
  let keywords ← decodeKeywords scan texts.2
  if quoted texts.1 then .error .stuck else return (keywords, texts.1)

theorem readKeywords_of_split {body : List UInt8} {texts : List UInt8 × List (List UInt8)}
    (h : splitKeywords scan body = split scan texts) :
    readKeywords scan body = decodeKeywords scan (texts.1 :: texts.2) := by
  rw [readKeywords, h, split, decodeKeywords]
  cases decodeKeywords scan texts.2 with
  | error e => rfl
  | ok keywords => cases hquoted : quoted texts.1 <;> rfl

theorem splitKeywords_eq (body : List UInt8) :
    splitKeywords scan body = split scan (keywordTexts body) := by
  induction body with
  | nil => rfl
  | cons c rest ih =>
    by_cases hplus : c = plus
    · have htexts : keywordTexts (plus :: rest) =
          ([], (keywordTexts rest).1 :: (keywordTexts rest).2) := rfl
      rw [hplus, splitKeywords_plus, readKeywords_of_split scan ih, htexts, split]
      cases decodeKeywords scan ((keywordTexts rest).1 :: (keywordTexts rest).2) <;> rfl
    · have htexts : keywordTexts (c :: rest) =
          (c :: (keywordTexts rest).1, (keywordTexts rest).2) := if_neg hplus
      rw [splitKeywords, ih, htexts, split, split]
      cases decodeKeywords scan (keywordTexts rest).2 with
      | error e => rfl
      | ok keywords =>
        cases hquoted : quoted (keywordTexts rest).1 with
        | true =>
          have hboth : quoted (c :: (keywordTexts rest).1) = true := by
            rw [quoted, hquoted, Bool.or_true]
          simp only [hboth]
          rfl
        | false => simp [quoted, hquoted, bind_ok, hplus]

theorem countKeywords_ne_stuck (body : List UInt8) (before : UInt8) (sawQuote : Bool) (max : ℕ) :
    countKeywords body before sawQuote max ≠ .error .stuck := by
  fun_induction countKeywords body before sawQuote max <;> simp_all

/-- A keyword URI, not too large for the allocations, whose keywords hang. -/
def KeywordsHang (s : List UInt8) : Prop :=
  let body := s.drop kskPrefix.length
  kskPrefix.length < s.length ∧ s.take kskPrefix.length = kskPrefix ∧
    body.getLast? ≠ some plus ∧ body.head? ≠ some plus ∧
    ∃ max, countKeywords body 47 false 1 = .ok max ∧ s.length + 1 ≤ maxMallocChecked ∧
      max * 8 ≤ maxMallocChecked ∧ Hangs scan ((keywordTexts body).1 :: (keywordTexts body).2)

theorem uriKskParse_eq_stuck (s : List UInt8) :
    uriKskParse scan s = .error .stuck ↔ KeywordsHang scan s := by
  unfold uriKskParse KeywordsHang
  dsimp only
  split_ifs with hform hplus
  · exact iff_of_false nofun fun h ↦ hform.elim (not_le.mpr h.1) (absurd h.2.1)
  · exact iff_of_false nofun fun h ↦ hplus.elim h.2.2.1 h.2.2.2.1
  · rw [not_or, not_le, not_not] at hform
    rw [not_or] at hplus
    change (countKeywords _ 47 false 1 >>= fun max ↦ malloc (s.length + 1) >>= fun _ ↦
      malloc (max * 8) >>= fun _ ↦ readKeywords scan (s.drop kskPrefix.length)) = _ ↔ _
    rw [readKeywords_of_split scan (splitKeywords_eq scan _)]
    simp only [bind_eq_stuck, countKeywords_ne_stuck, malloc_ne_stuck, decodeKeywords_eq_stuck,
      false_or, exists_and_right, exists_malloc, hform, ne_eq, hplus, not_false_eq_true, true_and]

end Keywords

section Parse

variable {O : Type} {name : String} {parse : List UInt8 → Except Failure O} {s : List UInt8}

def HasPrefix (name : String) (s : List UInt8) : Prop :=
  (uriPrefix ++ bytes name).length < s.length ∧
    s.take (uriPrefix ++ bytes name).length = uriPrefix ++ bytes name

theorem behindInfix_eq_stuck :
    behindInfix name parse s = .error .stuck ↔ HasPrefix name s ∧ parse s = .error .stuck := by
  unfold behindInfix HasPrefix
  dsimp only
  split_ifs with hform
  · exact iff_of_false nofun fun h ↦ hform.elim (not_le.mpr h.1.1) (absurd h.1.2)
  · rw [not_or, not_le, not_not] at hform
    simp only [map_eq_stuck, hform, and_self, true_and]

/-- A text with the form of one kind of URI is refused by the parsers of the others. -/
theorem behindInfix_eq_null {kind : String} (h : s.take prefixLength = uriPrefix ++ bytes kind)
    (hlength : (uriPrefix ++ bytes name).length = prefixLength)
    (hne : uriPrefix ++ bytes kind ≠ uriPrefix ++ bytes name) :
    ∃ emsg, behindInfix name parse s = .error (.null emsg) := by
  refine ⟨none, ?_⟩
  rw [behindInfix, if_pos]
  exact .inr (by rwa [hlength, h])

theorem uriKskParse_eq_null (scan : Scan) {kind : String}
    (h : s.take prefixLength = uriPrefix ++ bytes kind)
    (hne : uriPrefix ++ bytes kind ≠ kskPrefix) :
    ∃ emsg, (uriKskParse scan s).map (Uri.ksk : _ → Uri O) = .error (.null emsg) := by
  have hform : s.take kskPrefix.length ≠ kskPrefix := by rwa [← h] at hne
  exact ⟨none, by rw [uriKskParse, if_pos (.inr hform)]; rfl⟩

/-- The parser of URIs does not come back in a defined way on this text. -/
def Stuck (scan : Scan) (library : Library) (s : List UInt8) : Prop :=
  HasPrefix "chk/" s ∧ OverlongFile library (s.drop prefixLength) ∨ KeywordsHang scan s ∨
    HasPrefix "sks/" s ∧ OverlongNamespace library (s.drop prefixLength) ∨
    HasPrefix "loc/" s ∧ OverlongFile library (s.drop prefixLength)

theorem uriParse_eq_stuck (scan : Scan) (library : Library) (s : List UInt8) :
    uriParse scan (fileParsers library) s = .error .stuck ↔ Stuck scan library s := by
  have hparse : uriParse scan (fileParsers library) s = .error .stuck ↔
      orElse (behindInfix "chk/" (uriChkParse library) s)
        (orElse ((uriKskParse scan s).map .ksk) (orElse (behindInfix "sks/" (uriSksParse library) s)
          (behindInfix "loc/" (uriLocParse library) s))) = .error .stuck := by
    unfold uriParse
    dsimp only [fileParsers]
    split <;> simp_all
  rw [hparse, orElse_eq_stuck, orElse_eq_stuck, orElse_eq_stuck, behindInfix_eq_stuck,
    behindInfix_eq_stuck, behindInfix_eq_stuck, map_eq_stuck, uriChkParse_eq_stuck,
    uriKskParse_eq_stuck, uriSksParse_eq_stuck, uriLocParse_eq_stuck]
  constructor
  · rintro (hchk | ⟨-, hksk | ⟨-, hsks | ⟨-, hloc⟩⟩⟩)
    · exact .inl hchk
    · exact .inr (.inl hksk)
    · exact .inr (.inr (.inl hsks))
    · exact .inr (.inr (.inr hloc))
  · rintro (hchk | hksk | hsks | hloc)
    · exact .inl hchk
    · have hform : s.take prefixLength = uriPrefix ++ bytes "ksk/" := hksk.2.1
      exact .inr ⟨behindInfix_eq_null hform (by decide) (by decide), .inl hksk⟩
    · have hform : s.take prefixLength = uriPrefix ++ bytes "sks/" := hsks.1.2
      exact .inr ⟨behindInfix_eq_null hform (by decide) (by decide),
        .inr ⟨uriKskParse_eq_null scan hform (by decide), .inl hsks⟩⟩
    · have hform : s.take prefixLength = uriPrefix ++ bytes "loc/" := hloc.1.2
      exact .inr ⟨behindInfix_eq_null hform (by decide) (by decide),
        .inr ⟨uriKskParse_eq_null scan hform (by decide),
          .inr ⟨behindInfix_eq_null hform (by decide) (by decide), hloc⟩⟩⟩

end Parse

end Gnunet.Fs.UriParsing
