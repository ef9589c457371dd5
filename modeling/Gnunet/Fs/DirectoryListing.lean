import Gnunet.Fs.DirectoryRoundTrip

/-!
# Listing any data as a directory

Every round of `GNUNET_FS_directory_list_contents` moves the position, so that the loop ends, and
what is read lies behind a test of the size.  The size of the meta data is an exception: it is read
behind a URI also if the data end there.  And the parser of URIs does not come back in a defined way
on some texts.
-/

namespace Gnunet.Fs.Directory

open Util.MetaData Lib.NetworkOrder List Relation
open Fs.KeywordUri (bytes uriParse)
open Fs.UriEquality (OtherUri)
open Fs.UriParsing (Library Stuck fileParsers uriParse_eq_stuck)

variable {O : Type} (platform : Platform O) (library : Library) (cdata : List UInt8)

def entryStart (pos : ℕ) : ℕ :=
  if cdata.getD pos 0 = 0 then (pos / dblockSize + 1) * dblockSize else pos

def uriText (start : ℕ) : List UInt8 := (cdata.drop start).takeWhile (· ≠ 0)

def uriEnd (start : ℕ) : ℕ := start + (uriText cdata start).length

def sizeAt (pos : ℕ) : ℕ := (ntohl ((cdata.drop pos).take 4)).toNat

def HasMetaData (zlib : Zlib) (pos : ℕ) : Prop :=
  pos + 4 + sizeAt cdata pos ≤ cdata.length ∧
    ∃ md, metaDataDeserialize zlib ((cdata.drop (pos + 4)).take (sizeAt cdata pos)) =
      some (some md)

/-- Where the first entry of the data may begin: behind the header, or at the offset. -/
def Starts (zlib : Zlib) (offset start : ℕ) : Prop :=
  if offset = 0 then
    cdata.take 8 = directoryMagic ∧ HasMetaData cdata zlib 8 ∧ start = 8 + 4 + sizeAt cdata 8
  else start = offset

/-- Where the next entry may begin: at the end of a text that is no URI, or behind the meta data of
a file. -/
def Follows (pos next : ℕ) : Prop :=
  let epos := uriEnd cdata (entryStart cdata pos)
  let parsed := uriParse platform.scan platform.parsers (uriText cdata (entryStart cdata pos))
  pos < cdata.length ∧ epos < cdata.length ∧
    ((∃ emsg, parsed = .error (.null emsg)) ∧ next = epos ∨
      (∃ uri, parsed = .ok (.other uri)) ∧ HasMetaData cdata platform.zlib (epos + 1) ∧
        next = epos + 1 + 4 + sizeAt cdata (epos + 1))

/-- The parser of URIs comes back, and behind the URI of a file there are the four bytes of the
size. -/
def EntrySafe (platform : Platform OtherUri) (library : Library) (start : ℕ) : Prop :=
  uriEnd cdata start < cdata.length → ¬Stuck platform.scan library (uriText cdata start) ∧
    ∀ uri, uriParse platform.scan (fileParsers library) (uriText cdata start) = .ok (.other uri) →
      uriEnd cdata start + 1 + 4 ≤ cdata.length

variable {platform library cdata} {pos next start : ℕ}

/-- When reading an entry comes back, and where it goes on. -/
theorem readAt_spec (platform : Platform O) (cdata : List UInt8) (start next : ℕ) :
    let epos := uriEnd cdata start
    let parsed := uriParse platform.scan platform.parsers (uriText cdata start)
    ((readAt platform cdata start).isSome ↔ (epos < cdata.length → parsed ≠ .error .stuck ∧
      ∀ uri, parsed = .ok (.other uri) → epos + 1 + 4 ≤ cdata.length)) ∧
    ((∃ report, readAt platform cdata start = some (.continued next report)) ↔
      epos < cdata.length ∧ ((∃ emsg, parsed = .error (.null emsg)) ∧ next = epos ∨
        (∃ uri, parsed = .ok (.other uri)) ∧ HasMetaData cdata platform.zlib (epos + 1) ∧
          next = epos + 1 + 4 + sizeAt cdata (epos + 1))) := by
  unfold readAt uriEnd uriText HasMetaData sizeAt
  generalize (cdata.drop start).takeWhile (· ≠ 0) = text
  dsimp only
  by_cases hend : start + text.length ≥ cdata.length
  · simp [hend, hend.not_gt]
  · rw [if_neg hend]
    have hlt := not_le.mp hend
    cases uriParse platform.scan platform.parsers text with
    | error failure => cases failure <;> simp [hlt, eq_comm]
    | ok uri =>
      cases uri with
      | ksk keywords => simp
      | other uri =>
        generalize (ntohl ((cdata.drop (start + text.length + 1)).take 4)).toNat = mdSize
        by_cases hsize : start + text.length + 1 + 4 ≤ cdata.length
        · simp only [if_pos hsize]
          split_ifs with hlarge
          · simp [hsize, hlarge]
          · generalize metaDataDeserialize platform.zlib
              ((cdata.drop (start + text.length + 1 + 4)).take mdSize) = result
            rcases result with _ | _ | md
            all_goals simp [hsize, hlt, not_lt.mp hlarge, eq_comm]
        · simp [hsize, hlt]
          omega

theorem listRound_cases (platform : Platform O) (hpos : pos < cdata.length) :
    pos < uriEnd cdata (entryStart cdata pos) ∧
      (listRound platform cdata pos = readAt platform cdata (entryStart cdata pos) ∨
        cdata.length ≤ entryStart cdata pos ∧ listRound platform cdata pos = some (.done .ok)) := by
  have hround := Nat.lt_div_mul_add (a := pos) (b := dblockSize) (by decide)
  have halign : pos < (pos / dblockSize + 1) * dblockSize := by
    rw [Nat.add_mul]
    exact hround
  unfold listRound entryStart
  dsimp only
  rw [if_neg halign.ne']
  split_ifs with hzero hsize
  · exact ⟨halign.trans_le (Nat.le_add_right _ _), .inr ⟨hsize, rfl⟩⟩
  · exact ⟨halign.trans_le (Nat.le_add_right _ _), .inl rfl⟩
  · refine ⟨?_, .inl rfl⟩
    rw [getD_eq_getElem _ _ hpos] at hzero
    rw [uriEnd, uriText, drop_eq_getElem_cons hpos, takeWhile_cons_of_pos (by simpa using hzero),
      length_cons]
    omega

theorem listRound_isSome {platform : Platform OtherUri} (hpos : pos < cdata.length) :
    (listRound { platform with parsers := fileParsers library } cdata pos).isSome ↔
      EntrySafe cdata platform library (entryStart cdata pos) := by
  rw [EntrySafe, ← uriParse_eq_stuck]
  set files : Platform OtherUri := { platform with parsers := fileParsers library }
  rcases (listRound_cases files hpos).2 with hread | ⟨hend, hdone⟩
  · rw [hread, (readAt_spec files cdata _ 0).1]
  · rw [hdone]
    exact iff_of_true rfl fun hsize ↦ absurd hsize (by unfold uriEnd; omega)

theorem follows_iff (platform : Platform O) (hpos : pos < cdata.length) :
    Follows platform cdata pos next ↔
      ∃ report, listRound platform cdata pos = some (.continued next report) := by
  rw [Follows, and_iff_right hpos]
  rcases (listRound_cases platform hpos).2 with hread | ⟨hend, hdone⟩
  · rw [hread]
    exact (readAt_spec platform cdata _ next).2.symm
  · rw [hdone]
    exact iff_of_false (fun h ↦ absurd h.1 (by unfold uriEnd; omega)) (by simp)

theorem Follows.lt (h : Follows platform cdata pos next) : pos < next := by
  have hlt := (listRound_cases platform h.1).1
  rcases h.2.2 with ⟨-, rfl⟩ | ⟨-, -, rfl⟩
  · exact hlt
  · omega

theorem forall_reachable_iff {step : ℕ → ℕ → Prop} {property : ℕ → Prop} :
    (∀ last, ReflTransGen step pos last → property last) ↔ property pos ∧
      ∀ next, step pos next → ∀ last, ReflTransGen step next last → property last := by
  constructor
  · intro h
    exact ⟨h pos .refl, fun next hnext last hlast ↦ h last (.head hnext hlast)⟩
  · rintro ⟨hpos, hrest⟩ last hlast
    rcases hlast.cases_head with rfl | ⟨next, hnext, hlast⟩
    · exact hpos
    · exact hrest next hnext last hlast

/-- The loop comes to an end if all entries in front of which it may come are safe. -/
theorem listLoop_isSome {platform : Platform OtherUri} {rounds : ℕ}
    (hrounds : cdata.length ≤ pos + rounds) (reports : List (Report OtherUri)) :
    let files := { platform with parsers := fileParsers library }
    (listLoop files cdata rounds pos reports).isSome ↔
      ∀ last, ReflTransGen (Follows files cdata) pos last → last < cdata.length →
        EntrySafe cdata platform library (entryStart cdata last) := by
  intro files
  induction rounds generalizing pos reports with
  | zero =>
    rw [listLoop, if_neg (by omega), forall_reachable_iff]
    exact iff_of_true rfl ⟨fun hpos ↦ absurd hpos (by omega), fun _ h ↦ absurd h.1 (by omega)⟩
  | succ rounds ih =>
    rw [listLoop, forall_reachable_iff]
    by_cases hpos : pos < cdata.length
    · rw [if_pos hpos, forall_prop_of_true hpos, ← listRound_isSome hpos]
      simp only [follows_iff files hpos]
      cases hround : listRound files cdata pos with
      | none => simp [files]
      | some round =>
        cases round with
        | done status => simp [files]
        | continued next report =>
          have hlt := ((follows_iff files hpos).mpr ⟨report, hround⟩).lt
          rw [Option.bind_some, ih (by omega)]
          simp [files]
    · rw [if_neg hpos]
      exact iff_of_true rfl ⟨fun h ↦ absurd h hpos, fun _ h ↦ absurd h.1 hpos⟩

/-- Any data are listed without a read behind their end, and the listing comes to an end, if and
only if all entries in front of which the listing may come are safe. -/
theorem list_contents_returns_iff (platform : Platform OtherUri) (library : Library)
    (cdata : List UInt8) (offset : ℕ) :
    let files := { platform with parsers := fileParsers library }
    (listContents files cdata offset).isSome ↔ ∀ start, Starts cdata platform.zlib offset start →
      ∀ pos, ReflTransGen (Follows files cdata) start pos → pos < cdata.length →
        EntrySafe cdata platform library (entryStart cdata pos) := by
  intro files
  unfold listContents Starts HasMetaData sizeAt
  generalize (ntohl ((cdata.drop 8).take 4)).toNat = mdSize
  dsimp only
  split_ifs with hoffset hheader hsize
  · refine iff_of_true rfl fun _ hstart ↦ ?_
    have hlength := hstart.2.1.1
    exact hheader.elim (fun hshort ↦ absurd hshort (by omega)) (absurd hstart.1)
  · refine iff_of_true rfl fun _ hstart ↦ ?_
    have hlength := hstart.2.1.1
    omega
  · rw [not_or, not_lt, not_not] at hheader
    have hlength : 8 + 4 + mdSize ≤ cdata.length := by omega
    have hzlib : files.zlib = platform.zlib := rfl
    rw [hzlib]
    generalize metaDataDeserialize platform.zlib ((cdata.drop (8 + 4)).take mdSize) = result
    rcases result with _ | _ | md
    · simp
    · simp
    · simp [hheader.2, hlength, files, listLoop_isSome]
  · simp [files, listLoop_isSome]

/-- The data end with the URI of an entry, and the size behind it is read all the same. -/
theorem list_contents_past_the_end :
    let cdata : List UInt8 := 1 :: zeroText 5 ++ [0]
    cdata.length = 227 ∧
      uriParse zeroFiles.scan (fileParsers asciiLibrary) (zeroText 5) = .ok (.other (zeroUri 5)) ∧
      (listContents zeroFiles cdata 1).isNone := by
  decide +kernel

end Gnunet.Fs.Directory
