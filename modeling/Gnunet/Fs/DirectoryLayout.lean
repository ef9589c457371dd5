import Gnunet.Fs.Directory
import Gnunet.Fs.KeywordUriParsing
import Gnunet.Lib.AlignedLayout

/-!
# Packing and finding the entries of a directory

The packer only changes the order of the entries. It puts every entry right behind the one before
or at a later block boundary, with zeros in between. The reader, which at a zero goes on at the next
boundary, therefore comes to every entry, however long the gap is.
-/

namespace Gnunet.Fs.Directory

open Util List Option UInt32 Nat
open Util.MetaData hiding layOut
open Lib Lib.AlignedLayout
open Lib.NetworkOrder
open Fs.KeywordUri (Scan OtherParsers Uri uriParse)

theorem doAlign_cases (off length : ℕ) :
    doAlign off (off + length) = off + length ∨
      ∃ align, dblockSize ∣ align ∧ off < align ∧ doAlign off (off + length) = align + length := by
  unfold doAlign
  dsimp only
  split_ifs with h
  · refine .inr ⟨_, dvd_mul_left _ _, h.1, ?_⟩
    omega
  · exact .inl rfl

def alignedPlacement : Placement where
  place off length := doAlign off (off + length) - length
  le_place off length := by
    rcases doAlign_cases off length with h | ⟨align, -, hlt, h⟩
    · rw [h]
      omega
    · rw [h]
      omega

theorem place_add_length (off length : ℕ) :
    alignedPlacement.place off length + length = doAlign off (off + length) := by
  change doAlign off (off + length) - length + length = _
  rcases doAlign_cases off length with h | ⟨align, -, -, h⟩
  · omega
  · omega

theorem place_cases (off length : ℕ) :
    alignedPlacement.place off length = off ∨
      dblockSize ∣ alignedPlacement.place off length ∧ off < alignedPlacement.place off length := by
  have hplace := place_add_length off length
  rcases doAlign_cases off length with h | ⟨align, hdvd, hlt, h⟩
  · omega
  · have heq : alignedPlacement.place off length = align := by omega
    rw [heq]
    exact .inr ⟨hdvd, hlt⟩

theorem foldl_doAlign (entries : List (List UInt8)) (start : ℕ) :
    entries.foldl (fun size e ↦ doAlign size (size + e.length)) start =
      layOutEnd alignedPlacement start entries := by
  induction entries generalizing start with
  | nil => rfl
  | cons e entries ih => rw [foldl_cons, ih, layOutEnd, place_add_length]

theorem placeEntries_eq (entries : List (List UInt8)) (data : List UInt8) (off : ℕ) :
    placeEntries entries data off =
      (writeParts alignedPlacement off entries data, layOutEnd alignedPlacement off entries) := by
  induction entries generalizing data off with
  | nil => rfl
  | cons e entries ih =>
    rw [placeEntries, ih, writeParts, layOutEnd, place_add_length]
    rfl

theorem badnessOf_lt (cpos size : ℕ) : badnessOf cpos size < 0x7FFFFFFF := by
  have hend : (cpos + size) % dblockSize < dblockSize := mod_lt _ (by decide)
  unfold badnessOf
  dsimp only
  split_ifs
  · omega
  · unfold dblockSize at hend ⊢
    omega
  · have hle : dblockSize * (dblockSize - cpos % dblockSize) ≤ dblockSize * dblockSize :=
      mul_le_mul_left _ (sub_le _ _)
    unfold dblockSize at hle ⊢
    omega

theorem bestOf_some {cpos : ℕ} {entries : List (List UInt8)} {j b : ℕ} {badness : ℤ} :
    ∃ c, bestOf cpos entries j badness (some b) = some c ∧
      (c = b ∨ j ≤ c ∧ c < j + entries.length) := by
  induction entries generalizing j b badness with
  | nil => exact ⟨b, rfl, .inl rfl⟩
  | cons e entries ih =>
    rw [bestOf]
    split_ifs
    · obtain ⟨c, hc, hrange⟩ := @ih (j + 1) j (badnessOf cpos e.length)
      refine ⟨c, hc, .inr ?_⟩
      rw [length_cons]
      omega
    · obtain ⟨c, hc, hrange⟩ := @ih (j + 1) b badness
      refine ⟨c, hc, ?_⟩
      rw [length_cons]
      omega

/-- As every badness is below the first bound, the assertion in `block_align` holds. -/
theorem bestOf_cons (cpos : ℕ) (e : List UInt8) (entries : List (List UInt8)) :
    ∃ best, bestOf cpos (e :: entries) 0 0x7FFFFFFF none = some best ∧
      best < (e :: entries).length := by
  rw [bestOf, if_pos (badnessOf_lt cpos e.length)]
  obtain ⟨c, hc, _⟩ := @bestOf_some cpos entries 1 0 (badnessOf cpos e.length)
  refine ⟨c, hc, ?_⟩
  rw [length_cons]
  omega

theorem perm_getD_cons_set (e : List UInt8) (entries : List (List UInt8)) {k : ℕ}
    (h : k < entries.length) : (entries.getD k e :: entries.set k e).Perm (e :: entries) := by
  induction entries generalizing k with
  | nil => exact absurd h (not_lt_zero _)
  | cons first entries ih =>
    cases k with
    | zero => exact Perm.swap e first entries
    | succ k =>
      have hrest := ih (lt_of_succ_lt_succ h)
      have hfirst : (entries.getD k e :: first :: entries.set k e).Perm (first :: e :: entries) :=
        (Perm.swap _ _ _).trans (hrest.cons first)
      exact hfirst.trans (Perm.swap e first entries)

theorem swapFirst_perm (e : List UInt8) (entries : List (List UInt8)) {best : ℕ}
    (h : best < (e :: entries).length) :
    ∃ first rest, swapFirst (e :: entries) best = first :: rest ∧
      (first :: rest).Perm (e :: entries) := by
  refine ⟨_, _, rfl, ?_⟩
  cases best with
  | zero => exact Perm.refl _
  | succ k => exact perm_getD_cons_set e entries (lt_of_succ_lt_succ h)

theorem blockAlign_perm (entries : List (List UInt8)) (cpos : ℕ) :
    ∃ perm, blockAlign entries.length cpos entries = some perm ∧ perm.Perm entries := by
  induction hn : entries.length generalizing entries cpos with
  | zero =>
    rw [length_eq_zero_iff.mp hn]
    exact ⟨[], rfl, Perm.refl _⟩
  | succ n ih =>
    obtain ⟨e, entries, rfl⟩ := exists_cons_of_length_eq_add_one hn
    obtain ⟨_, hbest, hlt⟩ := bestOf_cons cpos e entries
    obtain ⟨first, rest, hswap, hperm⟩ := swapFirst_perm e entries hlt
    have hlength : rest.length = n := by
      have hsame := hperm.length_eq
      rw [length_cons] at hsame
      omega
    obtain ⟨perm, hblock, hrest⟩ := ih rest (doAlign cpos (cpos + first.length)) hlength
    refine ⟨first :: perm, ?_, (hrest.cons first).trans hperm⟩
    rw [blockAlign, hbest, bind_some, hswap]
    dsimp only
    rw [hblock, map_some]

variable {O : Type} (platform : Platform O)

/-- What the reader needs: the string of a URI that is not a keyword URI, and meta data whose size
fits into four bytes. -/
structure Readable (uri : O) (md : List UInt8) : Prop where
  zero : (0 : UInt8) ∉ platform.uriToString uri
  parse : uriParse platform.scan platform.parsers (platform.uriToString uri) = .ok (.other uri)
  size : md.length < 2 ^ 32

variable {platform}

theorem Readable.uris_ne_nil {uri : O} {md : List UInt8} (h : Readable platform uri md) :
    platform.uriToString uri ≠ [] := by
  intro hnil
  have hparse := h.parse
  rw [hnil] at hparse
  cases hparse

variable {cdata : List UInt8}

theorem readAt_entry {uri : O} {md rest : List UInt8} {start : ℕ} (h : Readable platform uri md)
    (hcdata : cdata.drop start = entryBytes (platform.uriToString uri) md ++ rest) :
    readAt platform cdata start = match metaDataDeserialize platform.zlib md with
      | none => some (.done .stopped)
      | some none => some (.done .no)
      | some (some copy) =>
        some (.continued (start + (entryBytes (platform.uriToString uri) md).length)
          (some (reportOf platform uri copy))) := by
  set uris := platform.uriToString uri
  have htext : (cdata.drop start).takeWhile (· ≠ 0) = uris := by
    rw [hcdata, entryBytes, append_assoc]
    exact Sentinel.takeWhile_ne_append h.zero _
  have hlength : cdata.length = start + (uris.length + 1 + 4 + md.length + rest.length) := by
    have hdrop := congrArg length hcdata
    rw [length_drop, length_append, entryBytes, length_append, length_cons,
      length_append, length_htonl] at hdrop
    omega
  have hsize : (cdata.drop (start + uris.length + 1)).take 4 = htonl (ofNat md.length) := by
    have hdrop : cdata.drop (start + uris.length + 1) =
        htonl (ofNat md.length) ++ (md ++ rest) := by
      rw [add_assoc, ← drop_drop, hcdata, entryBytes, append_assoc,
        drop_append, drop_eq_nil_of_le (le_succ _), nil_append,
        Nat.add_sub_cancel_left, cons_append, drop_succ_cons, drop_zero, append_assoc]
    rw [hdrop]
    exact take_left' (length_htonl _)
  have hmd : (cdata.drop (start + uris.length + 1 + 4)).take md.length = md := by
    have hdrop : cdata.drop (start + uris.length + 1 + 4) = md ++ rest := by
      have hsplit : entryBytes uris md ++ rest =
          (uris ++ 0 :: htonl (ofNat md.length)) ++ (md ++ rest) := by
        simp [entryBytes]
      rw [add_assoc, add_assoc, ← drop_drop, hcdata, hsplit]
      exact drop_left' (by rw [length_append, length_cons, length_htonl])
    rw [hdrop, take_left]
  have hcount : (ofNat md.length).toNat = md.length := toNat_ofNat_of_lt' h.size
  have htotal : (entryBytes uris md).length = uris.length + 1 + 4 + md.length := by
    rw [entryBytes, length_append, length_cons, length_append, length_htonl]
    omega
  unfold readAt
  rw [htext, if_neg (by omega), h.parse]
  dsimp only
  rw [if_pos (by omega), hsize, ntohl_htonl, hcount, if_neg (by omega), hmd]
  cases metaDataDeserialize platform.zlib md with
  | none => rfl
  | some result =>
    cases result with
    | none => rfl
    | some copy =>
      dsimp only
      congr 2
      omega

theorem readAt_zero {pos : ℕ} (hpos : pos < cdata.length) (hzero : cdata.getD pos 0 = 0) :
    readAt platform cdata pos = some (.continued pos none) := by
  have htext : (cdata.drop pos).takeWhile (· ≠ 0) = [] := by
    rw [getD_eq_getElem _ _ hpos] at hzero
    simp [hzero]
  unfold readAt
  rw [htext, if_neg (by rw [length_nil]; omega)]
  rfl

/-- From any place in the gap before an entry the reader comes to the entry. -/
theorem listLoop_gap {start : ℕ} (hstart : start < cdata.length) (hbyte : cdata.getD start 0 ≠ 0)
    {pos rounds : ℕ} {reports : List (Report O)}
    (hpos : pos = start ∨ dblockSize ∣ start ∧ pos < start)
    (hzero : ∀ i, pos ≤ i → i < start → cdata.getD i 0 = 0)
    (hrounds : cdata.length - pos ≤ rounds) :
    ∃ left, cdata.length - start ≤ left + 1 ∧
      listLoop platform cdata rounds pos reports = (readAt platform cdata start).bind fun round ↦
          match round with
          | .done status => some (status, reports)
          | .continued pos report =>
            listLoop platform cdata left pos (reports ++ report.toList) := by
  induction hn : start - pos using Nat.strong_induction_on generalizing pos rounds with
  | _ n ih =>
  cases rounds with
  | zero => omega
  | succ rounds =>
    rw [listLoop, if_pos (by omega)]
    rcases hpos with rfl | ⟨hdvd, hlt⟩
    · refine ⟨rounds, hrounds, ?_⟩
      have hround : listRound platform cdata pos = readAt platform cdata pos := if_neg hbyte
      exact congrArg (bind · _) hround
    · let align := nextBoundary dblockSize pos
      have hbehind : pos < align := lt_nextBoundary (by decide) pos
      have hbefore : align ≤ start := nextBoundary_le hlt hdvd
      have hround : listRound platform cdata pos = readAt platform cdata align := by
        rw [listRound, if_pos (hzero pos le_rfl hlt)]
        change (if (if align = pos then align + dblockSize else align) ≥ cdata.length
          then some (.done .ok)
          else readAt platform cdata (if align = pos then align + dblockSize else align)) = _
        rw [if_neg (ne_of_gt hbehind), if_neg (by omega)]
      rw [hround]
      by_cases hreached : align = start
      · rw [hreached]
        exact ⟨rounds, by omega, rfl⟩
      · have hskip := hzero align hbehind.le (by omega)
        rw [readAt_zero (by omega) hskip, bind_some]
        dsimp only [toList]
        rw [append_nil]
        exact ih (start - align) (by omega) (.inr ⟨hdvd, by omega⟩)
          (fun i hi ↦ hzero i (by omega)) (by omega) rfl

def readAll (platform : Platform O) :
    List (O × List UInt8) → List (Report O) → Option (ListStatus × List (Report O))
  | [], reports => some (.ok, reports)
  | (uri, md) :: entries, reports =>
    match metaDataDeserialize platform.zlib md with
    | none => some (.stopped, reports)
    | some none => some (.no, reports)
    | some (some copy) => readAll platform entries (reports ++ [reportOf platform uri copy])

def bytesOf (platform : Platform O) (entry : O × List UInt8) : List UInt8 :=
  entryBytes (platform.uriToString entry.1) entry.2

theorem listLoop_layOut (entries : List (O × List UInt8)) {off rounds : ℕ}
    {reports : List (Report O)} (hreadable : ∀ entry ∈ entries, Readable platform entry.1 entry.2)
    (hcdata : cdata.drop off = layOut alignedPlacement 0 off (entries.map (bytesOf platform)))
    (hoff : off ≤ cdata.length) (hrounds : cdata.length - off ≤ rounds) :
    listLoop platform cdata rounds off reports = readAll platform entries reports := by
  induction entries generalizing off rounds reports with
  | nil =>
    have hend : ¬off < cdata.length := by
      have hlength := congrArg length hcdata
      rw [length_drop] at hlength
      change _ = 0 at hlength
      omega
    cases rounds with
    | zero => rw [listLoop, if_neg hend, readAll]
    | succ rounds => rw [listLoop, if_neg hend, readAll]
  | cons entry entries ih =>
    obtain ⟨uri, md⟩ := entry
    rw [forall_mem_cons] at hreadable
    obtain ⟨hentry, hentries⟩ := hreadable
    let part := bytesOf platform (uri, md)
    let start := alignedPlacement.place off part.length
    have hle : off ≤ start := alignedPlacement.le_place off part.length
    have hfirst : ∃ c rest, platform.uriToString uri = c :: rest ∧ c ≠ 0 := by
      obtain ⟨c, rest, hcons⟩ := exists_cons_of_ne_nil hentry.uris_ne_nil
      refine ⟨c, rest, hcons, fun hzero ↦ hentry.zero ?_⟩
      rw [hcons, hzero]
      exact mem_cons_self
    rw [map_cons, layOut] at hcdata
    have hgap : ∀ i, off ≤ i → i < start → cdata.getD i 0 = 0 := by
      intro i hi hlt
      have hget := congrArg (fun bytes ↦ bytes[i - off]?) hcdata
      rw [getElem?_drop, Nat.add_sub_cancel' hi, getElem?_append_left
        (by rw [length_replicate]; change _ < start - off; omega), getElem?_replicate] at hget
      rw [getD_eq_getElem?_getD, hget]
      split_ifs <;> rfl
    have hpart : cdata.drop start = part ++ layOut alignedPlacement 0 (start + part.length)
        (entries.map (bytesOf platform)) := by
      have hdrop := congrArg (drop (start - off)) hcdata
      rw [drop_drop, Nat.add_sub_cancel' hle] at hdrop
      rw [hdrop]
      exact drop_left' (length_replicate)
    have hlength := congrArg length hpart
    rw [length_drop, length_append] at hlength
    obtain ⟨c, rest, hcons, hc⟩ := hfirst
    have hpartCons : part = c :: (rest ++ 0 :: (htonl (ofNat md.length) ++ md)) := by
      change entryBytes (platform.uriToString uri) md = _
      rw [hcons, entryBytes, cons_append]
    have hpos : 0 < part.length := by
      rw [hpartCons]
      exact succ_pos _
    have hbyte : cdata.getD start 0 ≠ 0 := by
      have hget := congrArg (fun bytes ↦ bytes[0]?) hpart
      rw [getElem?_drop, add_zero, hpartCons] at hget
      rw [getD_eq_getElem?_getD, hget]
      exact hc
    obtain ⟨left, _, hloop⟩ := @listLoop_gap O platform cdata start (by omega) hbyte off
      rounds reports ((place_cases off part.length).imp Eq.symm id) hgap hrounds
    rw [hloop, readAt_entry hentry hpart, readAll]
    cases metaDataDeserialize platform.zlib md with
    | none => rfl
    | some result =>
      cases result with
      | none => rfl
      | some copy =>
        refine ih hentries ?_ ?_ ?_
        · have hdrop := congrArg (drop part.length) hpart
          rw [drop_drop, drop_left] at hdrop
          exact hdrop
        · change start + part.length ≤ cdata.length
          omega
        · change cdata.length - (start + part.length) ≤ left
          omega

end Gnunet.Fs.Directory
