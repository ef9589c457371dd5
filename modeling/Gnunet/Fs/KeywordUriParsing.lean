import Gnunet.Fs.KeywordUriString
import Gnunet.Lib.Sentinel

/-!
# Reading a keyword URI back

Neither a plus nor an escaped double quote occurs inside of an encoded keyword, so that
`uri_ksk_parse` finds the keywords between the pluses again. It fails on an empty keyword, and it
reads every byte as the one its escape shows.
-/

namespace Gnunet.Fs.KeywordUri

open Util List Piece

theorem malloc_of_le {size : ℕ} (h : size ≤ maxMallocChecked) : malloc size = .ok () :=
  if_pos h

theorem le_of_malloc {size : ℕ} (h : malloc size = .ok ()) : size ≤ maxMallocChecked := by
  by_contra hlarge
  rw [malloc, if_neg hlarge] at h
  cases h

theorem bind_eq_ok {α β : Type} {x : Except Failure α} {f : α → Except Failure β} {b : β} :
    (x >>= f) = .ok b ↔ ∃ a, x = .ok a ∧ f a = .ok b := by
  cases x with
  | error e => exact ⟨fun h ↦ (nomatch h), fun ⟨_, h, _⟩ ↦ (nomatch h)⟩
  | ok a => exact ⟨fun h ↦ ⟨a, rfl, h⟩, fun ⟨_, ha, h⟩ ↦ by cases ha; exact h⟩

theorem map_eq_ok {α β : Type} {x : Except Failure α} {f : α → β} {b : β} :
    x.map f = .ok b ↔ ∃ a, x = .ok a ∧ f a = b := by
  cases x with
  | error e => exact ⟨fun h ↦ (nomatch h), fun ⟨_, h, _⟩ ↦ (nomatch h)⟩
  | ok a =>
    refine ⟨fun h ↦ ⟨a, rfl, Except.ok.inj h⟩, ?_⟩
    rintro ⟨_, ha, rfl⟩
    cases ha
    rfl

/-- Its marker in front, and neither a terminator nor a double quote in it. -/
structure IsKeyword (keyword : List UInt8) : Prop where
  marker : keyword.head? = some plus ∨
    ∃ text, keyword = space :: text ∧ text.head? ≠ some plus
  zero : (0 : UInt8) ∉ keyword
  quote : quote ∉ keyword

def encodeKeyword (keyword : List UInt8) : List UInt8 := (skipSpace keyword).flatMap encodeByte

def encodeKeywords (keywords : List (List UInt8)) : List UInt8 :=
  [plus].intercalate (keywords.map encodeKeyword)

theorem encodeKeywords_singleton (keyword : List UInt8) :
    encodeKeywords [keyword] = encodeKeyword keyword := by
  simp [encodeKeywords]

variable {keywords : List (List UInt8)} {c : UInt8}

theorem encodeKeywords_cons (keyword : List UInt8) (h : keywords ≠ []) :
    encodeKeywords (keyword :: keywords) =
      encodeKeyword keyword ++ plus :: encodeKeywords keywords := by
  obtain ⟨_, keywords, rfl⟩ := exists_cons_of_ne_nil h
  simp [encodeKeywords]

theorem flatMap_shown_map_pieceOf (text : List UInt8) :
    (text.map pieceOf).flatMap shown = text.flatMap encodeByte := by
  rw [flatMap_map]
  congr 1
  funext c
  exact shown_pieceOf c

theorem flatMap_shown_pieces : ∀ keywords : List (List UInt8),
    (pieces keywords).flatMap shown = encodeKeywords keywords
  | [] => rfl
  | [keyword] => by
    rw [encodeKeywords_singleton]
    exact flatMap_shown_map_pieceOf (skipSpace keyword)
  | keyword :: next :: keywords => by
    have ih := flatMap_shown_pieces (next :: keywords)
    calc (pieces (keyword :: next :: keywords)).flatMap shown
        = ((skipSpace keyword).map pieceOf).flatMap shown ++
            plus :: (pieces (next :: keywords)).flatMap shown := by
          simp [pieces, shown]
      _ = encodeKeyword keyword ++ plus :: encodeKeywords (next :: keywords) := by
          rw [flatMap_shown_map_pieceOf, ih]
          rfl
      _ = encodeKeywords (keyword :: next :: keywords) :=
          (encodeKeywords_cons keyword (cons_ne_nil _ _)).symm

theorem length_flatMap_shown (ps : List Piece) : (ps.flatMap shown).length = width ps := by
  induction ps with
  | nil => rfl
  | cons p ps ih => rw [flatMap_cons, length_append, ih, p.length_shown, width_cons]

theorem length_encodeKeywords (keywords : List (List UInt8)) :
    (encodeKeywords keywords).length = width (pieces keywords) := by
  rw [← flatMap_shown_pieces, length_flatMap_shown]

theorem length_encodeByte (c : UInt8) :
    (encodeByte c).length = if needsPercent c then 3 else 1 := by
  unfold encodeByte
  split_ifs <;> rfl

theorem length_encodeKeyword (keyword : List UInt8) :
    (encodeKeyword keyword).length = keywordSize keyword := by
  unfold encodeKeyword keywordSize
  induction skipSpace keyword with
  | nil => rfl
  | cons c text ih =>
    rw [flatMap_cons, length_append, length_encodeByte, countP_cons, length_cons]
    split_ifs <;> omega

theorem stringSize_eq (h : keywords ≠ []) :
    stringSize keywords = kskPrefix.length + width (pieces keywords) + 2 := by
  have hlength : (encodeKeywords keywords).length + 1 =
      keywords.length + (keywords.map keywordSize).sum := by
    induction keywords with
    | nil => exact absurd rfl h
    | cons keyword keywords ih =>
      by_cases hnil : keywords = []
      · subst hnil
        rw [encodeKeywords_singleton, length_encodeKeyword]
        simp [Nat.add_comm]
      · rw [encodeKeywords_cons keyword hnil, length_append, length_cons, ih hnil,
          length_encodeKeyword, length_cons, map_cons, sum_cons]
        omega
  rw [length_encodeKeywords] at hlength
  have hprefix : kskPrefix.length = uriPrefix.length + kskInfix.length := length_append
  unfold stringSize
  omega

theorem needsPercent_of_special (h : needsPercent c = false) :
    c ≠ percent ∧ c ≠ plus ∧ visible c = c := by
  have hall : ∀ c : UInt8, needsPercent c = false → c ≠ percent ∧ c ≠ plus ∧ visible c = c :=
    forall_byte (by decide +kernel)
  exact hall c h

theorem hexDigit_special (c : UInt8) :
    (hexDigit (c.toNat / 16) ≠ percent ∧ hexDigit (c.toNat / 16) ≠ plus) ∧
      (hexDigit (c.toNat % 16) ≠ percent ∧ hexDigit (c.toNat % 16) ≠ plus) ∧
      (hexDigit (c.toNat / 16) = 50 → hexDigit (c.toNat % 16) = 50 → c = quote) := by
  revert c
  exact forall_byte (by decide +kernel)

variable (scan : Scan)

theorem percentDecode_encodeByte (h : c ≠ quote) (rest : List UInt8) :
    percentDecode scan (encodeByte c ++ rest) = (percentDecode scan rest).map (visible c :: ·) := by
  unfold encodeByte
  split_ifs with hneeds
  · have hquote : (visible c).toUInt32 ≠ quote.toUInt32 := by
      intro heq
      have hback := congrArg UInt32.toUInt8 heq
      rw [UInt8.toUInt8_toUInt32] at hback
      exact h (visible_eq_quote c hback)
    rw [cons_append, cons_append, singleton_append, percentDecode, if_pos rfl, scan.read_digits]
    dsimp only
    rw [if_neg hquote, UInt8.toUInt8_toUInt32]
  · obtain ⟨hpercent, -, hvisible⟩ := needsPercent_of_special (Bool.not_eq_true _ ▸ hneeds)
    rw [singleton_append, percentDecode, if_neg hpercent, hvisible]

variable {text keyword : List UInt8}

theorem percentDecode_flatMap (h : quote ∉ text) :
    percentDecode scan (text.flatMap encodeByte) = .ok (text.map visible) := by
  induction text with
  | nil => rfl
  | cons c text ih =>
    rw [mem_cons, not_or] at h
    rw [flatMap_cons, percentDecode_encodeByte scan (Ne.symm h.1), ih h.2]
    rfl

theorem zero_not_mem_map_visible (h : (0 : UInt8) ∉ text) : (0 : UInt8) ∉ text.map visible := by
  intro hmem
  obtain ⟨c, hc, hzero⟩ := mem_map.mp hmem
  exact h (visible_eq_zero c hzero ▸ hc)

theorem marked_of_zero_not_mem (h : (0 : UInt8) ∉ text) :
    marked text = if text.head? = some plus then text else space :: text := by
  unfold marked
  rw [takeWhile_eq_self_iff.mpr (Lib.Sentinel.all_ne_of_not_mem h)]

theorem marked_map_visible (h : IsKeyword keyword) :
    marked ((skipSpace keyword).map visible) = keyword.map visible := by
  rcases h.marker with hplus | ⟨text, rfl, hplus⟩
  · obtain ⟨text, rfl⟩ := head?_eq_some_iff.mp hplus
    have hskip : skipSpace (plus :: text) = plus :: text := rfl
    have hhead : ((plus :: text).map visible).head? = some plus := rfl
    rw [hskip, marked_of_zero_not_mem (zero_not_mem_map_visible h.zero), if_pos hhead]
  · have hzero : (0 : UInt8) ∉ text := fun hmem ↦ h.zero (mem_cons_of_mem _ hmem)
    have hskip : skipSpace (space :: text) = text := rfl
    rw [hskip, marked_of_zero_not_mem (zero_not_mem_map_visible hzero), if_neg]
    · rfl
    · cases text with
      | nil => simp
      | cons c text =>
        intro hhead
        exact hplus (congrArg some (visible_eq_plus c (Option.some.inj hhead)))

theorem quote_not_mem_skipSpace (h : quote ∉ keyword) : quote ∉ skipSpace keyword := by
  cases keyword with
  | nil => exact h
  | cons c text =>
    rw [skipSpace]
    split_ifs
    · exact fun hmem ↦ h (mem_cons_of_mem _ hmem)
    · exact h

theorem percentDecodeKeyword_encode (h : IsKeyword keyword) :
    percentDecodeKeyword scan (encodeKeyword keyword) = (do
      malloc ((encodeKeyword keyword).length + 1)
      malloc (keyword.length + 1)
      return keyword.map visible) := by
  unfold percentDecodeKeyword
  have hdecode : percentDecode scan (encodeKeyword keyword) =
      .ok ((skipSpace keyword).map visible) :=
    percentDecode_flatMap scan (quote_not_mem_skipSpace h.quote)
  rw [hdecode]
  change (do
    malloc ((encodeKeyword keyword).length + 1)
    malloc ((marked ((skipSpace keyword).map visible)).length + 1)
    return marked ((skipSpace keyword).map visible)) = _
  rw [marked_map_visible h, length_map]

theorem splitKeywords_cons_plain (hpercent : c ≠ percent) (hplus : c ≠ plus) (rest : List UInt8) :
    splitKeywords scan (c :: rest) =
      (splitKeywords scan rest).map fun found ↦ (found.1, c :: found.2) := by
  rw [splitKeywords]
  cases splitKeywords scan rest with
  | error e => rfl
  | ok found =>
    change (if c = percent ∧ found.2.take 2 = [50, 50] then _ else _) = _
    rw [if_neg (fun hboth ↦ hpercent hboth.1), if_neg hplus]
    rfl

theorem splitKeywords_encodeByte (h : c ≠ quote) (rest : List UInt8) :
    splitKeywords scan (encodeByte c ++ rest) =
      (splitKeywords scan rest).map fun found ↦ (found.1, encodeByte c ++ found.2) := by
  unfold encodeByte
  split_ifs with hneeds
  · obtain ⟨hhigh, hlow, hquote⟩ := hexDigit_special (visible c)
    rw [cons_append, cons_append, singleton_append, splitKeywords,
      splitKeywords_cons_plain scan hhigh.1 hhigh.2, splitKeywords_cons_plain scan hlow.1 hlow.2]
    cases splitKeywords scan rest with
    | error e => rfl
    | ok found =>
      change (if percent = percent ∧ _ = [50, 50] then _ else _) = _
      rw [if_neg]
      · rfl
      · rintro ⟨-, htake⟩
        simp only [take_succ_cons, take_zero, cons.injEq, and_true] at htake
        exact h (visible_eq_quote c (hquote htake.1 htake.2))
  · obtain ⟨hpercent, hplus, -⟩ := needsPercent_of_special (Bool.not_eq_true _ ▸ hneeds)
    exact splitKeywords_cons_plain scan hpercent hplus rest

theorem splitKeywords_flatMap (h : quote ∉ text) (rest : List UInt8) :
    splitKeywords scan (text.flatMap encodeByte ++ rest) =
      (splitKeywords scan rest).map fun found ↦ (found.1, text.flatMap encodeByte ++ found.2) := by
  induction text with
  | nil =>
    rw [flatMap_nil, nil_append]
    cases splitKeywords scan rest <;> rfl
  | cons c text ih =>
    rw [mem_cons, not_or] at h
    rw [flatMap_cons, append_assoc, splitKeywords_encodeByte scan (Ne.symm h.1), ih h.2]
    cases splitKeywords scan rest with
    | error e => rfl
    | ok found => simp [Except.map]

def readKeywords (body : List UInt8) : Except Failure (List (List UInt8)) := do
  let (keywords, text) ← splitKeywords scan body
  let keyword ← percentDecodeKeyword scan text
  return keyword :: keywords

theorem splitKeywords_plus (rest : List UInt8) :
    splitKeywords scan (plus :: rest) = (readKeywords scan rest).map (·, []) := by
  rw [splitKeywords, readKeywords]
  cases splitKeywords scan rest with
  | error e => rfl
  | ok found =>
    obtain ⟨_, text⟩ := found
    simp only [bind, Except.bind]
    cases percentDecodeKeyword scan text <;> rfl

theorem readKeywords_singleton (h : quote ∉ keyword) :
    readKeywords scan (encodeKeywords [keyword]) =
      (percentDecodeKeyword scan (encodeKeyword keyword)).map fun decoded ↦ [decoded] := by
  have hsplit := splitKeywords_flatMap scan (quote_not_mem_skipSpace h) []
  rw [append_nil] at hsplit
  rw [encodeKeywords_singleton, readKeywords, encodeKeyword, hsplit]
  change (percentDecodeKeyword scan (_ ++ []) >>= fun _ ↦ _) = _
  rw [append_nil]
  cases percentDecodeKeyword scan ((skipSpace keyword).flatMap encodeByte) <;> rfl

theorem readKeywords_cons (h : quote ∉ keyword) (hne : keywords ≠ []) :
    readKeywords scan (encodeKeywords (keyword :: keywords)) = (do
        let decoded ← readKeywords scan (encodeKeywords keywords)
        let first ← percentDecodeKeyword scan (encodeKeyword keyword)
        return first :: decoded) := by
  have hsplit := splitKeywords_flatMap scan (quote_not_mem_skipSpace h)
    (plus :: encodeKeywords keywords)
  rw [splitKeywords_plus] at hsplit
  rw [encodeKeywords_cons keyword hne, readKeywords, encodeKeyword, hsplit]
  cases readKeywords scan (encodeKeywords keywords) with
  | error e => rfl
  | ok decoded =>
    change (percentDecodeKeyword scan (_ ++ []) >>= fun _ ↦ _) =
      (percentDecodeKeyword scan _ >>= fun _ ↦ _)
    rw [append_nil]

theorem length_le_encodeKeyword (keyword : List UInt8) :
    keyword.length ≤ (encodeKeyword keyword).length + 1 := by
  rw [length_encodeKeyword, keywordSize]
  cases keyword with
  | nil => simp
  | cons c text =>
    rw [skipSpace]
    split_ifs
    · rw [length_cons]
      omega
    · omega

theorem readKeywords_encode (hne : keywords ≠ [])
    (hkeywords : ∀ keyword ∈ keywords, IsKeyword keyword)
    (hsize : (encodeKeywords keywords).length + 2 ≤ maxMallocChecked) :
    readKeywords scan (encodeKeywords keywords) = .ok (keywords.map (map visible)) := by
  have hone : ∀ {keyword : List UInt8}, IsKeyword keyword →
      (encodeKeyword keyword).length + 2 ≤ maxMallocChecked →
      percentDecodeKeyword scan (encodeKeyword keyword) = .ok (keyword.map visible) := by
    intro keyword hkeyword hfits
    have hlength := length_le_encodeKeyword keyword
    rw [percentDecodeKeyword_encode scan hkeyword, malloc_of_le (by omega), malloc_of_le (by omega)]
    rfl
  induction keywords with
  | nil => exact absurd rfl hne
  | cons keyword keywords ih =>
    have hkeyword := hkeywords keyword mem_cons_self
    by_cases hnil : keywords = []
    · subst hnil
      rw [encodeKeywords_singleton] at hsize
      rw [readKeywords_singleton scan hkeyword.quote, hone hkeyword hsize]
      rfl
    · rw [encodeKeywords_cons keyword hnil, length_append, length_cons] at hsize
      rw [readKeywords_cons scan hkeyword.quote hnil, hone hkeyword (by omega),
        ih hnil (fun k hk ↦ hkeywords k (mem_cons_of_mem _ hk)) (by omega)]
      rfl

theorem countKeywords_cons_plain (hpercent : c ≠ percent) (hplus : c ≠ plus) (rest : List UInt8)
    (before : UInt8) (max : ℕ) :
    countKeywords (c :: rest) before false max = countKeywords rest c false max := by
  rw [countKeywords, if_neg (fun hboth ↦ hplus hboth.1)]
  · rintro h -
    exact hpercent h
  · rintro _ _ h -
    exact hpercent h

theorem countKeywords_encodeByte (h : c ≠ quote) (rest : List UInt8) (before : UInt8) (max : ℕ) :
    ∃ last, last ≠ plus ∧ countKeywords (encodeByte c ++ rest) before false max =
      countKeywords rest last false max := by
  unfold encodeByte
  split_ifs with hneeds
  · obtain ⟨hhigh, hlow, hquote⟩ := hexDigit_special (visible c)
    refine ⟨_, hlow.2, ?_⟩
    rw [cons_append, cons_append, singleton_append, countKeywords,
      if_neg (fun hboth ↦ absurd hboth.1 (by decide)),
      countKeywords_cons_plain hhigh.1 hhigh.2, countKeywords_cons_plain hlow.1 hlow.2]
    · intro _ hdigits
      simp only [cons.injEq] at hdigits
      exact h (visible_eq_quote c (hquote hdigits.1 hdigits.2.1))
    · intro _ _ _ hdigits
      simp only [cons.injEq] at hdigits
      exact h (visible_eq_quote c (hquote hdigits.1 hdigits.2.1))
  · obtain ⟨hpercent, hplus, -⟩ := needsPercent_of_special (Bool.not_eq_true _ ▸ hneeds)
    exact ⟨c, hplus, countKeywords_cons_plain hpercent hplus rest before max⟩

theorem countKeywords_flatMap (h : quote ∉ text) (rest : List UInt8) (before : UInt8) (max : ℕ) :
    ∃ last, (text = [] → last = before) ∧ (text ≠ [] → last ≠ plus) ∧
      countKeywords (text.flatMap encodeByte ++ rest) before false max =
        countKeywords rest last false max := by
  induction text generalizing before with
  | nil => exact ⟨before, fun _ ↦ rfl, fun hnil ↦ absurd rfl hnil, rfl⟩
  | cons c text ih =>
    rw [mem_cons, not_or] at h
    obtain ⟨next, hnext, hcount⟩ :=
      countKeywords_encodeByte (Ne.symm h.1) (text.flatMap encodeByte ++ rest) before max
    obtain ⟨last, hlast, hplus, htext⟩ := ih h.2 next
    refine ⟨last, nofun, fun _ ↦ ?_, ?_⟩
    · by_cases hnil : text = []
      · exact hlast hnil ▸ hnext
      · exact hplus hnil
    · rw [flatMap_cons, append_assoc, hcount, htext]

theorem countKeywords_plus (rest : List UInt8) (before : UInt8) (max : ℕ) :
    countKeywords (plus :: rest) before false max =
      if before = plus then .error (.null (some "`++' not allowed in KSK URI"))
      else countKeywords rest plus false (max + 1) := by
  rw [countKeywords, if_pos ⟨rfl, rfl⟩]
  · rintro h -
    exact absurd h (by decide)
  · rintro _ _ h -
    exact absurd h (by decide)

theorem plus_not_mem_encodeByte (c : UInt8) : plus ∉ encodeByte c := by
  unfold encodeByte
  split_ifs with hneeds
  · obtain ⟨hhigh, hlow, -⟩ := hexDigit_special (visible c)
    simp only [mem_cons, not_mem_nil, or_false, not_or]
    exact ⟨by decide, Ne.symm hhigh.2, Ne.symm hlow.2⟩
  · obtain ⟨-, hplus, -⟩ := needsPercent_of_special (Bool.not_eq_true _ ▸ hneeds)
    exact fun hmem ↦ hplus (mem_singleton.mp hmem).symm

theorem plus_not_mem_encodeKeyword (keyword : List UInt8) : plus ∉ encodeKeyword keyword := by
  intro hmem
  obtain ⟨c, -, hc⟩ := mem_flatMap.mp hmem
  exact plus_not_mem_encodeByte c hc

theorem encodeKeyword_eq_nil_iff (keyword : List UInt8) :
    encodeKeyword keyword = [] ↔ skipSpace keyword = [] := by
  rw [encodeKeyword, flatMap_eq_nil_iff]
  refine ⟨fun h ↦ eq_nil_iff_forall_not_mem.mpr fun c hc ↦ ?_, fun h c hc ↦ ?_⟩
  · have hlength := length_encodeByte c
    rw [h c hc] at hlength
    split_ifs at hlength
  · rw [h] at hc
    exact absurd hc not_mem_nil

theorem countKeywords_encode (keyword : List UInt8) (keywords : List (List UInt8))
    (hquote : ∀ k ∈ keyword :: keywords, quote ∉ k)
    (hfilled : ∀ k ∈ keyword :: keywords, skipSpace k ≠ []) (before : UInt8) (max : ℕ) :
    countKeywords (encodeKeywords (keyword :: keywords)) before false max =
      .ok (max + keywords.length) := by
  induction keywords generalizing keyword before max with
  | nil =>
    obtain ⟨last, -, -, hcount⟩ := countKeywords_flatMap
      (quote_not_mem_skipSpace (hquote keyword mem_cons_self)) [] before max
    rw [append_nil] at hcount
    rw [encodeKeywords_singleton, encodeKeyword, hcount]
    rfl
  | cons next keywords ih =>
    obtain ⟨last, -, hplus, hcount⟩ := countKeywords_flatMap
      (quote_not_mem_skipSpace (hquote keyword mem_cons_self))
      (plus :: encodeKeywords (next :: keywords)) before max
    have hlast : last ≠ plus := hplus (hfilled keyword mem_cons_self)
    rw [encodeKeywords_cons keyword (cons_ne_nil _ _), encodeKeyword, hcount,
      countKeywords_plus, if_neg hlast, ih next (fun k hk ↦ hquote k (mem_cons_of_mem _ hk))
        (fun k hk ↦ hfilled k (mem_cons_of_mem _ hk)), length_cons]
    congr 1
    omega

variable {keywords : List (List UInt8)}

/-- A string that passes the checks has no empty keyword: no plus at an end or behind another. -/
theorem filled_of_countKeywords {before : UInt8} {max n : ℕ}
    (hne : keywords ≠ []) (hquote : ∀ k ∈ keywords, quote ∉ k)
    (hcount : countKeywords (encodeKeywords keywords) before false max = .ok n)
    (hstart : before = plus ∨
      encodeKeywords keywords ≠ [] ∧ (encodeKeywords keywords).head? ≠ some plus)
    (hlast : (before :: encodeKeywords keywords).getLast? ≠ some plus) :
    ∀ k ∈ keywords, skipSpace k ≠ [] := by
  induction keywords generalizing before max with
  | nil => exact absurd rfl hne
  | cons keyword keywords ih =>
    by_cases hnil : keywords = []
    · subst hnil
      rw [encodeKeywords_singleton] at hstart hlast
      intro k hk hempty
      rw [mem_singleton.mp hk] at hempty
      rw [(encodeKeyword_eq_nil_iff keyword).mpr hempty] at hstart hlast
      rcases hstart with rfl | ⟨hbody, -⟩
      · exact hlast rfl
      · exact hbody rfl
    · rw [encodeKeywords_cons keyword hnil] at hcount hstart hlast
      obtain ⟨last, hbefore, hplus, hflat⟩ := countKeywords_flatMap
        (quote_not_mem_skipSpace (hquote keyword mem_cons_self))
        (plus :: encodeKeywords keywords) before max
      rw [encodeKeyword, hflat, countKeywords_plus] at hcount
      split_ifs at hcount with hfirst
      have hfilled : skipSpace keyword ≠ [] := by
        intro hempty
        rw [(encodeKeyword_eq_nil_iff keyword).mpr hempty] at hstart
        rcases hstart with hplus | ⟨-, hhead⟩
        · exact hfirst ((hbefore hempty).trans hplus)
        · exact hhead rfl
      have hrest : (plus :: encodeKeywords keywords).getLast? ≠ some plus := by
        rw [← cons_append, getLast?_append_of_ne_nil _ (cons_ne_nil _ _)] at hlast
        exact hlast
      have hothers := ih hnil (fun k hk ↦ hquote k (mem_cons_of_mem _ hk)) hcount
        (.inl rfl) hrest
      intro k hk
      rcases mem_cons.mp hk with rfl | hk
      · exact hfilled
      · exact hothers k hk

theorem uriKskParse_append {body : List UInt8} (h : body ≠ []) :
    uriKskParse scan (kskPrefix ++ body) =
      if body.getLast? = some plus ∨ body.head? = some plus then
        .error (.null (some "Malformed KSK URI (must not begin or end with `+')"))
      else (do
        let max ← countKeywords body 47 false 1
        malloc ((kskPrefix ++ body).length + 1)
        malloc (max * 8)
        readKeywords scan body) := by
  have hlength : ¬((kskPrefix ++ body).length ≤ kskPrefix.length ∨
      (kskPrefix ++ body).take kskPrefix.length ≠ kskPrefix) := by
    have hpos := length_pos_iff.mpr h
    rw [length_append, take_left]
    simp only [ne_eq, not_true_eq_false, or_false]
    omega
  rw [uriKskParse, if_neg hlength]
  rfl

theorem length_add_two_le {body : List UInt8}
    (h : (kskPrefix ++ body).length + 1 ≤ maxMallocChecked) :
    body.length + 2 ≤ maxMallocChecked := by
  have hprefix : 1 ≤ kskPrefix.length := by decide
  rw [length_append] at h
  omega

theorem eq_of_uriKskParse {read : List (List UInt8)} (hne : keywords ≠ [])
    (hkeywords : ∀ keyword ∈ keywords, IsKeyword keyword)
    (h : uriKskParse scan (kskPrefix ++ encodeKeywords keywords) = .ok read) :
    (∀ keyword ∈ keywords, skipSpace keyword ≠ []) ∧ read = keywords.map (map visible) := by
  have hbody : encodeKeywords keywords ≠ [] := by
    intro hnil
    rw [hnil] at h
    cases h
  rw [uriKskParse_append scan hbody] at h
  split_ifs at h with hends
  obtain ⟨n, hcount, h⟩ := bind_eq_ok.mp h
  obtain ⟨_, hsize, h⟩ := bind_eq_ok.mp h
  obtain ⟨_, -, h⟩ := bind_eq_ok.mp h
  rw [readKeywords_encode scan hne hkeywords (length_add_two_le (le_of_malloc hsize))] at h
  refine ⟨?_, (Except.ok.inj h).symm⟩
  have hlast : (47 :: encodeKeywords keywords).getLast? ≠ some plus := by
    obtain ⟨c, _, hcons⟩ := exists_cons_of_ne_nil hbody
    rw [hcons, getLast?_cons_cons, ← hcons]
    exact fun heq ↦ hends (.inl heq)
  exact filled_of_countKeywords hne (fun k hk ↦ (hkeywords k hk).quote) hcount
    (.inr ⟨hbody, fun heq ↦ hends (.inr heq)⟩) hlast

theorem encodeKeywords_ends (hne : keywords ≠ []) (hfilled : ∀ k ∈ keywords, skipSpace k ≠ []) :
    encodeKeywords keywords ≠ [] ∧ (encodeKeywords keywords).head? ≠ some plus ∧
      (encodeKeywords keywords).getLast? ≠ some plus := by
  have hone : ∀ k ∈ keywords, encodeKeyword k ≠ [] := fun k hk hnil ↦
    hfilled k hk ((encodeKeyword_eq_nil_iff k).mp hnil)
  have hhead : ∀ k, (encodeKeyword k).head? ≠ some plus := fun k hhead ↦
    plus_not_mem_encodeKeyword k (mem_of_head? hhead)
  have hlast : ∀ k, (encodeKeyword k).getLast? ≠ some plus := fun k hlast ↦
    plus_not_mem_encodeKeyword k (mem_of_getLast? hlast)
  induction keywords with
  | nil => exact absurd rfl hne
  | cons keyword keywords ih =>
    have hfirst := hone keyword mem_cons_self
    by_cases hnil : keywords = []
    · subst hnil
      rw [encodeKeywords_singleton]
      exact ⟨hfirst, hhead keyword, hlast keyword⟩
    · obtain ⟨hbody, -, hend⟩ := ih hnil (fun k hk ↦ hfilled k (mem_cons_of_mem _ hk))
        (fun k hk ↦ hone k (mem_cons_of_mem _ hk))
      rw [encodeKeywords_cons keyword hnil]
      refine ⟨by simp, ?_, ?_⟩
      · rw [head?_append_of_ne_nil _ hfirst]
        exact hhead keyword
      · obtain ⟨c, _, hcons⟩ := exists_cons_of_ne_nil hbody
        rw [getLast?_append_of_ne_nil _ (cons_ne_nil _ _), hcons, getLast?_cons_cons, ← hcons]
        exact hend

theorem uriKskParse_encode (hne : keywords ≠ [])
    (hkeywords : ∀ keyword ∈ keywords, IsKeyword keyword)
    (hfilled : ∀ keyword ∈ keywords, skipSpace keyword ≠ [])
    (hcount : keywords.length * 8 ≤ maxMallocChecked)
    (hsize : (kskPrefix ++ encodeKeywords keywords).length + 1 ≤ maxMallocChecked) :
    uriKskParse scan (kskPrefix ++ encodeKeywords keywords) = .ok (keywords.map (map visible)) := by
  obtain ⟨hbody, hhead, hlast⟩ := encodeKeywords_ends hne hfilled
  rw [uriKskParse_append scan hbody, if_neg (not_or.mpr ⟨hlast, hhead⟩),
    readKeywords_encode scan hne hkeywords (length_add_two_le hsize), malloc_of_le hsize]
  obtain ⟨keyword, keywords, rfl⟩ := exists_cons_of_ne_nil hne
  rw [countKeywords_encode keyword keywords (fun k hk ↦ (hkeywords k hk).quote) hfilled,
    Nat.add_comm 1]
  change (malloc ((keywords.length + 1) * 8) >>= fun _ ↦ _) = _
  rw [length_cons] at hcount
  rw [malloc_of_le hcount]
  rfl

end Gnunet.Fs.KeywordUri
