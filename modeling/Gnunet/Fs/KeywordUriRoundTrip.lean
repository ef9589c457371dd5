import Gnunet.Fs.KeywordUriParsing

/-!
# Keyword URIs and their strings, both ways

A keyword URI that `GNUNET_FS_uri_ksk_create_from_args` builds is written to a string and read
back. The keywords that come back are the ones written if every byte from 128 on is 255 and is
followed by enough characters, no keyword is empty, and the string may be allocated at all.
-/

namespace Gnunet.Fs.KeywordUri

open Util List Option

structure IsKskUri (keywords : List (List UInt8)) : Prop where
  ne_nil : keywords ≠ []
  keyword : ∀ keyword ∈ keywords, IsKeyword keyword
  allocated : keywords.length * 8 ≤ maxMallocChecked

variable (scan : Scan)

variable {text keyword s : List UInt8} {keywords : List (List UInt8)}

theorem quote_not_mem_percentDecode {decoded : List UInt8}
    (h : percentDecode scan text = .ok decoded) (hquote : quote ∉ text) : quote ∉ decoded := by
  fun_induction percentDecode scan text generalizing decoded with
  | case1 =>
    cases h
    exact not_mem_nil
  | case2 => cases h
  | case3 a b rest hread ih =>
    refine ih h fun hmem ↦ hquote ?_
    exact mem_cons_of_mem _ (mem_cons_of_mem _ (mem_cons_of_mem _ hmem))
  | case4 hx a b rest hne hread ih =>
    obtain ⟨others, hothers, rfl⟩ := map_eq_ok.mp h
    rw [mem_cons, not_or]
    refine ⟨fun heq ↦ hne (scan.read_quote _ hx hread heq.symm), ih hothers fun hmem ↦ hquote ?_⟩
    exact mem_cons_of_mem _ (mem_cons_of_mem _ (mem_cons_of_mem _ hmem))
  | case5 => cases h
  | case6 c rest hne ih =>
    obtain ⟨others, hothers, rfl⟩ := map_eq_ok.mp h
    rw [mem_cons, not_or] at hquote ⊢
    exact ⟨hquote.1, ih hothers hquote.2⟩

theorem isKeyword_marked {decoded : List UInt8} (h : quote ∉ decoded) :
    IsKeyword (marked decoded) := by
  have hzero : (0 : UInt8) ∉ decoded.takeWhile (· ≠ 0) := fun hmem ↦ by
    simpa using mem_takeWhile_imp hmem
  have hquote : quote ∉ decoded.takeWhile (· ≠ 0) := fun hmem ↦
    h (( takeWhile_prefix _).subset hmem)
  unfold marked
  dsimp only
  split_ifs with hplus
  · exact ⟨.inl hplus, hzero, hquote⟩
  · refine ⟨.inr ⟨_, rfl, hplus⟩, ?_, ?_⟩
    · exact not_mem_cons_of_ne_of_not_mem (by decide) hzero
    · exact not_mem_cons_of_ne_of_not_mem (by decide) hquote

theorem isKeyword_percentDecodeKeyword (h : percentDecodeKeyword scan text = .ok keyword)
    (hquote : quote ∉ text) :
    IsKeyword keyword := by
  obtain ⟨_, -, h⟩ := bind_eq_ok.mp h
  obtain ⟨_, hdecoded, h⟩ := bind_eq_ok.mp h
  obtain ⟨_, -, h⟩ := bind_eq_ok.mp h
  rw [← Except.ok.inj h]
  exact isKeyword_marked (quote_not_mem_percentDecode scan hdecoded hquote)

theorem splitKeywords_cons_ok {c : UInt8} {rest : List UInt8}
    (h : splitKeywords scan (c :: rest) = .ok (keywords, text)) :
    ∃ others next, splitKeywords scan rest = .ok (others, next) ∧
      ¬(c = percent ∧ next.take 2 = [50, 50]) ∧
      ((c = plus ∧ text = [] ∧ ∃ keyword, percentDecodeKeyword scan next = .ok keyword ∧
          keywords = keyword :: others) ∨
        (c ≠ plus ∧ keywords = others ∧ text = c :: next)) := by
  obtain ⟨⟨others, next⟩, hrest, h⟩ := bind_eq_ok.mp h
  refine ⟨others, next, hrest, ?_⟩
  dsimp only at h
  split_ifs at h with hquote hplus
  · obtain ⟨keyword, hkeyword, h⟩ := bind_eq_ok.mp h
    cases h
    exact ⟨hquote, .inl ⟨hplus, rfl, keyword, hkeyword, rfl⟩⟩
  · cases h
    exact ⟨hquote, .inr ⟨hplus, rfl, rfl⟩⟩

theorem isKeyword_splitKeywords {body : List UInt8}
    (h : splitKeywords scan body = .ok (keywords, text)) (hquote : quote ∉ body) :
    (∀ keyword ∈ keywords, IsKeyword keyword) ∧ quote ∉ text := by
  induction body generalizing keywords text with
  | nil =>
    cases h
    exact ⟨nofun, not_mem_nil⟩
  | cons c rest ih =>
    rw [mem_cons, not_or] at hquote
    obtain ⟨_, _, hrest, -, hstep⟩ := splitKeywords_cons_ok scan h
    obtain ⟨hothers, hnext⟩ := ih hrest hquote.2
    rcases hstep with ⟨-, rfl, keyword, hkeyword, rfl⟩ | ⟨-, rfl, rfl⟩
    · refine ⟨?_, not_mem_nil⟩
      rw [forall_mem_cons]
      exact ⟨isKeyword_percentDecodeKeyword scan hkeyword hnext, hothers⟩
    · exact ⟨hothers, not_mem_cons_of_ne_of_not_mem hquote.1 hnext⟩

/-- Where the second loop comes to an end, the first one has counted what it finds. -/
theorem count_eq_of_splitKeywords {body : List UInt8}
    (h : splitKeywords scan body = .ok (keywords, text)) {before : UInt8} {max n : ℕ}
    (hcount : countKeywords body before false max = .ok n) : n = max + keywords.length := by
  induction body generalizing keywords text before max with
  | nil =>
    cases h
    exact (Except.ok.inj hcount).symm
  | cons c rest ih =>
    obtain ⟨_, _, hrest, hquote, hstep⟩ := splitKeywords_cons_ok scan h
    by_cases hpercent : c = percent ∧ ∃ after, rest = 50 :: 50 :: after
    · obtain ⟨rfl, after, rfl⟩ := hpercent
      -- the digits of an escaped quote stand in front of the text that was found
      obtain ⟨found, hfound, hrest⟩ := map_eq_ok.mp hrest
      obtain ⟨_, -, rfl⟩ := map_eq_ok.mp hfound
      cases hrest
      exact absurd ⟨rfl, rfl⟩ hquote
    · rw [countKeywords] at hcount
      · rcases hstep with ⟨rfl, -, keyword, -, rfl⟩ | ⟨hplus, rfl, -⟩
        · rw [if_pos ⟨rfl, rfl⟩] at hcount
          split_ifs at hcount
          rw [ih hrest hcount, length_cons]
          omega
        · rw [if_neg (fun hboth ↦ hplus hboth.1)] at hcount
          exact ih hrest hcount
      · intro hc hafter
        exact hpercent ⟨hc, [], hafter⟩
      · intro d after hc hafter
        exact hpercent ⟨hc, d :: after, hafter⟩

theorem isKskUri_uriKskParse (h : uriKskParse scan s = .ok keywords) (hquote : quote ∉ s) :
    IsKskUri keywords := by
  rw [uriKskParse] at h
  dsimp only at h
  split_ifs at h
  obtain ⟨n, hcount, h⟩ := bind_eq_ok.mp h
  obtain ⟨_, -, h⟩ := bind_eq_ok.mp h
  obtain ⟨_, halloc, h⟩ := bind_eq_ok.mp h
  obtain ⟨⟨others, _⟩, hsplit, h⟩ := bind_eq_ok.mp h
  obtain ⟨_, hkeyword, h⟩ := bind_eq_ok.mp h
  obtain ⟨hothers, htext⟩ :=
    isKeyword_splitKeywords scan hsplit fun hmem ↦ hquote (mem_of_mem_drop hmem)
  rw [← Except.ok.inj h]
  refine ⟨cons_ne_nil _ _, ?_, ?_⟩
  · rw [forall_mem_cons]
    exact ⟨isKeyword_percentDecodeKeyword scan hkeyword htext, hothers⟩
  · have hn : n = 1 + others.length := count_eq_of_splitKeywords scan hsplit hcount
    have hle := le_of_malloc halloc
    dsimp only [length_cons]
    omega

variable {O : Type} (parsers : OtherParsers O)

theorem orElse_eq_ok {α : Type} {first second : Except Failure α} {a : α}
    (h : orElse first second = .ok a) : first = .ok a ∨ second = .ok a := by
  unfold orElse at h
  split at h
  · split at h
    · cases h
    · exact .inr h
  · exact .inl h

theorem behindInfix_ne_ksk (name : String) (parse : List UInt8 → Except Failure O)
    (s : List UInt8) (keywords : List (List UInt8)) :
    behindInfix name parse s ≠ .ok (.ksk keywords) := by
  unfold behindInfix
  dsimp only
  split_ifs
  · exact nofun
  · intro h
    obtain ⟨_, -, huri⟩ := map_eq_ok.mp h
    cases huri

theorem uriKskParse_of_uriParse (h : uriParse scan parsers s = .ok (.ksk keywords)) :
    uriKskParse scan s = .ok keywords := by
  unfold uriParse at h
  dsimp only at h
  split at h
  · cases h
  · rcases orElse_eq_ok h with hchk | h
    · exact absurd hchk (behindInfix_ne_ksk _ _ _ _)
    · rcases orElse_eq_ok h with hksk | h
      · obtain ⟨_, hfound, heq⟩ := map_eq_ok.mp hksk
        cases heq
        exact hfound
      · rcases orElse_eq_ok h with hsks | hloc
        · exact absurd hsks (behindInfix_ne_ksk _ _ _ _)
        · exact absurd hloc (behindInfix_ne_ksk _ _ _ _)

theorem uriParse_of_uriKskParse (h : uriKskParse scan s = .ok keywords) :
    uriParse scan parsers s = .ok (.ksk keywords) := by
  have hpart : s.take kskPrefix.length = kskPrefix := by
    by_contra hne
    rw [uriKskParse, if_pos (.inr hne)] at h
    cases h
  have hchk : behindInfix "chk/" parsers.chk s = .error (.null none) := by
    refine if_pos (.inr ?_)
    change s.take kskPrefix.length ≠ _
    rw [hpart]
    decide
  unfold uriParse
  rw [hchk, h]
  rfl

theorem isKeyword_markArgument {argument : List UInt8} (h : markArgument argument = .ok keyword)
    (hzero : (0 : UInt8) ∉ argument) (hquote : quote ∉ argument) : IsKeyword keyword := by
  obtain ⟨_, -, h⟩ := bind_eq_ok.mp h
  rw [← Except.ok.inj h]
  have hfilter : ∀ text : List UInt8, quote ∉ text → text.filter (· ≠ quote) = text := by
    intro text htext
    refine filter_eq_self.mpr fun c hc ↦ decide_eq_true fun heq ↦ ?_
    exact htext (heq ▸ hc)
  by_cases hplus : argument.head? = some plus
  · rw [if_pos hplus, hfilter argument hquote]
    exact ⟨.inl hplus, hzero, hquote⟩
  · have hspace : quote ∉ space :: argument :=
      not_mem_cons_of_ne_of_not_mem (by decide) hquote
    rw [if_neg hplus, hfilter _ hspace]
    exact ⟨.inr ⟨argument, rfl, hplus⟩, not_mem_cons_of_ne_of_not_mem (by decide) hzero, hspace⟩

theorem mapM_eq_ok {α β : Type} {f : α → Except Failure β} {as : List α} {bs : List β}
    (h : as.mapM f = .ok bs) : bs.length = as.length ∧ ∀ b ∈ bs, ∃ a ∈ as, f a = .ok b := by
  induction as generalizing bs with
  | nil =>
    cases h
    exact ⟨rfl, nofun⟩
  | cons a as ih =>
    rw [mapM_cons] at h
    obtain ⟨b, hb, h⟩ := bind_eq_ok.mp h
    obtain ⟨_, hothers, h⟩ := bind_eq_ok.mp h
    obtain ⟨hlength, hmem⟩ := ih hothers
    cases h
    refine ⟨congrArg (· + 1) hlength, ?_⟩
    rw [forall_mem_cons]
    refine ⟨⟨a, mem_cons_self, hb⟩, fun c hc ↦ ?_⟩
    obtain ⟨d, hd, hdc⟩ := hmem c hc
    exact ⟨d, mem_cons_of_mem _ hd, hdc⟩

variable {argv : List (List UInt8)}

theorem isKskUri_kskOfArguments (hne : argv ≠ [])
    (hargv : ∀ argument ∈ argv, (0 : UInt8) ∉ argument ∧ quote ∉ argument)
    (h : kskOfArguments argv = .ok (Uri.ksk keywords : Uri O)) : IsKskUri keywords := by
  obtain ⟨_, halloc, h⟩ := bind_eq_ok.mp h
  obtain ⟨_, hfound, h⟩ := bind_eq_ok.mp h
  cases h
  obtain ⟨hlength, hmem⟩ := mapM_eq_ok hfound
  refine ⟨?_, ?_, hlength ▸ le_of_malloc halloc⟩
  · rw [← length_pos_iff, hlength]
    exact length_pos_iff.mpr hne
  · intro keyword hkeyword
    obtain ⟨argument, hargument, hmark⟩ := hmem keyword hkeyword
    obtain ⟨hzero, hquote⟩ := hargv argument hargument
    exact isKeyword_markArgument hmark hzero hquote

theorem isKskUri_uriKskCreateFromArgs
    (hargv : ∀ argument ∈ argv, (0 : UInt8) ∉ argument ∧ quote ∉ argument)
    (h : uriKskCreateFromArgs scan parsers argv = .ok (.ksk keywords)) : IsKskUri keywords := by
  unfold uriKskCreateFromArgs at h
  split at h
  · cases h
  · rename_i uri
    by_cases hpart : uriPrefix.length < uri.length ∧ uri.take uriPrefix.length = uriPrefix
    · rw [if_pos hpart] at h
      split at h
      · exact isKskUri_kskOfArguments (cons_ne_nil _ _) hargv h
      · exact isKskUri_uriKskParse scan (uriKskParse_of_uriParse scan parsers h)
          (hargv uri mem_cons_self).2
    · rw [if_neg hpart] at h
      exact isKskUri_kskOfArguments (cons_ne_nil _ _) hargv h
  · rename_i hne _
    exact isKskUri_kskOfArguments hne hargv h

def extendLast (text : List UInt8) : List (List UInt8) → List (List UInt8)
  | [] => []
  | [keyword] => [keyword ++ text]
  | keyword :: keywords => keyword :: extendLast text keywords

theorem extendLast_concat (text last : List UInt8) (init : List (List UInt8)) :
    extendLast text (init ++ [last]) = init ++ [last ++ text] := by
  induction init with
  | nil => rfl
  | cons keyword init ih =>
    rw [cons_append, cons_append, ← ih]
    cases init <;> rfl

theorem IsKeyword.ne_nil (h : IsKeyword keyword) : keyword ≠ [] := by
  rintro rfl
  rcases h.marker with hplus | ⟨text, htext, -⟩
  · cases hplus
  · cases htext

section

variable (hdigits : ∀ c ∈ text, IsDigit c)
include hdigits

theorem flatMap_encodeByte_digits : text.flatMap encodeByte = text := by
  induction text with
  | nil => rfl
  | cons c text ih =>
    rw [forall_mem_cons] at hdigits
    rw [flatMap_cons, ih hdigits.2, encodeByte, hdigits.1.plain.1]
    rfl

theorem encodeKeyword_append (hne : keyword ≠ []) :
    encodeKeyword (keyword ++ text) = encodeKeyword keyword ++ text := by
  have hskip : skipSpace (keyword ++ text) = skipSpace keyword ++ text := by
    obtain ⟨c, _, rfl⟩ := exists_cons_of_ne_nil hne
    rw [cons_append, skipSpace, skipSpace]
    split_ifs <;> rfl
  rw [encodeKeyword, hskip, flatMap_append, flatMap_encodeByte_digits hdigits, encodeKeyword]

theorem encodeKeywords_extendLast (h : IsKeyword keyword) :
    encodeKeywords (extendLast text (keywords ++ [keyword])) =
      encodeKeywords (keywords ++ [keyword]) ++ text := by
  rw [extendLast_concat]
  induction keywords with
  | nil =>
    rw [nil_append, nil_append, encodeKeywords_singleton, encodeKeywords_singleton,
      encodeKeyword_append hdigits h.ne_nil]
  | cons first keywords ih =>
    rw [cons_append, cons_append, encodeKeywords_cons _ (concat_ne_nil _ _), ih,
      encodeKeywords_cons _ (concat_ne_nil _ _), append_assoc, cons_append]

theorem IsKeyword.append (h : IsKeyword keyword) : IsKeyword (keyword ++ text) := by
  refine ⟨?_, ?_, ?_⟩
  · rcases h.marker with hplus | ⟨rest, rfl, hplus⟩
    · left
      rw [head?_append_of_ne_nil _ h.ne_nil]
      exact hplus
    · refine .inr ⟨rest ++ text, rfl, ?_⟩
      cases rest with
      | nil =>
        intro hhead
        exact (hdigits plus (mem_of_head? hhead)).plain.2.2.2 rfl
      | cons c rest => exact hplus
  · rw [mem_append, not_or]
    exact ⟨h.zero, fun hmem ↦ (hdigits 0 hmem).plain.2.1 rfl⟩
  · rw [mem_append, not_or]
    exact ⟨h.quote, fun hmem ↦ (hdigits _ hmem).plain.2.2.1 rfl⟩

end

theorem length_buffer (hne : keywords ≠ []) :
    (replicate (stringSize keywords - kskPrefix.length) (0 : UInt8)).length =
      width (pieces keywords) + 2 := by
  rw [length_replicate, stringSize_eq hne]
  omega

/-- The string is that of the keywords, perhaps with digits left from the last escapes. -/
theorem eq_of_uriKskToString (hne : keywords ≠ []) (h : uriKskToString keywords = some s) :
    stringSize keywords ≤ maxMallocChecked ∧
      ∃ text, (∀ c ∈ text, IsDigit c) ∧ s = kskPrefix ++ (encodeKeywords keywords ++ text) ∧
        (text = [] → Clear (pieces keywords)) := by
  rw [uriKskToString] at h
  split_ifs at h with hsize
  refine ⟨hsize, ?_⟩
  split at h
  · cases h
  · rename_i out hrun
    split_ifs at h
    refine ⟨out.rest.takeWhile (· ≠ 0), ?_, ?_, ?_⟩
    · intro c hc
      have hdigits := digits_foldlM hrun
        (fun b hb ↦ .inl (eq_of_mem_replicate hb)) c (( takeWhile_prefix _).subset hc)
      refine hdigits.resolve_left ?_
      simpa using mem_takeWhile_imp hc
    · rw [← some.inj h, written_foldlM hrun, flatMap_shown_pieces, append_assoc]
    · intro hnil
      refine clear_of_foldlM hrun (length_buffer hne) ?_
      cases hrest : out.rest with
      | nil => rfl
      | cons b rest =>
        rw [hrest, takeWhile_cons] at hnil
        split_ifs at hnil with hb
        simpa using hb

theorem uriKskToString_of_clear (hne : keywords ≠ [])
    (hsize : stringSize keywords ≤ maxMallocChecked) (hclear : Clear (pieces keywords)) :
    uriKskToString keywords = some (kskPrefix ++ encodeKeywords keywords) := by
  have hzeros : ∀ n j, (replicate n (0 : UInt8)).getD j 0 = 0 := by
    intro n j
    rw [getD_eq_getElem?_getD, getElem?_replicate]
    split_ifs <;> rfl
  let start : Output :=
    ⟨kskPrefix, replicate (stringSize keywords - kskPrefix.length) 0⟩
  have hstart : start.rest.length = width (pieces keywords) + 2 := length_buffer hne
  obtain ⟨out, hrun, hhead⟩ := foldlM_of_clear hclear hstart
    (fun j _ ↦ hzeros _ j) (.inl (hzeros _ _))
  rw [uriKskToString, if_pos hsize, hrun]
  dsimp only
  have htake : out.rest.takeWhile (· ≠ 0) = [] := by
    cases hrest : out.rest with
    | nil => rfl
    | cons b rest =>
      rw [hrest] at hhead
      have hb : b = 0 := some.inj hhead
      rw [hb]
      rfl
  rw [if_pos (mem_of_head? hhead), htake, append_nil, written_foldlM hrun, flatMap_shown_pieces]

/-- The string may be allocated, no keyword is empty, and every byte from 128 on is 255 and far
enough from the end of the string. -/
structure Survives (keywords : List (List UInt8)) : Prop where
  size : stringSize keywords ≤ maxMallocChecked
  filled : ∀ keyword ∈ keywords, keyword ≠ [space]
  bytes : ∀ keyword ∈ keywords, ∀ c ∈ keyword, c < 128 ∨ c = 255
  clear : Clear (pieces keywords)

theorem IsKeyword.skipSpace_ne_nil_iff (h : IsKeyword keyword) :
    skipSpace keyword ≠ [] ↔ keyword ≠ [space] := by
  cases keyword with
  | nil => exact absurd rfl h.ne_nil
  | cons c text =>
    rw [skipSpace]
    split_ifs with hspace
    · rw [hspace]
      simp
    · simp [hspace]

theorem map_visible_eq_iff (keywords : List (List UInt8)) :
    keywords.map (map visible) = keywords ↔
      ∀ keyword ∈ keywords, ∀ c ∈ keyword, c < 128 ∨ c = 255 := by
  have hself : ∀ {α : Type} (f : α → α) (as : List α), as.map f = as ↔ ∀ a ∈ as, f a = a := by
    intro α f as
    simpa using map_inj_left (l := as) (f := f) (g := id)
  simp only [hself, visible_eq_self_iff]

variable (others : O → Option (List UInt8))

/-- Every keyword URI that is built from arguments without double quotes comes back from its
string just if its keywords survive. -/
theorem string_restores_iff {argv keywords : List (List UInt8)}
    (hargv : ∀ argument ∈ argv, argument ≠ [] ∧ (0 : UInt8) ∉ argument ∧ quote ∉ argument)
    (hcreate : uriKskCreateFromArgs scan parsers argv = .ok (.ksk keywords)) :
    (∃ s, uriToString others (.ksk keywords) = some s ∧
        uriParse scan parsers s = .ok (.ksk keywords)) ↔
      Survives keywords := by
  have huri := isKskUri_uriKskCreateFromArgs scan parsers (fun a ha ↦ (hargv a ha).2) hcreate
  constructor
  · rintro ⟨s, hstring, hparse⟩
    obtain ⟨hsize, text, hdigits, rfl, hclear⟩ := eq_of_uriKskToString huri.ne_nil hstring
    have hread := uriKskParse_of_uriParse scan parsers hparse
    obtain ⟨init, last, rfl⟩ := (eq_nil_or_concat' keywords).resolve_left huri.ne_nil
    have hlast := huri.keyword last mem_concat_self
    rw [← encodeKeywords_extendLast hdigits hlast, extendLast_concat] at hread
    have hextended : ∀ keyword ∈ init ++ [last ++ text], IsKeyword keyword := by
      rw [forall_mem_append, forall_mem_singleton]
      exact ⟨fun k hk ↦ huri.keyword k (mem_append_left _ hk), hlast.append hdigits⟩
    obtain ⟨hfilled, hvisible⟩ := eq_of_uriKskParse scan (concat_ne_nil _ _) hextended hread
    have htext : text = [] := by
      have hlength := congrArg (fun found ↦ found.flatten.length) hvisible
      rw [← map_flatten, length_map, flatten_append, flatten_append, length_append, length_append,
        flatten_singleton, flatten_singleton, length_append] at hlength
      exact length_eq_zero_iff.mp (by omega)
    rw [htext, append_nil] at hfilled hvisible
    exact ⟨hsize, fun k hk ↦ (huri.keyword k hk).skipSpace_ne_nil_iff.mp (hfilled k hk),
      (map_visible_eq_iff _).mp hvisible.symm, hclear htext⟩
  · intro hsurvives
    have hfits : (kskPrefix ++ encodeKeywords keywords).length + 1 ≤ maxMallocChecked := by
      have hsize := hsurvives.size
      rw [stringSize_eq huri.ne_nil] at hsize
      rw [length_append, length_encodeKeywords]
      omega
    have hread := uriKskParse_encode scan huri.ne_nil huri.keyword
      (fun k hk ↦ (huri.keyword k hk).skipSpace_ne_nil_iff.mpr (hsurvives.filled k hk))
      huri.allocated hfits
    rw [(map_visible_eq_iff keywords).mpr hsurvives.bytes] at hread
    exact ⟨_, uriKskToString_of_clear huri.ne_nil hsurvives.size hsurvives.clear,
      uriParse_of_uriKskParse scan parsers hread⟩

def digitValue (c : UInt8) : ℕ := if c < 65 then c.toNat - 48 else c.toNat - 55

def readTwo : List UInt8 → Option UInt32
  | a :: b :: _ => some (UInt8.ofNat (digitValue a * 16 + digitValue b)).toUInt32
  | _ => none

theorem readTwo_digits (c : UInt8) (rest : List UInt8) :
    readTwo (hexDigit (c.toNat / 16) :: hexDigit (c.toNat % 16) :: rest) = some c.toUInt32 := by
  have hvalue : ∀ c : UInt8, UInt8.ofNat (digitValue (hexDigit (c.toNat / 16)) * 16 +
      digitValue (hexDigit (c.toNat % 16))) = c := forall_byte (by decide +kernel)
  exact congrArg (fun c : UInt8 ↦ some c.toUInt32) (hvalue c)

theorem readTwo_quote (text : List UInt8) (hx : UInt32) (hread : readTwo text = some hx)
    (hquote : hx.toUInt8 = quote) : hx = quote.toUInt32 := by
  unfold readTwo at hread
  split at hread
  · rw [← some.inj hread, UInt8.toUInt8_toUInt32] at hquote
    rw [← some.inj hread, hquote]
  · cases hread

/-- A `SSCANF` that takes any two bytes for digits. -/
def scanTwo : Scan := ⟨readTwo, readTwo_digits, readTwo_quote⟩

def noParsers : OtherParsers Empty :=
  ⟨fun _ ↦ .error (.null none), fun _ ↦ .error (.null none), fun _ ↦ .error (.null none)⟩

/-- A mandatory keyword and one with a space in it come back. -/
theorem string_restores_two :
    uriKskCreateFromArgs scanTwo noParsers [bytes "+music", bytes "new wave"] =
        .ok (.ksk [bytes "+music", bytes " new wave"]) ∧
      ∃ s, uriToString Empty.elim (.ksk [bytes "+music", bytes " new wave"]) = some s ∧
        uriParse scanTwo noParsers s = .ok (.ksk [bytes "+music", bytes " new wave"]) := by
  have hargv : ∀ argument ∈ [bytes "+music", bytes "new wave"],
      argument ≠ [] ∧ (0 : UInt8) ∉ argument ∧ quote ∉ argument := by decide
  refine ⟨rfl, (string_restores_iff scanTwo noParsers Empty.elim hargv rfl).mpr ?_⟩
  exact ⟨by decide, by decide, by decide +kernel, by decide⟩

/-- The word `ähnlich` in UTF-8 comes back as another keyword. -/
theorem utf8_keyword_changed :
    uriKskCreateFromArgs scanTwo noParsers [195 :: 164 :: bytes "hnlich"] =
        .ok (.ksk [space :: 195 :: 164 :: bytes "hnlich"]) ∧
      uriToString Empty.elim (.ksk [space :: 195 :: 164 :: bytes "hnlich"]) =
        some (bytes "gnunet://fs/ksk/%FF%FFhnlich") ∧
      uriParse scanTwo noParsers (bytes "gnunet://fs/ksk/%FF%FFhnlich") =
        .ok (.ksk [space :: 255 :: 255 :: bytes "hnlich"]) ∧
      space :: 195 :: 164 :: bytes "hnlich" ≠ space :: 255 :: 255 :: bytes "hnlich" :=
  ⟨rfl, by decide, uriParse_of_uriKskParse scanTwo noParsers (by decide +kernel), by decide⟩

end Gnunet.Fs.KeywordUri
