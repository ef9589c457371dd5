import Gnunet.Util.AccessControl

/-!
# Lists of networks and the addresses in them

The documented notation for networks, with the addresses each network covers, is compared with
what the parsers and the list checks of `service.c` make of it.  The end marker of a parsed list
is itself a possible network: `0.0.0.0/0` ends an IPv4 list and every network that starts at `::`
ends an IPv6 list.  An IPv6 list with a prefix length of 128 is not accepted at all.
-/

namespace Gnunet.Util.Service

open Lib Lib.InetPton Lib.Scanf Function List UInt32 PrefixMask Sentinel

/-! ## The documented notation -/

structure Octet extends Numeral where
  le : toNumeral.value ≤ 255

structure Dotted where
  a : Octet
  b : Octet
  c : Octet
  d : Octet

def Dotted.text (dotted : Dotted) : List Char :=
  dotted.a.digits ++ '.' :: (dotted.b.digits ++ '.' :: (dotted.c.digits ++ '.' :: dotted.d.digits))

def Dotted.address (dotted : Dotted) : BitVec 32 :=
  BitVec.ofNat 32 (dotted.a.value * 2 ^ 24 + dotted.b.value * 2 ^ 16 + dotted.c.value * 2 ^ 8 +
    dotted.d.value)

inductive IPv4Entry where
  | host (network : Dotted)
  | cidr (network : Dotted) (length : Numeral) (le : length.value ≤ 32)
  | masked (network mask : Dotted)

def IPv4Entry.text : IPv4Entry → List Char
  | .host network => network.text
  | .cidr network length _ => network.text ++ '/' :: length.digits
  | .masked network mask => network.text ++ '/' :: mask.text

/-- The address agrees in all bits, in the leading `length` bits, or in the bits of the mask. -/
def IPv4Entry.Covers (add : BitVec 32) : IPv4Entry → Prop
  | .host network => add = network.address
  | .cidr network length _ =>
    ∀ k < length.value, add.getMsbD k = network.address.getMsbD k
  | .masked network mask => add &&& mask.address = network.address &&& mask.address

/-- A text that `inet_pton` reads as an address, alone or with a prefix length. -/
inductive IPv6Entry where
  | host (network : List Char) (address : In6Addr) (reads : inetPton network = some address)
  | cidr (network : List Char) (address : In6Addr) (reads : inetPton network = some address)
      (length : Numeral) (le : length.value ≤ 128)

open IPv6Entry

def IPv6Entry.text : IPv6Entry → List Char
  | .host network _ _ => network
  | .cidr network _ _ length _ => network ++ '/' :: length.digits

def IPv6Entry.address : IPv6Entry → In6Addr
  | .host _ address _ => address
  | .cidr _ address _ _ _ => address

def bitAt (address : In6Addr) (k : ℕ) : Bool := (byteAt address (k / 8)).getMsbD (k % 8)

def IPv6Entry.Covers (ip : In6Addr) : IPv6Entry → Prop
  | .host _ address _ => ip = address
  | .cidr _ address _ length _ => ∀ k < length.value, bitAt ip k = bitAt address k

def listText (entries : List (List Char)) : List Char := (entries.map (· ++ [';'])).flatten

/-! ## Reading IPv4 entries -/

theorem Octet.value_lt (octet : Octet) : octet.value < 2 ^ 64 :=
  lt_of_le_of_lt octet.le (by decide)

def Dotted.values (dotted : Dotted) : List UInt32 :=
  [ofNat dotted.a.value, ofNat dotted.b.value, ofNat dotted.c.value, ofNat dotted.d.value]

theorem sscanf_dotted (format : List Directive) (dotted : Dotted) {rest : List Char}
    (hrest : ∀ c ∈ rest.head?, c.isDigit = false) :
    sscanf (dottedFormat ++ format) (dotted.text ++ rest) =
      dotted.values ++ sscanf format rest := by
  have hdot : ∀ text : List Char, ∀ c ∈ ('.' :: text).head?, c.isDigit = false := by
    rintro text c ⟨⟩
    rfl
  simp only [dottedFormat, Dotted.text, Dotted.values, cons_append, nil_append, append_assoc]
  rw [sscanf_numeral _ _ (hdot _) dotted.a.value_lt, sscanf_literal, if_pos rfl,
    sscanf_numeral _ _ (hdot _) dotted.b.value_lt, sscanf_literal, if_pos rfl,
    sscanf_numeral _ _ (hdot _) dotted.c.value_lt, sscanf_literal, if_pos rfl,
    sscanf_numeral _ _ hrest dotted.d.value_lt]

theorem inAddr_dotted (dotted : Dotted) :
    inAddr (ofNat dotted.a.value) (ofNat dotted.b.value)
      (ofNat dotted.c.value) (ofNat dotted.d.value) = dotted.address := by
  apply BitVec.eq_of_toNat_eq
  simp [inAddr, Dotted.address, Nat.shiftLeft_eq]

theorem octetsOnly_dotted (dotted : Dotted) (rest : List UInt32) :
    octetsOnly (ofNat dotted.a.value :: ofNat dotted.b.value ::
      ofNat dotted.c.value :: ofNat dotted.d.value :: rest) = octetsOnly rest := by
  have hle : ∀ octet : Octet, ofNat octet.value ≤ 0xFF := by
    intro octet
    have := octet.le
    rw [le_iff_toNat_le, toNat_ofNat_of_lt' (by simp [size]; omega)]
    exact octet.le
  simp [octetsOnly, hle]

def IPv4Entry.networkSet : IPv4Entry → IPv4NetworkSet
  | .host network => ⟨network.address, netmaskOfSlash 32⟩
  | .cidr network length _ => ⟨network.address, netmaskOfSlash length.value⟩
  | .masked network mask => ⟨network.address, mask.address⟩

theorem slashLegal_of_le {slash : ℕ} (h : slash ≤ 32) :
    slashLegal (ofNat slash) = true ∧ (ofNat slash).toNat = slash := by
  have hall : ∀ slash < 33, slashLegal (ofNat slash) = true ∧
      (ofNat slash).toNat = slash := by decide
  exact hall slash (Nat.lt_succ_of_le h)

theorem parseIpv4Entry_text (entry : IPv4Entry) (rest : List Char) :
    parseIpv4Entry (entry.text ++ ';' :: rest) = some entry.networkSet := by
  have hend : ∀ c ∈ (';' :: rest).head?, c.isDigit = false := by
    rintro c ⟨⟩
    rfl
  have hslash : ∀ text : List Char, ∀ c ∈ ('/' :: text).head?, c.isDigit = false := by
    rintro text c ⟨⟩
    rfl
  unfold parseIpv4Entry
  cases entry with
  | host network =>
    have hmask : sscanf maskFormat (network.text ++ ';' :: rest) =
        network.values := by
      rw [maskFormat, append_assoc, sscanf_dotted _ _ hend]
      simp
    have hcidr : sscanf slashFormat (network.text ++ ';' :: rest) =
        network.values := by
      rw [slashFormat, sscanf_dotted _ _ hend]
      simp
    have hhost : sscanf hostFormat (network.text ++ ';' :: rest) =
        network.values := by
      rw [hostFormat, sscanf_dotted _ _ hend]
      simp [sscanf]
    simp only [IPv4Entry.text, hmask, hcidr, hhost, Dotted.values, octetsOnly_dotted, inAddr_dotted]
    rfl
  | cidr network length hle =>
    have hlength : length.value < 2 ^ 64 := lt_of_le_of_lt hle (by decide)
    have htext : IPv4Entry.text (.cidr network length hle) ++ ';' :: rest =
        network.text ++ ('/' :: (length.digits ++ ';' :: rest)) := by
      simp [IPv4Entry.text]
    have hmask : sscanf maskFormat (network.text ++ ('/' :: (length.digits ++ ';' :: rest))) =
        network.values ++ [ofNat length.value] := by
      rw [maskFormat, append_assoc, sscanf_dotted _ _ (hslash _), cons_append,
        sscanf_literal, dottedFormat, cons_append, sscanf_numeral _ _ hend hlength]
      simp
    have hcidr : sscanf slashFormat (network.text ++ ('/' :: (length.digits ++ ';' :: rest))) =
        network.values ++ [ofNat length.value] := by
      rw [slashFormat, sscanf_dotted _ _ (hslash _), sscanf_literal,
        sscanf_numeral _ _ hend hlength]
      simp [sscanf]
    obtain ⟨hlegal, hvalue⟩ := slashLegal_of_le hle
    simp only [htext, hmask, hcidr, Dotted.values, cons_append, nil_append, octetsOnly_dotted,
      inAddr_dotted, hlegal, hvalue]
    rfl
  | masked network mask =>
    have htext : IPv4Entry.text (.masked network mask) ++ ';' :: rest =
        network.text ++ ('/' :: (mask.text ++ ';' :: rest)) := by
      simp [IPv4Entry.text]
    have hmask : sscanf maskFormat (network.text ++ ('/' :: (mask.text ++ ';' :: rest))) =
        network.values ++ mask.values := by
      rw [maskFormat, append_assoc, sscanf_dotted _ _ (hslash _), cons_append,
        sscanf_literal, sscanf_dotted _ _ hend]
      simp [sscanf]
    simp only [htext, hmask, Dotted.values, cons_append, nil_append, octetsOnly_dotted,
      inAddr_dotted]
    rfl

/-! ## Splitting a list at its semicolons -/

variable {text : List Char} {texts : List (List Char)}

theorem afterSemicolon_append (h : ';' ∉ text) (rest : List Char) :
    afterSemicolon (text ++ ';' :: rest) = rest := by
  rw [afterSemicolon, dropWhile_append_of_pos (all_ne_of_not_mem h)]
  simp

theorem listText_cons (text : List Char) (texts : List (List Char)) :
    listText (text :: texts) = text ++ ';' :: listText texts := by
  simp [listText]

theorem count_listText {α : Type*} {text : α → List Char} (h : ∀ entry, ';' ∉ text entry)
    (entries : List α) : (listText (entries.map text)).count ';' = entries.length := by
  induction entries with
  | nil => rfl
  | cons entry entries ih => simp [listText_cons, count_eq_zero.mpr (h entry), ih]

theorem listText_ne_nil (h : texts ≠ []) : listText texts ≠ [] := by
  cases texts with
  | nil => exact absurd rfl h
  | cons text texts => simp [listText_cons]

theorem not_mem_digits (numeral : Numeral) {c : Char} (h : c.isDigit = false) :
    c ∉ numeral.digits := by
  intro hc
  rw [numeral.isDigit c hc] at h
  cases h

theorem IPv4Entry.no_semicolon (entry : IPv4Entry) : ';' ∉ entry.text := by
  have hnumeral : ∀ numeral : Numeral, ';' ∉ numeral.digits := fun numeral ↦
    not_mem_digits numeral rfl
  cases entry <;> simp [IPv4Entry.text, Dotted.text, hnumeral]

/-! ## IPv4 lists -/

theorem parseIpv4Entries_listText (entries : List IPv4Entry) :
    parseIpv4Entries entries.length (listText (entries.map IPv4Entry.text)) =
      some (entries.map IPv4Entry.networkSet, []) := by
  induction entries with
  | nil => rfl
  | cons entry entries ih =>
    rw [map_cons, listText_cons, length_cons, parseIpv4Entries,
      parseIpv4Entry_text, afterSemicolon_append entry.no_semicolon, ih]
    rfl

theorem parseIpv4Specification_listText {entries : List IPv4Entry} (h : entries ≠ []) :
    parseIpv4Specification (listText (entries.map IPv4Entry.text)) =
      some (entries.map IPv4Entry.networkSet ++ [⟨0#32, 0#32⟩]) := by
  rw [parseIpv4Specification, if_neg (listText_ne_nil (by simpa using h)),
    count_listText IPv4Entry.no_semicolon, parseIpv4Entries_listText]
  rfl

theorem IPv4Entry.covers_iff (entry : IPv4Entry) (add : BitVec 32) :
    entry.Covers add ↔
      add &&& entry.networkSet.netmask = entry.networkSet.network &&& entry.networkSet.netmask := by
  have hones : ∀ slash k, (netmaskOfSlash slash).getMsbD k = decide (k < slash ∧ k < 32) :=
    fun slash k ↦ getMsbD_ones slash k
  cases entry with
  | host network =>
    rw [and_eq_and_iff]
    constructor
    · rintro rfl k -
      rfl
    · intro hbits
      apply BitVec.eq_of_getMsbD_eq
      intro k hk
      exact hbits k (by simp [IPv4Entry.networkSet, hones, hk])
  | cidr network length hle =>
    rw [and_eq_and_iff]
    refine forall_congr' fun k ↦ ?_
    simp only [IPv4Entry.networkSet, hones, decide_eq_true_eq]
    exact ⟨fun hbits hk ↦ hbits hk.1, fun hbits hk ↦ hbits ⟨hk, by omega⟩⟩
  | masked network mask => exact Iff.rfl

/-- The network of all addresses, written with the address zero. -/
def IPv4Entry.IsDefault (entry : IPv4Entry) : Prop :=
  entry.networkSet.network = 0#32 ∧ entry.networkSet.netmask = 0#32

instance : DecidablePred IPv4Entry.IsDefault := fun entry ↦
  inferInstanceAs (Decidable (entry.networkSet.network = 0#32 ∧ entry.networkSet.netmask = 0#32))

instance (add : BitVec 32) : DecidablePred (IPv4Entry.Covers add) := fun entry ↦
  decidable_of_iff _ (entry.covers_iff add).symm

theorem IPv4Entry.IsDefault.covers {entry : IPv4Entry} (h : entry.IsDefault) (add : BitVec 32) :
    entry.Covers add := by
  rw [IPv4Entry.covers_iff, h.2]
  simp

theorem checkIpv4Listed_listText (entries : List IPv4Entry) (add : BitVec 32) :
    checkIpv4Listed (parseIpv4Specification (listText (entries.map IPv4Entry.text))) add =
      scanUntil (fun entry ↦ decide entry.IsDefault)
        (fun entry ↦ decide (entry.Covers add)) entries := by
  by_cases hnil : entries = []
  · subst hnil
    rfl
  · rw [parseIpv4Specification_listText hnil, checkIpv4Listed,
      scanUntil_append_stop _ _ _ (by simp), scanUntil_map]
    simp only [IPv4Entry.covers_iff]
    rfl

/-! ## IPv6 masks -/

@[simp] theorem byteAt_setByte (address : In6Addr) (off off' : ℕ) (byte : BitVec 8) :
    byteAt (setByte address off byte) off' =
      if off' = off ∧ off' < 16 then byte else byteAt address off' := by
  unfold byteAt setByte
  grind

def FilledTo (off : ℕ) (netmask : In6Addr) : Prop :=
  ∀ i < 16, byteAt netmask i = if i < off then 0xFF#8 else 0#8

theorem fillBytes_spec {fuel bits off : ℕ} {netmask : In6Addr} (hfuel : bits ≤ fuel)
    (hroom : 8 * off + bits ≤ 128) (hfilled : FilledTo off netmask) :
    ∃ netmask' bits' off', fillBytes fuel bits off netmask = (netmask', bits', off') ∧
      FilledTo off' netmask' ∧ bits' ≤ 8 ∧ 8 * off' + bits' = 8 * off + bits := by
  induction fuel generalizing bits off netmask with
  | zero => exact ⟨netmask, bits, off, rfl, hfilled, by omega, rfl⟩
  | succ fuel ih =>
    rw [fillBytes]
    by_cases hbits : 8 < bits
    · have hnext : FilledTo (off + 1) (setByte netmask off 0xFF#8) := by
        intro i hi
        rw [byteAt_setByte, hfilled i hi]
        grind
      have hfuel' : bits - 8 ≤ fuel := by omega
      obtain ⟨netmask', bits', off', heq, hfilled', hle, _⟩ := ih hfuel' (by omega) hnext
      exact ⟨netmask', bits', off', by rw [if_pos hbits, heq], hfilled', hle, by omega⟩
    · exact ⟨netmask, bits, off, if_neg hbits, hfilled, by omega, rfl⟩

theorem byteAt_fillBits (bits off : ℕ) (netmask : In6Addr) {i : ℕ} (hi : i < 16) :
    byteAt (fillBits bits off netmask) i =
      if i = off then pushOne^[bits] (byteAt netmask i) else byteAt netmask i := by
  induction bits generalizing netmask with
  | zero => simp [fillBits]
  | succ bits ih =>
    rw [fillBits, ih]
    by_cases hoff : i = off
    · subst hoff
      simp [hi]
    · simp [hoff]

theorem getMsbD_fullByte (k : ℕ) : (0xFF#8).getMsbD (k % 8) = true := by
  have hall : ∀ j < 8, (0xFF#8).getMsbD j = true := by decide
  exact hall _ (Nat.mod_lt _ (by decide))

theorem bitAt_netmaskOfBits {bits k : ℕ} (hbits : bits ≤ 128) (hk : k < 128) :
    bitAt (netmaskOfBits bits) k = decide (k < bits) := by
  have hzero : FilledTo 0 zeroAddress := by
    intro i hi
    simp [byteAt, zeroAddress]
  obtain ⟨_, bits', off, heq, hfilled, _, _⟩ :=
    fillBytes_spec (le_refl bits) (by omega) hzero
  have hbyte : k / 8 < 16 := by omega
  rw [bitAt, netmaskOfBits, heq]
  rw [byteAt_fillBits _ _ _ hbyte, hfilled _ hbyte]
  rcases lt_trichotomy (k / 8) off with hlt | heq' | hgt
  · rw [if_neg hlt.ne, if_pos hlt, getMsbD_fullByte]
    simp
    omega
  · have hones : (pushOne^[bits'] 0#8).getMsbD (k % 8) =
        decide (k % 8 < bits' ∧ k % 8 < 8) := getMsbD_ones bits' _
    rw [if_pos heq', if_neg (by omega), hones, decide_eq_decide]
    omega
  · rw [if_neg hgt.ne', if_neg hgt.not_gt]
    simp
    omega

theorem word_eq_iff (ip network netmask : In6Addr) (j : ℕ) :
    word ip j &&& word netmask j = word network j &&& word netmask j ↔
      ∀ i < 4, byteAt ip (4 * j + i) &&& byteAt netmask (4 * j + i) =
        byteAt network (4 * j + i) &&& byteAt netmask (4 * j + i) := by
  simp only [word, BitVec.and_append, PrefixMask.append_eq_append_iff]
  constructor
  · rintro ⟨⟨⟨h3, h2⟩, h1⟩, h0⟩ i hi
    have hcases : i = 0 ∨ i = 1 ∨ i = 2 ∨ i = 3 := by omega
    rcases hcases with rfl | rfl | rfl | rfl <;> assumption
  · intro h
    exact ⟨⟨⟨h 3 (by omega), h 2 (by omega)⟩, h 1 (by omega)⟩, h 0 (by omega)⟩

theorem all_word_eq_iff (ip network netmask : In6Addr) :
    ((range 4).all fun j ↦
        word ip j &&& word netmask j = word network j &&& word netmask j) = true ↔
      ∀ k < 128, bitAt netmask k = true → bitAt ip k = bitAt network k := by
  simp only [all_eq_true, mem_range, decide_eq_true_eq, word_eq_iff]
  simp only [and_eq_and_iff]
  constructor
  · intro h k hk
    have hbyte := h (k / 8 / 4) (by omega) (k / 8 % 4) (by omega) (k % 8)
    rwa [show 4 * (k / 8 / 4) + k / 8 % 4 = k / 8 by omega] at hbyte
  · intro h j hj i hi m hm
    have hlt : m < 8 := BitVec.lt_of_getMsbD hm
    have hbit := h (8 * (4 * j + i) + m) (by omega)
    simp only [bitAt, show (8 * (4 * j + i) + m) / 8 = 4 * j + i by omega,
      show (8 * (4 * j + i) + m) % 8 = m by omega] at hbit
    exact hbit hm

theorem eq_of_bitAt_eq {ip address : In6Addr} (h : ∀ k < 128, bitAt ip k = bitAt address k) :
    ip = address := by
  funext i
  apply BitVec.eq_of_getMsbD_eq
  intro m hm
  have hbit := h (8 * i.val + m) (by omega)
  simpa [bitAt, byteAt, show (8 * i.val + m) / 8 = i.val by omega,
    show (8 * i.val + m) % 8 = m by omega] using hbit

theorem bitAt_fullMask {k : ℕ} (hk : k < 128) : bitAt fullMask k = true := by
  have hbyte : k / 8 < 16 := by omega
  simp only [bitAt, byteAt, hbyte, fullMask, dif_pos, getMsbD_fullByte]

/-! ## Reading IPv6 entries -/

def IPv6Entry.networkSet : IPv6Entry → IPv6NetworkSet
  | .host _ address _ => ⟨address, fullMask⟩
  | .cidr _ address _ length _ => ⟨address, netmaskOfBits length.value⟩

def IPv6Entry.IsFullLength : IPv6Entry → Prop
  | .host _ _ _ => False
  | .cidr _ _ _ length _ => length.value = 128

instance : DecidablePred IsFullLength
  | .host _ _ _ => inferInstanceAs (Decidable False)
  | .cidr _ _ _ length _ => inferInstanceAs (Decidable (length.value = 128))

theorem not_mem_of_inetPton {address : In6Addr} (h : inetPton text = some address) {c : Char}
    (hc : isAddressChar c = false) : c ∉ text := by
  intro hmem
  rw [inetPton_chars h c hmem] at hc
  cases hc

theorem splitLastSlash_append {network length : List Char} (h : '/' ∉ length) :
    splitLastSlash (network ++ '/' :: length) = some (network, length) := by
  have hreverse : (network ++ '/' :: length).reverse =
      length.reverse ++ '/' :: network.reverse := by
    simp
  have hlength : ∀ c ∈ length.reverse, decide (c ≠ '/') = true :=
    all_ne_of_not_mem (by simpa using h)
  rw [splitLastSlash, hreverse, takeWhile_append_of_pos hlength, dropWhile_append_of_pos hlength]
  simp

theorem parseIpv6Netmask_digits {length : Numeral} (hle : length.value ≤ 128) :
    parseIpv6Netmask length.digits =
      if length.value = 128 then none else some (netmaskOfBits length.value) := by
  have hpton : inetPton length.digits = none := by
    rw [Option.eq_none_iff_forall_ne_some]
    intro address haddress
    exact not_mem_digits length rfl (inetPton_colon haddress)
  have hscan : sscanf [.unsigned] length.digits = [ofNat length.value] := by
    have hend : ∀ c ∈ ([] : List Char).head?, c.isDigit = false := by simp
    have hnumeral := sscanf_numeral [] length hend (lt_of_le_of_lt hle (by decide))
    simpa [sscanf] using hnumeral
  have hvalue : (ofNat length.value).toNat = length.value :=
    toNat_ofNat_of_lt' (lt_of_le_of_lt hle (by decide))
  simp only [parseIpv6Netmask, hpton, hscan, hvalue]
  by_cases hfull : length.value = 128
  · simp [hfull]
  · rw [if_neg (by omega), if_neg hfull]

theorem parseIpv6Entry_text (entry : IPv6Entry) :
    parseIpv6Entry entry.text = if entry.IsFullLength then none else some entry.networkSet := by
  cases entry with
  | host network address reads =>
    have hslash : '/' ∉ network := not_mem_of_inetPton reads (by decide)
    simp [parseIpv6Entry, text, splitLastSlash, hslash, reads, IsFullLength, networkSet]
  | cidr network address reads length hle =>
    rw [parseIpv6Entry, text, splitLastSlash_append (not_mem_digits length rfl)]
    dsimp only
    rw [parseIpv6Netmask_digits hle, reads]
    by_cases hfull : length.value = 128
    · simp [IsFullLength, hfull]
    · simp [IsFullLength, hfull, networkSet]

theorem IPv6Entry.no_semicolon (entry : IPv6Entry) : ';' ∉ entry.text := by
  cases entry with
  | host network address reads => exact not_mem_of_inetPton reads (by decide)
  | cidr network address reads length hle =>
    simp [text, not_mem_of_inetPton reads (c := ';') (by decide),
      not_mem_digits length (c := ';') rfl]

/-! ## IPv6 lists -/

theorem parseIpv6Entries_listText (entries : List IPv6Entry) :
    parseIpv6Entries entries.length (listText (entries.map IPv6Entry.text)) =
      if ∃ entry ∈ entries, entry.IsFullLength then none
      else some (entries.map networkSet) := by
  induction entries with
  | nil => simp [parseIpv6Entries]
  | cons entry entries ih =>
    rw [map_cons, listText_cons, length_cons, parseIpv6Entries,
      takeWhile_ne_append entry.no_semicolon, afterSemicolon_append entry.no_semicolon,
      parseIpv6Entry_text, ih]
    by_cases hentry : entry.IsFullLength
    · simp [hentry]
    · by_cases hrest : ∃ entry ∈ entries, entry.IsFullLength
      · simp [hrest]
      · simp [hentry, hrest]

theorem getLast_listText (h : texts ≠ []) : (listText texts).getLast? = some ';' := by
  obtain ⟨_, _, rfl⟩ := eq_nil_or_concat texts |>.resolve_left h
  simp [listText]

theorem parseIpv6Specification_listText {entries : List IPv6Entry} (h : entries ≠ []) :
    parseIpv6Specification (listText (entries.map IPv6Entry.text)) =
      if ∃ entry ∈ entries, entry.IsFullLength then none
      else some (entries.map networkSet ++ [⟨zeroAddress, zeroAddress⟩]) := by
  have hne : entries.map text ≠ [] := by simpa using h
  rw [parseIpv6Specification, if_neg (listText_ne_nil hne), getLast_listText hne,
    count_listText IPv6Entry.no_semicolon, parseIpv6Entries_listText, if_neg (by simp)]
  split <;> rfl

theorem IPv6Entry.covers_iff (entry : IPv6Entry) (ip : In6Addr) :
    entry.Covers ip ↔ ((range 4).all fun j ↦ word ip j &&& word entry.networkSet.netmask j =
        word entry.networkSet.network j &&& word entry.networkSet.netmask j) = true := by
  rw [all_word_eq_iff]
  cases entry with
  | host network address reads =>
    constructor
    · intro h k _ _
      change ip = address at h
      rw [h]
      rfl
    · exact fun h ↦ eq_of_bitAt_eq fun k hk ↦ h k hk (bitAt_fullMask hk)
  | cidr network address reads length hle =>
    constructor
    · intro h k hk hmask
      simp only [networkSet, bitAt_netmaskOfBits hle hk, decide_eq_true_eq] at hmask
      exact h k hmask
    · intro h k hk
      have hlt : k < 128 := by omega
      exact h k hlt (by simp [networkSet, bitAt_netmaskOfBits hle hlt, hk])

instance (ip : In6Addr) : DecidablePred (Covers ip) := fun entry ↦
  decidable_of_iff _ (entry.covers_iff ip).symm

/-- A network that starts at the address `::`. -/
def IPv6Entry.IsUnspecified (entry : IPv6Entry) : Prop := entry.address = zeroAddress

instance : DecidablePred IsUnspecified := fun entry ↦
  inferInstanceAs (Decidable (entry.address = zeroAddress))

theorem IPv6Entry.networkSet_network (entry : IPv6Entry) :
    entry.networkSet.network = entry.address := by
  cases entry <;> rfl

theorem checkIpv6Listed_listText (entries : List IPv6Entry) (ip : In6Addr) :
    checkIpv6Listed (parseIpv6Specification (listText (entries.map IPv6Entry.text))) ip =
      if ∃ entry ∈ entries, entry.IsFullLength then false
      else scanUntil (fun entry ↦ decide entry.IsUnspecified)
        (fun entry ↦ decide (entry.Covers ip)) entries := by
  by_cases hnil : entries = []
  · subst hnil
    rfl
  · rw [parseIpv6Specification_listText hnil]
    split
    · rfl
    · rw [checkIpv6Listed, scanUntil_append_stop _ _ _ (by simp), scanUntil_map]
      simp only [comp_def, covers_iff, networkSet_network, Bool.decide_eq_true]
      rfl

/-! ## Listed addresses -/

/-- No entry is `0.0.0.0/0`, or an entry in front of the first such entry covers the address. -/
def ReachesIpv4 (entries : List IPv4Entry) (add : BitVec 32) : Prop :=
  (∀ entry ∈ entries, ¬ entry.IsDefault) ∨
    ∃ entry ∈ entries.takeWhile (fun entry ↦ !decide entry.IsDefault), entry.Covers add

/-- With a prefix length of 128 in the list, no entry covers the address. Otherwise one in front of
the first network that starts at `::` covers it, or none from that network on does. -/
def ReachesIpv6 (entries : List IPv6Entry) (ip : In6Addr) : Prop :=
  if ∃ entry ∈ entries, entry.IsFullLength then ∀ entry ∈ entries, ¬ entry.Covers ip
  else
    (∃ entry ∈ entries.takeWhile (fun entry ↦ !decide entry.IsUnspecified), entry.Covers ip) ∨
      ∀ entry ∈ entries.dropWhile (fun entry ↦ !decide entry.IsUnspecified), ¬ entry.Covers ip

/-- The scan finds what a search of the whole list finds if it is not cut off in front of it. -/
theorem scanUntil_iff_exists {α : Type} {stop covers : α → Prop} [DecidablePred stop]
    [DecidablePred covers] (entries : List α) :
    (scanUntil (fun entry ↦ decide (stop entry)) (fun entry ↦ decide (covers entry))
        entries = true ↔ ∃ entry ∈ entries, covers entry) ↔
      (∃ entry ∈ entries.takeWhile (fun entry ↦ !decide (stop entry)), covers entry) ∨
        ∀ entry ∈ entries.dropWhile (fun entry ↦ !decide (stop entry)), ¬ covers entry := by
  have hany : (∃ entry ∈ entries, covers entry) ↔
      (entries.any fun entry ↦ decide (covers entry)) = true := by simp
  rw [hany, ← Bool.eq_iff_iff, scanUntil_eq_any_iff]
  simp

theorem checkIpv4Listed_iff (entries : List IPv4Entry) (add : BitVec 32) :
    (checkIpv4Listed (parseIpv4Specification (listText (entries.map IPv4Entry.text))) add = true ↔
      ∃ entry ∈ entries, entry.Covers add) ↔ ReachesIpv4 entries add := by
  have hdefault : ∀ entry : IPv4Entry, (!decide entry.IsDefault) = false → entry.Covers add :=
    fun entry h ↦ IPv4Entry.IsDefault.covers (by simpa using h) add
  rw [checkIpv4Listed_listText, scanUntil_iff_exists, forall_dropWhile_iff hdefault,
    ReachesIpv4, or_comm]
  simp

theorem checkIpv6Listed_iff (entries : List IPv6Entry) (ip : In6Addr) :
    (checkIpv6Listed (parseIpv6Specification (listText (entries.map IPv6Entry.text))) ip = true ↔
      ∃ entry ∈ entries, entry.Covers ip) ↔ ReachesIpv6 entries ip := by
  rw [checkIpv6Listed_listText, ReachesIpv6]
  split
  · simp
  · exact scanUntil_iff_exists entries

/-- Access is granted to the addresses in an accepted network and in no rejected one. -/
theorem checkAccess_inet_iff {reject accept : List IPv4Entry} {add : BitVec 32}
    (hreject : reject ≠ []) (haccept : accept ≠ []) (hreject_reaches : ReachesIpv4 reject add)
    (haccept_reaches : ReachesIpv4 accept add) (reject6 accept6 : Option (List Char)) :
    checkAccess (setupService (some (listText (reject.map IPv4Entry.text)))
        (some (listText (accept.map IPv4Entry.text))) reject6 accept6) (.inet add) = true ↔
      (∃ entry ∈ accept, entry.Covers add) ∧ ¬ ∃ entry ∈ reject, entry.Covers add := by
  rw [← (checkIpv4Listed_iff accept add).mpr haccept_reaches,
    ← (checkIpv4Listed_iff reject add).mpr hreject_reaches]
  simp [checkAccess, setupService, parseIpv4Specification_listText hreject,
    parseIpv4Specification_listText haccept]

/-- The same for IPv6; a prefix length of 128 would switch the whole list off. -/
theorem checkAccess_inet6_iff {reject accept : List IPv6Entry} {ip : In6Addr}
    (hreject : reject ≠ []) (haccept : accept ≠ [])
    (hreject_length : ¬ ∃ entry ∈ reject, entry.IsFullLength)
    (haccept_length : ¬ ∃ entry ∈ accept, entry.IsFullLength)
    (hreject_reaches : ReachesIpv6 reject ip) (haccept_reaches : ReachesIpv6 accept ip)
    (reject4 accept4 : Option (List Char)) :
    checkAccess (setupService reject4 accept4 (some (listText (reject.map IPv6Entry.text)))
        (some (listText (accept.map IPv6Entry.text)))) (.inet6 ip) = true ↔
      (∃ entry ∈ accept, entry.Covers ip) ∧ ¬ ∃ entry ∈ reject, entry.Covers ip := by
  rw [← (checkIpv6Listed_iff accept ip).mpr haccept_reaches,
    ← (checkIpv6Listed_iff reject ip).mpr hreject_reaches]
  simp [checkAccess, setupService, parseIpv6Specification_listText hreject, if_neg hreject_length,
    parseIpv6Specification_listText haccept, if_neg haccept_length]

/-- For lists in the documented notation an address is reported as listed exactly if it lies in one
of the networks, if and only if the scan is not cut off by an entry that looks like the end of the
list, and the list has no IPv6 prefix length of 128. -/
theorem listed_iff_covered (entries : List IPv4Entry) (add : BitVec 32)
    (entries6 : List IPv6Entry) (ip : In6Addr) :
    ((checkIpv4Listed (parseIpv4Specification (listText (entries.map IPv4Entry.text))) add =
          true ↔ ∃ entry ∈ entries, entry.Covers add) ↔ ReachesIpv4 entries add) ∧
      ((checkIpv6Listed (parseIpv6Specification (listText (entries6.map IPv6Entry.text))) ip =
          true ↔ ∃ entry ∈ entries6, entry.Covers ip) ↔ ReachesIpv6 entries6 ip) :=
  ⟨checkIpv4Listed_iff entries add, checkIpv6Listed_iff entries6 ip⟩

def zeroNumeral : Numeral := ⟨['0'], by decide, by simp⟩

def zeroOctet : Octet := ⟨zeroNumeral, by decide⟩

/-- The list `0.0.0.0/0;` does not list the address 1.2.3.4, which lies in its only network. -/
theorem default_network_not_listed :
    checkIpv4Listed (parseIpv4Specification (listText ([IPv4Entry.cidr
        ⟨zeroOctet, zeroOctet, zeroOctet, zeroOctet⟩ zeroNumeral (by decide)].map
          IPv4Entry.text))) 0x01020304#32 = false ∧
      ∃ entry ∈ [IPv4Entry.cidr ⟨zeroOctet, zeroOctet, zeroOctet, zeroOctet⟩ zeroNumeral
        (by decide)], entry.Covers 0x01020304#32 := by
  refine ⟨by decide, _, mem_singleton_self _, ?_⟩
  intro k hk
  exact absurd hk (Nat.not_lt_zero k)

end Gnunet.Util.Service
