import Gnunet.Hello.Message
import Gnunet.Lib.LatestUnion
import Mathlib.Algebra.Order.BigOperators.Group.Finset
import Gnunet.Lib.Sentinel

/-!
# Merging two HELLO messages

The two passes of `merge_addr` over the packed addresses are the two passes of a union with the
latest expirations. What is written is read back as the same list of addresses.
-/

namespace Gnunet.Hello

open Lib.LatestUnion Lib.NetworkOrder List

variable {K σ : Type*} {h1 h2 h3 hello : HelloMessage K}

abbrev Entry := Address × ℕ

def addressesOf (hello : HelloMessage K) : List Entry :=
  (iterateAddresses hello false (fun seen address expiration ↦
    (seen ++ [(address, expiration)], .ok)) []).1

section Visit

def entriesFrom : ℕ → List UInt8 → List Entry
  | 0, _ => []
  | _ + 1, [] => []
  | fuel + 1, inptr =>
    match getHelloAddressSize inptr with
    | none => []
    | some (esize, alen) =>
      ({ transportName := inptr.takeWhile (· ≠ 0)
         address := (inptr.drop (esize - alen)).take alen },
        decode ((inptr.drop (esize - alen - 8)).take 8)) :: entriesFrom fuel (inptr.drop esize)

def visit (it : σ → Address → ℕ → σ × IterResult) : List Entry → σ → σ
  | [], cls => cls
  | entry :: rest, cls =>
    match it cls entry.1 entry.2 with
    | (cls, .syserr) => cls
    | (cls, _) => visit it rest cls

variable {it : σ → Address → ℕ → σ × IterResult}

theorem iterateFrom_fst (fuel : ℕ) (inptr written : List UInt8) (cls : σ) :
    (iterateFrom it fuel inptr written cls).1 = visit it (entriesFrom fuel inptr) cls := by
  induction fuel generalizing inptr written cls with
  | zero => rfl
  | succ fuel ih =>
    cases inptr with
    | nil => rfl
    | cons byte bytes =>
      rw [iterateFrom, entriesFrom]
      · cases getHelloAddressSize (byte :: bytes) with
        | none => rfl
        | some sizes =>
          dsimp only
          rw [visit]
          cases it cls _ _ with
          | mk cls result =>
            cases result with
            | syserr => rfl
            | no => exact ih _ _ _
            | ok => exact ih _ _ _
      · exact fun h ↦ cons_ne_nil _ _ h
      · exact fun h ↦ cons_ne_nil _ _ h

def entriesOf (hello : HelloMessage K) : List Entry :=
  if hello.type ≠ typeHello then [] else entriesFrom hello.body.length hello.body

theorem iterateAddresses_fst (modified : Bool) (cls : σ) :
    (iterateAddresses hello modified it cls).1 = visit it (entriesOf hello) cls := by
  rw [iterateAddresses, helloSize, entriesOf]
  by_cases htype : hello.type = typeHello
  · have hcheck : ¬ ((if hello.type ≠ typeHello then 0 else messageSize + hello.body.length) <
        messageSize ∨ hello.type ≠ typeHello) := by
      rw [if_neg (not_not.mpr htype)]
      intro hor
      cases hor with
      | inl hlt => omega
      | inr hne => exact hne htype
    rw [if_neg hcheck, if_neg (not_not.mpr htype), ← iterateFrom_fst _ _ []]
    cases hloop : iterateFrom it hello.body.length hello.body [] cls with
    | mk state written =>
      cases written with
      | none => rfl
      | some written =>
        dsimp only
        split_ifs <;> rfl
  · rw [if_pos (.inr htype), if_pos htype]
    rfl

theorem visit_collect (entries seen : List Entry) :
    visit (fun seen address expiration ↦ (seen ++ [(address, expiration)], .ok)) entries seen =
      seen ++ entries := by
  induction entries generalizing seen with
  | nil => exact (append_nil seen).symm
  | cons entry rest ih =>
    exact (ih _).trans (append_assoc seen [entry] rest)

theorem addressesOf_eq : addressesOf hello = entriesOf hello := by
  rw [addressesOf, iterateAddresses_fst, visit_collect]
  rfl

theorem iterateAddresses_eq (modified : Bool) (cls : σ) :
    (iterateAddresses hello modified it cls).1 = visit it (addressesOf hello) cls := by
  rw [iterateAddresses_fst, addressesOf_eq]

theorem visit_getMatchExp (address : Address) (entries : List Entry) :
    visit (getMatchExp address) entries none = valueOf entries address := by
  induction entries with
  | nil => rfl
  | cons entry rest ih =>
    rw [visit, getMatchExp, valueOf, find?_cons]
    by_cases heq : entry.1 = address
    · rw [if_pos heq, decide_eq_true heq]
      rfl
    · rw [if_neg heq, decide_eq_false heq]
      exact ih

end Visit

section Format

def entrySize (address : Address) : ℕ :=
  address.transportName.length + 1 + 2 + 8 + address.address.length

def encodeEntry (entry : Entry) : List UInt8 :=
  entry.1.transportName ++ [0] ++ encode 2 entry.1.address.length ++ encode 8 entry.2 ++
    entry.1.address

/-- A name without zero bytes, and numbers that fit. -/
structure Proper (entry : Entry) : Prop where
  name : 0 ∉ entry.1.transportName
  address : entry.1.address.length < 2 ^ 16
  expiration : entry.2 < 2 ^ 64

theorem length_encodeEntry (entry : Entry) : (encodeEntry entry).length = entrySize entry.1 := by
  simp only [encodeEntry, entrySize, length_append, length_encode, length_singleton]

theorem findEnd_append {name more : List UInt8} (hname : 0 ∉ name) (slen : ℕ) :
    findEnd (name ++ 0 :: more) slen = some (slen + name.length, 0 :: more) := by
  induction name generalizing slen with
  | nil => exact if_pos rfl
  | cons c name ih =>
    rw [mem_cons, not_or] at hname
    rw [cons_append, findEnd, if_neg (Ne.symm hname.1), ih hname.2, length_cons]
    congr 2
    omega

def afterName (entry : Entry) (rest : List UInt8) : List UInt8 :=
  encode 2 entry.1.address.length ++ (encode 8 entry.2 ++ (entry.1.address ++ rest))

theorem encodeEntry_append (entry : Entry) (rest : List UInt8) :
    encodeEntry entry ++ rest = entry.1.transportName ++ 0 :: afterName entry rest := by
  simp only [encodeEntry, afterName, append_assoc, cons_append, nil_append]

theorem length_afterName (entry : Entry) (rest : List UInt8) :
    (afterName entry rest).length = 2 + (8 + (entry.1.address.length + rest.length)) := by
  simp only [afterName, length_append, length_encode]

variable {entry : Entry}

theorem getHelloAddressSize_append (h : Proper entry) (rest : List UInt8) :
    getHelloAddressSize (encodeEntry entry ++ rest) =
      some (entrySize entry.1, entry.1.address.length) := by
  have halen : decode ((afterName entry rest).take 2) = entry.1.address.length := by
    rw [afterName, take_left' (length_encode 2 _), decode_encode]
    exact Nat.mod_eq_of_lt h.address
  have hafter := length_afterName entry rest
  rw [encodeEntry_append, getHelloAddressSize, findEnd_append h.name]
  change (if (0 :: afterName entry rest).length < 2 + 8 then none
    else if (entry.1.transportName ++ 0 :: afterName entry rest).length <
        1 + entry.1.transportName.length + decode ((afterName entry rest).take 2) + 2 + 8 then none
      else some (1 + entry.1.transportName.length + decode ((afterName entry rest).take 2) + 2 + 8,
        decode ((afterName entry rest).take 2))) = _
  rw [length_append, length_cons, if_neg (by omega), if_neg (by omega), entrySize]
  congr 2
  omega

theorem entriesFrom_append (h : Proper entry) (rest : List UInt8) (fuel : ℕ) :
    entriesFrom (fuel + 1) (encodeEntry entry ++ rest) = entry :: entriesFrom fuel rest := by
  have hlength := length_encodeEntry entry
  have hne : encodeEntry entry ++ rest ≠ [] := by
    intro hnil
    have hzero := congrArg length hnil
    rw [length_append, hlength, entrySize, length_nil] at hzero
    omega
  have hname : (encodeEntry entry ++ rest).takeWhile (· ≠ 0) = entry.1.transportName := by
    rw [encodeEntry_append]
    exact Lib.Sentinel.takeWhile_ne_append h.name _
  have haddress : ((encodeEntry entry ++ rest).drop
      (entrySize entry.1 - entry.1.address.length)).take entry.1.address.length =
        entry.1.address := by
    have hsplit : encodeEntry entry ++ rest = (entry.1.transportName ++ [0] ++
        encode 2 entry.1.address.length ++ encode 8 entry.2) ++ (entry.1.address ++ rest) := by
      rw [encodeEntry, append_assoc _ entry.1.address]
    rw [hsplit, drop_left', take_left' rfl]
    simp only [entrySize, length_append, length_encode, length_singleton]
    omega
  have hexpiration : decode (((encodeEntry entry ++ rest).drop
      (entrySize entry.1 - entry.1.address.length - 8)).take 8) = entry.2 := by
    have hsplit : encodeEntry entry ++ rest = (entry.1.transportName ++ [0] ++
        encode 2 entry.1.address.length) ++ (encode 8 entry.2 ++ (entry.1.address ++ rest)) := by
      rw [encodeEntry, append_assoc _ entry.1.address, append_assoc _ (encode 8 _)]
    rw [hsplit, drop_left', take_left' (length_encode 8 _), decode_encode]
    · exact Nat.mod_eq_of_lt h.expiration
    · simp only [entrySize, length_append, length_encode, length_singleton]
      omega
  rw [entriesFrom, getHelloAddressSize_append h]
  · dsimp only
    rw [hname, haddress, hexpiration, drop_left' hlength]
  · exact hne

theorem entriesFrom_flatMap {entries : List Entry} (h : ∀ entry ∈ entries, Proper entry)
    {fuel : ℕ} (hfuel : entries.length ≤ fuel) :
    entriesFrom fuel (entries.flatMap encodeEntry) = entries := by
  induction entries generalizing fuel with
  | nil => cases fuel <;> rfl
  | cons entry rest ih =>
    rw [forall_mem_cons] at h
    cases fuel with
    | zero => exact absurd hfuel (Nat.not_succ_le_zero _)
    | succ fuel =>
      rw [flatMap_cons, entriesFrom_append h.1, ih h.2 (Nat.le_of_succ_le_succ hfuel)]

theorem decode_take_lt (bytes : List UInt8) (width : ℕ) :
    decode (bytes.take width) < 256 ^ width := by
  calc decode (bytes.take width) < 256 ^ (bytes.take width).length := decode_lt _
    _ ≤ 256 ^ width := Nat.pow_le_pow_right (by decide) (length_take_le width bytes)

theorem alen_lt {buf : List UInt8} {sizes : ℕ × ℕ} (h : getHelloAddressSize buf = some sizes) :
    sizes.2 < 2 ^ 16 := by
  obtain ⟨⟨_, _⟩, -, hrest⟩ := Option.bind_eq_some_iff.mp h
  dsimp only at hrest
  split_ifs at hrest
  cases hrest
  exact decode_take_lt _ 2

theorem proper_of_mem {fuel : ℕ} {inptr : List UInt8} (h : entry ∈ entriesFrom fuel inptr) :
    Proper entry := by
  induction fuel generalizing inptr with
  | zero => exact absurd h not_mem_nil
  | succ fuel ih =>
    cases inptr with
    | nil => exact absurd h not_mem_nil
    | cons byte bytes =>
      rw [entriesFrom] at h
      · cases hsize : getHelloAddressSize (byte :: bytes) with
        | none =>
          rw [hsize] at h
          exact absurd h not_mem_nil
        | some sizes =>
          rw [hsize] at h
          cases mem_cons.mp h with
          | inr hrest => exact ih hrest
          | inl heq =>
            subst heq
            constructor
            · intro hzero
              have htest := mem_takeWhile_imp hzero
              exact of_decide_eq_true htest rfl
            · exact (length_take_le _ _).trans_lt (alen_lt hsize)
            · exact decode_take_lt _ 8
      · exact fun hnil ↦ cons_ne_nil _ _ hnil

theorem length_flatMap (entries : List Entry) :
    (entries.flatMap encodeEntry).length = (entries.map fun entry ↦ entrySize entry.1).sum := by
  induction entries with
  | nil => rfl
  | cons entry rest ih =>
    rw [flatMap_cons, length_append, length_encodeEntry, ih]
    rfl

theorem length_le_flatMap (entries : List Entry) :
    entries.length ≤ (entries.flatMap encodeEntry).length := by
  induction entries with
  | nil => exact Nat.zero_le _
  | cons entry rest ih =>
    rw [flatMap_cons, length_append, length_encodeEntry, length_cons, entrySize]
    omega

/-- The body of the message has the entries in their packed form, and nothing else. -/
structure Packs (hello : HelloMessage K) (entries : List Entry) : Prop where
  type : hello.type = typeHello
  proper : ∀ entry ∈ entries, Proper entry
  body : hello.body = entries.flatMap encodeEntry

theorem Packs.addressesOf_eq {entries : List Entry} (h : Packs hello entries) :
    addressesOf hello = entries := by
  rw [Hello.addressesOf_eq, entriesOf, if_neg (not_not.mpr h.type), h.body]
  exact entriesFrom_flatMap h.proper (length_le_flatMap entries)

theorem proper_addressesOf (h : entry ∈ addressesOf hello) : Proper entry := by
  rw [addressesOf_eq, entriesOf] at h
  split_ifs at h
  · exact absurd h not_mem_nil
  · exact proper_of_mem h

end Format

section Passes

theorem visit_copyLatest {other : HelloMessage K} {takeEqual : Bool} {max : ℕ}
    (entries : List Entry) (buf : List UInt8)
    (hroom : buf.length + ((entries.filter (isLatest (addressesOf other) takeEqual)).map
      fun entry ↦ entrySize entry.1).sum ≤ max) :
    visit (copyLatest other takeEqual max) entries buf =
      buf ++ (entries.filter (isLatest (addressesOf other) takeEqual)).flatMap encodeEntry := by
  induction entries generalizing buf with
  | nil => exact (append_nil buf).symm
  | cons entry rest ih =>
    have hcopies : copyLatest other takeEqual max buf entry.1 entry.2 =
        (if isLatest (addressesOf other) takeEqual entry then
          buf ++ addAddress entry.1 entry.2 (max - buf.length) else buf, .ok) := by
      rw [copyLatest, iterateAddresses_eq, visit_getMatchExp, isLatest]
      cases valueOf (addressesOf other) entry.1 with
      | none => rfl
      | some old => rfl
    rw [visit, hcopies]
    by_cases hlatest : isLatest (addressesOf other) takeEqual entry = true
    · rw [filter_cons_of_pos hlatest, map_cons, sum_cons] at hroom
      have hadd : addAddress entry.1 entry.2 (max - buf.length) = encodeEntry entry := by
        apply if_neg
        unfold entrySize at hroom
        omega
      rw [if_pos hlatest, hadd, filter_cons_of_pos hlatest, flatMap_cons, ← append_assoc]
      apply ih
      rw [length_append, length_encodeEntry]
      omega
    · rw [filter_cons_of_neg hlatest] at hroom ⊢
      rw [if_neg hlatest]
      exact ih buf hroom

theorem mergeAddr_eq {max : ℕ} (hroom : ((latest (addressesOf h1) (addressesOf h2)).map
      fun entry ↦ entrySize entry.1).sum ≤ max) :
    mergeAddr (some (h1, h2)) max =
      ((latest (addressesOf h1) (addressesOf h2)).flatMap encodeEntry, none) := by
  rw [latest, map_append, sum_append] at hroom
  have hfirst : (iterateAddresses h1 false (copyLatest h2 false max) []).1 =
      ((addressesOf h1).filter (isLatest (addressesOf h2) false)).flatMap encodeEntry := by
    rw [iterateAddresses_eq, visit_copyLatest]
    · exact nil_append _
    · rw [length_nil]
      omega
  rw [mergeAddr, hfirst, iterateAddresses_eq, visit_copyLatest, latest, flatMap_append]
  rw [length_flatMap]
  exact hroom

end Passes

def ListsOnce (hello : HelloMessage K) : Prop := ((addressesOf hello).map Prod.fst).Nodup

def addressSet (hello : HelloMessage K) : Finset Address :=
  ((addressesOf hello).map Prod.fst).toFinset

def roomFor (addresses : Finset Address) : ℕ := ∑ address ∈ addresses, entrySize address

theorem roomFor_mono {s s' : Finset Address} (h : s ⊆ s') : roomFor s ≤ roomFor s' :=
  Finset.sum_le_sum_of_subset h

theorem mem_addressSet {address : Address} :
    address ∈ addressSet hello ↔ address ∈ (addressesOf hello).map Prod.fst := mem_toFinset

section

variable (h1once : ListsOnce h1) (h2once : ListsOnce h2)
include h1once h2once

theorem sum_entrySize_latest :
    ((latest (addressesOf h1) (addressesOf h2)).map fun entry ↦ entrySize entry.1).sum =
      roomFor (addressSet h1 ∪ addressSet h2) := by
  have hkeys : ((latest (addressesOf h1) (addressesOf h2)).map Prod.fst).toFinset =
      addressSet h1 ∪ addressSet h2 := by
    ext address
    rw [mem_toFinset, Finset.mem_union, mem_addressSet, mem_addressSet]
    exact mem_keys_latest h1once h2once
  rw [← hkeys, roomFor, sum_toFinset _ (nodup_latest h1once h2once), map_map]
  rfl

theorem merge_eq (hroom : roomFor (addressSet h1 ∪ addressSet h2) ≤ bufferSize) :
    ∃ merged, merge h1 h2 = some merged ∧ merged.publicKey = h1.publicKey ∧
      Packs merged (addressesOf merged) ∧
      addressesOf merged = latest (addressesOf h1) (addressesOf h2) := by
  rw [← sum_entrySize_latest h1once h2once] at hroom
  set entries := latest (addressesOf h1) (addressesOf h2)
  have hused : generate mergeAddr (bufferSize + 1) (some (h1, h2)) bufferSize [] =
      entries.flatMap encodeEntry := by
    -- the generator is called twice, and the second time it gives nothing
    rw [generate, mergeAddr_eq hroom]
    cases entries.flatMap encodeEntry with
    | nil => rfl
    | cons byte bytes => rfl
  have hsize : messageSize + (entries.flatMap encodeEntry).length < 2 ^ 16 := by
    rw [length_flatMap]
    calc messageSize + (entries.map fun entry ↦ entrySize entry.1).sum
        ≤ messageSize + bufferSize := Nat.add_le_add_left hroom _
      _ < 2 ^ 16 := by decide
  have hproper : ∀ entry ∈ entries, Proper entry := by
    intro entry hentry
    cases mem_latest.mp hentry with
    | inl hfirst => exact proper_addressesOf hfirst.1
    | inr hsecond => exact proper_addressesOf hsecond.1
  let merged : HelloMessage K :=
    { type := typeHello, publicKey := h1.publicKey, body := entries.flatMap encodeEntry
      size_lt := hsize }
  have hpacks : Packs merged entries := ⟨rfl, hproper, rfl⟩
  have haddresses := hpacks.addressesOf_eq
  refine ⟨merged, ?_, rfl, haddresses.symm ▸ hpacks, haddresses⟩
  rw [merge, create]
  simp only [hused]
  exact dif_pos hsize

theorem listsOnce_of_eq
    (heq : addressesOf hello = latest (addressesOf h1) (addressesOf h2)) : ListsOnce hello := by
  rw [ListsOnce, heq]
  exact nodup_latest h1once h2once

theorem addressSet_of_eq (heq : addressesOf hello = latest (addressesOf h1) (addressesOf h2)) :
    addressSet hello = addressSet h1 ∪ addressSet h2 := by
  ext address
  rw [mem_addressSet, heq, Finset.mem_union, mem_addressSet, mem_addressSet]
  exact mem_keys_latest h1once h2once

end

/-- The message has each address of the two messages once, with the larger expiration. -/
structure Union (h1 h2 merged : HelloMessage K) : Prop where
  publicKey : merged.publicKey = h1.publicKey
  packs : Packs merged (addressesOf merged)
  once : ListsOnce merged
  addresses : addressSet merged = addressSet h1 ∪ addressSet h2
  expiration : ∀ address, valueOf (addressesOf merged) address =
    Option.merge max (valueOf (addressesOf h1) address) (valueOf (addressesOf h2) address)

/-- Merging gives the union of the addresses, with the larger expirations. Up to the order it is
commutative, idempotent and associative. The addresses are those packed in the body. -/
theorem merge_union (hkey : h1.publicKey = h2.publicKey)
    (h1once : ListsOnce h1) (h2once : ListsOnce h2) (h3once : ListsOnce h3)
    (hroom : roomFor (addressSet h1 ∪ addressSet h2 ∪ addressSet h3) ≤ bufferSize) :
    (∀ (hello : HelloMessage K) (entries : List Entry), Packs hello entries →
      addressesOf hello = entries) ∧
    ∃ m12 m21 m11 m23 left right, merge h1 h2 = some m12 ∧ merge h2 h1 = some m21 ∧
      merge h1 h1 = some m11 ∧ merge h2 h3 = some m23 ∧
      merge m12 h3 = some left ∧ merge h1 m23 = some right ∧
      Union h1 h2 m12 ∧
      (m12.publicKey = m21.publicKey ∧ (addressesOf m12).Perm (addressesOf m21)) ∧
      (m11.publicKey = h1.publicKey ∧ (addressesOf m11).Perm (addressesOf h1)) ∧
      left.publicKey = right.publicKey ∧ (addressesOf left).Perm (addressesOf right) := by
  have hfits {s : Finset Address} (hs : s ⊆ addressSet h1 ∪ addressSet h2 ∪ addressSet h3) :
      roomFor s ≤ bufferSize := (roomFor_mono hs).trans hroom
  obtain ⟨m12, hm12, hkey12, hpacks12, heq12⟩ := merge_eq h1once h2once (hfits (by grind))
  obtain ⟨m21, hm21, hkey21, -, heq21⟩ := merge_eq h2once h1once (hfits (by grind))
  obtain ⟨m11, hm11, hkey11, -, heq11⟩ := merge_eq h1once h1once (hfits (by grind))
  obtain ⟨m23, hm23, -, -, heq23⟩ := merge_eq h2once h3once (hfits (by grind))
  have honce12 := listsOnce_of_eq h1once h2once heq12
  have honce23 := listsOnce_of_eq h2once h3once heq23
  have hset12 := addressSet_of_eq h1once h2once heq12
  have hset23 := addressSet_of_eq h2once h3once heq23
  obtain ⟨left, hleft, hkeyLeft, -, heqLeft⟩ :=
    merge_eq honce12 h3once (hfits (by rw [hset12]))
  obtain ⟨right, hright, hkeyRight, -, heqRight⟩ :=
    merge_eq h1once honce23 (hfits (by rw [hset23, Finset.union_assoc]))
  refine ⟨fun _ _ ↦ Packs.addressesOf_eq, m12, m21, m11, m23, left, right, hm12, hm21, hm11, hm23,
    hleft, hright, ⟨hkey12, hpacks12, honce12, hset12, ?_⟩, ⟨?_, ?_⟩, ⟨hkey11, ?_⟩, ?_, ?_⟩
  · intro address
    rw [heq12]
    exact valueOf_latest h1once h2once address
  · rw [hkey12, hkey21, hkey]
  · rw [heq12, heq21]
    exact latest_comm h1once h2once
  · rw [heq11]
    exact latest_self h1once
  · rw [hkeyLeft, hkeyRight, hkey12]
  · rw [heqLeft, heqRight, heq12, heq23]
    exact latest_assoc h1once h2once h3once

/-- Two messages with a common address, which is newer in the second one, and the empty message. -/
theorem merge_union_small :
    let tcp : Address := { transportName := [116], address := [1, 2] }
    let udp : Address := { transportName := [117], address := [] }
    ∃ h1 h2 h3 : HelloMessage Unit, addressesOf h1 = [(tcp, 5), (udp, 7)] ∧
      addressesOf h2 = [(tcp, 9)] ∧ addressesOf h3 = [] ∧
      ∃ m12 m21 m11 m23 left right, merge h1 h2 = some m12 ∧ merge h2 h1 = some m21 ∧
        merge h1 h1 = some m11 ∧ merge h2 h3 = some m23 ∧
        merge m12 h3 = some left ∧ merge h1 m23 = some right ∧
        Union h1 h2 m12 ∧
        (m12.publicKey = m21.publicKey ∧ (addressesOf m12).Perm (addressesOf m21)) ∧
        (m11.publicKey = h1.publicKey ∧ (addressesOf m11).Perm (addressesOf h1)) ∧
        left.publicKey = right.publicKey ∧ (addressesOf left).Perm (addressesOf right) := by
  intro tcp udp
  let h1 : HelloMessage Unit :=
    { type := typeHello, publicKey := (), body := encodeEntry (tcp, 5) ++ encodeEntry (udp, 7)
      size_lt := by decide }
  let h2 : HelloMessage Unit :=
    { type := typeHello, publicKey := (), body := encodeEntry (tcp, 9), size_lt := by decide }
  let h3 : HelloMessage Unit :=
    { type := typeHello, publicKey := (), body := [], size_lt := by decide }
  have h1addresses : addressesOf h1 = [(tcp, 5), (udp, 7)] := by decide
  have h2addresses : addressesOf h2 = [(tcp, 9)] := by decide
  have h3addresses : addressesOf h3 = [] := by decide
  have h1once : ListsOnce h1 := by
    rw [ListsOnce]
    decide
  have h2once : ListsOnce h2 := by
    rw [ListsOnce]
    decide
  have h3once : ListsOnce h3 := by
    rw [ListsOnce]
    decide
  have hroom : roomFor (addressSet h1 ∪ addressSet h2 ∪ addressSet h3) ≤ bufferSize := by decide
  have hkey : h1.publicKey = h2.publicKey := rfl
  obtain ⟨-, hmerge⟩ := merge_union hkey h1once h2once h3once hroom
  exact ⟨h1, h2, h3, h1addresses, h2addresses, h3addresses, hmerge⟩

end Gnunet.Hello
