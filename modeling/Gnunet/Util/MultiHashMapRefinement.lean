import Gnunet.Lib.Runs
import Gnunet.Util.ContainerMultiHashMap

/-!
# Hash maps refine multisets of pairs

What a hash map is for: it is a multiset of pairs of a key and a value.  `Allows` says for each
operation which results it may have on such a multiset and what it makes of it.  Every operation of
the hash map is one that the multiset of its pairs allows, and keeps each entry in the bucket of its
key.
-/

namespace Gnunet.Util.ContainerMultiHashMap

open Lib.Buckets Lib.Runs Function Multiset UInt32 Nat
open Option hiding filter filter_map map map_coe
open MapEntry ContainerMultiHashMap

/-! ## Multisets of pairs -/

inductive Operation (Q K V σ : Type*) where
  | put (key : Q) (value : V) (opt : PutOption)
  | remove (key : K) (value : V)
  | removeAll (key : K)
  | get (key : K)
  | contains (key : K)
  | containsValue (key : K) (value : V)
  | getMultiple (key : K) (it : Option (σ → K → V → σ × Bool)) (itCls : σ)
  | iterate (it : Option (σ → K → V → σ × Bool)) (itCls : σ)
  | size

inductive Result (V σ : Type*) where
  | status (status : Status)
  | number (number : ℕ)
  | value (value : V)
  | truth (truth : Bool)
  | visited (visited : σ × Option ℕ)

section Abstract

variable {K V σ : Type*} [DecidableEq K] [DecidableEq V]

def HasKey (pairs : Multiset (K × V)) (key : K) : Prop := ∃ value, (key, value) ∈ pairs

/-- The results an operation on a multiset of pairs may have. Which value of a key is returned or
replaced, and the order of an iteration, are left open. -/
def Allows (null : V) (pairs : Multiset (K × V)) :
    Operation K K V σ → Result V σ → Multiset (K × V) → Prop
  | .put key value opt, result, next =>
    (opt = .uniqueOnly ∧ HasKey pairs key ∧ result = .status .syserr ∧ next = pairs) ∨
    (opt = .replace ∧ result = .status .no ∧
      ∃ old, (key, old) ∈ pairs ∧ next = (key, value) ::ₘ pairs.erase (key, old)) ∨
    ((opt = .multiple ∨ opt = .uniqueFast ∨ ¬ HasKey pairs key) ∧
      result = .status .ok ∧ next = (key, value) ::ₘ pairs)
  | .remove key value, result, next =>
    result = .status (if (key, value) ∈ pairs then .ok else .no) ∧
      next = pairs.erase (key, value)
  | .removeAll key, result, next =>
    result = .number (pairs.countP fun pair ↦ pair.1 = key) ∧
      next = pairs.filter fun pair ↦ pair.1 ≠ key
  | .get key, result, next =>
    next = pairs ∧
      ((∃ value, (key, value) ∈ pairs ∧ result = .value value) ∨
        (¬ HasKey pairs key ∧ result = .value null))
  | .contains key, result, next =>
    next = pairs ∧ ∃ truth, result = .truth truth ∧ (truth = true ↔ HasKey pairs key)
  | .containsValue key value, result, next =>
    next = pairs ∧ result = .truth ((key, value) ∈ pairs)
  | .getMultiple key it itCls, result, next =>
    next = pairs ∧ ∃ order : List (K × V),
      (order : Multiset (K × V)) = pairs.filter (fun pair ↦ pair.1 = key) ∧
        result = .visited (visit it itCls 0 order)
  | .iterate it itCls, result, next =>
    next = pairs ∧ ∃ order : List (K × V), (order : Multiset (K × V)) = pairs ∧
      result = .visited (visit it itCls 0 order)
  | .size, result, next => next = pairs ∧ result = .number pairs.card

inductive History (null : V) : List (Operation K K V σ × Result V σ) → Multiset (K × V) → Prop
  | nil : History null [] 0
  | step {log : List (Operation K K V σ × Result V σ)} {pairs next : Multiset (K × V)}
      {operation : Operation K K V σ} {result : Result V σ} (h : History null log pairs)
      (hallows : Allows null pairs operation result next) :
      History null (log ++ [(operation, result)]) next

end Abstract

/-! ## The pairs of a hash map -/

section Refinement

variable {P K V σ : Type*} {word : K → UInt32} {memory : P → K} {map : MultiHashMap P K V}

def entries (map : MultiHashMap P K V) : Multiset (MapEntry P K V) :=
  contents map.mapLength.toNat map.map

def pairs (memory : P → K) (map : MultiHashMap P K V) : Multiset (K × V) :=
  (entries map).map (pair memory)

structure Valid (word : K → UInt32) (memory : P → K) (map : MultiHashMap P K V) : Prop where
  placed : Placed (fun entry ↦ idxOf word map.mapLength (entry.key.read memory))
    map.mapLength.toNat map.map
  size_eq : map.size.toNat = (entries map).card
  size_le : map.size.toNat ≤ map.mapLength.toNat

theorem idxOf_lt (map : MultiHashMap P K V) (key : K) :
    idxOf word map.mapLength key < map.mapLength.toNat := by
  exact mod_lt _ map.length_pos

theorem Valid.of_memory {memory' : P → K} (h : Valid word memory map)
    (hkept : ∀ entry ∈ entries map, entry.key.read memory' = entry.key.read memory) :
    Valid word memory' map ∧ pairs memory' map = pairs memory map := by
  refine ⟨⟨fun i hi entry hentry ↦ ?_, h.size_eq, h.size_le⟩, ?_⟩
  · have hread := hkept entry (mem_contents.mpr ⟨i, hi, hentry⟩)
    change idxOf word map.mapLength (entry.key.read memory') = i
    rw [hread]
    exact h.placed i hi entry hentry
  · apply map_congr rfl
    intro entry hentry
    rw [MapEntry.pair, hkept entry hentry, MapEntry.pair]

section Keys

variable [DecidableEq K] {key : K}

variable {entry : MapEntry P K V} {value : V}

theorem hasKey_iff : entry.hasKey memory key = true ↔ (entry.pair memory).1 = key := by
  rw [hasKey, decide_eq_true_eq]
  rfl

def chain (word : K → UInt32) (memory : P → K) (map : MultiHashMap P K V) (key : K) :
    List (K × V) :=
  ((map.map (idxOf word map.mapLength key)).filter (hasKey memory key)).map
    (pair memory)

section

variable (h : Valid word memory map)
include h

theorem Valid.filter_entries (key : K) :
    (entries map).filter (fun entry ↦ (entry.pair memory).1 = key) =
      ((map.map (idxOf word map.mapLength key)).filter (hasKey memory key) :
        List (MapEntry P K V)) :=
  h.placed.filter_contents (idxOf_lt map key) fun entry hentry ↦ by rw [← hentry]; rfl

theorem Valid.chain_eq (key : K) :
    (chain word memory map key : Multiset (K × V)) =
      (pairs memory map).filter fun pair ↦ pair.1 = key := by
  rw [pairs, filter_map]
  change _ = Multiset.map _ ((entries map).filter fun entry ↦ (entry.pair memory).1 = key)
  rw [h.filter_entries key]
  rfl

theorem Valid.mem_chain :
    (key, value) ∈ chain word memory map key ↔ (key, value) ∈ pairs memory map := by
  rw [← mem_coe, h.chain_eq, mem_filter]
  exact and_iff_left rfl

omit h in
theorem pair_mem_chain (hmem : entry ∈ map.map (idxOf word map.mapLength key))
    (hkey : entry.hasKey memory key = true) : (key, entry.value) ∈ chain word memory map key := by
  have hpair : entry.pair memory = (key, entry.value) := by
    rw [← hasKey_iff.mp hkey]
    rfl
  rw [← hpair]
  exact List.mem_map_of_mem (List.mem_filter.mpr ⟨hmem, hkey⟩)

omit h in
theorem mem_chain_iff :
    (key, value) ∈ chain word memory map key ↔
      ∃ entry ∈ map.map (idxOf word map.mapLength key),
        entry.hasKey memory key = true ∧ entry.value = value := by
  constructor
  · intro h
    obtain ⟨entry, hentry, hpair⟩ := List.mem_map.mp h
    obtain ⟨hmem, hkey⟩ := List.mem_filter.mp hentry
    exact ⟨entry, hmem, hkey, congrArg Prod.snd hpair⟩
  · rintro ⟨entry, hmem, hkey, rfl⟩
    exact pair_mem_chain hmem hkey

theorem Valid.any_hasKey :
    (map.map (idxOf word map.mapLength key)).any (hasKey memory key) = true ↔
      HasKey (pairs memory map) key := by
  simp only [HasKey, ← h.mem_chain, mem_chain_iff]
  grind

theorem Valid.any_hasKey_value [DecidableEq V] :
    (map.map (idxOf word map.mapLength key)).any
        (fun entry ↦ entry.hasKey memory key && entry.value = value) = true ↔
      (key, value) ∈ pairs memory map := by
  simp only [← h.mem_chain, mem_chain_iff, List.any_eq_true, Bool.and_eq_true, decide_eq_true_eq]

/-! ## Lookups -/

theorem Valid.get {null : V} (key : K) :
    (key, multihashmapGet word memory null map key) ∈ pairs memory map ∨
      ¬ HasKey (pairs memory map) key ∧ multihashmapGet word memory null map key = null := by
  rw [multihashmapGet]
  cases hfind : (map.map (idxOf word map.mapLength key)).find? (hasKey memory key) with
  | none =>
    refine .inr ⟨?_, rfl⟩
    rw [← h.any_hasKey, List.any_eq_true]
    rintro ⟨entry, hmem, hkey⟩
    exact List.find?_eq_none.mp hfind entry hmem hkey
  | some entry =>
    refine .inl (h.mem_chain.mp ?_)
    exact pair_mem_chain (List.mem_of_find?_eq_some hfind) (List.find?_some hfind)

/-! ## Removals -/

variable [DecidableEq V] {null : V}

omit h in
omit [DecidableEq K] [DecidableEq V] in
theorem toNat_sub_ofNat (size : UInt32) {n : ℕ} (h : n ≤ size.toNat) :
    (size - UInt32.ofNat n).toNat = size.toNat - n := by
  have hlt : n < 2 ^ 32 := h.trans_lt (toNat_lt size)
  have hn : (ofNat n).toNat = n := toNat_ofNat_of_lt' hlt
  rw [UInt32.toNat_sub_of_le _ _ (by rw [UInt32.le_iff_toNat_le, hn]; exact h), hn]

omit [DecidableEq K] [DecidableEq V] in
theorem Valid.shrink {i : ℕ} (hi : i < map.mapLength.toNat)
    {removed kept : List (MapEntry P K V)} (hsplit : (map.map i).Perm (removed ++ kept)) :
    let next : MultiHashMap P K V := { map with
      map := update map.map i kept
      size := map.size - UInt32.ofNat removed.length }
    (removed : Multiset (MapEntry P K V)) + entries next = entries map ∧
      Valid word memory next := by
  intro next
  have hentries : (removed : Multiset (MapEntry P K V)) + entries next = entries map :=
    (add_contents_update hi ((coe_eq_coe.mpr hsplit.symm).trans (zero_add _).symm)).trans
      (zero_add _)
  have hcard := congrArg card hentries
  rw [card_add, ← h.size_eq] at hcard
  have hsub := toNat_sub_ofNat map.size (le.intro hcard)
  refine ⟨hentries, ?_, hsub.trans (Nat.sub_eq_of_eq_add' hcard.symm),
    hsub.le.trans ((sub_le _ _).trans h.size_le)⟩
  refine h.placed.update fun entry hentry ↦ h.placed i hi entry ?_
  exact hsplit.mem_iff.mpr (List.mem_append_right _ hentry)

theorem Valid.remove (key : K) (value : V) :
    let removed := multihashmapRemove word memory map key value
    (removed.1 = if (key, value) ∈ pairs memory map then .ok else .no) ∧
      pairs memory removed.2 = (pairs memory map).erase (key, value) ∧
      Valid word memory removed.2 := by
  unfold multihashmapRemove
  by_cases hany : (map.map (idxOf word map.mapLength key)).any
      (fun entry ↦ entry.hasKey memory key && entry.value = value) = true
  · rw [if_pos hany]
    have hmem := h.any_hasKey_value.mp hany
    obtain ⟨_, hfound, htest⟩ := List.any_eq_true.mp hany
    obtain ⟨entry, before, after, -, hentry, hbucket, herase⟩ :=
      List.exists_of_eraseP (p := fun entry ↦ entry.hasKey memory key && entry.value = value)
        hfound htest
    rw [Bool.and_eq_true, decide_eq_true_eq, hasKey_iff] at hentry
    have hpair : entry.pair memory = (key, value) := Prod.ext hentry.1 hentry.2
    have hsplit : (map.map (idxOf word map.mapLength key)).Perm ([entry] ++ (before ++ after)) := by
      rw [hbucket]
      exact List.perm_middle
    obtain ⟨hentries, hvalid⟩ := h.shrink (idxOf_lt map key) hsplit
    have hpairs := congrArg (Multiset.map (pair memory)) hentries
    rw [coe_singleton, singleton_add, map_cons, hpair] at hpairs
    rw [herase]
    refine ⟨by rw [if_pos hmem], ?_, hvalid⟩
    change _ = Multiset.erase (Multiset.map _ (entries map)) _
    rw [← hpairs, erase_cons_head]
    rfl
  · rw [if_neg hany]
    have hmem : (key, value) ∉ pairs memory map := fun hmem ↦ hany (h.any_hasKey_value.mpr hmem)
    exact ⟨by rw [if_neg hmem], (erase_of_notMem hmem).symm, h⟩

theorem Valid.removeAll (key : K) :
    Allows (σ := σ) null (pairs memory map) (.removeAll key)
        (.number (multihashmapRemoveAll word memory map key).1)
        (pairs memory (multihashmapRemoveAll word memory map key).2) ∧
      Valid word memory (multihashmapRemoveAll word memory map key).2 := by
  have hret : (map.map (idxOf word map.mapLength key)).countP (hasKey memory key) =
      (pairs memory map).countP fun pair ↦ pair.1 = key := by
    rw [countP_eq_card_filter, ← h.chain_eq, coe_card, chain, List.length_map,
      List.countP_eq_length_filter]
  -- the bucket falls apart into the entries that are removed and those that are kept
  obtain ⟨hentries, hvalid⟩ :=
    h.shrink (idxOf_lt map key) (List.filter_append_perm (hasKey memory key) _).symm
  rw [← h.filter_entries key] at hentries
  have hrest := add_left_cancel (hentries.trans (filter_add_not _ _).symm)
  unfold multihashmapRemoveAll
  dsimp only
  rw [List.countP_eq_length_filter] at hret ⊢
  refine ⟨⟨congrArg _ hret, ?_⟩, hvalid⟩
  rw [pairs, hrest, pairs, filter_map]
  rfl

/-! ## Storing a pair -/

omit h in
omit [DecidableEq V] in
theorem cons_replaceValue {bucket : List (MapEntry P K V)} (value : V)
    (hany : bucket.any (hasKey memory key) = true) :
    ∃ entry ∈ bucket, entry.hasKey memory key = true ∧
      entry ::ₘ (replaceValue memory key value bucket : Multiset (MapEntry P K V)) =
        { entry with value := value } ::ₘ (bucket : Multiset (MapEntry P K V)) := by
  induction bucket with
  | nil => cases hany
  | cons entry rest ih =>
    rw [replaceValue]
    by_cases hkey : entry.hasKey memory key = true
    · refine ⟨entry, List.mem_cons_self, hkey, ?_⟩
      rw [if_pos hkey, ← cons_coe, ← cons_coe, cons_swap]
    · rw [List.any_cons, Bool.or_eq_true] at hany
      obtain ⟨found, hmem, hfound, hcons⟩ := ih (hany.resolve_left hkey)
      refine ⟨found, List.mem_cons_of_mem _ hmem, hfound, ?_⟩
      rw [if_neg hkey, ← cons_coe, ← cons_coe, cons_swap, hcons, cons_swap]

omit h in
omit [DecidableEq V] in
theorem mem_replaceValue {bucket : List (MapEntry P K V)}
    (h : entry ∈ replaceValue memory key value bucket) :
    ∃ old ∈ bucket, old.key = entry.key := by
  induction bucket with
  | nil => cases h
  | cons first rest ih =>
    rw [replaceValue] at h
    split_ifs at h
    · rcases List.mem_cons.mp h with rfl | hrest
      · exact ⟨first, List.mem_cons_self, rfl⟩
      · exact ⟨entry, List.mem_cons_of_mem _ hrest, rfl⟩
    · rcases List.mem_cons.mp h with rfl | hrest
      · exact ⟨entry, List.mem_cons_self, rfl⟩
      · exact List.exists_mem_cons_of_exists (ih hrest)

theorem Valid.replace (value : V)
    (hany : (map.map (idxOf word map.mapLength key)).any (hasKey memory key) = true) :
    let next : MultiHashMap P K V := { map with
      map := update map.map (idxOf word map.mapLength key)
        (replaceValue memory key value (map.map (idxOf word map.mapLength key))) }
    (∃ old, (key, old) ∈ pairs memory map ∧
      pairs memory next = (key, value) ::ₘ (pairs memory map).erase (key, old)) ∧
    Valid word memory next := by
  intro next
  have hi : idxOf word map.mapLength key < map.mapLength.toNat := idxOf_lt map key
  obtain ⟨entry, hmem, hkey, hcons⟩ := cons_replaceValue value hany
  have hentries : entry ::ₘ entries next = { entry with value := value } ::ₘ entries map := by
    rw [← singleton_add, ← singleton_add] at hcons ⊢
    exact add_contents_update hi hcons
  have hpairs := congrArg (Multiset.map (pair memory)) hentries
  have hpair : entry.pair memory = (key, entry.value) := Prod.ext (hasKey_iff.mp hkey) rfl
  have hnew : pair memory { entry with value := value } = (key, value) :=
    Prod.ext (hasKey_iff.mp hkey) rfl
  have hold : (key, entry.value) ∈ pairs memory map :=
    h.mem_chain.mp (pair_mem_chain hmem hkey)
  rw [map_cons, map_cons, hpair, hnew] at hpairs
  refine ⟨⟨entry.value, hold, ?_⟩, ?_, ?_, h.size_le⟩
  · change (key, entry.value) ::ₘ pairs memory next = (key, value) ::ₘ pairs memory map at hpairs
    rw [← cons_erase hold, cons_swap] at hpairs
    exact (cons_inj_right _).mp hpairs
  · refine h.placed.update fun other hother ↦ ?_
    obtain ⟨old, holdMem, holdKey⟩ := mem_replaceValue hother
    rw [← holdKey]
    exact h.placed _ hi old holdMem
  · have hcard := congrArg card hentries
    rw [card_cons, card_cons] at hcard
    exact h.size_eq.trans (succ.inj hcard).symm

end

end Keys

theorem Valid.grow (h : Valid word memory map)
    (hroom : 16 * map.mapLength.toNat ≤ maxMallocChecked) :
    ∃ next, grow word memory map = some next ∧ entries next = entries map ∧
      next.useSmallEntries = map.useSmallEntries ∧ next.size.toNat < next.mapLength.toNat ∧
      Valid word memory next := by
  have hdouble := map.toNat_double
  have hle := h.size_le
  have hpos := map.length_pos
  have hfit : 8 * (map.mapLength * 2).toNat ≤ maxMallocChecked := by omega
  let index (entry : MapEntry P K V) : ℕ :=
    idxOf word (map.mapLength * 2) (entry.key.read memory)
  have hindex (entry : MapEntry P K V) : index entry < (map.mapLength * 2).toNat := by
    change (_ % _ : UInt32).toNat < _
    rw [UInt32.toNat_mod]
    exact mod_lt _ (by omega)
  have hmoved : (List.range map.mapLength.toNat).foldl
      (fun newMap i ↦ (map.map i).foldl (push index) newMap) (fun _ ↦ []) =
      ((List.range map.mapLength.toNat).flatMap map.map).foldl (push index) fun _ ↦ [] :=
    List.foldl_flatMap.symm
  have hentries : contents (map.mapLength * 2).toNat
      ((List.range map.mapLength.toNat).foldl
        (fun newMap i ↦ (map.map i).foldl (push index) newMap) fun _ ↦ []) = entries map := by
    rw [hmoved, contents_foldl_push hindex, contents_nil, zero_add, coe_flatMap_range]
    rfl
  have hlt : map.size.toNat < (map.mapLength * 2).toNat := by omega
  refine ⟨_, dif_pos hfit, hentries, rfl, hlt, ?_, ?_, hlt.le⟩
  · change Placed index (map.mapLength * 2).toNat _
    rw [hmoved]
    exact (placed_nil index _).foldl_push _
  · exact h.size_eq.trans (congrArg card hentries).symm

theorem entries_insertEntry (map : MultiHashMap P K V) (key : P) (value : V) :
    entries (insertEntry word memory map key value) =
      ⟨if map.useSmallEntries then .small key else .big (memory key), value⟩ ::ₘ entries map := by
  let index (entry : MapEntry P K V) : ℕ := idxOf word map.mapLength (entry.key.read memory)
  have hindex (entry : MapEntry P K V) : index entry < map.mapLength.toNat := idxOf_lt map _
  exact contents_push hindex _

theorem Valid.insertEntry (h : Valid word memory map)
    (hlt : map.size.toNat < map.mapLength.toNat) (key : P) (value : V) :
    pairs memory (insertEntry word memory map key value) =
        (memory key, value) ::ₘ pairs memory map ∧
      Valid word memory (insertEntry word memory map key value) := by
  let entry : MapEntry P K V :=
    ⟨if map.useSmallEntries then .small key else .big (memory key), value⟩
  have hentries : entries (ContainerMultiHashMap.insertEntry word memory map key value) =
      entry ::ₘ entries map := entries_insertEntry map key value
  have hpair : entry.pair memory = (memory key, value) := by
    refine Prod.ext ?_ rfl
    change StoredKey.read memory (if map.useSmallEntries then _ else _) = memory key
    split_ifs
    · rfl
    · rfl
  have hadd : (map.size + 1).toNat = map.size.toNat + 1 := by
    have hbound := toNat_lt map.mapLength
    rw [UInt32.toNat_add]
    exact mod_eq_of_lt (by change _ + 1 < _; omega)
  refine ⟨?_, h.placed.push entry, ?_, ?_⟩
  · rw [pairs, hentries, map_cons, hpair]
    rfl
  · rw [hentries, card_cons, ← h.size_eq]
    exact hadd
  · exact hadd.le.trans hlt

theorem size_lt_of_not_isFull (hnot : ¬ IsFull map) : map.size.toNat < map.mapLength.toNat := by
  have hlt := UInt32.lt_iff_toNat_lt.mp (UInt32.not_le.mp hnot)
  change map.size.toNat / 3 < map.mapLength.toNat / 4 at hlt
  omega

theorem Valid.insert (h : Valid word memory map)
    (hroom : IsFull map → 16 * map.mapLength.toNat ≤ maxMallocChecked) (key : P) (value : V) :
    ∃ next, (if IsFull map then ContainerMultiHashMap.grow word memory map else some map).map
        (fun map ↦ (Status.ok, ContainerMultiHashMap.insertEntry word memory map key value)) =
          some (.ok, next) ∧
      entries next =
        ⟨if map.useSmallEntries then .small key else .big (memory key), value⟩ ::ₘ entries map ∧
      next.useSmallEntries = map.useSmallEntries ∧
      pairs memory next = (memory key, value) ::ₘ pairs memory map ∧ Valid word memory next := by
  by_cases hfull : IsFull map
  · obtain ⟨grown, hgrow, hentries, hsmall, hlt, hvalid⟩ := h.grow (hroom hfull)
    obtain ⟨hpairs, hnext⟩ := hvalid.insertEntry hlt key value
    refine ⟨ContainerMultiHashMap.insertEntry word memory grown key value,
      by rw [if_pos hfull, hgrow, map_some], ?_, hsmall, ?_, hnext⟩
    · rw [entries_insertEntry, hsmall, hentries]
    · rw [hpairs, pairs, hentries, pairs]
  · obtain ⟨hpairs, hnext⟩ := h.insertEntry (size_lt_of_not_isFull hfull) key value
    exact ⟨ContainerMultiHashMap.insertEntry word memory map key value,
      by rw [if_neg hfull, map_some], entries_insertEntry map key value, rfl, hpairs, hnext⟩

section Put

variable [DecidableEq K] [DecidableEq V] {null : V}

def Inserts (word : K → UInt32) (memory : P → K) (map : MultiHashMap P K V) (key : P)
    (opt : PutOption) : Prop :=
  opt = .multiple ∨ opt = .uniqueFast ∨ multihashmapContains word memory map (memory key) = false

omit [DecidableEq V] in
theorem Inserts.put_eq {key : P} {opt : PutOption} (h : Inserts word memory map key opt)
    (value : V) : multihashmapPut word memory map key value opt =
      (if IsFull map then ContainerMultiHashMap.grow word memory map else some map).map fun map ↦
        (.ok, ContainerMultiHashMap.insertEntry word memory map key value) := by
  rw [multihashmapPut]
  unfold Inserts multihashmapContains at h
  grind

theorem Valid.put (h : Valid word memory map) (key : P) (value : V) (opt : PutOption)
    (hroom : Inserts word memory map key opt → IsFull map →
      16 * map.mapLength.toNat ≤ maxMallocChecked) :
    ∃ status next, multihashmapPut word memory map key value opt = some (status, next) ∧
      Allows (σ := σ) null (pairs memory map) (.put (memory key) value opt) (.status status)
        (pairs memory next) ∧
      Valid word memory next := by
  rw [multihashmapPut]
  by_cases hfound : opt ≠ .multiple ∧ opt ≠ .uniqueFast ∧
      (map.map (idxOf word map.mapLength (memory key))).any
        (hasKey memory (memory key)) = true
  · obtain ⟨hmultiple, hfast, hany⟩ := hfound
    rw [if_pos ⟨hmultiple, hfast, hany⟩]
    cases opt with
    | replace =>
      obtain ⟨⟨old, hold, hnext⟩, hvalid⟩ := h.replace value hany
      exact ⟨.no, _, rfl, .inr (.inl ⟨rfl, rfl, old, hold, hnext⟩), hvalid⟩
    | uniqueOnly => exact ⟨.syserr, map, rfl, .inl ⟨rfl, h.any_hasKey.mp hany, rfl, rfl⟩, h⟩
    | multiple => exact absurd rfl hmultiple
    | uniqueFast => exact absurd rfl hfast
  · have hinserts : Inserts word memory map key opt := by
      unfold Inserts multihashmapContains
      grind
    have hopt : opt = .multiple ∨ opt = .uniqueFast ∨ ¬ HasKey (pairs memory map) (memory key) := by
      rw [← h.any_hasKey]
      grind
    obtain ⟨next, hput, -, -, hpairs, hvalid⟩ := h.insert (hroom hinserts) key value
    rw [if_neg hfound]
    exact ⟨.ok, next, hput, .inr (.inr ⟨hopt, rfl, hpairs⟩), hvalid⟩

omit [DecidableEq V] in
theorem put_eq_none {key : P} {value : V} {opt : PutOption}
    (hinserts : Inserts word memory map key opt) (hfull : IsFull map)
    (hlarge : ¬ 16 * map.mapLength.toNat ≤ maxMallocChecked) :
    multihashmapPut word memory map key value opt = none := by
  have hdouble := map.toNat_double
  have hgrow : grow word memory map = none := dif_neg (by omega)
  rw [hinserts.put_eq, if_pos hfull, hgrow, map_none]

omit [DecidableEq V] in
theorem Valid.put_new (h : Valid word memory map) {key : P} (value : V)
    (hnew : ¬HasKey (pairs memory map) (memory key))
    (hroom : IsFull map → 16 * map.mapLength.toNat ≤ maxMallocChecked) :
    ∃ next, multihashmapPut word memory map key value .uniqueOnly = some (.ok, next) ∧
      entries next =
        ⟨if map.useSmallEntries then .small key else .big (memory key), value⟩ ::ₘ entries map ∧
      next.useSmallEntries = map.useSmallEntries ∧ Valid word memory next := by
  have hinserts : Inserts word memory map key .uniqueOnly :=
    .inr (.inr (Bool.eq_false_of_not_eq_true (hnew ∘ h.any_hasKey.mp)))
  rw [hinserts.put_eq]
  obtain ⟨next, hput, hentries, hsmall, -, hvalid⟩ := h.insert hroom key value
  exact ⟨next, hput, hentries, hsmall, hvalid⟩

theorem mem_entries_remove {key : K} {value : V} {entry : MapEntry P K V}
    (h : entry ∈ entries (multihashmapRemove word memory map key value).2) :
    entry ∈ entries map := by
  unfold multihashmapRemove at h
  dsimp only at h
  split_ifs at h
  · obtain ⟨i, hi, hentry⟩ := mem_contents.mp h
    apply mem_contents.mpr
    refine ⟨i, hi, ?_⟩
    by_cases hindex : i = idxOf word map.mapLength key
    · subst hindex
      dsimp only at hentry
      rw [update_self] at hentry
      exact List.mem_of_mem_eraseP hentry
    · dsimp only at hentry
      rwa [update_of_ne hindex] at hentry
  · exact h

theorem useSmallEntries_remove (key : K) (value : V) :
    (multihashmapRemove word memory map key value).2.useSmallEntries = map.useSmallEntries := by
  unfold multihashmapRemove
  dsimp only
  split_ifs
  · rfl
  · rfl

end Put

end Refinement

/-! ## Runs -/

section Runs

variable {P K V σ : Type*} [DecidableEq K] [DecidableEq V]

def Operation.read (memory : P → K) : Operation P K V σ → Operation K K V σ
  | .put key value opt => .put (memory key) value opt
  | .remove key value => .remove key value
  | .removeAll key => .removeAll key
  | .get key => .get key
  | .contains key => .contains key
  | .containsValue key value => .containsValue key value
  | .getMultiple key it itCls => .getMultiple key it itCls
  | .iterate it itCls => .iterate it itCls
  | .size => .size

def perform (word : K → UInt32) (null : V) (memory : P → K) (map : MultiHashMap P K V) :
    Operation P K V σ → Option (Result V σ × MultiHashMap P K V)
  | .put key value opt =>
    (multihashmapPut word memory map key value opt).map fun (status, next) ↦
      (.status status, next)
  | .remove key value =>
    let (status, next) := multihashmapRemove word memory map key value
    some (.status status, next)
  | .removeAll key =>
    let (ret, next) := multihashmapRemoveAll word memory map key
    some (.number ret, next)
  | .get key => some (.value (multihashmapGet word memory null map key), map)
  | .contains key => some (.truth (multihashmapContains word memory map key), map)
  | .containsValue key value =>
    some (.truth (multihashmapContainsValue word memory map key value), map)
  | .getMultiple key it itCls =>
    some (.visited (multihashmapGetMultiple word memory map key it itCls), map)
  | .iterate it itCls => some (.visited (multihashmapIterate memory map it itCls), map)
  | .size => some (.number (multihashmapSize map).toNat, map)

/-- An operation, and what the key pointers point to at that time. -/
structure Call (P K V σ : Type*) where
  memory : P → K
  operation : Operation P K V σ

structure Session (P K V σ : Type*) where
  map : MultiHashMap P K V
  memory : P → K
  log : List (Operation K K V σ × Result V σ)

def step (word : K → UInt32) (null : V) (session : Session P K V σ) (call : Call P K V σ) :
    Option (Session P K V σ) :=
  (perform word null call.memory session.map call.operation).map fun (result, map) ↦
    ⟨map, call.memory, session.log ++ [(call.operation.read call.memory, result)]⟩

/-- The caller has not changed the keys to which entries point. -/
def KeysKept (session : Session P K V σ) (call : Call P K V σ) : Prop :=
  ∀ entry ∈ entries session.map, entry.key.read call.memory = entry.key.read session.memory

/-- A put that inserts into a full map finds room for twice as many buckets. -/
def RoomLeft (word : K → UInt32) (session : Session P K V σ) (call : Call P K V σ) : Prop :=
  match call.operation with
  | .put key _ opt => Inserts word call.memory session.map key opt → IsFull session.map →
      16 * session.map.mapLength.toNat ≤ maxMallocChecked
  | _ => True

variable {word : K → UInt32} {null : V} {memory : P → K} {map : MultiHashMap P K V}

variable {session : Session P K V σ}

theorem Valid.perform {call : Call P K V σ}
    (h : Valid word call.memory session.map) (null : V) (hroom : RoomLeft word session call) :
    ∃ result next, perform word null call.memory session.map call.operation = some (result, next) ∧
      Allows null (pairs call.memory session.map) (call.operation.read call.memory) result
        (pairs call.memory next) ∧
      Valid word call.memory next := by
  obtain ⟨memory, operation⟩ := call
  cases operation with
  | put key value opt =>
    obtain ⟨status, next, hput, hallows, hvalid⟩ := h.put key value opt hroom
    refine ⟨.status status, next, ?_, hallows, hvalid⟩
    rw [ContainerMultiHashMap.perform, hput, map_some]
  | remove key value =>
    obtain ⟨hstatus, hpairs, hvalid⟩ := h.remove key value
    exact ⟨_, _, rfl, ⟨congrArg _ hstatus, hpairs⟩, hvalid⟩
  | removeAll key =>
    obtain ⟨hallows, hvalid⟩ := h.removeAll key
    exact ⟨_, _, rfl, hallows, hvalid⟩
  | get key =>
    refine ⟨_, _, rfl, ⟨rfl, ?_⟩, h⟩
    exact (h.get key).imp (fun hmem ↦ ⟨_, hmem, rfl⟩) (And.imp_right (congrArg _))
  | contains key => exact ⟨_, _, rfl, ⟨rfl, _, rfl, h.any_hasKey⟩, h⟩
  | containsValue key value =>
    refine ⟨_, _, rfl, ⟨rfl, congrArg _ ?_⟩, h⟩
    rw [Bool.eq_iff_iff, decide_eq_true_eq]
    exact h.any_hasKey_value
  | getMultiple key it itCls => exact ⟨_, _, rfl, ⟨rfl, _, h.chain_eq key, rfl⟩, h⟩
  | iterate it itCls =>
    refine ⟨_, _, rfl, ⟨rfl, _, ?_, rfl⟩, h⟩
    rw [← map_coe, coe_flatMap_range]
    rfl
  | size =>
    refine ⟨_, _, rfl, ⟨rfl, congrArg _ ?_⟩, h⟩
    rw [pairs, card_map]
    exact h.size_eq

/-- What holds between the calls: the log is a history of the multiset of pairs. -/
structure Refines (word : K → UInt32) (null : V) (session : Session P K V σ) : Prop where
  history : History null session.log (pairs session.memory session.map)
  valid : Valid word session.memory session.map

theorem Refines.step (h : Refines word null session)
    {call : Call P K V σ} (hkept : KeysKept session call) (hroom : RoomLeft word session call) :
    ∃ next, step word null session call = some next ∧ Refines word null next := by
  obtain ⟨hvalid, hpairs⟩ := h.valid.of_memory hkept
  obtain ⟨result, next, hperform, hallows, hnext⟩ := hvalid.perform null hroom
  have hhistory := h.history
  rw [← hpairs] at hhistory
  refine ⟨⟨next, call.memory, session.log ++ [(call.operation.read call.memory, result)]⟩, ?_,
    hhistory.step hallows, hnext⟩
  rw [ContainerMultiHashMap.step, hperform, map_some]

theorem roomLeft_of_step {next : Session P K V σ} {call : Call P K V σ}
    (h : step word null session call = some next) : RoomLeft word session call := by
  obtain ⟨_, operation⟩ := call
  cases operation with
  | put key value opt =>
    intro hinserts hfull
    by_contra hlarge
    rw [step, perform, put_eq_none hinserts hfull hlarge] at h
    cases h
  | _ => trivial

end Runs

/-! ## Maps without content in their values -/

def numberCall (operation : Operation UInt32 UInt32 Unit Unit) : Call UInt32 UInt32 Unit Unit :=
  ⟨id, operation⟩

theorem keysKept_numberCalls {session : Session UInt32 UInt32 Unit Unit}
    (hmemory : session.memory = id) (operations : List (Operation UInt32 UInt32 Unit Unit)) :
    Along (step id ()) KeysKept session (operations.map numberCall) := by
  induction operations generalizing session with
  | nil => trivial
  | cons operation operations ih =>
    refine ⟨fun entry _ ↦ by rw [hmemory]; rfl, fun next hnext ↦ ih ?_⟩
    obtain ⟨_, -, rfl⟩ := map_eq_some_iff.mp hnext
    rfl

theorem step_put_of_not_isFull {session : Session UInt32 UInt32 Unit Unit}
    (hnot : ¬ IsFull session.map) :
    ∃ next, step id () session (numberCall (.put 0 () .multiple)) = some next ∧
      next.map.mapLength = session.map.mapLength ∧ next.map.size = session.map.size + 1 := by
  refine ⟨⟨insertEntry id id session.map 0 (), id,
    session.log ++ [(.put 0 () .multiple, .status .ok)]⟩, ?_, rfl, rfl⟩
  rw [step, numberCall, perform, Inserts.put_eq (.inl rfl), if_neg hnot]
  rfl

theorem run_puts (session : Session UInt32 UInt32 Unit Unit) (n : ℕ)
    (h : session.map.size.toNat + n ≤ session.map.mapLength.toNat / 4 * 3) :
    ∃ last, run (step id ()) session
        (List.replicate n (numberCall (.put 0 () .multiple))) = some last ∧
      last.map.mapLength = session.map.mapLength ∧
      last.map.size.toNat = session.map.size.toNat + n := by
  induction n generalizing session with
  | zero => exact ⟨session, rfl, rfl, rfl⟩
  | succ n ih =>
    have hbound := toNat_lt session.map.mapLength
    have hnot : ¬ IsFull session.map := by
      change ¬ session.map.mapLength.toNat / 4 ≤ session.map.size.toNat / 3
      omega
    obtain ⟨next, hnext, hlength, hsize⟩ := step_put_of_not_isFull hnot
    have hadd : next.map.size.toNat = session.map.size.toNat + 1 := by
      rw [hsize, UInt32.toNat_add]
      exact mod_eq_of_lt (by change _ + 1 < _; omega)
    obtain ⟨last, hlast, hlastLength, _⟩ := ih next (by rw [hlength]; omega)
    refine ⟨last, ?_, hlastLength.trans hlength, by omega⟩
    rw [List.replicate_succ, run_cons, hnext]
    exact hlast

end Gnunet.Util.ContainerMultiHashMap
