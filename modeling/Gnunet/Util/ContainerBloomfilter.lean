import Mathlib.Algebra.Order.BigOperators.Group.Multiset
import Mathlib.Algebra.Order.Ring.Nat
import Mathlib.Data.Fintype.Basic
import Gnunet.Lib.PackedArray

/-!
# Counting Bloom filters

The Bloom filter of `container_bloomfilter.c`.  Its bits are kept in memory, and a file holds one
4-bit counter for each of them, so that elements can be removed again.  One element may address the
same bit several times, elements share bits, and a counter that has reached 15 stays there.

`Tracks hits` says that the file has counted `hits i` for each bit `i`, as far as its counters go.
Adding an element adds its addresses to `hits`, and removing it takes them away.
-/

namespace Gnunet.Util.ContainerBloomfilter

open Lib.PackedArray Function Multiset UInt32

/-! ## Bits and counters -/

def setBit (bitArray : ℕ → UInt8) (bitIdx : UInt32) : ℕ → UInt8 :=
  let arraySlot := bitIdx.toNat / 8
  let targetBit : UInt8 := 1 <<< UInt8.ofNat (bitIdx.toNat % 8)
  update bitArray arraySlot (bitArray arraySlot ||| targetBit)

def clearBit (bitArray : ℕ → UInt8) (bitIdx : UInt32) : ℕ → UInt8 :=
  let slot := bitIdx.toNat / 8
  let targetBit : UInt8 := 1 <<< UInt8.ofNat (bitIdx.toNat % 8)
  update bitArray slot (bitArray slot &&& ~~~targetBit)

def testBit (bitArray : ℕ → UInt8) (bitIdx : UInt32) : Bool :=
  let slot := bitIdx.toNat / 8
  let targetBit : UInt8 := 1 <<< UInt8.ofNat (bitIdx.toNat % 8)
  bitArray slot &&& targetBit ≠ 0

@[simp] theorem bit_setBit (bitArray : ℕ → UInt8) (bitIdx : UInt32) (i : ℕ) :
    bit (setBit bitArray bitIdx) i = (bit bitArray i || decide (i = bitIdx.toNat)) :=
  bit_update_or bitArray bitIdx.toNat i

@[simp] theorem bit_clearBit (bitArray : ℕ → UInt8) (bitIdx : UInt32) (i : ℕ) :
    bit (clearBit bitArray bitIdx) i = (bit bitArray i && decide (i ≠ bitIdx.toNat)) :=
  bit_update_and_not bitArray bitIdx.toNat i

theorem testBit_eq (bitArray : ℕ → UInt8) (bitIdx : UInt32) :
    testBit bitArray bitIdx = bit bitArray bitIdx.toNat := by
  have h := and_mask_eq_zero_iff (bitArray (bitIdx.toNat / 8)) bitIdx.toNat
  change decide (bitArray (bitIdx.toNat / 8) &&& mask bitIdx.toNat ≠ 0) = _
  unfold bit
  simp only [ne_eq, h, Bool.not_eq_false, Bool.decide_eq_true]

abbrev CounterFile := ℕ → UInt8

def CounterFile.increment (fh : CounterFile) (bitIdx : UInt32) : CounterFile :=
  let fileSlot := bitIdx.toNat / 2
  let targetLoc := bitIdx.toNat % 2
  let value := fh fileSlot
  let low := value.toUInt32 &&& 0xF
  let high := (value.toUInt32 &&& ~~~0xF) >>> 4
  let low' := if targetLoc = 0 ∧ low < 0xF then low + 1 else low
  let high' := if targetLoc ≠ 0 ∧ high < 0xF then high + 1 else high
  update fh fileSlot (high' <<< 4 ||| low').toUInt8

/-- The counter that is written back, and the new file. -/
def CounterFile.decrement (fh : CounterFile) (bitIdx : UInt32) : UInt32 × CounterFile :=
  let fileslot := bitIdx.toNat / 2
  let targetLoc := bitIdx.toNat % 2
  let value := fh fileslot
  let low := value.toUInt32 &&& 0xF
  let high := (value.toUInt32 &&& 0xF0) >>> 4
  let low' := if targetLoc = 0 ∧ low > 0 ∧ low < 0xF then low - 1 else low
  let high' := if targetLoc ≠ 0 ∧ high > 0 ∧ high < 0xF then high - 1 else high
  (if targetLoc = 0 then low' else high', update fh fileslot (high' <<< 4 ||| low').toUInt8)

theorem toNat_low_lt (value : UInt8) : (value.toUInt32 &&& 0xF).toNat < 16 := by
  rw [toNat_low]
  omega

theorem toNat_ite_add_one {c : UInt32} (hc : c.toNat < 16) {p : Prop} [Decidable p] :
    (if p ∧ c < 0xF then c + 1 else c).toNat = if p then up c.toNat else c.toNat := by
  have hlt : c < 0xF ↔ c.toNat < 15 := lt_iff_toNat_lt
  have hadd : (c + 1).toNat = c.toNat + 1 := by
    change (c.toNat + 1) % 2 ^ 32 = c.toNat + 1
    omega
  unfold up
  by_cases hp : p
  · simp only [hp, true_and, hlt]
    split_ifs
    · exact hadd
    · rfl
  · simp [hp]

theorem toNat_ite_sub_one {c : UInt32} {p : Prop} [Decidable p] :
    (if p ∧ c > 0 ∧ c < 0xF then c - 1 else c).toNat = if p then down c.toNat else c.toNat := by
  have hlt : c < 0xF ↔ c.toNat < 15 := lt_iff_toNat_lt
  have hpos : c > 0 ↔ 0 < c.toNat := lt_iff_toNat_lt
  unfold down
  by_cases hp : p
  · simp only [hp, true_and, hlt, hpos]
    split_ifs with hc
    · have hle : 1 ≤ c := le_iff_toNat_le.mpr hc.1
      exact UInt32.toNat_sub_of_le _ _ hle
    · rfl
  · simp [hp]

theorem up_lt {c : ℕ} (hc : c < 16) : up c < 16 := by
  unfold up
  split_ifs <;> omega

theorem down_lt {c : ℕ} (hc : c < 16) : down c < 16 := by
  unfold down
  split_ifs <;> omega

theorem counter_write {fh : CounterFile} {k : ℕ} {high low : UInt32} {change : ℕ → ℕ}
    (hchange : ∀ c < 16, change c < 16)
    (hlow : low.toNat = if k % 2 = 0 then change ((fh (k / 2)).toNat % 16) else
      (fh (k / 2)).toNat % 16)
    (hhigh : high.toNat = if k % 2 ≠ 0 then change ((fh (k / 2)).toNat / 16) else
      (fh (k / 2)).toNat / 16) (i : ℕ) :
    counter (update fh (k / 2) (high <<< 4 ||| low).toUInt8) i =
      if i = k then change (counter fh k) else counter fh i := by
  have hbyte := UInt8.toNat_lt (fh (k / 2))
  have hlowLt := hchange ((fh (k / 2)).toNat % 16) (by omega)
  have hhighLt := hchange ((fh (k / 2)).toNat / 16) (by omega)
  have hlowBound : low.toNat < 16 := by
    rw [hlow]
    split_ifs <;> omega
  have hhighBound : high.toNat < 16 := by
    rw [hhigh]
    split_ifs <;> omega
  have hpair := toNat_pair hhighBound hlowBound
  apply counter_update
  · intro heven
    rw [if_pos heven] at hlow
    rw [if_neg (not_not.mpr heven)] at hhigh
    rw [counter, if_pos heven]
    omega
  · intro hodd
    rw [if_neg hodd] at hlow
    rw [if_pos hodd] at hhigh
    rw [counter, if_neg hodd]
    omega

theorem counter_increment (fh : CounterFile) (bitIdx : UInt32) (i : ℕ) :
    counter (fh.increment bitIdx) i =
      if i = bitIdx.toNat then up (counter fh bitIdx.toNat) else counter fh i := by
  have hhigh := toNat_high (fh (bitIdx.toNat / 2)) (~~~0xF) 28 (by omega) (by rfl)
  have hbyte := UInt8.toNat_lt (fh (bitIdx.toNat / 2))
  apply counter_write (fun _ ↦ up_lt)
  · rw [toNat_ite_add_one (toNat_low_lt _), toNat_low]
  · rw [toNat_ite_add_one (by omega), hhigh]

theorem counter_decrement (fh : CounterFile) (bitIdx : UInt32) (i : ℕ) :
    counter (fh.decrement bitIdx).2 i =
      if i = bitIdx.toNat then down (counter fh bitIdx.toNat) else counter fh i := by
  have hhigh := toNat_high (fh (bitIdx.toNat / 2)) 0xF0 4 (by omega) (by rfl)
  apply counter_write (fun _ ↦ down_lt)
  · rw [toNat_ite_sub_one, toNat_low]
  · rw [toNat_ite_sub_one, hhigh]

/-- The counter by which `decrementBit` decides whether to clear the bit. -/
theorem toNat_decrement (fh : CounterFile) (bitIdx : UInt32) :
    (fh.decrement bitIdx).1.toNat = down (counter fh bitIdx.toNat) := by
  have hhigh := toNat_high (fh (bitIdx.toNat / 2)) 0xF0 4 (by omega) (by rfl)
  unfold CounterFile.decrement counter
  dsimp only
  by_cases heven : bitIdx.toNat % 2 = 0
  · rw [if_pos heven, if_pos heven, toNat_ite_sub_one, if_pos heven, toNat_low]
  · rw [if_neg heven, if_neg heven, toNat_ite_sub_one, if_pos heven, hhigh]

/-! ## The filter -/

abbrev HashCode := Fin 16 → UInt32

/-- The file is missing for a filter in memory only. The bounds of the size are the assertions of
`iterateBits`: no allocation of 2^61 bytes or more succeeds. -/
structure BloomFilter where
  bitArray : ℕ → UInt8
  fh : Option CounterFile
  addressesPerElement : UInt32
  bitArraySize : UInt64
  size_pos : 0 < bitArraySize.toNat
  size_lt : bitArraySize.toNat < 2 ^ 61

def incrementBit (bf : BloomFilter) (bitIdx : UInt32) : BloomFilter :=
  { bf with
    bitArray := setBit bf.bitArray bitIdx
    fh := bf.fh.map (CounterFile.increment · bitIdx) }

def decrementBit (bf : BloomFilter) (bitIdx : UInt32) : BloomFilter :=
  match bf.fh with
  | none => bf
  | some fh =>
    let (count, fh') := fh.decrement bitIdx
    { bf with
      bitArray := if count = 0 then clearBit bf.bitArray bitIdx else bf.bitArray
      fh := some fh' }

def addressedBit (bitArraySize : UInt64) (number : UInt32) : UInt32 :=
  (number.toUInt64 % (bitArraySize * 8)).toUInt32

section Iterate

variable {σ : Type*} (hash : HashCode → HashCode) (bitArraySize : UInt64)

/-- The loops of `iterateBits`. The callback says whether to go on; after the last slot the hash of
the hash code is used. -/
def iterateFrom (callback : σ → UInt32 → σ × Bool) : ℕ → HashCode → Fin 16 → σ → σ
  | 0, _, _, state => state
  | bitCount + 1, tmp, slot, state =>
    match callback state (addressedBit bitArraySize (tmp slot)) with
    | (state, false) => state
    | (state, true) =>
      iterateFrom callback bitCount (if slot = 15 then hash tmp else tmp) (slot + 1) state

def addressesFrom : ℕ → HashCode → Fin 16 → List UInt32
  | 0, _, _ => []
  | bitCount + 1, tmp, slot =>
    addressedBit bitArraySize (tmp slot) ::
      addressesFrom bitCount (if slot = 15 then hash tmp else tmp) (slot + 1)

theorem iterateFrom_eq_foldl (change : σ → UInt32 → σ) (bitCount : ℕ) (tmp : HashCode)
    (slot : Fin 16) (state : σ) :
    iterateFrom hash bitArraySize (fun state bit ↦ (change state bit, true)) bitCount tmp slot
      state = (addressesFrom hash bitArraySize bitCount tmp slot).foldl change state := by
  induction bitCount generalizing tmp slot state with
  | zero => rfl
  | succ bitCount ih => exact ih _ _ _

theorem iterateFrom_eq_all (test : UInt32 → Bool) (bitCount : ℕ) (tmp : HashCode) (slot : Fin 16) :
    iterateFrom hash bitArraySize (fun res bit ↦ if test bit then (res, true) else (false, false))
      bitCount tmp slot true = (addressesFrom hash bitArraySize bitCount tmp slot).all test := by
  induction bitCount generalizing tmp slot with
  | zero => rfl
  | succ bitCount ih =>
    rw [iterateFrom, addressesFrom, List.all_cons]
    by_cases htest : test (addressedBit bitArraySize (tmp slot)) = true
    · rw [htest]
      exact ih _ _
    · rw [if_neg htest, Bool.eq_false_of_not_eq_true htest, Bool.false_and]

/-- `bitCount` is signed, so a number of addresses from 2^31 on is negative. -/
def bitCount (addressesPerElement : UInt32) : ℕ := addressesPerElement.toInt32.toInt.toNat

def iterateBits (bf : BloomFilter) (callback : σ → UInt32 → σ × Bool) (arg : σ)
    (key : HashCode) : σ :=
  iterateFrom hash bf.bitArraySize callback (bitCount bf.addressesPerElement) key 0 arg

end Iterate

section Interface

variable (hash : HashCode → HashCode)

def bloomfilterTest (bf : Option BloomFilter) (e : HashCode) : Bool :=
  match bf with
  | none => true
  | some bf => iterateBits hash bf
      (fun res bit ↦ if testBit bf.bitArray bit then (res, true) else (false, false)) true e

def bloomfilterAdd (bf : Option BloomFilter) (e : HashCode) : Option BloomFilter :=
  bf.map fun bf ↦ iterateBits hash bf (fun bf bit ↦ (incrementBit bf bit, true)) bf e

def bloomfilterRemove (bf : Option BloomFilter) (e : HashCode) : Option BloomFilter :=
  bf.map fun bf ↦
    if bf.fh.isNone then bf
    else iterateBits hash bf (fun bf bit ↦ (decrementBit bf bit, true)) bf e

end Interface

/-! ## Loading -/

def roundUp (size : UInt64) : ℕ → UInt64 → UInt64
  | 0, ui => ui
  | steps + 1, ui => if ui < size ∧ ui * 2 > ui then roundUp size steps (ui * 2) else ui

structure DiskFile where
  fsize : UInt64
  bytes : ℕ → UInt8

/-- The index is passed on as a 32-bit number. -/
def loadByte (bytes : ℕ → UInt8) (bitArray : ℕ → UInt8) (i : ℕ) : ℕ → UInt8 :=
  let bitArray := if bytes i &&& 0x0F ≠ 0 then setBit bitArray (ofNat (2 * i)) else bitArray
  if bytes i &&& 0xF0 ≠ 0 then setBit bitArray (ofNat (2 * i + 1)) else bitArray

def zeros : ℕ → UInt8 := fun _ ↦ 0

theorem roundUp_pos (size : UInt64) (steps : ℕ) {ui : UInt64} (h : 0 < ui.toNat) :
    0 < (roundUp size steps ui).toNat := by
  induction steps generalizing ui with
  | zero => exact h
  | succ steps ih =>
    rw [roundUp]
    split_ifs with hgrow
    · exact ih (h.trans (UInt64.lt_iff_toNat_lt.mp hgrow.2))
    · exact h

def bloomfilterLoad (existing : Option DiskFile) (size : UInt64) (k : UInt32) :
    Option BloomFilter :=
  if k = 0 ∨ size = 0 then none
  else
    let size := roundUp (max size 65536) 64 1
    if hlt : size.toNat < 2 ^ 61 then
      let loaded (file bitArray : ℕ → UInt8) : BloomFilter :=
        ⟨bitArray, some file, k, size, roundUp_pos _ 64 (by decide), hlt⟩
      match existing with
      | none => some (loaded zeros zeros)
      | some file =>
        if file.fsize = 0 then some (loaded zeros zeros)
        else if file.fsize ≠ size * 4 then none
        else some (loaded file.bytes
          ((List.range file.fsize.toNat).foldl (loadByte file.bytes) zeros))
    else none

def CounterFile.upTo (fh : CounterFile) (n : ℕ) : CounterFile := fun i ↦ if i < n then fh i else 0

def BloomFilter.file (bf : BloomFilter) : Option DiskFile :=
  bf.fh.map fun fh ↦ ⟨bf.bitArraySize * 4, fh.upTo (bf.bitArraySize.toNat * 4)⟩

/-! ## Reading the counters back -/

theorem bit_zeros (i : ℕ) : bit zeros i = false := Nat.zero_testBit _

theorem counter_zeros (i : ℕ) : counter zeros i = 0 := by
  unfold counter
  split_ifs
  · rfl
  · exact Nat.zero_div 16

theorem counter_upTo (fh : CounterFile) (n i : ℕ) :
    counter (fh.upTo n) i = if i < n * 2 then counter fh i else 0 := by
  unfold counter CounterFile.upTo
  by_cases hi : i < n * 2
  · have hbyte : i / 2 < n := by omega
    simp [hi, hbyte]
  · have hbyte : ¬ i / 2 < n := by omega
    simp [hi, hbyte]

theorem and_low_ne_zero_iff (bytes : ℕ → UInt8) (i : ℕ) :
    bytes i &&& 0x0F ≠ 0 ↔ counter bytes (2 * i) ≠ 0 := by
  have hcounter : counter bytes (2 * i) = (bytes i).toNat % 16 := by
    rw [counter, if_pos (by omega), Nat.mul_div_cancel_left i (by omega)]
  have hand : (bytes i &&& 0x0F).toNat = (bytes i).toNat % 16 := by
    exact Nat.and_two_pow_sub_one_eq_mod _ 4
  rw [hcounter, ← hand, ne_eq, ← UInt8.toNat_inj, UInt8.toNat_zero]

theorem and_high_ne_zero_iff (bytes : ℕ → UInt8) (i : ℕ) :
    bytes i &&& 0xF0 ≠ 0 ↔ counter bytes (2 * i + 1) ≠ 0 := by
  have hcounter : counter bytes (2 * i + 1) = (bytes i).toNat / 16 := by
    rw [counter, if_neg (by omega), show (2 * i + 1) / 2 = i by omega]
  have hbyte : ∀ byte : Fin 256, UInt8.ofFin byte &&& 0xF0 = 0 ↔ byte.val / 16 = 0 := by
    decide +kernel
  rw [hcounter]
  exact not_congr (hbyte (bytes i).toFin)

theorem bit_ite_setBit {bytes : ℕ → UInt8} (hbytes : ∀ i, 2 ^ 32 ≤ i → counter bytes i = 0)
    (bitArray : ℕ → UInt8) (i j : ℕ) :
    bit (if counter bytes j ≠ 0 then setBit bitArray (ofNat j) else bitArray) i = true ↔
      bit bitArray i = true ∨ i = j ∧ counter bytes i ≠ 0 := by
  by_cases hcounter : counter bytes j ≠ 0
  · have hlt : j < 2 ^ 32 := by
      by_contra hge
      exact hcounter (hbytes j (Nat.le_of_not_lt hge))
    rw [if_pos hcounter, bit_setBit, toNat_ofNat_of_lt' hlt, Bool.or_eq_true]
    exact or_congr_right (by grind)
  · grind

theorem bit_foldl_loadByte {bytes : ℕ → UInt8} (hbytes : ∀ i, 2 ^ 32 ≤ i → counter bytes i = 0)
    (n i : ℕ) :
    bit ((List.range n).foldl (loadByte bytes) zeros) i = true ↔
      i < 2 * n ∧ counter bytes i ≠ 0 := by
  induction n with
  | zero => simp [bit_zeros]
  | succ n ih =>
    rw [List.range_succ, List.foldl_append, List.foldl_cons, List.foldl_nil, loadByte]
    simp only [and_low_ne_zero_iff, and_high_ne_zero_iff]
    rw [bit_ite_setBit hbytes, bit_ite_setBit hbytes, ih, ← or_and_right, ← or_and_right]
    exact and_congr_left fun _ ↦ by omega

theorem bloomfilterLoad_of_existing {file : DiskFile} (hsize : file.fsize ≠ 0) {size : UInt64}
    {k : UInt32} {bf : BloomFilter} (hload : bloomfilterLoad (some file) size k = some bf) :
    bf.fh = some file.bytes ∧ bf.addressesPerElement = k ∧
      file.fsize.toNat = bf.bitArraySize.toNat * 4 ∧
      bf.bitArray = (List.range file.fsize.toNat).foldl (loadByte file.bytes) zeros := by
  unfold bloomfilterLoad at hload
  split_ifs at hload
  dsimp only at hload
  split_ifs at hload with hlt hmatch
  cases hload
  refine ⟨rfl, rfl, ?_, rfl⟩
  rw [not_not.mp hmatch, UInt64.toNat_mul]
  exact Nat.mod_eq_of_lt (by change _ * 4 < _; omega)

/-- A filter that is loaded from its file has the bits that the counters of the file say. -/
theorem bloomfilterLoad_existing {file : DiskFile} (hsize : file.fsize ≠ 0)
    (hbytes : ∀ i, 2 ^ 32 ≤ i → counter file.bytes i = 0) {size : UInt64} {k : UInt32}
    {bf : BloomFilter} (hload : bloomfilterLoad (some file) size k = some bf) :
    bf.fh = some file.bytes ∧
      ∀ i < 8 * bf.bitArraySize.toNat, bit bf.bitArray i = true ↔ counter file.bytes i ≠ 0 := by
  obtain ⟨hfh, -, hfsize, hbits⟩ := bloomfilterLoad_of_existing hsize hload
  refine ⟨hfh, fun i hi ↦ ?_⟩
  rw [hbits, bit_foldl_loadByte hbytes]
  exact and_iff_right (by omega)

def twoCounters : ℕ → UInt8 := update zeros 0 0x21

theorem bloomfilterLoad_twoCounters :
    ∃ bf, bloomfilterLoad (some ⟨262144, twoCounters⟩) 1 8 = some bf ∧
      (∀ i < 8 * bf.bitArraySize.toNat, bit bf.bitArray i = true ↔ counter twoCounters i ≠ 0) ∧
      bit bf.bitArray 0 = true ∧ bit bf.bitArray 1 = true ∧ bit bf.bitArray 2 = false := by
  have hbytes : ∀ i, 2 ^ 32 ≤ i → counter twoCounters i = 0 := by
    intro i hi
    have hother : twoCounters (i / 2) = zeros (i / 2) := update_of_ne (by omega) _ _
    rw [← counter_zeros i, counter, counter, hother]
  obtain ⟨bf, hload, hsize⟩ : ∃ bf, bloomfilterLoad (some ⟨262144, twoCounters⟩) 1 8 = some bf ∧
      bf.bitArraySize.toNat = 65536 := ⟨_, rfl, rfl⟩
  have hnonempty : (262144 : UInt64) ≠ 0 := by decide
  have hbits := (bloomfilterLoad_existing hnonempty hbytes hload).2
  refine ⟨bf, hload, hbits, (hbits 0 (by omega)).mpr (by decide),
    (hbits 1 (by omega)).mpr (by decide), Bool.eq_false_iff.mpr fun h ↦ ?_⟩
  exact absurd ((hbits 2 (by omega)).mp h) (by decide)

/-! ## What the filter tracks -/

/-- A bit is set exactly when its counter is not zero, and the counters have counted `hits`, as far
as they go. No index of 32 bits reaches the counters behind. -/
structure Tracks (bitArraySize : UInt64) (k : UInt32) (hits : ℕ → ℕ) (bf : BloomFilter) : Prop where
  size_eq : bf.bitArraySize = bitArraySize
  addresses_eq : bf.addressesPerElement = k
  counters : ∃ fh, bf.fh = some fh ∧ (∀ i, bit bf.bitArray i = true ↔ counter fh i ≠ 0) ∧
    (∀ i, Counts (counter fh i) (hits i)) ∧ ∀ i, 2 ^ 32 ≤ i → counter fh i = 0

section Steps

variable {bitArraySize : UInt64} {k : UInt32} {hits : ℕ → ℕ} {bf : BloomFilter}

theorem Tracks.incrementBit (h : Tracks bitArraySize k hits bf) (bitIdx : UInt32) :
    Tracks bitArraySize k (fun i ↦ hits i + if bitIdx.toNat = i then 1 else 0)
      (incrementBit bf bitIdx) := by
  obtain ⟨fh, hfh, hbits, hcounts, hbeyond⟩ := h.counters
  refine ⟨h.size_eq, h.addresses_eq, fh.increment bitIdx, ?_, fun i ↦ ?_, fun i ↦ ?_,
    fun i hi ↦ ?_⟩
  · change bf.fh.map _ = _
    rw [hfh, Option.map_some]
  · change bit (setBit bf.bitArray bitIdx) i = true ↔ _
    rw [bit_setBit, counter_increment, Bool.or_eq_true, hbits, decide_eq_true_eq]
    by_cases hi : i = bitIdx.toNat
    · have hpos : 0 < up (counter fh bitIdx.toNat) := (hcounts _).up.pos (Nat.succ_pos _)
      rw [if_pos hi]
      exact iff_of_true (Or.inr hi) hpos.ne'
    · rw [if_neg hi]
      exact or_iff_left hi
  · rw [counter_increment]
    by_cases hi : i = bitIdx.toNat
    · rw [if_pos hi, if_pos hi.symm, hi]
      exact (hcounts _).up
    · rw [if_neg hi, if_neg (Ne.symm hi)]
      exact hcounts i
  · rw [counter_increment, if_neg (bitIdx.toNat_lt.trans_le hi).ne']
    exact hbeyond i hi

theorem Tracks.decrementBit {bitIdx : UInt32}
    (h : Tracks bitArraySize k (fun i ↦ hits i + if bitIdx.toNat = i then 1 else 0) bf) :
    Tracks bitArraySize k hits (decrementBit bf bitIdx) := by
  obtain ⟨fh, hfh, hbits, hcounts, hbeyond⟩ := h.counters
  have hvalue := toNat_decrement fh bitIdx
  have hdecrement : ContainerBloomfilter.decrementBit bf bitIdx = { bf with
        bitArray := if (fh.decrement bitIdx).1 = 0 then clearBit bf.bitArray bitIdx else bf.bitArray
        fh := some (fh.decrement bitIdx).2 } := by
    rw [ContainerBloomfilter.decrementBit, hfh]
  have hzero : (fh.decrement bitIdx).1 = 0 ↔ down (counter fh bitIdx.toNat) = 0 := by
    rw [← hvalue, ← UInt32.toNat_inj, UInt32.toNat_zero]
  have hcount := hcounts bitIdx.toNat
  rw [if_pos rfl] at hcount
  rw [hdecrement]
  refine ⟨h.size_eq, h.addresses_eq, _, rfl, fun i ↦ ?_, fun i ↦ ?_, fun i hi ↦ ?_⟩
  · change bit (if (fh.decrement bitIdx).1 = 0 then _ else _) i = true ↔ _
    rw [counter_decrement]
    by_cases hi : i = bitIdx.toNat
    · have hset : bit bf.bitArray i = true := by
        rw [hbits, hi]
        exact (hcount.pos (Nat.succ_pos _)).ne'
      rw [if_pos hi]
      by_cases hdown : down (counter fh bitIdx.toNat) = 0
      · rw [if_pos (hzero.mpr hdown)]
        simp [hi, hdown]
      · rw [if_neg (fun h ↦ hdown (hzero.mp h))]
        exact iff_of_true hset hdown
    · split_ifs
      · rw [← hbits i]
        simp [hi]
      · exact hbits i
  · rw [counter_decrement]
    by_cases hi : i = bitIdx.toNat
    · rw [if_pos hi, hi]
      exact hcount.down
    · rw [if_neg hi]
      have hother := hcounts i
      rwa [if_neg (Ne.symm hi)] at hother
  · rw [counter_decrement, if_neg (bitIdx.toNat_lt.trans_le hi).ne']
    exact hbeyond i hi

def hitsIn (addresses : List UInt32) (i : ℕ) : ℕ := (addresses.map toNat).count i

theorem hitsIn_cons (address : UInt32) (addresses : List UInt32) (i : ℕ) :
    hitsIn (address :: addresses) i = hitsIn addresses i + if address.toNat = i then 1 else 0 := by
  rw [hitsIn, List.map_cons, List.count_cons, hitsIn]
  simp only [beq_iff_eq]

theorem Tracks.foldl_incrementBit (h : Tracks bitArraySize k hits bf) (addresses : List UInt32) :
    Tracks bitArraySize k (fun i ↦ hits i + hitsIn addresses i)
      (addresses.foldl ContainerBloomfilter.incrementBit bf) := by
  induction addresses generalizing hits bf with
  | nil => exact h
  | cons address addresses ih =>
    have hrest := ih (h.incrementBit address)
    have hhits : (fun i ↦ hits i + hitsIn (address :: addresses) i) =
        fun i ↦ hits i + (if address.toNat = i then 1 else 0) + hitsIn addresses i := by
      funext i
      rw [hitsIn_cons]
      omega
    rw [hhits]
    exact hrest

theorem Tracks.foldl_decrementBit {addresses : List UInt32}
    (h : Tracks bitArraySize k (fun i ↦ hits i + hitsIn addresses i) bf) :
    Tracks bitArraySize k hits (addresses.foldl ContainerBloomfilter.decrementBit bf) := by
  induction addresses generalizing bf with
  | nil => exact h
  | cons address addresses ih =>
    have hhits : (fun i ↦ hits i + hitsIn (address :: addresses) i) =
        fun i ↦ hits i + hitsIn addresses i + if address.toNat = i then 1 else 0 := by
      funext i
      rw [hitsIn_cons, Nat.add_assoc]
    rw [hhits] at h
    exact ih h.decrementBit

end Steps

/-! ## Elements -/

section Elements

variable (hash : HashCode → HashCode) (bitArraySize : UInt64) (k : UInt32)

def addresses (e : HashCode) : List UInt32 := addressesFrom hash bitArraySize (bitCount k) e 0

def hitsOf (present : Multiset HashCode) (i : ℕ) : ℕ :=
  (present.map fun e ↦ hitsIn (addresses hash bitArraySize k e) i).sum

theorem hitsOf_cons (e : HashCode) (present : Multiset HashCode) (i : ℕ) :
    hitsOf hash bitArraySize k (e ::ₘ present) i =
      hitsOf hash bitArraySize k present i + hitsIn (addresses hash bitArraySize k e) i := by
  rw [hitsOf, map_cons, sum_cons, Nat.add_comm, hitsOf]

section

variable {bitArraySize} (hpos : 0 < bitArraySize.toNat) (hlt : bitArraySize.toNat < 2 ^ 61)
include hpos hlt

theorem toNat_addressedBit_lt (number : UInt32) :
    (addressedBit bitArraySize number).toNat < bitArraySize.toNat * 8 := by
  have hbits : (bitArraySize * 8).toNat = bitArraySize.toNat * 8 :=
    (UInt64.toNat_mul _ _).trans (Nat.mod_eq_of_lt (by change _ * 8 < _; omega))
  rw [addressedBit, UInt64.toNat_toUInt32, UInt64.toNat_mod, hbits]
  exact (Nat.mod_le _ _).trans_lt (Nat.mod_lt _ (by omega))

theorem toNat_lt_of_mem_addressesFrom {n : ℕ} {tmp : HashCode} {slot : Fin 16} {address : UInt32}
    (h : address ∈ addressesFrom hash bitArraySize n tmp slot) :
    address.toNat < bitArraySize.toNat * 8 := by
  induction n generalizing tmp slot with
  | zero => cases h
  | succ n ih =>
    cases List.mem_cons.mp h with
    | inl heq => exact heq ▸ toNat_addressedBit_lt hpos hlt _
    | inr hrest => exact ih hrest

theorem hitsOf_eq_zero (present : Multiset HashCode) {i : ℕ} (hi : bitArraySize.toNat * 8 ≤ i) :
    hitsOf hash bitArraySize k present i = 0 := by
  apply sum_eq_zero_iff.mpr
  intro hits hmem
  obtain ⟨e, -, rfl⟩ := mem_map.mp hmem
  apply List.count_eq_zero.mpr
  intro hhit
  obtain ⟨address, haddress, rfl⟩ := List.mem_map.mp hhit
  exact absurd (toNat_lt_of_mem_addressesFrom hash hpos hlt haddress) (by omega)

end

variable {hash bitArraySize k}
variable {present : Multiset HashCode} {bf : BloomFilter} {e : HashCode}

section

variable (h : Tracks bitArraySize k (hitsOf hash bitArraySize k present) bf)
include h

theorem Tracks.add (e : HashCode) :
    ∃ next, bloomfilterAdd hash (some bf) e = some next ∧
      Tracks bitArraySize k (hitsOf hash bitArraySize k (e ::ₘ present)) next := by
  refine ⟨(addresses hash bitArraySize k e).foldl ContainerBloomfilter.incrementBit bf, ?_, ?_⟩
  · rw [bloomfilterAdd, Option.map_some, iterateBits, iterateFrom_eq_foldl, h.size_eq,
      h.addresses_eq, addresses]
  · have hhits := funext (hitsOf_cons hash bitArraySize k e present)
    rw [hhits]
    exact h.foldl_incrementBit _

theorem Tracks.reopen {size : UInt64} {next : BloomFilter}
    (hload : bloomfilterLoad bf.file size bf.addressesPerElement = some next) :
    Tracks bitArraySize k (hitsOf hash bitArraySize k present) next := by
  obtain ⟨fh, hfh, hbits, hcounts, hbeyond⟩ := h.counters
  have hinside := counter_upTo fh (bf.bitArraySize.toNat * 4)
  rw [BloomFilter.file, hfh, Option.map_some] at hload
  have hpos := bf.size_pos
  have hlt := bf.size_lt
  have hfsize : (bf.bitArraySize * 4).toNat = bf.bitArraySize.toNat * 4 :=
    (UInt64.toNat_mul _ _).trans (Nat.mod_eq_of_lt (by change _ * 4 < _; omega))
  have hnonempty : bf.bitArraySize * 4 ≠ 0 := fun hzero ↦ by
    rw [hzero, UInt64.toNat_zero] at hfsize
    omega
  obtain ⟨hfh', hk, hsize, hbits'⟩ := bloomfilterLoad_of_existing hnonempty hload
  dsimp only at hfh' hsize hbits'
  have hzero : ∀ i, 2 ^ 32 ≤ i → counter (fh.upTo (bf.bitArraySize.toNat * 4)) i = 0 := by
    intro i hi
    rw [hinside, hbeyond i hi, ite_self]
  refine ⟨?_, hk.trans h.addresses_eq, _, hfh', fun i ↦ ?_, fun i ↦ ?_, hzero⟩
  · rw [← h.size_eq]
    exact UInt64.toNat_inj.mp (by omega)
  · rw [hbits', hfsize, bit_foldl_loadByte hzero, hinside]
    by_cases hi : i < bf.bitArraySize.toNat * 4 * 2
    · rw [if_pos hi]
      exact and_iff_right (by omega)
    · simp [hi]
  · rw [hinside]
    by_cases hi : i < bf.bitArraySize.toNat * 4 * 2
    · rw [if_pos hi]
      exact hcounts i
    · rw [if_neg hi, ← h.size_eq, hitsOf_eq_zero hash k hpos hlt present (by omega)]
      exact Or.inr ⟨by omega, rfl⟩

theorem Tracks.remove (he : e ∈ present) :
    ∃ next, bloomfilterRemove hash (some bf) e = some next ∧
      Tracks bitArraySize k (hitsOf hash bitArraySize k (present.erase e)) next := by
  obtain ⟨_, hfh, -⟩ := h.counters
  refine ⟨(addresses hash bitArraySize k e).foldl ContainerBloomfilter.decrementBit bf, ?_, ?_⟩
  · rw [bloomfilterRemove, Option.map_some, if_neg (by simp [hfh]), iterateBits,
      iterateFrom_eq_foldl, h.size_eq, h.addresses_eq, addresses]
  · have hhits := funext (hitsOf_cons hash bitArraySize k e (present.erase e))
    rw [cons_erase he] at hhits
    rw [hhits] at h
    exact h.foldl_decrementBit

theorem Tracks.test (he : e ∈ present) : bloomfilterTest hash (some bf) e = true := by
  obtain ⟨_, -, hbits, hcounts, -⟩ := h.counters
  have htest : bloomfilterTest hash (some bf) e =
      (addresses hash bitArraySize k e).all (testBit bf.bitArray) := by
    rw [addresses, ← iterateFrom_eq_all, ← h.size_eq, ← h.addresses_eq]
    rfl
  rw [htest, List.all_eq_true]
  intro address haddress
  have hhit : 0 < hitsIn (addresses hash bitArraySize k e) address.toNat :=
    List.count_pos_iff.mpr (List.mem_map_of_mem haddress)
  have hle := single_le_sum (fun _ _ ↦ Nat.zero_le _) _
    (mem_map_of_mem (fun e ↦ hitsIn (addresses hash bitArraySize k e) address.toNat) he)
  rw [testBit_eq, hbits]
  exact ((hcounts address.toNat).pos (hhit.trans_le hle)).ne'

end

end Elements

/-! ## Histories -/

inductive Operation where
  | add (e : HashCode)
  | remove (e : HashCode)
  | reopen (size : UInt64)
deriving DecidableEq

def perform (hash : HashCode → HashCode) (bf : Option BloomFilter) :
    Operation → Option BloomFilter
  | .add e => bloomfilterAdd hash bf e
  | .remove e => bloomfilterRemove hash bf e
  | .reopen size => bf.bind fun bf ↦ bloomfilterLoad bf.file size bf.addressesPerElement

/-- At no time has an element been removed more often than it was added. -/
def Balanced (operations : List Operation) : Prop :=
  ∀ earlier, earlier <+: operations →
    ∀ e, earlier.count (.remove e) ≤ earlier.count (.add e)

variable {operations : List Operation}

theorem Balanced.init {operation : Operation} (h : Balanced (operations ++ [operation])) :
    Balanced operations :=
  fun earlier hearlier ↦ h earlier (hearlier.trans (List.prefix_append _ _))

def present (operations : List Operation) : Multiset HashCode :=
  operations.foldl (fun elements operation ↦
    match operation with
    | .add e => e ::ₘ elements
    | .remove e => elements.erase e
    | .reopen _ => elements) 0

theorem present_append_add (operations : List Operation) (e : HashCode) :
    present (operations ++ [.add e]) = e ::ₘ present operations := by
  rw [present, List.foldl_append]
  rfl

theorem present_append_remove (operations : List Operation) (e : HashCode) :
    present (operations ++ [.remove e]) = (present operations).erase e := by
  rw [present, List.foldl_append]
  rfl

theorem present_append_reopen (operations : List Operation) (size : UInt64) :
    present (operations ++ [.reopen size]) = present operations := by
  rw [present, List.foldl_append]
  rfl

theorem count_present (h : Balanced operations) (e : HashCode) :
    (present operations).count e + operations.count (.remove e) = operations.count (.add e) := by
  induction operations using List.reverseRecOn with
  | nil => rfl
  | append_singleton operations operation ih =>
    have hcount := ih h.init
    cases operation with
    | add e' =>
      rw [present_append_add]
      by_cases he : e = e'
      · subst he
        simp
        omega
      · simp [he, Ne.symm he]
        omega
    | remove e' =>
      have hle := h _ (List.prefix_refl _) e
      rw [present_append_remove]
      by_cases he : e = e'
      · subst he
        simp at hle ⊢
        omega
      · rw [count_erase_of_ne he]
        simp [Ne.symm he]
        omega
    | reopen size =>
      rw [present_append_reopen]
      simpa using hcount

theorem mem_present_of_balanced {e : HashCode} (h : Balanced (operations ++ [.remove e])) :
    e ∈ present operations := by
  have hcount := count_present h.init e
  have hle := h _ (List.prefix_refl _) e
  simp at hle
  rw [← count_pos]
  omega

theorem foldl_perform_none (hash : HashCode → HashCode) (operations : List Operation) :
    operations.foldl (perform hash) none = none := by
  induction operations with
  | nil => rfl
  | cons operation operations ih =>
    cases operation with
    | add e => exact ih
    | remove e => exact ih
    | reopen size => exact ih

section Runs

variable {hash : HashCode → HashCode} {bitArraySize : UInt64} {k : UInt32} {bf : BloomFilter}

theorem Tracks.step {operation : Operation} {next : BloomFilter}
    (h : Tracks bitArraySize k (hitsOf hash bitArraySize k (present operations)) bf)
    (hoperations : Balanced (operations ++ [operation]))
    (hnext : perform hash (some bf) operation = some next) :
    Tracks bitArraySize k (hitsOf hash bitArraySize k (present (operations ++ [operation])))
      next := by
  cases operation with
  | add e =>
    rw [present_append_add]
    obtain ⟨_, hadd, hadded⟩ := h.add e
    cases hadd.symm.trans hnext
    exact hadded
  | remove e =>
    rw [present_append_remove]
    obtain ⟨_, hremove, hremoved⟩ := h.remove (mem_present_of_balanced hoperations)
    cases hremove.symm.trans hnext
    exact hremoved
  | reopen size =>
    rw [present_append_reopen]
    exact h.reopen hnext

/-- A history keeps the counters in step with the elements that are present. -/
theorem Tracks.run (h : Tracks bitArraySize k (hitsOf hash bitArraySize k 0) bf)
    (hoperations : Balanced operations) :
    ∀ last ∈ operations.foldl (perform hash) (some bf),
      Tracks bitArraySize k (hitsOf hash bitArraySize k (present operations)) last := by
  induction operations using List.reverseRecOn with
  | nil =>
    intro last hlast
    cases hlast
    exact h
  | append_singleton operations operation ih =>
    rw [List.foldl_append, List.foldl_cons, List.foldl_nil]
    intro last hlast
    cases hmiddle : operations.foldl (perform hash) (some bf) with
    | none =>
      rw [hmiddle] at hlast
      cases operation <;> cases hlast
    | some middle =>
      rw [hmiddle] at hlast
      exact (ih hoperations.init middle hmiddle).step hoperations hlast

theorem bloomfilterLoad_fresh {existing : Option DiskFile}
    (hfresh : ∀ file ∈ existing, file.fsize = 0) {size : UInt64}
    (hload : bloomfilterLoad existing size k = some bf) :
    Tracks bf.bitArraySize k (hitsOf hash bf.bitArraySize k 0) bf := by
  have hcounters : ∃ fh, some zeros = some fh ∧
      (∀ i, bit zeros i = true ↔ counter fh i ≠ 0) ∧
      (∀ i, Counts (counter fh i) (hitsOf hash bf.bitArraySize k 0 i)) ∧
      ∀ i, 2 ^ 32 ≤ i → counter fh i = 0 := by
    refine ⟨zeros, rfl, fun i ↦ ?_, fun i ↦ ?_, fun i _ ↦ counter_zeros i⟩
    · rw [bit_zeros, counter_zeros]
      simp
    · rw [counter_zeros]
      exact Or.inr ⟨by omega, rfl⟩
  unfold bloomfilterLoad at hload
  dsimp only at hload
  split_ifs at hload
  cases existing with
  | none =>
    cases hload
    exact ⟨rfl, rfl, hcounters⟩
  | some file =>
    dsimp only at hload
    rw [if_pos (hfresh file rfl)] at hload
    cases hload
    exact ⟨rfl, rfl, hcounters⟩

end Runs

end Gnunet.Util.ContainerBloomfilter
