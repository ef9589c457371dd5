import Mathlib.Data.Finset.Basic
import Gnunet.Lib.Runs
import Gnunet.Util.CommonAllocation
import Mathlib.Algebra.Group.Nat.Defs

/-!
# Containers of meta data

The containers of `container_meta_data.c`.  A container keeps its items in a list that is sorted by
decreasing size of their data, so that a search for data of one size may stop at the first smaller
item.  Path separators in file names are rewritten when an item is stored, but the search for an
item that is already there uses the data as they are given.
-/

namespace Gnunet.Util.MetaData

open Lib.Runs Function List

/-! ## Items -/

abbrev CString := {text : List UInt8 // (0 : UInt8) ∉ text}

inductive MetaFormat where
  | unknown
  | utf8
  | binary
  | cString
deriving DecidableEq

def filenameType : UInt32 := 2

def originalFilenameType : UInt32 := 180

structure MetaItem where
  pluginName : Option CString
  mimeType : Option CString
  data : List UInt8
  type : UInt32
  format : MetaFormat
deriving DecidableEq

open MetaItem

def MetaItem.key (item : MetaItem) : UInt32 × List UInt8 := (item.type, item.data)

/-- Every backslash before the first zero becomes a slash. -/
def replaceSeparators : List UInt8 → List UInt8
  | [] => []
  | c :: rest =>
    if c = 0 then c :: rest else (if c = 92 then 47 else c) :: replaceSeparators rest

def toPosix (type : UInt32) (data : List UInt8) : List UInt8 :=
  if type = filenameType ∨ type = originalFilenameType then replaceSeparators data else data

@[simp] theorem length_replaceSeparators (data : List UInt8) :
    (replaceSeparators data).length = data.length := by
  induction data with
  | nil => rfl
  | cons c rest ih =>
    rw [replaceSeparators]
    split_ifs
    · rfl
    · rw [length_cons, length_cons, ih]
    · rw [length_cons, length_cons, ih]

theorem replaceSeparators_idem (data : List UInt8) :
    replaceSeparators (replaceSeparators data) = replaceSeparators data := by
  induction data with
  | nil => rfl
  | cons c rest ih =>
    by_cases hzero : c = 0
    · rw [replaceSeparators, if_pos hzero, replaceSeparators, if_pos hzero]
    · rw [replaceSeparators, if_neg hzero]
      by_cases hslash : c = 92
      · rw [if_pos hslash, replaceSeparators, if_neg (by decide), if_neg (by decide), ih]
      · rw [if_neg hslash, replaceSeparators, if_neg hzero, if_neg hslash, ih]

@[simp] theorem length_toPosix (type : UInt32) (data : List UInt8) :
    (toPosix type data).length = data.length := by
  unfold toPosix
  split_ifs
  · exact length_replaceSeparators data
  · rfl

theorem toPosix_idem (type : UInt32) (data : List UInt8) :
    toPosix type (toPosix type data) = toPosix type data := by
  unfold toPosix
  split_ifs
  · exact replaceSeparators_idem data
  · rfl

def MetaItem.stored (entry : MetaItem) : MetaItem :=
  { entry with data := toPosix entry.type entry.data }

def CanDup (name : Option CString) : Prop :=
  ∀ text ∈ name, text.val.length + 1 ≤ maxMallocChecked

instance (name : Option CString) : Decidable (CanDup name) :=
  match name with
  | none => .isTrue nofun
  | some text => decidable_of_iff (text.val.length + 1 ≤ maxMallocChecked) (by simp [CanDup])

def MetaItem.Allocatable (entry : MetaItem) : Prop :=
  CanDup entry.mimeType ∧ CanDup entry.pluginName ∧ entry.data.length ≤ maxMallocChecked

instance (entry : MetaItem) : Decidable entry.Allocatable :=
  inferInstanceAs (Decidable (_ ∧ _ ∧ _))

/-! ## Containers -/

structure Container where
  items : List MetaItem
  sbuf : Option (List UInt8)
  itemCount : UInt32
deriving DecidableEq

inductive Status where
  | ok
  | syserr
deriving DecidableEq

def metaDataCreate : Container := ⟨[], none, 0⟩

/-- An item of the same entry was found, which may get the mime type or the better format, or the
new item was put before the first smaller one. -/
inductive Insertion where
  | present (items : List MetaItem) (copiesMime newFormat : Bool)
  | added (items : List MetaItem)

def Insertion.after (pos : MetaItem) : Insertion → Insertion
  | .present items copiesMime newFormat => .present (pos :: items) copiesMime newFormat
  | .added items => .added (pos :: items)

def insertionOf (entry : MetaItem) : List MetaItem → Insertion
  | [] => .added [entry.stored]
  | pos :: rest =>
    if pos.data.length < entry.data.length then .added (entry.stored :: pos :: rest)
    else if pos.type = entry.type ∧ pos.data = entry.data then
      let copiesMime := pos.mimeType.isNone && entry.mimeType.isSome
      let newFormat := decide (pos.format = .cString) && decide (entry.format = .utf8)
      .present ({ pos with
        mimeType := if copiesMime then entry.mimeType else pos.mimeType
        format := if newFormat then .utf8 else pos.format } :: rest) copiesMime newFormat
    else (insertionOf entry rest).after pos

/-- The program stops when a copy cannot be allocated. -/
def metaDataInsert (md : Container) (entry : MetaItem) : Option (Status × Container) :=
  match insertionOf entry md.items with
  | .present items copiesMime newFormat =>
    if copiesMime ∧ ¬ CanDup entry.mimeType then none
    else some (.syserr, { md with
      items := items
      sbuf := if copiesMime || newFormat then none else md.sbuf })
  | .added items =>
    if entry.Allocatable then some (.ok, ⟨items, none, md.itemCount + 1⟩) else none

/-- An insertion changes no item behind the one that is being inserted, so this also holds for a
container merged into itself. -/
def metaDataMerge (md source : Container) : Option Container :=
  source.items.foldlM (fun md item ↦ (metaDataInsert md item).map Prod.snd) md

/-- The given data, or with a null pointer any data of at least the given size. -/
inductive Target where
  | data (bytes : List UInt8)
  | any (dataSize : ℕ)
deriving DecidableEq

def Target.dataSize : Target → ℕ
  | .data bytes => bytes.length
  | .any dataSize => dataSize

def Target.Matches (found : List UInt8) : Target → Prop
  | .data bytes => found = bytes
  | .any _ => True

instance (found : List UInt8) : (target : Target) → Decidable (target.Matches found)
  | .data bytes => inferInstanceAs (Decidable (found = bytes))
  | .any _ => .isTrue trivial

def deletionOf (type : UInt32) (target : Target) : List MetaItem → Option (List MetaItem)
  | [] => none
  | pos :: rest =>
    if pos.data.length < target.dataSize then none
    else if pos.type = type ∧ target.Matches pos.data then some rest
    else (deletionOf type target rest).map (pos :: ·)

def metaDataDelete (md : Container) (type : UInt32) (target : Target) : Status × Container :=
  match deletionOf type target md.items with
  | some items => (.ok, ⟨items, none, md.itemCount - 1⟩)
  | none => (.syserr, md)

def metaDataClear (_ : Container) : Container := metaDataCreate

def metaDataDuplicate (md : Container) : Option Container :=
  md.items.reverse.foldlM (fun copy item ↦ (metaDataInsert copy item).map Prod.snd) metaDataCreate

/-! ## The list of items -/

def Sorted (items : List MetaItem) : Prop :=
  (items.map key).Pairwise fun first second ↦ second.2.length ≤ first.2.length

variable {item entry : MetaItem} {items : List MetaItem}

theorem sorted_cons :
    Sorted (item :: items) ↔
      (∀ other ∈ items, other.data.length ≤ item.data.length) ∧ Sorted items := by
  rw [Sorted, map_cons, pairwise_cons, forall_mem_map]
  rfl

def MetaItem.Stored (item : MetaItem) : Prop :=
  item.Allocatable ∧ toPosix item.type item.data = item.data

theorem MetaItem.Allocatable.stored (h : entry.Allocatable) : entry.stored.Stored := by
  refine ⟨⟨h.1, h.2.1, ?_⟩, toPosix_idem _ _⟩
  change (toPosix entry.type entry.data).length ≤ _
  rw [length_toPosix]
  exact h.2.2

theorem MetaItem.Stored.stored_eq (h : item.Stored) : item.stored = item := by
  rw [stored, h.2]

theorem insertionOf_of_mem (hsorted : Sorted items) (hmem : entry.key ∈ items.map key) :
    ∃ next copiesMime newFormat, insertionOf entry items = .present next copiesMime newFormat ∧
      next.map key = items.map key ∧
      ((copiesMime = true → CanDup entry.mimeType) → (∀ item ∈ items, item.Stored) →
        ∀ item ∈ next, item.Stored) := by
  induction items with
  | nil => cases hmem
  | cons pos rest ih =>
    obtain ⟨hpos, hrest⟩ := sorted_cons.mp hsorted
    rw [map_cons, mem_cons] at hmem
    have hnot : ¬ pos.data.length < entry.data.length := by
      rcases hmem with hkey | hmem
      · have hdata : entry.data = pos.data := congrArg Prod.snd hkey
        rw [hdata]
        exact lt_irrefl _
      · obtain ⟨item, hitem, hkey⟩ := mem_map.mp hmem
        have hdata : item.data = entry.data := congrArg Prod.snd hkey
        rw [← hdata]
        exact Nat.not_lt.mpr (hpos item hitem)
    rw [insertionOf, if_neg hnot]
    by_cases hsame : pos.type = entry.type ∧ pos.data = entry.data
    · rw [if_pos hsame]
      refine ⟨_, _, _, rfl, rfl, fun hdup hstored item hitem ↦ ?_⟩
      rcases mem_cons.mp hitem with rfl | hitem
      · obtain ⟨⟨hmime, hplugin, hdata⟩, hposix⟩ := hstored pos mem_cons_self
        refine ⟨⟨?_, hplugin, hdata⟩, hposix⟩
        change CanDup (if _ then _ else _)
        split_ifs with hcopies
        · exact hdup hcopies
        · exact hmime
      · exact hstored item (mem_cons_of_mem _ hitem)
    · have hmem : entry.key ∈ rest.map key := by
        refine hmem.resolve_left fun hkey ↦ hsame ?_
        exact ⟨(congrArg Prod.fst hkey).symm, (congrArg Prod.snd hkey).symm⟩
      obtain ⟨next, copiesMime, newFormat, hnext, hkeys, hstored⟩ := ih hrest hmem
      rw [if_neg hsame, hnext]
      refine ⟨pos :: next, copiesMime, newFormat, rfl, ?_, fun hdup hitems ↦ ?_⟩
      · rw [map_cons, map_cons, hkeys]
      · rw [forall_mem_cons] at hitems ⊢
        exact ⟨hitems.1, hstored hdup hitems.2⟩

theorem insertionOf_of_notMem (hsorted : Sorted items) (hmem : entry.key ∉ items.map key) :
    ∃ next, insertionOf entry items = .added next ∧ next.Perm (entry.stored :: items) ∧
      Sorted next := by
  have hlength : entry.stored.data.length = entry.data.length := length_toPosix _ _
  induction items with
  | nil =>
    refine ⟨_, rfl, Perm.refl _, sorted_cons.mpr ⟨nofun, hsorted⟩⟩
  | cons pos rest ih =>
    obtain ⟨hpos, hrest⟩ := sorted_cons.mp hsorted
    rw [map_cons, mem_cons, not_or] at hmem
    rw [insertionOf]
    by_cases hsmaller : pos.data.length < entry.data.length
    · rw [if_pos hsmaller]
      refine ⟨_, rfl, Perm.refl _, sorted_cons.mpr ⟨fun other hother ↦ ?_, hsorted⟩⟩
      rcases mem_cons.mp hother with rfl | hother
      · omega
      · have hle := hpos other hother
        omega
    · have hne : ¬ (pos.type = entry.type ∧ pos.data = entry.data) := fun hsame ↦
        hmem.1 (Prod.ext hsame.1.symm hsame.2.symm)
      obtain ⟨next, hnext, hperm, hsortedNext⟩ := ih hrest hmem.2
      rw [if_neg hsmaller, if_neg hne, hnext]
      refine ⟨pos :: next, rfl, ?_, sorted_cons.mpr ⟨fun other hother ↦ ?_, hsortedNext⟩⟩
      · exact (hperm.cons pos).trans (Perm.swap _ _ _)
      · rcases mem_cons.mp (hperm.mem_iff.mp hother) with rfl | hother
        · omega
        · exact hpos other hother

theorem deletionOf_cases (type : UInt32) (target : Target) (hsorted : Sorted items) :
    (∃ next item, deletionOf type target items = some next ∧ items.Perm (item :: next) ∧
      next.Sublist items ∧ item.type = type ∧ target.Matches item.data ∧
      target.dataSize ≤ item.data.length) ∨
    (deletionOf type target items = none ∧ ∀ item ∈ items, item.type = type →
      target.Matches item.data → ¬ target.dataSize ≤ item.data.length) := by
  induction items with
  | nil => exact .inr ⟨rfl, nofun⟩
  | cons pos rest ih =>
    obtain ⟨hpos, hrest⟩ := sorted_cons.mp hsorted
    rw [deletionOf]
    by_cases hsmaller : pos.data.length < target.dataSize
    · rw [if_pos hsmaller]
      refine .inr ⟨rfl, fun item hitem _ _ ↦ Nat.not_le.mpr ?_⟩
      rcases mem_cons.mp hitem with rfl | hitem
      · exact hsmaller
      · exact (hpos item hitem).trans_lt hsmaller
    · rw [if_neg hsmaller]
      by_cases hfound : pos.type = type ∧ target.Matches pos.data
      · rw [if_pos hfound]
        exact .inl ⟨rest, pos, rfl, Perm.refl _, sublist_cons_self _ _, hfound.1,
          hfound.2, Nat.le_of_not_lt hsmaller⟩
      · rw [if_neg hfound]
        rcases ih hrest with ⟨next, item, hnext, hperm, hsublist, hitem⟩ | ⟨hnone, hall⟩
        · refine .inl ⟨pos :: next, item, ?_, ?_, hsublist.cons_cons pos, hitem⟩
          · rw [hnext, Option.map_some]
          · exact (hperm.cons pos).trans (Perm.swap _ _ _)
        · refine .inr ⟨by rw [hnone, Option.map_none], fun item hitem htype hmatches ↦ ?_⟩
          rcases mem_cons.mp hitem with rfl | hitem
          · exact absurd ⟨htype, hmatches⟩ hfound
          · exact hall item hitem htype hmatches

/-! ## Well-formed containers -/

structure WellFormed (md : Container) : Prop where
  sorted : Sorted md.items
  count_eq : md.itemCount.toNat = md.items.length
  stored : ∀ item ∈ md.items, item.Stored

def Distinct (md : Container) : Prop := (md.items.map key).Nodup

theorem wellFormed_create : WellFormed metaDataCreate := ⟨Pairwise.nil, rfl, nofun⟩

theorem distinct_create : Distinct metaDataCreate := nodup_nil

section Operations

variable {md : Container} {entry : MetaItem}

section

variable (h : WellFormed md)
include h

theorem WellFormed.insert_of_mem
    (hmem : entry.key ∈ md.items.map key) (hdup : CanDup entry.mimeType) :
    ∃ next, metaDataInsert md entry = some (.syserr, next) ∧ WellFormed next ∧
      next.items.map key = md.items.map key := by
  obtain ⟨items, copiesMime, newFormat, hinsertion, hkeys, hstored⟩ :=
    insertionOf_of_mem h.sorted hmem
  refine ⟨⟨items, if copiesMime || newFormat then none else md.sbuf, md.itemCount⟩, ?_,
    ⟨?_, ?_, hstored (fun _ ↦ hdup) h.stored⟩, hkeys⟩
  · rw [metaDataInsert, hinsertion]
    exact if_neg fun hstop ↦ hstop.2 hdup
  · change Pairwise _ (items.map key)
    rw [hkeys]
    exact h.sorted
  · have hlength := congrArg length hkeys
    rw [length_map, length_map] at hlength
    exact h.count_eq.trans hlength.symm

theorem WellFormed.insert_of_notMem
    (hmem : entry.key ∉ md.items.map key) (hentry : entry.Allocatable)
    (hcount : md.items.length + 1 < 2 ^ 32) :
    ∃ next, metaDataInsert md entry = some (.ok, next) ∧ WellFormed next ∧
      next.items.Perm (entry.stored :: md.items) := by
  obtain ⟨items, hinsertion, hperm, hsorted⟩ := insertionOf_of_notMem h.sorted hmem
  refine ⟨⟨items, none, md.itemCount + 1⟩, ?_, ⟨hsorted, ?_, fun item hitem ↦ ?_⟩, hperm⟩
  · rw [metaDataInsert, hinsertion]
    exact if_pos hentry
  · change (md.itemCount + 1).toNat = items.length
    rw [hperm.length_eq, length_cons, ← h.count_eq, UInt32.toNat_add]
    exact Nat.mod_eq_of_lt (by rw [h.count_eq]; exact hcount)
  · rcases mem_cons.mp (hperm.mem_iff.mp hitem) with rfl | hitem
    · exact hentry.stored
    · exact h.stored item hitem

/-- A stored entry that is inserted is there afterwards, and is put into the list if it is new. -/
theorem WellFormed.insert (hdistinct : Distinct md) (hentry : entry.Stored)
    (hcount : md.items.length + 1 < 2 ^ 32) :
    ∃ status next, metaDataInsert md entry = some (status, next) ∧ WellFormed next ∧
      Distinct next ∧ next.items.length ≤ md.items.length + 1 ∧
      (∀ key, key ∈ next.items.map MetaItem.key ↔
        key = entry.key ∨ key ∈ md.items.map MetaItem.key) ∧
      (entry.key ∈ md.items.map key ∧ status = .syserr ∨
        entry.key ∉ md.items.map key ∧ status = .ok ∧
          next.items.Perm (entry :: md.items)) := by
  by_cases hmem : entry.key ∈ md.items.map key
  · obtain ⟨next, hnext, hwell, hkeys⟩ := h.insert_of_mem hmem hentry.1.1
    have hlength := congrArg length hkeys
    rw [length_map, length_map] at hlength
    refine ⟨_, next, hnext, hwell, ?_, by omega, fun key ↦ ?_, .inl ⟨hmem, rfl⟩⟩
    · rw [Distinct, hkeys]
      exact hdistinct
    · rw [hkeys]
      exact (or_iff_right_of_imp fun heq ↦ heq ▸ hmem).symm
  · obtain ⟨next, hnext, hwell, hperm⟩ := h.insert_of_notMem hmem hentry.1 hcount
    rw [hentry.stored_eq] at hperm
    have hkeys := hperm.map key
    refine ⟨_, next, hnext, hwell, ?_, hperm.length_eq.le, fun key ↦ ?_, .inr ⟨hmem, rfl, hperm⟩⟩
    · exact hkeys.nodup_iff.mpr (nodup_cons.mpr ⟨hmem, hdistinct⟩)
    · rw [hkeys.mem_iff, map_cons, mem_cons]

theorem WellFormed.foldlM_insert (hdistinct : Distinct md)
    (items : List MetaItem) (hitems : ∀ item ∈ items, item.Stored)
    (hcount : md.items.length + items.length < 2 ^ 32) :
    ∃ next, items.foldlM (fun md item ↦ (metaDataInsert md item).map Prod.snd) md = some next ∧
      WellFormed next ∧ Distinct next ∧
      (∀ key, key ∈ next.items.map MetaItem.key ↔
        key ∈ md.items.map MetaItem.key ∨ key ∈ items.map MetaItem.key) ∧
      (((md.items ++ items).map MetaItem.key).Nodup → next.items.Perm (md.items ++ items)) := by
  induction items generalizing md with
  | nil => exact ⟨md, rfl, h, hdistinct, fun key ↦ by simp, fun _ ↦ by rw [append_nil]⟩
  | cons item items ih =>
    rw [forall_mem_cons] at hitems
    rw [length_cons] at hcount
    obtain ⟨_, mid, hmid, hwell, hdistinctMid, hlength, hkeys, hcases⟩ :=
      h.insert hdistinct hitems.1 (by omega)
    obtain ⟨next, hnext, hwellNext, hdistinctNext, hkeysNext, hpermNext⟩ :=
      ih hwell hdistinctMid hitems.2 (by omega)
    refine ⟨next, ?_, hwellNext, hdistinctNext, fun key ↦ ?_, fun hnodup ↦ ?_⟩
    · rw [foldlM_cons, hmid]
      exact hnext
    · rw [hkeysNext, hkeys, map_cons, mem_cons, or_assoc, or_left_comm]
    · have hmiddle : (item :: (md.items ++ items)).Perm (md.items ++ item :: items) :=
        perm_middle.symm
      have hsplit := (hmiddle.map MetaItem.key).nodup_iff.mpr hnodup
      rw [map_cons, nodup_cons, map_append, mem_append, not_or] at hsplit
      have hperm := (hcases.resolve_left fun hmem ↦ hsplit.1.1 hmem.1).2.2
      have hall := (hperm.append_right items).trans hmiddle
      exact (hpermNext ((hall.map MetaItem.key).nodup_iff.mpr hnodup)).trans hall

theorem metaDataDuplicate_eq :
    ∃ copy, metaDataDuplicate md = some copy ∧ WellFormed copy ∧ Distinct copy ∧
      (∀ key, key ∈ copy.items.map MetaItem.key ↔ key ∈ md.items.map MetaItem.key) ∧
      (Distinct md → copy.items.Perm md.items) := by
  have hcount := UInt32.toNat_lt md.itemCount
  rw [h.count_eq] at hcount
  obtain ⟨copy, hcopy, hwell, hdistinct, hkeys, hperm⟩ :=
    wellFormed_create.foldlM_insert distinct_create md.items.reverse
      (fun item hitem ↦ h.stored item (mem_reverse.mp hitem))
      (by rw [length_reverse]; change 0 + _ < _; omega)
  refine ⟨copy, hcopy, hwell, hdistinct, fun key ↦ ?_, fun hmd ↦ (hperm ?_).trans (reverse_perm _)⟩
  · rw [hkeys, map_reverse, mem_reverse]
    exact or_iff_right not_mem_nil
  · change (md.items.reverse.map MetaItem.key).Nodup
    rw [map_reverse, nodup_reverse]
    exact hmd

theorem WellFormed.delete (type : UInt32) (target : Target) :
    (∃ next item, metaDataDelete md type target = (.ok, next) ∧ WellFormed next ∧
      md.items.Perm (item :: next.items) ∧ item.type = type ∧ target.Matches item.data ∧
      target.dataSize ≤ item.data.length) ∨
    (metaDataDelete md type target = (.syserr, md) ∧ ∀ item ∈ md.items, item.type = type →
      target.Matches item.data → ¬ target.dataSize ≤ item.data.length) := by
  rw [metaDataDelete]
  rcases deletionOf_cases type target h.sorted with
    ⟨items, item, hitems, hperm, hsublist, hitem⟩ | ⟨hnone, hall⟩
  · have hlength := hperm.length_eq
    rw [length_cons] at hlength
    have hcount : (md.itemCount - 1).toNat = items.length := by
      have hcount := h.count_eq
      rw [UInt32.toNat_sub_of_le _ _ (UInt32.le_iff_toNat_le.mpr (by change 1 ≤ _; omega))]
      change md.itemCount.toNat - 1 = items.length
      omega
    rw [hitems]
    refine .inl ⟨_, item, rfl, ⟨?_, hcount, fun other hother ↦ ?_⟩, hperm, hitem⟩
    · exact h.sorted.sublist (hsublist.map _)
    · exact h.stored other (hsublist.subset hother)
  · rw [hnone]
    exact .inr ⟨rfl, hall⟩

end

end Operations

/-! ## Sets of entries -/

abbrev Entry := UInt32 × List UInt8

inductive Operation where
  | insert (md : ℕ) (entry : MetaItem)
  | delete (md : ℕ) (type : UInt32) (target : Target)
  | merge (md source : ℕ)
  | clear (md : ℕ)
  | duplicate (source copy : ℕ)

/-- A container holds a set of entries. The functions that return nothing have no status. -/
def Allows (before : ℕ → Finset Entry) :
    Operation → Option Status → (ℕ → Finset Entry) → Prop
  | .insert md entry, status, after =>
    if entry.key ∈ before md then status = some .syserr ∧ after = before
    else status = some .ok ∧ after = update before md (insert entry.key (before md))
  | .delete md type (.data bytes), status, after =>
    if (type, bytes) ∈ before md then
      status = some .ok ∧ after = update before md ((before md).erase (type, bytes))
    else status = some .syserr ∧ after = before
  | .delete md type (.any 0), status, after =>
    (status = some .ok ↔ ∃ key ∈ before md, key.1 = type) ∧
      after = update before md ((before md).filter fun key ↦ key.1 ≠ type)
  | .delete md type (.any dataSize), status, after =>
    (∃ key ∈ before md, key.1 = type ∧ dataSize ≤ key.2.length ∧ status = some .ok ∧
      after = update before md ((before md).erase key)) ∨
    ((∀ key ∈ before md, key.1 = type → ¬ dataSize ≤ key.2.length) ∧
      status = some .syserr ∧ after = before)
  | .merge md source, status, after =>
    status = none ∧ after = update before md (before md ∪ before source)
  | .clear md, status, after => status = none ∧ after = update before md ∅
  | .duplicate source copy, status, after =>
    status = none ∧ after = update before copy (before source)

inductive History : List (Operation × Option Status) → (ℕ → Finset Entry) → Prop
  | nil : History [] fun _ ↦ ∅
  | step {log : List (Operation × Option Status)} {before after : ℕ → Finset Entry}
      {operation : Operation} {status : Option Status} (h : History log before)
      (hallows : Allows before operation status after) :
      History (log ++ [(operation, status)]) after

def entries (md : Container) : Finset Entry := (md.items.map key).toFinset

theorem mem_entries {md : Container} {key : Entry} :
    key ∈ entries md ↔ key ∈ md.items.map MetaItem.key := mem_toFinset

/-! ## Runs -/

structure Session where
  containers : ℕ → Container
  log : List (Operation × Option Status)

def Session.start : Session := ⟨fun _ ↦ metaDataCreate, []⟩

def perform (containers : ℕ → Container) :
    Operation → Option (Option Status × (ℕ → Container))
  | .insert md entry =>
    (metaDataInsert (containers md) entry).map fun (status, next) ↦
      (some status, update containers md next)
  | .delete md type target =>
    let (status, next) := metaDataDelete (containers md) type target
    some (some status, update containers md next)
  | .merge md source =>
    (metaDataMerge (containers md) (containers source)).map fun next ↦
      (none, update containers md next)
  | .clear md => some (none, update containers md (metaDataClear (containers md)))
  | .duplicate source copy =>
    (metaDataDuplicate (containers source)).map fun next ↦
      (none, update containers copy next)

def step (session : Session) (operation : Operation) : Option Session :=
  (perform session.containers operation).map fun (status, containers) ↦
    ⟨containers, session.log ++ [(operation, status)]⟩

/-- What is inserted can be allocated and is not rewritten, all entries of a type are deleted only
if there is at most one, and the number of items fits into its field. -/
def Supported (session : Session) : Operation → Prop
  | .insert md entry =>
    entry.Allocatable ∧ toPosix entry.type entry.data = entry.data ∧
      (session.containers md).items.length + 1 < 2 ^ 32
  | .delete md type (.any 0) =>
    (session.containers md).items.countP (fun item ↦ item.type = type) ≤ 1
  | .merge md source =>
    (session.containers md).items.length + (session.containers source).items.length < 2 ^ 32
  | _ => True

instance (session : Session) : DecidablePred (Supported session)
  | .insert _ _ => inferInstanceAs (Decidable (_ ∧ _ ∧ _))
  | .delete _ _ (.data _) => .isTrue trivial
  | .delete _ _ (.any 0) => inferInstanceAs (Decidable (_ ≤ 1))
  | .delete _ _ (.any (_ + 1)) => .isTrue trivial
  | .merge _ _ => inferInstanceAs (Decidable (_ < 2 ^ 32))
  | .clear _ => .isTrue trivial
  | .duplicate _ _ => .isTrue trivial

structure Refines (session : Session) : Prop where
  history : History session.log fun md ↦ entries (session.containers md)
  wellFormed : ∀ md, WellFormed (session.containers md)
  distinct : ∀ md, Distinct (session.containers md)

variable {session : Session}

section

variable (h : Refines session)
include h

/-- A call that changes one container into a well-formed one of which the sets allow the entries. -/
theorem Refines.update (md : ℕ) (status : Option Status)
    {operation : Operation} {next : Container} (hperform : perform session.containers operation =
      some (status, update session.containers md next)) (hnext : WellFormed next)
    (hdistinct : Distinct next)
    (hallows : Allows (fun md ↦ entries (session.containers md)) operation status
      (update (fun md ↦ entries (session.containers md)) md (entries next))) :
    ∃ last, step session operation = some last ∧ Refines last := by
  refine ⟨⟨Function.update session.containers md next, session.log ++ [(operation, status)]⟩, ?_,
    ?_, ?_, ?_⟩
  · rw [step, hperform, Option.map_some]
  · change History _ (entries ∘ Function.update session.containers md next)
    rw [comp_update]
    exact h.history.step hallows
  · exact (forall_update_iff _ fun _ md ↦ WellFormed md).mpr
      ⟨hnext, fun other _ ↦ h.wellFormed other⟩
  · exact (forall_update_iff _ fun _ md ↦ Distinct md).mpr
      ⟨hdistinct, fun other _ ↦ h.distinct other⟩

omit h in
theorem entries_of_perm_cons {md next : Container} (hdistinct : Distinct md)
    (hperm : md.items.Perm (item :: next.items)) :
    Distinct next ∧ entries next = (entries md).erase item.key := by
  have hkeys := hperm.map key
  rw [map_cons] at hkeys
  obtain ⟨hnot, hnodup⟩ := nodup_cons.mp (hkeys.nodup_iff.mp hdistinct)
  refine ⟨hnodup, ?_⟩
  ext key
  rw [Finset.mem_erase, mem_entries, mem_entries, hkeys.mem_iff, mem_cons]
  constructor
  · intro hkey
    exact ⟨fun heq ↦ hnot (heq ▸ hkey), .inr hkey⟩
  · rintro ⟨hne, hkey⟩
    exact hkey.resolve_left hne

theorem Refines.step_insert {md : ℕ}
    (hsupported : Supported session (.insert md entry)) :
    ∃ last, step session (.insert md entry) = some last ∧ Refines last := by
  obtain ⟨hallocatable, hposix, hcount⟩ := hsupported
  obtain ⟨status, next, hinsert, hnext, hdistinct, -, hkeys, hcases⟩ :=
    (h.wellFormed md).insert (h.distinct md) ⟨hallocatable, hposix⟩ hcount
  have hentries : entries next = insert entry.key (entries (session.containers md)) := by
    ext key
    rw [Finset.mem_insert, mem_entries, mem_entries, hkeys]
  refine h.update md (some status) ?_ hnext hdistinct ?_
  · rw [perform, hinsert, Option.map_some]
  · rw [Allows, hentries]
    rcases hcases with ⟨hmem, rfl⟩ | ⟨hmem, rfl, -⟩
    · rw [if_pos (mem_entries.mpr hmem), Finset.insert_eq_of_mem (mem_entries.mpr hmem)]
      exact ⟨rfl, update_eq_self _ _⟩
    · rw [if_neg (mem_entries.not.mpr hmem)]
      exact ⟨rfl, rfl⟩

theorem Refines.step_delete {md : ℕ} {type : UInt32} {target : Target}
    (hfound : ∀ next item, (session.containers md).items.Perm (item :: next) → item.type = type →
      target.Matches item.data → target.dataSize ≤ item.data.length →
      Allows (fun md ↦ entries (session.containers md)) (.delete md type target) (some .ok)
        (Function.update (fun md ↦ entries (session.containers md)) md
          ((entries (session.containers md)).erase item.key)))
    (hnone : (∀ item ∈ (session.containers md).items, item.type = type →
        target.Matches item.data → ¬ target.dataSize ≤ item.data.length) →
      Allows (fun md ↦ entries (session.containers md)) (.delete md type target) (some .syserr)
        fun md ↦ entries (session.containers md)) :
    ∃ last, step session (.delete md type target) = some last ∧ Refines last := by
  rcases (h.wellFormed md).delete type target with
    ⟨next, item, hdelete, hnext, hperm, htype, hmatches, hsize⟩ | ⟨hdelete, hall⟩
  · obtain ⟨hdistinct, hentries⟩ := entries_of_perm_cons (h.distinct md) hperm
    refine h.update md (some .ok) ?_ hnext hdistinct ?_
    · rw [perform, hdelete]
    · rw [hentries]
      exact hfound next.items item hperm htype hmatches hsize
  · refine h.update md (some .syserr) ?_ (h.wellFormed md) (h.distinct md) ?_
    · rw [perform, hdelete]
    · rw [update_eq_self]
      exact hnone hall

omit h in
theorem key_mem_entries {md : Container} {next : List MetaItem}
    (hperm : md.items.Perm (item :: next)) : item.key ∈ entries md :=
  mem_entries.mpr (mem_map_of_mem (hperm.mem_iff.mpr mem_cons_self))

theorem Refines.step_delete_data (md : ℕ) (type : UInt32)
    (bytes : List UInt8) :
    ∃ last, step session (.delete md type (.data bytes)) = some last ∧ Refines last := by
  refine h.step_delete (fun next item hperm htype hdata _ ↦ ?_) fun hall ↦ ?_
  · have hkey : item.key = (type, bytes) := Prod.ext htype hdata
    have hmem := key_mem_entries hperm
    rw [hkey] at hmem
    rw [Allows, if_pos hmem, hkey]
    exact ⟨rfl, rfl⟩
  · have hmem : (type, bytes) ∉ entries (session.containers md) := by
      rw [mem_entries, mem_map]
      rintro ⟨item, hitem, hkey⟩
      have hdata : item.data = bytes := congrArg Prod.snd hkey
      exact hall item hitem (congrArg Prod.fst hkey) hdata (by rw [hdata]; exact le_refl _)
    rw [Allows, if_neg hmem]
    exact ⟨rfl, rfl⟩

theorem Refines.step_delete_any (md : ℕ) (type : UInt32) (dataSize : ℕ) :
    ∃ last, step session (.delete md type (.any (dataSize + 1))) = some last ∧ Refines last := by
  refine h.step_delete (fun next item hperm htype _ hsize ↦ .inl ?_) fun hall ↦ .inr ?_
  · exact ⟨item.key, key_mem_entries hperm, htype, hsize, rfl, rfl⟩
  · refine ⟨fun key hkey htype ↦ ?_, rfl, rfl⟩
    obtain ⟨item, hitem, rfl⟩ := mem_map.mp (mem_entries.mp hkey)
    exact hall item hitem htype trivial

/-- With at most one item of the type, deleting one item deletes all of them. -/
theorem Refines.step_delete_all {md : ℕ} {type : UInt32}
    (hsupported : Supported session (.delete md type (.any 0))) :
    ∃ last, step session (.delete md type (.any 0)) = some last ∧ Refines last := by
  refine h.step_delete (fun next item hperm htype _ _ ↦ ?_) fun hall ↦ ?_
  · have hmem := key_mem_entries hperm
    have hothers : ∀ other ∈ next, other.type ≠ type := by
      have hcount : (session.containers md).items.countP (fun item ↦ item.type = type) ≤ 1 :=
        hsupported
      rw [hperm.countP_eq, countP_cons_of_pos (by simpa using htype)] at hcount
      have hzero : next.countP (fun item ↦ item.type = type) = 0 := by omega
      simpa using hzero
    refine ⟨iff_of_true rfl ⟨item.key, hmem, htype⟩, congrArg _ ?_⟩
    ext key
    rw [Finset.mem_erase, Finset.mem_filter, and_comm, and_congr_right_iff]
    intro hkey
    obtain ⟨other, hother, rfl⟩ := mem_map.mp (mem_entries.mp hkey)
    constructor
    · intro hne
      rcases mem_cons.mp (hperm.mem_iff.mp hother) with rfl | hother
      · exact absurd rfl hne
      · exact hothers other hother
    · intro hne heq
      exact hne ((congrArg Prod.fst heq).trans htype)
  · have hnone : ∀ key ∈ entries (session.containers md), key.1 ≠ type := by
      intro key hkey htype
      obtain ⟨item, hitem, rfl⟩ := mem_map.mp (mem_entries.mp hkey)
      exact hall item hitem htype trivial (Nat.zero_le _)
    refine ⟨iff_of_false nofun fun ⟨key, hkey, htype⟩ ↦ hnone key hkey htype, ?_⟩
    rw [Finset.filter_true_of_mem hnone]
    exact (update_eq_self _ _).symm

theorem Refines.step {operation : Operation}
    (hsupported : Supported session operation) :
    ∃ last, MetaData.step session operation = some last ∧ Refines last := by
  cases operation with
  | insert md entry => exact h.step_insert hsupported
  | delete md type target =>
    cases target with
    | data bytes => exact h.step_delete_data md type bytes
    | any dataSize =>
      cases dataSize with
      | zero => exact h.step_delete_all hsupported
      | succ dataSize => exact h.step_delete_any md type dataSize
  | merge md source =>
    obtain ⟨next, hmerge, hnext, hdistinct, hmem, -⟩ :=
      (h.wellFormed md).foldlM_insert (h.distinct md) _ (h.wellFormed source).stored hsupported
    refine h.update md none ?_ hnext hdistinct ⟨rfl, ?_⟩
    · rw [perform, metaDataMerge, hmerge, Option.map_some]
    · congr 1
      ext key
      rw [Finset.mem_union, mem_entries, mem_entries, mem_entries, hmem]
  | clear md => exact h.update md none rfl wellFormed_create distinct_create ⟨rfl, rfl⟩
  | duplicate source copy =>
    obtain ⟨next, hcopy, hnext, hdistinct, hmem, -⟩ := metaDataDuplicate_eq (h.wellFormed source)
    refine h.update copy none ?_ hnext hdistinct ⟨rfl, ?_⟩
    · rw [perform, hcopy, Option.map_some]
    · congr 1
      ext key
      rw [mem_entries, mem_entries, hmem]

end

theorem refines_start : Refines Session.start :=
  ⟨.nil, fun _ ↦ wellFormed_create, fun _ ↦ distinct_create⟩

/-- Along every supported run the containers are sorted, counted and without duplicates, and the
results are those of sets of entries. -/
theorem containers_refine_sets (operations : List Operation)
    (hsupported : Along step Supported Session.start operations) :
    ∃ last, run step Session.start operations = some last ∧
      History last.log (fun md ↦ entries (last.containers md)) ∧
      ∀ md, Sorted (last.containers md).items ∧
        (last.containers md).itemCount.toNat = (last.containers md).items.length ∧
        ((last.containers md).items.map key).Nodup := by
  obtain ⟨last, hrun, hlast⟩ := run_total (fun _ _ h hcall ↦ h.step hcall) refines_start hsupported
  refine ⟨last, hrun, hlast.history, fun md ↦ ⟨?_, ?_, hlast.distinct md⟩⟩
  · exact (hlast.wellFormed md).sorted
  · exact (hlast.wellFormed md).count_eq

def plainItem (type : UInt32) (data : List UInt8) : MetaItem := ⟨none, none, data, type, .binary⟩

theorem containers_refine_sets_short :
    let operations : List Operation := [.insert 0 (plainItem 3 [1]), .insert 0 (plainItem 3 [1]),
      .insert 1 (plainItem 2 [47, 0]), .merge 1 0, .duplicate 1 2, .delete 1 3 (.any 0)]
    Along step Supported Session.start operations ∧
      ∃ last, run step Session.start operations = some last ∧
        History last.log (fun md ↦ entries (last.containers md)) ∧
        ∀ md, Sorted (last.containers md).items ∧
          (last.containers md).itemCount.toNat = (last.containers md).items.length ∧
          ((last.containers md).items.map key).Nodup := by
  intro operations
  have hsupported : Along step Supported Session.start operations := by decide
  exact ⟨hsupported, containers_refine_sets operations hsupported⟩

/-- A file name with a backslash is stored twice, because it is compared with the stored name in
which the backslash was replaced; and of two entries of a type only one is deleted. -/
theorem duplicate_filename_and_partial_delete :
    (∃ last, run step Session.start [.insert 0 (plainItem 2 [97, 92, 98, 0]),
        .insert 0 (plainItem 2 [97, 92, 98, 0])] = some last ∧
      last.log.map Prod.snd = [some .ok, some .ok] ∧
      (last.containers 0).items.map key = [(2, [97, 47, 98, 0]), (2, [97, 47, 98, 0])]) ∧
    ∃ last, run step Session.start [.insert 0 (plainItem 3 [1]), .insert 0 (plainItem 3 [2]),
        .delete 0 3 (.any 0)] = some last ∧
      (last.containers 0).items.map key = [(3, [2])] :=
  ⟨⟨_, rfl, by decide, by decide⟩, ⟨_, rfl, by decide⟩⟩

end Gnunet.Util.MetaData
