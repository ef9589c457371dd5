import Mathlib.Data.List.Nodup
import Mathlib.Data.List.Perm.Basic
import Mathlib.Order.MinMax

/-!
# The union of two lists with the latest values

Two lists give a value to each of their keys. Their union has every key of the two lists once, with
the larger value if both have the key. It is made by two passes: an entry of the first list is taken
if its value is larger than that in the second list, one of the second list also if it is equal.
-/

namespace Gnunet.Lib.LatestUnion

open List Option Prod

variable {κ ν : Type*} [DecidableEq κ] [LinearOrder ν] {xs ys zs : List (κ × ν)} {k : κ} {v : ν}

def valueOf (entries : List (κ × ν)) (k : κ) : Option ν :=
  (entries.find? fun entry ↦ entry.1 = k).map snd

def isLatest (other : List (κ × ν)) (takeEqual : Bool) (entry : κ × ν) : Bool :=
  match valueOf other entry.1 with
  | none => true
  | some v => v < entry.2 || (v = entry.2 && takeEqual)

def latest (xs ys : List (κ × ν)) : List (κ × ν) :=
  xs.filter (isLatest ys false) ++ ys.filter (isLatest xs true)

section Values

omit [LinearOrder ν]

theorem valueOf_eq_none_iff : valueOf xs k = none ↔ k ∉ xs.map fst := by
  rw [valueOf, map_eq_none_iff, find?_eq_none]
  constructor
  · intro hnone hmem
    obtain ⟨entry, hentry, rfl⟩ := mem_map.mp hmem
    exact hnone entry hentry (decide_eq_true rfl)
  · intro hmem entry hentry htest
    rw [← of_decide_eq_true htest] at hmem
    exact hmem (mem_map_of_mem hentry)

theorem mem_of_valueOf (h : valueOf xs k = some v) : (k, v) ∈ xs := by
  obtain ⟨entry, hfind, rfl⟩ := map_eq_some_iff.mp h
  have htest := find?_some hfind
  have hkey : entry.1 = k := of_decide_eq_true htest
  rw [← hkey]
  exact mem_of_find?_eq_some hfind

theorem valueOf_eq_some_iff (hxs : (xs.map fst).Nodup) : valueOf xs k = some v ↔ (k, v) ∈ xs := by
  refine ⟨mem_of_valueOf, fun hmem ↦ ?_⟩
  cases hvalue : valueOf xs k with
  | none => exact absurd (mem_map_of_mem hmem) (valueOf_eq_none_iff.mp hvalue)
  | some w =>
    have hpair := inj_on_of_nodup_map hxs hmem (mem_of_valueOf hvalue) rfl
    exact congrArg some (congrArg snd hpair).symm

theorem perm_of_valueOf_eq (hxs : (xs.map fst).Nodup) (hys : (ys.map fst).Nodup)
    (h : ∀ k, valueOf xs k = valueOf ys k) : xs.Perm ys := by
  apply (perm_ext_iff_of_nodup hxs.of_map hys.of_map).mpr
  rintro ⟨k, v⟩
  rw [← valueOf_eq_some_iff hxs, h, valueOf_eq_some_iff hys]

end Values

theorem isLatest_iff {takeEqual : Bool} : isLatest xs takeEqual (k, v) = true ↔
    ∀ w, valueOf xs k = some w → w < v ∨ w = v ∧ takeEqual = true := by
  rw [isLatest]
  cases hvalue : valueOf xs k with
  | none => exact iff_of_true rfl fun w hw ↦ absurd hw.symm (some_ne_none w)
  | some w =>
    simp only [Bool.or_eq_true, Bool.and_eq_true, decide_eq_true_eq, some.injEq, forall_eq']

theorem mem_latest : (k, v) ∈ latest xs ys ↔ (k, v) ∈ xs ∧ isLatest ys false (k, v) = true ∨
      (k, v) ∈ ys ∧ isLatest xs true (k, v) = true := by
  rw [latest, mem_append, mem_filter, mem_filter]

section

variable (hxs : (xs.map fst).Nodup) (hys : (ys.map fst).Nodup)
include hxs hys

theorem nodup_latest : ((latest xs ys).map fst).Nodup := by
  rw [latest, map_append]
  apply Nodup.append
  · exact hxs.sublist (filter_sublist.map _)
  · exact hys.sublist (filter_sublist.map _)
  · intro k hleft hright
    obtain ⟨⟨_, v⟩, hv, rfl⟩ := mem_map.mp hleft
    obtain ⟨⟨_, w⟩, hw, rfl⟩ := mem_map.mp hright
    obtain ⟨hvmem, hvlatest⟩ := mem_filter.mp hv
    obtain ⟨hwmem, hwlatest⟩ := mem_filter.mp hw
    have hfirst := isLatest_iff.mp hvlatest w ((valueOf_eq_some_iff hys).mpr hwmem)
    have hsecond := isLatest_iff.mp hwlatest v ((valueOf_eq_some_iff hxs).mpr hvmem)
    have hlt : w < v := hfirst.resolve_right fun hboth ↦ Bool.false_ne_true hboth.2
    cases hsecond with
    | inl hgt => exact lt_asymm hlt hgt
    | inr heq => exact hlt.ne heq.1.symm

theorem valueOf_latest (k : κ) :
    valueOf (latest xs ys) k = merge max (valueOf xs k) (valueOf ys k) := by
  ext v
  rw [valueOf_eq_some_iff (nodup_latest hxs hys), mem_latest, isLatest_iff,
    isLatest_iff, ← valueOf_eq_some_iff hxs, ← valueOf_eq_some_iff hys]
  cases valueOf xs k with
  | none => simp
  | some a =>
    cases valueOf ys k with
    | none => simp
    | some b => grind

theorem mem_keys_latest : k ∈ (latest xs ys).map fst ↔ k ∈ xs.map fst ∨ k ∈ ys.map fst := by
  rw [← not_iff_not, not_or, ← valueOf_eq_none_iff, ← valueOf_eq_none_iff, ← valueOf_eq_none_iff,
    valueOf_latest hxs hys]
  cases valueOf xs k <;> cases valueOf ys k <;> simp

theorem latest_comm : (latest xs ys).Perm (latest ys xs) := by
  apply perm_of_valueOf_eq (nodup_latest hxs hys) (nodup_latest hys hxs)
  intro k
  rw [valueOf_latest hxs hys, valueOf_latest hys hxs]
  cases valueOf xs k <;> cases valueOf ys k <;> simp [max_comm]

end

theorem latest_self (hxs : (xs.map fst).Nodup) : (latest xs xs).Perm xs := by
  apply perm_of_valueOf_eq (nodup_latest hxs hxs) hxs
  intro k
  rw [valueOf_latest hxs hxs]
  cases valueOf xs k <;> simp

theorem latest_assoc (hxs : (xs.map fst).Nodup) (hys : (ys.map fst).Nodup)
    (hzs : (zs.map fst).Nodup) :
    (latest (latest xs ys) zs).Perm (latest xs (latest ys zs)) := by
  have hxy := nodup_latest hxs hys
  have hyz := nodup_latest hys hzs
  apply perm_of_valueOf_eq (nodup_latest hxy hzs) (nodup_latest hxs hyz)
  intro k
  rw [valueOf_latest hxy hzs, valueOf_latest hxs hys, valueOf_latest hxs hyz,
    valueOf_latest hys hzs]
  cases valueOf xs k <;> cases valueOf ys k <;> cases valueOf zs k <;> simp [max_assoc]

end Gnunet.Lib.LatestUnion
