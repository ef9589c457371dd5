import Mathlib.Data.List.AList

/-!
# Searching a keyed store by value

`AList` keeps at most one value for each key.  `findKey` is the linear search of a store for the
first value that satisfies a test.
-/

namespace Gnunet.Lib.AssocStore

variable {κ α : Type*} [DecidableEq κ]

def findKey (store : AList fun _ : κ ↦ α) (test : α → Bool) : Option κ :=
  (store.entries.find? fun entry ↦ test entry.2).map Sigma.fst

theorem findKey_some {store : AList fun _ : κ ↦ α} {test : α → Bool} {key : κ}
    (h : findKey store test = some key) :
    ∃ value, store.lookup key = some value ∧ test value = true := by
  obtain ⟨entry, hfind, rfl⟩ := Option.map_eq_some_iff.mp h
  refine ⟨entry.2, ?_, by simpa using List.find?_some hfind⟩
  exact AList.mem_lookup_iff.mpr (List.mem_of_find?_eq_some hfind)

theorem findKey_none {store : AList fun _ : κ ↦ α} {test : α → Bool}
    (h : findKey store test = none) {key : κ} {value : α}
    (hlookup : store.lookup key = some value) : test value = false := by
  have hfind := List.find?_eq_none.mp (Option.map_eq_none_iff.mp h)
  have hmem := AList.mem_lookup_iff.mp (show value ∈ store.lookup key from hlookup)
  simpa using hfind ⟨key, value⟩ hmem

theorem lookup_insert_eq (store : AList fun _ : κ ↦ α) (key other : κ) (value : α) :
    (store.insert key value).lookup other =
      if other = key then some value else store.lookup other := by
  by_cases h : other = key
  · subst h
    simp
  · simp [h]

theorem lookup_erase_eq (store : AList fun _ : κ ↦ α) (key other : κ) :
    (store.erase key).lookup other = if other = key then none else store.lookup other := by
  by_cases h : other = key
  · subst h
    simp
  · simp [h]

end Gnunet.Lib.AssocStore
