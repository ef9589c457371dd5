import Gnunet.Util.MetaDataSerialization

/-!
# Testing meta data for equality

`GNUNET_CONTAINER_meta_data_test_equal` compares the numbers of items and looks for every item of
the first container in the second one.  This is equality of the multisets of items as long as no
container has an entry twice.  An entry comes to be there twice when a name is inserted that
differs from a stored one only by the separators that are replaced.
-/

namespace Gnunet.Util.MetaData

open Lib.NetworkOrder Lib.Runs Function List

def contents (items : List MetaItem) : List (UInt32 × MetaFormat × List UInt8) :=
  items.map fun item ↦ (item.type, item.format, item.data)

/-- The inner loop. It ends at the first smaller item. -/
def foundIn (i : MetaItem) : List MetaItem → Bool
  | [] => false
  | j :: rest =>
    if i.type = j.type ∧ i.format = j.format ∧ i.data = j.data then true
    else if j.data.length < i.data.length then false
    else foundIn i rest

/-- The numbers of the containers stand for their addresses. -/
def metaDataTestEqual (containers : ℕ → Container) (md1 md2 : ℕ) : Bool :=
  md1 = md2 || ((containers md1).itemCount = (containers md2).itemCount &&
    (containers md1).items.all (foundIn · (containers md2).items))

theorem foundIn_iff {i : MetaItem} {items : List MetaItem} (hsorted : Sorted items) :
    foundIn i items ↔ (i.type, i.format, i.data) ∈ contents items := by
  induction items with
  | nil => simp [foundIn, contents]
  | cons j rest ih =>
    obtain ⟨hle, hrest⟩ := sorted_cons.mp hsorted
    rw [contents, map_cons, mem_cons, ← contents, ← ih hrest, foundIn]
    split_ifs with hfound hsmaller
    · simp [hfound]
    · have hnot : ¬foundIn i rest := by
        rw [ih hrest, contents, mem_map]
        rintro ⟨other, hother, hequal⟩
        have hdata : other.data = i.data := congrArg (·.2.2) hequal
        have hother := hle other hother
        rw [hdata] at hother
        omega
      simp [hfound, hnot]
    · simp [hfound]

def Apart (containers : ℕ → Container) : Prop :=
  ∀ md, WellFormed (containers md) ∧ Distinct (containers md)

theorem Apart.testEqual_iff {containers : ℕ → Container} (h : Apart containers) (md1 md2 : ℕ) :
    metaDataTestEqual containers md1 md2 ↔
      (contents (containers md1).items).Perm (contents (containers md2).items) := by
  have hnodup : (contents (containers md1).items).Nodup := by
    refine Nodup.of_map (fun content ↦ (content.1, content.2.2)) ?_
    rw [contents, map_map]
    exact (h md1).2
  have hcount : (containers md1).itemCount = (containers md2).itemCount ↔
      (contents (containers md1).items).length = (contents (containers md2).items).length := by
    rw [← UInt32.toNat_inj, (h md1).1.count_eq, (h md2).1.count_eq, contents, contents, length_map,
      length_map]
  have hall : (containers md1).items.all (foundIn · (containers md2).items) ↔
      contents (containers md1).items ⊆ contents (containers md2).items := by
    rw [all_eq_true, subset_def, contents, forall_mem_map]
    exact forall₂_congr fun i _ ↦ foundIn_iff (h md2).1.sorted
  rw [metaDataTestEqual, Bool.or_eq_true, Bool.and_eq_true, decide_eq_true_iff,
    decide_eq_true_iff, hcount, hall]
  constructor
  · rintro (rfl | ⟨hlength, hsubset⟩)
    · exact .refl _
    · exact (subperm_of_subset hnodup hsubset).perm_of_length_le hlength.ge
  · intro hperm
    exact .inr ⟨hperm.length_eq, hperm.subset⟩

/-- What is inserted can be allocated, stays a new entry when its separators are replaced, and the
number of items fits into its field. -/
def KeepsApart (session : Session) : Operation → Prop
  | .insert md entry => entry.Allocatable ∧ (session.containers md).items.length + 1 < 2 ^ 32 ∧
      (entry.stored.key ∈ (session.containers md).items.map MetaItem.key →
        entry.key ∈ (session.containers md).items.map MetaItem.key)
  | .merge md source =>
    (session.containers md).items.length + (session.containers source).items.length < 2 ^ 32
  | _ => True

instance (session : Session) : DecidablePred (KeepsApart session)
  | .insert _ _ => inferInstanceAs (Decidable (_ ∧ _ ∧ (_ → _)))
  | .merge _ _ => inferInstanceAs (Decidable (_ < 2 ^ 32))
  | .delete _ _ _ => .isTrue trivial
  | .clear _ => .isTrue trivial
  | .duplicate _ _ => .isTrue trivial

variable {session : Session}

theorem Apart.update {md : ℕ} {next : Container} (h : Apart session.containers)
    {operation : Operation} {status : Option Status}
    (hperform : perform session.containers operation =
      some (status, update session.containers md next)) (hnext : WellFormed next ∧ Distinct next) :
    ∃ last, step session operation = some last ∧ Apart last.containers := by
  refine ⟨_, by rw [step, hperform, Option.map_some], ?_⟩
  exact (forall_update_iff _ fun _ md ↦ WellFormed md ∧ Distinct md).mpr
    ⟨hnext, fun other _ ↦ h other⟩

theorem Apart.step (h : Apart session.containers) {operation : Operation}
    (hkeeps : KeepsApart session operation) :
    ∃ last, MetaData.step session operation = some last ∧ Apart last.containers := by
  cases operation with
  | insert md entry =>
    obtain ⟨hentry, hcount, hstored⟩ := hkeeps
    obtain ⟨hwell, hdistinct⟩ := h md
    by_cases hmem : entry.key ∈ (session.containers md).items.map MetaItem.key
    · obtain ⟨next, hinsert, hnext, hkeys⟩ := hwell.insert_of_mem hmem hentry.1
      refine h.update (by rw [perform, hinsert, Option.map_some]) ⟨hnext, ?_⟩
      rw [Distinct, hkeys]
      exact hdistinct
    · obtain ⟨next, hinsert, hnext, hperm⟩ := hwell.insert_of_notMem hmem hentry hcount
      refine h.update (by rw [perform, hinsert, Option.map_some]) ⟨hnext, ?_⟩
      apply (hperm.map MetaItem.key).nodup_iff.mpr
      exact nodup_cons.mpr ⟨fun hagain ↦ hmem (hstored hagain), hdistinct⟩
  | delete md type target =>
    obtain ⟨hwell, hdistinct⟩ := h md
    rcases hwell.delete type target with ⟨next, item, hdelete, hnext, hperm, -⟩ | ⟨hdelete, -⟩
    · exact h.update (by rw [perform, hdelete]) ⟨hnext, (entries_of_perm_cons hdistinct hperm).1⟩
    · exact h.update (by rw [perform, hdelete]) (h md)
  | merge md source =>
    obtain ⟨next, hmerge, hnext, hdistinct, -⟩ :=
      (h md).1.foldlM_insert (h md).2 _ (h source).1.stored hkeeps
    exact h.update (by rw [perform, metaDataMerge, hmerge, Option.map_some]) ⟨hnext, hdistinct⟩
  | clear md => exact h.update rfl ⟨wellFormed_create, distinct_create⟩
  | duplicate source copy =>
    obtain ⟨next, hcopy, hnext, hdistinct, -⟩ := metaDataDuplicate_eq (h source).1
    exact h.update (by rw [perform, hcopy, Option.map_some]) ⟨hnext, hdistinct⟩

section Reading

/-- The entries up to the first one that is not well formed. -/
def entriesFrom (cdata mdata : List UInt8) : ℕ → ℕ → ℕ → List MetaItem
  | 0, _, _ => []
  | count + 1, i, left =>
    match readEntry cdata mdata i left with
    | none => []
    | some (item, left) => item :: entriesFrom cdata mdata count (i + 1) left

/-- The entries that `GNUNET_CONTAINER_meta_data_deserialize` inserts into a new container. -/
def entriesIn (zlib : Zlib) (input : List UInt8) : List MetaItem :=
  let ic := (ntohl ((input.drop 4).take 4)).toNat
  let dataSize := (ntohl ((input.drop 8).take 4)).toNat
  match contentsOf zlib (ntohl (input.take 4)) dataSize (input.drop sizeofMetaDataHeader) with
  | none => []
  | some cdata => entriesFrom cdata (cdata.drop (ic * sizeofMetaDataEntry)) ic 0
      (dataSize - ic * sizeofMetaDataEntry)

def insertAll (items : List MetaItem) (md : Container) : Option Container :=
  items.foldlM (fun md item ↦ (metaDataInsert md item).map Prod.snd) md

theorem readEntries_eq_insertAll (cdata mdata : List UInt8) (count i left : ℕ) (md : Container) :
    readEntries cdata mdata count i left md =
      insertAll (entriesFrom cdata mdata count i left) md := by
  induction count generalizing i left md with
  | zero => rfl
  | succ count ih =>
    rw [readEntries, entriesFrom]
    cases readEntry cdata mdata i left with
    | none => rfl
    | some read =>
      dsimp only
      rw [insertAll, foldlM_cons]
      cases metaDataInsert md read.1 with
      | none => rfl
      | some result => exact ih _ _ _

theorem metaDataDeserialize_cases (zlib : Zlib) (input : List UInt8) :
    metaDataDeserialize zlib input = some none ∨ metaDataDeserialize zlib input =
      (insertAll (entriesIn zlib input) metaDataCreate).map some := by
  unfold metaDataDeserialize entriesIn
  dsimp only
  split_ifs
  · exact .inl rfl
  · exact .inl rfl
  · exact .inl rfl
  · cases contentsOf zlib (ntohl (input.take 4)) (ntohl ((input.drop 8).take 4)).toNat
      (input.drop sizeofMetaDataHeader) with
    | none => exact .inl rfl
    | some cdata =>
      dsimp only
      rw [readEntries_eq_insertAll]
      exact .inr rfl

theorem run_insert (items : List MetaItem) (session : Session) :
    (run step session (items.map (Operation.insert 0))).map (·.containers 0) =
      insertAll items (session.containers 0) := by
  induction items generalizing session with
  | nil => rfl
  | cons item items ih =>
    rw [map_cons, run_cons, step, perform, insertAll, foldlM_cons]
    cases metaDataInsert (session.containers 0) item with
    | none => rfl
    | some result =>
      obtain ⟨status, next⟩ := result
      have hself : update session.containers 0 next 0 = next := update_self _ _ _
      exact (ih _).trans (congrArg (insertAll items) hself)

end Reading

/-- An operation, or a container is replaced by what is read from a buffer. -/
inductive Action
  | operate (operation : Operation)
  | deserialize (md : ℕ) (input : List UInt8)

def act (zlib : Zlib) (session : Session) : Action → Option Session
  | .operate operation => step session operation
  | .deserialize md input => (metaDataDeserialize zlib input).map fun read ↦
      { session with
        containers := read.elim session.containers (update session.containers md ·) }

def ActsApart (zlib : Zlib) (session : Session) : Action → Prop
  | .operate operation => KeepsApart session operation
  | .deserialize _ input =>
    Along step KeepsApart Session.start ((entriesIn zlib input).map (Operation.insert 0))

instance (zlib : Zlib) (session : Session) : DecidablePred (ActsApart zlib session)
  | .operate operation => inferInstanceAs (Decidable (KeepsApart session operation))
  | .deserialize _ _ => inferInstanceAs (Decidable (Along _ _ _ _))

theorem apart_start : Apart Session.start.containers := fun _ ↦ ⟨wellFormed_create, distinct_create⟩

theorem Apart.act {zlib : Zlib} (h : Apart session.containers) {action : Action}
    (hacts : ActsApart zlib session action) :
    ∃ last, MetaData.act zlib session action = some last ∧ Apart last.containers := by
  cases action with
  | operate operation => exact h.step hacts
  | deserialize md input =>
    obtain ⟨inserted, hrun, hinserted⟩ :=
      run_total (fun _ _ hapart hkeeps ↦ Apart.step hapart hkeeps) apart_start hacts
    have hitems : insertAll (entriesIn zlib input) metaDataCreate = some (inserted.containers 0) :=
      (run_insert (entriesIn zlib input) Session.start).symm.trans (congrArg _ hrun)
    rw [MetaData.act]
    rcases metaDataDeserialize_cases zlib input with hread | hread
    · exact ⟨session, by rw [hread]; rfl, h⟩
    · refine ⟨_, by rw [hread, hitems]; rfl, ?_⟩
      exact (forall_update_iff _ fun _ md ↦ WellFormed md ∧ Distinct md).mpr
        ⟨hinserted 0, fun other _ ↦ h other⟩

/-- In every run in which entries are kept apart, the test is equality of the multisets of items.
A container that is read from a buffer is one of a run of insertions. -/
theorem meta_data_test_equal_perm (zlib : Zlib) (actions : List Action)
    (hkeeps : Along (act zlib) (ActsApart zlib) Session.start actions) :
    (∃ last, run (act zlib) Session.start actions = some last ∧
      (∀ md1 md2, metaDataTestEqual last.containers md1 md2 ↔
        (contents (last.containers md1).items).Perm (contents (last.containers md2).items)) ∧
      Equivalence (metaDataTestEqual last.containers · ·)) ∧
    ∀ input md, metaDataDeserialize zlib input = some (some md) →
      ∃ (items : List MetaItem) (last : _),
        run step Session.start (items.map (Operation.insert 0)) = some last ∧
          last.containers 0 = md := by
  constructor
  · obtain ⟨last, hrun, hlast⟩ :=
      run_total (fun _ _ hapart hacts ↦ Apart.act hapart hacts) apart_start hkeeps
    refine ⟨last, hrun, hlast.testEqual_iff, ?_⟩
    simp only [hlast.testEqual_iff]
    exact ⟨fun _ ↦ .refl _, .symm, .trans⟩
  · intro input md hread
    refine ⟨entriesIn zlib input, Option.map_eq_some_iff.mp ((run_insert _ _).trans ?_)⟩
    rcases metaDataDeserialize_cases zlib input with hcase | hcase
    · cases hread.symm.trans hcase
    · obtain ⟨_, hinsert, hsome⟩ := Option.map_eq_some_iff.mp (hcase.symm.trans hread)
      exact hinsert.trans hsome

/-- One container is merged into another one; a third one with the same items is read. -/
def readingActions : List Action :=
  [.operate (.insert 0 (plainItem 3 [1])), .operate (.insert 0 (plainItem 2 [97, 0])),
    .operate (.merge 1 0), .deserialize 2 (htonl 2 ++ htonl 2 ++ htonl 43 ++
      metaDataEntry (plainItem 3 [1]) ++ metaDataEntry (plainItem 2 [97, 0]) ++ [97, 0, 1])]

theorem meta_data_test_equal_perm_read :
    ∃ last, run (act storingZlib) Session.start readingActions = some last ∧
      Equivalence (metaDataTestEqual last.containers · ·) ∧
      metaDataTestEqual last.containers 1 2 = true ∧
      (contents (last.containers 1).items).Perm (contents (last.containers 2).items) := by
  obtain ⟨⟨last, hrun, hperm, hequivalence⟩, -⟩ :=
    meta_data_test_equal_perm storingZlib readingActions (by decide +kernel)
  have hequal : (run (act storingZlib) Session.start readingActions).all
      (fun last ↦ (last.containers 2).items.length = 2 ∧
        metaDataTestEqual last.containers 1 2 = true) = true := by
    decide +kernel
  rw [hrun, Option.all_some, decide_eq_true_iff] at hequal
  exact ⟨last, hrun, hequivalence, hequal.2, (hperm 1 2).mp hequal.2⟩

/-- A file name with a backslash is there twice, and is taken for itself and another entry. -/
theorem test_equal_of_duplicate :
    ∃ last, run step Session.start [.insert 0 (plainItem 2 [97, 92, 98]),
        .insert 0 (plainItem 2 [97, 92, 98]), .insert 1 (plainItem 2 [97, 47, 98]),
        .insert 1 (plainItem 3 [1, 2, 3])] = some last ∧
      metaDataTestEqual last.containers 0 1 = true ∧
      metaDataTestEqual last.containers 1 0 = false :=
  ⟨_, rfl, by decide, by decide⟩

end Gnunet.Util.MetaData
