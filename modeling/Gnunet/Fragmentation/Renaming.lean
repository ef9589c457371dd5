import Gnunet.Fragmentation.Receiver

/-!
# Renaming the numbers of messages

The receiver only compares the numbers of messages for equality, apart from the choice whether an
acknowledgement is sent at once: `GNUNET_DEFRAGMENT_process_fragment` adds the number to a count of
messages and compares the sum with a number of fragments.
-/

namespace Gnunet.Fragmentation

open Lib List Function MessageContext

/-- `last + fid == num_fragments`, for a message of the size of the fragment. -/
def LastInSequence (dc : DefragmentContext) (fh : Fragment) : Prop :=
  .ofNat (dc.list.countP fun mc ↦ fh.fragmentId < mc.fragmentId) + fh.fragmentId =
    UInt32.ofNat (numFragments fh.size.toNat dc.mtu)

instance (dc : DefragmentContext) (fh : Fragment) : Decidable (LastInSequence dc fh) :=
  inferInstanceAs (Decidable (_ = _))

def missingBits (dc : DefragmentContext) (fh : Fragment) : BitVec 64 :=
  ((dc.find fh.fragmentId).map bits).getD
    (BitField.lowest 64 (numFragments fh.totalSize.toNat dc.mtu))

/-- The fragment is accepted, is not a repetition and does not complete its message. -/
structure ReachesTest (dc : DefragmentContext) (fh : Fragment) : Prop where
  acceptable : Acceptable dc.mtu fh
  consistent : ¬ Inconsistent dc fh
  missing : (missingBits dc fh).getLsbD (fh.offset.toNat / payloadSize dc.mtu) = true
  incomplete : missingBits dc fh ≠ 1#64 <<< (fh.offset.toNat / payloadSize dc.mtu)

/-- What became of a fragment and whether it is acknowledged without delay, or of the task for an
acknowledgement. -/
inductive Observation
  | fragment (status : Status) (delivery : Option Delivery) (immediate : Bool)
  | ack (fa : Option FragmentAcknowledgement)
  deriving DecidableEq

structure Watched where
  dc : DefragmentContext
  seen : List Observation

def Watched.start (mtu : UInt16) (numMsgs : ℕ) : Watched :=
  ⟨defragmentContextCreate mtu numMsgs, []⟩

def Watched.step (watched : Watched) : ReceiverEvent → Option Watched
  | .fragment fh now => (processFragment watched.dc fh now).map fun (status, dc, delivery) ↦
    ⟨dc, .fragment status delivery (status ≠ .sysErr && (LastInSequence watched.dc fh ||
      ((dc.find fh.fragmentId).any fun mc ↦ mc.bits = 0#64) || status = .no)) :: watched.seen⟩
  | .ackTask fragmentId => match sendAck watched.dc fragmentId with
    | some (dc, fa) => some ⟨dc, .ack (some fa) :: watched.seen⟩
    | none => some ⟨watched.dc, .ack none :: watched.seen⟩

section Renaming

variable (ρ : UInt32 → UInt32)

def Fragment.rename (fh : Fragment) : Fragment := { fh with fragmentId := ρ fh.fragmentId }

def ReceiverEvent.rename : ReceiverEvent → ReceiverEvent
  | .fragment fh now => .fragment (fh.rename ρ) now
  | .ackTask fragmentId => .ackTask (ρ fragmentId)

def MessageContext.rename (mc : MessageContext) : MessageContext :=
  { mc with fragmentId := ρ mc.fragmentId }

def DefragmentContext.rename (dc : DefragmentContext) : DefragmentContext :=
  { dc with list := dc.list.map (MessageContext.rename ρ) }

def Delivery.rename (delivery : Delivery) : Delivery :=
  { delivery with fragmentId := ρ delivery.fragmentId }

def FragmentAcknowledgement.rename (fa : FragmentAcknowledgement) : FragmentAcknowledgement :=
  { fa with fragmentId := ρ fa.fragmentId }

def Observation.rename : Observation → Observation
  | .fragment status delivery immediate =>
    .fragment status (delivery.map (Delivery.rename ρ)) immediate
  | .ack fa => .ack (fa.map (FragmentAcknowledgement.rename ρ))

def Watched.rename (watched : Watched) : Watched :=
  ⟨watched.dc.rename ρ, watched.seen.map (Observation.rename ρ)⟩

/-- A fragment that reaches the test is last in the sequence under both numbers or under none. -/
def Blind (watched : Watched) : ReceiverEvent → Prop
  | .fragment fh _ => ReachesTest watched.dc fh →
    (LastInSequence (watched.dc.rename ρ) (fh.rename ρ) ↔ LastInSequence watched.dc fh)
  | .ackTask _ => True

end Renaming

variable {ρ : UInt32 → UInt32} {dc dc' : DefragmentContext} {mc : MessageContext} {fh : Fragment}
  {now : ℕ} {status : Status} {delivery : Option Delivery}

theorem missingBits_of_obtainMc (h : obtainMc dc fh now = some (dc', mc)) :
    missingBits dc fh = mc.bits := by
  rcases obtainMc_cases h with ⟨hfound, -⟩ | ⟨hnone, -, rfl, -⟩
  · rw [missingBits, hfound]
    rfl
  · rw [missingBits, hnone]
    rfl

/-- A repetition and a fragment that completes its message are acknowledged at once. -/
theorem processFragment_of_not_reachesTest
    (h : processFragment dc fh now = some (status, dc', delivery)) (hnot : ¬ ReachesTest dc fh) :
    status = .sysErr ∨ status = .no ∨
      ((dc'.find fh.fragmentId).any fun mc ↦ mc.bits = 0#64) = true := by
  rcases processFragment_cases h with
    ⟨hstatus, -⟩ | ⟨hacceptable, hconsistent, obtained, mc, mc', hobtain, haccepted, rfl⟩
  · exact .inl hstatus
  cases haccepted with
  | duplicate => exact .inr (.inl rfl)
  | @missing copied hmissing hcopy =>
    obtain ⟨-, hid, -, hbits, -⟩ := copyData_eq_some hcopy
    have hlast : mc.bits = 1#64 <<< (fh.offset.toNat / payloadSize dc.mtu) := by
      by_contra hne
      rw [← missingBits_of_obtainMc hobtain] at hmissing hne
      exact hnot ⟨hacceptable, hconsistent, hmissing, hne⟩
    have hkey : copied.fragmentId = fh.fragmentId :=
      hid.trans (obtainMc_fields hconsistent hobtain).1
    have hfind : (obtained.update { copied with ackTask := true }).find fh.fragmentId =
        some { copied with ackTask := true } := by
      rw [← hkey]
      exact KeyedList.find_replace_self (hkey ▸ find_of_obtainMc hobtain)
    refine .inr (.inr ?_)
    rw [hfind, Option.any_some, decide_eq_true_iff]
    exact hbits.trans (hlast ▸ BitVec.sub_self _)

theorem oldestMc_rename (old : Option MessageContext) (list : List MessageContext) :
    oldestMc (old.map (rename ρ)) (list.map (rename ρ)) = (oldestMc old list).map (rename ρ) := by
  induction list generalizing old with
  | nil => rfl
  | cons pos list ih =>
    rw [oldestMc, ← ih, apply_ite (Option.map _)]
    cases old <;> rfl

theorem copyData_rename (mtu : UInt16) (mc : MessageContext) (bit : ℕ) :
    copyData mtu (mc.rename ρ) (fh.rename ρ) bit now =
      (copyData mtu mc fh bit now).map (.rename ρ) := by
  unfold copyData
  by_cases h : bit * payloadSize mtu + fh.payload.length ≤ mc.msg.length <;>
    simp [rename, Fragment.rename, h]

variable (hρ : Injective ρ)
include hρ

theorem key_rename (fragmentId : UInt32) :
    (fun mc ↦ decide (mc.fragmentId = ρ fragmentId)) ∘ rename ρ =
      fun mc ↦ decide (mc.fragmentId = fragmentId) :=
  funext fun _ ↦ decide_eq_decide.mpr hρ.eq_iff

theorem find_rename (dc : DefragmentContext) (fragmentId : UInt32) :
    (dc.rename ρ).find (ρ fragmentId) = (dc.find fragmentId).map (MessageContext.rename ρ) := by
  rw [DefragmentContext.find, KeyedList.find, DefragmentContext.rename, find?_map, key_rename hρ]
  rfl

theorem update_rename (dc : DefragmentContext) (mc : MessageContext) :
    (dc.rename ρ).update (mc.rename ρ) = (dc.update mc).rename ρ := by
  rw [DefragmentContext.update, DefragmentContext.update, DefragmentContext.rename]
  congr 1
  induction dc.list with
  | nil => rfl
  | cons head list ih =>
    rw [map_cons, KeyedList.replace, KeyedList.replace, ih, apply_ite (map _)]
    exact if_congr hρ.eq_iff rfl rfl

theorem discardOldestMc_rename :
    discardOldestMc (dc.rename ρ) = (discardOldestMc dc).map (.rename ρ) := by
  have hold : oldestMc none (dc.list.map (.rename ρ)) = (oldestMc none dc.list).map (.rename ρ) :=
    oldestMc_rename none dc.list
  rw [discardOldestMc, DefragmentContext.rename, hold, discardOldestMc, Option.map_map,
    Option.map_map]
  congr 1
  funext old
  have herase := eraseP_map (f := MessageContext.rename ρ) (l := dc.list)
    (p := fun mc ↦ mc.fragmentId = ρ old.fragmentId)
  rw [key_rename hρ] at herase
  exact congrArg (fun list ↦ { dc with list := list }) herase

theorem obtainMc_rename : obtainMc (dc.rename ρ) (fh.rename ρ) now =
    (obtainMc dc fh now).map (Prod.map (.rename ρ) (.rename ρ)) := by
  have hfind : (dc.rename ρ).find (fh.rename ρ).fragmentId = _ := find_rename hρ dc fh.fragmentId
  rw [obtainMc, obtainMc, hfind, discardOldestMc_rename hρ]
  cases dc.find fh.fragmentId with
  | some mc => rfl
  | none =>
    by_cases hbits : numFragments fh.totalSize.toNat dc.mtu ≤ 64 <;>
      by_cases hfull : dc.numMsgs ≤ dc.list.length <;>
      simp [DefragmentContext.rename, Fragment.rename, hbits, hfull, Function.comp_def, emptyMc,
        MessageContext.rename]

theorem inconsistent_rename : Inconsistent (dc.rename ρ) (fh.rename ρ) ↔ Inconsistent dc fh := by
  have hfind := find_rename hρ dc fh.fragmentId
  simp [Inconsistent, hfind, MessageContext.rename, Fragment.rename]

theorem processFragment_rename : processFragment (dc.rename ρ) (fh.rename ρ) now =
    (processFragment dc fh now).map fun r ↦ (r.1, r.2.1.rename ρ, r.2.2.map (.rename ρ)) := by
  have hrejected : Rejected dc.mtu (fh.rename ρ) ↔ Rejected dc.mtu fh := Iff.rfl
  have hmisplaced : Misplaced dc.mtu (fh.rename ρ) ↔ Misplaced dc.mtu fh := Iff.rfl
  have hmtu : (dc.rename ρ).mtu = dc.mtu := rfl
  have hoffset : (fh.rename ρ).offset = fh.offset := rfl
  unfold processFragment
  simp only [hrejected, hmisplaced, inconsistent_rename hρ, obtainMc_rename hρ, hmtu, hoffset]
  split_ifs
  · rfl
  · rfl
  · rfl
  · cases obtainMc dc fh now <;> rfl
  · cases obtainMc dc fh now with
    | none => rfl
    | some obtained =>
      obtain ⟨dc, mc⟩ := obtained
      have hupdate (mc : MessageContext) := update_rename hρ dc { mc with ackTask := true }
      change (if _ then Option.map _ (copyData dc.mtu (mc.rename ρ) (fh.rename ρ) _ _) else _) =
        Option.map _ (ite ..)
      rw [copyData_rename, apply_ite (Option.map _), Option.map_map, Option.map_map]
      refine if_congr Iff.rfl ?_ ?_
      · congr 1
        funext mc
        refine Prod.ext rfl (Prod.ext (hupdate mc) ?_)
        by_cases hdone : mc.bits = 0#64 <;> simp [MessageContext.rename, Delivery.rename, hdone]
      · exact congrArg (fun dc ↦ some (Status.no, dc, none)) (hupdate mc)

theorem sendAck_rename (fragmentId : UInt32) : sendAck (dc.rename ρ) (ρ fragmentId) =
    (sendAck dc fragmentId).map (Prod.map (.rename ρ) (.rename ρ)) := by
  rw [sendAck, sendAck, find_rename hρ]
  cases dc.find fragmentId with
  | none => rfl
  | some mc =>
    have hupdate := update_rename hρ dc { mc with ackTask := false }
    change (if mc.ackTask then _ else _) = Option.map _ (ite ..)
    rw [apply_ite (Option.map _)]
    exact if_congr Iff.rfl (congrArg (fun dc ↦ some (dc, _)) hupdate) rfl

theorem Watched.step_rename {watched : Watched} {event : ReceiverEvent}
    (hblind : Blind ρ watched event) :
    (watched.rename ρ).step (event.rename ρ) = (watched.step event).map (.rename ρ) := by
  cases event with
  | fragment fh now =>
    have hid : (fh.rename ρ).fragmentId = ρ fh.fragmentId := rfl
    change Option.map _ (processFragment (watched.dc.rename ρ) (fh.rename ρ) now) = _
    rw [processFragment_rename hρ, Watched.step]
    cases hprocess : processFragment watched.dc fh now with
    | none => rfl
    | some result =>
      obtain ⟨status, dc, delivery⟩ := result
      have hfind : ((dc.rename ρ).find (ρ fh.fragmentId)).any (fun mc ↦ mc.bits = 0#64) =
          (dc.find fh.fragmentId).any fun mc ↦ mc.bits = 0#64 := by
        rw [find_rename hρ, Option.any_map]
        rfl
      simp only [Option.map_some, hid, hfind]
      by_cases hreaches : ReachesTest watched.dc fh
      · have hlast : decide (LastInSequence (watched.rename ρ).dc (fh.rename ρ)) =
            decide (LastInSequence watched.dc fh) :=
          decide_eq_decide.mpr (hblind hreaches)
        rw [hlast]
        rfl
      · rcases processFragment_of_not_reachesTest hprocess hreaches with rfl | rfl | hdone
        · rfl
        · simp [rename, Observation.rename]
        · simp [hdone, rename, Observation.rename]
  | ackTask fragmentId =>
    have hack : sendAck (watched.rename ρ).dc (ρ fragmentId) = _ := sendAck_rename hρ fragmentId
    rw [ReceiverEvent.rename, Watched.step, Watched.step, hack]
    cases sendAck watched.dc fragmentId <;> rfl

/-- In every run all of whose fragments that reach the test are last in the sequence under both
numbers or under none, other numbers for the messages change nothing else. -/
theorem run_rename (mtu : UInt16) (numMsgs : ℕ) (events : List ReceiverEvent)
    (hblind : Runs.Along Watched.step (Blind ρ) (.start mtu numMsgs) events) :
    Runs.run Watched.step (.start mtu numMsgs) (events.map (.rename ρ)) =
      (Runs.run Watched.step (.start mtu numMsgs) events).map (.rename ρ) :=
  Runs.run_map (fun _ _ ↦ Watched.step_rename hρ) hblind

omit hρ

def firstHalf (fragmentId : UInt32) : Fragment := ⟨16, fragmentId, 8, 0, [0, 8, 0, 1], rfl⟩

/-- The repetition would be the last in the sequence under one number only, but does not reach the
test. -/
theorem run_rename_firstHalf :
    (Runs.run Watched.step (.start 16 3) ([.fragment (firstHalf 3) 0, .fragment (firstHalf 5) 1,
      .fragment (firstHalf 3) 2, .ackTask 3].map (.rename (· + 6)))).map Watched.seen =
    some [.ack (some ⟨16, 9, 2#64⟩), .fragment .no none true, .fragment .ok none false,
      .fragment .ok none false] := by
  rw [run_rename fun _ _ ↦ (UInt32.add_left_inj 6).mp]
  · rfl
  · refine ⟨fun _ ↦ iff_of_false (by decide) (by decide), fun first hfirst ↦ ?_⟩
    cases hfirst
    refine ⟨fun _ ↦ iff_of_false (by decide) (by decide), fun second hsecond ↦ ?_⟩
    cases hsecond
    refine ⟨fun hreaches ↦ ?_, fun _ _ ↦ ⟨trivial, fun _ _ ↦ trivial⟩⟩
    exact absurd hreaches.missing (by decide)

/-- The same fragment is acknowledged at once if the number of its message is four. -/
theorem immediate_of_number : Injective (fun fragmentId : UInt32 ↦ fragmentId + 6) ∧
    (Runs.run Watched.step (.start 16 3) [.fragment (firstHalf 4) 0]).map Watched.seen =
      some [.fragment .ok none true] ∧ (Runs.run Watched.step (.start 16 3)
      ([.fragment (firstHalf 4) 0].map (.rename (· + 6)))).map Watched.seen =
      some [.fragment .ok none false] :=
  ⟨fun _ _ ↦ (UInt32.add_left_inj 6).mp, rfl, rfl⟩

end Gnunet.Fragmentation
