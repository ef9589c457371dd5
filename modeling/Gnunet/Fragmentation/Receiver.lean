import Gnunet.Fragmentation.Sender
import Gnunet.Lib.KeyedList
import Gnunet.Lib.Runs

/-!
# Reassembly of messages

The receiver keeps a context for every message of which it has seen a fragment.  A bit stands for a
fragment that is missing.  The message is delivered when its last missing fragment was copied to
the buffer, and an acknowledgement with the bits is sent some time after a fragment was received.
When acknowledgements are sent, and the latency this is derived from, are not modelled.
-/

namespace Gnunet.Fragmentation

open Lib Util List Option

structure MessageContext where
  fragmentId : UInt32
  totalSize : UInt16
  bits : BitVec 64
  msg : List UInt8
  length_msg : msg.length = totalSize.toNat
  lastUpdate : ℕ
  ackTask : Bool

/-- The head of the list comes first. -/
structure DefragmentContext where
  mtu : UInt16
  numMsgs : ℕ
  list : List MessageContext

/-- What `proc` is called with, and the number and the size of the buffer that it is in. -/
structure Delivery where
  fragmentId : UInt32
  totalSize : UInt16
  msg : List UInt8
  deriving DecidableEq

def defragmentContextCreate (mtu : UInt16) (numMsgs : ℕ) : DefragmentContext :=
  { mtu := mtu, numMsgs := numMsgs, list := [] }

def DefragmentContext.find (dc : DefragmentContext) (fragmentId : UInt32) :
    Option MessageContext :=
  KeyedList.find MessageContext.fragmentId dc.list fragmentId

def DefragmentContext.update (dc : DefragmentContext) (mc : MessageContext) : DefragmentContext :=
  { dc with list := KeyedList.replace MessageContext.fragmentId mc dc.list }

/-- The loop of `discard_oldest_mc`: the first context that was inactive for the longest time. -/
def oldestMc (old : Option MessageContext) : List MessageContext → Option MessageContext
  | [] => old
  | pos :: list => oldestMc (if old.all fun old ↦ pos.lastUpdate < old.lastUpdate then some pos
      else old) list

def discardOldestMc (dc : DefragmentContext) : Option DefragmentContext :=
  (oldestMc none dc.list).map fun old ↦
    { dc with list := dc.list.eraseP fun mc ↦ mc.fragmentId = old.fragmentId }

def emptyMc (mtu : UInt16) (fragmentId : UInt32) (totalSize : UInt16) (now : ℕ) : MessageContext :=
  { fragmentId := fragmentId
    totalSize := totalSize
    bits := BitField.lowest 64 (numFragments totalSize.toNat mtu)
    msg := replicate totalSize.toNat 0
    length_msg := length_replicate
    lastUpdate := now
    ackTask := false }

/-- The message context of a fragment, created if there is none; `none` if an assertion fails or a
shift is undefined. -/
def obtainMc (dc : DefragmentContext) (fh : Fragment) (now : ℕ) :
    Option (DefragmentContext × MessageContext) :=
  match dc.find fh.fragmentId with
  | some mc => some (dc, mc)
  | none =>
    if numFragments fh.totalSize.toNat dc.mtu ≤ 64 then
      let mc := emptyMc dc.mtu fh.fragmentId fh.totalSize now
      let dc := if dc.numMsgs ≤ dc.list.length then discardOldestMc dc else some dc
      dc.map fun dc ↦ ({ dc with list := mc :: dc.list }, mc)
    else none

/-- The payload of a missing fragment is copied; `none` if it would be written behind the end of the
buffer. -/
def copyData (mtu : UInt16) (mc : MessageContext) (fh : Fragment) (bit now : ℕ) :
    Option MessageContext :=
  if h : bit * payloadSize mtu + fh.payload.length ≤ mc.msg.length then
    some { mc with
      bits := mc.bits - 1#64 <<< bit
      msg := Buffer.write mc.msg (bit * payloadSize mtu) fh.payload
      length_msg := (Buffer.length_write h).trans mc.length_msg
      lastUpdate := now }
  else none

/-- The checks that do not divide by the payload size. -/
def Rejected (mtu : UInt16) (fh : Fragment) : Prop :=
  fh.size.toNat < fragmentHeaderSize ∨ mtu < fh.size ∨ fh.totalSize.toNat < messageHeaderSize ∨
    fh.totalSize ≤ fh.offset

instance (mtu : UInt16) (fh : Fragment) : Decidable (Rejected mtu fh) :=
  inferInstanceAs (Decidable (_ ∨ _))

def Misplaced (mtu : UInt16) (fh : Fragment) : Prop :=
  fh.offset.toNat % payloadSize mtu ≠ 0 ∨
    fh.totalSize.toNat < fh.offset.toNat / payloadSize mtu * payloadSize mtu + fh.size.toNat -
      fragmentHeaderSize

instance (mtu : UInt16) (fh : Fragment) : Decidable (Misplaced mtu fh) :=
  inferInstanceAs (Decidable (_ ∨ _))

def Inconsistent (dc : DefragmentContext) (fh : Fragment) : Prop :=
  ∃ mc ∈ dc.find fh.fragmentId, mc.totalSize ≠ fh.totalSize

instance (dc : DefragmentContext) (fh : Fragment) : Decidable (Inconsistent dc fh) :=
  inferInstanceAs (Decidable (∃ mc ∈ dc.find fh.fragmentId, mc.totalSize ≠ fh.totalSize))

/-- `GNUNET_DEFRAGMENT_process_fragment`, with the message that `proc` is called with; `none` if an
assertion fails or the behaviour is undefined. -/
def processFragment (dc : DefragmentContext) (fh : Fragment) (now : ℕ) :
    Option (Status × DefragmentContext × Option Delivery) :=
  if Rejected dc.mtu fh then some (.sysErr, dc, none)
  -- the remaining checks divide by the payload size
  else if payloadSize dc.mtu = 0 then none
  else if Misplaced dc.mtu fh ∨ Inconsistent dc fh then some (.sysErr, dc, none)
  else
    let bit := fh.offset.toNat / payloadSize dc.mtu
    (obtainMc dc fh now).bind fun (dc, mc) ↦
      if 64 ≤ bit then none
      else if mc.bits &&& 1#64 <<< bit ≠ 0#64 then
        (copyData dc.mtu mc fh bit now).map fun mc ↦
          (.ok, dc.update { mc with ackTask := true },
            if mc.bits = 0#64 then some ⟨mc.fragmentId, mc.totalSize, mc.msg⟩ else none)
      else some (.no, dc.update { mc with ackTask := true }, none)

/-- `send_ack` for the message with the given number; `none` if its task is not pending. -/
def sendAck (dc : DefragmentContext) (fragmentId : UInt32) :
    Option (DefragmentContext × FragmentAcknowledgement) :=
  (dc.find fragmentId).bind fun mc ↦
    if mc.ackTask then
      some (dc.update { mc with ackTask := false },
        ⟨UInt16.ofNat fragmentAcknowledgementSize, mc.fragmentId, mc.bits⟩)
    else none

section Cases

variable {dc dc' : DefragmentContext} {mc mc' : MessageContext} {fh : Fragment} {now bit : ℕ}
  {status : Status} {delivery : Option Delivery} {mtu : UInt16}

structure Acceptable (mtu : UInt16) (fh : Fragment) : Prop where
  header_le : fragmentHeaderSize ≤ fh.size.toNat
  size_le : fh.size ≤ mtu
  messageHeader_le : messageHeaderSize ≤ fh.totalSize.toNat
  offset_lt : fh.offset < fh.totalSize
  payloadSize_pos : 0 < payloadSize mtu
  offset_eq : fh.offset.toNat / payloadSize mtu * payloadSize mtu = fh.offset.toNat
  end_le : fh.offset.toNat + fh.payload.length ≤ fh.totalSize.toNat

theorem acceptable_iff : Acceptable mtu fh ↔
    ¬ Rejected mtu fh ∧ payloadSize mtu ≠ 0 ∧ ¬ Misplaced mtu fh := by
  have hlength := fh.length_payload
  have hdiv := Nat.div_add_mod' fh.offset.toNat (payloadSize mtu)
  rw [Rejected, Misplaced]
  simp only [not_or, not_lt, UInt16.not_lt, UInt16.not_le]
  constructor
  · intro h
    have hheader := h.header_le
    have hoffset := h.offset_eq
    have hend := h.end_le
    exact ⟨⟨hheader, h.size_le, h.messageHeader_le, h.offset_lt⟩, h.payloadSize_pos.ne',
      by omega, by omega⟩
  · intro ⟨⟨hheader, hsize, hmessage, hoffset⟩, hpos, hmod, hend⟩
    exact ⟨hheader, hsize, hmessage, hoffset, Nat.pos_of_ne_zero hpos, by omega, by omega⟩

theorem Acceptable.div_eq_iff (h : Acceptable mtu fh) {i : ℕ} :
    i / payloadSize mtu = fh.offset.toNat / payloadSize mtu ↔
      fh.offset.toNat ≤ i ∧ i < fh.offset.toNat + payloadSize mtu := by
  have hoffset := h.offset_eq
  rw [Nat.div_eq_iff h.payloadSize_pos]
  have hpos := h.payloadSize_pos
  omega

section

variable (h : obtainMc dc fh now = some (dc', mc))
include h

/-- A message context is found, or a new one takes the place of the oldest one. -/
theorem obtainMc_cases :
    (dc.find fh.fragmentId = some mc ∧ dc' = dc) ∨
      (dc.find fh.fragmentId = none ∧ numFragments fh.totalSize.toNat dc.mtu ≤ 64 ∧
        mc = emptyMc dc.mtu fh.fragmentId fh.totalSize now ∧
        ∃ kept : List MessageContext, kept.Sublist dc.list ∧
          dc' = { dc with list := mc :: kept }) := by
  rw [obtainMc] at h
  split at h
  case h_1 found hfound =>
    cases h
    exact .inl ⟨hfound, rfl⟩
  case h_2 hnone =>
    split_ifs at h with hbits hfull
    · obtain ⟨_, hdiscarded, heq⟩ := map_eq_some_iff.mp h
      obtain ⟨_, -, rfl⟩ := map_eq_some_iff.mp hdiscarded
      cases heq
      exact .inr ⟨hnone, hbits, rfl, _, eraseP_sublist, rfl⟩
    · cases h
      exact .inr ⟨hnone, hbits, rfl, _, Sublist.refl _, rfl⟩

theorem find_of_obtainMc : dc'.find fh.fragmentId = some mc := by
  rcases obtainMc_cases h with ⟨hfound, rfl⟩ | ⟨-, -, rfl, kept, -, rfl⟩
  · exact hfound
  · exact KeyedList.find_cons.trans (if_pos rfl)

theorem obtainMc_settings : dc'.mtu = dc.mtu ∧ dc'.numMsgs = dc.numMsgs := by
  rcases obtainMc_cases h with ⟨-, rfl⟩ | ⟨-, -, -, kept, -, rfl⟩
  · exact ⟨rfl, rfl⟩
  · exact ⟨rfl, rfl⟩

end

/-- The message context is obtained, and the payload is copied if the fragment was missing. -/
inductive Accepted (mtu : UInt16) (fh : Fragment) (now : ℕ) (mc : MessageContext) :
    Status → MessageContext → Option Delivery → Prop
  | duplicate : mc.bits.getLsbD (fh.offset.toNat / payloadSize mtu) = false →
      Accepted mtu fh now mc .no { mc with ackTask := true } none
  | missing {mc' : MessageContext} :
      mc.bits.getLsbD (fh.offset.toNat / payloadSize mtu) = true →
      copyData mtu mc fh (fh.offset.toNat / payloadSize mtu) now = some mc' →
      Accepted mtu fh now mc .ok { mc' with ackTask := true }
        (if mc'.bits = 0#64 then some ⟨mc'.fragmentId, mc'.totalSize, mc'.msg⟩ else none)

section

variable (h : processFragment dc fh now = some (status, dc', delivery))
include h

/-- Everything stays as it is and an error is reported, or the fragment is accepted. -/
theorem processFragment_cases :
    (status = .sysErr ∧ dc' = dc ∧ delivery = none ∧
      (Acceptable dc.mtu fh → Inconsistent dc fh)) ∨
      (Acceptable dc.mtu fh ∧ ¬ Inconsistent dc fh ∧ ∃ obtained mc mc',
        obtainMc dc fh now = some (obtained, mc) ∧
        Accepted dc.mtu fh now mc status mc' delivery ∧ dc' = obtained.update mc') := by
  rw [processFragment] at h
  split_ifs at h with hrejected hzero hmisplaced
  · cases h
    exact .inl ⟨rfl, rfl, rfl, fun hacceptable ↦
      absurd hrejected (acceptable_iff.mp hacceptable).1⟩
  · cases h
    exact .inl ⟨rfl, rfl, rfl, fun hacceptable ↦
      hmisplaced.resolve_left (acceptable_iff.mp hacceptable).2.2⟩
  · rw [not_or] at hmisplaced
    refine .inr ⟨acceptable_iff.mpr ⟨hrejected, hzero, hmisplaced.1⟩, hmisplaced.2, ?_⟩
    obtain ⟨⟨obtained, mc⟩, hobtain, h⟩ := bind_eq_some_iff.mp h
    dsimp only at h
    rw [(obtainMc_settings hobtain).1] at h
    split_ifs at h with hbit hmissing
    · rw [Ne, BitWindow.and_one_shiftLeft_eq_zero_iff, Bool.not_eq_false] at hmissing
      obtain ⟨mc', hcopy, heq⟩ := map_eq_some_iff.mp h
      cases heq
      exact ⟨obtained, mc, _, hobtain, .missing hmissing hcopy, rfl⟩
    · rw [not_not, BitWindow.and_one_shiftLeft_eq_zero_iff] at hmissing
      cases h
      exact ⟨obtained, mc, _, hobtain, .duplicate hmissing, rfl⟩

theorem processFragment_numMsgs :
    dc'.numMsgs = dc.numMsgs := by
  rcases processFragment_cases h with ⟨-, rfl, -⟩ | ⟨-, -, obtained, mc, mc', hobtain, -, rfl⟩
  · rfl
  · have hobtained := (obtainMc_settings hobtain).2
    exact hobtained

omit h in
theorem obtainMc_fields (hconsistent : ¬ Inconsistent dc fh)
    (h : obtainMc dc fh now = some (dc', mc)) :
    mc.fragmentId = fh.fragmentId ∧ mc.totalSize = fh.totalSize := by
  refine ⟨KeyedList.key_of_find (find_of_obtainMc h), ?_⟩
  rcases obtainMc_cases h with ⟨hfound, -⟩ | ⟨-, -, rfl, -, -, -⟩
  · by_contra hne
    exact hconsistent ⟨mc, hfound, hne⟩
  · rfl

omit h in
theorem copyData_eq_some (h : copyData mtu mc fh bit now = some mc') :
    bit * payloadSize mtu + fh.payload.length ≤ mc.msg.length ∧
      mc'.fragmentId = mc.fragmentId ∧ mc'.totalSize = mc.totalSize ∧
      mc'.bits = mc.bits - 1#64 <<< bit ∧
      mc'.msg = Buffer.write mc.msg (bit * payloadSize mtu) fh.payload := by
  rw [copyData] at h
  split_ifs at h with hle
  cases h
  exact ⟨hle, rfl, rfl, rfl, rfl⟩

omit h in
theorem Accepted.fields (h : Accepted mtu fh now mc status mc' delivery) :
    mc'.fragmentId = mc.fragmentId ∧ mc'.totalSize = mc.totalSize := by
  cases h with
  | duplicate => exact ⟨rfl, rfl⟩
  | missing _ hcopy =>
    obtain ⟨-, hid, htotal, -, -⟩ := copyData_eq_some hcopy
    exact ⟨hid, htotal⟩

/-- A property of message contexts that new ones have and that accepting a fragment keeps is kept,
and what follows from it for a delivered message holds. -/
theorem processFragment_invariant {I : MessageContext → Prop} {D : Delivery → Prop}
    (hI : ∀ mc ∈ dc.list, I mc)
    (hempty : Acceptable dc.mtu fh → numFragments fh.totalSize.toNat dc.mtu ≤ 64 →
      I (emptyMc dc.mtu fh.fragmentId fh.totalSize now))
    (haccept : ∀ mc mc', Acceptable dc.mtu fh → mc.fragmentId = fh.fragmentId →
      mc.totalSize = fh.totalSize → I mc → Accepted dc.mtu fh now mc status mc' delivery →
      I mc' ∧ ∀ d ∈ delivery, D d) :
    dc'.mtu = dc.mtu ∧ (∀ mc ∈ dc'.list, I mc) ∧ ∀ d ∈ delivery, D d := by
  rcases processFragment_cases h with
    ⟨-, rfl, rfl, -⟩ | ⟨hacceptable, hconsistent, obtained, mc, mc', hobtain, haccepted, rfl⟩
  · exact ⟨rfl, hI, fun d hd ↦ by cases hd⟩
  obtain ⟨hid, htotal⟩ := obtainMc_fields hconsistent hobtain
  have hobtained : I mc ∧ ∀ mc ∈ obtained.list, I mc := by
    rcases obtainMc_cases hobtain with ⟨hfound, rfl⟩ | ⟨-, hbits, rfl, kept, hkept, rfl⟩
    · exact ⟨hI mc (KeyedList.mem_of_find hfound), hI⟩
    · have hnew := hempty hacceptable hbits
      exact ⟨hnew, forall_mem_cons.mpr ⟨hnew, fun mc hmc ↦ hI mc (hkept.subset hmc)⟩⟩
  obtain ⟨hstored, hdelivery⟩ := haccept mc mc' hacceptable hid htotal hobtained.1 haccepted
  refine ⟨(obtainMc_settings hobtain).1, fun other hother ↦ ?_, hdelivery⟩
  rcases KeyedList.mem_replace hother with rfl | hmem
  · exact hstored
  · exact hobtained.2 other hmem

end

theorem sendAck_eq_some {fragmentId : UInt32} {fa : FragmentAcknowledgement}
    (h : sendAck dc fragmentId = some (dc', fa)) :
    ∃ mc, dc.find fragmentId = some mc ∧ dc' = dc.update { mc with ackTask := false } ∧
      fa = ⟨UInt16.ofNat fragmentAcknowledgementSize, mc.fragmentId, mc.bits⟩ := by
  obtain ⟨mc, hfind, h⟩ := bind_eq_some_iff.mp h
  split_ifs at h
  cases h
  exact ⟨mc, hfind, rfl, rfl⟩

theorem sendAck_invariant {I : MessageContext → Prop} {fragmentId : UInt32}
    {fa : FragmentAcknowledgement} (h : sendAck dc fragmentId = some (dc', fa))
    (hI : ∀ mc ∈ dc.list, I mc) (hsent : ∀ mc, I mc → I { mc with ackTask := false }) :
    dc'.mtu = dc.mtu ∧ ∀ mc ∈ dc'.list, I mc := by
  obtain ⟨mc, hfind, rfl, -⟩ := sendAck_eq_some h
  refine ⟨rfl, fun other hother ↦ ?_⟩
  rcases KeyedList.mem_replace hother with rfl | hmem
  · exact hsent mc (hI mc (KeyedList.mem_of_find hfind))
  · exact hI other hmem

end Cases

/-- A receiver with the fragments that it was given and what was returned, the calls of `proc` and
the acknowledgements. -/
structure Reception where
  dc : DefragmentContext
  log : List (Fragment × Status)
  delivered : List Delivery
  acks : List FragmentAcknowledgement

/-- A fragment arrives, or the time has come to acknowledge the message with the given number. -/
inductive ReceiverEvent
  | fragment (fh : Fragment) (now : ℕ)
  | ackTask (fragmentId : UInt32)

/-- One event; a task that is not pending does not run. -/
def Reception.step (reception : Reception) : ReceiverEvent → Option Reception
  | .fragment fh now =>
    (processFragment reception.dc fh now).map fun (status, dc, delivery) ↦
      { reception with
        dc := dc
        log := reception.log ++ [(fh, status)]
        delivered := reception.delivered ++ delivery.toList }
  | .ackTask fragmentId =>
    match sendAck reception.dc fragmentId with
    | some (dc, fa) => some { reception with dc := dc, acks := reception.acks ++ [fa] }
    | none => some reception

def Reception.start (dc : DefragmentContext) : Reception :=
  { dc := dc, log := [], delivered := [], acks := [] }

end Gnunet.Fragmentation
