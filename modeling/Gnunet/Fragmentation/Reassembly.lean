import Gnunet.Fragmentation.Receiver

/-!
# What a reassembled message consists of

A byte of the buffer of a message context was received if the bit of its fragment is not set any
more.  If every fragment brings bytes with some property for its part of the message, then every
message that is delivered consists of such bytes.
-/

namespace Gnunet.Fragmentation

open Lib Util List Option Reception

/-- A property of the byte at a place in the message with a number and a total size. -/
abbrev ByteProperty := UInt32 → UInt16 → ℕ → UInt8 → Prop

def Vouched (Q : ByteProperty) (mtu : UInt16) (mc : MessageContext) : Prop :=
  ∀ i byte, mc.msg[i]? = some byte → mc.bits.getLsbD (i / payloadSize mtu) = false →
    Q mc.fragmentId mc.totalSize i byte

/-- The part of the message that the fragment covers has the property afterwards. -/
def Brings (Q : ByteProperty) (mtu : UInt16) (fh : Fragment) : Prop :=
  ∀ i byte, fh.offset.toNat ≤ i → i < fh.offset.toNat + payloadSize mtu →
    i < fh.totalSize.toNat →
    (i < fh.offset.toNat + fh.payload.length → fh.payload[i - fh.offset.toNat]? = some byte) →
    Q fh.fragmentId fh.totalSize i byte

structure Delivery.Consists (Q : ByteProperty) (delivery : Delivery) : Prop where
  length_eq : delivery.msg.length = delivery.totalSize.toNat
  header_le : messageHeaderSize ≤ delivery.totalSize.toNat
  bytes : ∀ i byte, delivery.msg[i]? = some byte →
    Q delivery.fragmentId delivery.totalSize i byte

section Step

variable {Q : ByteProperty} {mtu : UInt16} {mc mc' : MessageContext} {fh : Fragment} {now : ℕ}
  {dc dc' : DefragmentContext} {status : Status} {delivery : Option Delivery}

theorem vouched_emptyMc (hacceptable : Acceptable mtu fh)
    (hbits : numFragments fh.totalSize.toNat mtu ≤ 64) :
    Vouched Q mtu (emptyMc mtu fh.fragmentId fh.totalSize now) := by
  intro i byte hbyte hbit
  have hpos := hacceptable.payloadSize_pos
  have hi : i < fh.totalSize.toNat := by
    have hlt := (List.getElem?_eq_some_iff.mp hbyte).1
    rwa [MessageContext.length_msg] at hlt
  have hplace : i / payloadSize mtu < numFragments fh.totalSize.toNat mtu :=
    (lt_numFragments_iff (Nat.lt_of_sub_pos hpos)).mpr ((Nat.div_mul_le_self _ _).trans_lt hi)
  have hset : (emptyMc mtu fh.fragmentId fh.totalSize now).bits.getLsbD (i / payloadSize mtu) =
      true := (BitField.getLsbD_lowest hbits _).trans (decide_eq_true hplace)
  rw [hset] at hbit
  cases hbit

theorem Vouched.copyData (hv : Vouched Q mtu mc) (hacceptable : Acceptable mtu fh)
    (hid : mc.fragmentId = fh.fragmentId) (htotal : mc.totalSize = fh.totalSize)
    (hmissing : mc.bits.getLsbD (fh.offset.toNat / payloadSize mtu) = true)
    (hbrings : Brings Q mtu fh)
    (hcopy : copyData mtu mc fh (fh.offset.toNat / payloadSize mtu) now = some mc') :
    Vouched Q mtu mc' := by
  obtain ⟨hle, hid', htotal', hbits, hmsg⟩ := copyData_eq_some hcopy
  rw [hacceptable.offset_eq] at hle hmsg
  intro i byte hbyte hbit
  rw [hbits, BitField.getLsbD_sub_one_shiftLeft hmissing, Bool.and_eq_false_iff,
    decide_eq_false_iff_not, not_not, hacceptable.div_eq_iff] at hbit
  rw [hmsg, Buffer.getElem?_write (by omega)] at hbyte
  rw [hid', htotal']
  by_cases hplace : fh.offset.toNat ≤ i ∧ i < fh.offset.toNat + payloadSize mtu
  · rw [hid, htotal]
    have hi : i < fh.totalSize.toNat := by
      rw [← htotal, ← mc.length_msg]
      by_contra hge
      rw [if_neg (by omega), if_neg (by omega), getElem?_eq_none (by omega)] at hbyte
      cases hbyte
    refine hbrings i byte hplace.1 hplace.2 hi fun hin ↦ ?_
    rwa [if_neg (by omega), if_pos hin] at hbyte
  · have hlength := fh.length_payload
    have hsize := UInt16.le_iff_toNat_le.mp hacceptable.size_le
    have hold : mc.msg[i]? = some byte := by
      split_ifs at hbyte
      · exact hbyte
      · rw [payloadSize] at hplace
        omega
      · exact hbyte
    exact hv i byte hold (hbit.resolve_right hplace)

/-- A fragment that brings good bytes if it is accepted keeps every message good. -/
theorem processFragment_vouched (h : processFragment dc fh now = some (status, dc', delivery))
    (hv : ∀ mc ∈ dc.list, Vouched Q dc.mtu mc)
    (hbrings : Acceptable dc.mtu fh → status = .ok → Brings Q dc.mtu fh) :
    dc'.mtu = dc.mtu ∧ (∀ mc ∈ dc'.list, Vouched Q dc.mtu mc) ∧
      ∀ d ∈ delivery, d.Consists Q := by
  apply processFragment_invariant h hv vouched_emptyMc
  intro mc mc' hacceptable hid htotal hmc haccepted
  cases haccepted with
  | duplicate => exact ⟨hmc, fun d hd ↦ by cases hd⟩
  | missing hmissing hcopy =>
    obtain ⟨-, -, htotal', -, -⟩ := copyData_eq_some hcopy
    have hcopied := hmc.copyData hacceptable hid htotal hmissing (hbrings hacceptable rfl) hcopy
    refine ⟨hcopied, fun d hd ↦ ?_⟩
    split_ifs at hd with hbits
    · cases hd
      refine ⟨MessageContext.length_msg _, ?_, fun i byte hbyte ↦ hcopied i byte hbyte ?_⟩
      · rw [htotal', htotal]
        exact hacceptable.messageHeader_le
      · rw [hbits, BitVec.getLsbD_zero]
    · cases hd

end Step

/-- All that was received so far has a property, which may depend on what was received. -/
structure Assured (Q : List (Fragment × Status) → ByteProperty) (mtu : UInt16)
    (reception : Reception) : Prop where
  mtu_eq : reception.dc.mtu = mtu
  vouched : ∀ mc ∈ reception.dc.list, Vouched (Q reception.log) mtu mc
  consists : ∀ d ∈ reception.delivered, d.Consists (Q reception.log)

section Runs

variable {Q : List (Fragment × Status) → ByteProperty} {mtu : UInt16} {numMsgs : ℕ}
  {reception next : Reception} {event : ReceiverEvent} {events : List ReceiverEvent}

def BringsWhenAccepted (Q : List (Fragment × Status) → ByteProperty) (mtu : UInt16)
    (event : ReceiverEvent) : Prop :=
  ∀ fh now, event = .fragment fh now → Acceptable mtu fh →
    ∀ log, (fh, Status.ok) ∈ log → Brings (Q log) mtu fh

variable (hmono : ∀ log more fragmentId totalSize i byte,
  Q log fragmentId totalSize i byte → Q (log ++ more) fragmentId totalSize i byte)
include hmono

theorem Assured.step (h : Assured Q mtu reception) (hbrings : BringsWhenAccepted Q mtu event)
    (hstep : reception.step event = some next) : Assured Q mtu next := by
  obtain ⟨rfl, hvouched, hconsists⟩ := h
  cases event with
  | fragment fh now =>
    obtain ⟨⟨status, dc, delivery⟩, hprocess, rfl⟩ := map_eq_some_iff.mp hstep
    have hbefore : ∀ mc ∈ reception.dc.list,
        Vouched (Q (reception.log ++ [(fh, status)])) reception.dc.mtu mc :=
      fun mc hmc i byte hbyte hbit ↦ hmono _ _ _ _ _ _ (hvouched mc hmc i byte hbyte hbit)
    obtain ⟨hmtu, hafter, hdelivery⟩ := processFragment_vouched hprocess hbefore
      fun hacceptable hok ↦ hbrings fh now rfl hacceptable _ (by simp [hok])
    refine ⟨hmtu, hafter, fun d hd ↦ ?_⟩
    rcases mem_append.mp hd with hd | hd
    · obtain ⟨hlength, hheader, hbytes⟩ := hconsists d hd
      exact ⟨hlength, hheader, fun i byte hbyte ↦ hmono _ _ _ _ _ _ (hbytes i byte hbyte)⟩
    · exact hdelivery d (mem_toList.mp hd)
  | ackTask fragmentId =>
    rw [Reception.step] at hstep
    split at hstep
    case h_1 dc fa hsend =>
      cases hstep
      obtain ⟨hmtu, hafter⟩ := sendAck_invariant hsend hvouched fun _ hmc ↦ hmc
      exact ⟨hmtu, hafter, hconsists⟩
    case h_2 =>
      cases hstep
      exact ⟨rfl, hvouched, hconsists⟩

theorem Assured.run (hbrings : ∀ event ∈ events, BringsWhenAccepted Q mtu event)
    (hrun : Runs.run Reception.step (Reception.start (defragmentContextCreate mtu numMsgs)) events =
      some reception) : Assured Q mtu reception := by
  have hstart : Assured Q mtu (start (defragmentContextCreate mtu numMsgs)) :=
    ⟨rfl, fun mc hmc ↦ (not_mem_nil hmc).elim, fun d hd ↦ (not_mem_nil hd).elim⟩
  exact Runs.run_invariant (fun _ _ _ hassured hevent hnext ↦ hassured.step hmono hevent hnext)
    hstart (Runs.along_of_mem _ fun event hevent _ ↦ hbrings event hevent) hrun

end Runs

def Received (log : List (Fragment × Status)) : ByteProperty :=
  fun fragmentId totalSize i byte ↦ ∃ fh, (fh, Status.ok) ∈ log ∧ fh.fragmentId = fragmentId ∧
    fh.totalSize = totalSize ∧ fh.offset.toNat ≤ i ∧ fh.payload[i - fh.offset.toNat]? = some byte

/-- The payload is as large as it can be, unless it reaches the end of the message. -/
def Fills (mtu : UInt16) (fh : Fragment) : Prop :=
  fh.payload.length = payloadSize mtu ∨
    fh.offset.toNat + fh.payload.length = fh.totalSize.toNat

instance (mtu : UInt16) (fh : Fragment) : Decidable (Fills mtu fh) :=
  inferInstanceAs (Decidable (_ ∨ _))

theorem Fills.brings {mtu : UInt16} {fh : Fragment} {log : List (Fragment × Status)}
    (h : Fills mtu fh) (hmem : (fh, Status.ok) ∈ log) : Brings (Received log) mtu fh := by
  intro i byte hlow hhigh htotal hpayload
  refine ⟨fh, hmem, rfl, rfl, hlow, hpayload ?_⟩
  rcases h with hfull | hlast
  · omega
  · omega

/-- In every run in which the accepted fragments are not shorter than they can be, all bytes of the
messages that are delivered were received. -/
theorem delivered_received_of_fills (mtu : UInt16) (numMsgs : ℕ) (events : List ReceiverEvent)
    (reception : Reception)
    (hfills : ∀ fh now, .fragment fh now ∈ events → Acceptable mtu fh → Fills mtu fh)
    (hrun : Runs.run Reception.step (Reception.start (defragmentContextCreate mtu numMsgs)) events =
      some reception) :
    ∀ d ∈ reception.delivered, d.msg.length = d.totalSize.toNat ∧
      ∀ i byte, d.msg[i]? = some byte →
        Received reception.log d.fragmentId d.totalSize i byte := by
  have hassured : Assured Received mtu reception := by
    refine Assured.run (fun _ _ _ _ _ _ hreceived ↦ ?_) ?_ hrun
    · obtain ⟨fh, hmem, hrest⟩ := hreceived
      exact ⟨fh, mem_append_left _ hmem, hrest⟩
    intro event hevent fh now heq hacceptable log hmem
    subst heq
    exact (hfills fh now hevent hacceptable).brings hmem
  intro d hd
  exact ⟨(hassured.consists d hd).length_eq, (hassured.consists d hd).bytes⟩

def smallMessage : Message := ⟨[0, 4, 0, 1], rfl, by decide⟩

def longMessage : Message where
  bytes := [9, 0, 0, 1] ++ replicate 2300 5
  size_eq := by
    rw [length_append, length_replicate]
    rfl
  size_ge := by
    rw [length_append]
    exact Nat.le_add_right_of_le (by decide)

def arrival (msg : Message) (fragmentId : UInt32) (bit : ℕ) : ReceiverEvent :=
  .fragment (assembleFragment msg 1036 fragmentId bit) bit

/-- The fragments arrive out of order and one of them twice, with other events in between. -/
def mixedEvents : List ReceiverEvent :=
  [arrival longMessage 7 2, arrival longMessage 7 0, arrival smallMessage 8 0,
    arrival longMessage 7 2, .ackTask 7, arrival longMessage 7 1]

theorem exists_run_mixedEvents :
    ∃ reception, Runs.run step (start (defragmentContextCreate 1036 3)) mixedEvents =
        some reception ∧
      reception.delivered.map (fun d ↦ (d.fragmentId, d.totalSize)) = [(8, 4), (7, 2304)] := by
  have hrun : (Runs.run step (start (defragmentContextCreate 1036 3)) mixedEvents).map
      (fun reception ↦ reception.delivered.map fun d ↦ (d.fragmentId, d.totalSize)) =
        some [(8, 4), (7, 2304)] := by
    decide +kernel
  exact map_eq_some_iff.mp hrun

theorem forall_mixedEvents {P : Fragment → Prop}
    (h : ∀ fh ∈ [assembleFragment longMessage 1036 7 0, assembleFragment longMessage 1036 7 1,
      assembleFragment longMessage 1036 7 2, assembleFragment smallMessage 1036 8 0], P fh)
    {fh : Fragment} {now : ℕ} (hmem : .fragment fh now ∈ mixedEvents) : P fh := by
  simp only [mixedEvents, arrival, mem_cons, not_mem_nil, or_false, ReceiverEvent.fragment.injEq,
    reduceCtorEq, false_or] at hmem
  rcases hmem with hmem | hmem | hmem | hmem | hmem <;> exact hmem.1 ▸ h _ (by simp)

/-- Both messages are delivered, and all that is in them was received. -/
theorem delivered_received_mixed :
    ∃ reception, Runs.run step (start (defragmentContextCreate 1036 3)) mixedEvents =
        some reception ∧
      reception.delivered.map (fun d ↦ (d.fragmentId, d.totalSize)) = [(8, 4), (7, 2304)] ∧
      ∀ d ∈ reception.delivered, d.msg.length = d.totalSize.toNat ∧
        ∀ i byte, d.msg[i]? = some byte →
          Received reception.log d.fragmentId d.totalSize i byte := by
  obtain ⟨reception, hrun, hdelivered⟩ := exists_run_mixedEvents
  refine ⟨reception, hrun, hdelivered, ?_⟩
  refine delivered_received_of_fills 1036 3 mixedEvents reception (fun fh now hmem _ ↦ ?_) hrun
  exact forall_mixedEvents (by decide +kernel) hmem

def emptyFragment : Fragment := ⟨12, 7, 4, 0, [], rfl⟩

/-- The empty fragment is accepted and completes the message: four bytes are delivered none of
which was received. -/
theorem emptyFragment_delivered :
    ∃ reception, Runs.run step (start (defragmentContextCreate 1400 3))
        [.fragment emptyFragment 0] = some reception ∧
      ∃ d ∈ reception.delivered, d.msg = [0, 0, 0, 0] ∧ ∀ i byte,
        ¬ Received reception.log d.fragmentId d.totalSize i byte := by
  refine ⟨_, rfl, _, mem_cons_self, rfl, fun i byte ⟨fh, hmem, _, _, _, hbyte⟩ ↦ ?_⟩
  cases mem_singleton.mp hmem
  cases hbyte

def SizeField (mtu : UInt16) : ByteProperty := fun _ totalSize i byte ↦
  (i = 0 → 2 ≤ payloadSize mtu ∧ byte.toNat = totalSize.toNat / 256) ∧
    (i = 1 → 2 ≤ payloadSize mtu → byte.toNat = totalSize.toNat % 256)

/-- The first fragment of a message begins with a header that tells the total size. -/
def TellsSize (fh : Fragment) : Prop :=
  2 ≤ fh.payload.length ∧ messageSize fh.payload = fh.totalSize.toNat

instance (fh : Fragment) : Decidable (TellsSize fh) := inferInstanceAs (Decidable (_ ∧ _))

theorem getElem?_of_messageSize {bytes : List UInt8} {size : ℕ} (h : messageSize bytes = size) :
    (∀ byte, bytes[0]? = some byte → byte.toNat = size / 256) ∧
      ∀ byte, bytes[1]? = some byte → byte.toNat = size % 256 := by
  have hlow := (bytes.getD 1 0).toNat_lt
  rw [messageSize] at h
  constructor
  · intro byte hbyte
    rw [getD_eq_getElem?_getD, hbyte, getD_some] at h
    omega
  · intro byte hbyte
    have hget : bytes.getD 1 0 = byte := by
      rw [getD_eq_getElem?_getD, hbyte, getD_some]
    rw [hget] at h hlow
    omega

theorem brings_sizeField {mtu : UInt16} {fh : Fragment} (hacceptable : Acceptable mtu fh)
    (h : fh.offset = 0 → TellsSize fh) : Brings (SizeField mtu) mtu fh := by
  have hsize := UInt16.le_iff_toNat_le.mp hacceptable.size_le
  have hlength := fh.length_payload
  have hoffset := hacceptable.offset_eq
  intro i byte hlow hhigh htotal hpayload
  by_cases hfirst : fh.offset = 0
  · obtain ⟨htwo, htells⟩ := h hfirst
    have hzero : fh.offset.toNat = 0 := by rw [hfirst]; rfl
    obtain ⟨hbyte₀, hbyte₁⟩ := getElem?_of_messageSize htells
    have htwo' : 2 ≤ payloadSize mtu := by
      rw [payloadSize]
      omega
    rw [hzero] at hpayload
    constructor
    · intro hi
      subst hi
      exact ⟨htwo', hbyte₀ byte (hpayload (by omega))⟩
    · intro hi _
      subst hi
      exact hbyte₁ byte (hpayload (by omega))
  · -- a later fragment holds one of the first two bytes only if a fragment holds one byte
    have hne : fh.offset.toNat ≠ 0 := fun hzero ↦ hfirst (UInt16.toNat_inj.mp hzero)
    have hle : payloadSize mtu ≤ fh.offset.toNat := by
      rw [← hoffset]
      apply Nat.le_mul_of_pos_left
      apply Nat.pos_of_ne_zero
      intro hdiv
      rw [hdiv, Nat.zero_mul] at hoffset
      exact hne hoffset.symm
    constructor
    · omega
    · omega

/-- In every run in which the accepted fragments at offset zero begin with the total size, the
messages that are delivered begin with the size of the buffer. -/
theorem delivered_messageSize_of_tellsSize (mtu : UInt16) (numMsgs : ℕ)
    (events : List ReceiverEvent) (reception : Reception)
    (htells : ∀ fh now, .fragment fh now ∈ events → Acceptable mtu fh → fh.offset = 0 →
      TellsSize fh)
    (hrun : Runs.run Reception.step (Reception.start (defragmentContextCreate mtu numMsgs)) events =
      some reception) :
    ∀ d ∈ reception.delivered, d.msg.length = d.totalSize.toNat ∧
      messageSize d.msg = d.totalSize.toNat := by
  have hassured : Assured (fun _ ↦ SizeField mtu) mtu reception := by
    apply Assured.run (fun _ _ _ _ _ _ ↦ id) _ hrun
    intro event hevent fh now heq hacceptable log hmem
    subst heq
    exact brings_sizeField hacceptable (htells fh now hevent hacceptable)
  intro d hd
  obtain ⟨hlength, hheader, hbytes⟩ := hassured.consists d hd
  rw [messageHeaderSize] at hheader
  have hget (i : ℕ) (hi : i < 4) : SizeField mtu d.fragmentId d.totalSize i (d.msg.getD i 0) := by
    apply hbytes
    rw [getD_eq_getElem?_getD, getElem?_eq_getElem (by omega), getD_some]
  obtain ⟨htwo, hhigh⟩ := (hget 0 (by omega)).1 rfl
  have hlow := (hget 1 (by omega)).2 rfl htwo
  rw [messageSize]
  omega

theorem delivered_messageSize_mixed :
    ∃ reception, Runs.run step (start (defragmentContextCreate 1036 3)) mixedEvents =
        some reception ∧
      reception.delivered.map (fun d ↦ (d.fragmentId, d.totalSize)) = [(8, 4), (7, 2304)] ∧
      ∀ d ∈ reception.delivered, d.msg.length = d.totalSize.toNat ∧
        messageSize d.msg = d.totalSize.toNat := by
  obtain ⟨reception, hrun, hdelivered⟩ := exists_run_mixedEvents
  refine ⟨reception, hrun, hdelivered, ?_⟩
  refine delivered_messageSize_of_tellsSize 1036 3 mixedEvents reception (fun fh now hmem _ ↦ ?_)
    hrun
  exact forall_mixedEvents (P := fun fh ↦ fh.offset = 0 → TellsSize fh) (by decide +kernel) hmem

def lyingFragment : Fragment := ⟨16, 7, 4, 0, [3, 232, 0, 1], rfl⟩

/-- The fragment is accepted, and a buffer of four bytes is delivered as a message of 1000 bytes. -/
theorem lyingFragment_delivered :
    ∃ reception, Runs.run step (start (defragmentContextCreate 1400 3))
        [.fragment lyingFragment 0] = some reception ∧
      ∃ d ∈ reception.delivered, d.totalSize = 4 ∧ d.msg.length = 4 ∧
        messageSize d.msg = 1000 :=
  ⟨_, rfl, _, mem_cons_self, rfl, rfl, rfl⟩

end Gnunet.Fragmentation
