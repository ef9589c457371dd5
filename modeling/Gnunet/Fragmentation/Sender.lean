import Gnunet.Lib.BitField
import Gnunet.Lib.Buffer
import Gnunet.Util.MessageHeader

/-!
# Fragmentation of messages

The sender cuts a message into fragments of the size of the MTU and keeps a bit for every fragment
that was not acknowledged.  An acknowledgement carries the bits of the fragments that the other
side is missing and replaces the bits of the sender.  Delays are not modelled: a transmission is
put off or not, and acknowledgements arrive at any time.
-/

namespace Gnunet.Fragmentation

open Lib Util BitVec Nat BitField

def fragmentHeaderSize : ℕ := 12

def payloadSize (mtu : UInt16) : ℕ := mtu.toNat - fragmentHeaderSize

def numFragments (size : ℕ) (mtu : UInt16) : ℕ :=
  (size + mtu.toNat - fragmentHeaderSize - 1) / payloadSize mtu

/-- `struct FragmentHeader` and the bytes behind it, as many as the header says. -/
structure Fragment where
  size : UInt16
  fragmentId : UInt32
  totalSize : UInt16
  offset : UInt16
  payload : List UInt8
  length_payload : payload.length = size.toNat - fragmentHeaderSize

/-- Set bits are fragments that were not received. -/
structure FragmentAcknowledgement where
  size : UInt16
  fragmentId : UInt32
  bits : BitVec 64
  deriving DecidableEq

def fragmentAcknowledgementSize : ℕ := 16

inductive Status
  | ok
  | no
  | sysErr
  deriving DecidableEq, Repr

structure FragmentContext where
  msg : Message
  acks : BitVec 64
  acksMask : BitVec 64
  task : Bool
  fragmentId : UInt32
  nextTransmission : ℕ
  numRounds : ℕ
  numTransmissions : ℕ
  procBusy : Bool
  wack : Bool
  mtu : UInt16

/-- The number was chosen at random; `none` if an assertion fails. -/
def contextCreate (mtu : UInt16) (msg : Message) (fragmentId : UInt32) : Option FragmentContext :=
  let size := msg.bytes.length
  let bits := numFragments size mtu
  if 1024 + fragmentHeaderSize ≤ mtu.toNat ∧ messageHeaderSize ≤ size ∧ bits ≤ 64 then
    some {
      msg := msg
      acks := lowest 64 bits
      acksMask := lowest 64 bits
      task := true
      fragmentId := fragmentId
      nextTransmission := 0
      numRounds := 0
      numTransmissions := 0
      procBusy := false
      wack := false
      mtu := mtu }
  else none

/-- The loops that look for the next set bit, and whether they wrapped around. Of 64 bits one is
found after at most 63 rounds. -/
def findUnacknowledged (acks : BitVec 64) : ℕ → ℕ × Bool → ℕ × Bool
  | 0, position => position
  | fuel + 1, (next, wrap) =>
    if acks &&& 1#64 <<< next = 0#64 then
      findUnacknowledged acks fuel ((next + 1) % 64, wrap || (next + 1) % 64 == 0)
    else (next, wrap)

def fragmentSize (size : ℕ) (mtu : UInt16) (bit : ℕ) : ℕ :=
  if bit = size / payloadSize mtu then size % payloadSize mtu + fragmentHeaderSize else mtu.toNat

def assembleFragment (msg : Message) (mtu : UInt16) (fragmentId : UInt32) (bit : ℕ) : Fragment :=
  let size := UInt16.ofNat (fragmentSize msg.bytes.length mtu bit)
  { size := size
    fragmentId := fragmentId
    totalSize := UInt16.ofNat msg.bytes.length
    offset := UInt16.ofNat (payloadSize mtu * bit)
    payload := Buffer.read msg.bytes (bit * payloadSize mtu) (size.toNat - fragmentHeaderSize)
    length_payload := Buffer.length_read _ _ _ }

/-- `delayed` tells whether the bandwidth tracker puts the transmission off. The fragment is what is
given to `proc`; `none` if an assertion fails. -/
def transmitNext (fc : FragmentContext) (delayed : Bool) :
    Option (FragmentContext × Option Fragment) :=
  if fc.procBusy then none
  else
    let fc := { fc with task := false }
    if fc.acks = 0#64 then some (fc, none)
    else
      let (bit, wrap) := findUnacknowledged fc.acks 64 (fc.nextTransmission, false)
      if delayed then some ({ fc with nextTransmission := bit, task := true }, none)
      else
        let (next, wrap) := findUnacknowledged fc.acks 64
          ((bit + 1) % 64, wrap || (bit + 1) % 64 == 0)
        some ({ fc with
          nextTransmission := next
          numRounds := if wrap then fc.numRounds + 1 else fc.numRounds
          wack := wrap || fc.wack
          procBusy := true
          numTransmissions := fc.numTransmissions + 1 },
          some (assembleFragment fc.msg fc.mtu fc.fragmentId bit))

def contextTransmissionDone (fc : FragmentContext) : Option FragmentContext :=
  if fc.procBusy ∧ ¬ fc.task then some { fc with procBusy := false, task := true } else none

/-- The part of `GNUNET_FRAGMENT_process_ack` that ends a round of transmissions. -/
def concludeRound (fc : FragmentContext) : FragmentContext :=
  if fc.wack ∧ fc.numTransmissions ≠ 0 then { fc with wack := false, numTransmissions := 0 } else fc

/-- `none` if an assertion fails. -/
def processAck (fc : FragmentContext) (fa : FragmentAcknowledgement) :
    Option (Status × FragmentContext) :=
  if fa.size.toNat ≠ fragmentAcknowledgementSize then some (.sysErr, fc)
  else if fa.fragmentId ≠ fc.fragmentId then some (.sysErr, fc)
  else
    let fc := concludeRound fc
    let fc := { fc with acks := fa.bits &&& fc.acksMask }
    if fc.acks ≠ 0#64 then
      -- a pending transmission is done right now
      if fc.task ∨ fc.procBusy then some (.no, fc) else none
    else some (.ok, { fc with task := false })

section Sizes

variable {size : ℕ} {mtu : UInt16} {bit : ℕ}

theorem payloadSize_pos (hmtu : fragmentHeaderSize < mtu.toNat) : 0 < payloadSize mtu :=
  Nat.sub_pos_of_lt hmtu

theorem lt_numFragments_iff (hmtu : fragmentHeaderSize < mtu.toNat) :
    bit < numFragments size mtu ↔ bit * payloadSize mtu < size := by
  have hpos := payloadSize_pos hmtu
  have hround : size + mtu.toNat - fragmentHeaderSize - 1 = size + (payloadSize mtu - 1) := by
    rw [payloadSize]
    omega
  rw [numFragments, Nat.lt_iff_add_one_le, Nat.le_div_iff_mul_le hpos, Nat.add_mul]
  omega

theorem numFragments_le (hmtu : 1024 + fragmentHeaderSize ≤ mtu.toNat) (hsize : size < 65536) :
    numFragments size mtu ≤ 64 := by
  by_contra hmore
  have hlt : 64 < numFragments size mtu := Nat.lt_of_not_le hmore
  rw [lt_numFragments_iff (by omega), payloadSize] at hlt
  omega

theorem fragmentSize_eq (hmtu : fragmentHeaderSize < mtu.toNat)
    (hbit : bit < numFragments size mtu) :
    fragmentSize size mtu bit =
      min (payloadSize mtu) (size - bit * payloadSize mtu) + fragmentHeaderSize := by
  have hpos := payloadSize_pos hmtu
  have hlt := (lt_numFragments_iff hmtu).mp hbit
  have hdiv := div_add_mod' size (payloadSize mtu)
  have hmod := mod_lt size hpos
  have hmtu' : payloadSize mtu + fragmentHeaderSize = mtu.toNat := Nat.sub_add_cancel hmtu.le
  rw [fragmentSize]
  split_ifs with hlast
  · rw [hlast]
    omega
  · have hle : bit ≤ size / payloadSize mtu := (le_div_iff_mul_le hpos).mpr hlt.le
    have hbefore : (bit + 1) * payloadSize mtu ≤ size :=
      (le_div_iff_mul_le hpos).mp (by omega)
    rw [Nat.add_mul] at hbefore
    omega

end Sizes

theorem getLsbD_findUnacknowledged (acks : BitVec 64) (fuel : ℕ) (position : ℕ × Bool)
    (h : ∃ distance < fuel, acks.getLsbD ((position.1 + distance) % 64) = true)
    (hlt : position.1 < 64) :
    acks.getLsbD (findUnacknowledged acks fuel position).1 = true := by
  induction fuel generalizing position with
  | zero =>
    obtain ⟨distance, hdistance, -⟩ := h
    exact absurd hdistance (not_lt_zero _)
  | succ fuel ih =>
    rw [findUnacknowledged]
    split_ifs with hclear
    · rw [BitWindow.and_one_shiftLeft_eq_zero_iff] at hclear
      obtain ⟨distance, hdistance, hset⟩ := h
      apply ih _ _ (mod_lt _ (by omega))
      cases distance with
      | zero =>
        rw [add_zero, mod_eq_of_lt hlt, hclear] at hset
        cases hset
      | succ distance =>
        refine ⟨distance, by omega, ?_⟩
        rw [mod_add_mod, add_assoc, add_comm 1]
        exact hset
    · rw [BitWindow.and_one_shiftLeft_eq_zero_iff, Bool.not_eq_false] at hclear
      exact hclear

theorem findUnacknowledged_spec {acks : BitVec 64} (hacks : acks ≠ 0#64) {next : ℕ}
    (hnext : next < 64) (wrap : Bool) :
    acks.getLsbD (findUnacknowledged acks 64 (next, wrap)).1 = true := by
  apply getLsbD_findUnacknowledged acks 64 _ _ hnext
  rw [Ne, BitVec.zero_iff_eq_false, not_forall] at hacks
  obtain ⟨i, hi⟩ := hacks
  rw [Bool.not_eq_false] at hi
  have hlt : i < 64 := lt_of_getLsbD hi
  refine ⟨(i + 64 - next) % 64, mod_lt _ (by omega), ?_⟩
  have hround : (next + (i + 64 - next) % 64) % 64 = i := by omega
  rw [hround]
  exact hi

/-- What a sender is busy with, and that it asks for none but existing fragments. -/
structure Sending (mtu : UInt16) (msg : Message) (fragmentId : UInt32) (fc : FragmentContext) :
    Prop where
  mtu_eq : fc.mtu = mtu
  msg_eq : fc.msg = msg
  fragmentId_eq : fc.fragmentId = fragmentId
  acksMask_eq : fc.acksMask = lowest 64 (numFragments msg.bytes.length mtu)
  acks_lt : ∀ bit, fc.acks.getLsbD bit = true → bit < numFragments msg.bytes.length mtu
  next_lt : fc.nextTransmission < 64

inductive SenderStep : FragmentContext → FragmentContext → Prop
  | transmit {fc fc' : FragmentContext} {delayed : Bool} {fragment : Option Fragment} :
      transmitNext fc delayed = some (fc', fragment) → SenderStep fc fc'
  | done {fc fc' : FragmentContext} : contextTransmissionDone fc = some fc' → SenderStep fc fc'
  | ack {fc fc' : FragmentContext} {fa : FragmentAcknowledgement} {status : Status} :
      processAck fc fa = some (status, fc') → SenderStep fc fc'

section Runs

variable {mtu : UInt16} {msg : Message} {fragmentId : UInt32} {fc fc' : FragmentContext}
  {fragment : Option Fragment} {status : Status} {fa : FragmentAcknowledgement} {delayed : Bool}

theorem contextCreate_eq_some (h : contextCreate mtu msg fragmentId = some fc) :
    1024 + fragmentHeaderSize ≤ mtu.toNat ∧ Sending mtu msg fragmentId fc ∧
      fc.acks = lowest 64 (numFragments msg.bytes.length mtu) := by
  rw [contextCreate] at h
  split_ifs at h with hasserted
  cases h
  refine ⟨hasserted.1, ⟨rfl, rfl, rfl, rfl, ?_, by simp⟩, rfl⟩
  intro bit hbit
  rw [getLsbD_lowest hasserted.2.2] at hbit
  exact of_decide_eq_true hbit

/-- What `transmit_next` does: it sends a wanted fragment or nothing. -/
theorem transmitNext_cases (h : transmitNext fc delayed = some (fc', fragment)) :
    ∃ next numRounds wack procBusy numTransmissions task, fc' = { fc with
        nextTransmission := next, numRounds := numRounds, wack := wack, procBusy := procBusy,
        numTransmissions := numTransmissions, task := task } ∧
      (fc.nextTransmission < 64 → next < 64) ∧
      ∀ f, fragment = some f → fc.nextTransmission < 64 →
        ∃ bit, fc.acks.getLsbD bit = true ∧
          f = assembleFragment fc.msg fc.mtu fc.fragmentId bit := by
  rw [transmitNext] at h
  dsimp only at h
  split at h
  · cases h
  split at h
  · cases h
    exact ⟨_, _, _, _, _, _, rfl, id, fun f hf ↦ by cases hf⟩
  next hacks =>
  split at h <;> cases h
  · refine ⟨_, _, _, _, _, _, rfl, fun hnext ↦ ?_, fun f hf ↦ by cases hf⟩
    exact lt_of_getLsbD (findUnacknowledged_spec hacks hnext false)
  · refine ⟨_, _, _, _, _, _, rfl, fun hnext ↦ ?_, fun f hf hnext ↦ ?_⟩
    · exact lt_of_getLsbD (findUnacknowledged_spec hacks (mod_lt _ (by omega)) _)
    · cases hf
      exact ⟨_, findUnacknowledged_spec hacks hnext false, rfl⟩

theorem concludeRound_eq (fc : FragmentContext) : ∃ wack numTransmissions,
    concludeRound fc = { fc with wack := wack, numTransmissions := numTransmissions } := by
  rw [concludeRound]
  split_ifs
  · exact ⟨_, _, rfl⟩
  · exact ⟨fc.wack, fc.numTransmissions, rfl⟩

/-- The acknowledgement is ignored, or its bits are taken over. -/
theorem processAck_cases (h : processAck fc fa = some (status, fc')) :
    (status = .sysErr ∧ fc' = fc) ∨
      (fa.fragmentId = fc.fragmentId ∧ ∃ wack numTransmissions task, fc' = { fc with
          acks := fa.bits &&& fc.acksMask, wack := wack, numTransmissions := numTransmissions,
          task := task } ∧
        ((status = .no ∧ fa.bits &&& fc.acksMask ≠ 0#64) ∨
          (status = .ok ∧ fa.bits &&& fc.acksMask = 0#64))) := by
  obtain ⟨wack, numTransmissions, hround⟩ := concludeRound_eq fc
  rw [processAck, hround] at h
  split_ifs at h with hsize hid
  · cases h
    exact .inl ⟨rfl, rfl⟩
  · cases h
    exact .inl ⟨rfl, rfl⟩
  · refine .inr ⟨not_not.mp hid, wack, numTransmissions, ?_⟩
    dsimp only at h
    split_ifs at h with hacks htask
    · cases h
      exact ⟨_, rfl, .inl ⟨rfl, hacks⟩⟩
    · cases h
      exact ⟨_, rfl, .inr ⟨rfl, not_not.mp hacks⟩⟩

theorem contextTransmissionDone_eq_some (h : contextTransmissionDone fc = some fc') :
    fc' = { fc with procBusy := false, task := true } := by
  rw [contextTransmissionDone] at h
  split_ifs at h
  cases h
  rfl

theorem Sending.step (hs : Sending mtu msg fragmentId fc) (hstep : SenderStep fc fc') :
    Sending mtu msg fragmentId fc' := by
  obtain ⟨hmtu, hmsg, hid, hmask, hacks, hnext⟩ := hs
  cases hstep with
  | transmit h =>
    obtain ⟨_, _, _, _, _, _, rfl, hlt, -⟩ := transmitNext_cases h
    exact ⟨hmtu, hmsg, hid, hmask, hacks, hlt hnext⟩
  | done h =>
    rw [contextTransmissionDone_eq_some h]
    exact ⟨hmtu, hmsg, hid, hmask, hacks, hnext⟩
  | ack h =>
    rcases processAck_cases h with ⟨-, rfl⟩ | ⟨-, _, _, _, rfl, -⟩
    · exact ⟨hmtu, hmsg, hid, hmask, hacks, hnext⟩
    · refine ⟨hmtu, hmsg, hid, hmask, fun bit hbit ↦ ?_, hnext⟩
      rw [getLsbD_and, Bool.and_eq_true, hmask] at hbit
      by_cases hle : numFragments msg.bytes.length mtu ≤ 64
      · rw [getLsbD_lowest hle] at hbit
        exact of_decide_eq_true hbit.2
      · have := lt_of_getLsbD hbit.1
        omega

/-- A fragment that the sender of a message hands to `proc`, after whatever steps. -/
def Produced (mtu : UInt16) (msg : Message) (fragmentId : UInt32) (f : Fragment) : Prop :=
  ∃ created fc fc' delayed, contextCreate mtu msg fragmentId = some created ∧
    Relation.ReflTransGen SenderStep created fc ∧ transmitNext fc delayed = some (fc', some f)

theorem Sending.run {created : FragmentContext} (hs : Sending mtu msg fragmentId created)
    (hrun : Relation.ReflTransGen SenderStep created fc) : Sending mtu msg fragmentId fc := by
  induction hrun with
  | refl => exact hs
  | tail _ hstep ih => exact ih.step hstep

theorem Produced.exists_bit {f : Fragment} (h : Produced mtu msg fragmentId f) :
    ∃ bit < numFragments msg.bytes.length mtu, f = assembleFragment msg mtu fragmentId bit := by
  obtain ⟨_, _, _, _, hcreate, hrun, htransmit⟩ := h
  obtain ⟨-, hsending, -⟩ := contextCreate_eq_some hcreate
  have hfc := hsending.run hrun
  obtain ⟨_, _, _, _, _, _, -, -, hfragment⟩ := transmitNext_cases htransmit
  obtain ⟨bit, hbit, rfl⟩ := hfragment f rfl hfc.next_lt
  refine ⟨bit, hfc.acks_lt bit hbit, ?_⟩
  rw [hfc.msg_eq, hfc.mtu_eq, hfc.fragmentId_eq]

theorem findUnacknowledged_of_set {acks : BitVec 64} {next : ℕ} (h : acks.getLsbD next = true)
    (fuel : ℕ) (wrap : Bool) :
    findUnacknowledged acks (fuel + 1) (next, wrap) = (next, wrap) := by
  rw [findUnacknowledged, if_neg]
  rw [BitWindow.and_one_shiftLeft_eq_zero_iff, h]
  exact Bool.noConfusion

theorem transmitNext_of_set (hbusy : fc.procBusy = false)
    (hset : fc.acks.getLsbD fc.nextTransmission = true) :
    ∃ fc', transmitNext fc false = some (fc',
        some (assembleFragment fc.msg fc.mtu fc.fragmentId fc.nextTransmission)) ∧
      fc'.acks = fc.acks ∧ fc'.procBusy = true ∧ fc'.task = false ∧
      (fc.acks.getLsbD ((fc.nextTransmission + 1) % 64) = true →
        fc'.nextTransmission = (fc.nextTransmission + 1) % 64) := by
  rw [transmitNext, hbusy]
  dsimp only
  rw [if_neg (ne_zero_of_getLsbD hset), findUnacknowledged_of_set hset 63]
  refine ⟨_, rfl, rfl, rfl, rfl, fun hnext ↦ ?_⟩
  rw [findUnacknowledged_of_set hnext 63]

theorem exists_run_next {created : FragmentContext}
    (hcreate : contextCreate mtu msg fragmentId = some created) {bit : ℕ}
    (hbit : bit < numFragments msg.bytes.length mtu) :
    ∃ fc, Relation.ReflTransGen SenderStep created fc ∧ fc.acks = created.acks ∧
      fc.procBusy = false ∧ fc.nextTransmission = bit := by
  have hle : numFragments msg.bytes.length mtu ≤ 64 := by
    rw [contextCreate] at hcreate
    split_ifs at hcreate with hasserted
    exact hasserted.2.2
  obtain ⟨-, -, hacks⟩ := contextCreate_eq_some hcreate
  have hset {i : ℕ} (hi : i < numFragments msg.bytes.length mtu) :
      created.acks.getLsbD i = true := by
    rw [hacks, getLsbD_lowest hle]
    exact decide_eq_true hi
  induction bit with
  | zero =>
    refine ⟨created, .refl, rfl, ?_, ?_⟩
    all_goals
      rw [contextCreate] at hcreate
      split_ifs at hcreate
      cases hcreate
      rfl
  | succ bit ih =>
    obtain ⟨fc, hrun, hfc, hbusy, hnext⟩ := ih (by omega)
    have hmod : (bit + 1) % 64 = bit + 1 := mod_eq_of_lt (by omega)
    obtain ⟨fc', htransmit, hacks', hbusy', htask', hnext'⟩ := transmitNext_of_set hbusy
      (by rw [hfc]; exact hset (by omega))
    rw [hfc, hnext, hmod] at hnext'
    have hdone : contextTransmissionDone fc' =
        some { fc' with procBusy := false, task := true } := by
      rw [contextTransmissionDone, if_pos ⟨hbusy', by simp [htask']⟩]
    exact ⟨_, (hrun.tail (.transmit htransmit)).tail (.done hdone), hacks'.trans hfc, rfl,
      hnext' (hset hbit)⟩

/-- The fragments of a message are those with the numbers below the number of fragments. -/
theorem produced_iff {f : Fragment} (hmtu : 1024 + fragmentHeaderSize ≤ mtu.toNat) :
    Produced mtu msg fragmentId f ↔ ∃ bit < numFragments msg.bytes.length mtu,
      f = assembleFragment msg mtu fragmentId bit := by
  constructor
  · exact Produced.exists_bit
  · intro ⟨bit, hbit, hf⟩
    have hcreate : contextCreate mtu msg fragmentId = some _ :=
      if_pos ⟨hmtu, msg.size_ge, numFragments_le hmtu msg.length_lt⟩
    obtain ⟨fc, hrun, hacks, hbusy, hnext⟩ := exists_run_next hcreate hbit
    obtain ⟨-, hsending, hlowest⟩ := contextCreate_eq_some hcreate
    have hfc := hsending.run hrun
    have hset : fc.acks.getLsbD fc.nextTransmission = true := by
      rw [hacks, hnext, getLsbD_lowest (numFragments_le hmtu msg.length_lt)]
      exact decide_eq_true hbit
    obtain ⟨fc', htransmit, -⟩ := transmitNext_of_set hbusy hset
    rw [hfc.msg_eq, hfc.mtu_eq, hfc.fragmentId_eq, hnext, ← hf] at htransmit
    exact ⟨_, fc, fc', false, hcreate, hrun, htransmit⟩

end Runs

section Fields

variable {mtu : UInt16} {msg : Message} (fragmentId : UInt32) {bit : ℕ}

theorem assembleFragment_totalSize (msg : Message) (mtu : UInt16) (bit : ℕ) :
    (assembleFragment msg mtu fragmentId bit).totalSize.toNat = msg.bytes.length :=
  UInt16.toNat_ofNat_of_lt msg.length_lt

section

variable (hmtu : fragmentHeaderSize < mtu.toNat) (hbit : bit < numFragments msg.bytes.length mtu)
include hmtu hbit

theorem assembleFragment_offset :
    (assembleFragment msg mtu fragmentId bit).offset.toNat = bit * payloadSize mtu := by
  have hlt := (lt_numFragments_iff hmtu).mp hbit
  have hlength := msg.length_lt
  rw [mul_comm]
  apply UInt16.toNat_ofNat_of_lt
  rw [mul_comm]
  exact hlt.trans hlength

theorem assembleFragment_size :
    (assembleFragment msg mtu fragmentId bit).size.toNat =
      min (payloadSize mtu) (msg.bytes.length - bit * payloadSize mtu) + fragmentHeaderSize := by
  have hmtu' : mtu.toNat < UInt16.size := mtu.toNat_lt
  have hsum : payloadSize mtu + fragmentHeaderSize = mtu.toNat := Nat.sub_add_cancel hmtu.le
  rw [← fragmentSize_eq hmtu hbit]
  apply UInt16.toNat_ofNat_of_lt
  rw [fragmentSize_eq hmtu hbit]
  omega

theorem assembleFragment_length :
    (assembleFragment msg mtu fragmentId bit).payload.length =
      min (payloadSize mtu) (msg.bytes.length - bit * payloadSize mtu) := by
  rw [Fragment.length_payload, assembleFragment_size fragmentId hmtu hbit, Nat.add_sub_cancel]

theorem assembleFragment_payload {i : ℕ}
    (hi : i < (assembleFragment msg mtu fragmentId bit).payload.length) :
    (assembleFragment msg mtu fragmentId bit).payload[i]? =
      msg.bytes[bit * payloadSize mtu + i]? := by
  have hlength := assembleFragment_length fragmentId hmtu hbit
  rw [Fragment.length_payload] at hlength hi
  apply Buffer.getElem?_read _ hi
  have hsize : ((assembleFragment msg mtu fragmentId bit).size.toNat - fragmentHeaderSize) ≤
      msg.bytes.length - bit * payloadSize mtu := by
    rw [hlength]
    exact min_le_right _ _
  exact (Nat.add_le_add_left hsize _).trans (by omega)

end

end Fields

end Gnunet.Fragmentation
