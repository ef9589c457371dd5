import Gnunet.Fragmentation.Transfer

/-!
# Acknowledgements

A sender with the contexts of several messages, no two of which have the same number, and a
receiver with the same MTU exchange fragments and acknowledgements.  Whatever was sent may arrive
at any later time, any number of times and in any order, or never, and the receiver may discard a
message that it has in part.
-/

namespace Gnunet.Fragmentation

open Lib Util List Option KeyedList BitField

/-- Both sides with what happened so far: the messages that were sent and their numbers, the
transmitted fragments, and for each sender the acknowledgements it was given and what it returned.
-/
structure Session where
  mtu : UInt16
  senders : List FragmentContext
  messages : List (UInt32 × Message)
  sent : List Fragment
  reception : Reception
  processed : List (UInt32 × FragmentAcknowledgement × Status)

/-- Fragments and acknowledgements that arrive are named by their place among those sent. -/
inductive SessionEvent
  | create (msg : Message) (fragmentId : UInt32)
  | transmit (fragmentId : UInt32) (delayed : Bool)
  | transmissionDone (fragmentId : UInt32)
  | destroy (fragmentId : UInt32)
  | fragmentArrives (index now : ℕ)
  | ackTask (fragmentId : UInt32)
  | ackArrives (fragmentId : UInt32) (index : ℕ)

def Session.findSender (session : Session) (fragmentId : UInt32) : Option FragmentContext :=
  find FragmentContext.fragmentId session.senders fragmentId

def Session.updateSender (session : Session) (fc : FragmentContext) : Session :=
  { session with senders := replace FragmentContext.fragmentId fc session.senders }

/-- One event; `none` if it cannot happen or an assertion fails. -/
def Session.step (session : Session) : SessionEvent → Option Session
  | .create msg fragmentId =>
    if fragmentId ∈ session.messages.map Prod.fst then none
    else (contextCreate session.mtu msg fragmentId).map fun fc ↦
      { session with
        senders := fc :: session.senders
        messages := (fragmentId, msg) :: session.messages }
  | .transmit fragmentId delayed =>
    (session.findSender fragmentId).bind fun fc ↦
      (transmitNext fc delayed).map fun (fc, fragment) ↦
        { session.updateSender fc with sent := session.sent ++ fragment.toList }
  | .transmissionDone fragmentId =>
    (session.findSender fragmentId).bind fun fc ↦
      (contextTransmissionDone fc).map session.updateSender
  | .destroy fragmentId =>
    some { session with
      senders := session.senders.filter fun fc ↦ fc.fragmentId ≠ fragmentId }
  | .fragmentArrives index now =>
    (session.sent[index]?).bind fun fh ↦
      (session.reception.step (.fragment fh now)).map fun reception ↦
        { session with reception := reception }
  | .ackTask fragmentId =>
    (session.reception.step (.ackTask fragmentId)).map fun reception ↦
      { session with reception := reception }
  | .ackArrives fragmentId index =>
    (session.findSender fragmentId).bind fun fc ↦
      (session.reception.acks[index]?).bind fun fa ↦
        (processAck fc fa).map fun (status, fc) ↦
          { session.updateSender fc with
            processed := session.processed ++ [(fragmentId, fa, status)] }

def Session.start (mtu : UInt16) (numMsgs : ℕ) : Session :=
  { mtu := mtu
    senders := []
    messages := []
    sent := []
    reception := Reception.start (defragmentContextCreate mtu numMsgs)
    processed := [] }

def Authentic (messages : List (UInt32 × Message)) : ByteProperty :=
  fun fragmentId totalSize i byte ↦ ∀ msg, (fragmentId, msg) ∈ messages →
    Original msg fragmentId fragmentId totalSize i byte

/-- The bits are for one of the messages, and if none is missing, it was delivered. -/
def Backed (messages : List (UInt32 × Message)) (mtu : UInt16) (delivered : List Delivery)
    (fragmentId : UInt32) (bits : BitVec 64) : Prop :=
  ∃ msg, (fragmentId, msg) ∈ messages ∧
    (∀ bit, bits.getLsbD bit = true → bit < numFragments msg.bytes.length mtu) ∧
    (bits = 0#64 → ⟨fragmentId, UInt16.ofNat msg.bytes.length, msg.bytes⟩ ∈ delivered)

def Reported (session : Session) (fragmentId : UInt32) (bit : ℕ) : Prop :=
  ∃ fa status, (fragmentId, fa, status) ∈ session.processed ∧ fa.fragmentId = fragmentId ∧
    fa.bits.getLsbD bit = false

/-- The sender still wants to transmit every fragment that was not reported as received. -/
def SenderSound (session : Session) (fc : FragmentContext) : Prop :=
  ∃ msg, (fc.fragmentId, msg) ∈ session.messages ∧
    Sending session.mtu msg fc.fragmentId fc ∧
    ∀ bit < numFragments msg.bytes.length session.mtu,
      ¬ Reported session fc.fragmentId bit → fc.acks.getLsbD bit = true

def FragmentSound (session : Session) (fh : Fragment) : Prop :=
  ∃ msg, (fh.fragmentId, msg) ∈ session.messages ∧
    ∃ bit < numFragments msg.bytes.length session.mtu,
      fh = assembleFragment msg session.mtu fh.fragmentId bit

structure Sound (session : Session) : Prop where
  mtu_eq : session.reception.dc.mtu = session.mtu
  functional : ∀ fragmentId msg msg', (fragmentId, msg) ∈ session.messages →
    (fragmentId, msg') ∈ session.messages → msg = msg'
  mtu_ge : session.messages ≠ [] → 1024 + fragmentHeaderSize ≤ session.mtu.toNat
  senders : ∀ fc ∈ session.senders, SenderSound session fc
  sent : ∀ fh ∈ session.sent, FragmentSound session fh
  vouched : ∀ mc ∈ session.reception.dc.list, Vouched (Authentic session.messages) session.mtu mc
  contexts : ∀ mc ∈ session.reception.dc.list,
    Backed session.messages session.mtu session.reception.delivered mc.fragmentId mc.bits
  acks : ∀ fa ∈ session.reception.acks,
    Backed session.messages session.mtu session.reception.delivered fa.fragmentId fa.bits
  results : ∀ fragmentId fa, (fragmentId, fa, Status.ok) ∈ session.processed →
    ∃ msg, (fragmentId, msg) ∈ session.messages ∧
      ⟨fragmentId, UInt16.ofNat msg.bytes.length, msg.bytes⟩ ∈ session.reception.delivered

section Monotone

variable {messages messages' : List (UInt32 × Message)} {mtu : UInt16}
  {delivered delivered' : List Delivery} {fragmentId : UInt32} {bits : BitVec 64}

theorem Backed.mono (h : Backed messages mtu delivered fragmentId bits)
    (hmessages : messages ⊆ messages') (hdelivered : delivered ⊆ delivered') :
    Backed messages' mtu delivered' fragmentId bits := by
  obtain ⟨msg, hmsg, hbits, hzero⟩ := h
  exact ⟨msg, hmessages hmsg, hbits, fun hbits ↦ hdelivered (hzero hbits)⟩

/-- Accepting a fragment clears a bit, and the message is delivered with the last one. -/
theorem Backed.accepted {mc mc' : MessageContext} {fh : Fragment} {now : ℕ} {status : Status}
    {delivery : Option Delivery}
    (h : Backed messages mtu (delivered ++ delivery.toList) mc.fragmentId mc.bits)
    (haccepted : Accepted mtu fh now mc status mc' delivery)
    (hconsists : ∀ d ∈ delivery, d.Consists (Authentic messages)) :
    Backed messages mtu (delivered ++ delivery.toList) mc'.fragmentId mc'.bits := by
  cases haccepted with
  | duplicate => exact h
  | @missing mc' hset hcopy =>
    obtain ⟨msg, hmsg, hbits, -⟩ := h
    obtain ⟨-, hid, -, hbits', -⟩ := copyData_eq_some hcopy
    rw [hid]
    refine ⟨msg, hmsg, fun bit hbit ↦ ?_, fun hzero ↦ ?_⟩
    · rw [hbits', getLsbD_sub_one_shiftLeft hset, Bool.and_eq_true] at hbit
      exact hbits bit hbit.1
    · rw [if_pos hzero] at hconsists ⊢
      have hd := hconsists _ rfl
      have horiginal : Delivery.Consists (Original msg mc.fragmentId)
          ⟨mc'.fragmentId, mc'.totalSize, mc'.msg⟩ := by
        refine ⟨hd.length_eq, hd.header_le, fun i byte hbyte _ ↦ ?_⟩
        exact hd.bytes i byte hbyte msg (hid ▸ hmsg) rfl
      rw [← hid, horiginal.eq_original hid, hid]
      exact mem_append_right _ mem_cons_self

end Monotone

section Steps

variable {session : Session} {fc fc' : FragmentContext} {fragmentId : UInt32} {msg : Message}

theorem Sound.create (h : Sound session) (hnew : fragmentId ∉ session.messages.map Prod.fst)
    (hcreate : contextCreate session.mtu msg fragmentId = some fc) :
    Sound { session with
      senders := fc :: session.senders
      messages := (fragmentId, msg) :: session.messages } := by
  obtain ⟨hmtu, hsending, hacks⟩ := contextCreate_eq_some hcreate
  have hold {other : UInt32} {message : Message} (hmem : (other, message) ∈ session.messages) :
      other ≠ fragmentId := by
    intro heq
    exact hnew (mem_map.mpr ⟨_, hmem, heq⟩)
  have hsub : session.messages ⊆ (fragmentId, msg) :: session.messages := subset_cons_self _ _
  refine ⟨h.mtu_eq, ?_, fun _ ↦ hmtu, ?_, ?_, ?_, ?_, ?_, ?_⟩
  · intro other message message' hmem hmem'
    rcases mem_cons.mp hmem with heq | hmem
    · cases heq
      rcases mem_cons.mp hmem' with heq' | hmem'
      · cases heq'
        rfl
      · exact absurd rfl (hold hmem')
    · rcases mem_cons.mp hmem' with heq' | hmem'
      · cases heq'
        exact absurd rfl (hold hmem)
      · exact h.functional other message message' hmem hmem'
  · intro other hother
    rcases mem_cons.mp hother with rfl | hmem
    · rw [SenderSound, hsending.fragmentId_eq]
      refine ⟨msg, mem_cons_self, hsending, fun bit hbit _ ↦ ?_⟩
      rw [hacks, getLsbD_lowest (numFragments_le hmtu msg.length_lt)]
      exact decide_eq_true hbit
    · obtain ⟨message, hmessage, hrest⟩ := h.senders other hmem
      exact ⟨message, hsub hmessage, hrest⟩
  · intro fh hfh
    obtain ⟨message, hmessage, hrest⟩ := h.sent fh hfh
    exact ⟨message, hsub hmessage, hrest⟩
  · intro mc hmc i byte hbyte hbit message hmessage
    obtain ⟨_, hknown, -⟩ := h.contexts mc hmc
    rcases mem_cons.mp hmessage with heq | hmessage
    · cases heq
      exact absurd rfl (hold hknown)
    · exact h.vouched mc hmc i byte hbyte hbit message hmessage
  · exact fun mc hmc ↦ (h.contexts mc hmc).mono hsub (Subset.refl _)
  · exact fun fa hfa ↦ (h.acks fa hfa).mono hsub (Subset.refl _)
  · intro other fa hmem
    obtain ⟨message, hmessage, hdelivered⟩ := h.results other fa hmem
    exact ⟨message, hsub hmessage, hdelivered⟩

theorem Sound.updateSender (h : Sound session) {sent : List Fragment}
    (hsender : SenderSound session fc')
    (hsent : ∀ fh ∈ sent, fh ∈ session.sent ∨ FragmentSound session fh) :
    Sound { session.updateSender fc' with sent := sent } := by
  refine ⟨h.mtu_eq, h.functional, h.mtu_ge, ?_, ?_, h.vouched, h.contexts, h.acks, h.results⟩
  · intro other hother
    rcases mem_replace hother with rfl | hmem
    · exact hsender
    · exact h.senders other hmem
  · intro fh hfh
    exact (hsent fh hfh).elim (h.sent fh) id

theorem Sound.findSender (h : Sound session) (hfind : session.findSender fragmentId = some fc) :
    fc.fragmentId = fragmentId ∧ SenderSound session fc :=
  ⟨key_of_find hfind, h.senders fc (mem_of_find hfind)⟩

theorem SenderSound.step (h : SenderSound session fc) (hstep : SenderStep fc fc')
    (hid : fc'.fragmentId = fc.fragmentId) (hacks : fc'.acks = fc.acks) :
    SenderSound session fc' := by
  obtain ⟨msg, hmsg, hsending, hreported⟩ := h
  rw [SenderSound, hid, hacks]
  exact ⟨msg, hmsg, hsending.step hstep, hreported⟩

section

variable (h : Sound session)
include h

section

variable (hfind : session.findSender fragmentId = some fc)
include hfind

theorem Sound.transmit
    {delayed : Bool} {fragment : Option Fragment}
    (htransmit : transmitNext fc delayed = some (fc', fragment)) :
    Sound { session.updateSender fc' with sent := session.sent ++ fragment.toList } := by
  obtain ⟨_, hsender⟩ := h.findSender hfind
  have hstep := SenderStep.transmit htransmit
  obtain ⟨_, _, _, _, _, _, rfl, -, hfragment⟩ := transmitNext_cases htransmit
  apply h.updateSender (hsender.step hstep rfl rfl)
  intro fh hfh
  rcases mem_append.mp hfh with hfh | hfh
  · exact Or.inl hfh
  · obtain ⟨msg, hmsg, hsending, -⟩ := hsender
    obtain ⟨bit, hset, rfl⟩ := hfragment fh (mem_toList.mp hfh) hsending.next_lt
    refine Or.inr ⟨msg, hmsg, bit, hsending.acks_lt bit hset, ?_⟩
    rw [hsending.msg_eq, hsending.mtu_eq]
    rfl

theorem Sound.transmissionDone
    (hdone : contextTransmissionDone fc = some fc') : Sound (session.updateSender fc') := by
  have hstep := SenderStep.done hdone
  rw [contextTransmissionDone_eq_some hdone] at hstep ⊢
  exact h.updateSender ((h.findSender hfind).2.step hstep rfl rfl) fun fh hfh ↦ Or.inl hfh

omit hfind in
theorem Sound.destroy (fragmentId : UInt32) :
    Sound { session with
      senders := session.senders.filter fun fc ↦ fc.fragmentId ≠ fragmentId } :=
  ⟨h.mtu_eq, h.functional, h.mtu_ge, fun fc hfc ↦ h.senders fc (mem_of_mem_filter hfc),
    h.sent, h.vouched, h.contexts, h.acks, h.results⟩

/-- The sender takes the bits of an acknowledgement over; if no bit is left, the message was
delivered. -/
theorem Sound.ackArrives
    {fa : FragmentAcknowledgement} (hfa : fa ∈ session.reception.acks) {status : Status}
    (hprocess : processAck fc fa = some (status, fc')) :
    Sound { session.updateSender fc' with
      processed := session.processed ++ [(fragmentId, fa, status)] } := by
  obtain ⟨hid, msg, hmsg, hsending, hacks⟩ := h.findSender hfind
  subst hid
  have hstep := SenderStep.ack hprocess
  have hreported {session' : Session} {other : UInt32} {bit : ℕ}
      (hprocessed : session'.processed = session.processed ++ [(fc.fragmentId, fa, status)])
      (hnot : ¬ Reported session' other bit) : ¬ Reported session other bit := by
    intro ⟨fa', status', hmem, hrest⟩
    exact hnot ⟨fa', status', hprocessed ▸ mem_append_left _ hmem, hrest⟩
  have hle : numFragments msg.bytes.length session.mtu ≤ 64 :=
    numFragments_le (h.mtu_ge (ne_nil_of_mem hmsg)) msg.length_lt
  refine ⟨h.mtu_eq, h.functional, h.mtu_ge, ?_, h.sent, h.vouched, h.contexts, h.acks, ?_⟩
  · intro other hother
    rcases mem_replace hother with rfl | hmem
    · rcases processAck_cases hprocess with ⟨-, rfl⟩ | ⟨hfid, _, _, _, rfl, -⟩
      · exact ⟨msg, hmsg, hsending, fun bit hbit hnot ↦ hacks bit hbit (hreported rfl hnot)⟩
      · refine ⟨msg, hmsg, hsending.step hstep, fun bit hbit hnot ↦ ?_⟩
        have hset : fa.bits.getLsbD bit = true := by
          by_contra hclear
          rw [Bool.not_eq_true] at hclear
          exact hnot ⟨fa, status, mem_append_right _ mem_cons_self, hfid, hclear⟩
        rw [hsending.acksMask_eq, BitVec.getLsbD_and, hset, getLsbD_lowest hle]
        exact decide_eq_true hbit
    · obtain ⟨message, hmessage, hsending', hacks'⟩ := h.senders other hmem
      exact ⟨message, hmessage, hsending', fun bit hbit hnot ↦
        hacks' bit hbit (hreported rfl hnot)⟩
  · intro other fa' hmem
    rcases mem_append.mp hmem with hmem | hmem
    · exact h.results other fa' hmem
    · cases mem_singleton.mp hmem
      rcases processAck_cases hprocess with ⟨hstatus, -⟩ | ⟨hfid, _, _, _, -, hresult⟩
      · cases hstatus
      · have hzero := (hresult.resolve_left fun hno ↦ by cases hno.1).2
        obtain ⟨message, hmessage, hbits, hdelivered⟩ := h.acks fa hfa
        rw [hfid] at hmessage hdelivered
        cases h.functional _ _ _ hmsg hmessage
        refine ⟨msg, hmsg, hdelivered (BitVec.zero_iff_eq_false.mpr fun bit ↦ ?_)⟩
        -- the mask hides no fragment of the message
        by_contra hset
        rw [Bool.not_eq_false] at hset
        have hmask := BitVec.zero_iff_eq_false.mp hzero bit
        rw [hsending.acksMask_eq, BitVec.getLsbD_and, hset, getLsbD_lowest hle,
          decide_eq_true (hbits bit hset)] at hmask
        cases hmask

end

theorem Sound.receive {reception : Reception} (hmtu : reception.dc.mtu = session.mtu)
    (hvouched : ∀ mc ∈ reception.dc.list, Vouched (Authentic session.messages) session.mtu mc)
    (hcontexts : ∀ mc ∈ reception.dc.list,
      Backed session.messages session.mtu reception.delivered mc.fragmentId mc.bits)
    (hacks : ∀ fa ∈ reception.acks,
      Backed session.messages session.mtu reception.delivered fa.fragmentId fa.bits)
    (hdelivered : session.reception.delivered ⊆ reception.delivered) :
    Sound { session with reception := reception } := by
  refine ⟨hmtu, h.functional, h.mtu_ge, h.senders, h.sent, hvouched, hcontexts, hacks,
    fun other fa hmem ↦ ?_⟩
  obtain ⟨msg, hmsg, hmem'⟩ := h.results other fa hmem
  exact ⟨msg, hmsg, hdelivered hmem'⟩

theorem Sound.ackTask {dc : DefragmentContext} {fa : FragmentAcknowledgement}
    (hsend : sendAck session.reception.dc fragmentId = some (dc, fa)) :
    Sound { session with
      reception := ⟨dc, session.reception.log, session.reception.delivered,
        session.reception.acks ++ [fa]⟩ } := by
  obtain ⟨hmtu, hcontexts⟩ := sendAck_invariant hsend h.contexts fun _ hmc ↦ hmc
  have hvouched := (sendAck_invariant hsend h.vouched fun _ hmc ↦ hmc).2
  refine h.receive (hmtu.trans h.mtu_eq) hvouched hcontexts (fun other hother ↦ ?_)
    (Subset.refl _)
  rcases mem_append.mp hother with hother | hother
  · exact h.acks other hother
  · obtain ⟨mc, hfind, -, rfl⟩ := sendAck_eq_some hsend
    cases mem_singleton.mp hother
    exact h.contexts mc (mem_of_find hfind)

end

variable {fh : Fragment}

section

variable (h : Sound session) (hfh : FragmentSound session fh)
include h hfh

theorem FragmentSound.brings : Brings (Authentic session.messages) session.mtu fh := by
  obtain ⟨msg, hmsg, _, hbit, hfh⟩ := hfh
  have hmtu := h.mtu_ge (ne_nil_of_mem hmsg)
  intro i byte hlow hhigh htotal hpayload message hmessage
  cases h.functional _ _ _ hmsg hmessage
  have hbrings : Brings (Original msg fh.fragmentId) session.mtu fh := by
    rw [hfh]
    exact brings_assembleFragment (by omega) hbit
  exact hbrings i byte hlow hhigh htotal hpayload

theorem backed_emptyMc {now : ℕ}
    (hbits : numFragments fh.totalSize.toNat session.mtu ≤ 64) (delivered : List Delivery) :
    Backed session.messages session.mtu delivered fh.fragmentId
      (emptyMc session.mtu fh.fragmentId fh.totalSize now).bits := by
  obtain ⟨msg, hmsg, _, _, hfh⟩ := hfh
  have hmtu := h.mtu_ge (ne_nil_of_mem hmsg)
  have htotal : fh.totalSize.toNat = msg.bytes.length := by
    rw [hfh]
    exact assembleFragment_totalSize _ _ _ _
  have hset (i : ℕ) : (emptyMc session.mtu fh.fragmentId fh.totalSize now).bits.getLsbD i =
      decide (i < numFragments msg.bytes.length session.mtu) := by
    rw [← htotal]
    exact getLsbD_lowest hbits i
  refine ⟨msg, hmsg, fun i hi ↦ ?_, fun hzero ↦ ?_⟩
  · rw [hset i] at hi
    exact of_decide_eq_true hi
  · have hfirst := (hset 0).trans (decide_eq_true (numFragments_pos (by omega)))
    exact absurd hzero (ne_zero_of_getLsbD hfirst)

theorem Sound.fragmentArrives {now : ℕ}
    {status : Status} {dc : DefragmentContext} {delivery : Option Delivery}
    (hprocess : processFragment session.reception.dc fh now = some (status, dc, delivery)) :
    Sound { session with
      reception := ⟨dc, session.reception.log ++ [(fh, status)],
        session.reception.delivered ++ delivery.toList, session.reception.acks⟩ } := by
  have hsub : session.reception.delivered ⊆ session.reception.delivered ++ delivery.toList :=
    subset_append_left _ _
  have hmtu := h.mtu_eq
  obtain ⟨hmtu', hvouched, hconsists⟩ := processFragment_vouched hprocess (hmtu ▸ h.vouched)
    fun _ _ ↦ hmtu ▸ hfh.brings h
  have hcontexts := processFragment_invariant (D := fun _ ↦ True) hprocess
    (fun mc hmc ↦ (h.contexts mc hmc).mono (Subset.refl _) hsub)
    (fun _ hbits ↦ hmtu ▸ backed_emptyMc h hfh (hmtu ▸ hbits) _) (by
      rw [hmtu]
      exact fun mc mc' _ _ _ hbacked haccepted ↦
        ⟨hbacked.accepted haccepted hconsists, fun _ _ ↦ trivial⟩)
  exact h.receive (hmtu'.trans hmtu) (hmtu ▸ hvouched) hcontexts.2.1
    (fun fa hfa ↦ (h.acks fa hfa).mono (Subset.refl _) hsub) hsub

end

theorem Sound.step (h : Sound session) {event : SessionEvent} {next : Session}
    (hstep : session.step event = some next) : Sound next := by
  cases event with
  | create msg fragmentId =>
    rw [Session.step] at hstep
    split_ifs at hstep with hused
    obtain ⟨fc, hcreate, rfl⟩ := map_eq_some_iff.mp hstep
    exact h.create hused hcreate
  | transmit fragmentId delayed =>
    obtain ⟨fc, hfind, hstep⟩ := bind_eq_some_iff.mp hstep
    obtain ⟨⟨fc', _⟩, htransmit, rfl⟩ := map_eq_some_iff.mp hstep
    exact h.transmit hfind htransmit
  | transmissionDone fragmentId =>
    obtain ⟨fc, hfind, hstep⟩ := bind_eq_some_iff.mp hstep
    obtain ⟨fc', hdone, rfl⟩ := map_eq_some_iff.mp hstep
    exact h.transmissionDone hfind hdone
  | destroy fragmentId =>
    cases hstep
    exact h.destroy fragmentId
  | fragmentArrives index now =>
    obtain ⟨fh, hfh, hstep⟩ := bind_eq_some_iff.mp hstep
    obtain ⟨reception, hreception, rfl⟩ := map_eq_some_iff.mp hstep
    obtain ⟨⟨status, dc, _⟩, hprocess, rfl⟩ := map_eq_some_iff.mp hreception
    exact h.fragmentArrives (h.sent fh (mem_of_getElem? hfh)) hprocess
  | ackTask fragmentId =>
    obtain ⟨reception, hreception, rfl⟩ := map_eq_some_iff.mp hstep
    rw [Reception.step] at hreception
    split at hreception
    case h_1 dc fa hsend =>
      cases hreception
      exact h.ackTask hsend
    case h_2 =>
      cases hreception
      exact h
  | ackArrives fragmentId index =>
    obtain ⟨fc, hfind, hstep⟩ := bind_eq_some_iff.mp hstep
    obtain ⟨fa, hfa, hstep⟩ := bind_eq_some_iff.mp hstep
    obtain ⟨⟨status, fc'⟩, hprocess, rfl⟩ := map_eq_some_iff.mp hstep
    exact h.ackArrives hfind (mem_of_getElem? hfa) hprocess

theorem sound_start (mtu : UInt16) (numMsgs : ℕ) : Sound (Session.start mtu numMsgs) := by
  refine ⟨rfl, ?_, fun hne ↦ absurd rfl hne, ?_, ?_, ?_, ?_, ?_, ?_⟩
  all_goals
    intros
    exact (not_mem_nil ‹_›).elim

end Steps

/-- In every run, `GNUNET_FRAGMENT_process_ack` has returned `GNUNET_OK` only for messages that were
delivered, and every fragment that no acknowledgement reported as received is still considered
unacknowledged. -/
theorem acknowledged_delivered (mtu : UInt16) (numMsgs : ℕ) (events : List SessionEvent)
    (session : Session)
    (hrun : Runs.run Session.step (Session.start mtu numMsgs) events = some session) :
    (∀ fragmentId fa, (fragmentId, fa, Status.ok) ∈ session.processed →
      ∃ msg, (fragmentId, msg) ∈ session.messages ∧
        ⟨fragmentId, UInt16.ofNat msg.bytes.length, msg.bytes⟩ ∈ session.reception.delivered) ∧
    ∀ fc ∈ session.senders, (fc.fragmentId, fc.msg) ∈ session.messages ∧
      ∀ bit < numFragments fc.msg.bytes.length fc.mtu,
        ¬ Reported session fc.fragmentId bit → fc.acks.getLsbD bit = true := by
  have hsound : Sound session := Runs.run_invariant (fun _ _ _ hsound _ hnext ↦ hsound.step hnext)
    (sound_start mtu numMsgs) (Runs.along_of_forall (fun _ _ ↦ trivial) _ events) hrun
  refine ⟨hsound.results, fun fc hfc ↦ ?_⟩
  obtain ⟨msg, hmsg, hsending, hacks⟩ := hsound.senders fc hfc
  rw [hsending.msg_eq, hsending.mtu_eq]
  exact ⟨hmsg, hacks⟩

/-- Three fragments; the last one arrives first and is repeated, and an acknowledgement is late. -/
def longSession : List SessionEvent :=
  [.create longMessage 7, .transmit 7 false, .transmissionDone 7, .transmit 7 false,
    .transmissionDone 7, .transmit 7 false, .fragmentArrives 2 0, .ackTask 7,
    .fragmentArrives 0 1, .fragmentArrives 2 2, .ackArrives 7 0, .fragmentArrives 1 3, .ackTask 7,
    .ackArrives 7 1]

theorem acknowledged_delivered_long :
    ∃ session, Runs.run Session.step (Session.start 1036 3) longSession = some session ∧
      session.processed = [(7, ⟨16, 7, 3#64⟩, .no), (7, ⟨16, 7, 0#64⟩, .ok)] ∧
      (∀ fragmentId fa, (fragmentId, fa, Status.ok) ∈ session.processed →
        ∃ msg, (fragmentId, msg) ∈ session.messages ∧
          ⟨fragmentId, UInt16.ofNat msg.bytes.length, msg.bytes⟩ ∈ session.reception.delivered) ∧
      ∀ fc ∈ session.senders, (fc.fragmentId, fc.msg) ∈ session.messages ∧
        ∀ bit < numFragments fc.msg.bytes.length fc.mtu,
          ¬ Reported session fc.fragmentId bit → fc.acks.getLsbD bit = true := by
  have hrun : (Runs.run Session.step (Session.start 1036 3) longSession).map Session.processed =
      some [(7, ⟨16, 7, 3#64⟩, .no), (7, ⟨16, 7, 0#64⟩, .ok)] := by
    decide +kernel
  obtain ⟨session, hsession, hprocessed⟩ := map_eq_some_iff.mp hrun
  exact ⟨session, hsession, hprocessed,
    acknowledged_delivered 1036 3 longSession session hsession⟩

end Gnunet.Fragmentation
