import Gnunet.Stream.Integrity

/-!
# Acknowledgements of a stream

An acknowledgement says which packets the receiver had accepted when it was sent.  `handle_ack`
reads its base number relative to the pending write only, so the packets it marks are accepted
ones if the base lies within that write.  An acknowledgement with a base before the pending write
passes the check of the base as well, and then every packet of the write is marked.  A base within
a write of fewer than 64 packets makes `handle_ack` read behind the last packet.
-/

namespace Gnunet.Stream

open Lib List Option Subset

variable {start : ℕ} {system system' : System}

structure Honest (start : ℕ) (packets : List (List Byte)) (accepted : List ℕ)
    (ack : AckMessage) : Prop where
  base : ack.baseSequenceNumber = (start + ack.index) % 2 ^ 32
  index_le : ack.index ≤ packets.length
  below : ∀ i < ack.index, i ∈ accepted
  marked : ∀ k, ack.bitmap.getLsbD k = true → ack.index + k ∈ accepted

/-- The marks of the pending write and the completed writes were accepted. -/
structure Covered (accepted : List ℕ) (socket : Sender) : Prop where
  marked : ∀ handle, socket.writeHandle = some handle → ∀ packet msg,
    handle.messages[packet]? = some msg → handle.ackBitmap.getLsbD packet = true →
      msg.index ∈ accepted
  completed : ∀ i ∈ socket.completed, i ∈ accepted

structure Acknowledged (start : ℕ) (system : System) : Prop extends Intact start system where
  honest : ∀ ack ∈ system.acksSent, Honest start system.sender.packets system.receiver.accepted ack
  covered : Covered system.receiver.accepted system.sender

/-! ## Marking packets -/

variable {bitmap bitmap' : AckBitmap}

/-- The loop marks the packets before the one with the number of the base. -/
theorem ackBelowBase_spec {packet : ℕ} {messages : List DataMessage} (base : ℕ)
    (bitmap : AckBitmap) (h : packet + messages.length ≤ ackBitmapBitLength) :
    ∃ packet' bitmap', ackBelowBase base packet messages bitmap = some (packet', bitmap') ∧
      packet ≤ packet' ∧
      (∀ k, bitmap'.getLsbD k = true →
        bitmap.getLsbD k = true ∨ packet ≤ k ∧ k < packet') ∧
      ∀ k msg, messages[k]? = some msg → packet + k ≤ packet' →
        (sub32 base msg.sequenceNumber = 0 ↔ packet + k = packet') := by
  induction messages generalizing packet bitmap with
  | nil => exact ⟨packet, bitmap, rfl, le_rfl, fun k hk ↦ .inl hk, by simp⟩
  | cons message rest ih =>
    rw [length_cons] at h
    rw [ackBelowBase]
    split
    next hbase =>
      refine ⟨packet, bitmap, rfl, le_rfl, fun k hk ↦ .inl hk, fun k msg hmsg hle ↦ ?_⟩
      obtain rfl : k = 0 := by omega
      cases hmsg
      exact iff_of_true hbase rfl
    next hbase =>
      have hfits : packet < ackBitmapBitLength := by omega
      rw [ackbitmapModifyBit, if_pos hfits]
      obtain ⟨packet', bitmap', hrest, hle, hbits, hstop⟩ :=
        ih (BitWindow.mark bitmap packet) (by omega : packet + 1 + rest.length ≤ _)
      refine ⟨packet', bitmap', hrest, by omega, ?_, ?_⟩
      · intro k hk
        cases hbits k hk with
        | inl hmarked =>
          rw [BitWindow.getLsbD_mark, Bool.or_eq_true, decide_eq_true_iff] at hmarked
          exact hmarked.imp_right fun hnew ↦ by omega
        | inr hlater => exact .inr ⟨by omega, hlater.2⟩
      · intro k msg hmsg hlt
        cases k with
        | zero =>
          cases hmsg
          exact iff_of_false hbase (by omega)
        | succ k =>
          rw [hstop k msg hmsg (by omega)]
          omega

variable {ack : AckMessage}

theorem ackPacket_spec {message : DataMessage} {packet : ℕ}
    (h : ackPacket ack message packet bitmap = some bitmap') :
    ∀ k, bitmap'.getLsbD k = true → bitmap.getLsbD k = true ∨
      k = packet ∧
        ack.bitmap.getLsbD (sub32 message.sequenceNumber ack.baseSequenceNumber) = true := by
  intro k hk
  obtain ⟨_, hset, h⟩ := bind_eq_some_iff.mp h
  unfold ackbitmapIsBitSet at hset
  split at hset
  · rw [isBitSet_eq, some_inj] at hset
    split at h
    next hbit =>
      unfold ackbitmapModifyBit at h
      split at h
      · cases h
        rw [BitWindow.getLsbD_mark, Bool.or_eq_true, decide_eq_true_iff] at hk
        exact hk.imp_right fun hnew ↦ ⟨hnew.2, hset.trans hbit⟩
      · cases h
    next =>
      cases h
      exact .inl hk
  · cases hset

theorem ackFromBitmap_spec {rounds packet : ℕ} {messages : List DataMessage}
    (h : ackFromBitmap ack rounds packet messages bitmap = some bitmap') :
    ∀ k, bitmap'.getLsbD k = true → bitmap.getLsbD k = true ∨
      ∃ n msg, k = packet + n ∧ messages[n]? = some msg ∧
        ack.bitmap.getLsbD (sub32 msg.sequenceNumber ack.baseSequenceNumber) = true := by
  induction rounds generalizing packet messages bitmap with
  | zero =>
    cases h
    exact fun k hk ↦ .inl hk
  | succ rounds ih =>
    cases messages with
    | nil => cases h
    | cons message rest =>
      obtain ⟨_, hmiddle, h⟩ := bind_eq_some_iff.mp h
      intro k hk
      rcases ih h k hk with hold | ⟨n, msg, hn, hmsg, hbit⟩
      · exact (ackPacket_spec hmiddle k hold).imp_right fun hnew ↦
          ⟨0, message, hnew.1, rfl, hnew.2⟩
      · exact .inr ⟨n + 1, msg, by omega, hmsg, hbit⟩

/-! ## Handling an acknowledgement -/

/-- The receiver was waiting for a packet of the pending write, or for the first one after it. -/
def Current (socket : Sender) (ack : AckMessage) : Prop :=
  ∀ handle ∈ socket.writeHandle, socket.packets.length ≤ ack.index + handle.messages.length

section HandleAck

variable {socket : Sender} {handle : IOWriteHandle} {ack : AckMessage} {accepted : List ℕ}
  {packet : ℕ} {bitmap : AckBitmap} {msg : DataMessage}

theorem Covered.of_pending {socket' : Sender} {sent : List DataMessage}
    (hcovered : Covered accepted socket) (hpending : Pending socket socket' handle bitmap sent)
    (hmarked : ∀ k msg, handle.messages[k]? = some msg → bitmap.getLsbD k = true →
      msg.index ∈ accepted) : Covered accepted socket' := by
  obtain ⟨handle', hhandle', hmessages, hbitmap, hcompleted, -⟩ := hpending
  constructor
  · intro other hother
    rw [hhandle'] at hother
    cases hother
    rw [hmessages, hbitmap]
    exact hmarked
  · rw [hcompleted]
    exact hcovered.completed

variable (hwriting : Writing start socket) (hhonest : Honest start socket.packets accepted ack)
  (hcurrent : Current socket ack)
include hwriting hhonest hcurrent

theorem index_lt_of_ackBelowBase {k : ℕ} (hhandle : socket.writeHandle = some handle)
    (hbefore : ∀ n < packet, ∀ msg ∈ handle.messages[n]?,
      sub32 ack.baseSequenceNumber msg.sequenceNumber ≠ 0)
    (hk : k < packet) (hmsg : handle.messages[k]? = some msg) : msg.index < ack.index := by
  by_contra hge
  have hfirst := hcurrent handle hhandle
  have hindex := hwriting.index_eq handle hhandle k msg hmsg
  have hlength := (List.getElem?_eq_some_iff.mp hmsg).1
  -- the packet that the base names is one of the pending write, and the loop stops there
  obtain ⟨n, _⟩ := Nat.exists_eq_add_of_le hfirst
  have hbase : n < handle.messages.length := by omega
  have hstop := getElem?_eq_getElem hbase
  have hstop_index := hwriting.index_eq handle hhandle n _ hstop
  have hstop_packet := hwriting.isPacket handle hhandle _ (mem_of_getElem? hstop)
  have hsame : handle.messages[n].index = ack.index := by omega
  apply hbefore n (by omega) _ hstop
  rw [hstop_packet.sequenceNumber, hsame, hhonest.base, sub32,
    SequenceNumber.sub_of_le le_rfl (Nat.mod_lt _ (by decide)), Nat.sub_self]

/-- A mark from the bitmap of the acknowledgement is on an accepted packet. -/
theorem index_mem_of_bitmap (hhandle : socket.writeHandle = some handle) {k : ℕ}
    (hmsg : handle.messages[k]? = some msg)
    (hbit : ack.bitmap.getLsbD (sub32 msg.sequenceNumber ack.baseSequenceNumber) = true) :
    msg.index ∈ accepted := by
  have hpacket := hwriting.isPacket handle hhandle msg (mem_of_getElem? hmsg)
  rcases Nat.lt_or_ge msg.index ack.index with hlt | hge
  · exact hhonest.below msg.index hlt
  · have hfirst := hcurrent handle hhandle
    have hshort := hwriting.length_le handle hhandle
    have hlt := hpacket.index_lt
    have hsub : sub32 msg.sequenceNumber ack.baseSequenceNumber = msg.index - ack.index := by
      rw [hpacket.sequenceNumber, hhonest.base, sub32,
        SequenceNumber.sub_counters_of_le hge (by rw [ackBitmapBitLength] at hshort; omega)]
    rw [hsub] at hbit
    have hmarked := hhonest.marked _ hbit
    rwa [Nat.add_sub_cancel' hge] at hmarked

theorem Covered.handleAck {socket' : Sender} {sent : List DataMessage}
    (hcovered : Covered accepted socket) (h : handleAck socket ack = some (socket', sent)) :
    Covered accepted socket' := by
  rcases handleAck_cases h with ⟨rfl, -⟩ | ⟨handle, packet, bitmap, hhandle, -, hbelow, hcases⟩
  · exact hcovered
  obtain ⟨packet', _, hloop, -, hbits, hstop⟩ := ackBelowBase_spec ack.baseSequenceNumber
    handle.ackBitmap ((Nat.zero_add _).le.trans (hwriting.length_le handle hhandle))
  cases hbelow.symm.trans hloop
  have hpassed : ∀ k msg, handle.messages[k]? = some msg → k < packet → msg.index ∈ accepted :=
    fun k msg hmsg hk ↦ hhonest.below _
      (index_lt_of_ackBelowBase hwriting hhonest hcurrent hhandle
        (fun n hn msg hmsg ↦ mt (hstop n msg hmsg (by omega)).mp (by omega)) hk hmsg)
  have hmarked : ∀ k msg, handle.messages[k]? = some msg → bitmap.getLsbD k = true →
      msg.index ∈ accepted := by
    intro k msg hmsg hbit
    cases hbits k hbit with
    | inl hold => exact hcovered.marked handle hhandle k msg hmsg hold
    | inr hnew => exact hpassed k msg hmsg hnew.2
  have hcomplete : (∀ (k : ℕ) (msg : DataMessage), handle.messages[k]? = some msg →
      msg.index ∈ accepted) →
      Completed socket socket' handle sent → Covered accepted socket' := by
    rintro hall ⟨hnone, hcompleted, -⟩
    constructor
    · intro other hother
      rw [hnone] at hother
      cases hother
    · intro i hi
      rw [hcompleted] at hi
      cases mem_append.mp hi with
      | inl hnew =>
        obtain ⟨msg, hmsg, rfl⟩ := mem_map.mp hnew
        obtain ⟨k, hk⟩ := mem_iff_getElem?.mp hmsg
        exact hall k msg hk
      | inr hold => exact hcovered.completed i hold
  rcases hcases with ⟨hnone, hdone⟩ | ⟨message, bitmap', -, -, hfrom, hcases⟩
  · have hlength := getElem?_eq_none_iff.mp hnone
    apply hcomplete _ hdone
    intro k msg hmsg
    have hk := (List.getElem?_eq_some_iff.mp hmsg).1
    exact hpassed k msg hmsg (by omega)
  have hmarked' : ∀ k msg, handle.messages[k]? = some msg → bitmap'.getLsbD k = true →
      msg.index ∈ accepted := by
    intro k msg hmsg hbit
    rcases ackFromBitmap_spec hfrom k hbit with hold | ⟨n, other, rfl, hother, hset⟩
    · exact hmarked k msg hmsg hold
    · rw [getElem?_drop, hmsg, some_inj] at hother
      subst hother
      exact index_mem_of_bitmap hwriting hhonest hcurrent hhandle hmsg hset
  rcases hcases with ⟨hall, hdone⟩ | hpending
  · apply hcomplete _ hdone
    intro k msg hmsg
    have hset := hall k (List.getElem?_eq_some_iff.mp hmsg).1
    rw [isBitSet_eq] at hset
    exact hmarked' k msg hmsg hset
  · exact hcovered.of_pending hpending hmarked'

end HandleAck

/-! ## The other steps -/

section Steps

variable {accepted accepted' : List ℕ} {socket socket' : Sender} {sent : List DataMessage}

theorem Covered.mono (h : Covered accepted socket) (hsubset : accepted ⊆ accepted') :
    Covered accepted' socket :=
  ⟨fun handle hhandle packet msg hmsg hbit ↦
    hsubset (h.marked handle hhandle packet msg hmsg hbit), fun i hi ↦ hsubset (h.completed i hi)⟩

theorem Honest.mono {packets more : List (List Byte)} (h : Honest start packets accepted ack)
    (hsubset : accepted ⊆ accepted') :
    Honest start (packets ++ more) accepted' ack := by
  refine ⟨h.base, ?_, fun i hi ↦ hsubset (h.below i hi), fun k hk ↦ hsubset (h.marked k hk)⟩
  rw [length_append]
  exact h.index_le.trans (Nat.le_add_right _ _)

theorem Covered.writeData (hcovered : Covered accepted socket)
    (h : writeData socket = some (socket', sent)) : Covered accepted socket' := by
  obtain ⟨handle, hhandle, -, hpending⟩ := writeData_spec h
  exact hcovered.of_pending hpending (hcovered.marked handle hhandle)

theorem Covered.write {data : List Byte} (hcovered : Covered accepted socket)
    (h : write socket data = some (socket', sent)) : Covered accepted socket' := by
  unfold Stream.write at h
  dsimp only at h
  split at h
  · cases h
    exact hcovered
  split at h
  · cases h
  apply Covered.writeData _ h
  constructor
  · intro handle hhandle packet msg _ hbit
    cases hhandle
    simp at hbit
  · exact hcovered.completed

theorem accepted_scheduleRead (socket : Receiver) :
    (scheduleRead socket).accepted = socket.accepted := by
  unfold scheduleRead
  split
  · split <;> rfl
  · rfl

variable {socket socket' : Receiver}

theorem accepted_copyData {msg : DataMessage} {k offset : ℕ}
    (h : copyData socket msg k offset = some socket') : socket.accepted ⊆ socket'.accepted := by
  unfold copyData at h
  split at h
  · cases h
  obtain ⟨_, -, rfl⟩ := map_eq_some_iff.mp h
  rw [accepted_scheduleRead]
  exact subset_cons_self _ _

theorem accepted_handleData {junk : ℕ → Byte} {msg : DataMessage}
    (h : handleData junk socket msg = some socket') : socket.accepted ⊆ socket'.accepted := by
  unfold handleData at h
  split at h
  · cases h
  dsimp only at h
  split at h
  · cases h
    exact refl _
  split at h
  · cases h
    exact refl _
  split at h
  · split at h
    · have hgrown := accepted_copyData h
      exact hgrown
    · cases h
      exact refl _
  · exact accepted_copyData h

theorem accepted_callReadProcessor {readSize : ℕ}
    (h : callReadProcessor socket readSize = some socket') :
    socket'.accepted = socket.accepted := by
  unfold callReadProcessor at h
  dsimp only at h
  split at h
  · cases h
  split at h
  · cases h
    rfl
  split at h
  · cases h
  split at h
  · cases h
  split at h
  · cases h
  unfold afterRead at h
  dsimp only at h
  split at h
  · cases h
    rfl
  unfold removePackets at h
  dsimp only at h
  split at h
  · cases h
  split at h
  · cases h
  split at h
  · cases h
  obtain ⟨_, -, rfl⟩ := map_eq_some_iff.mp h
  rfl

end Steps

/-! ## Whole runs -/

/-- Messages are delivered in time, acknowledgements only while they are current, and no read takes
all of 64 packets at once, which would shift the bitmap by its width. -/
def AckCurrent (system : System) : Event → Prop
  | .deliverAck n => ∀ ack ∈ system.acksSent[n]?, Current system.sender ack
  | .callReadProcessor readSize =>
    system.receiver.ackBitmap = BitVec.allOnes 64 → readSize < offeredSize system.receiver
  | event => InTime system event

instance decidableCurrent (socket : Sender) (ack : AckMessage) : Decidable (Current socket ack) :=
  inferInstanceAs (Decidable (∀ handle ∈ socket.writeHandle, _))

instance decidableAckCurrent (system : System) : DecidablePred (AckCurrent system)
  | .deliverAck n => inferInstanceAs (Decidable (∀ ack ∈ system.acksSent[n]?, _))
  | .callReadProcessor _ => inferInstanceAs (Decidable (_ → _))
  | .deliverData n junk => decidableInTime system (.deliverData n junk)
  | .write _ | .dataRetransmission | .read | .ioReadCancel | .ackTask | .ioWriteCancel =>
    .isTrue trivial

theorem AckCurrent.inTime {event : Event} (h : AckCurrent system event) : InTime system event := by
  cases event with
  | deliverData n junk => exact h
  | _ => trivial

/-- A step of the writing side keeps the acknowledgements honest. -/
theorem Acknowledged.send (h : Acknowledged start system) {sender : Sender}
    {sent : List DataMessage} (hintact : Intact start (system.send (sender, sent)))
    (hpackets : ∃ more, sender.packets = system.sender.packets ++ more)
    (hcovered : Covered system.receiver.accepted sender) :
    Acknowledged start (system.send (sender, sent)) := by
  refine ⟨hintact, fun ack hack ↦ ?_, hcovered⟩
  obtain ⟨more, hpackets⟩ := hpackets
  rw [System.send, hpackets]
  exact (h.honest ack hack).mono (refl _)

theorem Acknowledged.receive (h : Acknowledged start system) {receiver : Receiver}
    (hintact : Intact start { system with receiver := receiver })
    (hsubset : system.receiver.accepted ⊆ receiver.accepted) :
    Acknowledged start { system with receiver := receiver } := by
  refine ⟨hintact, fun ack hack ↦ ?_, h.covered.mono hsubset⟩
  have hhonest : Honest start (system.sender.packets ++ []) receiver.accepted ack :=
    (h.honest ack hack).mono hsubset
  rwa [append_nil] at hhonest

theorem Acknowledged.step {event : Event} (h : Acknowledged start system)
    (hcurrent : AckCurrent system event) (hstep : step system event = some system') :
    Acknowledged start system' := by
  have hintact := h.toIntact.step hcurrent.inTime hstep
  cases event with
  | write data =>
    obtain ⟨⟨sender, sent⟩, hwrite, rfl⟩ := map_eq_some_iff.mp hstep
    exact h.send hintact (h.writing.write hwrite).2.1 (h.covered.write hwrite)
  | dataRetransmission =>
    obtain ⟨⟨sender, sent⟩, hretransmit, rfl⟩ := map_eq_some_iff.mp hstep
    unfold dataRetransmission at hretransmit
    split at hretransmit
    · have hidle : Covered system.receiver.accepted
          { system.sender with dataRetransmissionTask := false } :=
        ⟨h.covered.marked, h.covered.completed⟩
      obtain ⟨handle, -, hsame, -⟩ := writeData_spec hretransmit
      refine h.send hintact ⟨[], ?_⟩ (hidle.writeData hretransmit)
      rw [hsame.packets_eq, append_nil]
    · cases hretransmit
  | deliverData n junk =>
    obtain ⟨_, -, hdeliver⟩ := bind_eq_some_iff.mp hstep
    obtain ⟨receiver, hreceiver, rfl⟩ := map_eq_some_iff.mp hdeliver
    exact h.receive hintact (accepted_handleData hreceiver)
  | deliverAck n =>
    obtain ⟨ack, hack, hdeliver⟩ := bind_eq_some_iff.mp hstep
    obtain ⟨⟨sender, sent⟩, hhandle, rfl⟩ := map_eq_some_iff.mp hdeliver
    have hhonest := h.honest ack (mem_of_getElem? hack)
    refine h.send hintact ⟨[], ?_⟩ (h.covered.handleAck h.writing hhonest (hcurrent ack hack)
      hhandle)
    rw [(h.writing.handleAck hhandle).2.1, append_nil]
  | read =>
    cases hstep
    apply h.receive hintact
    unfold Stream.read
    split <;> exact refl _
  | callReadProcessor readSize =>
    obtain ⟨receiver, hreceiver, rfl⟩ := map_eq_some_iff.mp hstep
    apply h.receive hintact
    rw [accepted_callReadProcessor hreceiver]
    exact refl _
  | ioReadCancel =>
    obtain ⟨receiver, hreceiver, rfl⟩ := map_eq_some_iff.mp hstep
    obtain ⟨handle, -, rfl⟩ := map_eq_some_iff.mp hreceiver
    exact h.receive hintact (refl _)
  | ackTask =>
    obtain ⟨⟨receiver, ack⟩, hack, rfl⟩ := map_eq_some_iff.mp hstep
    unfold sendAck at hack
    split at hack
    · cases hack
      refine ⟨hintact, fun ack hmem ↦ ?_, h.covered⟩
      cases mem_append.mp hmem with
      | inl hold => exact h.honest ack hold
      | inr hnew =>
        rw [mem_singleton.mp hnew]
        refine ⟨h.reading.sequenceNumber, h.reading.index_le, h.reading.accepted, fun k hk ↦ ?_⟩
        exact (h.reading.held k (BitVec.lt_of_getLsbD hk) hk).accepted
    · cases hack
  | ioWriteCancel =>
    obtain ⟨sender, hcancel, rfl⟩ := map_eq_some_iff.mp hstep
    obtain ⟨handle, -, rfl⟩ := map_eq_some_iff.mp hcancel
    refine ⟨hintact, h.honest, ⟨?_, h.covered.completed⟩⟩
    rintro _ ⟨⟩

/-- In every run in which DATA messages are delivered in time, acknowledgements are handled while
their base lies within the pending write and no read takes 64 packets at once, only packets that the
receiver has accepted are marked, and a write is completed only when all of them are accepted. -/
theorem acknowledged_accepted {maxPayloadSize : MaxPayloadSize} {sequenceNumber window : ℕ}
    {junk : ℕ → Byte} {events : List Event} {last : System}
    (hrun : Runs.run step (established maxPayloadSize sequenceNumber window junk) events =
      some last) (hcurrent : Runs.Along step AckCurrent
      (established maxPayloadSize sequenceNumber window junk) events) :
    (∀ handle, last.sender.writeHandle = some handle → ∀ packet msg,
      handle.messages[packet]? = some msg → isBitSet handle.ackBitmap packet = true →
        msg.index ∈ last.receiver.accepted) ∧
      ∀ i ∈ last.sender.completed, i ∈ last.receiver.accepted := by
  have hlast : Acknowledged sequenceNumber last := by
    refine Runs.run_invariant (fun _ _ _ h hcurrent hstep ↦ h.step hcurrent hstep)
      ⟨intact_established maxPayloadSize sequenceNumber window junk, ?_, ⟨?_, ?_⟩⟩ hcurrent hrun
    all_goals simp [established]
  refine ⟨fun handle hhandle packet msg hmsg hbit ↦ ?_, hlast.covered.completed⟩
  rw [isBitSet_eq] at hbit
  exact hlast.covered.marked handle hhandle packet msg hmsg hbit

/-- A write of one packet is acknowledged before and after it is read, which completes the write,
and a second write is begun. -/
def acknowledgedRun : List Event :=
  [.write [1], .deliverData 0 fun _ ↦ 0, .ackTask, .read, .callReadProcessor 1,
    .deliverData 0 fun _ ↦ 0, .ackTask, .deliverAck 1, .write [2]]

theorem acknowledgedRun_accepted :
    ∃ last, Runs.run step (established ⟨64000, by decide, le_rfl⟩ 5 4096000 fun _ ↦ 0)
      acknowledgedRun = some last ∧ last.sender.completed = [0] ∧
        ∀ i ∈ last.sender.completed, i ∈ last.receiver.accepted := by
  have hrun : ∃ last, Runs.run step
      (established ⟨64000, by decide, le_rfl⟩ 5 4096000 fun _ ↦ 0) acknowledgedRun = some last ∧
        last.sender.completed = [0] := ⟨_, rfl, rfl⟩
  obtain ⟨last, hlast, hcompleted⟩ := hrun
  exact ⟨last, hlast, hcompleted, (acknowledged_accepted hlast (by decide)).2⟩

/-- The acknowledgement sent before the first packet was read arrives during the second write and
completes it, although nothing of that write has been delivered. -/
theorem stale_ack_completes_write :
    ∃ last, Runs.run step (established ⟨64000, by decide, le_rfl⟩ 5 4096000 fun _ ↦ 0)
      (acknowledgedRun ++ [.deliverAck 0]) = some last ∧
        last.sender.completed = [1, 0] ∧ last.receiver.accepted = [0] ∧
        ¬ ∀ i ∈ last.sender.completed, i ∈ last.receiver.accepted :=
  ⟨_, rfl, rfl, rfl, by decide⟩

/-! ## Acknowledgements that stop the program -/

section Stops

variable {ack : AckMessage} {socket : Sender} {handle : IOWriteHandle}

theorem exists_ackFromBitmap_iff {packet rounds : ℕ} {messages : List DataMessage}
    (bitmap : AckBitmap) (h : packet + rounds ≤ ackBitmapBitLength)
    (hnear : ∀ msg ∈ messages,
      sub32 msg.sequenceNumber ack.baseSequenceNumber < ackBitmapBitLength) :
    (∃ bitmap', ackFromBitmap ack rounds packet messages bitmap = some bitmap') ↔
      rounds ≤ messages.length := by
  induction rounds generalizing packet messages bitmap with
  | zero => exact iff_of_true ⟨bitmap, rfl⟩ (Nat.zero_le _)
  | succ rounds ih =>
    cases messages with
    | nil => exact iff_of_false (by rintro ⟨_, ⟨⟩⟩) (Nat.not_succ_le_zero _)
    | cons message rest =>
      rw [forall_mem_cons] at hnear
      have hfits : packet < ackBitmapBitLength := by omega
      have hround : ∃ bitmap', ackPacket ack message packet bitmap = some bitmap' := by
        rw [ackPacket, ackbitmapIsBitSet, if_pos hnear.1, bind_some, ackbitmapModifyBit]
        split <;> exact ⟨_, rfl⟩
      obtain ⟨bitmap', hround⟩ := hround
      rw [ackFromBitmap, hround, length_cons, Nat.add_le_add_iff_right]
      exact ih bitmap' (by omega) hnear.2

/-- The write is finished, or goes on with the same packets and a task that sends the others again.
-/
def GoesOn (handle : IOWriteHandle) (result : Sender × List DataMessage) : Prop :=
  ∀ handle' ∈ result.1.writeHandle,
    handle'.messages = handle.messages ∧ result.1.dataRetransmissionTask = true

theorem finishAck_goesOn (socket : Sender) (handle : IOWriteHandle) :
    ∃ result, finishAck socket handle = some result ∧ GoesOn handle result := by
  unfold finishAck
  dsimp only
  split
  · refine ⟨_, rfl, ?_⟩
    rintro _ ⟨⟩
    exact ⟨rfl, rfl⟩
  · refine ⟨_, rfl, ?_⟩
    rintro _ ⟨⟩

theorem Writing.sub32_eq (hwriting : Writing start socket)
    (hhandle : socket.writeHandle = some handle) {i : ℕ} {msg : DataMessage}
    (hmsg : handle.messages[i]? = some msg) :
    msg.sequenceNumber < 2 ^ 32 ∧ i < handle.messages.length ∧
      sub32 socket.writeSequenceNumber msg.sequenceNumber = handle.messages.length - i := by
  have hindex := hwriting.index_eq handle hhandle i msg hmsg
  have hi := (List.getElem?_eq_some_iff.mp hmsg).1
  have hlength := hwriting.length_le handle hhandle
  rw [ackBitmapBitLength] at hlength
  rw [(hwriting.isPacket handle hhandle msg (mem_of_getElem? hmsg)).sequenceNumber,
    hwriting.sequenceNumber, sub32, SequenceNumber.sub_counters_of_le (by omega) (by omega)]
  exact ⟨Nat.mod_lt _ (by decide), hi, by omega⟩

theorem handleAck_goesOn_iff (hwriting : Writing start socket)
    (hhandle : socket.writeHandle = some handle) (htask : socket.dataRetransmissionTask = true)
    (hack : ack.baseSequenceNumber < 2 ^ 32) :
    (∃ result, handleAck socket ack = some result ∧ GoesOn handle result) ↔
      (0 < sub32 socket.writeSequenceNumber ack.baseSequenceNumber ∧
        sub32 socket.writeSequenceNumber ack.baseSequenceNumber ≤ handle.messages.length →
      handle.messages.length = ackBitmapBitLength) := by
  have hlength := hwriting.length_le handle hhandle
  unfold handleAck
  rw [hhandle]
  dsimp only
  split
  next hfar =>
    refine iff_of_true ⟨_, rfl, fun handle' hhandle' ↦ ?_⟩ fun hnear ↦ by omega
    cases hhandle.symm.trans hhandle'
    exact ⟨rfl, htask⟩
  obtain ⟨packet, bitmap, hloop, -, -, hstop⟩ := ackBelowBase_spec ack.baseSequenceNumber
    handle.ackBitmap ((Nat.zero_add _).le.trans hlength)
  simp only [hloop, bind_eq_bind, bind_some]
  cases hmessage : handle.messages[packet]? with
  | none =>
    refine iff_of_true ⟨_, rfl, ?_⟩ fun hnear ↦ ?_
    · rintro _ ⟨⟩
    · -- the packet with the number of the base would have stopped the loop
      obtain ⟨i, hi⟩ := Nat.exists_eq_add_of_le' hnear.2
      have hlt : i < handle.messages.length := by omega
      have hmsg := getElem?_eq_getElem hlt
      have hend := getElem?_eq_none_iff.mp hmessage
      have hbase := hstop i _ hmsg (by omega)
      obtain ⟨-, -, hdistance⟩ := hwriting.sub32_eq hhandle hmsg
      simp only [sub32, SequenceNumber.sub] at hbase hdistance hi
      omega
  | some message =>
    have hbase := (hstop packet message hmessage (by omega)).mpr (by omega)
    obtain ⟨hnumber, hi, hdistance⟩ := hwriting.sub32_eq hhandle hmessage
    have hsame : message.sequenceNumber = ack.baseSequenceNumber := by
      simp only [sub32, SequenceNumber.sub] at hbase
      omega
    rw [hsame] at hdistance
    have hnear : ∀ later ∈ handle.messages.drop packet,
        sub32 later.sequenceNumber ack.baseSequenceNumber < ackBitmapBitLength := by
      intro later hmem
      obtain ⟨n, hn⟩ := mem_iff_getElem?.mp hmem
      rw [getElem?_drop] at hn
      have hlater := hwriting.sub32_eq hhandle hn
      simp only [sub32, SequenceNumber.sub] at hdistance hlater ⊢
      omega
    have hrounds := exists_ackFromBitmap_iff bitmap
      (by omega : packet + (ackBitmapBitLength - packet) ≤ ackBitmapBitLength) hnear
    rw [length_drop] at hrounds
    dsimp only
    rw [if_neg (not_not.mpr hsame)]
    cases hfrom : ackFromBitmap ack (ackBitmapBitLength - packet) packet
        (handle.messages.drop packet) bitmap with
    | none =>
      refine iff_of_false (by rintro ⟨_, ⟨⟩, -⟩) fun hfull ↦ ?_
      have hsome := hrounds.mpr (by rw [hfull (by omega)])
      rw [hfrom] at hsome
      obtain ⟨_, ⟨⟩⟩ := hsome
    | some bitmap' =>
      have hle := hrounds.mp ⟨bitmap', hfrom⟩
      exact iff_of_true (finishAck_goesOn _ _) fun _ ↦ by omega

/-- An acknowledgement whose base is the number of one of 64 packets is handled. -/
theorem handleAck_goesOn_full :
    ∃ socket handle sent, write (established ⟨2, by decide, by decide⟩ 5 4096000 fun _ ↦ 0).sender
        (replicate 128 7) = some (socket, sent) ∧ socket.writeHandle = some handle ∧
      handle.messages.length = 64 ∧
      ∃ result, handleAck socket ⟨1, 35, 5, 4096000⟩ = some result ∧ GoesOn handle result := by
  have hwriting :=
    (intact_established ⟨2, by decide, by decide⟩ 5 4096000 fun _ ↦ 0).writing
  have hstart : (write (established ⟨2, by decide, by decide⟩ 5 4096000 fun _ ↦ 0).sender
      (replicate 128 7)).map (fun result ↦ (result.1.writeHandle.map (·.messages.length),
        result.1.dataRetransmissionTask)) = some (some 64, true) := by
    decide +kernel
  obtain ⟨⟨socket, sent⟩, hwrite, heq⟩ := map_eq_some_iff.mp hstart
  rw [Prod.mk.injEq] at heq
  obtain ⟨hlength, htask⟩ := heq
  obtain ⟨handle, hhandle, hfull⟩ := map_eq_some_iff.mp hlength
  exact ⟨socket, handle, sent, hwrite, hhandle, hfull, (handleAck_goesOn_iff
    (hwriting.write hwrite).1 hhandle htask (by decide)).mpr fun _ ↦ hfull⟩

/-- The packet of a write is delivered, and the acknowledgement that says so, which was sent before
it was read, stops the program. -/
theorem handleAck_stops :
    ∃ last, Runs.run step (established ⟨64000, by decide, le_rfl⟩ 5 4096000 fun _ ↦ 0)
      [.write [1], .deliverData 0 fun _ ↦ 0, .ackTask] = some last ∧
        last.sender.writeHandle.isSome = true ∧ step last (.deliverAck 0) = none :=
  ⟨_, rfl, rfl, rfl⟩

end Stops

end Gnunet.Stream
