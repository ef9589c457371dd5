import Gnunet.Stream.Reading

/-!
# Data integrity of a stream

Whatever is lost, duplicated or reordered, the bytes that the reader gets are the first bytes that
were written, as long as no DATA message is delivered so late that its sequence number is in use
again.
-/

namespace Gnunet.Stream

open Lib Function List Option Nat DataMessage Runs

variable {start : ℕ} {system system' : System}

structure Intact (start : ℕ) (system : System) : Prop where
  writing : Writing start system.sender
  sent : ∀ msg ∈ system.dataSent, IsPacket start system.sender.packets msg
  reading : Reading start system.sender.packets system.receiver

/-- No DATA message is delivered when the window has come near its number again. -/
def InTime (system : System) : Event → Prop
  | .deliverData n _ => ∀ msg ∈ system.dataSent[n]?, Recent system.receiver msg
  | _ => True

instance decidableInTime (system : System) : DecidablePred (InTime system)
  | .deliverData n _ => inferInstanceAs (Decidable (∀ msg ∈ system.dataSent[n]?, _))
  | .write _ | .dataRetransmission | .deliverAck _ | .read | .callReadProcessor _
  | .ioReadCancel | .ackTask | .ioWriteCancel => .isTrue trivial

theorem intact_established (maxPayloadSize : MaxPayloadSize) (sequenceNumber window : ℕ)
    (junk : ℕ → Byte) :
    Intact sequenceNumber (established maxPayloadSize sequenceNumber window junk) := by
  refine ⟨⟨?_, rfl, rfl, rfl, ?_, ?_, ?_⟩, ?_, ⟨⟨rfl, rfl, le_rfl, ?_, ?_, ?_, ?_⟩, .inl rfl, rfl⟩⟩
  all_goals simp [established]

/-- A step of the writing side adds packets and sends messages of packets. -/
theorem Intact.send (h : Intact start system) {sender : Sender} {sent : List DataMessage}
    (hwriting : Writing start sender)
    (hpackets : ∃ more, sender.packets = system.sender.packets ++ more)
    (hsent : ∀ msg ∈ sent, IsPacket start sender.packets msg) :
    Intact start (system.send (sender, sent)) := by
  obtain ⟨more, hpackets⟩ := hpackets
  refine ⟨hwriting, ?_, ?_⟩
  · intro msg hmsg
    cases mem_append.mp hmsg with
    | inl hold =>
      rw [System.send, hpackets]
      exact (h.sent msg hold).append more
    | inr hnew => exact hsent msg hnew
  · rw [System.send, hpackets]
    exact h.reading.append more

theorem Intact.step {event : Event} (h : Intact start system) (htime : InTime system event)
    (hstep : step system event = some system') : Intact start system' := by
  have hsizes := h.writing.payload_size
  cases event with
  | write data =>
    obtain ⟨⟨sender, sent⟩, hwrite, rfl⟩ := map_eq_some_iff.mp hstep
    obtain ⟨hwriting, hpackets, hsent⟩ := h.writing.write hwrite
    exact h.send hwriting hpackets hsent
  | dataRetransmission =>
    obtain ⟨⟨sender, sent⟩, hretransmit, rfl⟩ := map_eq_some_iff.mp hstep
    unfold dataRetransmission at hretransmit
    split at hretransmit
    · have hidle : Writing start { system.sender with dataRetransmissionTask := false } :=
        h.writing.of_sameStream rfl fun handle hhandle ↦ ⟨handle, hhandle, rfl⟩
      obtain ⟨hwriting, hpackets, hsent⟩ := hidle.writeData hretransmit
      exact h.send hwriting ⟨[], by simp [hpackets]⟩ hsent
    · cases hretransmit
  | deliverData n junk =>
    obtain ⟨msg, hmsg, hdeliver⟩ := bind_eq_some_iff.mp hstep
    obtain ⟨receiver, hreceiver, rfl⟩ := map_eq_some_iff.mp hdeliver
    have hpacket := h.sent msg (mem_of_getElem? hmsg)
    exact ⟨h.writing, h.sent, h.reading.handleData hsizes hpacket (htime msg hmsg) hreceiver⟩
  | deliverAck n =>
    obtain ⟨ack, -, hdeliver⟩ := bind_eq_some_iff.mp hstep
    obtain ⟨⟨sender, sent⟩, hack, rfl⟩ := map_eq_some_iff.mp hdeliver
    obtain ⟨hwriting, hpackets, hsent⟩ := h.writing.handleAck hack
    exact h.send hwriting ⟨[], by simp [hpackets]⟩ hsent
  | read =>
    cases hstep
    refine ⟨h.writing, h.sent, ?_⟩
    unfold Stream.read
    split
    · exact h.reading
    · exact h.reading.steer _ _
  | callReadProcessor readSize =>
    obtain ⟨receiver, hreceiver, rfl⟩ := map_eq_some_iff.mp hstep
    exact ⟨h.writing, h.sent, h.reading.callReadProcessor hsizes hreceiver⟩
  | ioReadCancel =>
    obtain ⟨receiver, hreceiver, rfl⟩ := map_eq_some_iff.mp hstep
    obtain ⟨handle, -, rfl⟩ := map_eq_some_iff.mp hreceiver
    exact ⟨h.writing, h.sent, h.reading.steer _ _⟩
  | ackTask =>
    obtain ⟨⟨receiver, ack⟩, hack, rfl⟩ := map_eq_some_iff.mp hstep
    unfold sendAck at hack
    split at hack
    · cases hack
      exact ⟨h.writing, h.sent, h.reading.steer _ _⟩
    · cases hack
  | ioWriteCancel =>
    obtain ⟨sender, hcancel, rfl⟩ := map_eq_some_iff.mp hstep
    obtain ⟨handle, -, rfl⟩ := map_eq_some_iff.mp hcancel
    refine ⟨h.writing.of_sameStream rfl ?_, h.sent, h.reading⟩
    rintro _ ⟨⟩

/-- In every run in which no DATA message comes 2 ^ 32 - 63 packets late or 2 ^ 32 packets early,
the bytes that the reader has consumed are a prefix of the bytes written. -/
theorem consumed_prefix_of_written {maxPayloadSize : MaxPayloadSize} {sequenceNumber window : ℕ}
    {junk : ℕ → Byte} {events : List Event} {last : System}
    (hrun : run step (established maxPayloadSize sequenceNumber window junk) events =
      some last) (htime : Along step InTime (established maxPayloadSize sequenceNumber window junk)
      events) :
    last.receiver.consumed <+: last.sender.written := by
  have hintact : Intact sequenceNumber last := run_invariant
    (fun _ _ _ h htime hstep ↦ h.step htime hstep)
    (intact_established maxPayloadSize sequenceNumber window junk) htime hrun
  rw [hintact.reading.consumed, hintact.writing.written]
  exact take_prefix _ _

/-- The sequence number wraps around between two packets, which arrive in the wrong order, and the
first of them again later. -/
def wrappedRun : List Event :=
  [.write [1, 2, 3], .read, .deliverData 1 fun _ ↦ 7, .deliverData 0 fun _ ↦ 7,
    .callReadProcessor 2, .deliverData 0 fun _ ↦ 7, .read, .callReadProcessor 1]

theorem wrappedRun_consumed :
    ∃ last, run step (established ⟨2, by decide, by decide⟩ (2 ^ 32 - 1) 100 fun _ ↦ 7)
      wrappedRun = some last ∧ last.receiver.consumed = [1, 2, 3] ∧
        last.receiver.consumed <+: last.sender.written := by
  have hrun : ∃ last, run step
      (established ⟨2, by decide, by decide⟩ (2 ^ 32 - 1) 100 fun _ ↦ 7) wrappedRun = some last ∧
        last.receiver.consumed = [1, 2, 3] := ⟨_, rfl, rfl⟩
  obtain ⟨last, hlast, hconsumed⟩ := hrun
  exact ⟨last, hlast, hconsumed, consumed_prefix_of_written hlast (by decide)⟩

structure Idle (k : ℕ) (socket : Receiver) : Prop where
  ackBitmap : socket.ackBitmap = 0
  sequenceNumber : socket.readSequenceNumber = k % 2 ^ 32
  offset : socket.readOffset = k % 2 ^ 32
  copyOffset : socket.copyOffset = 0
  size_le : socket.receiveBufferSize ≤ 1
  boundaries : socket.receiveBufferBoundaries = fun _ ↦ 0
  readHandle : socket.readHandle = none
  consumed : socket.consumed.length = k

structure Arrived (k : ℕ) (socket : Receiver) : Prop where
  ackBitmap : socket.ackBitmap = 1
  sequenceNumber : socket.readSequenceNumber = k % 2 ^ 32
  offset : socket.readOffset = k % 2 ^ 32
  copyOffset : socket.copyOffset = 0
  size : socket.receiveBufferSize = 1
  boundaries : socket.receiveBufferBoundaries = update (fun _ ↦ 0) 0 1
  readHandle : socket.readHandle = none
  ackTask : socket.ackTask = true
  consumed : socket.consumed.length = k

theorem sub32_self {a : ℕ} (h : a < 2 ^ 32) : sub32 a a = 0 := by
  rw [sub32, SequenceNumber.sub_of_le le_rfl h, Nat.sub_self]

theorem sub32_succ (k : ℕ) : sub32 ((k + 1) % 2 ^ 32) (k % 2 ^ 32) = 1 := by
  have hsub : sub32 ((0 + (k + 1)) % 2 ^ 32) ((0 + k) % 2 ^ 32) = k + 1 - k :=
    SequenceNumber.sub_counters_of_le (by omega) (by omega)
  rwa [Nat.zero_add, Nat.zero_add, Nat.add_sub_cancel_left] at hsub

variable {socket : Receiver} {k : ℕ} {msg : DataMessage}

theorem scheduleRead_idle (h : socket.readHandle = none) : scheduleRead socket = socket := by
  unfold scheduleRead
  split
  next handle hhandle =>
    rw [h] at hhandle
    cases hhandle
  next => rfl

theorem Idle.copyData (h : Idle k socket) (hsize : socket.receiveBufferSize = 1)
    (hmsg : msg.size = 21) (hpayload : msg.payload.length = 1) :
    ∃ arrived, copyData socket msg 0 0 = some arrived ∧ Arrived k arrived := by
  have hroom : ¬ socket.receiveBufferSize < 0 + msg.payload.length := by omega
  have hboundary : add32 0 (msg.size - sizeofDataMessage) = 1 := by
    rw [hmsg]
    rfl
  have hbitmap : ackbitmapModifyBit socket.ackBitmap 0 = some 1 := by
    rw [h.ackBitmap]
    rfl
  rw [Stream.copyData, if_neg hroom, hbitmap]
  refine ⟨_, congrArg some (scheduleRead_idle h.readHandle), ?_⟩
  exact ⟨rfl, h.sequenceNumber, h.offset, h.copyOffset, hsize, by rw [h.boundaries, hboundary],
    h.readHandle, rfl, h.consumed⟩

theorem Idle.handleData (h : Idle k socket) (junk : ℕ → Byte)
    (hsequence : msg.sequenceNumber = k % 2 ^ 32) (hoffset : msg.offset = k % 2 ^ 32)
    (hpayload : msg.payload.length = 1) :
    ∃ arrived, handleData junk socket msg = some arrived ∧ Arrived k arrived := by
  have hmsg : msg.size = 21 := by
    rw [DataMessage.size, hpayload]
    rfl
  have hlt : k % 2 ^ 32 < 2 ^ 32 := mod_lt _ (by decide)
  have hneeded : add32 0 (21 - sizeofDataMessage) = 1 := rfl
  have hbit : isBitSet socket.ackBitmap 0 = false := by
    rw [h.ackBitmap]
    rfl
  have hwindow : ¬ ackBitmapBitLength ≤ 0 := by decide
  have hheader : ¬ 21 < sizeofDataMessage := by decide
  unfold Stream.handleData
  simp only [hmsg, hsequence, hoffset, h.sequenceNumber, h.offset, sub32_self hlt, hbit,
    if_neg hwindow, if_neg hheader, Bool.false_eq_true, if_false]
  split
  · apply Idle.copyData _ rfl hmsg hpayload
    exact ⟨h.ackBitmap, rfl, rfl, h.copyOffset, le_rfl, h.boundaries, h.readHandle, h.consumed⟩
  next hgrown =>
    have hsize_le := h.size_le
    exact h.copyData (by omega) hmsg hpayload

theorem Arrived.read (h : Arrived k socket) :
    ∃ socket', callReadProcessor (read socket) 1 = some socket' ∧ Idle (k + 1) socket' ∧
      socket'.ackTask = true := by
  have hread : Stream.read socket = { socket with readHandle := some ⟨true⟩ } := by
    rw [Stream.read, h.readHandle, h.ackBitmap]
    rfl
  have hhole : firstHole 1 = 1 := by decide
  have hpackets : packetsRead (update (fun _ ↦ 0) 0 1) 1 = 1 := by decide
  have hadd : add32 0 1 = 1 := rfl
  have hfix : fixBoundaries (update (fun _ ↦ 0) 0 1) 1 1 = some fun _ ↦ 0 := by
    rw [fixBoundaries, if_pos (by decide)]
    congr 1
    funext packet
    rw [update_of_ne (by omega), ite_self]
  have hoffset : update (fun _ ↦ 0) 0 1 (1 - 1) = 1 := rfl
  rw [hread]
  unfold callReadProcessor
  simp only [h.ackBitmap, h.size, h.boundaries, h.copyOffset, hhole, hadd]
  unfold afterRead
  simp only [hpackets]
  unfold removePackets
  simp only [hoffset, hfix]
  refine ⟨_, rfl, ⟨rfl, ?_, ?_, rfl, le_rfl, rfl, rfl, ?_⟩, h.ackTask⟩
  · rw [h.sequenceNumber]
    exact mod_add_mod k (2 ^ 32) 1
  · rw [h.offset]
    exact mod_add_mod k (2 ^ 32) 1
  · simp [h.consumed]

structure Ready (k : ℕ) (socket : Sender) : Prop where
  writeHandle : socket.writeHandle = none
  sequenceNumber : socket.writeSequenceNumber = k % 2 ^ 32
  offset : socket.writeOffset = k % 2 ^ 32
  window : 21 ≤ socket.receiverWindowAvailable
  maxPayloadSize : socket.maxPayloadSize.bytes = 64000
  written : socket.written.length = k

structure Wrote (k : ℕ) (msg : DataMessage) (socket : Sender) : Prop where
  writeHandle : socket.writeHandle = some ⟨[msg], 0, 1, 1, k % 2 ^ 32⟩
  sequenceNumber : socket.writeSequenceNumber = (k + 1) % 2 ^ 32
  offset : socket.writeOffset = (k + 1) % 2 ^ 32
  maxPayloadSize : socket.maxPayloadSize.bytes = 64000
  written : socket.written.length = k + 1

theorem Ready.write {socket : Sender} (h : Ready k socket) (b : Byte) :
    ∃ socket', write socket [b] = some (socket',
        [⟨socket.packets.length, k % 2 ^ 32, k % 2 ^ 32, [b]⟩]) ∧
      Wrote k ⟨socket.packets.length, k % 2 ^ 32, k % 2 ^ 32, [b]⟩ socket' := by
  have hsize : writeSize 64000 [b] = 1 := rfl
  have hpayload : (range 1).map (packetPayload 64000 1 [b]) = [[b]] := rfl
  have hmsg : (DataMessage.mk socket.packets.length (k % 2 ^ 32) (k % 2 ^ 32) [b]).size = 21 := rfl
  have hadd : add32 (k % 2 ^ 32) 1 = (k + 1) % 2 ^ 32 := mod_add_mod k (2 ^ 32) 1
  unfold Stream.write
  simp only [h.maxPayloadSize, h.writeHandle, hsize, hpayload, take_succ_cons, take_zero]
  simp only [writeData, newWrite, dataMessages, map_some, drop_zero, fillWindow,
    h.sequenceNumber, h.offset, hmsg, if_pos h.window, length_singleton, hadd]
  exact ⟨_, rfl, rfl, rfl, rfl, h.maxPayloadSize, by simp [h.written]⟩

theorem Wrote.handleAck {socket : Sender} {ack : AckMessage} (h : Wrote k msg socket)
    (hmsg : msg.sequenceNumber = k % 2 ^ 32) (hbase : ack.baseSequenceNumber = (k + 1) % 2 ^ 32)
    (hwindow : 21 ≤ ack.receiveWindowRemaining) :
    ∃ socket', handleAck socket ack = some (socket', []) ∧ Ready (k + 1) socket' := by
  have hlt : (k + 1) % 2 ^ 32 < 2 ^ 32 := mod_lt _ (by decide)
  unfold Stream.handleAck
  simp only [h.writeHandle, h.sequenceNumber, hbase, hmsg, sub32_self hlt, sub32_succ, ackBelowBase]
  exact ⟨_, rfl, rfl, rfl, h.offset, hwindow, h.maxPayloadSize, h.written⟩

/-- `k` bytes were written, received, read and acknowledged, one by one. -/
structure Resting (k : ℕ) (system : System) : Prop where
  ready : Ready k system.sender
  idle : Idle k system.receiver
  dataSent : system.dataSent.length = k
  first : 0 < k → ∃ index, system.dataSent[0]? = some ⟨index, 0, 0, [1]⟩
  acksSent : system.acksSent.length = k

def byteRound (k : ℕ) : List Event :=
  [.write [1], .deliverData k fun _ ↦ 0, .read, .callReadProcessor 1, .ackTask, .deliverAck k]

theorem Resting.round {system : System} (h : Resting k system) :
    ∃ system', run step system (byteRound k) = some system' ∧ Resting (k + 1) system' := by
  obtain ⟨_, hwrite, hwrote⟩ := h.ready.write 1
  generalize hmsg : DataMessage.mk system.sender.packets.length (k % 2 ^ 32) (k % 2 ^ 32) [1] =
    msg at hwrite hwrote
  obtain ⟨_, hdeliver, harrived⟩ := h.idle.handleData (fun _ ↦ 0)
    (congrArg sequenceNumber hmsg.symm) (congrArg offset hmsg.symm)
    (congrArg (fun msg ↦ msg.payload.length) hmsg.symm)
  obtain ⟨receiver, hread, hidle, htask⟩ := harrived.read
  generalize hack : AckMessage.mk receiver.readIndex receiver.readSequenceNumber
    receiver.ackBitmap (receiveBufferLimit - receiver.receiveBufferSize) = ack
  have hsend : sendAck receiver = some ({ receiver with ackTask := false }, ack) := by
    rw [sendAck, if_pos htask, hack]
  have hwindow : 21 ≤ ack.receiveWindowRemaining := by
    have hsize := hidle.size_le
    rw [← hack]
    dsimp only [receiveBufferLimit]
    omega
  obtain ⟨_, hcomplete, hready⟩ := hwrote.handleAck
    (congrArg sequenceNumber hmsg.symm)
    (hack ▸ hidle.sequenceNumber) hwindow
  have hdata : (system.dataSent ++ [msg])[k]? = some msg := by
    rw [← h.dataSent, getElem?_concat_length]
  have hacks : (system.acksSent ++ [ack])[k]? = some ack := by
    rw [← h.acksSent, getElem?_concat_length]
  simp only [byteRound, run, step, hwrite, map_some, bind_some, System.send,
    bind_eq_bind, hdata, hdeliver, hread, hsend, hacks, hcomplete]
  refine ⟨_, rfl, hready, ?_, ?_, ?_, ?_⟩
  · exact ⟨hidle.ackBitmap, hidle.sequenceNumber, hidle.offset, hidle.copyOffset, hidle.size_le,
      hidle.boundaries, hidle.readHandle, hidle.consumed⟩
  · simp [h.dataSent]
  · intro _
    rw [append_nil]
    rcases Nat.eq_zero_or_pos k with rfl | hpos
    · have hempty := eq_nil_of_length_eq_zero h.dataSent
      refine ⟨system.sender.packets.length, ?_⟩
      rw [hempty, ← hmsg]
      rfl
    · rw [getElem?_append_left (h.dataSent ▸ hpos)]
      exact h.first hpos
  · simp [h.acksSent]

theorem exists_resting (n : ℕ) :
    ∃ system, run step (established ⟨64000, by decide, le_rfl⟩ 0 4096000 fun _ ↦ 0)
      ((range n).flatMap byteRound) = some system ∧ Resting n system := by
  induction n with
  | zero =>
    refine ⟨_, rfl, ⟨rfl, rfl, rfl, by decide, rfl, rfl⟩,
      ⟨rfl, rfl, rfl, rfl, zero_le 1, rfl, rfl, rfl⟩, rfl, ?_, rfl⟩
    exact fun h ↦ absurd h (lt_irrefl 0)
  | succ n ih =>
    obtain ⟨system, hrun, hresting⟩ := ih
    obtain ⟨system', hround, hresting'⟩ := hresting.round
    refine ⟨system', ?_, hresting'⟩
    rw [range_succ, flatMap_append, run_append, hrun]
    simpa using hround

def lateRun : List Event :=
  (range (2 ^ 32)).flatMap byteRound ++ [.deliverData 0 fun _ ↦ 0, .read, .callReadProcessor 1]

/-- The packet is taken for the next one, and its byte is read again. -/
theorem late_packet_read_again :
    ∃ last, run step (established ⟨64000, by decide, le_rfl⟩ 0 4096000 fun _ ↦ 0) lateRun =
      some last ∧ ¬ last.receiver.consumed <+: last.sender.written := by
  obtain ⟨system, hrun, hresting⟩ := exists_resting (2 ^ 32)
  obtain ⟨index, hfirst⟩ := hresting.first (by decide)
  have hwrap : 0 = 2 ^ 32 % 2 ^ 32 := (mod_self _).symm
  have harrive : ∃ arrived, handleData (fun _ ↦ 0) system.receiver ⟨index, 0, 0, [1]⟩ =
      some arrived ∧ Arrived (2 ^ 32) arrived := hresting.idle.handleData _ hwrap hwrap rfl
  obtain ⟨arrived, hdeliver, harrived⟩ := harrive
  obtain ⟨receiver, hread, hidle, -⟩ := harrived.read
  refine ⟨{ system with receiver := receiver }, ?_, ?_⟩
  · rw [lateRun, run_append, hrun]
    simp only [bind_some, run, step, hfirst, bind_eq_bind, hdeliver, map_some, hread]
  · intro hprefix
    have hlength := hprefix.length_le
    rw [hidle.consumed, hresting.ready.written] at hlength
    omega

end Gnunet.Stream
