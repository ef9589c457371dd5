import Gnunet.Lib.Chunks
import Gnunet.Stream.Socket

/-!
# The writing side of a stream

Every DATA message that is sent is the message of one packet: its payload, and its sequence number
and offset modulo `2 ^ 32`.  The pending write holds the packets at the end of the stream.
-/

namespace Gnunet.Stream

open Lib List Nat Chunks

variable {start : ℕ} {packets : List (List Byte)} {socket socket' : Sender}
  {sent : List DataMessage}

structure IsPacket (start : ℕ) (packets : List (List Byte)) (msg : DataMessage) : Prop where
  payload : packets[msg.index]? = some msg.payload
  sequenceNumber : msg.sequenceNumber = (start + msg.index) % 2 ^ 32
  offset : msg.offset = offset packets msg.index % 2 ^ 32

variable {msg : DataMessage}

theorem IsPacket.index_lt (h : IsPacket start packets msg) : msg.index < packets.length :=
  (List.getElem?_eq_some_iff.mp h.payload).1

theorem IsPacket.append (h : IsPacket start packets msg) (more : List (List Byte)) :
    IsPacket start (packets ++ more) msg := by
  constructor
  · rw [getElem?_append_left h.index_lt, h.payload]
  · exact h.sequenceNumber
  · rw [offset_append h.index_lt.le, h.offset]

def PayloadsFit (packets : List (List Byte)) : Prop :=
  ∀ payload ∈ packets, 0 < payload.length ∧ payload.length ≤ defaultMaxPayloadSize

structure Writing (start : ℕ) (socket : Sender) : Prop where
  payload_size : ∀ payload ∈ socket.packets,
    0 < payload.length ∧ payload.length ≤ defaultMaxPayloadSize
  written : socket.packets.flatten = socket.written
  sequenceNumber : socket.writeSequenceNumber = (start + socket.packets.length) % 2 ^ 32
  offset : socket.writeOffset = socket.packets.flatten.length % 2 ^ 32
  isPacket : ∀ handle, socket.writeHandle = some handle →
    ∀ msg ∈ handle.messages, IsPacket start socket.packets msg
  /-- The pending write holds the last packets. -/
  index_eq : ∀ handle, socket.writeHandle = some handle → ∀ packet msg,
    handle.messages[packet]? = some msg →
      msg.index + handle.messages.length = socket.packets.length + packet
  length_le : ∀ handle, socket.writeHandle = some handle →
    handle.messages.length ≤ ackBitmapBitLength

/-- Only the pending write, the window, the task and the completed writes differ. -/
def SameStream (socket socket' : Sender) : Prop :=
  socket' = { socket with
    writeHandle := socket'.writeHandle
    receiverWindowAvailable := socket'.receiverWindowAvailable
    dataRetransmissionTask := socket'.dataRetransmissionTask
    completed := socket'.completed }

def Completed (socket socket' : Sender) (handle : IOWriteHandle) (sent : List DataMessage) : Prop :=
  socket'.writeHandle = none ∧
    socket'.completed = handle.messages.map DataMessage.index ++ socket.completed ∧ sent = []

def Pending (socket socket' : Sender) (handle : IOWriteHandle) (bitmap : AckBitmap)
    (sent : List DataMessage) : Prop :=
  ∃ handle', socket'.writeHandle = some handle' ∧ handle'.messages = handle.messages ∧
    handle'.ackBitmap = bitmap ∧ socket'.completed = socket.completed ∧ sent ⊆ handle.messages

theorem Writing.of_sameStream (hwriting : Writing start socket) (hsame : SameStream socket socket')
    (hhandle : ∀ handle', socket'.writeHandle = some handle' →
      ∃ handle, socket.writeHandle = some handle ∧ handle'.messages = handle.messages) :
    Writing start socket' := by
  constructor
  · rw [hsame]
    exact hwriting.payload_size
  · rw [hsame]
    exact hwriting.written
  · rw [hsame]
    exact hwriting.sequenceNumber
  · rw [hsame]
    exact hwriting.offset
  · intro handle' hhandle' msg hmsg
    obtain ⟨handle, hpending, hmessages⟩ := hhandle handle' hhandle'
    rw [hsame]
    exact hwriting.isPacket handle hpending msg (hmessages ▸ hmsg)
  · intro handle' hhandle' packet msg hmsg
    obtain ⟨handle, hpending, hmessages⟩ := hhandle handle' hhandle'
    rw [hmessages] at hmsg ⊢
    rw [hsame]
    exact hwriting.index_eq handle hpending packet msg hmsg
  · intro handle' hhandle'
    obtain ⟨handle, hpending, hmessages⟩ := hhandle handle' hhandle'
    rw [hmessages]
    exact hwriting.length_le handle hpending

theorem SameStream.packets_eq (h : SameStream socket socket') :
    socket'.packets = socket.packets := by
  rw [h]

theorem Writing.of_pending {handle : IOWriteHandle} {bitmap : AckBitmap}
    (hwriting : Writing start socket) (hhandle : socket.writeHandle = some handle)
    (hsame : SameStream socket socket') (hpending : Pending socket socket' handle bitmap sent) :
    Writing start socket' ∧ socket'.packets = socket.packets ∧
      ∀ msg ∈ sent, IsPacket start socket'.packets msg := by
  obtain ⟨handle', hhandle', hmessages, -, -, hsent⟩ := hpending
  refine ⟨hwriting.of_sameStream hsame ?_, hsame.packets_eq, ?_⟩
  · intro other hother
    rw [hhandle'] at hother
    cases hother
    exact ⟨handle, hhandle, hmessages⟩
  · intro msg hmsg
    rw [hsame.packets_eq]
    exact hwriting.isPacket handle hhandle msg (hsent hmsg)

theorem fillWindow_subset (window : ℕ) (messages : List DataMessage) :
    (fillWindow window messages).2 ⊆ messages := by
  induction messages generalizing window with
  | nil => exact Subset.refl []
  | cons message rest ih =>
    rw [fillWindow]
    split
    · exact cons_subset_cons message (ih _)
    · exact nil_subset _

theorem unacknowledged_subset (handle : IOWriteHandle) :
    unacknowledged handle ⊆ handle.messages := by
  intro message hmem
  obtain ⟨_, hentry, rfl⟩ := mem_map.mp hmem
  have hindexed := mem_of_mem_filter hentry
  exact mem_of_mem_take (fst_mem_of_mem_zipIdx hindexed)

theorem writeData_spec (h : writeData socket = some (socket', sent)) :
    ∃ handle, socket.writeHandle = some handle ∧ SameStream socket socket' ∧
      Pending socket socket' handle handle.ackBitmap sent := by
  obtain ⟨handle, hhandle, heq⟩ := Option.map_eq_some_iff.mp h
  cases heq
  refine ⟨handle, hhandle, rfl, _, rfl, rfl, rfl, rfl, ?_⟩
  apply append_subset.mpr
  refine ⟨unacknowledged_subset handle, ?_⟩
  exact Subset.trans (fillWindow_subset _ _) (drop_subset _ _)

theorem Writing.writeData (hwriting : Writing start socket)
    (h : writeData socket = some (socket', sent)) :
    Writing start socket' ∧ socket'.packets = socket.packets ∧
      ∀ msg ∈ sent, IsPacket start socket'.packets msg := by
  obtain ⟨_, hhandle, hsame, hpending⟩ := writeData_spec h
  exact hwriting.of_pending hhandle hsame hpending

section Packets

variable {maxPayloadSize size : ℕ} {data : List Byte}

variable {packet : ℕ}

theorem length_packetPayload (hmax : 0 < maxPayloadSize) (hsize : size ≤ data.length)
    (hpacket : packet * maxPayloadSize < size) :
    0 < (packetPayload maxPayloadSize size data packet).length ∧
      (packetPayload maxPayloadSize size data packet).length ≤ maxPayloadSize := by
  have hnext : (packet + 1) * maxPayloadSize = packet * maxPayloadSize + maxPayloadSize :=
    succ_mul _ _
  rw [packetPayload, length_take, length_drop]
  split_ifs <;> omega

theorem flatten_packetPayload (maxPayloadSize size : ℕ) (data : List Byte) (n : ℕ) :
    ((range n).map (packetPayload maxPayloadSize size data)).flatten =
      data.take (min (n * maxPayloadSize) size) := by
  induction n with
  | zero => simp
  | succ n ih =>
    rw [range_succ, map_append, flatten_append, ih]
    simp only [map_cons, map_nil, flatten_cons, flatten_nil, append_nil, packetPayload]
    rw [succ_mul]
    rcases lt_or_ge (n * maxPayloadSize) size with hlt | hge
    · rw [min_eq_left hlt.le, ← take_add]
      congr 1
      split_ifs <;> omega
    · rw [Nat.min_eq_right hge, if_neg (by omega), Nat.sub_eq_zero_of_le hge, take_zero,
        append_nil, min_eq_right (by omega)]

theorem lt_numNeededPackets_iff (hmax : 0 < maxPayloadSize) (packet size : ℕ) :
    packet < (size + (maxPayloadSize - 1)) / maxPayloadSize ↔ packet * maxPayloadSize < size := by
  rw [← succ_le_iff, le_div_iff_mul_le hmax, succ_mul]
  omega

end Packets

theorem length_dataMessages (index sequenceNumber offset : ℕ) (payloads : List (List Byte)) :
    (dataMessages index sequenceNumber offset payloads).length = payloads.length := by
  induction payloads generalizing index sequenceNumber offset with
  | nil => rfl
  | cons payload rest ih => rw [dataMessages, length_cons, ih, length_cons]

variable {payloads : List (List Byte)}

theorem getElem?_dataMessages {start index base : ℕ}
    (h : (dataMessages index ((start + index) % 2 ^ 32) (base % 2 ^ 32) payloads)[packet]? =
      some msg) :
    msg.index = index + packet ∧ payloads[packet]? = some msg.payload ∧
      msg.sequenceNumber = (start + msg.index) % 2 ^ 32 ∧
      msg.offset = (base + offset payloads packet) % 2 ^ 32 := by
  induction payloads generalizing index base packet with
  | nil => cases h
  | cons payload rest ih =>
    cases packet with
    | zero =>
      cases h
      exact ⟨rfl, rfl, rfl, rfl⟩
    | succ packet =>
      have hoffset : add32 (base % 2 ^ 32) payload.length =
          (base + payload.length) % 2 ^ 32 := mod_add_mod _ _ _
      rw [dataMessages, add32, SequenceNumber.add_mod_left, hoffset] at h
      obtain ⟨_, hpayload, hsequence, hmsg⟩ := ih h
      refine ⟨by omega, hpayload, hsequence, ?_⟩
      rw [hmsg, offset, offset, take_succ_cons, flatten_cons, length_append, add_assoc]

theorem isPacket_dataMessages (h : (dataMessages packets.length ((start + packets.length) % 2 ^ 32)
      (packets.flatten.length % 2 ^ 32) payloads)[packet]? = some msg) :
    IsPacket start (packets ++ payloads) msg ∧ msg.index = packets.length + packet := by
  obtain ⟨hindex, hpayload, hsequence, hoffset⟩ := getElem?_dataMessages h
  refine ⟨⟨?_, hsequence, ?_⟩, hindex⟩
  · rw [hindex, getElem?_append_right (Nat.le_add_right _ _), Nat.add_sub_cancel_left]
    exact hpayload
  · rw [hindex, offset_append_add, hoffset]

theorem Writing.newWrite {data : List Byte} (hwriting : Writing start socket)
    (hlength : payloads.length ≤ ackBitmapBitLength) (hdata : payloads.flatten = data)
    (hpayloads : PayloadsFit payloads) :
    Writing start (newWrite socket data payloads) := by
  have hmessages : ∀ packet msg,
      (dataMessages socket.packets.length socket.writeSequenceNumber socket.writeOffset
        payloads)[packet]? = some msg →
      IsPacket start (socket.packets ++ payloads) msg ∧
        msg.index = socket.packets.length + packet := by
    intro packet msg hmsg
    rw [hwriting.sequenceNumber, hwriting.offset] at hmsg
    exact isPacket_dataMessages hmsg
  unfold Stream.newWrite
  constructor
  · intro payload hmem
    cases mem_append.mp hmem with
    | inl hold => exact hwriting.payload_size payload hold
    | inr hnew => exact hpayloads payload hnew
  · rw [flatten_append, hwriting.written, hdata]
  · rw [hwriting.sequenceNumber, add32, SequenceNumber.add_mod_left, length_append]
  · dsimp only
    rw [hwriting.offset, add32, SequenceNumber.add, mod_add_mod, flatten_append,
      length_append, hdata]
  · intro handle hhandle msg hmsg
    cases hhandle
    obtain ⟨packet, hpacket⟩ := mem_iff_getElem?.mp hmsg
    exact (hmessages packet msg hpacket).1
  · intro handle hhandle packet msg hmsg
    cases hhandle
    rw [(hmessages packet msg hmsg).2, length_dataMessages, length_append]
    omega
  · intro handle hhandle
    cases hhandle
    rwa [length_dataMessages]

theorem Writing.write {data : List Byte} (hwriting : Writing start socket)
    (h : write socket data = some (socket', sent)) :
    Writing start socket' ∧ (∃ more, socket'.packets = socket.packets ++ more) ∧
      ∀ msg ∈ sent, IsPacket start socket'.packets msg := by
  unfold Stream.write at h
  dsimp only at h
  split at h
  · cases h
    exact ⟨hwriting, ⟨[], by simp⟩, by simp⟩
  split at h
  · cases h
  have hmax := socket.maxPayloadSize.pos
  obtain ⟨hsize, hlimit⟩ : writeSize socket.maxPayloadSize.bytes data ≤ data.length ∧
      writeSize socket.maxPayloadSize.bytes data ≤
        ackBitmapBitLength * socket.maxPayloadSize.bytes := by
    unfold writeSize
    split_ifs <;> omega
  generalize writeSize socket.maxPayloadSize.bytes data = size at h hsize hlimit
  generalize hpayloads : (range ((size + (socket.maxPayloadSize.bytes - 1)) /
    socket.maxPayloadSize.bytes)).map (packetPayload socket.maxPayloadSize.bytes size data) =
      payloads at h
  have hneeded := fun packet ↦ lt_numNeededPackets_iff hmax packet size
  have hlength : payloads.length ≤ ackBitmapBitLength := by
    rw [← hpayloads, length_map, length_range]
    by_contra hmany
    exact absurd ((hneeded _).mp (lt_of_not_ge hmany)) (not_lt.mpr hlimit)
  have hdata : payloads.flatten = data.take size := by
    have hcovered := not_lt.mp ((hneeded _).not.mp (lt_irrefl _))
    rw [← hpayloads, flatten_packetPayload, min_eq_right hcovered]
  have hpayload : PayloadsFit payloads := by
    rw [← hpayloads]
    intro payload hmem
    obtain ⟨_, hpacket, rfl⟩ := mem_map.mp hmem
    have hbounds := length_packetPayload hmax hsize ((hneeded _).mp (mem_range.mp hpacket))
    exact ⟨hbounds.1, hbounds.2.trans socket.maxPayloadSize.le_default⟩
  obtain ⟨hwriting', hpackets, hsent⟩ := (hwriting.newWrite hlength hdata hpayload).writeData h
  exact ⟨hwriting', ⟨payloads, hpackets⟩, hsent⟩

theorem finishAck_cases {handle : IOWriteHandle}
    (h : finishAck socket handle = some (socket', sent)) :
    SameStream socket socket' ∧
      ((∀ packet < handle.messages.length, isBitSet handle.ackBitmap packet = true) ∧
          Completed socket socket' handle sent ∨
        Pending socket socket' handle handle.ackBitmap sent) := by
  unfold finishAck at h
  dsimp only at h
  split at h
  next =>
    obtain ⟨_, hhandle, hsame, hpending⟩ := writeData_spec h
    cases hhandle
    exact ⟨by rw [SameStream, hsame], .inr hpending⟩
  next hall =>
    cases h
    refine ⟨rfl, .inl ⟨fun packet hpacket ↦ ?_, rfl, rfl, rfl⟩⟩
    by_contra hunset
    apply hall
    exact any_eq_true.mpr ⟨packet, mem_range.mpr hpacket, by simpa using hunset⟩

theorem handleAck_cases {ack : AckMessage} (h : handleAck socket ack = some (socket', sent)) :
    socket' = socket ∧ sent = [] ∨
      ∃ handle packet bitmap, socket.writeHandle = some handle ∧ SameStream socket socket' ∧
        ackBelowBase ack.baseSequenceNumber 0 handle.messages handle.ackBitmap =
          some (packet, bitmap) ∧
        (handle.messages[packet]? = none ∧ Completed socket socket' handle sent ∨
          ∃ message bitmap', handle.messages[packet]? = some message ∧
            message.sequenceNumber = ack.baseSequenceNumber ∧
            ackFromBitmap ack (ackBitmapBitLength - packet) packet
              (handle.messages.drop packet) bitmap = some bitmap' ∧
            ((∀ packet < handle.messages.length, isBitSet bitmap' packet = true) ∧
                Completed socket socket' handle sent ∨
              Pending socket socket' handle bitmap' sent)) := by
  unfold handleAck at h
  split at h
  next =>
    cases h
    exact .inl ⟨rfl, rfl⟩
  next handle hhandle =>
    split at h
    · cases h
      exact .inl ⟨rfl, rfl⟩
    obtain ⟨⟨packet, bitmap⟩, hbelow, h⟩ := Option.bind_eq_some_iff.mp h
    refine .inr ⟨handle, packet, bitmap, hhandle, ?_⟩
    dsimp only at h
    split at h
    next hnone =>
      cases h
      exact ⟨rfl, hbelow, .inl ⟨hnone, rfl, rfl, rfl⟩⟩
    next message hsome =>
      split at h
      · cases h
      next hbase =>
        obtain ⟨bitmap', hfrom, h⟩ := Option.bind_eq_some_iff.mp h
        obtain ⟨hsame, hcases⟩ := finishAck_cases h
        refine ⟨?_, hbelow, .inr ⟨message, bitmap', hsome, not_not.mp hbase, hfrom, hcases⟩⟩
        rw [SameStream, hsame]

theorem Writing.handleAck {ack : AckMessage} (hwriting : Writing start socket)
    (h : handleAck socket ack = some (socket', sent)) :
    Writing start socket' ∧ socket'.packets = socket.packets ∧
      ∀ msg ∈ sent, IsPacket start socket'.packets msg := by
  -- completing drops the handle; going on keeps its messages, and only those are sent
  have hcompleted : ∀ handle, SameStream socket socket' → Completed socket socket' handle sent →
      Writing start socket' ∧ socket'.packets = socket.packets ∧
        ∀ msg ∈ sent, IsPacket start socket'.packets msg := by
    intro handle hsame hdone
    refine ⟨hwriting.of_sameStream hsame ?_, hsame.packets_eq, by simp [hdone.2.2]⟩
    intro handle' hhandle'
    rw [hdone.1] at hhandle'
    cases hhandle'
  rcases handleAck_cases h with ⟨rfl, rfl⟩ | ⟨handle, packet, bitmap, hhandle, hsame, -, hcases⟩
  · exact ⟨hwriting, rfl, by simp⟩
  rcases hcases with ⟨-, hdone⟩ | ⟨message, bitmap', -, -, -, ⟨-, hdone⟩ | hpending⟩
  · exact hcompleted handle hsame hdone
  · exact hcompleted handle hsame hdone
  · exact hwriting.of_pending hhandle hsame hpending

end Gnunet.Stream
