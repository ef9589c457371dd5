import Gnunet.Lib.BitWindow
import Gnunet.Lib.Runs
import Gnunet.Lib.SequenceNumber

/-!
# Stream sockets

A model of one direction of an established stream (`stream_api.c`): the writing side of one
socket, the reading side of the other, and the DATA and ACK messages sent between them.  A message
that was sent stays available, so it can be delivered late, several times or never.  `none` is a
failed assertion, an access outside of an object, the shift of a 64-bit word by 64, or a callback
that is not scheduled.  `uint32_t` values are natural numbers below `2 ^ 32`.

The fields called `index` and the lists `written`, `packets`, `completed`, `accepted` and
`consumed` record the history: packets are counted from the start of the stream without
wrap-around.  The code does not look at them.
-/

namespace Gnunet.Stream

open Lib List

abbrev Byte := BitVec 8

def ackBitmapBitLength : ℕ := 64

abbrev AckBitmap := BitVec 64

def receiveBufferLimit : ℕ := 4096000

def defaultMaxPayloadSize : ℕ := 64000

def sizeofDataMessage : ℕ := 20

def add32 (a b : ℕ) : ℕ := SequenceNumber.add (2 ^ 32) a b

def sub32 (a b : ℕ) : ℕ := SequenceNumber.sub (2 ^ 32) a b

structure DataMessage where
  index : ℕ
  sequenceNumber : ℕ
  offset : ℕ
  payload : List Byte
  deriving DecidableEq, Repr

def DataMessage.size (message : DataMessage) : ℕ :=
  (message.payload.length + sizeofDataMessage) % 2 ^ 16

structure AckMessage where
  index : ℕ
  baseSequenceNumber : ℕ
  bitmap : AckBitmap
  receiveWindowRemaining : ℕ
  deriving DecidableEq, Repr

def ackbitmapModifyBit (bitmap : AckBitmap) (bit : ℕ) : Option AckBitmap :=
  if bit < ackBitmapBitLength then some (BitWindow.mark bitmap bit) else none

def isBitSet (bitmap : AckBitmap) (bit : ℕ) : Bool := bitmap &&& 1#64 <<< bit ≠ 0#64

def ackbitmapIsBitSet (bitmap : AckBitmap) (bit : ℕ) : Option Bool :=
  if bit < ackBitmapBitLength then some (isBitSet bitmap bit) else none

structure MaxPayloadSize where
  bytes : ℕ
  pos : 0 < bytes
  le_default : bytes ≤ defaultMaxPayloadSize

/-- The array of messages is NULL behind the entries of the list. -/
structure IOWriteHandle where
  messages : List DataMessage
  ackBitmap : AckBitmap
  size : ℕ
  packetsSent : ℕ
  maxAckBaseNum : ℕ
  deriving DecidableEq, Repr

structure Sender where
  writeHandle : Option IOWriteHandle
  writeSequenceNumber : ℕ
  writeOffset : ℕ
  receiverWindowAvailable : ℕ
  maxPayloadSize : MaxPayloadSize
  /-- Whether `data_retransmission_task` is scheduled. -/
  dataRetransmissionTask : Bool
  written : List Byte
  packets : List (List Byte)
  /-- The packets of the writes for which `write_cont` was called with the full size. -/
  completed : List ℕ

def unacknowledged (handle : IOWriteHandle) : List DataMessage :=
  ((handle.messages.take handle.packetsSent).zipIdx.filter fun entry ↦
    !isBitSet handle.ackBitmap entry.2).map Prod.fst

/-- The loop that sends new packets: what is left of the receiver's window and what is sent. -/
def fillWindow (window : ℕ) : List DataMessage → ℕ × List DataMessage
  | [] => (window, [])
  | message :: rest =>
    if message.size ≤ window then
      let filled := fillWindow (window - message.size) rest
      (filled.1, message :: filled.2)
    else (window, [])

def writeData (socket : Sender) : Option (Sender × List DataMessage) :=
  socket.writeHandle.map fun ioHandle ↦
    let filled := fillWindow socket.receiverWindowAvailable
      (ioHandle.messages.drop ioHandle.packetsSent)
    ({ socket with
        writeHandle := some { ioHandle with
          packetsSent := ioHandle.packetsSent + filled.2.length }
        receiverWindowAvailable := filled.1
        dataRetransmissionTask := true },
      unacknowledged ioHandle ++ filled.2)

def packetPayload (maxPayloadSize size : ℕ) (data : List Byte) (packet : ℕ) : List Byte :=
  let payloadSize :=
    if (packet + 1) * maxPayloadSize < size then maxPayloadSize
    else size - packet * maxPayloadSize
  (data.drop (packet * maxPayloadSize)).take payloadSize

def dataMessages (index sequenceNumber offset : ℕ) : List (List Byte) → List DataMessage
  | [] => []
  | payload :: rest =>
    ⟨index, sequenceNumber, offset, payload⟩ ::
      dataMessages (index + 1) (add32 sequenceNumber 1) (add32 offset payload.length) rest

def writeSize (maxPayloadSize : ℕ) (data : List Byte) : ℕ :=
  if ackBitmapBitLength * maxPayloadSize < data.length then ackBitmapBitLength * maxPayloadSize
  else data.length

def newWrite (socket : Sender) (data : List Byte) (payloads : List (List Byte)) : Sender :=
  { socket with
    writeHandle := some
      { messages := dataMessages socket.packets.length socket.writeSequenceNumber
          socket.writeOffset payloads
        ackBitmap := 0
        size := data.length
        packetsSent := 0
        maxAckBaseNum := socket.writeSequenceNumber }
    writeSequenceNumber := add32 socket.writeSequenceNumber payloads.length
    writeOffset := add32 socket.writeOffset data.length
    written := socket.written ++ data
    packets := socket.packets ++ payloads }

/-- A write of nothing uses the entry before the first message. -/
def write (socket : Sender) (data : List Byte) : Option (Sender × List DataMessage) :=
  let maxPayloadSize := socket.maxPayloadSize.bytes
  let size := writeSize maxPayloadSize data
  let numNeededPackets := (size + (maxPayloadSize - 1)) / maxPayloadSize
  if socket.writeHandle.isSome then some (socket, [])
  else if numNeededPackets = 0 then none
  else writeData (newWrite socket (data.take size)
    ((range numNeededPackets).map (packetPayload maxPayloadSize size data)))

def dataRetransmission (socket : Sender) : Option (Sender × List DataMessage) :=
  if socket.dataRetransmissionTask then
    writeData { socket with dataRetransmissionTask := false }
  else none

/-- The loop that marks the packets before the base: the bitmap, and the first unmarked packet. -/
def ackBelowBase (base : ℕ) : ℕ → List DataMessage → AckBitmap → Option (ℕ × AckBitmap)
  | packet, [], bitmap => some (packet, bitmap)
  | packet, message :: rest, bitmap =>
    if sub32 base message.sequenceNumber = 0 then some (packet, bitmap)
    else do
      let bitmap ← ackbitmapModifyBit bitmap packet
      ackBelowBase base (packet + 1) rest bitmap

def ackPacket (ack : AckMessage) (message : DataMessage) (packet : ℕ) (bitmap : AckBitmap) :
    Option AckBitmap :=
  (ackbitmapIsBitSet ack.bitmap (sub32 message.sequenceNumber ack.baseSequenceNumber)).bind
    fun set ↦ if set then ackbitmapModifyBit bitmap packet else some bitmap

/-- The loop over the bitmap of the acknowledgement, for the packets from `packet` to the end of the
array; the first argument counts the rounds. Where the write has fewer than 64 packets a NULL
pointer is followed. -/
def ackFromBitmap (ack : AckMessage) : ℕ → ℕ → List DataMessage → AckBitmap → Option AckBitmap
  | 0, _, _, bitmap => some bitmap
  | _ + 1, _, [], _ => none
  | rounds + 1, packet, message :: rest, bitmap => do
      let bitmap ← ackPacket ack message packet bitmap
      ackFromBitmap ack rounds (packet + 1) rest bitmap

def callWriteCont (socket : Sender) (handle : IOWriteHandle) : Sender :=
  { socket with
    writeHandle := none
    completed := handle.messages.map DataMessage.index ++ socket.completed }

def finishAck (socket : Sender) (handle : IOWriteHandle) : Option (Sender × List DataMessage) :=
  let needRetransmission :=
    (range handle.messages.length).any fun packet ↦ !isBitSet handle.ackBitmap packet
  if needRetransmission then writeData { socket with writeHandle := some handle }
  else some (callWriteCont socket handle, [])

def handleAck (socket : Sender) (ack : AckMessage) : Option (Sender × List DataMessage) :=
  match socket.writeHandle with
  | none => some (socket, [])
  | some handle =>
    if ackBitmapBitLength < sub32 socket.writeSequenceNumber ack.baseSequenceNumber then
      some (socket, [])
    else do
      let (packet, bitmap) ←
        ackBelowBase ack.baseSequenceNumber 0 handle.messages handle.ackBitmap
      let inOrder := sub32 ack.baseSequenceNumber handle.maxAckBaseNum ≤ ackBitmapBitLength
      let handle := { handle with
        ackBitmap := bitmap
        maxAckBaseNum := if inOrder then ack.baseSequenceNumber else handle.maxAckBaseNum }
      let socket := { socket with
        dataRetransmissionTask := false
        receiverWindowAvailable :=
          if inOrder then ack.receiveWindowRemaining else socket.receiverWindowAvailable }
      match handle.messages[packet]? with
      | none => some (callWriteCont socket handle, [])
      | some message =>
        if message.sequenceNumber ≠ ack.baseSequenceNumber then none
        else do
          let bitmap ← ackFromBitmap ack (ackBitmapBitLength - packet) packet
            (handle.messages.drop packet) handle.ackBitmap
          finishAck socket { handle with ackBitmap := bitmap }

def ioWriteCancel (socket : Sender) : Option Sender :=
  socket.writeHandle.map fun _ ↦
    { socket with writeHandle := none, dataRetransmissionTask := false }

structure IOReadHandle where
  readTask : Bool
  deriving DecidableEq, Repr

/-- The receive buffer is NULL as long as its size is zero. -/
structure Receiver where
  ackBitmap : AckBitmap
  readSequenceNumber : ℕ
  receiveBuffer : ℕ → Byte
  receiveBufferSize : ℕ
  receiveBufferBoundaries : ℕ → ℕ
  readOffset : ℕ
  copyOffset : ℕ
  readHandle : Option IOReadHandle
  /-- Whether `ack_task` is scheduled. -/
  ackTask : Bool
  readIndex : ℕ
  accepted : List ℕ
  consumed : List Byte

/-- A grown buffer: the new part holds anything. -/
def realloc (buffer junk : ℕ → Byte) (size : ℕ) : ℕ → Byte :=
  fun position ↦ if position < size then buffer position else junk position

def memcpy (buffer : ℕ → Byte) (offset : ℕ) (data : List Byte) : ℕ → Byte :=
  fun position ↦
    if offset ≤ position then data.getD (position - offset) (buffer position)
    else buffer position

def memmove (buffer : ℕ → Byte) (offset size : ℕ) : ℕ → Byte :=
  fun position ↦ if position < size - offset then buffer (position + offset) else buffer position

def scheduleRead (socket : Receiver) : Receiver :=
  match socket.readHandle with
  | some handle =>
    if !handle.readTask && isBitSet socket.ackBitmap 0 then
      { socket with readHandle := some { handle with readTask := true } }
    else socket
  | none => socket

def copyData (socket : Receiver) (msg : DataMessage) (relativeSequenceNumber relativeOffset : ℕ) :
    Option Receiver :=
  if socket.receiveBufferSize < relativeOffset + msg.payload.length then none
  else
    (ackbitmapModifyBit socket.ackBitmap relativeSequenceNumber).map fun bitmap ↦
      scheduleRead { socket with
        receiveBuffer := memcpy socket.receiveBuffer relativeOffset msg.payload
        receiveBufferBoundaries := Function.update socket.receiveBufferBoundaries
          relativeSequenceNumber (add32 relativeOffset (msg.size - sizeofDataMessage))
        ackBitmap := bitmap
        ackTask := true
        accepted := msg.index :: socket.accepted }

def handleData (junk : ℕ → Byte) (socket : Receiver) (msg : DataMessage) : Option Receiver :=
  if msg.size < sizeofDataMessage then none
  else
    let relativeSequenceNumber := sub32 msg.sequenceNumber socket.readSequenceNumber
    if ackBitmapBitLength ≤ relativeSequenceNumber then some { socket with ackTask := true }
    else if isBitSet socket.ackBitmap relativeSequenceNumber then
      some { socket with ackTask := true }
    else
      let relativeOffset := sub32 msg.offset socket.readOffset
      let bytesNeeded := add32 relativeOffset (msg.size - sizeofDataMessage)
      if socket.receiveBufferSize < bytesNeeded then
        if bytesNeeded ≤ receiveBufferLimit then
          copyData { socket with
            receiveBuffer := realloc socket.receiveBuffer junk socket.receiveBufferSize
            receiveBufferSize := bytesNeeded } msg relativeSequenceNumber relativeOffset
        else some socket
      else copyData socket msg relativeSequenceNumber relativeOffset

def read (socket : Receiver) : Receiver :=
  match socket.readHandle with
  | some _ => socket
  | none => { socket with readHandle := some ⟨isBitSet socket.ackBitmap 0⟩ }

def ioReadCancel (socket : Receiver) : Option Receiver :=
  socket.readHandle.map fun _ ↦ { socket with readHandle := none }

def firstHole (bitmap : AckBitmap) : ℕ :=
  (range ackBitmapBitLength).findIdx fun packet ↦ !isBitSet bitmap packet

def packetsRead (boundaries : ℕ → ℕ) (copyOffset : ℕ) : ℕ :=
  let packet := (range ackBitmapBitLength).findIdx fun packet ↦
    decide (copyOffset ≤ boundaries packet)
  if packet < ackBitmapBitLength ∧ copyOffset = boundaries packet then packet + 1 else packet

def fixBoundaries (boundaries : ℕ → ℕ) (increase offsetIncrease : ℕ) : Option (ℕ → ℕ) :=
  if (range (ackBitmapBitLength - increase)).all fun packet ↦
      decide (boundaries (packet + increase) = 0) ||
        decide (offsetIncrease < boundaries (packet + increase)) then
    some fun packet ↦
      if packet < ackBitmapBitLength - increase then boundaries (packet + increase) - offsetIncrease
      else 0
  else none

def removePackets (socket : Receiver) (increase : ℕ) : Option Receiver :=
  let offsetIncrease := socket.receiveBufferBoundaries (increase - 1)
  if socket.receiveBufferSize < offsetIncrease then none
  else if ackBitmapBitLength ≤ increase then none
  else if socket.copyOffset < offsetIncrease then none
  else
    (fixBoundaries socket.receiveBufferBoundaries increase offsetIncrease).map fun boundaries ↦
      { socket with
        receiveBuffer :=
          memmove socket.receiveBuffer offsetIncrease socket.receiveBufferSize
        ackBitmap := socket.ackBitmap >>> increase
        readSequenceNumber := add32 socket.readSequenceNumber increase
        readOffset := add32 socket.readOffset offsetIncrease
        copyOffset := socket.copyOffset - offsetIncrease
        receiveBufferBoundaries := boundaries
        readIndex := socket.readIndex + increase }

def afterRead (socket : Receiver) : Option Receiver :=
  let packet := packetsRead socket.receiveBufferBoundaries socket.copyOffset
  if packet = 0 then some socket else removePackets socket packet

def offeredSize (socket : Receiver) : ℕ :=
  sub32 (socket.receiveBufferBoundaries (firstHole socket.ackBitmap - 1)) socket.copyOffset

def callReadProcessor (socket : Receiver) (readSize : ℕ) : Option Receiver :=
  if socket.readHandle ≠ some ⟨true⟩ then none
  else if socket.receiveBufferSize = 0 then some { socket with readHandle := some ⟨false⟩ }
  else
    let packet := firstHole socket.ackBitmap
    if packet = 0 then none
    else
      let validReadSize :=
        sub32 (socket.receiveBufferBoundaries (packet - 1)) socket.copyOffset
      if validReadSize = 0 then none
      else if validReadSize < readSize then none
      else afterRead { socket with
        readHandle := none
        copyOffset := add32 socket.copyOffset readSize
        consumed := socket.consumed ++
          (range readSize).map fun i ↦ socket.receiveBuffer (socket.copyOffset + i) }

def sendAck (socket : Receiver) : Option (Receiver × AckMessage) :=
  if socket.ackTask then
    some ({ socket with ackTask := false },
      { index := socket.readIndex
        baseSequenceNumber := socket.readSequenceNumber
        bitmap := socket.ackBitmap
        receiveWindowRemaining := receiveBufferLimit - socket.receiveBufferSize })
  else none

structure System where
  sender : Sender
  receiver : Receiver
  dataSent : List DataMessage
  acksSent : List AckMessage

inductive Event where
  | write (data : List Byte)
  | dataRetransmission
  | deliverData (n : ℕ) (junk : ℕ → Byte)
  | deliverAck (n : ℕ)
  | read
  | callReadProcessor (readSize : ℕ)
  | ioReadCancel
  | ackTask
  | ioWriteCancel

def System.send (system : System) (result : Sender × List DataMessage) : System :=
  { system with sender := result.1, dataSent := system.dataSent ++ result.2 }

def step (system : System) : Event → Option System
  | .write data => (write system.sender data).map system.send
  | .dataRetransmission => (dataRetransmission system.sender).map system.send
  | .deliverData n junk => do
      let msg ← system.dataSent[n]?
      (handleData junk system.receiver msg).map fun receiver ↦
        { system with receiver := receiver }
  | .deliverAck n => do
      let ack ← system.acksSent[n]?
      (handleAck system.sender ack).map system.send
  | .read => some { system with receiver := read system.receiver }
  | .callReadProcessor readSize =>
    (callReadProcessor system.receiver readSize).map fun receiver ↦
      { system with receiver := receiver }
  | .ioReadCancel => (ioReadCancel system.receiver).map fun receiver ↦
      { system with receiver := receiver }
  | .ackTask => (sendAck system.receiver).map fun result ↦
      { system with receiver := result.1, acksSent := system.acksSent ++ [result.2] }
  | .ioWriteCancel => (ioWriteCancel system.sender).map fun sender ↦
      { system with sender := sender }

/-- The handshake has made the sequence numbers agree. -/
def established (maxPayloadSize : MaxPayloadSize) (sequenceNumber window : ℕ)
    (junk : ℕ → Byte) : System where
  sender :=
    { writeHandle := none
      writeSequenceNumber := sequenceNumber % 2 ^ 32
      writeOffset := 0
      receiverWindowAvailable := window
      maxPayloadSize := maxPayloadSize
      dataRetransmissionTask := false
      written := []
      packets := []
      completed := [] }
  receiver :=
    { ackBitmap := 0
      readSequenceNumber := sequenceNumber % 2 ^ 32
      receiveBuffer := junk
      receiveBufferSize := 0
      receiveBufferBoundaries := fun _ ↦ 0
      readOffset := 0
      copyOffset := 0
      readHandle := none
      ackTask := false
      readIndex := 0
      accepted := []
      consumed := [] }
  dataSent := []
  acksSent := []

end Gnunet.Stream
