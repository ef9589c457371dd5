import Gnunet.Stream.Reading

/-!
# Data from an untrusted peer

The reading side of a stream whose peer sends DATA messages with arbitrary numbers, offsets and
sizes.  The end of a packet in the receive buffer is computed modulo `2 ^ 32`, and the reads rely
on the ends of the stored packets being in the order of their numbers, which nothing checks.
`Orderly` is the condition on a message, and on a read, under which neither can go wrong; along
every run that meets it the buffer has the layout `Receiving`.
-/

namespace Gnunet.Stream

open Lib Function Option BitVec Nat SequenceNumber Runs

variable {socket : Receiver}

/-- The size field of the header, and what follows. -/
structure PeerMessage where
  size : ℕ
  sequenceNumber : ℕ
  offset : ℕ
  payload : List Byte
  size_lt : size < 2 ^ 16
  length_payload : payload.length = size - sizeofDataMessage

def PeerMessage.toData (msg : PeerMessage) : DataMessage :=
  ⟨0, msg.sequenceNumber, msg.offset, msg.payload⟩

/-- A message that is too short only closes the connection. -/
def handlePeerData (junk : ℕ → Byte) (socket : Receiver) (msg : PeerMessage) : Option Receiver :=
  if msg.size < sizeofDataMessage then some socket else handleData junk socket msg.toData

inductive PeerEvent where
  | data (msg : PeerMessage) (junk : ℕ → Byte)
  | read
  | callReadProcessor (readSize : ℕ)
  | ioReadCancel
  | ackTask

/-- `none` is a failed assertion or an access outside of an object. -/
def receive (socket : Receiver) : PeerEvent → Option Receiver
  | .data msg junk => handlePeerData junk socket msg
  | .read => some (read socket)
  | .callReadProcessor readSize => callReadProcessor socket readSize
  | .ioReadCancel => ioReadCancel socket
  | .ackTask => (sendAck socket).map Prod.fst

/-- Tasks run when they are scheduled, and the processor takes at most what it is offered. -/
def Promised (socket : Receiver) : PeerEvent → Prop
  | .data _ _ | .read => True
  | .callReadProcessor readSize =>
    socket.readHandle = some ⟨true⟩ ∧ readSize ≤ offeredSize socket
  | .ioReadCancel => socket.readHandle.isSome
  | .ackTask => socket.ackTask = true

instance (socket : Receiver) : (event : PeerEvent) → Decidable (Promised socket event)
  | .data _ _ | .read => inferInstanceAs (Decidable True)
  | .callReadProcessor _ => inferInstanceAs (Decidable (_ ∧ _))
  | .ioReadCancel => inferInstanceAs (Decidable (_ = true))
  | .ackTask => inferInstanceAs (Decidable (_ = true))

def PeerMessage.relativeSequenceNumber (msg : PeerMessage) (socket : Receiver) : ℕ :=
  sub32 msg.sequenceNumber socket.readSequenceNumber

def PeerMessage.relativeOffset (msg : PeerMessage) (socket : Receiver) : ℕ :=
  sub32 msg.offset socket.readOffset

def PeerMessage.stop (msg : PeerMessage) (socket : Receiver) : ℕ :=
  msg.relativeOffset socket + msg.payload.length

/-- The end of a new packet lies between those of the stored packets with smaller and with larger
numbers. -/
def Between (socket : Receiver) (k stop : ℕ) : Prop :=
  0 < stop ∧ ∀ j < ackBitmapBitLength, isBitSet socket.ackBitmap j = true →
    (j < k → socket.receiveBufferBoundaries j < stop) ∧
      (k < j → stop < socket.receiveBufferBoundaries j)

instance (socket : Receiver) (k stop : ℕ) : Decidable (Between socket k stop) :=
  inferInstanceAs (Decidable (_ ∧ _))

def PeerMessage.New (msg : PeerMessage) (socket : Receiver) : Prop :=
  sizeofDataMessage ≤ msg.size ∧ msg.relativeSequenceNumber socket < ackBitmapBitLength ∧
    isBitSet socket.ackBitmap (msg.relativeSequenceNumber socket) = false

instance (msg : PeerMessage) (socket : Receiver) : Decidable (msg.New socket) :=
  inferInstanceAs (Decidable (_ ∧ _))

/-- A new packet does not end behind `2 ^ 32` and, if there is room for it, ends where its number
says; and no read takes all of 64 packets at once. -/
def Orderly (socket : Receiver) : PeerEvent → Prop
  | .data msg _ => msg.New socket → msg.stop socket < 2 ^ 32 ∧
      (msg.stop socket ≤ receiveBufferLimit →
        Between socket (msg.relativeSequenceNumber socket) (msg.stop socket))
  | .callReadProcessor readSize =>
    socket.ackBitmap = allOnes 64 → readSize < offeredSize socket
  | _ => True

instance (socket : Receiver) : (event : PeerEvent) → Decidable (Orderly socket event)
  | .data _ _ => inferInstanceAs (Decidable (_ → _ ∧ (_ → _)))
  | .callReadProcessor _ => inferInstanceAs (Decidable (_ → _))
  | .read | .ioReadCancel | .ackTask => inferInstanceAs (Decidable True)

structure Layout (bitmap : AckBitmap) (boundaries : ℕ → ℕ) (size : ℕ) : Prop where
  size_le : size ≤ receiveBufferLimit
  missing : ∀ k, bitmap.getLsbD k = false → boundaries k = 0
  pos : ∀ k, bitmap.getLsbD k = true → 0 < boundaries k
  le_size : ∀ k, bitmap.getLsbD k = true → boundaries k ≤ size
  increasing : ∀ j k, j < k → bitmap.getLsbD j = true → bitmap.getLsbD k = true →
    boundaries j < boundaries k

section Layout

variable {bitmap : AckBitmap} {boundaries : ℕ → ℕ} {size : ℕ}

theorem Layout.store {k stop : ℕ} (h : Layout bitmap boundaries size)
    (hk : k < ackBitmapBitLength) (hpos : 0 < stop) (hinside : stop ≤ size)
    (hbehind : ∀ j < k, bitmap.getLsbD j = true → boundaries j < stop)
    (hbefore : ∀ j, k < j → bitmap.getLsbD j = true → stop < boundaries j) :
    Layout (BitWindow.mark bitmap k) (update boundaries k stop) size := by
  have hset : ∀ j, (BitWindow.mark bitmap k).getLsbD j = true →
      j = k ∨ j ≠ k ∧ bitmap.getLsbD j = true := by
    intro j hj
    by_cases hjk : j = k
    · exact .inl hjk
    · exact .inr ⟨hjk, by simpa [hjk] using hj⟩
  have hself : update boundaries k stop k = stop := update_self k _ _
  have hother : ∀ j, j ≠ k → update boundaries k stop j = boundaries j :=
    fun j hj ↦ update_of_ne hj _ _
  constructor
  · exact h.size_le
  · intro j hj
    rw [BitWindow.getLsbD_mark, Bool.or_eq_false_iff, decide_eq_false_iff_not] at hj
    rw [hother j fun heq ↦ hj.2 ⟨hk, heq⟩]
    exact h.missing j hj.1
  · intro j hj
    obtain rfl | ⟨hjk, hold⟩ := hset j hj
    · exact hself.symm ▸ hpos
    · rw [hother j hjk]
      exact h.pos j hold
  · intro j hj
    obtain rfl | ⟨hjk, hold⟩ := hset j hj
    · exact hself.symm ▸ hinside
    · rw [hother j hjk]
      exact h.le_size j hold
  · intro i j hij hi hj
    obtain rfl | ⟨hik, hiold⟩ := hset i hi
    · obtain rfl | ⟨hjk, hjold⟩ := hset j hj
      · exact absurd hij (lt_irrefl _)
      · rw [hself, hother j hjk]
        exact hbefore j hij hjold
    · rw [hother i hik]
      obtain rfl | ⟨hjk, hjold⟩ := hset j hj
      · rw [hself]
        exact hbehind i hij hiold
      · rw [hother j hjk]
        exact h.increasing i j hij hiold hjold

theorem firstHole_pos (h : bitmap.getLsbD 0 = true) : 0 < firstHole bitmap := by
  by_contra hzero
  have hhole := (findIdx_range (fun packet ↦ !isBitSet bitmap packet) ackBitmapBitLength).2.2
  change firstHole bitmap < _ → (!isBitSet bitmap (firstHole bitmap)) = true at hhole
  rw [Nat.eq_zero_of_not_pos hzero, isBitSet_eq, h] at hhole
  exact absurd (hhole (by decide)) (by decide)

theorem eq_allOnes_of_firstHole (h : firstHole bitmap = ackBitmapBitLength) :
    bitmap = allOnes 64 := by
  apply eq_of_getLsbD_eq
  intro k hk
  rw [getLsbD_of_lt_firstHole (h ▸ hk), getLsbD_allOnes, decide_eq_true hk]

theorem Layout.increasing_firstHole (h : Layout bitmap boundaries size) {j k : ℕ} (hjk : j < k)
    (hk : k < firstHole bitmap) : boundaries j < boundaries k :=
  h.increasing j k hjk (getLsbD_of_lt_firstHole (hjk.trans hk)) (getLsbD_of_lt_firstHole hk)

theorem Layout.fixBoundaries_spec {increase : ℕ} (h : Layout bitmap boundaries size)
    (hrun : increase < firstHole bitmap) :
    ∃ boundaries', fixBoundaries boundaries (increase + 1) (boundaries increase) =
        some boundaries' ∧
      Layout (bitmap >>> (increase + 1)) boundaries' size ∧
      (∀ k, bitmap.getLsbD (k + (increase + 1)) = true →
        boundaries' k = boundaries (k + (increase + 1)) - boundaries increase) := by
  have hlast := getLsbD_of_lt_firstHole hrun
  have hahead : ∀ k, bitmap.getLsbD (k + (increase + 1)) = true →
      boundaries increase < boundaries (k + (increase + 1)) :=
    fun k hk ↦ h.increasing _ _ (by omega) hlast hk
  have hstored : ∀ k, bitmap.getLsbD (k + (increase + 1)) = true →
      k < ackBitmapBitLength - (increase + 1) := by
    intro k hk
    have hlt := lt_of_getLsbD hk
    rw [ackBitmapBitLength]
    omega
  have hbits : ∀ k, (bitmap >>> (increase + 1)).getLsbD k = bitmap.getLsbD (k + (increase + 1)) :=
    fun k ↦ (getLsbD_ushiftRight _ _ _).trans (by rw [add_comm])
  have hchecked : (List.range (ackBitmapBitLength - (increase + 1))).all (fun packet ↦
      decide (boundaries (packet + (increase + 1)) = 0) ||
        decide (boundaries increase < boundaries (packet + (increase + 1)))) = true := by
    rw [List.all_eq_true]
    intro packet _
    rw [Bool.or_eq_true, decide_eq_true_iff, decide_eq_true_iff]
    cases hbit : bitmap.getLsbD (packet + (increase + 1)) with
    | false => exact .inl (h.missing _ hbit)
    | true => exact .inr (hahead packet hbit)
  refine ⟨_, if_pos hchecked, ⟨h.size_le, ?_, ?_, ?_, ?_⟩, fun k hk ↦ if_pos (hstored k hk)⟩
  · intro k hk
    rw [hbits] at hk
    rw [h.missing _ hk, Nat.zero_sub, ite_self]
  · intro k hk
    rw [hbits] at hk
    rw [if_pos (hstored k hk)]
    exact Nat.sub_pos_of_lt (hahead k hk)
  · intro k hk
    rw [hbits] at hk
    rw [if_pos (hstored k hk)]
    exact (sub_le _ _).trans (h.le_size _ hk)
  · intro j k hjk hj hk
    rw [hbits] at hj hk
    rw [if_pos (hstored j hj), if_pos (hstored k hk)]
    have hlt := h.increasing _ _ (Nat.add_lt_add_right hjk (increase + 1)) hj hk
    have hbase := hahead j hj
    omega

end Layout

/-- The reader is within the first packet, and a read is only scheduled when there is one. -/
structure Receiving (socket : Receiver) : Prop where
  layout : Layout socket.ackBitmap socket.receiveBufferBoundaries socket.receiveBufferSize
  position : socket.copyOffset = 0 ∨
    socket.ackBitmap.getLsbD 0 = true ∧ socket.copyOffset < socket.receiveBufferBoundaries 0
  scheduled : socket.readHandle = some ⟨true⟩ → socket.ackBitmap.getLsbD 0 = true

theorem Receiving.steer (h : Receiving socket) {readHandle : Option IOReadHandle}
    (hhandle : readHandle = some ⟨true⟩ → socket.ackBitmap.getLsbD 0 = true) (ackTask : Bool) :
    Receiving { socket with readHandle := readHandle, ackTask := ackTask } :=
  ⟨h.layout, h.position, hhandle⟩

theorem receiving_established (maxPayloadSize : MaxPayloadSize) (sequenceNumber window : ℕ)
    (junk : ℕ → Byte) :
    Receiving (established maxPayloadSize sequenceNumber window junk).receiver := by
  have hnone : ∀ k, (0#64).getLsbD k ≠ true := fun k ↦ by simp
  exact ⟨⟨zero_le _, fun _ _ ↦ rfl, fun k hk ↦ absurd hk (hnone k),
    fun k hk ↦ absurd hk (hnone k), fun j _ _ hj _ ↦ absurd hj (hnone j)⟩, .inl rfl,
    fun hhandle ↦ nomatch hhandle⟩

theorem Receiving.scheduleRead_spec (h : Receiving socket) :
    Receiving (scheduleRead socket) ∧
      (scheduleRead socket).receiveBufferSize = socket.receiveBufferSize := by
  unfold scheduleRead
  split
  · split
    next hready =>
      rw [Bool.and_eq_true, isBitSet_eq] at hready
      exact ⟨h.steer (fun _ ↦ hready.2) _, rfl⟩
    · exact ⟨h, rfl⟩
  · exact ⟨h, rfl⟩

theorem Receiving.copyData_spec {msg : DataMessage} {k relativeOffset : ℕ}
    (h : Receiving socket) (hk : k < ackBitmapBitLength) (hbit : socket.ackBitmap.getLsbD k = false)
    (hsize : msg.size = msg.payload.length + sizeofDataMessage)
    (hinside : relativeOffset + msg.payload.length ≤ socket.receiveBufferSize)
    (hbetween : Between socket k (relativeOffset + msg.payload.length)) :
    ∃ next, copyData socket msg k relativeOffset = some next ∧ Receiving next ∧
      next.receiveBufferSize = socket.receiveBufferSize := by
  obtain ⟨hpos, hordered⟩ := hbetween
  simp only [isBitSet_eq] at hordered
  have hstored := h.layout.store hk hpos hinside
    (fun j hjk hj ↦ (hordered j (lt_of_getLsbD hj) hj).1 hjk)
    (fun j hjk hj ↦ (hordered j (lt_of_getLsbD hj) hj).2 hjk)
  rw [copyData, if_neg (not_lt.mpr hinside), ackbitmapModifyBit, if_pos hk,
    stop_eq hsize hinside h.layout.size_le]
  refine ⟨_, rfl, Receiving.scheduleRead_spec ⟨hstored, position_store hbit h.position, ?_⟩⟩
  intro hhandle
  simp [h.scheduled hhandle]

def StoresInside (socket : Receiver) (event : PeerEvent) : Prop :=
  ∀ next, receive socket event = some next →
    next.receiveBufferSize ≤ receiveBufferLimit ∧
      match event with
      | .data msg _ => next.ackBitmap ≠ socket.ackBitmap →
          msg.stop socket ≤ next.receiveBufferSize
      | _ => True

theorem PeerMessage.size_toData (msg : PeerMessage) (h : sizeofDataMessage ≤ msg.size) :
    msg.toData.size = msg.payload.length + sizeofDataMessage := by
  have hlength := msg.length_payload
  have hlt := msg.size_lt
  change (msg.payload.length + sizeofDataMessage) % 2 ^ 16 = _
  rw [mod_eq_of_lt (by omega)]

variable {msg : PeerMessage} {junk : ℕ → Byte}

theorem PeerMessage.New.handleData_eq (h : msg.New socket) (hstop : msg.stop socket < 2 ^ 32) :
    handlePeerData junk socket msg = if socket.receiveBufferSize < msg.stop socket then
        if msg.stop socket ≤ receiveBufferLimit then
          copyData { socket with
            receiveBuffer := realloc socket.receiveBuffer junk socket.receiveBufferSize
            receiveBufferSize := msg.stop socket } msg.toData
              (msg.relativeSequenceNumber socket) (msg.relativeOffset socket)
        else some socket
      else copyData socket msg.toData (msg.relativeSequenceNumber socket)
        (msg.relativeOffset socket) := by
  obtain ⟨hlong, hwindow, hbit⟩ := h
  have hsize := msg.size_toData hlong
  have hneeded : add32 (msg.relativeOffset socket) (msg.toData.size - sizeofDataMessage) =
      msg.stop socket := by
    rw [hsize]
    exact add_of_lt hstop
  change sub32 msg.toData.sequenceNumber socket.readSequenceNumber < _ at hwindow
  change isBitSet socket.ackBitmap (sub32 msg.toData.sequenceNumber _) = false at hbit
  change add32 (sub32 msg.toData.offset socket.readOffset) _ = _ at hneeded
  have hnotShort : ¬ msg.toData.size < sizeofDataMessage := by omega
  rw [handlePeerData, if_neg (not_lt.mpr hlong), handleData, if_neg hnotShort]
  dsimp only
  rw [if_neg (not_le.mpr hwindow), hbit, hneeded]
  rfl

theorem handlePeerData_of_not_new (h : ¬ msg.New socket) :
    ∃ ackTask, handlePeerData junk socket msg = some { socket with ackTask := ackTask } := by
  by_cases hshort : msg.size < sizeofDataMessage
  · exact ⟨socket.ackTask, if_pos hshort⟩
  · have hsize := msg.size_toData (not_lt.mp hshort)
    rw [handlePeerData, if_neg hshort, handleData, if_neg (by omega)]
    by_cases hwindow : ackBitmapBitLength ≤ msg.relativeSequenceNumber socket
    · exact ⟨true, if_pos hwindow⟩
    · have hseen : isBitSet socket.ackBitmap (msg.relativeSequenceNumber socket) = true := by
        by_contra hunseen
        exact h ⟨not_lt.mp hshort, not_le.mp hwindow, Bool.not_eq_true _ ▸ hunseen⟩
      refine ⟨true, ?_⟩
      rw [if_neg (by exact hwindow)]
      exact if_pos hseen

theorem Receiving.handlePeerData_spec (h : Receiving socket)
    (horderly : Orderly socket (.data msg junk)) :
    ∃ next, handlePeerData junk socket msg = some next ∧ Receiving next ∧
      (next.ackBitmap ≠ socket.ackBitmap → msg.stop socket ≤ next.receiveBufferSize) := by
  by_cases hnew : msg.New socket
  · obtain ⟨hstop, hroom⟩ := horderly hnew
    rw [hnew.handleData_eq hstop]
    obtain ⟨hlong, hwindow, hbit⟩ := hnew
    rw [isBitSet_eq] at hbit
    have hsize := msg.size_toData hlong
    by_cases hgrow : socket.receiveBufferSize < msg.stop socket
    · rw [if_pos hgrow]
      by_cases hfits : msg.stop socket ≤ receiveBufferLimit
      · rw [if_pos hfits]
        have hlarge : Receiving { socket with
            receiveBuffer := realloc socket.receiveBuffer junk socket.receiveBufferSize
            receiveBufferSize := msg.stop socket } :=
          ⟨⟨hfits, h.layout.missing, h.layout.pos,
            fun k hk ↦ (h.layout.le_size k hk).trans hgrow.le, h.layout.increasing⟩,
            h.position, h.scheduled⟩
        obtain ⟨next, hnext, hreceiving, hnextSize⟩ :=
          hlarge.copyData_spec hwindow hbit hsize le_rfl (hroom hfits)
        exact ⟨next, hnext, hreceiving, fun _ ↦ hnextSize.ge⟩
      · rw [if_neg hfits]
        exact ⟨socket, rfl, h, fun hchanged ↦ absurd rfl hchanged⟩
    · rw [if_neg hgrow]
      have hinside := not_lt.mp hgrow
      obtain ⟨next, hnext, hreceiving, hnextSize⟩ :=
        h.copyData_spec hwindow hbit hsize hinside (hroom (hinside.trans h.layout.size_le))
      exact ⟨next, hnext, hreceiving, fun _ ↦ hinside.trans hnextSize.ge⟩
  · obtain ⟨ackTask, hnext⟩ := handlePeerData_of_not_new hnew
    exact ⟨_, hnext, h.steer h.scheduled ackTask, fun hchanged ↦ absurd rfl hchanged⟩

theorem Receiving.removePackets_spec {increase : ℕ}
    (h : Layout socket.ackBitmap socket.receiveBufferBoundaries socket.receiveBufferSize)
    (hrun : increase < firstHole socket.ackBitmap) (hroom : increase + 1 < ackBitmapBitLength)
    (hcopied : socket.receiveBufferBoundaries increase ≤ socket.copyOffset)
    (hhandle : socket.readHandle = none)
    (hposition : socket.copyOffset = socket.receiveBufferBoundaries increase ∨
      socket.ackBitmap.getLsbD (increase + 1) = true ∧
        socket.copyOffset < socket.receiveBufferBoundaries (increase + 1)) :
    ∃ next, removePackets socket (increase + 1) = some next ∧ Receiving next := by
  obtain ⟨_, hfix, hlayout, hboundaries⟩ := h.fixBoundaries_spec hrun
  have hinside : ¬ socket.receiveBufferSize < socket.receiveBufferBoundaries increase :=
    not_lt.mpr (h.le_size _ (getLsbD_of_lt_firstHole hrun))
  rw [removePackets, Nat.add_sub_cancel, if_neg hinside, if_neg (not_le.mpr hroom),
    if_neg (not_lt.mpr hcopied), hfix]
  refine ⟨_, rfl, hlayout, ?_, fun hsome ↦ ?_⟩
  · dsimp only
    cases hposition with
    | inl hall => exact .inl (by rw [hall, Nat.sub_self])
    | inr hwithin =>
      rw [← zero_add (increase + 1)] at hwithin
      refine .inr ⟨?_, ?_⟩
      · rw [getLsbD_ushiftRight, add_comm]
        exact hwithin.1
      · rw [hboundaries 0 hwithin.1]
        omega
  · rw [hhandle] at hsome
    cases hsome

theorem Receiving.afterRead_spec {n : ℕ}
    (h : Layout socket.ackBitmap socket.receiveBufferBoundaries socket.receiveBufferSize)
    (hn : n < firstHole socket.ackBitmap)
    (hread : socket.copyOffset ≤ socket.receiveBufferBoundaries n)
    (hfull : n + 1 = ackBitmapBitLength → socket.copyOffset < socket.receiveBufferBoundaries n)
    (hhandle : socket.readHandle = none) :
    ∃ next, afterRead socket = some next ∧ Receiving next := by
  have hlength := firstHole_le socket.ackBitmap
  obtain ⟨hpacket, hpassed, hposition⟩ := packetsRead_spec (hn.trans_le hlength)
    (fun j k hjk hk ↦ h.increasing_firstHole hjk (hk.trans_lt hn)) hread
  rw [afterRead]
  generalize packetsRead socket.receiveBufferBoundaries socket.copyOffset = packet
    at hpacket hpassed hposition ⊢
  cases packet with
  | zero =>
    refine ⟨socket, rfl, h, .inr ⟨getLsbD_of_lt_firstHole (by omega), ?_⟩, fun hsome ↦ ?_⟩
    · exact (hposition.resolve_left fun hall ↦ by omega).2
    · rw [hhandle] at hsome
      cases hsome
  | succ increase =>
    have hroom : increase + 1 < ackBitmapBitLength := by
      cases hposition with
      | inl hall =>
        omega
      | inr hwithin => omega
    apply Receiving.removePackets_spec h (by omega) hroom
      (hpassed increase (lt_succ_self increase)) hhandle
    cases hposition with
    | inl hall =>
      have hlast : increase = n := by omega
      exact .inl (hlast ▸ hall.1)
    | inr hwithin => exact .inr ⟨getLsbD_of_lt_firstHole (by omega), hwithin.2⟩

theorem Receiving.callReadProcessor_spec {readSize : ℕ} (h : Receiving socket)
    (hpromised : Promised socket (.callReadProcessor readSize))
    (horderly : Orderly socket (.callReadProcessor readSize)) :
    ∃ next, callReadProcessor socket readSize = some next ∧ Receiving next := by
  obtain ⟨hscheduled, hoffered⟩ := hpromised
  have hfirst := h.scheduled hscheduled
  have hnonempty : socket.receiveBufferSize ≠ 0 := by
    have hpos := h.layout.pos 0 hfirst
    have hle := h.layout.le_size 0 hfirst
    omega
  obtain ⟨n, hn⟩ := exists_eq_succ_of_ne_zero (firstHole_pos hfirst).ne'
  have hlast : n < firstHole socket.ackBitmap := by omega
  have hbehind : socket.copyOffset < socket.receiveBufferBoundaries n := by
    have hstart : socket.copyOffset < socket.receiveBufferBoundaries 0 := by
      cases h.position with
      | inl hzero => exact hzero ▸ h.layout.pos 0 hfirst
      | inr hpartly => exact hpartly.2
    rcases Nat.eq_zero_or_pos n with rfl | hpos
    · exact hstart
    · exact hstart.trans (h.layout.increasing_firstHole hpos hlast)
  have hsmall : socket.receiveBufferBoundaries n < 2 ^ 32 := by
    have hle := h.layout.le_size n (getLsbD_of_lt_firstHole hlast)
    have hlimit := h.layout.size_le
    rw [receiveBufferLimit] at hlimit
    omega
  have hvalid : offeredSize socket = socket.receiveBufferBoundaries n - socket.copyOffset := by
    rw [offeredSize, hn]
    exact sub_of_le hbehind.le hsmall
  have hcopied : add32 socket.copyOffset readSize = socket.copyOffset + readSize :=
    add_of_lt (by omega)
  rw [callReadProcessor, if_neg (not_not.mpr hscheduled), if_neg hnonempty]
  rw [if_neg (by omega)]
  change ∃ next, (if offeredSize socket = 0 then none
    else if offeredSize socket < readSize then none else _) = some next ∧ _
  rw [if_neg (by omega), if_neg (not_lt.mpr hoffered)]
  refine Receiving.afterRead_spec (n := n) h.layout hlast ?_ ?_ rfl
  · dsimp only
    omega
  · intro hall
    dsimp only
    have hless := horderly (eq_allOnes_of_firstHole (hn.trans hall))
    omega

theorem Receiving.receive_spec {event : PeerEvent} (h : Receiving socket)
    (hpromised : Promised socket event) (horderly : Orderly socket event) :
    ∃ next, receive socket event = some next ∧ Receiving next := by
  cases event with
  | data msg junk =>
    obtain ⟨next, hnext, hreceiving, -⟩ := h.handlePeerData_spec horderly
    exact ⟨next, hnext, hreceiving⟩
  | read =>
    refine ⟨_, rfl, ?_⟩
    unfold read
    split
    · exact h
    · apply h.steer _ socket.ackTask
      intro hhandle
      rw [some.injEq, IOReadHandle.mk.injEq, isBitSet_eq] at hhandle
      exact hhandle
  | callReadProcessor readSize => exact h.callReadProcessor_spec hpromised horderly
  | ioReadCancel =>
    obtain ⟨_, hhandle⟩ := isSome_iff_exists.mp hpromised
    have hcancelled : Receiving { socket with readHandle := none } :=
      ⟨h.layout, h.position, fun hsome ↦ nomatch hsome⟩
    refine ⟨_, ?_, hcancelled⟩
    rw [receive, ioReadCancel, hhandle, map_some]
  | ackTask =>
    refine ⟨{ socket with ackTask := false }, ?_, h.steer h.scheduled false⟩
    have htask : socket.ackTask = true := hpromised
    rw [receive, sendAck, if_pos htask, map_some]

theorem Receiving.storesInside {event : PeerEvent} (h : Receiving socket)
    (hpromised : Promised socket event) (horderly : Orderly socket event) :
    StoresInside socket event := by
  intro next hnext
  obtain ⟨other, hother, hreceiving⟩ := h.receive_spec hpromised horderly
  cases hnext.symm.trans hother
  refine ⟨hreceiving.layout.size_le, ?_⟩
  cases event with
  | data msg junk =>
    obtain ⟨other, hother, -, hstored⟩ := h.handlePeerData_spec horderly
    cases hnext.symm.trans hother
    exact hstored
  | _ => trivial

/-- If every message and every read is orderly, no assertion fails and no byte is stored outside
of the receive buffer. -/
theorem hostile_data_contained (maxPayloadSize : MaxPayloadSize) (sequenceNumber window : ℕ)
    (junk : ℕ → Byte) (events : List PeerEvent) (hpromised : Along receive Promised
      (established maxPayloadSize sequenceNumber window junk).receiver events)
    (horderly : Along receive Orderly
      (established maxPayloadSize sequenceNumber window junk).receiver events) :
    (∃ last, run receive (established maxPayloadSize sequenceNumber window junk).receiver
        events = some last ∧ last.receiveBufferSize ≤ receiveBufferLimit) ∧
      Along receive StoresInside
        (established maxPayloadSize sequenceNumber window junk).receiver events := by
  have hstart := receiving_established maxPayloadSize sequenceNumber window junk
  have hboth := hpromised.and horderly
  have hstep socket event (h : Receiving socket)
      (hcondition : Promised socket event ∧ Orderly socket event) :=
    h.receive_spec hcondition.1 hcondition.2
  constructor
  · obtain ⟨last, hlast, hreceiving⟩ := run_total hstep hstart hboth
    exact ⟨last, hlast, hreceiving.layout.size_le⟩
  · exact along_of_invariant hstep hstart hboth fun socket event h hcondition ↦
      h.storesInside hcondition.1 hcondition.2

def zeroMessage (sequenceNumber offset length : ℕ) (h : length + sizeofDataMessage < 2 ^ 16) :
    PeerMessage where
  size := length + sizeofDataMessage
  sequenceNumber := sequenceNumber
  offset := offset
  payload := List.replicate length 0
  size_lt := h
  length_payload := by rw [List.length_replicate, Nat.add_sub_cancel]

def exampleSocket : Receiver :=
  (established ⟨1, by decide, by decide⟩ 7 0 fun _ ↦ 0).receiver

def orderlyEvents : List PeerEvent :=
  [.read, .data (zeroMessage 8 10 5 (by decide)) fun _ ↦ 0,
    .data (zeroMessage 7 0 10 (by decide)) fun _ ↦ 0, .callReadProcessor 12, .read,
    .callReadProcessor 3]

theorem hostile_data_contained_two_packets :
    Along receive Promised exampleSocket orderlyEvents ∧
      Along receive Orderly exampleSocket orderlyEvents ∧
      ∃ last, run receive exampleSocket orderlyEvents = some last := by
  have hpromised : Along receive Promised exampleSocket orderlyEvents := by decide +kernel
  have horderly : Along receive Orderly exampleSocket orderlyEvents := by decide +kernel
  obtain ⟨⟨last, hlast, -⟩, -⟩ := hostile_data_contained ⟨1, by decide, by decide⟩ 7 0
    (fun _ ↦ 0) orderlyEvents hpromised horderly
  exact ⟨hpromised, horderly, last, hlast⟩

/-- A packet whose end wraps around passes the checks and would be stored far behind the buffer;
a packet that ends before its predecessor leaves a read with nothing to offer. -/
theorem hostile_data_escapes :
    (zeroMessage 7 (2 ^ 32 - 10) 20 (by decide)).relativeOffset exampleSocket = 2 ^ 32 - 10 ∧
      add32 (2 ^ 32 - 10) 20 ≤ receiveBufferLimit ∧
      run receive exampleSocket
        [.data (zeroMessage 7 (2 ^ 32 - 10) 20 (by decide)) fun _ ↦ 0] = none ∧
      Along receive Promised exampleSocket
        [.data (zeroMessage 7 0 10 (by decide)) fun _ ↦ 0,
          .data (zeroMessage 8 0 5 (by decide)) fun _ ↦ 0, .read, .callReadProcessor 5, .read,
          .callReadProcessor 0] ∧
      run receive exampleSocket
        [.data (zeroMessage 7 0 10 (by decide)) fun _ ↦ 0,
          .data (zeroMessage 8 0 5 (by decide)) fun _ ↦ 0, .read, .callReadProcessor 5, .read,
          .callReadProcessor 0] = none := by
  refine ⟨by decide +kernel, by decide +kernel, ?_, by decide +kernel, ?_⟩
  · decide +kernel
  · decide +kernel

end Gnunet.Stream
