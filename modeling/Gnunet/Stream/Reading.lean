import Gnunet.Stream.Writing

/-!
# The reading side of a stream

`Reading` ties the bitmap, the boundaries, the receive buffer and the two modular counters of the
reading side to the packets of the stream.  Delivering the message of a packet that is not too far
from the window keeps it, and so does a call of the read processor that takes any number of the
bytes offered to it.
-/

namespace Gnunet.Stream

open Lib Function List Option Nat Chunks SequenceNumber

variable {start : ℕ} {packets : List (List Byte)} {socket socket' : Receiver}

@[simp] theorem isBitSet_eq (bitmap : AckBitmap) (bit : ℕ) :
    isBitSet bitmap bit = bitmap.getLsbD bit := by
  rw [isBitSet, Bool.eq_iff_iff, decide_eq_true_iff, ne_eq,
    BitWindow.and_one_shiftLeft_eq_zero_iff, Bool.not_eq_false]

structure Held (packets : List (List Byte)) (socket : Receiver) (k : ℕ) : Prop where
  index_lt : socket.readIndex + k < packets.length
  boundary : socket.receiveBufferBoundaries k + offset packets socket.readIndex =
    offset packets (socket.readIndex + k + 1)
  boundary_le : socket.receiveBufferBoundaries k ≤ socket.receiveBufferSize
  content : ∀ position, offset packets (socket.readIndex + k) ≤
      offset packets socket.readIndex + position →
    offset packets socket.readIndex + position <
      offset packets (socket.readIndex + k + 1) →
    packets.flatten[offset packets socket.readIndex + position]? =
      some (socket.receiveBuffer position)
  accepted : socket.readIndex + k ∈ socket.accepted

structure Window (start : ℕ) (packets : List (List Byte)) (socket : Receiver) : Prop where
  sequenceNumber : socket.readSequenceNumber = (start + socket.readIndex) % 2 ^ 32
  offset : socket.readOffset = offset packets socket.readIndex % 2 ^ 32
  index_le : socket.readIndex ≤ packets.length
  size_le : socket.receiveBufferSize ≤ receiveBufferLimit
  held : ∀ k < ackBitmapBitLength, socket.ackBitmap.getLsbD k = true → Held packets socket k
  missing : ∀ k < ackBitmapBitLength, socket.ackBitmap.getLsbD k = false →
    socket.receiveBufferBoundaries k = 0
  accepted : ∀ i < socket.readIndex, i ∈ socket.accepted

structure Reading (start : ℕ) (packets : List (List Byte)) (socket : Receiver) : Prop
    extends Window start packets socket where
  /-- The reader is at the start of the window or within its first packet. -/
  position : socket.copyOffset = 0 ∨
    socket.ackBitmap.getLsbD 0 = true ∧
      socket.copyOffset < socket.receiveBufferBoundaries 0
  consumed : socket.consumed =
    packets.flatten.take (Chunks.offset packets socket.readIndex + socket.copyOffset)

/-! ## More packets -/

variable {k : ℕ} {boundaries : ℕ → ℕ}

theorem Held.append (h : Held packets socket k) (more : List (List Byte)) :
    Held (packets ++ more) socket k := by
  have hindex := h.index_lt
  have hoffset : ∀ i ≤ socket.readIndex + k + 1, offset (packets ++ more) i = offset packets i :=
    fun i hi ↦ offset_append (by omega)
  have hend := offset_le packets (socket.readIndex + k + 1)
  constructor
  · rw [length_append]
    omega
  · rw [hoffset _ (by omega), hoffset _ le_rfl]
    exact h.boundary
  · exact h.boundary_le
  · intro position hlow hhigh
    rw [hoffset _ (by omega), hoffset _ (by omega)] at hlow
    rw [hoffset _ (by omega), hoffset _ le_rfl] at hhigh
    rw [hoffset _ (by omega), flatten_append, getElem?_append_left (by omega)]
    exact h.content position hlow hhigh
  · exact h.accepted

theorem Window.append (h : Window start packets socket) (more : List (List Byte)) :
    Window start (packets ++ more) socket := by
  constructor
  · exact h.sequenceNumber
  · rw [offset_append h.index_le]
    exact h.offset
  · rw [length_append]
    exact h.index_le.trans (le_add_right _ _)
  · exact h.size_le
  · exact fun k hk hbit ↦ (h.held k hk hbit).append more
  · exact h.missing
  · exact h.accepted

section

variable (h : Reading start packets socket)
include h

theorem Reading.position_le :
    offset packets socket.readIndex + socket.copyOffset ≤ packets.flatten.length := by
  cases h.position with
  | inl hzero =>
    rw [hzero]
    exact offset_le packets _
  | inr hpartly =>
    have hboundary := (h.held 0 (by decide) hpartly.1).boundary
    have hend := offset_le packets (socket.readIndex + 0 + 1)
    omega

theorem Reading.append (more : List (List Byte)) :
    Reading start (packets ++ more) socket := by
  refine ⟨h.toWindow.append more, h.position, ?_⟩
  rw [offset_append h.index_le, flatten_append, take_append_of_le_length h.position_le]
  exact h.consumed

/-! ## Delivering data -/

omit h in
theorem Window.steer (h : Window start packets socket) (readHandle : Option IOReadHandle)
    (ackTask : Bool) (copyOffset : ℕ) (consumed : List Byte) :
    Window start packets { socket with
      readHandle := readHandle
      ackTask := ackTask
      copyOffset := copyOffset
      consumed := consumed } := by
  refine ⟨h.sequenceNumber, h.offset, h.index_le, h.size_le, ?_, h.missing, h.accepted⟩
  intro k hk hbit
  have hheld := h.held k hk hbit
  exact ⟨hheld.index_lt, hheld.boundary, hheld.boundary_le, hheld.content, hheld.accepted⟩

theorem Reading.steer (readHandle : Option IOReadHandle)
    (ackTask : Bool) :
    Reading start packets { socket with readHandle := readHandle, ackTask := ackTask } :=
  ⟨h.toWindow.steer readHandle ackTask _ _, h.position, h.consumed⟩

theorem Reading.scheduleRead :
    Reading start packets (scheduleRead socket) := by
  unfold Stream.scheduleRead
  split
  · split
    · exact h.steer _ _
    · exact h
  · exact h

theorem Reading.realloc {junk : ℕ → Byte} {size : ℕ}
    (hgrow : socket.receiveBufferSize ≤ size) (hlimit : size ≤ receiveBufferLimit) :
    Reading start packets { socket with
      receiveBuffer := realloc socket.receiveBuffer junk socket.receiveBufferSize
      receiveBufferSize := size } := by
  refine ⟨⟨h.sequenceNumber, h.offset, h.index_le, hlimit, ?_, h.missing, h.accepted⟩,
    h.position, h.consumed⟩
  intro k hk hbit
  have hheld := h.held k hk hbit
  refine ⟨hheld.index_lt, hheld.boundary, hheld.boundary_le.trans hgrow, ?_, hheld.accepted⟩
  intro position hlow hhigh
  have hold : position < socket.receiveBufferSize := by
    have hboundary := hheld.boundary
    have hboundary_le := hheld.boundary_le
    dsimp only at hhigh
    omega
  dsimp only
  rw [Stream.realloc, if_pos hold]
  exact hheld.content position hlow hhigh

variable {position : ℕ}

omit h in
theorem memcpy_of_lt {buffer : ℕ → Byte} {offset : ℕ} {data : List Byte}
    (h : position < offset ∨ offset + data.length ≤ position) :
    memcpy buffer offset data position = buffer position := by
  unfold memcpy
  split_ifs
  · rw [getD_eq_getElem?_getD, getElem?_eq_none (by omega), getD_none]
  · rfl

omit h in
theorem memcpy_of_mem {buffer : ℕ → Byte} {offset : ℕ} {data : List Byte}
    (hle : offset ≤ position) (hlt : position < offset + data.length) :
    data[position - offset]? = some (memcpy buffer offset data position) := by
  have hbound : position - offset < data.length := by omega
  rw [memcpy, if_pos hle, getD_eq_getElem?_getD, getElem?_eq_getElem hbound, getD_some]

omit h in
theorem stop_eq {msg : DataMessage} {relativeOffset size : ℕ}
    (hsize : msg.size = msg.payload.length + sizeofDataMessage)
    (hinside : relativeOffset + msg.payload.length ≤ size) (hlimit : size ≤ receiveBufferLimit) :
    add32 relativeOffset (msg.size - sizeofDataMessage) = relativeOffset + msg.payload.length := by
  rw [hsize, Nat.add_sub_cancel, add32, add_of_lt]
  rw [receiveBufferLimit] at hlimit
  omega

omit h in
theorem position_store {bitmap : AckBitmap} {copyOffset stop : ℕ} (hbit : bitmap.getLsbD k = false)
    (h : copyOffset = 0 ∨ bitmap.getLsbD 0 = true ∧ copyOffset < boundaries 0) :
    copyOffset = 0 ∨ (BitWindow.mark bitmap k).getLsbD 0 = true ∧
      copyOffset < update boundaries k stop 0 := by
  refine h.imp_right fun hpartly ↦ ⟨by simp [hpartly.1], ?_⟩
  have h0k : 0 ≠ k := by
    rintro rfl
    rw [hpartly.1] at hbit
    cases hbit
  rw [update_of_ne h0k]
  exact hpartly.2

theorem Reading.copyData {msg : DataMessage} {relativeOffset : ℕ}
    (hpayload : packets[msg.index]? = some msg.payload)
    (hsize : msg.size = msg.payload.length + sizeofDataMessage)
    (hindex : msg.index = socket.readIndex + k) (hk : k < ackBitmapBitLength)
    (hbit : socket.ackBitmap.getLsbD k = false)
    (hoffset : relativeOffset + offset packets socket.readIndex =
      offset packets msg.index) (hstep : copyData socket msg k relativeOffset = some socket') :
    Reading start packets socket' := by
  unfold Stream.copyData at hstep
  split at hstep
  · cases hstep
  next hroom =>
    obtain ⟨_, hbitmap, heq⟩ := map_eq_some_iff.mp hstep
    rw [ackbitmapModifyBit, if_pos hk] at hbitmap
    cases hbitmap
    rw [← heq]
    apply Reading.scheduleRead
    have hend : offset packets (msg.index + 1) =
        offset packets msg.index + msg.payload.length := offset_succ hpayload
    rw [stop_eq hsize (not_lt.mp hroom) h.size_le]
    have hother : ∀ j, j ≠ k → update socket.receiveBufferBoundaries k
        (relativeOffset + msg.payload.length) j = socket.receiveBufferBoundaries j :=
      fun j hj ↦ update_of_ne hj _ _
    refine ⟨⟨h.sequenceNumber, h.offset, h.index_le, h.size_le, ?_, ?_, ?_⟩,
      position_store hbit h.position, h.consumed⟩
    · intro j hj hjbit
      by_cases hjk : j = k
      · -- the new packet
        subst hjk
        constructor
        · rw [← hindex]
          exact (List.getElem?_eq_some_iff.mp hpayload).1
        · dsimp only
          rw [update_self, ← hindex]
          omega
        · dsimp only
          rw [update_self]
          omega
        · intro position hlow hhigh
          dsimp only at hlow hhigh ⊢
          rw [← hindex] at hlow hhigh
          have hplace : offset packets socket.readIndex + position =
              offset packets msg.index + (position - relativeOffset) := by omega
          rw [hplace, getElem?_flatten hpayload (by omega)]
          exact memcpy_of_mem (by omega) (by omega)
        · rw [← hindex]
          exact mem_cons_self
      · have hheld : Held packets socket j := by
          apply h.held j hj
          simpa [hjk] using hjbit
        constructor
        · exact hheld.index_lt
        · dsimp only
          rw [hother j hjk]
          exact hheld.boundary
        · dsimp only
          rw [hother j hjk]
          exact hheld.boundary_le
        · intro position hlow hhigh
          dsimp only at hlow hhigh ⊢
          have hne : socket.readIndex + j ≠ msg.index := by omega
          have hdisjoint := offset_disjoint hne hlow hhigh
          rw [memcpy_of_lt (by omega)]
          exact hheld.content position hlow hhigh
        · exact mem_cons_of_mem _ hheld.accepted
    · intro j hj hjbit
      have hjk : j ≠ k := by
        rintro rfl
        rw [BitWindow.getLsbD_mark, decide_eq_true ⟨hk, rfl⟩, Bool.or_true] at hjbit
        cases hjbit
      dsimp only
      rw [hother j hjk]
      apply h.missing j hj
      simpa [hjk] using hjbit
    · exact fun i hi ↦ mem_cons_of_mem _ (h.accepted i hi)

/-- A packet less than `2 ^ 32` packets from the window, so that its number tells which one. -/
def Recent (socket : Receiver) (msg : DataMessage) : Prop :=
  socket.readIndex + ackBitmapBitLength ≤ msg.index + 2 ^ 32 ∧
    msg.index < socket.readIndex + 2 ^ 32

instance (socket : Receiver) (msg : DataMessage) : Decidable (Recent socket msg) :=
  inferInstanceAs (Decidable (_ ∧ _))

theorem Reading.handleData {junk : ℕ → Byte} {msg : DataMessage}
    (hsizes : PayloadsFit packets)
    (hmsg : IsPacket start packets msg) (hrecent : Recent socket msg)
    (hstep : handleData junk socket msg = some socket') : Reading start packets socket' := by
  unfold Stream.handleData at hstep
  split at hstep
  · cases hstep
  dsimp only at hstep
  split at hstep
  · cases hstep
    exact h.steer _ _
  next hwindow =>
  split at hstep
  · cases hstep
    exact h.steer _ _
  next hbit =>
  have hpayload := (hsizes msg.payload (mem_of_getElem? hmsg.payload)).2
  rw [defaultMaxPayloadSize] at hpayload
  have hsize : msg.size = msg.payload.length + sizeofDataMessage := by
    rw [DataMessage.size, sizeofDataMessage]
    omega
  generalize hk : sub32 msg.sequenceNumber socket.readSequenceNumber = k at hstep hwindow hbit
  rw [isBitSet_eq, Bool.not_eq_true] at hbit
  have hindex : msg.index = socket.readIndex + k := by
    rw [hmsg.sequenceNumber, h.sequenceNumber] at hk
    have hin := eq_of_sub_lt (hk.trans_lt (not_le.mp hwindow)) hrecent.1 hrecent.2
    rw [hin]
    exact congrArg (socket.readIndex + ·) hk
  have hoffset : sub32 msg.offset socket.readOffset + offset packets socket.readIndex =
      offset packets msg.index := by
    have hle : offset packets socket.readIndex ≤ offset packets msg.index :=
      offset_mono (by omega)
    have hnear := offset_add_le (fun chunk hchunk ↦ (hsizes chunk hchunk).2)
      socket.readIndex k
    rw [← hindex] at hnear
    have hlt : offset packets msg.index <
        offset packets socket.readIndex + 2 ^ 32 := by
      rw [defaultMaxPayloadSize] at hnear
      rw [ackBitmapBitLength] at hwindow
      omega
    have hsub : sub32 ((0 + offset packets msg.index) % 2 ^ 32)
        ((0 + offset packets socket.readIndex) % 2 ^ 32) =
          offset packets msg.index - offset packets socket.readIndex :=
      sub_counters_of_le hle hlt
    rw [zero_add, zero_add, ← hmsg.offset, ← h.offset] at hsub
    omega
  split at hstep
  · split at hstep
    next hgrow hlimit =>
      exact (h.realloc hgrow.le hlimit).copyData hmsg.payload hsize hindex (not_le.mp hwindow)
        hbit hoffset hstep
    · cases hstep
      exact h
  · exact h.copyData hmsg.payload hsize hindex (not_le.mp hwindow) hbit hoffset hstep

end

/-! ## Reading -/

theorem findIdx_range (property : ℕ → Bool) (n : ℕ) :
    (range n).findIdx property ≤ n ∧ (∀ k < (range n).findIdx property, property k = false) ∧
      ((range n).findIdx property < n → property ((range n).findIdx property) = true) := by
  refine ⟨findIdx_le_length.trans_eq length_range, fun k hk ↦ ?_, fun hlt ↦ ?_⟩
  · have hearlier := not_of_lt_findIdx hk
    rw [getElem_range] at hearlier
    exact hearlier
  · have hbound : (range n).findIdx property < (range n).length := by
      rwa [length_range]
    have hfound : property ((range n)[(range n).findIdx property]) = true :=
      findIdx_getElem
    rwa [getElem_range] at hfound

theorem firstHole_le (bitmap : AckBitmap) : firstHole bitmap ≤ ackBitmapBitLength :=
  (findIdx_range _ _).1

theorem getLsbD_of_lt_firstHole {bitmap : AckBitmap} (h : k < firstHole bitmap) :
    bitmap.getLsbD k = true := by
  have hset := (findIdx_range _ _).2.1 k h
  simpa using hset

structure Window.Run (packets : List (List Byte)) (socket : Receiver) (n : ℕ) : Prop where
  held : ∀ k < n, Held packets socket k
  le_length : n ≤ ackBitmapBitLength

theorem Window.run_firstHole (h : Window start packets socket) :
    Window.Run packets socket (firstHole socket.ackBitmap) := by
  have hle := firstHole_le socket.ackBitmap
  exact ⟨fun k hk ↦ h.held k (by omega) (getLsbD_of_lt_firstHole hk), hle⟩

theorem Window.Run.content (h : Window.Run packets socket (n + 1))
    (hposition : position < socket.receiveBufferBoundaries n) :
    packets.flatten[Chunks.offset packets socket.readIndex + position]? =
      some (socket.receiveBuffer position) := by
  have hboundary := (h.held n (lt_succ_self n)).boundary
  have hhigh : Chunks.offset packets socket.readIndex + position <
      Chunks.offset packets (socket.readIndex + (n + 1)) := by
    rw [← add_assoc]
    omega
  obtain ⟨k, hk, hlow, hin⟩ := exists_chunk_of_lt (le_add_right _ _) hhigh
  exact (h.held k hk).content position hlow hin

theorem Window.Run.boundary_lt {j : ℕ} (h : Window.Run packets socket n)
    (hsizes : PayloadsFit packets)
    (hjk : j < k) (hk : k < n) :
    socket.receiveBufferBoundaries j < socket.receiveBufferBoundaries k := by
  have hj := (h.held j (hjk.trans hk)).boundary
  have hheld := h.held k hk
  have hboundary := hheld.boundary
  have hpayload := getElem?_eq_getElem hheld.index_lt
  have hpos := (hsizes _ (mem_of_getElem? hpayload)).1
  have hend := offset_succ hpayload
  have hmono : Chunks.offset packets (socket.readIndex + j + 1) ≤
      Chunks.offset packets (socket.readIndex + k) := Chunks.offset_mono (by omega)
  omega

theorem packetsRead_spec {copyOffset : ℕ} (hn : n < ackBitmapBitLength)
    (hincreasing : ∀ j k, j < k → k ≤ n → boundaries j < boundaries k)
    (hread : copyOffset ≤ boundaries n) :
    packetsRead boundaries copyOffset ≤ n + 1 ∧
      (∀ k < packetsRead boundaries copyOffset, boundaries k ≤ copyOffset) ∧
      (copyOffset = boundaries n ∧ packetsRead boundaries copyOffset = n + 1 ∨
        packetsRead boundaries copyOffset ≤ n ∧
          copyOffset < boundaries (packetsRead boundaries copyOffset)) := by
  unfold packetsRead
  dsimp only
  obtain ⟨-, hbefore, hfound⟩ := findIdx_range
    (fun packet ↦ decide (copyOffset ≤ boundaries packet)) ackBitmapBitLength
  generalize (range ackBitmapBitLength).findIdx
    (fun packet ↦ decide (copyOffset ≤ boundaries packet)) = stop at hbefore hfound
  simp only [decide_eq_false_iff_not, not_le, decide_eq_true_iff] at hbefore hfound
  have hstop_le : stop ≤ n := by
    by_contra hlate
    exact absurd hread (not_le.mpr (hbefore n (not_le.mp hlate)))
  have hstop_read : copyOffset ≤ boundaries stop := hfound (hstop_le.trans_lt hn)
  split_ifs with hexact
  · refine ⟨by omega, ?_, ?_⟩
    · intro k hk
      rcases Nat.lt_succ_iff_lt_or_eq.mp hk with hlt | rfl
      · exact (hbefore k hlt).le
      · exact hexact.2.ge
    · rcases lt_or_eq_of_le hstop_le with hlt | rfl
      · refine .inr ⟨hlt, ?_⟩
        rw [hexact.2]
        exact hincreasing stop (stop + 1) (lt_succ_self stop) hlt
      · exact .inl ⟨hexact.2, rfl⟩
  · refine ⟨by omega, fun k hk ↦ (hbefore k hk).le, .inr ⟨hstop_le, ?_⟩⟩
    exact lt_of_le_of_ne hstop_read fun heq ↦ hexact ⟨by omega, heq⟩

theorem Held.shift {moved : ℕ} (h : Held packets socket (k + increase))
    (hmoved : moved + offset packets socket.readIndex =
      offset packets (socket.readIndex + increase))
    (hindex : socket'.readIndex = socket.readIndex + increase)
    (hboundary : socket'.receiveBufferBoundaries k =
      socket.receiveBufferBoundaries (k + increase) - moved)
    (hbuffer : socket'.receiveBuffer = memmove socket.receiveBuffer moved socket.receiveBufferSize)
    (hsize : socket'.receiveBufferSize = socket.receiveBufferSize)
    (haccepted : socket'.accepted = socket.accepted) : Held packets socket' k := by
  have hshift : socket'.readIndex + k = socket.readIndex + (k + increase) := by omega
  have hend := h.boundary
  have hend_le := h.boundary_le
  have hmono : offset packets (socket.readIndex + increase) ≤
      offset packets (socket.readIndex + (k + increase) + 1) :=
    offset_mono (by omega)
  rw [← hindex] at hmoved hmono
  constructor
  · rw [hshift]
    exact h.index_lt
  · rw [hshift]
    omega
  · omega
  · intro position hlow hhigh
    rw [hshift] at hlow hhigh
    have hplace : offset packets socket'.readIndex + position =
        offset packets socket.readIndex + (position + moved) := by omega
    rw [hplace] at hlow hhigh ⊢
    rw [hbuffer, memmove, if_pos (by omega)]
    exact h.content _ hlow hhigh
  · rw [hshift, haccepted]
    exact h.accepted

theorem fixBoundaries_spec {boundaries' : ℕ → ℕ} {offsetIncrease : ℕ}
    (h : fixBoundaries boundaries increase offsetIncrease = some boundaries') :
    ∀ k, boundaries' k = if k < ackBitmapBitLength - increase then
      boundaries (k + increase) - offsetIncrease else 0 := by
  unfold fixBoundaries at h
  split at h
  · cases h
    exact fun k ↦ rfl
  · cases h

theorem Window.removePackets (h : Window start packets socket)
    (hrun : Window.Run packets socket n) (hincrease : increase + 1 ≤ n)
    (hstep : removePackets socket (increase + 1) = some socket') :
    Window start packets socket' ∧
      socket'.readIndex = socket.readIndex + (increase + 1) ∧
      socket'.copyOffset + Chunks.offset packets socket'.readIndex =
        socket.copyOffset + Chunks.offset packets socket.readIndex ∧
      socket'.consumed = socket.consumed ∧
      (∀ k, socket'.ackBitmap.getLsbD k = socket.ackBitmap.getLsbD (increase + 1 + k)) ∧
      (∀ k < ackBitmapBitLength - (increase + 1), socket'.receiveBufferBoundaries k =
          socket.receiveBufferBoundaries (k + (increase + 1)) -
            socket.receiveBufferBoundaries increase) := by
  have hboundary := (hrun.held increase (by omega)).boundary
  have hindex := (hrun.held increase (by omega)).index_lt
  unfold Stream.removePackets at hstep
  dsimp only at hstep
  split at hstep
  · cases hstep
  split at hstep
  · cases hstep
  next hlength =>
  split at hstep
  · cases hstep
  next hcopied =>
  obtain ⟨_, hfix, heq⟩ := map_eq_some_iff.mp hstep
  have hboundaries := fixBoundaries_spec hfix
  rw [Nat.add_sub_cancel] at hcopied hboundaries
  have hbits : ∀ k, socket'.ackBitmap.getLsbD k = socket.ackBitmap.getLsbD (increase + 1 + k) := by
    intro k
    rw [← heq]
    exact BitVec.getLsbD_ushiftRight _ _ _
  subst heq
  refine ⟨⟨?_, ?_, ?_, h.size_le, ?_, ?_, ?_⟩, rfl, ?_, rfl, hbits, ?_⟩
  · rw [h.sequenceNumber, add32, SequenceNumber.add_mod_left]
  · dsimp only
    rw [h.offset, add32, add, Nat.mod_add_mod, Nat.add_sub_cancel, Nat.add_comm,
      hboundary, ← add_assoc]
  · dsimp only
    omega
  · intro k hk hbit
    rw [hbits k, add_comm] at hbit
    have hlt : k + (increase + 1) < ackBitmapBitLength := BitVec.lt_of_getLsbD hbit
    refine (h.held _ hlt hbit).shift hboundary rfl ?_ rfl rfl rfl
    exact (hboundaries k).trans (if_pos (by omega))
  · intro k hk hbit
    rw [hbits k, add_comm] at hbit
    dsimp only
    rw [hboundaries k]
    split_ifs
    · rw [h.missing _ (by omega) hbit, Nat.zero_sub]
    · rfl
  · intro i hi
    dsimp only at hi ⊢
    rcases lt_or_ge i socket.readIndex with hlt | hge
    · exact h.accepted i hlt
    · have hin := (hrun.held (i - socket.readIndex) (by omega)).accepted
      rwa [Nat.add_sub_cancel' hge] at hin
  · dsimp only
    rw [Nat.add_sub_cancel, ← Nat.add_assoc]
    omega
  · intro k hk
    dsimp only
    rw [hboundaries k, if_pos hk]

theorem Window.afterRead (h : Window start packets socket)
    (hsizes : PayloadsFit packets)
    (hn : n < firstHole socket.ackBitmap)
    (hread : socket.copyOffset ≤ socket.receiveBufferBoundaries n) (hconsumed : socket.consumed =
      packets.flatten.take (Chunks.offset packets socket.readIndex + socket.copyOffset))
    (hstep : afterRead socket = some socket') : Reading start packets socket' := by
  have hrun := h.run_firstHole
  have hlength := firstHole_le socket.ackBitmap
  have hincreasing : ∀ j k, j < k → k ≤ n →
      socket.receiveBufferBoundaries j < socket.receiveBufferBoundaries k :=
    fun j k hjk hk ↦ hrun.boundary_lt hsizes hjk (hk.trans_lt hn)
  obtain ⟨hpacket, hpassed, hposition⟩ := packetsRead_spec (hn.trans_le hlength) hincreasing hread
  unfold Stream.afterRead at hstep
  generalize packetsRead socket.receiveBufferBoundaries socket.copyOffset = packet
    at hpacket hpassed hposition hstep
  cases packet with
  | zero =>
    cases hstep
    refine ⟨h, .inr ⟨getLsbD_of_lt_firstHole (by omega), ?_⟩, hconsumed⟩
    exact (hposition.resolve_left fun hall ↦ by omega).2
  | succ increase =>
    obtain ⟨hwindow, hindex, hcopy, hconsumed', hbits, hboundaries⟩ :=
      h.removePackets hrun (by omega) hstep
    have hboundary := (hrun.held increase (by omega)).boundary
    rw [hindex, ← add_assoc] at hcopy
    refine ⟨hwindow, ?_, ?_⟩
    · cases hposition with
      | inl hall =>
        have hlast : increase = n := by omega
        rw [← hlast] at hall
        exact .inl (by omega)
      | inr hwithin =>
        refine .inr ⟨?_, ?_⟩
        · rw [hbits 0]
          exact getLsbD_of_lt_firstHole (by omega)
        · rw [hboundaries 0 (by omega), zero_add]
          omega
    · rw [hconsumed', hconsumed, hindex, ← add_assoc]
      congr 1
      omega

theorem Reading.callReadProcessor {readSize : ℕ} (h : Reading start packets socket)
    (hsizes : PayloadsFit packets)
    (hstep : callReadProcessor socket readSize = some socket') :
    Reading start packets socket' := by
  unfold Stream.callReadProcessor at hstep
  split at hstep
  · cases hstep
  split at hstep
  · cases hstep
    exact h.steer _ _
  dsimp only at hstep
  split at hstep
  · cases hstep
  next hhole =>
  obtain ⟨n, hn⟩ := exists_eq_succ_of_ne_zero hhole
  rw [hn, succ_sub_one] at hstep
  have hrun := h.run_firstHole
  rw [hn] at hrun
  have hlast := hrun.held n (lt_succ_self n)
  have hsmall : socket.receiveBufferBoundaries n < 2 ^ 32 := by
    have hboundary_le := hlast.boundary_le
    have hsize_le := h.size_le
    rw [receiveBufferLimit] at hsize_le
    omega
  have hbehind : socket.copyOffset ≤ socket.receiveBufferBoundaries n := by
    cases h.position with
    | inl hzero => omega
    | inr hpartly =>
      rcases Nat.eq_zero_or_pos n with rfl | hpos
      · exact hpartly.2.le
      · have hlt := hrun.boundary_lt hsizes hpos (lt_succ_self n)
        omega
  split at hstep
  · cases hstep
  split at hstep
  · cases hstep
  next hvalid =>
  rw [sub32, sub_of_le hbehind hsmall] at hvalid
  have hadd : add32 socket.copyOffset readSize = socket.copyOffset + readSize :=
    add_of_lt (by omega)
  rw [hadd] at hstep
  apply (h.toWindow.steer none socket.ackTask _ _).afterRead hsizes (hn ▸ lt_succ_self n) _ _ hstep
  · dsimp only
    omega
  · rw [h.consumed, ← add_assoc]
    apply take_append_map_range
    intro i hi
    rw [add_assoc]
    exact hrun.content (by omega)

end Gnunet.Stream
