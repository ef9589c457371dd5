import Gnunet.Lib.Buffer
import Gnunet.Lib.Framing
import Gnunet.Lib.Runs
import Gnunet.Util.MessageHeader
import Mathlib.Algebra.Order.Group.Nat

/-!
# The message stream tokenizer

Data that is received is cut into messages.  Messages that are complete and aligned in the input
are passed on from there; others are put together in a private buffer, which is compacted and grown
when that is needed.  Data is never discarded here, all messages are passed on at once, and the
callback accepts all of them.
-/

namespace Gnunet.Util

open Lib List Option Nat Buffer

/-- `curr_buf` is the length of the buffer. -/
structure MessageStreamTokenizer where
  hdr : List UInt8
  off : ℕ
  pos : ℕ

open MessageStreamTokenizer

structure Input where
  address : ℕ
  buf : List UInt8

/-- The function returns, or a message is passed to the callback and the loop goes on. -/
inductive Outcome
  | ok (mst : MessageStreamTokenizer)
  | sysErr (mst : MessageStreamTokenizer)
  | message (bytes : List UInt8) (mst : MessageStreamTokenizer) (input : Input)

def mstCreate : MessageStreamTokenizer :=
  { hdr := replicate messageHeaderSize 0, off := 0, pos := 0 }

section Receive

/- The factor for alignment depends on the platform.  `GNUNET_realloc` leaves the new bytes
unspecified. -/
variable (alignFactor : ℕ) (unspecified : ℕ → UInt8)

def Input.advance (input : Input) (delta : ℕ) : Input :=
  ⟨input.address + delta, input.buf.drop delta⟩

def MessageStreamTokenizer.compact (mst : MessageStreamTokenizer) : MessageStreamTokenizer :=
  { hdr := write mst.hdr 0 (read mst.hdr mst.off (mst.pos - mst.off))
    off := 0
    pos := mst.pos - mst.off }

def MessageStreamTokenizer.grow (mst : MessageStreamTokenizer) (size : ℕ) :
    MessageStreamTokenizer :=
  { mst with hdr := mst.hdr ++ (range (size - mst.hdr.length)).map unspecified }

def MessageStreamTokenizer.append (mst : MessageStreamTokenizer) (input : Input) (delta : ℕ) :
    Option MessageStreamTokenizer :=
  if mst.pos + delta ≤ mst.hdr.length then
    some { mst with
      hdr := write mst.hdr mst.pos (input.buf.take delta)
      pos := mst.pos + delta }
  else none

/-- Take input until the buffer holds `want` bytes that were not processed. -/
def MessageStreamTokenizer.fill (mst : MessageStreamTokenizer) (input : Input) (want : ℕ) :
    Option (MessageStreamTokenizer × Input) :=
  if mst.pos - mst.off < want then
    let delta := min (want - (mst.pos - mst.off)) input.buf.length
    (mst.append input delta).map fun mst ↦ (mst, input.advance delta)
  else some (mst, input)

def MessageStreamTokenizer.makeRoom (mst : MessageStreamTokenizer) (want : ℕ) :
    Option MessageStreamTokenizer :=
  let mst := if mst.hdr.length - mst.off < want ∧ 0 < mst.off then mst.compact else mst
  if mst.hdr.length < want then
    if mst.off = 0 then some (mst.grow unspecified want) else none
  else some mst

def takeMessage (mst : MessageStreamTokenizer) (input : Input) (want : ℕ) : Option Outcome :=
  (mst.makeRoom unspecified want).bind fun mst ↦
    (mst.fill input want).map fun (mst, input) ↦
      if mst.pos - mst.off < want then .ok mst
      else
        let bytes := read mst.hdr mst.off want
        if mst.off + want = mst.pos then .message bytes { mst with off := 0, pos := 0 } input
        else .message bytes { mst with off := mst.off + want } input

/-- The body of the first loop, from the label `do_align` on. -/
def doAlign (mst : MessageStreamTokenizer) (input : Input) : Option Outcome :=
  if mst.off ≤ mst.pos then
    let mst :=
      if mst.hdr.length - mst.off < messageHeaderSize ∨ mst.off % alignFactor ≠ 0 then mst.compact
      else mst
    (mst.fill input messageHeaderSize).bind fun (mst, input) ↦
      if mst.pos - mst.off < messageHeaderSize then some (.ok mst)
      else
        let want := messageSize (mst.hdr.drop mst.off)
        if want < messageHeaderSize then some (.sysErr mst)
        else takeMessage unspecified mst input want
  else none

/-- What is left of the input is kept; the code behind the label `copy`. -/
def copyRest (mst : MessageStreamTokenizer) (input : Input) : Option MessageStreamTokenizer :=
  if input.buf = [] then some mst
  else
    let mst :=
      if mst.hdr.length < input.buf.length + mst.pos then
        mst.grow unspecified (input.buf.length + mst.pos)
      else mst
    mst.append input input.buf.length

def receiveDirect (mst : MessageStreamTokenizer) (input : Input) : Option Outcome :=
  if input.buf.length < messageHeaderSize then (copyRest unspecified mst input).map .ok
  else if input.address % alignFactor ≠ 0 then doAlign alignFactor unspecified mst input
  else
    let want := messageSize input.buf
    if want < messageHeaderSize then some (.sysErr { mst with off := 0 })
    else if input.buf.length < want then (copyRest unspecified mst input).map .ok
    else some (.message (input.buf.take want) mst (input.advance want))

def receiveLoop : ℕ → MessageStreamTokenizer → Input →
    Option (Bool × MessageStreamTokenizer × List (List UInt8))
  | 0, _, _ => none
  | rounds + 1, mst, input =>
    let outcome :=
      if 0 < mst.pos then doAlign alignFactor unspecified mst input
      else receiveDirect alignFactor unspecified mst input
    outcome.bind fun
      | .ok mst => some (true, mst, [])
      | .sysErr mst => some (false, mst, [])
      | .message bytes mst input => (receiveLoop rounds mst input).map fun (ret, mst, messages) ↦
          (ret, mst, bytes :: messages)

/-- Whether it returns `GNUNET_OK` and the messages that the callback is called with; `none` if an
assertion fails or data would be written behind the end of the buffer. Every round but the last one
passes a message on. -/
def mstReceive (mst : MessageStreamTokenizer) (input : Input) :
    Option (Bool × MessageStreamTokenizer × List (List UInt8)) :=
  if mst.off ≤ mst.pos ∧ mst.pos ≤ mst.hdr.length then
    receiveLoop alignFactor unspecified (mst.pos - mst.off + input.buf.length + 1) mst input
  else none

end Receive

structure MessageStreamTokenizer.WellFormed (mst : MessageStreamTokenizer) : Prop where
  off_le : mst.off ≤ mst.pos
  pos_le : mst.pos ≤ mst.hdr.length
  header_le : messageHeaderSize ≤ mst.hdr.length

def MessageStreamTokenizer.pending (mst : MessageStreamTokenizer) : List UInt8 :=
  (mst.hdr.drop mst.off).take (mst.pos - mst.off)

namespace MessageStreamTokenizer

variable {mst : MessageStreamTokenizer} {input : Input} {delta want : ℕ}

section

variable (h : mst.WellFormed)
include h

theorem WellFormed.length_pending : mst.pending.length = mst.pos - mst.off := by
  have hpos := h.pos_le
  rw [pending, length_take, length_drop]
  omega

theorem WellFormed.read_eq (hwant : want ≤ mst.pos - mst.off) :
    read mst.hdr mst.off want = mst.pending.take want := by
  have hoff := h.off_le
  have hpos := h.pos_le
  rw [read_eq_take_drop (by omega), pending, take_take, min_eq_left hwant]

theorem WellFormed.compact :
    mst.compact.WellFormed ∧ mst.compact.pending = mst.pending ∧
      mst.compact.hdr.length = mst.hdr.length := by
  have hpos := h.pos_le
  have hlength : mst.compact.hdr.length = mst.hdr.length :=
    length_write (by rw [length_read]; omega)
  refine ⟨⟨zero_le _, ?_, ?_⟩, ?_, hlength⟩
  · rw [hlength]
    exact (sub_le _ _).trans hpos
  · rw [hlength]
    exact h.header_le
  · rw [pending, MessageStreamTokenizer.compact, h.read_eq le_rfl,
      take_of_length_le h.length_pending.le]
    rw [drop_zero, Nat.sub_zero, write, take_zero, nil_append, take_left' h.length_pending]

theorem WellFormed.grow (unspecified : ℕ → UInt8) (size : ℕ) :
    (mst.grow unspecified size).WellFormed ∧
      (mst.grow unspecified size).pending = mst.pending ∧
      size ≤ (mst.grow unspecified size).hdr.length := by
  have hoff := h.off_le
  have hpos := h.pos_le
  have hheader := h.header_le
  have hlength : (mst.grow unspecified size).hdr.length =
      mst.hdr.length + (size - mst.hdr.length) := by
    rw [MessageStreamTokenizer.grow, length_append, length_map, length_range]
  refine ⟨⟨h.off_le, ?_, by omega⟩, ?_, by omega⟩
  · rw [hlength]
    exact hpos.trans (le_add_right _ _)
  · rw [pending, pending, MessageStreamTokenizer.grow]
    dsimp only
    rw [drop_append_of_le_length (by omega), take_append_of_le_length]
    rw [length_drop]
    omega

theorem WellFormed.append (input : Input)
    (hroom : mst.pos + delta ≤ mst.hdr.length) (hdelta : delta ≤ input.buf.length) :
    ∃ mst', mst.append input delta = some mst' ∧ mst'.WellFormed ∧
      mst'.pending = mst.pending ++ input.buf.take delta := by
  have hoff := h.off_le
  have htake : (input.buf.take delta).length = delta := by
    rw [length_take, min_eq_left hdelta]
  have hlength : (write mst.hdr mst.pos (input.buf.take delta)).length = mst.hdr.length :=
    length_write (by rw [htake]; exact hroom)
  refine ⟨_, if_pos hroom, ⟨hoff.trans (le_add_right _ _), ?_, ?_⟩, ?_⟩
  · exact hroom.trans hlength.ge
  · exact h.header_le.trans hlength.ge
  · rw [pending]
    dsimp only
    rw [write, append_assoc,
      drop_append_of_le_length (by rw [length_take]; omega), ← append_assoc, drop_take]
    apply take_left'
    rw [length_append, length_take, length_drop]
    omega

theorem WellFormed.fill (input : Input) (hroom : mst.off + want ≤ mst.hdr.length) :
    ∃ mst' input', mst.fill input want = some (mst', input') ∧ mst'.WellFormed ∧
      mst'.pending ++ input'.buf = mst.pending ++ input.buf ∧
      (want ≤ mst'.pending.length ∨ input'.buf = []) := by
  rw [MessageStreamTokenizer.fill]
  split_ifs
  · dsimp only
    have hfits : mst.pos + min (want - (mst.pos - mst.off)) input.buf.length ≤ mst.hdr.length := by
      omega
    obtain ⟨mst', happend, hwell, hpending⟩ := h.append input hfits (min_le_right _ _)
    refine ⟨mst', _, by rw [happend]; rfl, hwell, ?_, ?_⟩
    · rw [hpending, append_assoc, Input.advance, take_append_drop]
    · rw [hpending, length_append, h.length_pending, length_take, Input.advance, drop_eq_nil_iff]
      omega
  · exact ⟨mst, input, rfl, h, rfl, Or.inl (by rw [h.length_pending]; omega)⟩

theorem WellFormed.makeRoom (unspecified : ℕ → UInt8) (want : ℕ) :
    ∃ mst', mst.makeRoom unspecified want = some mst' ∧ mst'.WellFormed ∧
      mst'.pending = mst.pending ∧ mst'.off + want ≤ mst'.hdr.length := by
  have hoff := h.off_le
  have hpos := h.pos_le
  rw [MessageStreamTokenizer.makeRoom]
  by_cases hmove : mst.hdr.length - mst.off < want ∧ 0 < mst.off
  · obtain ⟨hcompact, hpending, _⟩ := h.compact
    have hzero : mst.compact.off = 0 := rfl
    split_ifs
    · obtain ⟨hgrow, hpending', hsize⟩ := hcompact.grow unspecified want
      have hoff' : (mst.compact.grow unspecified want).off = 0 := rfl
      exact ⟨_, rfl, hgrow, hpending'.trans hpending, by omega⟩
    · exact ⟨_, rfl, hcompact, hpending, by omega⟩
  · split_ifs
    · obtain ⟨hgrow, hpending', hsize⟩ := h.grow unspecified want
      have hoff' : (mst.grow unspecified want).off = mst.off := rfl
      exact ⟨_, rfl, hgrow, hpending', by omega⟩
    · omega
    · exact ⟨_, rfl, h, rfl, by omega⟩

end

end MessageStreamTokenizer

def messageFormat : Framing.Format UInt8 where
  headerSize := messageHeaderSize
  headerSize_pos := by decide
  size := messageSize
  size_append := fun _ more h ↦ messageSize_append more (le_trans (by decide) h)

def Yields (stream : List UInt8) (outcome : Option Outcome) : Prop :=
  match messageFormat.next stream with
  | .incomplete => ∃ mst, outcome = some (.ok mst) ∧ mst.WellFormed ∧ mst.pending = stream
  | .corrupt => ∃ mst, outcome = some (.sysErr mst)
  | .frame length => ∃ mst input, outcome = some (.message (stream.take length) mst input) ∧
      mst.WellFormed ∧ mst.pending ++ input.buf = stream.drop length

section Message

variable {alignFactor : ℕ} {unspecified : ℕ → UInt8} {mst : MessageStreamTokenizer} {input : Input}
  {stream : List UInt8} {want : ℕ}

theorem yields_ok (hnext : messageFormat.next stream = .incomplete) (hwell : mst.WellFormed)
    (hpending : mst.pending = stream) : Yields stream (some (.ok mst)) := by
  rw [Yields, hnext]
  exact ⟨mst, rfl, hwell, hpending⟩

theorem yields_sysErr (hnext : messageFormat.next stream = .corrupt) :
    Yields stream (some (.sysErr mst)) := by
  rw [Yields, hnext]
  exact ⟨mst, rfl⟩

theorem yields_message (hnext : messageFormat.next stream = .frame want) (hwell : mst.WellFormed)
    (hstream : mst.pending ++ input.buf = stream.drop want) :
    Yields stream (some (.message (stream.take want) mst input)) := by
  rw [Yields, hnext]
  exact ⟨mst, input, rfl, hwell, hstream⟩

theorem yields_takeMessage (hwell : mst.WellFormed) (hsize : messageSize stream = want)
    (hwant : messageHeaderSize ≤ want) (hstream : mst.pending ++ input.buf = stream) :
    Yields stream (takeMessage unspecified mst input want) := by
  obtain ⟨_, hroom, hwell₁, hpending₁, hfits⟩ := hwell.makeRoom unspecified want
  obtain ⟨mst₂, input₂, hfill, hwell₂, hstream₂, henough⟩ := hwell₁.fill input hfits
  rw [hpending₁, hstream] at hstream₂
  have hlength₂ := hwell₂.length_pending
  have hoff := hwell₂.off_le
  have hpos := hwell₂.pos_le
  have hwant' : messageFormat.headerSize ≤ messageFormat.size stream := hwant.trans hsize.ge
  rw [takeMessage, hroom, bind_some, hfill, map_some]
  dsimp only
  by_cases hless : mst₂.pos - mst₂.off < want
  · -- the input is used up
    have hempty : input₂.buf = [] := henough.resolve_left (by omega)
    rw [hempty, append_nil] at hstream₂
    rw [if_pos hless]
    have hlong : stream.length < messageSize stream := by
      rw [hsize, ← hstream₂, hlength₂]
      exact hless
    exact yields_ok (messageFormat.next_of_incomplete hwant' hlong) hwell₂ hstream₂
  · have hle : want ≤ mst₂.pending.length := by omega
    have hshort : messageSize stream ≤ stream.length := by
      rw [hsize, ← hstream₂, length_append]
      exact hle.trans (le_add_right _ _)
    have hnext : messageFormat.next stream = .frame want :=
      (messageFormat.next_of_frame hwant' hshort).trans (congrArg _ hsize)
    have htake : read mst₂.hdr mst₂.off want = stream.take want := by
      rw [hwell₂.read_eq (by omega), ← hstream₂, take_append_of_le_length hle]
    have hdrop : mst₂.pending.drop want ++ input₂.buf = stream.drop want := by
      rw [← hstream₂, drop_append_of_le_length hle]
    rw [htake]
    split_ifs
    · apply yields_message hnext
      · exact ⟨le_refl 0, zero_le _, hwell₂.header_le⟩
      · rw [← hdrop, drop_of_length_le (by omega)]
        rfl
    · apply yields_message hnext
      · exact ⟨show mst₂.off + want ≤ mst₂.pos by omega, hpos, hwell₂.header_le⟩
      · rw [← hdrop, pending, pending, drop_take, drop_drop, Nat.sub_sub]

/-- The first loop takes the next message out of the buffer and the input. -/
theorem yields_doAlign (hwell : mst.WellFormed) (hstream : mst.pending ++ input.buf = stream) :
    Yields stream (doAlign alignFactor unspecified mst input) := by
  have haligned : ∃ aligned, aligned = (if mst.hdr.length - mst.off < messageHeaderSize ∨
      mst.off % alignFactor ≠ 0 then mst.compact else mst) ∧ aligned.WellFormed ∧
      aligned.pending = mst.pending ∧ aligned.off + messageHeaderSize ≤ aligned.hdr.length := by
    obtain ⟨hcompact, hpending, hlength⟩ := hwell.compact
    have hheader := hwell.header_le
    have hpos := hwell.pos_le
    have hoff := hwell.off_le
    split_ifs
    · exact ⟨_, rfl, hcompact, hpending, by rw [hlength]; exact (zero_add _).trans_le hheader⟩
    · exact ⟨_, rfl, hwell, rfl, by omega⟩
  obtain ⟨_, hmst₁, hwell₁, hpending₁, hfits⟩ := haligned
  obtain ⟨mst₂, input₂, hfill, hwell₂, hstream₂, henough⟩ := hwell₁.fill input hfits
  rw [hpending₁, hstream] at hstream₂
  have hlength₂ := hwell₂.length_pending
  rw [doAlign, if_pos hwell.off_le]
  dsimp only
  rw [← hmst₁, hfill, bind_some]
  by_cases hless : mst₂.pos - mst₂.off < messageHeaderSize
  · have hempty : input₂.buf = [] := henough.resolve_left (by omega)
    rw [hempty, append_nil] at hstream₂
    rw [if_pos hless]
    apply yields_ok (messageFormat.next_of_no_header _) hwell₂ hstream₂
    rw [← hstream₂, hlength₂]
    exact hless
  · have hsize : messageSize (mst₂.hdr.drop mst₂.off) = messageSize stream := by
      have htwo : 2 ≤ mst₂.pending.length := by
        rw [messageHeaderSize] at hless
        omega
      rw [← hstream₂, messageSize_append _ htwo, ← take_append_drop (mst₂.pos - mst₂.off)
        (mst₂.hdr.drop mst₂.off)]
      exact messageSize_append _ htwo
    have hheader : messageHeaderSize ≤ stream.length := by
      rw [← hstream₂, length_append]
      omega
    rw [if_neg hless, hsize]
    split_ifs with hcorrupt
    · exact yields_sysErr (messageFormat.next_of_corrupt hheader hcorrupt)
    · exact yields_takeMessage hwell₂ rfl (Nat.le_of_not_lt hcorrupt) hstream₂

theorem pending_eq_nil (hpos : mst.pos = 0) : mst.pending = [] := by
  rw [pending, hpos, Nat.zero_sub, take_zero]

theorem exists_copyRest (unspecified : ℕ → UInt8) (hwell : mst.WellFormed) (hpos : mst.pos = 0)
    (input : Input) :
    ∃ mst', copyRest unspecified mst input = some mst' ∧ mst'.WellFormed ∧
      mst'.pending = input.buf := by
  have hnothing := pending_eq_nil hpos
  rw [copyRest]
  split_ifs with hempty hsmall
  · exact ⟨mst, rfl, hwell, by rw [hnothing, hempty]⟩
  · obtain ⟨hgrow, hpending, hsize⟩ := hwell.grow unspecified (input.buf.length + mst.pos)
    obtain ⟨mst', happend, hwell', hpending'⟩ := hgrow.append input
      (Nat.add_comm _ _ ▸ hsize) (Nat.le_refl _)
    exact ⟨mst', happend, hwell', by rw [hpending', hpending, hnothing, take_length]; rfl⟩
  · obtain ⟨mst', happend, hwell', hpending'⟩ := hwell.append input
      (show mst.pos + input.buf.length ≤ mst.hdr.length by omega) (le_refl _)
    exact ⟨mst', happend, hwell', by rw [hpending', hnothing, take_length]; rfl⟩

theorem yields_receiveDirect (hwell : mst.WellFormed) (hpos : mst.pos = 0) :
    Yields input.buf (receiveDirect alignFactor unspecified mst input) := by
  obtain ⟨_, hcopy, hwell', hpending⟩ := exists_copyRest unspecified hwell hpos input
  have hnothing := pending_eq_nil hpos
  rw [receiveDirect, hcopy]
  dsimp only
  split_ifs with hheader halign hcorrupt hlength
  · exact yields_ok (messageFormat.next_of_no_header hheader) hwell' hpending
  · exact yields_doAlign hwell (by rw [hnothing]; rfl)
  · exact yields_sysErr (messageFormat.next_of_corrupt (Nat.le_of_not_lt hheader) hcorrupt)
  · exact yields_ok (messageFormat.next_of_incomplete (Nat.le_of_not_lt hcorrupt) hlength) hwell'
      hpending
  · apply yields_message (messageFormat.next_of_frame (Nat.le_of_not_lt hcorrupt)
      (Nat.le_of_not_lt hlength)) hwell
    rw [hnothing]
    rfl

end Message

structure Reading where
  mst : MessageStreamTokenizer
  corrupt : Bool
  messages : List (List UInt8)

/-- The next part is taken unless the stream was reported to be corrupt. -/
def Reading.receive (alignFactor : ℕ) (unspecified : ℕ → UInt8) (reading : Reading)
    (input : Input) : Option Reading :=
  if reading.corrupt then some reading
  else (mstReceive alignFactor unspecified reading.mst input).map fun (ok, mst, messages) ↦
    ⟨mst, !ok, reading.messages ++ messages⟩

section Stream

variable {alignFactor : ℕ} {unspecified : ℕ → UInt8} {mst : MessageStreamTokenizer} {input : Input}
  {stream : List UInt8}

/-- With enough rounds the loops cut all that there is into messages. -/
theorem receiveLoop_eq (rounds : ℕ) (hwell : mst.WellFormed)
    (hstream : mst.pending ++ input.buf = stream) (hrounds : stream.length < rounds) :
    ∃ mst', receiveLoop alignFactor unspecified rounds mst input =
        some (!(messageFormat.tokenize stream).corrupt, mst',
          (messageFormat.tokenize stream).frames) ∧
      ((messageFormat.tokenize stream).corrupt = false →
        mst'.WellFormed ∧ mst'.pending = (messageFormat.tokenize stream).rest) := by
  induction rounds generalizing mst input stream with
  | zero => exact absurd hrounds (not_lt_zero _)
  | succ rounds ih =>
    have hyields : Yields stream (if 0 < mst.pos then doAlign alignFactor unspecified mst input
        else receiveDirect alignFactor unspecified mst input) := by
      split_ifs with hpos
      · exact yields_doAlign hwell hstream
      · have hzero : mst.pos = 0 := Nat.eq_zero_of_not_pos hpos
        rw [pending_eq_nil hzero] at hstream
        rw [← hstream]
        exact yields_receiveDirect hwell hzero
    rw [Yields] at hyields
    rw [receiveLoop]
    cases hnext : messageFormat.next stream with
    | incomplete =>
      rw [hnext] at hyields
      obtain ⟨mst', houtcome, hwell', hpending⟩ := hyields
      rw [houtcome, messageFormat.tokenize_of_incomplete hnext]
      exact ⟨mst', rfl, fun _ ↦ ⟨hwell', hpending⟩⟩
    | corrupt =>
      rw [hnext] at hyields
      obtain ⟨mst', houtcome⟩ := hyields
      rw [houtcome, messageFormat.tokenize_of_corrupt hnext]
      exact ⟨mst', rfl, fun hcontra ↦ by cases hcontra⟩
    | frame length =>
      rw [hnext] at hyields
      obtain ⟨mst', _, houtcome, hwell', hstream'⟩ := hyields
      obtain ⟨_, _⟩ := messageFormat.next_eq_frame hnext
      obtain ⟨mst'', hloop, hrest⟩ := ih hwell' hstream' (by rw [length_drop]; omega)
      rw [houtcome, messageFormat.tokenize_of_frame hnext, bind_some]
      dsimp only
      rw [hloop]
      exact ⟨mst'', rfl, hrest⟩

theorem run_corrupt (inputs : List Input) (messages : List (List UInt8)) :
    Runs.run (Reading.receive alignFactor unspecified) ⟨mst, true, messages⟩ inputs =
      some ⟨mst, true, messages⟩ := by
  induction inputs with
  | nil => rfl
  | cons input inputs ih => exact ih

/-- From any state between two calls, the tokenizer goes on with the bytes that are left. -/
theorem run_receive (inputs : List Input) (messages : List (List UInt8)) (hwell : mst.WellFormed)
    (hnext : messageFormat.next mst.pending = .incomplete)
    (hstream : mst.pending ++ (inputs.map Input.buf).flatten = stream) :
    ∃ mst', Runs.run (Reading.receive alignFactor unspecified) ⟨mst, false, messages⟩ inputs =
        some ⟨mst', (messageFormat.tokenize stream).corrupt,
          messages ++ (messageFormat.tokenize stream).frames⟩ ∧
      ((messageFormat.tokenize stream).corrupt = false →
        mst'.pending = (messageFormat.tokenize stream).rest) := by
  induction inputs generalizing mst messages stream with
  | nil =>
    rw [map_nil, flatten_nil, append_nil] at hstream
    rw [← hstream, messageFormat.tokenize_of_incomplete hnext, append_nil]
    exact ⟨mst, rfl, fun _ ↦ rfl⟩
  | cons input inputs ih =>
    obtain ⟨received, hreceived⟩ : ∃ received, mst.pending ++ input.buf = received := ⟨_, rfl⟩
    have hrounds : received.length < mst.pos - mst.off + input.buf.length + 1 := by
      rw [← hreceived, length_append, hwell.length_pending]
      exact lt_succ_self _
    obtain ⟨mst', hreceive, hrest⟩ := receiveLoop_eq _ hwell hreceived hrounds
    rw [map_cons, flatten_cons, ← append_assoc, hreceived] at hstream
    rw [Runs.run_cons, Reading.receive, if_neg Bool.false_ne_true, mstReceive,
      if_pos ⟨hwell.off_le, hwell.pos_le⟩, hreceive, map_some, bind_some, ← hstream,
      messageFormat.tokenize_append]
    dsimp only
    rw [Bool.not_not]
    cases hcorrupt : (messageFormat.tokenize received).corrupt with
    | true =>
      rw [run_corrupt]
      exact ⟨mst', rfl, fun hcontra ↦ by cases hcontra⟩
    | false =>
      obtain ⟨hwell', hpending⟩ := hrest hcorrupt
      have hnext' := messageFormat.next_rest received
      rw [hcorrupt, ← hpending] at hnext'
      obtain ⟨mst'', hrun, hrest'⟩ :=
        ih (messages ++ (messageFormat.tokenize received).frames) hwell' hnext' rfl
      rw [hpending] at hrun hrest'
      rw [hrun, append_assoc]
      exact ⟨mst'', rfl, hrest'⟩

theorem wellFormed_mstCreate : mstCreate.WellFormed :=
  ⟨le_refl _, zero_le _, le_refl _⟩

end Stream

/-- However a stream is divided, wherever its parts are in memory: the callback is called with the
messages of the stream, `GNUNET_SYSERR` is returned for the part in which it becomes corrupt, and
otherwise the buffer holds the bytes that are left. -/
theorem mst_receives_stream (alignFactor : ℕ) (unspecified : ℕ → UInt8) (inputs : List Input) :
    ∃ reading, Runs.run (Reading.receive alignFactor unspecified) ⟨mstCreate, false, []⟩ inputs =
        some reading ∧
      reading.messages = (messageFormat.tokenize (inputs.map Input.buf).flatten).frames ∧
      reading.corrupt = (messageFormat.tokenize (inputs.map Input.buf).flatten).corrupt ∧
      (reading.corrupt = false →
        reading.messages.flatten ++ reading.mst.pending = (inputs.map Input.buf).flatten) := by
  obtain ⟨_, hrun, hrest⟩ := run_receive inputs [] wellFormed_mstCreate
    (messageFormat.next_of_no_header (by decide)) rfl
  refine ⟨_, hrun, rfl, rfl, fun hok ↦ ?_⟩
  have hpending := hrest hok
  rw [hpending]
  exact messageFormat.flatten_tokenize _

end Gnunet.Util
