import Gnunet.Core.KeyExchange
import Gnunet.Lib.Records
import Mathlib.Order.Nat

/-!
# Replay protection of encrypted messages

The receiver represents the set of numbers it has passed on by their maximum and a window of 32
bits.  Moving the maximum forward shifts the window but does not mark the old maximum in it, so
that the window stands for the accepted numbers that were never a maximum (`Window`).  The run
theorem states exactly which message sequences are handled as intended.
-/

namespace Gnunet.Core.KeyExchange

open Lib Lib.Records List

variable {Key Hash : Type}

/-- The maximum and the bits as they stand for a history of accepted numbers. -/
structure Window (kx : KeyExchangeInfo Key Hash) (history : List ℕ) : Prop where
  nonzero : 0 ∉ history
  last : kx.lastSequenceNumberReceived.toNat = largest history
  marked : ∀ d < 32, ∀ n, n + d + 1 = largest history →
    (kx.lastPacketsBitmap.getLsbD d = true ↔ n ∈ history ∧ n ∉ records history)

variable {history : List ℕ} {n : ℕ} {kx kx' : KeyExchangeInfo Key Hash}

/-- The numbers that the window cannot tell from fresh ones in reach. -/
def Accepts (history : List ℕ) (n : ℕ) : Prop :=
  largest history ≤ n + 32 ∧ largest history ≠ n ∧ (n ∈ history → n ∈ records history)

theorem accepts_of_fresh (hn : n ≠ 0) (hfresh : n ∉ history) (hreach : largest history ≤ n + 32) :
    Accepts history n := by
  refine ⟨hreach, ?_, fun hmem ↦ absurd hmem hfresh⟩
  rintro rfl
  exact hfresh (mem_of_mem_records (largest_mem_records (Nat.pos_of_ne_zero hn)))

/-- A number that is accepted is fresh, if no record but the largest is in reach. -/
theorem Accepts.fresh (h : Accepts history n) (hrecords : n ∈ records history →
    largest history ≤ n + 32 → n = largest history) : n ∉ history :=
  fun hmem ↦ h.2.1 (hrecords (h.2.2 hmem) h.1).symm

theorem window_nil (hlast : kx.lastSequenceNumberReceived = 0) : Window kx [] := by
  refine ⟨by simp, by simp [hlast], ?_⟩
  intro d _ n hn
  simp at hn

theorem Window.mark (h : Window kx history) (hn : n ≠ 0) (hlt : n < largest history)
    (hfresh : n ∉ history) (hlast : kx'.lastSequenceNumberReceived = kx.lastSequenceNumberReceived)
    (hbits : kx'.lastPacketsBitmap =
      BitWindow.mark kx.lastPacketsBitmap (largest history - n - 1)) :
    Window kx' (n :: history) := by
  have hlargest : largest (n :: history) = largest history := by simp [hlt.le]
  have hrecords : records (n :: history) = records history := by
    rw [records, if_neg (not_lt.mpr hlt.le)]
  refine ⟨by simp [hn.symm, h.nonzero], by rw [hlast, h.last, hlargest], ?_⟩
  intro d hd m hm
  rw [hlargest] at hm
  rw [hbits, BitWindow.getLsbD_mark, hrecords, Bool.or_eq_true, h.marked d hd m hm,
    decide_eq_true_eq, mem_cons]
  constructor
  · rintro (⟨hmem, hnot⟩ | ⟨-, hd'⟩)
    · exact ⟨.inr hmem, hnot⟩
    · obtain rfl : m = n := by omega
      exact ⟨.inl rfl, fun hrecord ↦ hfresh (mem_of_mem_records hrecord)⟩
  · rintro ⟨rfl | hmem, hnot⟩
    · exact .inr ⟨by omega, by omega⟩
    · exact .inl ⟨hmem, hnot⟩

/-- Accepting a new maximum shifts the bits; the old maximum, a record, stays unmarked. -/
theorem Window.advance (h : Window kx history) (hlt : largest history < n)
    (hlast : kx'.lastSequenceNumberReceived.toNat = n)
    (hbits : kx'.lastPacketsBitmap = BitWindow.advance kx.lastPacketsBitmap (n - largest history)) :
    Window kx' (n :: history) := by
  have hlargest : largest (n :: history) = n := by simp [hlt.le]
  have hrecords : records (n :: history) = n :: records history := by rw [records, if_pos hlt]
  have hn : n ≠ 0 := (Nat.zero_lt_of_lt hlt).ne'
  refine ⟨by simp [hn.symm, h.nonzero], by rw [hlast, hlargest], ?_⟩
  intro d hd m hm
  have hmn : m ≠ n := by omega
  rw [hbits, BitWindow.getLsbD_advance, hrecords]
  simp only [mem_cons, hmn, false_or, hd, decide_true, Bool.true_and, Bool.and_eq_true,
    decide_eq_true_eq]
  by_cases hshift : n - largest history ≤ d
  · rw [h.marked (d - (n - largest history)) (by omega) m (by omega)]
    simp [hshift]
  · simp only [hshift, false_and, false_iff, not_and, not_not]
    intro hmem
    have hle := le_largest hmem
    obtain rfl : m = largest history := by omega
    refine largest_mem_records (bot_lt_iff_ne_bot.mpr fun hbot ↦ h.nonzero ?_)
    rwa [hbot] at hmem

theorem checkSequenceNumber_eq (kx : KeyExchangeInfo Key Hash) (snum : UInt32) :
    let last := kx.lastSequenceNumberReceived.toNat
    checkSequenceNumber kx snum = if last = snum.toNat ∨ snum.toNat + 32 < last then none
      else if last < snum.toNat then
        some { kx with
          lastPacketsBitmap := BitWindow.advance kx.lastPacketsBitmap (snum.toNat - last)
          lastSequenceNumberReceived := snum }
      else if kx.lastPacketsBitmap.getLsbD (last - snum.toNat - 1) then none
      else some { kx with
        lastPacketsBitmap := BitWindow.mark kx.lastPacketsBitmap (last - snum.toNat - 1) } := by
  intro last
  unfold checkSequenceNumber
  simp only [UInt32.lt_iff_toNat_lt, ← UInt32.toNat_inj]
  rcases lt_trichotomy last snum.toNat with hlt | heq | hgt
  · have hsub : (snum - kx.lastSequenceNumberReceived).toNat = snum.toNat - last :=
      UInt32.toNat_sub_of_le _ _ (UInt32.le_iff_toNat_le.mpr hlt.le)
    have hnear : ¬ (last = snum.toNat ∨ snum.toNat + 32 < last) := by omega
    rw [if_neg hlt.ne, if_neg fun h ↦ absurd h.1 hlt.not_gt, if_neg hlt.not_gt, hsub,
      if_neg hnear, if_pos hlt]
    rfl
  · rw [if_pos heq, if_pos (.inl heq)]
  · have hsub : (kx.lastSequenceNumberReceived - snum).toNat = last - snum.toNat :=
      UInt32.toNat_sub_of_le _ _ (UInt32.le_iff_toNat_le.mpr hgt.le)
    have hone : (1 : UInt32).toNat ≤ last - snum.toNat := Nat.sub_pos_of_lt hgt
    have hfar : snum.toNat < kx.lastSequenceNumberReceived.toNat ∧
        (32 : UInt32).toNat < last - snum.toNat ↔
          last = snum.toNat ∨ snum.toNat + 32 < last := by
      change _ ∧ 32 < _ ↔ _
      omega
    rw [if_neg hgt.ne', hsub, UInt32.toNat_sub_of_le _ _ (UInt32.le_iff_toNat_le.mpr (hsub ▸ hone)),
      hsub, if_pos hgt, if_neg hgt.not_gt]
    simp only [hfar, ne_eq, BitWindow.and_one_shiftLeft_eq_zero_iff, Bool.not_eq_false]
    rfl

theorem Window.check_eq_none_iff (h : Window kx history) (snum : UInt32) :
    checkSequenceNumber kx snum = none ↔ ¬ Accepts history snum.toNat := by
  rw [checkSequenceNumber_eq, h.last, Accepts]
  split_ifs with hrefused hnew hbit
  · simp only [true_iff]
    omega
  · have hfresh : snum.toNat ∉ history := fun hmem ↦ absurd (le_largest hmem) (not_le.mpr hnew)
    simp only [false_iff, not_not]
    exact ⟨by omega, hnew.ne, fun hmem ↦ absurd hmem hfresh⟩
  · obtain ⟨hmem, hnot⟩ := (h.marked _ (by omega) snum.toNat (by omega)).mp hbit
    simp [hmem, hnot]
  · have hmarked := h.marked _ (by omega) snum.toNat (by omega) |>.not.mp hbit
    simp only [false_iff, not_not]
    exact ⟨by omega, by omega, fun hmem ↦ not_not.mp fun hnot ↦ hmarked ⟨hmem, hnot⟩⟩

theorem Window.check_some (h : Window kx history) {snum : UInt32} (hn : snum.toNat ≠ 0)
    (hsome : checkSequenceNumber kx snum = some kx') :
    snum.toNat ∉ history → Window kx' (snum.toNat :: history) := by
  rw [checkSequenceNumber_eq, h.last] at hsome
  split_ifs at hsome with hrefused hnew hbit <;> cases hsome
  · exact fun _ ↦ h.advance hnew rfl rfl
  · exact fun hfresh ↦ h.mark hn (by omega) hfresh rfl rfl

def numbers (state : State Key Hash) : List ℕ :=
  state.delivered.map fun delivery ↦ delivery.sequenceNumber.toNat

def InSession (status : KxStateMachine) : Prop :=
  status = .up ∨ status = .rekey ∨ status = .rekeySent

structure Authentic (crypto : Crypto Key Hash) (kx : KeyExchangeInfo Key Hash)
    (message : EncryptedMessage Hash) (plaintext : List UInt8) : Prop where
  size : sizeofEncryptedMessage + sizeofMessageHeader ≤ encryptedHeaderSize + message.body.length
  size_lt : encryptedHeaderSize + message.body.length < 2 ^ 16
  hmac : crypto.hmac kx.decryptKey message.ivSeed kx.decryptKeyCreated message.body = message.hmac
  decrypt : crypto.aesDecrypt kx.decryptKey message.ivSeed message.body = some plaintext

def Recent (now : UInt64) (plaintext : List UInt8) : Prop :=
  now < timestampOf plaintext ∨ now - timestampOf plaintext ≤ maxMessageAge

/-- There is a session, or no message waits for one. -/
def NoneWaits (kx : KeyExchangeInfo Key Hash) : Prop :=
  InSession kx.status ∨ kx.emsgReceived = none

/-- What may happen under one session key: authentic, recent messages with non-zero sequence numbers
arrive during the session, rekeying takes its course, the session times out and comes back, and
SET_KEY messages are refused or repeat the key. -/
def Admissible (crypto : Crypto Key Hash) (state : State Key Hash) : Event Key Hash → Prop
  | .encrypted now message => InSession state.kx.status ∧
      ∃ plaintext, Authentic crypto state.kx message plaintext ∧
        (sequenceNumberOf plaintext).toNat ≠ 0 ∧ Recent now plaintext
  | .setKey _ message => NoneWaits state.kx ∧ (message.sessionKey = none ∨
      message.sessionKey = some state.kx.decryptKey ∧
        message.creationTime = state.kx.decryptKeyCreated)
  | .pong _ _ => NoneWaits state.kx
  | .triggerRekey | .setKeyRetry | .sessionTimeout => True

/-- The number is larger than, or at most 32 behind, every number passed on so far. -/
def InReach (history : List ℕ) (n : ℕ) : Prop := largest history ≤ n + 32

variable [DecidableEq Hash]

/-- The step returns, no number is passed on twice, and a fresh message in reach is passed on. -/
def Protected (crypto : Crypto Key Hash) (state : State Key Hash) (event : Event Key Hash) :
    Prop :=
  ∃ next, step crypto state event = some next ∧ (numbers next).Nodup ∧
    ∀ now message plaintext, event = .encrypted now message →
      Authentic crypto state.kx message plaintext →
      (sequenceNumberOf plaintext).toNat ∉ numbers state →
      InReach (numbers state) (sequenceNumberOf plaintext).toNat →
      next.delivered = ⟨sequenceNumberOf plaintext, payloadOf plaintext⟩ :: state.delivered

/-- A number that was the largest one when it was passed on does not come back 1 to 32 behind, and a
fresh message in reach comes neither in status REKEY nor with time stamp `FOREVER`. -/
def Tracked (crypto : Crypto Key Hash) (state : State Key Hash) (event : Event Key Hash) :
    Prop :=
  ∀ now message plaintext, event = .encrypted now message →
    Authentic crypto state.kx message plaintext →
    (state.kx.status ≠ .rekey →
      (sequenceNumberOf plaintext).toNat ∈ records (numbers state) →
      InReach (numbers state) (sequenceNumberOf plaintext).toNat →
      (sequenceNumberOf plaintext).toNat = largest (numbers state)) ∧
    ((sequenceNumberOf plaintext).toNat ∉ numbers state →
      InReach (numbers state) (sequenceNumberOf plaintext).toNat →
      state.kx.status ≠ .rekey ∧ timestampOf plaintext ≠ UInt64.ofNat (2 ^ 64 - 1))

structure Tidy (state : State Key Hash) : Prop where
  window : Window state.kx (numbers state)
  nodup : (numbers state).Nodup

/-- A session starts with a window that a SET_KEY message has just reset. -/
structure Started (state : State Key Hash) : Prop where
  session : InSession state.kx.status
  last : state.kx.lastSequenceNumberReceived = 0
  bitmap : state.kx.lastPacketsBitmap = 0#32
  delivered : state.delivered = []

variable {state : State Key Hash} {crypto : Crypto Key Hash} {event : Event Key Hash}

omit [DecidableEq Hash] in
theorem Started.tidy (h : Started state) : Tidy state := by
  have hnumbers : numbers state = [] := by simp [numbers, h.delivered]
  exact ⟨hnumbers ▸ window_nil h.last, by simp [hnumbers]⟩

omit [DecidableEq Hash] in
theorem Tidy.of_kx {state' : State Key Hash} (h : Tidy state)
    (hlast : state'.kx.lastSequenceNumberReceived = state.kx.lastSequenceNumberReceived)
    (hbitmap : state'.kx.lastPacketsBitmap = state.kx.lastPacketsBitmap)
    (hdelivered : state'.delivered = state.delivered) : Tidy state' := by
  have hnumbers : numbers state' = numbers state := by rw [numbers, hdelivered, numbers]
  refine ⟨⟨?_, ?_, ?_⟩, hnumbers ▸ h.nodup⟩
  · rw [hnumbers]
    exact h.window.nonzero
  · rw [hnumbers, hlast]
    exact h.window.last
  · rw [hnumbers, hbitmap]
    exact h.window.marked

omit [DecidableEq Hash] in
theorem Tidy.sendKey (h : Tidy state) : Tidy (sendKey state) := by
  unfold KeyExchange.sendKey
  split
  · exact h.of_kx rfl rfl rfl
  · exact h.of_kx rfl rfl rfl
  all_goals exact h

theorem Tidy.handlePong (h : Tidy state) (crypto : Crypto Key Hash) (now : UInt64)
    (confirms : Bool) (hwaits : NoneWaits state.kx) :
    ∃ next, handlePong crypto now state confirms = some next ∧ Tidy next := by
  unfold KeyExchange.handlePong
  cases hs : state.kx.status with
  | keyReceived =>
    -- outside a session no message waits for the confirmation
    have hnone : state.kx.emsgReceived = none := by
      refine hwaits.resolve_left ?_
      rintro (hother | hother | hother) <;> cases hs.symm.trans hother
    cases confirms with
    | false => exact ⟨state, rfl, h⟩
    | true =>
      refine ⟨{ state with kx := { state.kx with status := .up } }, by simp [hnone], ?_⟩
      exact h.of_kx rfl rfl rfl
  | rekeySent =>
    cases confirms with
    | false => exact ⟨state, rfl, h⟩
    | true => exact ⟨_, rfl, h.of_kx rfl rfl rfl⟩
  | keySent => exact ⟨_, rfl, h.of_kx rfl rfl rfl⟩
  | down | up | rekey => exact ⟨state, rfl, h⟩

omit [DecidableEq Hash] in
theorem Tidy.setKeyStatus (h : Tidy state) (senderStatus : ℕ) :
    Tidy (setKeyStatus senderStatus state) := by
  unfold KeyExchange.setKeyStatus
  split
  · exact h.of_kx rfl rfl rfl
  · exact h.of_kx rfl rfl rfl
  · exact h
  all_goals
    split
    · exact h.sendKey
    · exact h

omit [DecidableEq Hash] in
theorem NoneWaits.setKeyStatus (h : NoneWaits state.kx) (senderStatus : ℕ) :
    NoneWaits (setKeyStatus senderStatus state).kx := by
  unfold KeyExchange.setKeyStatus KeyExchange.sendKey
  rcases h with (hs | hs | hs) | hnone
  · simp only [hs]
    split <;> exact .inl (.inl hs)
  · simp only [hs]
    split
    · exact .inl (.inr (.inr rfl))
    · exact .inl (.inr (.inl hs))
  · simp only [hs]
    split <;> exact .inl (.inr (.inr hs))
  · refine .inr ?_
    split <;> try split
    all_goals try split
    all_goals exact hnone

theorem Tidy.handleSetKey (h : Tidy state) {now : UInt64} {message : SetKeyMessage Key}
    (hadmissible : Admissible crypto state (.setKey now message)) :
    ∃ next, handleSetKey crypto now state message = some next ∧ Tidy next := by
  unfold KeyExchange.handleSetKey
  obtain ⟨hwaits, hnone | ⟨hkey, htime⟩⟩ := hadmissible
  · exact ⟨state, by simp [hnone], h⟩
  · have hinstall : installKey state state.kx.decryptKey message.creationTime = state := by
      simp [installKey, htime]
    have hstatus := h.setKeyStatus message.senderStatus
    rw [if_neg (fun hold ↦ UInt64.lt_irrefl _ (htime ▸ hold.2)), hkey]
    dsimp only
    rw [hinstall]
    cases hpong : (KeyExchange.setKeyStatus message.senderStatus state).kx.pongReceived with
    | none => exact ⟨_, rfl, hstatus⟩
    | some confirms =>
      have hcleared : Tidy { KeyExchange.setKeyStatus message.senderStatus state with
          kx := { (KeyExchange.setKeyStatus message.senderStatus state).kx with
            pongReceived := none } } :=
        hstatus.of_kx rfl rfl rfl
      exact hcleared.handlePong crypto now confirms (hwaits.setKeyStatus message.senderStatus)

theorem Tidy.step_handshake (h : Tidy state) (hadmissible : Admissible crypto state event)
    (hevent : ∀ now message, event ≠ .encrypted now message) :
    ∃ next, step crypto state event = some next ∧ Tidy next := by
  cases event with
  | setKey now message => exact h.handleSetKey hadmissible
  | pong now confirms => exact h.handlePong crypto now confirms hadmissible
  | triggerRekey => exact ⟨_, rfl, h.of_kx rfl rfl rfl⟩
  | setKeyRetry => exact ⟨_, rfl, h.sendKey⟩
  | sessionTimeout => exact ⟨_, rfl, Tidy.sendKey (h.of_kx rfl rfl rfl)⟩
  | encrypted now message => exact absurd rfl (hevent now message)

section Encrypted

variable {crypto : Crypto Key Hash} {state : State Key Hash} {now : UInt64}
  {message : EncryptedMessage Hash} {plaintext : List UInt8}

omit [DecidableEq Hash] in
theorem Authentic.unique {plaintext' : List UInt8} (h : Authentic crypto kx message plaintext)
    (h' : Authentic crypto kx message plaintext') :
    plaintext = plaintext' :=
  Option.some.inj (h.decrypt.symm.trans h'.decrypt)

theorem step_encrypted (hsession : InSession state.kx.status)
    (hauthentic : Authentic crypto state.kx message plaintext) :
    step crypto state (.encrypted now message) =
      if state.kx.status = .rekey then some state else handlePlaintext now state plaintext := by
  have hlength : ¬ 65536 ≤ message.body.length := by
    have hlt := hauthentic.size_lt
    omega
  rw [step, handleEncryptedMessage, if_neg (not_lt.mpr hauthentic.size)]
  rcases hsession with hs | hs | hs <;>
    simp [hs, handleCiphertext, hauthentic.hmac, doDecrypt, hlength, hauthentic.decrypt]

omit [DecidableEq Hash] in
theorem handlePlaintext_recent (hrecent : Recent now plaintext) :
    handlePlaintext now state plaintext =
      match checkSequenceNumber state.kx (sequenceNumberOf plaintext) with
      | none => some state
      | some kx =>
        if timestampOf plaintext = UInt64.ofNat (2 ^ 64 - 1) then none
        else some
          { kx := kx
            delivered :=
              ⟨sequenceNumberOf plaintext, payloadOf plaintext⟩ :: state.delivered } := by
  unfold handlePlaintext
  cases checkSequenceNumber state.kx (sequenceNumberOf plaintext) with
  | none => rfl
  | some kx =>
    dsimp only
    unfold absoluteGetDuration
    split
    · rfl
    · by_cases hearly : now < timestampOf plaintext
      · rw [if_pos hearly, Option.map_some, if_neg (by decide)]
      · have hage := UInt64.not_lt.mpr (hrecent.resolve_left hearly)
        rw [if_neg hearly, Option.map_some, if_neg hage]

theorem Tidy.encrypted_cases (h : Tidy state) (hsession : InSession state.kx.status)
    (hauthentic : Authentic crypto state.kx message plaintext)
    (hn : (sequenceNumberOf plaintext).toNat ≠ 0) (hrecent : Recent now plaintext) :
    ((state.kx.status = .rekey ∨ ¬ Accepts (numbers state) (sequenceNumberOf plaintext).toNat) ∧
      step crypto state (.encrypted now message) = some state) ∨
    (state.kx.status ≠ .rekey ∧ Accepts (numbers state) (sequenceNumberOf plaintext).toNat ∧
      timestampOf plaintext = UInt64.ofNat (2 ^ 64 - 1) ∧
      step crypto state (.encrypted now message) = none) ∨
    (state.kx.status ≠ .rekey ∧ Accepts (numbers state) (sequenceNumberOf plaintext).toNat ∧
      timestampOf plaintext ≠ UInt64.ofNat (2 ^ 64 - 1) ∧
      ∃ next, step crypto state (.encrypted now message) = some next ∧
        next.delivered = ⟨sequenceNumberOf plaintext, payloadOf plaintext⟩ :: state.delivered ∧
        ((sequenceNumberOf plaintext).toNat ∉ numbers state → Tidy next)) := by
  rw [step_encrypted hsession hauthentic]
  by_cases hs : state.kx.status = .rekey
  · exact .inl ⟨.inl hs, if_pos hs⟩
  rw [if_neg hs, handlePlaintext_recent hrecent]
  cases hcheck : checkSequenceNumber state.kx (sequenceNumberOf plaintext) with
  | none => exact .inl ⟨.inr ((h.window.check_eq_none_iff _).mp hcheck), rfl⟩
  | some kx =>
    have haccepts : Accepts (numbers state) (sequenceNumberOf plaintext).toNat := by
      by_contra hnot
      rw [(h.window.check_eq_none_iff _).mpr hnot] at hcheck
      cases hcheck
    by_cases htime : timestampOf plaintext = UInt64.ofNat (2 ^ 64 - 1)
    · exact .inr (.inl ⟨hs, haccepts, htime, if_pos htime⟩)
    · refine .inr (.inr ⟨hs, haccepts, htime, _, if_neg htime, rfl, fun hfresh ↦ ?_⟩)
      exact ⟨h.window.check_some hn hcheck hfresh, nodup_cons.mpr ⟨hfresh, h.nodup⟩⟩

theorem Tidy.protected_iff_encrypted (h : Tidy state)
    (hadmissible : Admissible crypto state (.encrypted now message)) :
    Protected crypto state (.encrypted now message) ↔
      Tracked crypto state (.encrypted now message) := by
  obtain ⟨hsession, plaintext, hauthentic, hn, hrecent⟩ := hadmissible
  constructor
  · rintro ⟨next, hnext, hnodup, hpass⟩ now' message' plaintext' ⟨⟩ hauthentic'
    obtain rfl := hauthentic.unique hauthentic'
    have hpass := hpass _ _ _ rfl hauthentic'
    rcases h.encrypted_cases hsession hauthentic hn hrecent with ⟨hkept, hstep⟩ |
      ⟨hs, haccepts, htime, hstep⟩ | ⟨hs, haccepts, htime, next', hstep, hdelivered, -⟩ <;>
      rw [hstep] at hnext <;> cases hnext
    · refine ⟨fun hs hrecord hreach ↦ ?_, fun hfresh hreach ↦ ?_⟩
      · by_contra hne
        exact hkept.resolve_left hs ⟨hreach, Ne.symm hne, fun _ ↦ hrecord⟩
      · exact absurd (hpass hfresh hreach) (by simp)
    · have hfresh : (sequenceNumberOf plaintext).toNat ∉ numbers state := by
        rw [numbers, hdelivered, map_cons, nodup_cons] at hnodup
        exact hnodup.1
      exact ⟨fun _ hrecord ↦ absurd (mem_of_mem_records hrecord) hfresh, fun _ _ ↦ ⟨hs, htime⟩⟩
  · intro htracked
    obtain ⟨hrecords, hfresh⟩ := htracked _ _ _ rfl hauthentic
    rcases h.encrypted_cases hsession hauthentic hn hrecent with ⟨hkept, hstep⟩ |
      ⟨hs, haccepts, htime, hstep⟩ | ⟨hs, haccepts, htime, next, hstep, hdelivered, htidy⟩
    · refine ⟨state, hstep, h.nodup, ?_⟩
      rintro _ _ plaintext' ⟨⟩ hauthentic' hfresh' hreach
      obtain rfl := hauthentic.unique hauthentic'
      exact absurd (accepts_of_fresh hn hfresh' hreach)
        (hkept.resolve_left (hfresh hfresh' hreach).1)
    · exact absurd htime (hfresh (haccepts.fresh (hrecords hs)) haccepts.1).2
    · refine ⟨next, hstep, (htidy (haccepts.fresh (hrecords hs))).nodup, ?_⟩
      rintro _ _ plaintext' ⟨⟩ hauthentic' - -
      obtain rfl := hauthentic.unique hauthentic'
      exact hdelivered

end Encrypted

theorem Tidy.protected_iff (h : Tidy state) (hadmissible : Admissible crypto state event) :
    Protected crypto state event ↔ Tracked crypto state event := by
  by_cases hevent : ∃ now message, event = .encrypted now message
  · obtain ⟨now, message, rfl⟩ := hevent
    exact h.protected_iff_encrypted hadmissible
  · have hother : ∀ now message, event ≠ .encrypted now message :=
      fun now message heq ↦ hevent ⟨now, message, heq⟩
    obtain ⟨next, hnext, htidy⟩ := h.step_handshake hadmissible hother
    have htracked : Tracked crypto state event :=
      fun now message _ heq ↦ absurd heq (hother now message)
    have hprotected : Protected crypto state event :=
      ⟨next, hnext, htidy.nodup, fun now message _ heq ↦ absurd heq (hother now message)⟩
    exact iff_of_true hprotected htracked

theorem Tidy.step {next : State Key Hash} (h : Tidy state)
    (hadmissible : Admissible crypto state event) (htracked : Tracked crypto state event)
    (hstep : step crypto state event = some next) :
    Tidy next := by
  cases event with
  | encrypted now message =>
    obtain ⟨hsession, _, hauthentic, hn, hrecent⟩ := hadmissible
    obtain ⟨hrecords, -⟩ := htracked _ _ _ rfl hauthentic
    rcases h.encrypted_cases hsession hauthentic hn hrecent with ⟨-, hstep'⟩ |
      ⟨-, -, -, hstep'⟩ | ⟨hs, haccepts, -, next', hstep', -, htidy⟩ <;>
      rw [hstep'] at hstep <;> cases hstep
    · exact h
    · exact htidy (haccepts.fresh (hrecords hs))
  | setKey | pong | triggerRekey | setKeyRetry | sessionTimeout =>
    obtain ⟨next', hnext, htidy⟩ :=
      h.step_handshake hadmissible (fun now message heq ↦ by cases heq)
    rw [hstep] at hnext
    cases hnext
    exact htidy

def nullCrypto : Crypto Unit (List UInt8) where
  hmac _ _ _ body := body
  aesDecrypt _ _ body := some body

def nullMessage (snum : UInt8) : EncryptedMessage (List UInt8) where
  ivSeed := 0
  hmac := 0 :: 0 :: 0 :: snum :: replicate 16 0
  body := 0 :: 0 :: 0 :: snum :: replicate 16 0

def nullSession : State Unit (List UInt8) where
  kx :=
    { status := .up
      decryptKey := ()
      decryptKeyCreated := 0
      lastPacketsBitmap := 0#32
      lastSequenceNumberReceived := 0
      emsgReceived := none
      pongReceived := none }
  delivered := []

theorem started_nullSession : Started nullSession := ⟨.inl rfl, rfl, rfl, rfl⟩

theorem admissible_nullMessage {state : State Unit (List UInt8)} {snum : UInt8}
    (hsession : InSession state.kx.status) (h : snum ≠ 0) :
    Admissible nullCrypto state (.encrypted 0 (nullMessage snum)) := by
  have hnumber : (sequenceNumberOf (nullMessage snum).body).toNat = snum.toNat := by
    have hlt := snum.toNat_lt
    change (0 + snum.toNat) % 2 ^ 32 = snum.toNat
    omega
  have hlength : (nullMessage snum).body.length = 20 := rfl
  refine ⟨hsession, (nullMessage snum).body, ⟨?_, ?_, rfl, rfl⟩, ?_, .inr ?_⟩
  · rw [hlength]
    decide
  · rw [hlength]
    decide
  · rw [hnumber]
    exact fun hzero ↦ h (UInt8.toNat_inj.mp hzero)
  · rw [show timestampOf (nullMessage snum).body = 0 from rfl]
    decide

/-- Every step of a session passes each number on at most once and loses no fresh message in
reach, exactly if no record comes back within reach and no fresh message in reach comes in status
REKEY or with the time stamp `FOREVER`. -/
theorem along_protected_iff_along_tracked (crypto : Crypto Key Hash) (state : State Key Hash)
    (events : List (Event Key Hash)) (hstarted : Started state)
    (hadmissible : Runs.Along (step crypto) (Admissible crypto) state events) :
    Runs.Along (step crypto) (Protected crypto) state events ↔
      Runs.Along (step crypto) (Tracked crypto) state events :=
  Runs.along_iff_along (fun _ _ _ h hadmissible htracked hstep ↦ h.step hadmissible htracked hstep)
    (fun _ _ h hadmissible ↦ h.protected_iff hadmissible) hstarted.tidy hadmissible

/-- Numbers 5 and 7 arrive; the session times out and comes back with the same key, and number 6
arrives twice. -/
def interrupted : List (Event Unit (List UInt8)) :=
  [.encrypted 0 (nullMessage 5), .encrypted 0 (nullMessage 7), .sessionTimeout,
    .setKey 0 ⟨1, 0, some ()⟩, .pong 0 true, .encrypted 0 (nullMessage 6),
    .encrypted 0 (nullMessage 6)]

theorem along_protected_interrupted :
    (Started nullSession ∧
      Runs.Along (step nullCrypto) (Admissible nullCrypto) nullSession interrupted) ∧
    (Runs.Along (step nullCrypto) (Protected nullCrypto) nullSession interrupted ↔
      Runs.Along (step nullCrypto) (Tracked nullCrypto) nullSession interrupted) := by
  have hadmissible :
      Runs.Along (step nullCrypto) (Admissible nullCrypto) nullSession interrupted := by
    refine ⟨admissible_nullMessage (.inl rfl) (by decide), fun five hfive ↦ ?_⟩
    cases hfive
    refine ⟨admissible_nullMessage (.inl rfl) (by decide), fun seven hseven ↦ ?_⟩
    cases hseven
    refine ⟨trivial, fun down hdown ↦ ?_⟩
    cases hdown
    refine ⟨⟨.inr rfl, .inr ⟨rfl, rfl⟩⟩, fun received hreceived ↦ ?_⟩
    cases hreceived
    refine ⟨.inr rfl, fun up hup ↦ ?_⟩
    cases hup
    refine ⟨admissible_nullMessage (.inl rfl) (by decide), fun six hsix ↦ ?_⟩
    cases hsix
    exact ⟨admissible_nullMessage (.inl rfl) (by decide), fun _ _ ↦ trivial⟩
  exact ⟨⟨started_nullSession, hadmissible⟩,
    along_protected_iff_along_tracked _ _ _ started_nullSession hadmissible⟩

/-- Number 5 arrives, then 6, then 5 again: number 5 is passed on twice. -/
theorem replay_passed_on :
    Started nullSession ∧
    Runs.Along (step nullCrypto) (Admissible nullCrypto) nullSession
      ([5, 6, 5].map fun snum ↦ .encrypted 0 (nullMessage snum)) ∧
    ∃ last, Runs.run (step nullCrypto) nullSession
        ([5, 6, 5].map fun snum ↦ .encrypted 0 (nullMessage snum)) = some last ∧
      numbers last = [5, 6, 5] := by
  refine ⟨started_nullSession, ?_, _, rfl, by decide⟩
  refine ⟨admissible_nullMessage (.inl rfl) (by decide), fun five hfive ↦ ?_⟩
  cases hfive
  refine ⟨admissible_nullMessage (.inl rfl) (by decide), fun six hsix ↦ ?_⟩
  cases hsix
  exact ⟨admissible_nullMessage (.inl rfl) (by decide), fun _ _ ↦ trivial⟩

end Gnunet.Core.KeyExchange
