import Gnunet.Core.ReplayProtection

/-!
# The age of the session key

Creation times tell a new SET_KEY message from a recorded one. `GSC_KX_handle_set_key` compares them
in the states KEY_RECEIVED and UP, but not in the states of a rekey operation.
-/

namespace Gnunet.Core.KeyExchange

open Lib Option

variable {Key Hash : Type} [DecidableEq Hash] {state next : State Key Hash}
  {crypto : Crypto Key Hash} {event : Event Key Hash} {now : UInt64}

omit [DecidableEq Hash] in
theorem created_handlePlaintext {plaintext : List UInt8}
    (h : handlePlaintext now state plaintext = some next) :
    next.kx.decryptKeyCreated = state.kx.decryptKeyCreated := by
  unfold handlePlaintext at h
  split at h
  · rw [some.inj h]
  next kx hcheck =>
    obtain ⟨_, -, rfl⟩ := map_eq_some_iff.mp h
    unfold checkSequenceNumber at hcheck
    grind

theorem created_handleEncryptedMessage {message : EncryptedMessage Hash}
    (h : handleEncryptedMessage crypto now state message = some next) :
    next.kx.decryptKeyCreated = state.kx.decryptKeyCreated := by
  unfold handleEncryptedMessage handleCiphertext at h
  grind [created_handlePlaintext]

theorem created_handlePong {confirms : Bool}
    (h : handlePong crypto now state confirms = some next) :
    next.kx.decryptKeyCreated = state.kx.decryptKeyCreated := by
  unfold handlePong at h
  split at h
  case h_3 =>
    split_ifs at h
    · split at h
      · cases h
        rfl
      · have hnext := created_handleEncryptedMessage h
        exact hnext
    · rw [some.inj h]
  case h_6 =>
    split_ifs at h
    all_goals
      cases h
      rfl
  all_goals
    cases h
    rfl

omit [DecidableEq Hash] in
@[simp] theorem created_sendKey (state : State Key Hash) :
    (sendKey state).kx.decryptKeyCreated = state.kx.decryptKeyCreated := by
  unfold sendKey
  split <;> rfl

omit [DecidableEq Hash] in
theorem created_setKeyStatus (senderStatus : ℕ) (key : Key) (creationTime : UInt64) :
    (setKeyStatus senderStatus (installKey state key creationTime)).kx.decryptKeyCreated =
      creationTime := by
  have hinstalled : (installKey state key creationTime).kx.decryptKeyCreated = creationTime := by
    unfold installKey
    split_ifs with hnew
    · rfl
    · exact not_not.mp hnew
  unfold setKeyStatus
  split <;> try split_ifs
  all_goals simp only [created_sendKey, hinstalled]

/-- A SET_KEY message is refused, or its key is installed, whatever else it starts. -/
theorem handleSetKey_cases {message : SetKeyMessage Key}
    (h : handleSetKey crypto now state message = some next) :
    next = state ∨ next.kx.decryptKeyCreated = message.creationTime ∧
      ((state.kx.status = .keyReceived ∨ state.kx.status = .up) →
        state.kx.decryptKeyCreated ≤ message.creationTime) ∧ message.sessionKey.isSome := by
  unfold handleSetKey at h
  split_ifs at h with hrefused
  · exact .inl (some.inj h).symm
  · have hcheck (hstatus : state.kx.status = .keyReceived ∨ state.kx.status = .up) :
        state.kx.decryptKeyCreated ≤ message.creationTime :=
      UInt64.not_lt.mp fun hlt ↦ hrefused ⟨hstatus, hlt⟩
    cases hkey : message.sessionKey with
    | none =>
      rw [hkey] at h
      exact .inl (some.inj h).symm
    | some key =>
      rw [hkey] at h
      refine .inr ⟨?_, hcheck, rfl⟩
      dsimp only at h
      split at h
      · exact some.inj h ▸ created_setKeyStatus _ _ _
      · exact (created_handlePong h).trans (created_setKeyStatus _ _ _)

theorem exists_handleSetKey (crypto : Crypto Key Hash) (now : UInt64)
    {message : SetKeyMessage Key} (hkey : message.sessionKey.isSome)
    (hrekey : state.kx.status = .rekey ∨ state.kx.status = .rekeySent) :
    ∃ next, handleSetKey crypto now state message = some next ∧
      next.kx.decryptKeyCreated = message.creationTime := by
  obtain ⟨key, hkey⟩ := isSome_iff_exists.mp hkey
  have hpasses : ¬((state.kx.status = .keyReceived ∨ state.kx.status = .up) ∧
      message.creationTime < state.kx.decryptKeyCreated) := by
    rcases hrekey with h | h <;> simp [h]
  have hcreated := @created_setKeyStatus _ _ state message.senderStatus key message.creationTime
  have hstatus : ∀ other : State Key Hash,
      other = setKeyStatus message.senderStatus (installKey state key message.creationTime) →
      other.kx.status = .rekey ∨ other.kx.status = .rekeySent := by
    unfold setKeyStatus installKey sendKey
    rcases hrekey with h | h <;> split_ifs <;> simp [h]
  rw [handleSetKey, if_neg hpasses, hkey]
  dsimp only
  split
  · exact ⟨_, rfl, hcreated⟩
  · rcases hstatus _ rfl with h | h <;> simp only [handlePong, h]
    · exact ⟨_, rfl, hcreated⟩
    · split_ifs <;> exact ⟨_, rfl, hcreated⟩

/-- A session key was accepted. -/
def HasKey (state : State Key Hash) : Prop :=
  state.kx.status ≠ .down ∧ state.kx.status ≠ .keySent

/-- The creation time does not decrease, and an older SET_KEY message changes nothing. -/
def KeepsAge (crypto : Crypto Key Hash) (state : State Key Hash) (event : Event Key Hash) : Prop :=
  HasKey state → ∀ next, step crypto state event = some next →
    state.kx.decryptKeyCreated ≤ next.kx.decryptKeyCreated ∧
    ∀ now message, event = .setKey now message →
      message.creationTime < state.kx.decryptKeyCreated → next = state

/-- A key that arrives during a rekey operation is not older than the one in use. -/
def NoOldKey (state : State Key Hash) : Event Key Hash → Prop
  | .setKey _ message => message.sessionKey.isSome →
    (state.kx.status = .rekey ∨ state.kx.status = .rekeySent) →
      state.kx.decryptKeyCreated ≤ message.creationTime
  | _ => True

theorem keepsAge_of_noOldKey (h : NoOldKey state event) : KeepsAge crypto state event := by
  intro hkey next hnext
  cases event with
  | setKey now message =>
    rcases handleSetKey_cases hnext with rfl | ⟨hcreated, hcheck, hsession⟩
    · exact ⟨UInt64.le_refl _, fun _ _ _ _ ↦ rfl⟩
    · have hle : state.kx.decryptKeyCreated ≤ message.creationTime := by
        -- in the states KEY_RECEIVED and UP the handler itself has compared the times
        cases hs : state.kx.status with
        | down => exact absurd hs hkey.1
        | keySent => exact absurd hs hkey.2
        | keyReceived => exact hcheck (.inl hs)
        | up => exact hcheck (.inr hs)
        | rekey => exact h hsession (.inl hs)
        | rekeySent => exact h hsession (.inr hs)
      refine ⟨hcreated ▸ hle, ?_⟩
      rintro _ _ ⟨⟩ hlt
      exact absurd hle (UInt64.not_le.mpr hlt)
  | pong now confirms => exact ⟨UInt64.le_of_eq (created_handlePong hnext).symm, nofun⟩
  | triggerRekey =>
    cases hnext
    exact ⟨UInt64.le_refl _, nofun⟩
  | setKeyRetry =>
    cases hnext
    exact ⟨UInt64.le_of_eq (created_sendKey state).symm, nofun⟩
  | sessionTimeout =>
    cases hnext
    have hcreated : (sessionTimeout state).kx.decryptKeyCreated = state.kx.decryptKeyCreated :=
      created_sendKey _
    exact ⟨UInt64.le_of_eq hcreated.symm, nofun⟩
  | encrypted now message =>
    exact ⟨UInt64.le_of_eq (created_handleEncryptedMessage hnext).symm, nofun⟩

theorem keepsAge_iff : KeepsAge crypto state event ↔ NoOldKey state event := by
  refine ⟨fun h ↦ ?_, keepsAge_of_noOldKey⟩
  cases event with
  | setKey now message =>
    intro hsession hrekey
    obtain ⟨next, hnext, hcreated⟩ := exists_handleSetKey crypto now hsession hrekey
    have hkey : HasKey state := by
      rcases hrekey with hs | hs <;> simp [HasKey, hs]
    exact hcreated ▸ (h hkey next hnext).1
  | _ => trivial

/-- Along every run the creation time of the key of a session never decreases and older SET_KEY
messages change nothing, exactly if no older key arrives during a rekey operation. -/
theorem session_keeps_age_iff (crypto : Crypto Key Hash) (state : State Key Hash)
    (events : List (Event Key Hash)) :
    Runs.Along (step crypto) (KeepsAge crypto) state events ↔
      Runs.Along (step crypto) NoOldKey state events := by
  have hsame : KeepsAge crypto = NoOldKey := by
    funext state event
    exact propext keepsAge_iff
  rw [hsame]

/-- During a rekey operation a recorded SET_KEY message brings an old key back. -/
theorem old_key_reinstalled :
    ∃ before last, Runs.run (step nullCrypto) nullSession
        [.setKey 0 ⟨2, 9, some ()⟩, .encrypted 0 (nullMessage 5), .triggerRekey] = some before ∧
      before.kx.decryptKeyCreated = 9 ∧ before.kx.lastSequenceNumberReceived = 5 ∧
      step nullCrypto before (.setKey 0 ⟨2, 4, some ()⟩) = some last ∧
      last.kx.decryptKeyCreated = 4 ∧ last.kx.lastSequenceNumberReceived = 0 :=
  ⟨_, _, rfl, rfl, rfl, rfl, rfl, rfl⟩

end Gnunet.Core.KeyExchange
