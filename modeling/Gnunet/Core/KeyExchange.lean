import Gnunet.Lib.BitWindow
import Gnunet.Lib.Runs

/-!
# Encrypted messages of the core service

A model of the receiving side of `gnunet-service-core_kx.c`: the status machine of a key
exchange, SET_KEY messages and encrypted messages with their sequence number check.  Key
derivation, the MAC and the cipher are parameters.  `none` is a failed assertion.
-/

namespace Gnunet.Core.KeyExchange

inductive KxStateMachine where
  | down
  | keySent
  | keyReceived
  | up
  | rekey
  | rekeySent
  deriving DecidableEq, Repr

/-- `body` is what is encrypted and authenticated, from the sequence number on. -/
structure EncryptedMessage (Hash : Type) where
  ivSeed : UInt32
  hmac : Hash
  body : List UInt8

/-- `sessionKey` is the key in it, if the message is for us, signed and can be decrypted. -/
structure SetKeyMessage (Key : Type) where
  senderStatus : ℕ
  creationTime : UInt64
  sessionKey : Option Key

/-- What the receiver relies on: the MAC of a body, and its decryption. -/
structure Crypto (Key Hash : Type) where
  hmac : Key → UInt32 → UInt64 → List UInt8 → Hash
  aesDecrypt : Key → UInt32 → List UInt8 → Option (List UInt8)

structure KeyExchangeInfo (Key Hash : Type) where
  status : KxStateMachine
  decryptKey : Key
  decryptKeyCreated : UInt64
  lastPacketsBitmap : BitVec 32
  lastSequenceNumberReceived : UInt32
  /-- The encrypted message that waits for the confirmation of the session key. -/
  emsgReceived : Option (EncryptedMessage Hash)
  /-- Whether the PONG that waits for a SET_KEY message will confirm our key. -/
  pongReceived : Option Bool

structure Delivery where
  sequenceNumber : UInt32
  payload : List UInt8
  deriving DecidableEq, Repr

/-- The key exchange and everything passed on under the current session key, newest first. -/
structure State (Key Hash : Type) where
  kx : KeyExchangeInfo Key Hash
  delivered : List Delivery

inductive Event (Key Hash : Type) where
  | setKey (now : UInt64) (message : SetKeyMessage Key)
  | pong (now : UInt64) (confirms : Bool)
  | triggerRekey
  | setKeyRetry
  | sessionTimeout
  | encrypted (now : UInt64) (message : EncryptedMessage Hash)

def maxMessageAge : UInt64 := 24 * 60 * 60 * 1000

def encryptedHeaderSize : ℕ := 72

def sizeofEncryptedMessage : ℕ := encryptedHeaderSize + 16

def sizeofMessageHeader : ℕ := 4

def networkOrder (bytes : List UInt8) : ℕ :=
  bytes.foldl (fun acc byte ↦ 256 * acc + byte.toNat) 0

def sequenceNumberOf (plaintext : List UInt8) : UInt32 :=
  UInt32.ofNat (networkOrder (plaintext.take 4))

def timestampOf (plaintext : List UInt8) : UInt64 :=
  UInt64.ofNat (networkOrder ((plaintext.drop 8).take 8))

def payloadOf (plaintext : List UInt8) : List UInt8 := plaintext.drop 16

/-- The argument must not be `FOREVER`. -/
def absoluteGetDuration (now whence : UInt64) : Option UInt64 :=
  if whence = UInt64.ofNat (2 ^ 64 - 1) then none
  else if now < whence then some 0
  else some (now - whence)

section Window

variable {Key Hash : Type}

/-- `none` if the message is to be ignored. -/
def checkSequenceNumber (kx : KeyExchangeInfo Key Hash) (snum : UInt32) :
    Option (KeyExchangeInfo Key Hash) :=
  if kx.lastSequenceNumberReceived = snum then none
  else if snum < kx.lastSequenceNumberReceived ∧ 32 < kx.lastSequenceNumberReceived - snum then
    none
  else if snum < kx.lastSequenceNumberReceived then
    let rotbit := 1#32 <<< (kx.lastSequenceNumberReceived - snum - 1).toNat
    if kx.lastPacketsBitmap &&& rotbit ≠ 0#32 then none
    else some { kx with lastPacketsBitmap := kx.lastPacketsBitmap ||| rotbit }
  else
    let shift := (snum - kx.lastSequenceNumberReceived).toNat
    some { kx with
      lastPacketsBitmap := if 8 * 4 ≤ shift then 0#32 else kx.lastPacketsBitmap <<< shift
      lastSequenceNumberReceived := snum }

def doDecrypt (crypto : Crypto Key Hash) (kx : KeyExchangeInfo Key Hash) (ivSeed : UInt32)
    (body : List UInt8) : Option (List UInt8) :=
  if 2 ^ 16 ≤ body.length then none
  else match kx.status with
    | .keyReceived | .up | .rekeySent | .rekey => crypto.aesDecrypt kx.decryptKey ivSeed body
    | .down | .keySent => none

def handlePlaintext (now : UInt64) (state : State Key Hash) (plaintext : List UInt8) :
    Option (State Key Hash) :=
  match checkSequenceNumber state.kx (sequenceNumberOf plaintext) with
  | none => some state
  | some kx =>
    (absoluteGetDuration now (timestampOf plaintext)).map fun age ↦
      if maxMessageAge < age then { state with kx := kx }
      else
        { kx := kx
          delivered := ⟨sequenceNumberOf plaintext, payloadOf plaintext⟩ :: state.delivered }

variable [DecidableEq Hash]

/-- `GSC_KX_handle_encrypted_message` once the status allows to use the session key. -/
def handleCiphertext (crypto : Crypto Key Hash) (now : UInt64) (state : State Key Hash)
    (message : EncryptedMessage Hash) : Option (State Key Hash) :=
  if crypto.hmac state.kx.decryptKey message.ivSeed state.kx.decryptKeyCreated message.body ≠
      message.hmac then some state
  else match doDecrypt crypto state.kx message.ivSeed message.body with
    | none => some state
    | some plaintext => handlePlaintext now state plaintext

def handleEncryptedMessage (crypto : Crypto Key Hash) (now : UInt64) (state : State Key Hash)
    (message : EncryptedMessage Hash) : Option (State Key Hash) :=
  if encryptedHeaderSize + message.body.length < sizeofEncryptedMessage + sizeofMessageHeader then
    some state
  else match state.kx.status with
    | .down | .keySent | .rekey => some state
    | .keyReceived =>
      some { state with kx := { state.kx with emsgReceived := some message } }
    | .up | .rekeySent => handleCiphertext crypto now state message

end Window

section Handshake

variable {Key Hash : Type}

/-- The messages that `send_key` sends do not matter here. -/
def sendKey (state : State Key Hash) : State Key Hash :=
  match state.kx.status with
  | .down => { state with kx := { state.kx with status := .keySent } }
  | .rekey => { state with kx := { state.kx with status := .rekeySent } }
  | .keySent | .keyReceived | .up | .rekeySent => state

def triggerRekey (state : State Key Hash) : State Key Hash :=
  { state with kx := { state.kx with status := .rekey } }

variable [DecidableEq Hash]

/-- `send_keep_alive` when the session has timed out; the key and the window are kept. -/
def sessionTimeout (state : State Key Hash) : State Key Hash :=
  sendKey { state with kx := { state.kx with status := .down } }

/-- The first confirmation also processes the message that waited for it. -/
def handlePong (crypto : Crypto Key Hash) (now : UInt64) (state : State Key Hash)
    (confirms : Bool) : Option (State Key Hash) :=
  match state.kx.status with
  | .down => some state
  | .keySent => some { state with kx := { state.kx with pongReceived := some confirms } }
  | .keyReceived =>
    if confirms then
      match state.kx.emsgReceived with
      | none => some { state with kx := { state.kx with status := .up } }
      | some message =>
        handleEncryptedMessage crypto now
          { state with kx := { state.kx with status := .up, emsgReceived := none } } message
    else some state
  | .up | .rekey => some state
  | .rekeySent =>
    if confirms then some { state with kx := { state.kx with status := .up } } else some state

/-- The status switch of `GSC_KX_handle_set_key`. -/
def setKeyStatus (senderStatus : ℕ) (state : State Key Hash) : State Key Hash :=
  match state.kx.status with
  | .down | .keySent => { state with kx := { state.kx with status := .keyReceived } }
  | .keyReceived => state
  | .up | .rekey | .rekeySent =>
    if senderStatus = 0 ∨ senderStatus = 1 then sendKey state else state

/-- A new creation time resets the sequence numbers. -/
def installKey (state : State Key Hash) (key : Key) (creationTime : UInt64) : State Key Hash :=
  if state.kx.decryptKeyCreated ≠ creationTime then
    { kx := { state.kx with
        decryptKey := key
        lastSequenceNumberReceived := 0
        lastPacketsBitmap := 0#32
        decryptKeyCreated := creationTime }
      delivered := [] }
  else { state with kx := { state.kx with decryptKey := key } }

def handleSetKey (crypto : Crypto Key Hash) (now : UInt64) (state : State Key Hash)
    (message : SetKeyMessage Key) : Option (State Key Hash) :=
  if (state.kx.status = .keyReceived ∨ state.kx.status = .up) ∧
      message.creationTime < state.kx.decryptKeyCreated then some state
  else match message.sessionKey with
    | none => some state
    | some key =>
      let state := setKeyStatus message.senderStatus (installKey state key message.creationTime)
      match state.kx.pongReceived with
      | none => some state
      | some confirms =>
        handlePong crypto now { state with kx := { state.kx with pongReceived := none } }
          confirms

def step (crypto : Crypto Key Hash) (state : State Key Hash) :
    Event Key Hash → Option (State Key Hash)
  | .setKey now message => handleSetKey crypto now state message
  | .pong now confirms => handlePong crypto now state confirms
  | .triggerRekey => some (triggerRekey state)
  | .setKeyRetry => some (sendKey state)
  | .sessionTimeout => some (sessionTimeout state)
  | .encrypted now message => handleEncryptedMessage crypto now state message

end Handshake

end Gnunet.Core.KeyExchange
