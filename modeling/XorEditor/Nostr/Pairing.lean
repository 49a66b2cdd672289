import Mathlib.Algebra.Group.Nat.Defs
import Mathlib.Data.Finset.Card
import XorEditor.Lib.Method

/-!
# Device pairing sessions

A source device shows a QR code, a target device scans it and offers to pair, both users
compare a short authentication string, and the source sends its secret.  Both roles are
sessions of one state machine.  Keys, key agreement, key derivation, NIP-44 encryption and
the JSON codec are parameters of the model.

* `PairingSession`: a session of either role
* `offer`, `confirmSourceSas`, `sendPayload`: calls on it
-/

namespace XorEditor.Nostr

open Lib Method

/-! ### Bytes and hexadecimal text -/

/-- An array of 32 bytes. -/
@[ext]
structure Bytes32 where
  bytes : List UInt8
  length_eq : bytes.length = 32
  deriving DecidableEq

def Bytes32.zero : Bytes32 := ⟨List.replicate 32 0, List.length_replicate⟩

def hexEncode (value : Bytes32) : String :=
  String.ofList (value.bytes.flatMap fun byte =>
    [Nat.digitChar (byte.toNat / 16), Nat.digitChar (byte.toNat % 16)])

def isLowerHex (c : Char) : Bool :=
  c.isDigit || ('a' ≤ c && c ≤ 'f')

def hexValue (c : Char) : Nat :=
  if c.isDigit then c.toNat - '0'.toNat else c.toNat - 'a'.toNat + 10

/-- The bytes of a text of hexadecimal digits. -/
def hexPairs : List Char → Option (List UInt8)
  | [] => some []
  | [_] => none
  | high :: low :: rest => do
    let bytes ← hexPairs rest
    return UInt8.ofNat (hexValue high * 16 + hexValue low) :: bytes

def decode32 (value : String) : Option Bytes32 := do
  -- 64 bytes that are all lowercase hexadecimal digits are 64 such characters
  if value.toList.length ≠ 64 || !value.toList.all isLowerHex then
    none
  let bytes ← hexPairs value.toList
  if h : bytes.length = 32 then some ⟨bytes, h⟩ else none

theorem digitChar_spec : ∀ n < 16,
    isLowerHex (Nat.digitChar n) = true ∧ hexValue (Nat.digitChar n) = n := by
  decide

theorem hexPairs_flatMap (bytes : List UInt8) : hexPairs (bytes.flatMap fun byte =>
      [Nat.digitChar (byte.toNat / 16), Nat.digitChar (byte.toNat % 16)]) = some bytes := by
  induction bytes with
  | nil => rfl
  | cons byte bytes ih =>
    have hbyte := byte.toNat_lt
    have hhigh := (digitChar_spec (byte.toNat / 16) (by omega)).2
    have hlow := (digitChar_spec (byte.toNat % 16) (by omega)).2
    have hvalue : byte.toNat / 16 * 16 + byte.toNat % 16 = byte.toNat := by omega
    simp only [List.flatMap_cons, List.cons_append, List.nil_append, hexPairs, ih, hhigh, hlow,
      hvalue, UInt8.ofNat_toNat]
    rfl

theorem decode32_hexEncode (value : Bytes32) : decode32 (hexEncode value) = some value := by
  unfold decode32 hexEncode
  have hlength : (value.bytes.flatMap fun byte =>
      [Nat.digitChar (byte.toNat / 16), Nat.digitChar (byte.toNat % 16)]).length = 64 := by
    simp [List.length_flatMap, value.length_eq]
  have hall : (value.bytes.flatMap fun byte =>
      [Nat.digitChar (byte.toNat / 16), Nat.digitChar (byte.toNat % 16)]).all isLowerHex =
        true := by
    rw [List.all_flatMap, List.all_eq_true]
    intro byte _
    have hbyte := byte.toNat_lt
    have hhigh := (digitChar_spec (byte.toNat / 16) (by omega)).1
    have hlow := (digitChar_spec (byte.toNat % 16) (by omega)).1
    simp [hhigh, hlow]
  simp only [String.toList_ofList, hlength, hall, hexPairs_flatMap]
  simp [value.length_eq]

def constantTimeEq (left right : Bytes32) : Bool :=
  (List.zipWith (· ^^^ ·) left.bytes right.bytes).foldl (· ||| ·) 0 == 0

/-! ### Constants, keys and messages -/

def nipAbVersion : Nat := 1

def nipAbSessionMillis : Nat := 120000

def maxNipAbRelays : Nat := 4

def maxNipAbPayloadBytes : Nat := 64 * 1024

def maxNipAbCiphertextBytes : Nat := 88000

def maxNipAbProcessedFrames : Nat := 16

def maxNipAbClockSkewMillis : Nat := 5000

def sessionIdInfo : List UInt8 := "nostr-pair-session-id".toUTF8.toList

def sasInfo : List UInt8 := "nostr-pair-sas-v1".toUTF8.toList

def transcriptInfo : List UInt8 := "nostr-pair-transcript-v1".toUTF8.toList

inductive PairingError where
  | invalidQr
  | unsupportedVersion
  | invalidSecret
  | invalidTimestamp
  | invalidFrame
  | wrongPeer
  | wrongRole
  | unexpectedMessage
  | invalidSession
  | sasUnavailable
  | transcriptMismatch
  | invalidPayload
  | replay
  | replayCapacity
  | expired
  | terminal
  | peerAborted
  | crypto
  | codec
  deriving DecidableEq, Repr

structure PublicKey where
  value : Bytes32
  deriving DecidableEq

structure PairingFrameId where
  value : Bytes32
  nonzero : value ≠ Bytes32.zero
  deriving DecidableEq

def PairingFrameId.new (value : Bytes32) : Except PairingError PairingFrameId :=
  if h : value = Bytes32.zero then .error .invalidFrame else .ok ⟨value, h⟩

inductive PairingPayloadType where
  | nsec
  | bunker
  | connect
  | custom
  deriving DecidableEq, Repr

inductive PairingAbortReason where
  | sasMismatch
  | userDenied
  | timeout
  | protocolError
  deriving DecidableEq, Repr

/-- The messages inside the frames, outbound and inbound. -/
inductive Message where
  | offer (version : Nat) (sessionId : String)
  | sasConfirm (transcriptHash : String)
  | payload (payloadType : PairingPayloadType) (payload : String)
  | complete (success : Bool)
  | abort (reason : PairingAbortReason)
  deriving DecidableEq, Repr

/-- The cryptography and the codec the sessions use.  Encryption draws a nonce. -/
structure Primitives where
  validSecret : Bytes32 → Bool
  publicKey : Bytes32 → PublicKey
  sharedKey : Bytes32 → PublicKey → Option Bytes32
  /-- Salt, input and info. -/
  hkdf32 : List UInt8 → List UInt8 → List UInt8 → Bytes32
  encrypt : Bytes32 → PublicKey → List UInt8 → Nat → Option String
  decrypt : Bytes32 → PublicKey → String → Option (List UInt8)
  toVec : Message → Option (List UInt8)
  fromSlice : List UInt8 → Option Message

structure PairingEncryptedFrame where
  frameId : PairingFrameId
  senderPublicKey : PublicKey
  recipientPublicKey : PublicKey
  createdAtMillis : Nat
  ciphertext : String
  deriving DecidableEq

def PairingEncryptedFrame.fromTransport (frameId : PairingFrameId)
    (senderPublicKey recipientPublicKey : PublicKey) (createdAtMillis : Nat)
    (ciphertext : String) : Except PairingError PairingEncryptedFrame :=
  if createdAtMillis = 0 || ciphertext.isEmpty ||
      ciphertext.utf8ByteSize > maxNipAbCiphertextBytes then
    .error .invalidFrame
  else
    .ok ⟨frameId, senderPublicKey, recipientPublicKey, createdAtMillis, ciphertext⟩

structure PairingPayload where
  payloadType : PairingPayloadType
  secret : String
  nonempty : secret.isEmpty = false
  le_max : secret.utf8ByteSize ≤ maxNipAbPayloadBytes
  deriving DecidableEq

structure PairingQr where
  sourcePublicKey : PublicKey
  sessionSecret : Bytes32
  relays : List String
  version : Nat
  deriving DecidableEq

def PairingQr.new (sourcePublicKey : PublicKey) (sessionSecret : Bytes32)
    (relays : List String) : Except PairingError PairingQr :=
  if sessionSecret = Bytes32.zero || relays.isEmpty || relays.length > maxNipAbRelays ||
      !relays.Nodup then
    .error .invalidQr
  else
    .ok ⟨sourcePublicKey, sessionSecret, relays, nipAbVersion⟩

/-! ### Sessions -/

inductive PairingRole where
  | source
  | target
  deriving DecidableEq, Repr

inductive PairingSessionState where
  | waitingOffer
  | awaitingSourceConfirmation
  | awaitingSasConfirm
  | awaitingTargetConfirmation
  | transferring
  | payloadSent
  | payloadReceived
  | completed
  | aborted
  deriving DecidableEq, Repr

structure PairingSession where
  role : PairingRole
  state : PairingSessionState
  ephemeralSecret : Bytes32
  localPublicKey : PublicKey
  peerPublicKey : Option PublicKey
  sessionSecret : Bytes32
  sessionId : Bytes32
  sasInput : Option Bytes32
  sasCode : Option Nat
  createdAtMillis : Nat
  expiresAtMillis : Nat
  processedFrames : Finset PairingFrameId
  deriving DecidableEq

/-- The code that the users compare: the first four bytes, modulo a million. -/
def sasCodeOf (sasInput : Bytes32) : Nat :=
  (sasInput.bytes.take 4).foldl (fun code byte => code * 256 + byte.toNat) 0 % 1000000

/-- The code as six decimal digits. -/
def sasText (sasCode : Nat) : String :=
  let digits := toString sasCode
  "".pushn '0' (6 - digits.length) ++ digits

/-- `checked_add` on timestamps of 64 bits. -/
def checkedAddMillis (a b : Nat) : Except PairingError Nat :=
  if a + b < 2 ^ 64 then .ok (a + b) else .error .invalidTimestamp

variable (P : Primitives)

def publicKey (secret : Bytes32) : Except PairingError PublicKey :=
  if P.validSecret secret then .ok (P.publicKey secret) else .error .invalidSecret

def deriveSessionId (sessionSecret : Bytes32) : Bytes32 :=
  P.hkdf32 [] sessionSecret.bytes sessionIdInfo

def deriveSas (ephemeralSecret : Bytes32) (peerPublicKey : PublicKey) (sessionSecret : Bytes32) :
    Except PairingError (Nat × Bytes32) := do
  if !P.validSecret ephemeralSecret then
    throw .invalidSecret
  let some shared := P.sharedKey ephemeralSecret peerPublicKey | throw .crypto
  let sasInput := P.hkdf32 sessionSecret.bytes shared.bytes sasInfo
  return (sasCodeOf sasInput, sasInput)

namespace PairingSession

def newSource (ephemeralSecret sessionSecret : Bytes32) (relays : List String)
    (createdAtMillis : Nat) : Except PairingError (PairingSession × PairingQr) := do
  if sessionSecret = Bytes32.zero then
    throw .invalidSecret
  let localPublicKey ← publicKey P ephemeralSecret
  let expiresAtMillis ← checkedAddMillis createdAtMillis nipAbSessionMillis
  if createdAtMillis = 0 then
    throw .invalidTimestamp
  let qr ← PairingQr.new localPublicKey sessionSecret relays
  return ({
    role := .source
    state := .waitingOffer
    ephemeralSecret
    localPublicKey
    peerPublicKey := none
    sessionSecret
    sessionId := deriveSessionId P sessionSecret
    sasInput := none
    sasCode := none
    createdAtMillis
    expiresAtMillis
    processedFrames := ∅ }, qr)

def newTarget (qr : PairingQr) (ephemeralSecret : Bytes32) (createdAtMillis : Nat) :
    Except PairingError PairingSession := do
  if qr.version ≠ nipAbVersion then
    throw .unsupportedVersion
  if createdAtMillis = 0 then
    throw .invalidTimestamp
  let localPublicKey ← publicKey P ephemeralSecret
  let expiresAtMillis ← checkedAddMillis createdAtMillis nipAbSessionMillis
  let (sasCode, sasInput) ← deriveSas P ephemeralSecret qr.sourcePublicKey qr.sessionSecret
  return {
    role := .target
    state := .awaitingSasConfirm
    ephemeralSecret
    localPublicKey
    peerPublicKey := some qr.sourcePublicKey
    sessionSecret := qr.sessionSecret
    sessionId := deriveSessionId P qr.sessionSecret
    sasInput := some sasInput
    sasCode := some sasCode
    createdAtMillis
    expiresAtMillis
    processedFrames := ∅ }

def checkActive (nowMillis : Nat) (self : PairingSession) : Except PairingError Unit :=
  if nowMillis < self.createdAtMillis then .error .invalidTimestamp
  else if nowMillis ≥ self.expiresAtMillis then .error .expired
  else if self.state = .completed || self.state = .aborted then .error .terminal
  else .ok ()

def require (role : PairingRole) (state : PairingSessionState) (nowMillis : Nat)
    (self : PairingSession) : Except PairingError Unit := do
  self.checkActive nowMillis
  if self.role ≠ role then
    throw .wrongRole
  if self.state ≠ state then
    throw .unexpectedMessage

variable (frame : PairingEncryptedFrame)

def validateFrame (nowMillis : Nat) (requirePeer : Bool) (self : PairingSession) :
    Except PairingError Unit := do
  if frame.recipientPublicKey ≠ self.localPublicKey ||
      frame.createdAtMillis < self.createdAtMillis ||
      frame.createdAtMillis ≥ self.expiresAtMillis then
    throw .invalidFrame
  let latest ← checkedAddMillis nowMillis maxNipAbClockSkewMillis
  if frame.createdAtMillis > latest || frame.ciphertext.isEmpty ||
      frame.ciphertext.utf8ByteSize > maxNipAbCiphertextBytes then
    throw .invalidFrame
  if requirePeer && self.peerPublicKey ≠ some frame.senderPublicKey then
    throw .wrongPeer

variable (frameId : PairingFrameId)

def encrypt (nowMillis : Nat) (message : Message) (nonce : Nat) (self : PairingSession) :
    Except PairingError PairingEncryptedFrame := do
  self.checkActive nowMillis
  let some recipientPublicKey := self.peerPublicKey | throw .wrongPeer
  let some plaintext := P.toVec message | throw .codec
  if plaintext.length > maxNipAbPayloadBytes then
    throw .invalidPayload
  if !P.validSecret self.ephemeralSecret then
    throw .invalidSecret
  let some ciphertext := P.encrypt self.ephemeralSecret recipientPublicKey plaintext nonce
    | throw .crypto
  PairingEncryptedFrame.fromTransport frameId self.localPublicKey recipientPublicKey nowMillis
    ciphertext

variable (self : PairingSession)

def decrypt :
    Except PairingError Message := do
  if !P.validSecret self.ephemeralSecret then
    throw .invalidSecret
  let some plaintext := P.decrypt self.ephemeralSecret frame.senderPublicKey frame.ciphertext
    | throw .crypto
  if plaintext.length > maxNipAbPayloadBytes then
    throw .invalidPayload
  let some message := P.fromSlice plaintext | throw .codec
  return message

def checkReplay : Except PairingError Unit :=
  if frameId ∈ self.processedFrames then .error .replay else .ok ()

def record : EStateM PairingError PairingSession Unit := do
  let self ← get
  if self.processedFrames.card ≥ maxNipAbProcessedFrames then
    throw .replayCapacity
  set { self with processedFrames := insert frameId self.processedFrames }
  if frameId ∈ self.processedFrames then
    throw .replay

/-- The source key and the target key of the session. -/
def keyPair (peer : PublicKey) : PublicKey × PublicKey :=
  match self.role with
  | .source => (self.localPublicKey, peer)
  | .target => (peer, self.localPublicKey)

def transcript (peer : PublicKey) (sasInput : Bytes32) : List UInt8 :=
  let (source, target) := self.keyPair peer
  self.sessionId.bytes ++ source.value.bytes ++ target.value.bytes ++ sasInput.bytes

def transcriptHash : Except PairingError Bytes32 := do
  let some peer := self.peerPublicKey | throw .wrongPeer
  let some sasInput := self.sasInput | throw .sasUnavailable
  return P.hkdf32 self.sessionSecret.bytes (self.transcript peer sasInput) transcriptInfo

/-! ### The methods -/

def setState (state : PairingSessionState) : EStateM PairingError PairingSession Unit :=
  modify fun self => { self with state := state }

/-- The checks with which every method that takes a frame begins, and the message of the
frame. -/
def receiveMessage (guard : PairingSession → Except PairingError Unit)
    (frame : PairingEncryptedFrame) (nowMillis : Nat) (requirePeer : Bool) :
    EStateM PairingError PairingSession Message := do
  check (checkReplay frame.frameId)
  check guard
  check (validateFrame frame nowMillis requirePeer)
  check (decrypt P frame)

def offer (nowMillis nonce : Nat) :
    EStateM PairingError PairingSession PairingEncryptedFrame := do
  check (require .target .awaitingSasConfirm nowMillis)
  check fun self =>
    self.encrypt P frameId nowMillis (.offer nipAbVersion (hexEncode self.sessionId)) nonce

def receiveOffer (nowMillis : Nat) :
    EStateM PairingError PairingSession String := do
  let .offer version sessionId ←
      receiveMessage P (require .source .waitingOffer nowMillis) frame nowMillis false
    | throw .unexpectedMessage
  if version ≠ nipAbVersion then
    throw .unsupportedVersion
  let some received := decode32 sessionId | throw .invalidSession
  if !constantTimeEq received (← get).sessionId then
    throw .invalidSession
  let (sasCode, sasInput) ← check fun self =>
    deriveSas P self.ephemeralSecret frame.senderPublicKey self.sessionSecret
  record frame.frameId
  modify fun self => { self with
    peerPublicKey := some frame.senderPublicKey
    sasCode := some sasCode
    sasInput := some sasInput
    state := .awaitingSourceConfirmation }
  return sasText sasCode

def confirmSourceSas (nowMillis nonce : Nat) :
    EStateM PairingError PairingSession PairingEncryptedFrame := do
  check (require .source .awaitingSourceConfirmation nowMillis)
  let transcriptHash ← check (transcriptHash P)
  let frame ← check
    (encrypt P frameId nowMillis (.sasConfirm (hexEncode transcriptHash)) nonce)
  setState .transferring
  return frame

def receiveSasConfirm (nowMillis : Nat) :
    EStateM PairingError PairingSession Unit := do
  let .sasConfirm hash ←
      receiveMessage P (require .target .awaitingSasConfirm nowMillis) frame nowMillis true
    | throw .unexpectedMessage
  let some received := decode32 hash | throw .transcriptMismatch
  if !constantTimeEq received (← check (transcriptHash P)) then
    throw .transcriptMismatch
  record frame.frameId
  setState .awaitingTargetConfirmation

def confirmTargetSas (nowMillis : Nat) : EStateM PairingError PairingSession Unit := do
  check (require .target .awaitingTargetConfirmation nowMillis)
  setState .transferring

def sendPayload (payload : PairingPayload) (nowMillis nonce : Nat) :
    EStateM PairingError PairingSession PairingEncryptedFrame := do
  check (require .source .transferring nowMillis)
  let frame ← check
    (encrypt P frameId nowMillis (.payload payload.payloadType payload.secret) nonce)
  setState .payloadSent
  return frame

def receivePayload (nowMillis : Nat) :
    EStateM PairingError PairingSession PairingPayload := do
  let .payload payloadType payload ←
      receiveMessage P (require .target .transferring nowMillis) frame nowMillis true
    | throw .unexpectedMessage
  if h : payload.isEmpty ∨ payload.utf8ByteSize > maxNipAbPayloadBytes then
    throw .invalidPayload
  else
    record frame.frameId
    setState .payloadReceived
    return {
      payloadType
      secret := payload
      nonempty := by simpa using fun h' => h (Or.inl h')
      le_max := Nat.le_of_not_gt fun h' => h (Or.inr h') }

def completeTarget (nowMillis nonce : Nat) :
    EStateM PairingError PairingSession PairingEncryptedFrame := do
  check (require .target .payloadReceived nowMillis)
  let frame ← check (encrypt P frameId nowMillis (.complete true) nonce)
  setState .completed
  return frame

def receiveComplete (nowMillis : Nat) :
    EStateM PairingError PairingSession Unit := do
  let .complete success ←
      receiveMessage P (require .source .payloadSent nowMillis) frame nowMillis true
    | throw .unexpectedMessage
  if !success then
    setState .aborted
    throw .peerAborted
  record frame.frameId
  setState .completed

def abort (reason : PairingAbortReason) (nowMillis nonce : Nat) :
    EStateM PairingError PairingSession PairingEncryptedFrame := do
  check (checkActive nowMillis)
  let frame ← check (encrypt P frameId nowMillis (.abort reason) nonce)
  setState .aborted
  return frame

def receiveAbort (nowMillis : Nat) :
    EStateM PairingError PairingSession PairingAbortReason := do
  let .abort reason ← receiveMessage P (checkActive nowMillis) frame nowMillis true
    | throw .unexpectedMessage
  record frame.frameId
  setState .aborted
  return reason

end PairingSession
end XorEditor.Nostr
