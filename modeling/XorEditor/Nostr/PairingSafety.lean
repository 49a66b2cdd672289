import XorEditor.Nostr.PairingRun

/-!
# Safety of device pairing

The guarantees of a pairing session along every run, and the agreement of a target with
the source whose confirmation it has accepted.

* `Run.pairing_safe`: the guarantees
* `Agree`: two sessions with the same id, keys and authentication string
-/

namespace XorEditor.Nostr

open Lib PairingSession List

/-- What is assumed of encryption and codec: a ciphertext that decrypts, and a text that
parses, give back what they were made from. -/
structure Primitives.Lossless (P : Primitives) : Prop where
  decrypt : ∀ {secret publicKey plaintext nonce ciphertext secret' publicKey' plaintext'},
    P.encrypt secret publicKey plaintext nonce = some ciphertext →
      P.decrypt secret' publicKey' ciphertext = some plaintext' → plaintext' = plaintext
  fromSlice : ∀ {message bytes message'},
    P.toVec message = some bytes → P.fromSlice bytes = some message' → message' = message

namespace PairingSession

/-- The transcript of a session that has a peer. -/
def transcriptBytes (s : PairingSession) : Option (List UInt8) := do
  let peer ← s.peerPublicKey
  let sasInput ← s.sasInput
  return s.transcript peer sasInput

/-- Two sessions whose transcript hashes are equal have the same transcript. -/
def NoCollision (P : Primitives) (s t : PairingSession) : Prop :=
  s.transcriptHash P = t.transcriptHash P → s.transcriptBytes = t.transcriptBytes

variable {P : Primitives} {s t : PairingSession}

theorem transcriptHash_congr (hcore : s.core = t.core) (hagreement : s.agreement = t.agreement) :
    s.transcriptHash P = t.transcriptHash P := by
  cases s
  cases t
  simp only [core, agreement, PairingSession.mk.injEq, Prod.mk.injEq] at hcore hagreement
  obtain ⟨rfl, -, rfl, rfl, -, rfl, rfl, -⟩ := hcore
  obtain ⟨rfl, rfl, rfl⟩ := hagreement
  rfl

variable {frameId : PairingFrameId} {nowMillis nonce : Nat} {message : Message}
  {frame : PairingEncryptedFrame} {output : Output} {s' : PairingSession}

theorem ciphertext_of_encrypt (h : s.encrypt P frameId nowMillis message nonce = .ok frame) :
    ∃ publicKey plaintext, P.toVec message = some plaintext ∧
      P.encrypt s.ephemeralSecret publicKey plaintext nonce = some frame.ciphertext := by
  unfold encrypt at h
  obtain ⟨_, -, h⟩ := Method.result_bind_eq_ok_iff.mp h
  split at h
  · rename_i publicKey hpeer
    split at h
    · rename_i plaintext hplaintext
      obtain ⟨-, h⟩ := Method.result_guard_eq_ok_iff.mp h
      obtain ⟨-, h⟩ := Method.result_guard_eq_ok_iff.mp h
      split at h
      · rename_i ciphertext hciphertext
        simp only [PairingEncryptedFrame.fromTransport] at h
        split_ifs at h
        obtain rfl := Except.ok.inj h
        exact ⟨publicKey, plaintext, hplaintext, hciphertext⟩
      · cases h
    · cases h
  · cases h

theorem plaintext_of_decrypt (h : s.decrypt P frame = .ok message) :
    ∃ plaintext, P.decrypt s.ephemeralSecret frame.senderPublicKey frame.ciphertext =
      some plaintext ∧ P.fromSlice plaintext = some message := by
  unfold decrypt at h
  obtain ⟨-, h⟩ := Method.result_guard_eq_ok_iff.mp h
  split at h
  · rename_i plaintext hplaintext
    obtain ⟨-, h⟩ := Method.result_guard_eq_ok_iff.mp h
    split at h
    · rename_i parsed hmessage
      obtain rfl := Except.ok.inj h
      exact ⟨plaintext, hplaintext, hmessage⟩
    · cases h
  · cases h

/-- A confirmation that a target accepts carries the hash of both sessions' transcripts. -/
theorem transcriptHash_eq_of_confirm (hlossless : P.Lossless) {nowMillis' : Nat}
    {t' : PairingSession}
    (hsource : Accepted P s (.confirmSourceSas frameId nowMillis nonce) (.frame frame) s')
    (htarget : Accepted P t (.receiveSasConfirm frame nowMillis') output t') :
    ∃ hash, s.transcriptHash P = .ok hash ∧ t.transcriptHash P = .ok hash := by
  cases hsource with
  | @confirmSourceSas _ _ _ hash _ hrole hstate hhash hframe =>
    cases htarget with
    | @receiveSasConfirm _ _ text received hrole' hstate' hnew hpeer hmessage hdecode hhash' =>
      obtain ⟨_, plaintext, hplaintext, hencrypt⟩ := ciphertext_of_encrypt hframe
      obtain ⟨plaintext', hdecrypt, hparse⟩ := plaintext_of_decrypt hmessage
      obtain rfl := hlossless.decrypt hencrypt hdecrypt
      have hsame := hlossless.fromSlice hplaintext hparse
      rw [Message.sasConfirm.injEq] at hsame
      rw [hsame, decode32_hexEncode] at hdecode
      obtain rfl := Option.some.inj hdecode
      exact ⟨hash, hhash, hhash'⟩

theorem role_of_confirmSourceSas
    (h : Accepted P s (.confirmSourceSas frameId nowMillis nonce) output s') :
    s.role = .source ∧ s.state ≠ .waitingOffer := by
  cases h with
  | confirmSourceSas hrole hstate => exact ⟨hrole, by simp [hstate]⟩

theorem role_of_receiveSasConfirm
    (h : Accepted P s (.receiveSasConfirm frame nowMillis) output s') :
    s.role = .target ∧ s.state ≠ .waitingOffer := by
  cases h with
  | receiveSasConfirm hrole hstate => exact ⟨hrole, by simp [hstate]⟩

theorem role_of_sendPayload {payload : PairingPayload}
    (h : Accepted P s (.sendPayload frameId payload nowMillis nonce) output s') :
    s.role = .source := by
  cases h with
  | sendPayload hrole hstate => exact hrole

theorem of_receivePayload (h : Accepted P s (.receivePayload frame nowMillis) output s') :
    s.role = .target ∧ s.state ≠ .waitingOffer ∧ s.peerPublicKey = some frame.senderPublicKey := by
  cases h with
  | receivePayload hrole hstate hnew hpeer => exact ⟨hrole, by simp [hstate], hpeer⟩

end PairingSession

section Safety

variable {P : Primitives} {start s start' t : PairingSession} {qr qr' : PairingQr}
  {events events' : List Event}

/-- Both sessions have the same session id, the same source and target keys and the same
authentication string. -/
structure Agree (source target : PairingSession) : Prop where
  sessionId : source.sessionId = target.sessionId
  sourceKey : target.peerPublicKey = some source.localPublicKey
  targetKey : source.peerPublicKey = some target.localPublicKey
  sasCode : ∃ code, source.sasCode = some code ∧ target.sasCode = some code

/-- A target that has accepted the confirmation of a source agrees with it. -/
theorem Run.agree (hstart : Started P start qr) (hrun : Run P start events s)
    (hstart' : Started P start' qr') (hrun' : Run P start' events' t) (hlossless : P.Lossless)
    (hcollision : NoCollision P s t) {event event' : Event} {frame : PairingEncryptedFrame}
    {frameId : PairingFrameId} {nowMillis nonce nowMillis' : Nat} (hevent : event ∈ events)
    (hconfirm : event.call = .confirmSourceSas frameId nowMillis nonce)
    (houtput : event.output = .frame frame) (hevent' : event' ∈ events')
    (hreceive : event'.call = .receiveSasConfirm frame nowMillis') : Agree s t := by
  have hinv := hrun.invariant hstart
  have hinv' := hrun'.invariant hstart'
  obtain ⟨hcore, -, ⟨_, haccepted⟩, hagreement⟩ := hinv.accepted event hevent
  obtain ⟨hcore', -, ⟨_, haccepted'⟩, hagreement'⟩ := hinv'.accepted event' hevent'
  rw [hconfirm, houtput] at haccepted
  rw [hreceive] at haccepted'
  obtain ⟨hash, hhash, hhash'⟩ := transcriptHash_eq_of_confirm hlossless haccepted haccepted'
  obtain ⟨hrole, hstate⟩ := role_of_confirmSourceSas haccepted
  obtain ⟨hrole', hstate'⟩ := role_of_receiveSasConfirm haccepted'
  -- what the sessions hash is the same at the end of the runs
  have hcoreEnd : event.before.core = s.core := hcore.trans hinv.core.symm
  have hcoreEnd' : event'.before.core = t.core := hcore'.trans hinv'.core.symm
  have hsame : s.transcriptHash P = t.transcriptHash P := by
    rw [← transcriptHash_congr hcoreEnd (hagreement hstate),
      ← transcriptHash_congr hcoreEnd' (hagreement' hstate'), hhash, hhash']
  obtain ⟨peer, sasInput, hagreed⟩ := hinv.agreed_of_event hevent
  obtain ⟨peer', sasInput', hagreed'⟩ := hinv'.agreed_of_event hevent'
  simp only [agreement, Prod.mk.injEq] at hagreed hagreed'
  obtain ⟨hpeer, hinput, hcode⟩ := hagreed
  obtain ⟨hpeer', hinput', hcode'⟩ := hagreed'
  have htranscript := hcollision hsame
  simp only [transcriptBytes, hpeer, hinput, hpeer', hinput', transcript, keyPair,
    (role_of_core hcoreEnd).symm.trans hrole, (role_of_core hcoreEnd').symm.trans hrole',
    Option.bind_eq_bind, Option.bind_some, Option.pure_def, Option.some.injEq] at htranscript
  obtain ⟨htranscript, hinput⟩ := append_inj htranscript (by simp [Bytes32.length_eq])
  obtain ⟨htranscript, htarget⟩ := append_inj htranscript (by simp [Bytes32.length_eq])
  obtain ⟨hid, hsource⟩ := append_inj htranscript (by simp [Bytes32.length_eq])
  obtain rfl := Bytes32.ext hinput
  have hkey {a b : PublicKey} (h : a.value = b.value) : a = b := by
    cases a
    cases b
    rw [PublicKey.mk.injEq]
    exact h
  exact {
    sessionId := Bytes32.ext hid
    sourceKey := by rw [hpeer', hkey (Bytes32.ext hsource)]
    targetKey := by rw [hpeer, hkey (Bytes32.ext htarget)]
    sasCode := ⟨_, hcode, hcode'⟩ }

/-- **Safety of pairing.**  Along every run of a session: the peer is fixed once it is known;
a source sends a payload at most once, after it has accepted an offer of this session from
its peer and its user has then confirmed; a target takes a payload at most once, only from
the key of the scanned QR code, after it has accepted the hash of its own transcript and its
user has then confirmed; no frame is accepted twice; and every accepted call falls into the
lifetime of the session.  A target that has accepted the confirmation of a source agrees
with it on the session, the keys and the authentication string. -/
theorem Run.pairing_safe (hstart : Started P start qr) (hrun : Run P start events s) :
    (∀ peer later s', s.peerPublicKey = some peer → Run P s later s' →
      s'.peerPublicKey = some peer) ∧ (∀ newer event older, events = newer ++ event :: older →
      (∃ frameId payload nowMillis nonce,
        event.call = .sendPayload frameId payload nowMillis nonce) →
      (∀ other ∈ newer ++ older, ∀ frameId payload nowMillis nonce,
        other.call ≠ .sendPayload frameId payload nowMillis nonce) ∧
      ∃ peer, s.peerPublicKey = some peer ∧ SourceConfirmed P start peer older) ∧
    (∀ newer event older frame nowMillis, events = newer ++ event :: older →
      event.call = .receivePayload frame nowMillis →
      (∀ other ∈ newer ++ older, ∀ frame nowMillis, other.call ≠ .receivePayload frame nowMillis) ∧
      frame.senderPublicKey = qr.sourcePublicKey ∧
      TargetConfirmed P qr.sourcePublicKey older) ∧ (inboundIds events).Nodup ∧
    (∀ event ∈ events, start.createdAtMillis ≤ event.call.nowMillis ∧
      event.call.nowMillis < start.expiresAtMillis ∧
      event.before.state ≠ .completed ∧ event.before.state ≠ .aborted) ∧
    (∀ start' qr' events' t event event' frame frameId nowMillis nonce nowMillis',
      Started P start' qr' → Run P start' events' t → P.Lossless → NoCollision P s t →
      event ∈ events → event.call = .confirmSourceSas frameId nowMillis nonce →
      event.output = .frame frame →
      event' ∈ events' → event'.call = .receiveSasConfirm frame nowMillis' → Agree s t) := by
  have hinv := hrun.invariant hstart
  refine ⟨?_, ?_, ?_, hinv.nodup, ?_, ?_⟩
  · intro peer later s' hpeer hlater
    exact (hrun.agreement_eq hstart hlater hpeer).1
  · rintro newer event older hsplit ⟨frameId, payload, nowMillis, nonce, hcall⟩
    have hpayload : event.call.IsPayload := by
      rw [hcall]
      trivial
    obtain ⟨hunique, peer, hpeer, hconfirmed⟩ := hinv.unique_payload hsplit hpayload
    obtain ⟨hcore, -, ⟨_, haccepted⟩, -⟩ := hinv.accepted event (by simp [hsplit])
    rw [hcall] at haccepted
    refine ⟨fun other hother _ _ _ _ hsend => hunique other hother ?_, peer, hpeer, ?_⟩
    · rw [hsend]
      trivial
    · rwa [Confirmed, ← role_of_core hcore, role_of_sendPayload haccepted] at hconfirmed
  · intro newer event older frame nowMillis hsplit hcall
    have hpayload : event.call.IsPayload := by
      rw [hcall]
      trivial
    obtain ⟨hunique, peer, hpeer, hconfirmed⟩ := hinv.unique_payload hsplit hpayload
    obtain ⟨hcore, -, ⟨_, haccepted⟩, hagreement⟩ := hinv.accepted event (by simp [hsplit])
    rw [hcall] at haccepted
    obtain ⟨hrole, hstate, hsender⟩ := of_receivePayload haccepted
    have hscanned := hinv.target_peer ((hinv.role_eq.trans (role_of_core hcore).symm).trans hrole)
    have hsame : event.before.peerPublicKey = s.peerPublicKey :=
      congrArg Prod.fst (hagreement hstate)
    obtain rfl : peer = qr.sourcePublicKey := Option.some.inj (hpeer.symm.trans hscanned)
    refine ⟨fun other hother _ _ hreceive => hunique other hother ?_, ?_, ?_⟩
    · rw [hreceive]
      trivial
    · exact Option.some.inj ((hsender.symm.trans hsame).trans hscanned)
    · rwa [Confirmed, ← role_of_core hcore, hrole] at hconfirmed
  · intro event hevent
    obtain ⟨hcore, hactive, -⟩ := hinv.accepted event hevent
    have hcreated : event.before.core.createdAtMillis = start.core.createdAtMillis := by rw [hcore]
    have hexpires : event.before.core.expiresAtMillis = start.core.expiresAtMillis := by rw [hcore]
    exact ⟨hcreated ▸ hactive.created_le, hexpires ▸ hactive.lt_expires, hactive.not_completed,
      hactive.not_aborted⟩
  · intro start' qr' events' t event event' frame frameId nowMillis nonce nowMillis' hstart'
      hrun' hlossless hcollision hevent hconfirm houtput hevent' hreceive
    exact hrun.agree hstart hstart' hrun' hlossless hcollision hevent hconfirm houtput hevent'
      hreceive

end Safety

/-! ### A complete pairing -/

/-- Thirty-two equal bytes. -/
def repeated (byte : UInt8) : Bytes32 := ⟨List.replicate 32 byte, length_replicate⟩

/-- A polynomial in the bytes of the salt, of the input and of the info, and its successors. -/
def plainHkdf32 (salt input info : List UInt8) : Bytes32 :=
  let digest := (salt ++ input ++ info).foldl (fun digest byte => 31 * digest + byte) 1
  ⟨(range 32).map fun index => digest + UInt8.ofNat index, by simp⟩

/-- The sum of the two keys, byte by byte. -/
def plainSharedKey (secret : Bytes32) (publicKey : PublicKey) : Bytes32 :=
  ⟨zipWith (· + ·) secret.bytes publicKey.value.bytes, by
    rw [length_zipWith, secret.length_eq, publicKey.value.length_eq, min_self]⟩

/-- The messages of the pairing below: its session, and the hash of its transcript. -/
def knownMessages : List Message :=
  let sessionId := plainHkdf32 [] (repeated 5).bytes sessionIdInfo
  let shared := plainSharedKey (repeated 1) ⟨repeated 2⟩
  let sasInput := plainHkdf32 (repeated 5).bytes shared.bytes sasInfo
  let transcript :=
    sessionId.bytes ++ (repeated 1).bytes ++ (repeated 2).bytes ++ sasInput.bytes
  [.offer 1 (hexEncode sessionId),
    .sasConfirm (hexEncode (plainHkdf32 (repeated 5).bytes transcript transcriptInfo)),
    .payload .nsec "secret"]

/-- Primitives that hide nothing, to run sessions with. -/
def plainPrimitives : Primitives where
  validSecret _ := true
  publicKey secret := ⟨secret⟩
  sharedKey secret publicKey := some (plainSharedKey secret publicKey)
  hkdf32 := plainHkdf32
  encrypt _ _ plaintext _ := some (String.ofList (plaintext.map fun byte => Char.ofNat byte.toNat))
  decrypt _ _ ciphertext := some (ciphertext.toList.map fun c => UInt8.ofNat c.toNat)
  toVec message :=
    if message ∈ knownMessages then some [UInt8.ofNat (knownMessages.idxOf message)] else none
  fromSlice bytes := knownMessages[(bytes.headD 0).toNat]?

theorem plainPrimitives_lossless : plainPrimitives.Lossless where
  decrypt := by
    intro secret publicKey plaintext nonce ciphertext secret' publicKey' plaintext' hencrypt
      hdecrypt
    obtain rfl := Option.some.inj hencrypt
    obtain rfl := Option.some.inj hdecrypt
    have hchar : ∀ n < 256, (Char.ofNat n).toNat = n := by decide +kernel
    simp only [String.toList_ofList, map_map]
    conv_rhs => rw [← map_id plaintext]
    apply map_congr_left
    intro byte _
    simp [hchar byte.toNat byte.toNat_lt]
  fromSlice := by
    intro message bytes message' hto hfrom
    simp only [plainPrimitives] at hto hfrom
    split_ifs at hto with hknown
    obtain rfl := Option.some.inj hto
    have hlt : knownMessages.idxOf message < 3 := idxOf_lt_length_of_mem hknown
    have hbyte : (UInt8.ofNat (knownMessages.idxOf message)).toNat =
        knownMessages.idxOf message := by
      rw [UInt8.toNat_ofNat', Nat.mod_eq_of_lt (by omega)]
    rw [headD_cons, hbyte, getElem?_idxOf hknown] at hfrom
    exact (Option.some.inj hfrom).symm

def frameIdOf (byte : UInt8) (h : repeated byte ≠ Bytes32.zero) : PairingFrameId :=
  ⟨repeated byte, h⟩

/-- The source of the pairing, with its QR code. -/
def sourceStart : PairingSession × PairingQr :=
  (newSource plainPrimitives (repeated 1) (repeated 5) ["wss://pair.example.test/"]
    1000).toOption.get rfl

/-- The target of the pairing. -/
def targetStart : PairingSession :=
  (newTarget plainPrimitives sourceStart.2 (repeated 2) 1000).toOption.get rfl

/-- A frame of the target for the source. -/
def exampleOffer : PairingEncryptedFrame :=
  ⟨frameIdOf 1 (by decide), ⟨repeated 2⟩, ⟨repeated 1⟩, 1010, String.ofList [Char.ofNat 0]⟩

/-- The confirmation and the payload of the source for the target. -/
def exampleConfirm : PairingEncryptedFrame :=
  ⟨frameIdOf 2 (by decide), ⟨repeated 1⟩, ⟨repeated 2⟩, 1020, String.ofList [Char.ofNat 1]⟩

def examplePayload : PairingEncryptedFrame :=
  ⟨frameIdOf 3 (by decide), ⟨repeated 1⟩, ⟨repeated 2⟩, 1030, String.ofList [Char.ofNat 2]⟩

def sourceCalls : List Call :=
  [.receiveOffer exampleOffer 1010, .confirmSourceSas (frameIdOf 2 (by decide)) 1020 0,
    .sendPayload (frameIdOf 3 (by decide)) ⟨.nsec, "secret", by decide, by decide⟩ 1030 0]

def targetCalls : List Call :=
  [.receiveSasConfirm exampleConfirm 1020, .confirmTargetSas 1025,
    .receivePayload examplePayload 1030]

/-- In a complete pairing the payload is sent and received, and the sessions agree. -/
theorem complete_pairing_agrees :
    ∃ start start' s t qr events events', Started plainPrimitives start qr ∧
      Run plainPrimitives start events s ∧ Started plainPrimitives start' qr ∧
      Run plainPrimitives start' events' t ∧ s.state = .payloadSent ∧
      t.state = .payloadReceived ∧ Agree s t := by
  have hnewSource : newSource plainPrimitives (repeated 1) (repeated 5)
      ["wss://pair.example.test/"] 1000 = .ok (sourceStart.1, sourceStart.2) := rfl
  have hnewTarget : newTarget plainPrimitives sourceStart.2 (repeated 2) 1000 =
      .ok targetStart := rfl
  have hsource := Started.source hnewSource
  have htarget := Started.target hnewTarget
  have hrun := @Run.replay plainPrimitives sourceStart.1 sourceCalls ([], sourceStart.1) .start
  have hrun' := @Run.replay plainPrimitives targetStart targetCalls ([], targetStart) .start
  refine ⟨_, _, _, _, _, _, _, hsource, hrun, htarget, hrun', by decide +kernel,
    by decide +kernel, ?_⟩
  obtain ⟨-, -, -, -, -, hagree⟩ := hrun.pairing_safe hsource
  refine hagree _ _ _ _
    ⟨.confirmSourceSas (frameIdOf 2 (by decide)) 1020 0, .frame exampleConfirm,
      (replay plainPrimitives [.receiveOffer exampleOffer 1010] ([], sourceStart.1)).2⟩
    ⟨.receiveSasConfirm exampleConfirm 1020, .done, targetStart⟩ _ _ _ _ _
    htarget hrun' plainPrimitives_lossless ?_ (by decide +kernel) rfl rfl (by decide +kernel) rfl
  intro _
  decide +kernel

end XorEditor.Nostr
