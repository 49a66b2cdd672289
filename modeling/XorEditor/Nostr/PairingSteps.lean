import XorEditor.Nostr.Pairing

/-!
# What one call on a pairing session does

The calls that a session accepts, with what each of them requires of the session and of the
frame and what it changes.  Calls that fail leave the session unchanged, except that a
completion frame that reports a failure aborts it.

* `Call`, `perform`: the calls of a session
* `Accepts`: what an accepted call requires and changes
-/

namespace XorEditor.Nostr

open Lib Method

/-- A call on a session, with its arguments, the clock and the nonce it draws. -/
inductive Call where
  | offer (frameId : PairingFrameId) (nowMillis nonce : Nat)
  | receiveOffer (frame : PairingEncryptedFrame) (nowMillis : Nat)
  | confirmSourceSas (frameId : PairingFrameId) (nowMillis nonce : Nat)
  | receiveSasConfirm (frame : PairingEncryptedFrame) (nowMillis : Nat)
  | confirmTargetSas (nowMillis : Nat)
  | sendPayload (frameId : PairingFrameId) (payload : PairingPayload) (nowMillis nonce : Nat)
  | receivePayload (frame : PairingEncryptedFrame) (nowMillis : Nat)
  | completeTarget (frameId : PairingFrameId) (nowMillis nonce : Nat)
  | receiveComplete (frame : PairingEncryptedFrame) (nowMillis : Nat)
  | abort (frameId : PairingFrameId) (reason : PairingAbortReason) (nowMillis nonce : Nat)
  | receiveAbort (frame : PairingEncryptedFrame) (nowMillis : Nat)
  deriving DecidableEq

/-- What a call returns. -/
inductive Output where
  | frame (frame : PairingEncryptedFrame)
  | sas (text : String)
  | payload (payload : PairingPayload)
  | reason (reason : PairingAbortReason)
  | done
  deriving DecidableEq

/-- The clock value a call is made with. -/
def Call.nowMillis : Call → Nat
  | .offer _ now _ | .receiveOffer _ now | .confirmSourceSas _ now _ | .receiveSasConfirm _ now
  | .confirmTargetSas now | .sendPayload _ _ now _ | .receivePayload _ now
  | .completeTarget _ now _ | .receiveComplete _ now | .abort _ _ now _
  | .receiveAbort _ now => now

/-- The frame that a call takes in. -/
def Call.inboundFrame : Call → Option PairingEncryptedFrame
  | .receiveOffer frame _ | .receiveSasConfirm frame _ | .receivePayload frame _
  | .receiveComplete frame _ | .receiveAbort frame _ => some frame
  | _ => none

variable (P : Primitives)
variable {nowMillis : Nat} {state : PairingSessionState} {frameId : PairingFrameId}
  {frame : PairingEncryptedFrame}

def perform : Call → EStateM PairingError PairingSession Output
  | .offer frameId now nonce => .frame <$> PairingSession.offer P frameId now nonce
  | .receiveOffer frame now => .sas <$> PairingSession.receiveOffer P frame now
  | .confirmSourceSas frameId now nonce =>
    .frame <$> PairingSession.confirmSourceSas P frameId now nonce
  | .receiveSasConfirm frame now =>
    (fun _ => .done) <$> PairingSession.receiveSasConfirm P frame now
  | .confirmTargetSas now => (fun _ => .done) <$> PairingSession.confirmTargetSas now
  | .sendPayload frameId payload now nonce =>
    .frame <$> PairingSession.sendPayload P frameId payload now nonce
  | .receivePayload frame now => .payload <$> PairingSession.receivePayload P frame now
  | .completeTarget frameId now nonce =>
    .frame <$> PairingSession.completeTarget P frameId now nonce
  | .receiveComplete frame now =>
    (fun _ => .done) <$> PairingSession.receiveComplete P frame now
  | .abort frameId reason now nonce =>
    .frame <$> PairingSession.abort P frameId reason now nonce
  | .receiveAbort frame now => .reason <$> PairingSession.receiveAbort P frame now

namespace PairingSession

variable {P} {s s' : PairingSession} {u : Unit}

/-! ### The checks -/

/-- The session is not over at this time. -/
structure Active (s : PairingSession) (nowMillis : Nat) : Prop where
  created_le : s.createdAtMillis ≤ nowMillis
  lt_expires : nowMillis < s.expiresAtMillis
  not_completed : s.state ≠ .completed
  not_aborted : s.state ≠ .aborted

theorem active_of_checkActive (h : s.checkActive nowMillis = .ok u) : s.Active nowMillis := by
  unfold checkActive at h
  split_ifs at h with hcreated hexpires hterminal
  simp only [Bool.or_eq_true, decide_eq_true_eq, not_or] at hterminal
  exact ⟨Nat.le_of_not_lt hcreated, Nat.lt_of_not_le hexpires, hterminal.1, hterminal.2⟩

theorem of_require {role : PairingRole} (h : s.require role state nowMillis = .ok u) :
    s.Active nowMillis ∧ s.role = role ∧ s.state = state := by
  unfold require at h
  obtain ⟨_, hactive, h⟩ := result_bind_eq_ok_iff.mp h
  obtain ⟨hrole, h⟩ := result_guard_eq_ok_iff.mp h
  split_ifs at h with hstate
  exact ⟨active_of_checkActive hactive, not_not.mp hrole, not_not.mp hstate⟩

theorem peer_of_validateFrame (h : s.validateFrame frame nowMillis true = .ok u) :
    s.peerPublicKey = some frame.senderPublicKey := by
  unfold validateFrame at h
  obtain ⟨-, h⟩ := result_guard_eq_ok_iff.mp h
  obtain ⟨_, -, h⟩ := result_bind_eq_ok_iff.mp h
  obtain ⟨-, h⟩ := result_guard_eq_ok_iff.mp h
  split_ifs at h with hpeer
  simpa using hpeer

theorem attempt_record (frameId : PairingFrameId) : Attempt (record frameId) s fun _ s' =>
      s' = { s with processedFrames := insert frameId s.processedFrames } := by
  unfold record
  refine ends_get_bind (ends_guard rfl fun _ => ?_)
  by_cases hnew : frameId ∈ s.processedFrames
  · -- inserting a frame that is already there changes nothing
    simp [Ends, hnew, Finset.insert_eq_of_mem]
  · simp [Ends, hnew]

/-- The end of a method that takes a frame in: it records the frame and moves on. -/
theorem attempt_record_setState {α : Type} {a : α} {Q : α → PairingSession → Prop} (h : Q a { s with
      processedFrames := insert frameId s.processedFrames
      state := state }) :
    Attempt (do record frameId; setState state; return a :
      EStateM PairingError PairingSession α) s Q :=
  (attempt_record frameId).bind_total fun _ _ ht => ⟨_, _, rfl, ht ▸ h⟩

/-- What the checks have found when a method comes to the message of a frame. -/
theorem attempt_receiveMessage (guard : PairingSession → Except PairingError Unit)
    (frame : PairingEncryptedFrame) (nowMillis : Nat) (requirePeer : Bool) :
    Attempt (receiveMessage P guard frame nowMillis requirePeer) s fun message s' =>
      s' = s ∧ frame.frameId ∉ s.processedFrames ∧ guard s = .ok () ∧
        s.validateFrame frame nowMillis requirePeer = .ok () ∧
        s.decrypt P frame = .ok message := by
  unfold receiveMessage
  refine ends_check_bind rfl fun _ hreplay => ends_check_bind rfl fun _ hguard => ?_
  refine ends_check_bind rfl fun _ hframe => ends_check rfl fun message hmessage => ?_
  refine ⟨rfl, ?_, hguard, hframe, hmessage⟩
  unfold checkReplay at hreplay
  split_ifs at hreplay with hnew
  exact hnew

end PairingSession

open PairingSession

/-- The calls a session accepts: what they require, what they return and what they change. -/
inductive Accepted (P : Primitives) (s : PairingSession) : Call → Output → PairingSession → Prop
  | offer {frameId : PairingFrameId} {nowMillis nonce : Nat} {frame : PairingEncryptedFrame}
      (hrole : s.role = .target) (hstate : s.state = .awaitingSasConfirm) :
      Accepted P s (.offer frameId nowMillis nonce) (.frame frame) s
  | receiveOffer {frame : PairingEncryptedFrame} {nowMillis version sasCode : Nat}
      {sessionId : String} {sasInput : Bytes32}
      (hrole : s.role = .source) (hstate : s.state = .waitingOffer)
      (hnew : frame.frameId ∉ s.processedFrames)
      (hmessage : s.decrypt P frame = .ok (.offer version sessionId))
      (hsession : decode32 sessionId = some s.sessionId)
      (hsas : deriveSas P s.ephemeralSecret frame.senderPublicKey s.sessionSecret =
        .ok (sasCode, sasInput)) :
      Accepted P s (.receiveOffer frame nowMillis) (.sas (sasText sasCode))
        { s with
          processedFrames := insert frame.frameId s.processedFrames
          peerPublicKey := some frame.senderPublicKey
          sasCode := some sasCode
          sasInput := some sasInput
          state := .awaitingSourceConfirmation }
  | confirmSourceSas {frameId : PairingFrameId} {nowMillis nonce : Nat} {hash : Bytes32}
      {frame : PairingEncryptedFrame}
      (hrole : s.role = .source) (hstate : s.state = .awaitingSourceConfirmation)
      (hhash : s.transcriptHash P = .ok hash)
      (hframe : s.encrypt P frameId nowMillis (.sasConfirm (hexEncode hash)) nonce = .ok frame) :
      Accepted P s (.confirmSourceSas frameId nowMillis nonce) (.frame frame)
        { s with state := .transferring }
  | receiveSasConfirm {frame : PairingEncryptedFrame} {nowMillis : Nat} {text : String}
      {hash : Bytes32}
      (hrole : s.role = .target) (hstate : s.state = .awaitingSasConfirm)
      (hnew : frame.frameId ∉ s.processedFrames)
      (hpeer : s.peerPublicKey = some frame.senderPublicKey)
      (hmessage : s.decrypt P frame = .ok (.sasConfirm text))
      (hdecode : decode32 text = some hash) (hhash : s.transcriptHash P = .ok hash) :
      Accepted P s (.receiveSasConfirm frame nowMillis) .done
        { s with
          processedFrames := insert frame.frameId s.processedFrames
          state := .awaitingTargetConfirmation }
  | confirmTargetSas {nowMillis : Nat}
      (hrole : s.role = .target) (hstate : s.state = .awaitingTargetConfirmation) :
      Accepted P s (.confirmTargetSas nowMillis) .done { s with state := .transferring }
  | sendPayload {frameId : PairingFrameId} {payload : PairingPayload} {nowMillis nonce : Nat}
      {frame : PairingEncryptedFrame}
      (hrole : s.role = .source) (hstate : s.state = .transferring) :
      Accepted P s (.sendPayload frameId payload nowMillis nonce) (.frame frame)
        { s with state := .payloadSent }
  | receivePayload {frame : PairingEncryptedFrame} {nowMillis : Nat} {payload : PairingPayload}
      (hrole : s.role = .target) (hstate : s.state = .transferring)
      (hnew : frame.frameId ∉ s.processedFrames)
      (hpeer : s.peerPublicKey = some frame.senderPublicKey) :
      Accepted P s (.receivePayload frame nowMillis) (.payload payload)
        { s with
          processedFrames := insert frame.frameId s.processedFrames
          state := .payloadReceived }
  | completeTarget {frameId : PairingFrameId} {nowMillis nonce : Nat}
      {frame : PairingEncryptedFrame}
      (hrole : s.role = .target) (hstate : s.state = .payloadReceived) :
      Accepted P s (.completeTarget frameId nowMillis nonce) (.frame frame)
        { s with state := .completed }
  | receiveComplete {frame : PairingEncryptedFrame} {nowMillis : Nat}
      (hrole : s.role = .source) (hstate : s.state = .payloadSent)
      (hnew : frame.frameId ∉ s.processedFrames) :
      Accepted P s (.receiveComplete frame nowMillis) .done
        { s with
          processedFrames := insert frame.frameId s.processedFrames
          state := .completed }
  | abort {frameId : PairingFrameId} {reason : PairingAbortReason} {nowMillis nonce : Nat}
      {frame : PairingEncryptedFrame} (hpeer : s.peerPublicKey ≠ none) :
      Accepted P s (.abort frameId reason nowMillis nonce) (.frame frame)
        { s with state := .aborted }
  | receiveAbort {frame : PairingEncryptedFrame} {nowMillis : Nat} {reason : PairingAbortReason}
      (hnew : frame.frameId ∉ s.processedFrames)
      (hpeer : s.peerPublicKey = some frame.senderPublicKey) :
      Accepted P s (.receiveAbort frame nowMillis) (.reason reason)
        { s with
          processedFrames := insert frame.frameId s.processedFrames
          state := .aborted }

variable {P} {s s' : PairingSession} {message : Message}

theorem peer_of_encrypt {nonce : Nat}
    (h : s.encrypt P frameId nowMillis message nonce = .ok frame) :
    s.peerPublicKey ≠ none := by
  intro hpeer
  unfold PairingSession.encrypt at h
  obtain ⟨_, -, h⟩ := result_bind_eq_ok_iff.mp h
  rw [hpeer] at h
  cases h

/-- The methods that check, encrypt a message and move on to another state. -/
theorem attempt_send {guard : PairingSession → Except PairingError Unit} {nonce : Nat}
    {Q : PairingEncryptedFrame → PairingSession → Prop}
    (h : ∀ frame, guard s = .ok () → s.encrypt P frameId nowMillis message nonce = .ok frame →
      Q frame { s with state := state }) :
    Attempt (do
      check guard
      let frame ← check (PairingSession.encrypt P frameId nowMillis message nonce)
      setState state
      return frame : EStateM PairingError PairingSession PairingEncryptedFrame) s Q :=
  ends_check_bind rfl fun _ hguard => ends_check_bind rfl fun frame hframe => h frame hguard hframe

theorem foldl_or_eq_zero_iff (list : List UInt8) (start : UInt8) :
    list.foldl (· ||| ·) start = 0 ↔ start = 0 ∧ ∀ byte ∈ list, byte = 0 := by
  induction list generalizing start with
  | nil => simp
  | cons byte list ih =>
    rw [List.foldl_cons, ih, UInt8.or_eq_zero_iff, List.forall_mem_cons, and_assoc]

theorem zipWith_xor_eq_zero_iff {left right : List UInt8} (hlength : left.length = right.length) :
    (∀ byte ∈ List.zipWith (· ^^^ ·) left right, byte = 0) ↔ left = right := by
  induction left generalizing right with
  | nil =>
    cases right with
    | nil => simp
    | cons b right => simp at hlength
  | cons a left ih =>
    cases right with
    | nil => simp at hlength
    | cons b right =>
      have hrest : left.length = right.length := by simpa using hlength
      rw [List.zipWith_cons_cons, List.forall_mem_cons, ih hrest, UInt8.xor_eq_zero_iff,
        List.cons.injEq]

/-- Comparing without a branch decides equality. -/
theorem constantTimeEq_iff {left right : Bytes32} : constantTimeEq left right ↔ left = right := by
  have hlength : left.bytes.length = right.bytes.length := by
    rw [left.length_eq, right.length_eq]
  rw [constantTimeEq, beq_iff_eq, foldl_or_eq_zero_iff, and_iff_right rfl,
    zipWith_xor_eq_zero_iff hlength, Bytes32.ext_iff]

/-- What is shown of a call: the session was active and accepts it, or it fails and leaves the
session as it was. -/
abbrev Accepts (s : PairingSession) (call : Call) : Prop :=
  Attempt (perform P call) s fun output s' => s.Active call.nowMillis ∧ Accepted P s call output s'

section Frames

variable (frame : PairingEncryptedFrame) (nowMillis : Nat)

theorem accepts_receiveOffer : Accepts (P := P) s (.receiveOffer frame nowMillis) := by
  refine Attempt.map ((attempt_receiveMessage _ frame nowMillis _).bind_same
    fun message _ ⟨hnew, hrequire, _, hmessage⟩ => ?_)
  obtain ⟨hactive, hrole, hstate⟩ := of_require hrequire
  cases message with
  | offer version sessionId =>
    refine ends_guard rfl fun _ => ?_
    cases hdecode : decode32 sessionId with
    | none => exact ends_throw rfl
    | some received =>
      refine ends_get_bind (ends_guard rfl fun hsession => ?_)
      obtain rfl : received = _ := constantTimeEq_iff.mp (by simpa using hsession)
      refine ends_check_bind rfl fun sas hsas => ?_
      refine (attempt_record frame.frameId).bind_total ?_
      rintro _ t rfl
      exact ⟨_, _, rfl, hactive, .receiveOffer hrole hstate hnew hmessage hdecode hsas⟩
  | _ => exact ends_throw rfl

theorem accepts_receiveSasConfirm : Accepts (P := P) s (.receiveSasConfirm frame nowMillis) := by
  refine Attempt.map ((attempt_receiveMessage _ frame nowMillis _).bind_same
    fun message _ ⟨hnew, hrequire, hframe, hmessage⟩ => ?_)
  obtain ⟨hactive, hrole, hstate⟩ := of_require hrequire
  cases message with
  | sasConfirm text =>
    cases hdecode : decode32 text with
    | none =>
      simp only [hdecode]
      exact ends_throw rfl
    | some received =>
      simp only [hdecode]
      refine ends_check_bind rfl fun hash hhash => ends_guard rfl fun hreceived => ?_
      obtain rfl : received = hash := constantTimeEq_iff.mp (by simpa using hreceived)
      exact attempt_record_setState (a := ()) ⟨hactive, .receiveSasConfirm hrole hstate hnew
        (peer_of_validateFrame hframe) hmessage hdecode hhash⟩
  | _ => exact ends_throw rfl

theorem accepts_receivePayload : Accepts (P := P) s (.receivePayload frame nowMillis) := by
  refine Attempt.map ((attempt_receiveMessage _ frame nowMillis _).bind_same
    fun message _ ⟨hnew, hrequire, hframe, _⟩ => ?_)
  obtain ⟨hactive, hrole, hstate⟩ := of_require hrequire
  cases message with
  | payload payloadType text =>
    dsimp only
    split_ifs
    · exact ends_throw rfl
    · exact attempt_record_setState ⟨hactive, .receivePayload hrole hstate hnew
        (peer_of_validateFrame hframe)⟩
  | _ => exact ends_throw rfl

theorem accepts_receiveAbort : Accepts (P := P) s (.receiveAbort frame nowMillis) := by
  refine Attempt.map ((attempt_receiveMessage _ frame nowMillis _).bind_same
    fun message _ ⟨hnew, hactive, hframe, _⟩ => ?_)
  cases message with
  | abort reason =>
    exact attempt_record_setState ⟨active_of_checkActive hactive, .receiveAbort hnew
      (peer_of_validateFrame hframe)⟩
  | _ => exact ends_throw rfl

/-- The one call that may fail and change a session: a completion frame that reports a
failure aborts a source that has sent its payload. -/
theorem accepts_receiveComplete : Accepts (P := P) s (.receiveComplete frame nowMillis) ∨
      (s.role = .source ∧ s.state = .payloadSent ∧ perform P (.receiveComplete frame nowMillis) s =
          .error .peerAborted { s with state := .aborted }) := by
  by_cases hfailure : receiveMessage P (require .source .payloadSent nowMillis) frame nowMillis
      true s = .ok (.complete false) s
  · right
    obtain ⟨-, -, hrequire, -⟩ := (attempt_receiveMessage _ _ _ _).of_ok hfailure
    obtain ⟨-, hrole, hstate⟩ := of_require hrequire
    refine ⟨hrole, hstate, ?_⟩
    simp [perform, map_eq_pure_bind, PairingSession.receiveComplete, hfailure, setState]
  · left
    refine Attempt.map ((attempt_receiveMessage _ frame nowMillis _).bind_same
      fun message hrun ⟨hnew, hrequire, _⟩ => ?_)
    obtain ⟨hactive, hrole, hstate⟩ := of_require hrequire
    cases message with
    | complete success =>
      cases success with
      | false => exact absurd hrun hfailure
      | true =>
        exact attempt_record_setState (a := ()) ⟨hactive, .receiveComplete hrole hstate hnew⟩
    | _ => exact ends_throw rfl

end Frames

theorem accepts_perform (call : Call) :
    Accepts (P := P) s call ∨ (s.role = .source ∧ s.state = .payloadSent ∧
      perform P call s = .error .peerAborted { s with state := .aborted }) := by
  cases call with
  | offer frameId now nonce =>
    refine .inl (.map (ends_check_bind rfl fun _ hrequire => ?_))
    obtain ⟨hactive, hrole, hstate⟩ := of_require hrequire
    exact ends_check rfl fun frame _ => ⟨hactive, .offer hrole hstate⟩
  | receiveOffer frame now => exact .inl (accepts_receiveOffer frame now)
  | confirmSourceSas frameId now nonce =>
    refine .inl (.map (ends_check_bind rfl fun _ hrequire => ?_))
    obtain ⟨hactive, hrole, hstate⟩ := of_require hrequire
    exact ends_check_bind rfl fun hash hhash => ends_check_bind rfl fun frame hframe =>
      ⟨hactive, .confirmSourceSas hrole hstate hhash hframe⟩
  | receiveSasConfirm frame now => exact .inl (accepts_receiveSasConfirm frame now)
  | confirmTargetSas now =>
    refine .inl (.map (ends_check_bind rfl fun _ hrequire => ?_))
    obtain ⟨hactive, hrole, hstate⟩ := of_require hrequire
    exact ends_modify ⟨hactive, .confirmTargetSas hrole hstate⟩
  | sendPayload frameId payload now nonce =>
    refine .inl (.map (attempt_send fun frame hrequire _ => ?_))
    obtain ⟨hactive, hrole, hstate⟩ := of_require hrequire
    exact ⟨hactive, .sendPayload hrole hstate⟩
  | receivePayload frame now => exact .inl (accepts_receivePayload frame now)
  | completeTarget frameId now nonce =>
    refine .inl (.map (attempt_send fun frame hrequire _ => ?_))
    obtain ⟨hactive, hrole, hstate⟩ := of_require hrequire
    exact ⟨hactive, .completeTarget hrole hstate⟩
  | receiveComplete frame now => exact accepts_receiveComplete frame now
  | abort frameId reason now nonce =>
    exact .inl (.map (attempt_send fun frame hactive hencrypt =>
      ⟨active_of_checkActive hactive, .abort (peer_of_encrypt hencrypt)⟩))
  | receiveAbort frame now => exact .inl (accepts_receiveAbort frame now)

/-- **What a session does when it accepts a call.** -/
theorem accepted_of_perform {call : Call} {output : Output} (h : perform P call s = .ok output s') :
    s.Active call.nowMillis ∧ Accepted P s call output s' := by
  rcases accepts_perform call with haccepts | ⟨-, -, herror⟩
  · exact haccepts.of_ok h
  · cases herror.symm.trans h

/-- **A call that fails** leaves the session as it was, or it aborts a source that has sent
its payload. -/
theorem perform_error {call : Call} {e : PairingError} (h : perform P call s = .error e s') :
    s' = s ∨ s.role = .source ∧ s.state = .payloadSent ∧ s' = { s with state := .aborted } := by
  rcases accepts_perform call with haccepts | ⟨hrole, hstate, herror⟩
  · exact .inl (haccepts.of_error h)
  · exact .inr ⟨hrole, hstate, (EStateM.Result.error.inj (h.symm.trans herror)).2⟩

end XorEditor.Nostr
