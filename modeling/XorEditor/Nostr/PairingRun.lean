import XorEditor.Nostr.PairingSteps

/-!
# Runs of a pairing session

What holds along every run of a session, whatever calls are made on it, with whatever
frames and clock values: a secret leaves the source, and is taken in by the target, at most
once and only after both users have confirmed the authentication string for one pair of
keys.

* `Run`: a run, with the events that it has given out
* `Invariant`: what holds along it
-/

namespace XorEditor.Nostr

open Lib Method PairingSession List

/-- An accepted call, with the session it was made on. -/
structure Event where
  call : Call
  output : Output
  before : PairingSession
  deriving DecidableEq

/-- A session right after its creation, with the QR code it shows or has scanned. -/
inductive Started (P : Primitives) : PairingSession → PairingQr → Prop
  | source {s : PairingSession} {qr : PairingQr} {ephemeralSecret sessionSecret : Bytes32}
      {relays : List String} {createdAtMillis : Nat} :
      newSource P ephemeralSecret sessionSecret relays createdAtMillis = .ok (s, qr) →
        Started P s qr
  | target {s : PairingSession} {qr : PairingQr} {ephemeralSecret : Bytes32}
      {createdAtMillis : Nat} :
      newTarget P qr ephemeralSecret createdAtMillis = .ok s → Started P s qr

/-- A run of a session and the calls it has accepted, the latest first. -/
inductive Run (P : Primitives) (start : PairingSession) : List Event → PairingSession → Prop
  | start : Run P start [] start
  | accept {events : List Event} {s s' : PairingSession} {call : Call} {output : Output} :
      Run P start events s → perform P call s = .ok output s' →
        Run P start (⟨call, output, s⟩ :: events) s'
  | reject {events : List Event} {s s' : PairingSession} {call : Call} {e : PairingError} :
      Run P start events s → perform P call s = .error e s' → Run P start events s'

/-- The call sends a payload or takes one in. -/
def Call.IsPayload : Call → Prop
  | .sendPayload _ _ _ _ | .receivePayload _ _ => True
  | _ => False

/-- The identifiers of the frames that were accepted. -/
def inboundIds (events : List Event) : List PairingFrameId :=
  events.filterMap fun event => event.call.inboundFrame.map PairingEncryptedFrame.frameId

section Confirmations

variable (P : Primitives) (start : PairingSession) (peer : PublicKey) (events : List Event)

/-- A source accepted an offer that carried its session id from this peer. -/
def Offered : Prop :=
  ∃ event ∈ events, ∃ frame nowMillis version sessionId,
    event.call = .receiveOffer frame nowMillis ∧ frame.senderPublicKey = peer ∧
    event.before.decrypt P frame = .ok (.offer version sessionId) ∧
    decode32 sessionId = some start.sessionId

/-- A source accepted such an offer, and then its user confirmed the authentication string. -/
def SourceConfirmed : Prop :=
  ∃ newer event older, events = newer ++ event :: older ∧
    (∃ frameId nowMillis nonce, event.call = .confirmSourceSas frameId nowMillis nonce) ∧
    Offered P start peer older

/-- A target accepted the hash of its own transcript from this peer. -/
def SasAccepted : Prop :=
  ∃ event ∈ events, ∃ frame nowMillis text hash,
    event.call = .receiveSasConfirm frame nowMillis ∧ frame.senderPublicKey = peer ∧
    event.before.decrypt P frame = .ok (.sasConfirm text) ∧ decode32 text = some hash ∧
    event.before.transcriptHash P = .ok hash

/-- A target accepted its transcript hash, and then its user confirmed the authentication
string. -/
def TargetConfirmed : Prop :=
  ∃ newer event older, events = newer ++ event :: older ∧
    (∃ nowMillis, event.call = .confirmTargetSas nowMillis) ∧ SasAccepted P peer older

/-- What ties the session to its peer, by role. -/
def Opened : Prop :=
  match start.role with
  | .source => Offered P start peer events
  | .target => SasAccepted P peer events

/-- The confirmation that must precede the payload, by role. -/
def Confirmed : Prop :=
  match start.role with
  | .source => SourceConfirmed P start peer events
  | .target => TargetConfirmed P peer events

end Confirmations

namespace PairingSession

/-- What never changes in a session. -/
def core (s : PairingSession) : PairingSession :=
  { s with
    state := .waitingOffer
    peerPublicKey := none
    sasInput := none
    sasCode := none
    processedFrames := ∅ }

theorem role_of_core {s t : PairingSession} (h : s.core = t.core) : s.role = t.role := by
  have hrole : s.core.role = t.core.role := by rw [h]
  exact hrole

/-- What a session has agreed on with its peer. -/
def agreement (s : PairingSession) : Option PublicKey × Option Bytes32 × Option Nat :=
  (s.peerPublicKey, s.sasInput, s.sasCode)

/-- The payload has been sent or received, or it never will be. -/
def Released (s : PairingSession) : Prop :=
  s.state = .payloadSent ∨ s.state = .payloadReceived ∨ s.state = .completed ∨ s.state = .aborted

end PairingSession

/-- What holds at every point of a run. -/
structure Invariant (P : Primitives) (start : PairingSession) (qr : PairingQr) (events : List Event)
    (s : PairingSession) : Prop where
  core : s.core = start.core
  accepted : ∀ event ∈ events, event.before.core = start.core ∧
    event.before.Active event.call.nowMillis ∧
    (∃ after, Accepted P event.before event.call event.output after) ∧
    (event.before.state ≠ .waitingOffer → event.before.agreement = s.agreement)
  processed : s.processedFrames = (inboundIds events).toFinset
  nodup : (inboundIds events).Nodup
  waiting : s.state = .waitingOffer → s.role = .source ∧ s.agreement = (none, none, none) ∧
    events = []
  target_peer : s.role = .target → s.peerPublicKey = some qr.sourcePublicKey
  agreed : s.state ≠ .waitingOffer → ∃ peer sasInput, s.agreement =
    (some peer, some sasInput, some (sasCodeOf sasInput))
  opened : s.state = .awaitingSourceConfirmation ∨ s.state = .awaitingTargetConfirmation →
    ∀ peer, s.peerPublicKey = some peer → Opened P start peer events
  confirmed : s.state = .transferring →
    ∀ peer, s.peerPublicKey = some peer → Confirmed P start peer events
  released : ∀ event ∈ events, event.call.IsPayload → s.Released
  payloads : ∀ newer event older, events = newer ++ event :: older → event.call.IsPayload →
    (∀ earlier ∈ older, ¬ earlier.call.IsPayload) ∧
    ∃ peer, s.peerPublicKey = some peer ∧ Confirmed P start peer older

namespace Invariant

variable {P : Primitives} {start : PairingSession} {qr : PairingQr} {events : List Event}
  {s s' : PairingSession}

theorem role_eq (h : Invariant P start qr events s) : s.role = start.role :=
  role_of_core h.core

theorem inboundIds_cons (event : Event) (events : List Event) : inboundIds (event :: events) =
      (event.call.inboundFrame.map PairingEncryptedFrame.frameId).toList ++ inboundIds events := by
  unfold inboundIds
  rw [filterMap_cons]
  cases event.call.inboundFrame <;> rfl

variable {peer : PublicKey} {ephemeralSecret sessionSecret sasInput : Bytes32}
  {sasCode createdAtMillis : Nat} {output : Output} {call : Call}

/-- What every call that is accepted once the peer is known has found, and keeps. -/
theorem accepted_facts (h : Accepted P s call output s') (hstate : s.state ≠ .waitingOffer) :
    s'.state ≠ .waitingOffer ∧ s'.core = s.core ∧ s'.agreement = s.agreement ∧
      s'.processedFrames = (call.inboundFrame.map PairingEncryptedFrame.frameId).toList.toFinset ∪
        s.processedFrames ∧
      (∀ frame, call.inboundFrame = some frame → frame.frameId ∉ s.processedFrames) ∧
      (s.Released ∨ call.IsPayload → s'.Released) ∧
      (call.IsPayload → s.state = .transferring) := by
  cases h with
  | receiveOffer _ hwaiting => exact absurd hwaiting hstate
  | _ =>
    refine ⟨by simp_all, rfl, rfl, ?_⟩
    simp_all [Call.inboundFrame, Call.IsPayload, Released]

/-- A call that is accepted once the peer is known. -/
theorem next (h : Invariant P start qr events s) (hactive : s.Active call.nowMillis)
    (haccepted : Accepted P s call output s') (hstate : s.state ≠ .waitingOffer)
    (hopened : s'.state = .awaitingSourceConfirmation ∨ s'.state = .awaitingTargetConfirmation →
      ∀ peer, s.peerPublicKey = some peer → Opened P start peer (⟨call, output, s⟩ :: events))
    (hconfirmed : s'.state = .transferring → ∀ peer, s.peerPublicKey = some peer →
      Confirmed P start peer (⟨call, output, s⟩ :: events)) :
    Invariant P start qr (⟨call, output, s⟩ :: events) s' := by
  obtain ⟨hstate', hcore, hagreement, hprocessed, hnew, hreleased, hpayload⟩ :=
    accepted_facts haccepted hstate
  have hpeer : s'.peerPublicKey = s.peerPublicKey := congrArg Prod.fst hagreement
  have hrole : s'.role = s.role := role_of_core hcore
  obtain ⟨peer, sasInput, hagreed⟩ := h.agreed hstate
  have hpeerSome : s.peerPublicKey = some peer := congrArg Prod.fst hagreed
  refine {
    core := hcore.trans h.core
    accepted := ?_
    processed := ?_
    nodup := ?_
    waiting := fun hwaiting => absurd hwaiting hstate'
    target_peer := fun htarget => hpeer.trans (h.target_peer (hrole ▸ htarget))
    agreed := fun _ => ⟨peer, sasInput, hagreement.trans hagreed⟩
    opened := fun hs' peer hs => hopened hs' peer (hpeer ▸ hs)
    confirmed := fun hs' peer hs => hconfirmed hs' peer (hpeer ▸ hs)
    released := ?_
    payloads := ?_ }
  · intro event hevent
    obtain rfl | hevent := mem_cons.mp hevent
    · exact ⟨h.core, hactive, ⟨s', haccepted⟩, fun _ => hagreement.symm⟩
    · obtain ⟨hcore', hactive', haccepted', hagreement'⟩ := h.accepted event hevent
      exact ⟨hcore', hactive', haccepted', fun hne => (hagreement' hne).trans hagreement.symm⟩
  · rw [hprocessed, inboundIds_cons, toFinset_append, h.processed]
  · rw [inboundIds_cons]
    cases hframe : call.inboundFrame with
    | none => exact h.nodup
    | some frame =>
      have hfresh := hnew frame hframe
      rw [h.processed, mem_toFinset] at hfresh
      exact nodup_cons.mpr ⟨hfresh, h.nodup⟩
  · intro event hevent hispayload
    obtain rfl | hevent := mem_cons.mp hevent
    · exact hreleased (Or.inr hispayload)
    · exact hreleased (Or.inl (h.released event hevent hispayload))
  · intro newer earlier older hsplit hearlier
    cases newer with
    | nil =>
      obtain ⟨rfl, rfl⟩ := List.cons.inj hsplit
      have htransferring := hpayload hearlier
      refine ⟨fun other hother hotherPayload => ?_, peer, hpeer.trans hpeerSome,
        h.confirmed htransferring peer hpeerSome⟩
      have hover := h.released other hother hotherPayload
      simp [Released, htransferring] at hover
    | cons _ newer =>
      obtain ⟨-, hsplit⟩ := List.cons.inj hsplit
      obtain ⟨hother, peer', hpeer', hconfirmed'⟩ := h.payloads newer earlier older hsplit hearlier
      exact ⟨hother, peer', hpeer.trans hpeer', hconfirmed'⟩

theorem not_waiting_of_peer (h : Invariant P start qr events s)
    (hpeer : s.peerPublicKey = some peer) : s.state ≠ .waitingOffer := by
  intro hwaiting
  have hnone : s.peerPublicKey = none := congrArg Prod.fst (h.waiting hwaiting).2.1
  rw [hpeer] at hnone
  cases hnone

theorem sasCode_of_deriveSas
    (h : deriveSas P ephemeralSecret peer sessionSecret = .ok (sasCode, sasInput)) :
    sasCode = sasCodeOf sasInput := by
  unfold deriveSas at h
  obtain ⟨-, hshared⟩ := result_guard_eq_ok_iff.mp h
  split at hshared
  · obtain ⟨rfl, rfl⟩ := Prod.mk.inj (Except.ok.inj hshared)
    rfl
  · cases hshared

section Step

variable (h : Invariant P start qr events s) {event : Event}
include h

/-- The first call a source accepts. -/
theorem firstOffer {frame : PairingEncryptedFrame} {nowMillis : Nat} (hactive : s.Active nowMillis)
    (haccepted : Accepted P s (.receiveOffer frame nowMillis) output s') :
    Invariant P start qr (⟨.receiveOffer frame nowMillis, output, s⟩ :: events) s' := by
  have hbefore := haccepted
  cases haccepted with
  | @receiveOffer _ _ version sasCode sessionId sasInput hrole hstate hnew hmessage hsession hsas =>
    obtain ⟨-, -, rfl⟩ := h.waiting hstate
    have hempty : s.processedFrames = ∅ := by simpa [inboundIds] using h.processed
    have hid : s.sessionId = start.sessionId := by
      have hsessionId : s.core.sessionId = start.core.sessionId := by rw [h.core]
      exact hsessionId
    refine {
      core := h.core
      accepted := ?_
      processed := by simp [hempty, inboundIds, Call.inboundFrame]
      nodup := by simp [inboundIds, Call.inboundFrame]
      waiting := by simp
      target_peer := by simp [hrole]
      agreed := ?_
      opened := ?_
      confirmed := by simp
      released := by simp [Call.IsPayload]
      payloads := ?_ }
    · intro event hevent
      obtain rfl := mem_singleton.mp hevent
      exact ⟨h.core, hactive, ⟨_, hbefore⟩, fun hne => absurd hstate hne⟩
    · intro _
      refine ⟨frame.senderPublicKey, sasInput, ?_⟩
      rw [← sasCode_of_deriveSas hsas]
      rfl
    · intro _ peer hpeer
      rw [Opened, ← h.role_eq, hrole]
      refine ⟨_, mem_singleton_self _, frame, nowMillis, version, sessionId, rfl,
        Option.some.inj hpeer, hmessage, hid ▸ hsession⟩
    · intro newer event older hsplit hpayload
      have hmem : event ∈ newer ++ event :: older := by simp
      rw [← hsplit, mem_singleton] at hmem
      rw [hmem] at hpayload
      exact hpayload.elim

theorem accept (hactive : s.Active call.nowMillis) (haccepted : Accepted P s call output s') :
    Invariant P start qr (⟨call, output, s⟩ :: events) s' := by
  have hnext := h.next hactive haccepted
  cases haccepted with
  | receiveOffer hrole hstate hnew hmessage hsession hsas =>
    exact h.firstOffer hactive (.receiveOffer hrole hstate hnew hmessage hsession hsas)
  | @confirmSourceSas frameId now nonce hash frame hrole hstate =>
    refine hnext (by simp [hstate]) (by simp) fun _ peer hpeer => ?_
    have hopened := h.opened (Or.inl hstate) peer hpeer
    rw [Opened, ← h.role_eq, hrole] at hopened
    rw [Confirmed, ← h.role_eq, hrole]
    exact ⟨[], _, events, rfl, ⟨frameId, now, nonce, rfl⟩, hopened⟩
  | @receiveSasConfirm frame now text hash hrole hstate hnew hpeer hmessage hdecode hhash =>
    refine hnext (by simp [hstate]) (fun _ peer hpeer' => ?_) (by simp)
    rw [Opened, ← h.role_eq, hrole]
    exact ⟨_, mem_cons_self, frame, now, text, hash, rfl,
      Option.some.inj (hpeer.symm.trans hpeer'), hmessage, hdecode, hhash⟩
  | @confirmTargetSas now hrole hstate =>
    refine hnext (by simp [hstate]) (by simp) fun _ peer hpeer => ?_
    have hopened := h.opened (Or.inr hstate) peer hpeer
    rw [Opened, ← h.role_eq, hrole] at hopened
    rw [Confirmed, ← h.role_eq, hrole]
    exact ⟨[], _, events, rfl, ⟨now, rfl⟩, hopened⟩
  | offer _ hstate | sendPayload _ hstate | receivePayload _ hstate | completeTarget _ hstate
  | receiveComplete _ hstate =>
    exact hnext (by simp [hstate]) (by simp [hstate]) (by simp [hstate])
  | abort hpeer =>
    obtain ⟨peer, hsome⟩ := Option.ne_none_iff_exists'.mp hpeer
    exact hnext (h.not_waiting_of_peer hsome) (by simp) (by simp)
  | receiveAbort _ hpeer => exact hnext (h.not_waiting_of_peer hpeer) (by simp) (by simp)

theorem reject (hcases : s' = s ∨ s.role = .source ∧ s.state = .payloadSent ∧
      s' = { s with state := .aborted }) : Invariant P start qr events s' := by
  obtain rfl | ⟨-, hstate, rfl⟩ := hcases
  · exact h
  · exact {
      core := h.core
      accepted := h.accepted
      processed := h.processed
      nodup := h.nodup
      waiting := by simp
      target_peer := h.target_peer
      agreed := fun _ => h.agreed (by simp [hstate])
      opened := by simp
      confirmed := by simp
      released := by simp [Released]
      payloads := h.payloads }

/-- A session that has accepted a call knows its peer. -/
theorem agreed_of_event (hevent : event ∈ events) :
    ∃ peer sasInput, s.agreement = (some peer, some sasInput, some (sasCodeOf sasInput)) := by
  apply h.agreed
  intro hwaiting
  rw [(h.waiting hwaiting).2.2] at hevent
  cases hevent

/-- There is only one payload event, and the confirmation precedes it. -/
theorem unique_payload {newer older : List Event} (hsplit : events = newer ++ event :: older)
    (hpayload : event.call.IsPayload) : (∀ other ∈ newer ++ older, ¬ other.call.IsPayload) ∧
      ∃ peer, s.peerPublicKey = some peer ∧ Confirmed P start peer older := by
  obtain ⟨hearlier, hconfirmed⟩ := h.payloads newer event older hsplit hpayload
  refine ⟨fun other hother hotherPayload => ?_, hconfirmed⟩
  obtain hother | hother := mem_append.mp hother
  · -- a later payload would have this one before it
    obtain ⟨newest, between, rfl⟩ := append_of_mem hother
    have hlater := h.payloads newest other (between ++ event :: older) (by simp [hsplit])
      hotherPayload
    exact hlater.1 event (by simp) hpayload
  · exact hearlier other hother hotherPayload

end Step

theorem of_newSource {relays : List String}
    (h : newSource P ephemeralSecret sessionSecret relays createdAtMillis = .ok (s, qr)) :
    Invariant P s qr [] s := by
  unfold newSource at h
  obtain ⟨-, h⟩ := result_guard_eq_ok_iff.mp h
  obtain ⟨localPublicKey, -, h⟩ := result_bind_eq_ok_iff.mp h
  obtain ⟨expiresAtMillis, -, h⟩ := result_bind_eq_ok_iff.mp h
  obtain ⟨-, h⟩ := result_guard_eq_ok_iff.mp h
  obtain ⟨_, -, h⟩ := result_bind_eq_ok_iff.mp h
  obtain ⟨rfl, rfl⟩ := Prod.mk.inj (Except.ok.inj h)
  exact {
    core := rfl
    accepted := by simp
    processed := rfl
    nodup := nodup_nil
    waiting := fun _ => ⟨rfl, rfl, rfl⟩
    target_peer := by simp
    agreed := by simp
    opened := by simp
    confirmed := by simp
    released := by simp
    payloads := by simp }

theorem of_newTarget (h : newTarget P qr ephemeralSecret createdAtMillis = .ok s) :
    Invariant P s qr [] s := by
  unfold newTarget at h
  obtain ⟨-, h⟩ := result_guard_eq_ok_iff.mp h
  obtain ⟨-, h⟩ := result_guard_eq_ok_iff.mp h
  obtain ⟨localPublicKey, -, h⟩ := result_bind_eq_ok_iff.mp h
  obtain ⟨expiresAtMillis, -, h⟩ := result_bind_eq_ok_iff.mp h
  obtain ⟨⟨sasCode, sasInput⟩, hsas, h⟩ := result_bind_eq_ok_iff.mp h
  obtain rfl := Except.ok.inj h
  exact {
    core := rfl
    accepted := by simp
    processed := rfl
    nodup := nodup_nil
    waiting := by simp
    target_peer := fun _ => rfl
    agreed := fun _ => ⟨qr.sourcePublicKey, sasInput, by rw [← sasCode_of_deriveSas hsas]; rfl⟩
    opened := by simp
    confirmed := by simp
    released := by simp
    payloads := by simp }

end Invariant

section Runs

variable {P : Primitives} {start s s' : PairingSession} {qr : PairingQr} {events : List Event}
  {later : List Event}

theorem Started.invariant (h : Started P start qr) : Invariant P start qr [] start := by
  cases h with
  | source h => exact .of_newSource h
  | target h => exact .of_newTarget h

theorem Run.invariant (h : Run P start events s) (hstart : Started P start qr) :
    Invariant P start qr events s := by
  induction h with
  | start => exact hstart.invariant
  | accept _ hcall ih =>
    obtain ⟨hactive, haccepted⟩ := accepted_of_perform hcall
    exact ih.accept hactive haccepted
  | reject _ hcall ih => exact ih.reject (perform_error hcall)

theorem Run.trans (h : Run P start events s) (h' : Run P s later s') :
    Run P start (later ++ events) s' := by
  induction h' with
  | start => exact h
  | accept _ hcall ih => exact ih.accept hcall
  | reject _ hcall ih => exact ih.reject hcall

/-- Make the calls of a list one after the other, on a session with these events so far. -/
def replay (P : Primitives) : List Call → List Event × PairingSession → List Event × PairingSession
  | [], run => run
  | call :: calls, (events, s) =>
    match perform P call s with
    | .ok output s' => replay P calls (⟨call, output, s⟩ :: events, s')
    | .error _ s' => replay P calls (events, s')

theorem Run.replay (calls : List Call) {run : List Event × PairingSession}
    (h : Run P start run.1 run.2) :
    Run P start (replay P calls run).1 (Nostr.replay P calls run).2 := by
  induction calls generalizing run with
  | nil => exact h
  | cons call calls ih =>
    unfold Nostr.replay
    cases hcall : perform P call run.2 with
    | ok output s' => exact @ih (⟨call, output, run.2⟩ :: run.1, s') (h.accept hcall)
    | error e s' => exact ih (h.reject hcall)

/-- Once the peer is known it stays the same, with everything agreed on with it. -/
theorem Run.agreement_eq (hstart : Started P start qr) (h : Run P start events s)
    (h' : Run P s later s') {peer : PublicKey} (hpeer : s.peerPublicKey = some peer) :
    s'.peerPublicKey = some peer ∧ s'.agreement = s.agreement := by
  induction h' with
  | start => exact ⟨hpeer, rfl⟩
  | @accept later t t' call output ht hcall ih =>
    obtain ⟨hpeer', hagreement⟩ := ih
    have hwaiting := ((h.trans ht).invariant hstart).not_waiting_of_peer hpeer'
    obtain ⟨-, haccepted⟩ := accepted_of_perform hcall
    cases haccepted with
    | receiveOffer _ hstate => exact absurd hstate hwaiting
    | _ => exact ⟨hpeer', hagreement⟩
  | @reject later t t' call e ht hcall ih =>
    obtain rfl | ⟨-, -, rfl⟩ := perform_error hcall
    · exact ih
    · exact ih

end Runs

end XorEditor.Nostr
