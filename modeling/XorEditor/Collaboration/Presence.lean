import XorEditor.Collaboration.Membership
import XorEditor.Lib.Method

/-!
# Presence

The presence of a member is projected from its signed observations and from the observations
of rooms.  Of each source the latest observation is stored, and one that is not newer is
refused.  A membership that is not active clears what is stored: when it is active again, an
observation that was refused or replaced before is applied.

* `PresenceProjection`: the projection and its calls
* `replayed_observation_ignored`: when an old observation stays out
-/

namespace XorEditor.Collaboration

open Lib

structure NostrPublicKey where
  bytes : BitVec 256
  deriving DecidableEq

structure PresenceSubject where
  communityId : CommunityId
  principalId : PrincipalId
  nostrPublicKey : NostrPublicKey

inductive PresenceStatus where
  | online
  | away
  | offline
  deriving DecidableEq

abbrev RoomPresenceSourceId := AggregateId

structure SignedPresenceObservation where
  communityId : CommunityId
  principalId : PrincipalId
  eventId : NostrEventId
  author : NostrPublicKey
  status : PresenceStatus
  observedAtMillis : U64
  expiresAtMillis : Option U64
  deriving DecidableEq

structure RoomPresenceObservation where
  communityId : CommunityId
  principalId : PrincipalId
  sourceId : RoomPresenceSourceId
  sequence : U64
  status : PresenceStatus
  observedAtMillis : U64
  expiresAtMillis : Option U64
  deriving DecidableEq

inductive PresenceMutationOutcome where
  | applied
  | unchanged
  | ignoredStale
  deriving DecidableEq

inductive PresenceError where
  | membershipScopeMismatch
  | inactiveMembership
  | conflictingMembershipVersion
  | revokedMembershipIsTerminal
  | observationScopeMismatch
  | conflictingObservationOrder
  deriving DecidableEq

structure PresenceProjection where
  subject : PresenceSubject
  membership : CommunityMembership
  signed : Option SignedPresenceObservation
  rooms : Std.ExtTreeMap RoomPresenceSourceId RoomPresenceObservation

def validateMembership (subject : PresenceSubject) (membership : CommunityMembership) :
    Except PresenceError Unit :=
  if membership.communityId = subject.communityId ∧
      membership.principalId = subject.principalId then .ok ()
  else .error .membershipScopeMismatch

def compareSignedObservations (candidate current : SignedPresenceObservation) : Ordering :=
  (compare candidate.observedAtMillis.val current.observedAtMillis.val).then
    (compare current.eventId.bytes.toNat candidate.eventId.bytes.toNat)

/-- What becomes of an observation, next to the one that its source has stored. -/
def judge {T : Type} [DecidableEq T] (order : T → T → Ordering) (stored : Option T)
    (observation : T) : Except PresenceError PresenceMutationOutcome :=
  match stored with
  | none => .ok .applied
  | some current =>
    if observation = current then .ok .unchanged
    else match order observation current with
      | .lt => .ok .ignoredStale
      | .eq => .error .conflictingObservationOrder
      | .gt => .ok .applied

/-- A method that writes only where its tests end with `Applied`. -/
def commit (verdict : PresenceProjection → Except PresenceError PresenceMutationOutcome)
    (write : PresenceProjection → PresenceProjection) (self : PresenceProjection) :
    Except PresenceError PresenceMutationOutcome × PresenceProjection :=
  match verdict self with
  | .ok .applied => (.ok .applied, write self)
  | result => (result, self)

namespace PresenceProjection

variable (self : PresenceProjection)

def requireActiveMembership : Except PresenceError Unit :=
  if self.membership.status = .active then .ok () else .error .inactiveMembership

def reconcileMembership (membership : CommunityMembership) :
    PresenceProjection → Except PresenceError PresenceMutationOutcome × PresenceProjection :=
  commit
    (fun self => do
      validateMembership self.subject membership
      if membership.version.get < self.membership.version.get then
        return .ignoredStale
      if membership.version = self.membership.version then
        if membership = self.membership then return .unchanged
        else throw .conflictingMembershipVersion
      if self.membership.status = .revoked ∧ membership.status ≠ .revoked then
        throw .revokedMembershipIsTerminal
      return .applied)
    fun self =>
      if membership.status ≠ .active then
        { self with membership := membership, signed := none, rooms := ∅ }
      else { self with membership := membership }

def applySigned (observation : SignedPresenceObservation) :
    PresenceProjection → Except PresenceError PresenceMutationOutcome × PresenceProjection :=
  commit
    (fun self => do
      self.requireActiveMembership
      if observation.communityId ≠ self.subject.communityId ∨
          observation.principalId ≠ self.subject.principalId ∨
          observation.author ≠ self.subject.nostrPublicKey then
        throw .observationScopeMismatch
      judge compareSignedObservations self.signed observation)
    fun self => { self with signed := some observation }

def applyRoom (observation : RoomPresenceObservation) :
    PresenceProjection → Except PresenceError PresenceMutationOutcome × PresenceProjection :=
  commit
    (fun self => do
      self.requireActiveMembership
      if observation.communityId ≠ self.subject.communityId ∨
          observation.principalId ≠ self.subject.principalId then
        throw .observationScopeMismatch
      judge (fun observation current => compare observation.sequence.val current.sequence.val)
        self.rooms[observation.sourceId]? observation)
    fun self => { self with rooms := self.rooms.insert observation.sourceId observation }

/-! ### Observations and their sources -/

inductive Observation where
  | signed (observation : SignedPresenceObservation)
  | room (observation : RoomPresenceObservation)

namespace Observation

/-- The source of an observation: the signed one, or a room. -/
def source : Observation → Option RoomPresenceSourceId
  | signed _ => none
  | room o => some o.sourceId

/-- The order of a source: by time and then by lower event, or by sequence. -/
def Newer : Observation → Observation → Prop
  | signed candidate, signed current =>
    current.observedAtMillis < candidate.observedAtMillis ∨
      current.observedAtMillis = candidate.observedAtMillis ∧
        candidate.eventId.bytes < current.eventId.bytes
  | room candidate, room current => current.sequence < candidate.sequence
  | _, _ => False

/-- The observation is of the subject. -/
def InScope (subject : PresenceSubject) : Observation → Prop
  | signed o => o.communityId = subject.communityId ∧ o.principalId = subject.principalId ∧
      o.author = subject.nostrPublicKey
  | room o => o.communityId = subject.communityId ∧ o.principalId = subject.principalId

theorem not_newer_self (o : Observation) : ¬ o.Newer o := by
  cases o <;> simp [Newer]

theorem not_newer_trans {a b c : Observation} (hab : a.source.isSome = b.source.isSome)
    (h : ¬ a.Newer b) (hbc : b.source.isSome = c.source.isSome) (h' : ¬ b.Newer c) :
    ¬ a.Newer c := by
  cases a <;> cases b <;> cases c <;> simp [source] at hab hbc
  · simp only [Newer, Fin.lt_def, Fin.ext_iff, BitVec.lt_def] at h h' ⊢
    omega
  · simp only [Newer, Fin.lt_def] at h h' ⊢
    omega

theorem Newer.asymm {a b : Observation} (h : a.Newer b) : ¬ b.Newer a := by
  cases a <;> cases b <;> simp only [Newer, Fin.lt_def, Fin.ext_iff, BitVec.lt_def] at h ⊢ <;> omega

end Observation

/-- What is stored of a source. -/
def stored : Option RoomPresenceSourceId → Option Observation
  | none => self.signed.map .signed
  | some id => self.rooms[id]?.map .room

/-! ### Calls -/

inductive Call where
  | observe (observation : Observation)
  | reconcileMembership (membership : CommunityMembership)

def Call.method : Call → PresenceProjection →
    Except PresenceError PresenceMutationOutcome × PresenceProjection
  | observe (.signed o) => applySigned o
  | observe (.room o) => applyRoom o
  | reconcileMembership membership => PresenceProjection.reconcileMembership membership

def perform (call : Call) : PresenceProjection :=
  (call.method self).2

def Applies (call : Call) : Prop :=
  (call.method self).1 = .ok .applied

section Calls

variable {self : PresenceProjection} {o c : Observation}

variable {verdict : PresenceProjection → Except PresenceError PresenceMutationOutcome}
  {write : PresenceProjection → PresenceProjection}

theorem commit_fst : (commit verdict write self).1 = verdict self := by
  unfold commit
  split <;> simp [*]

theorem commit_snd (h : (commit verdict write self).1 = .ok .applied) :
    (commit verdict write self).2 = write self := by
  rw [commit_fst] at h
  rw [commit, h]

theorem judge_eq_applied_iff {T : Type} [DecidableEq T] {order : T → T → Ordering}
    (horder : ∀ o, order o o ≠ .gt) {stored : Option T} {observation : T} :
    judge order stored observation = .ok .applied ↔
      ∀ current ∈ stored, order observation current = .gt := by
  unfold judge
  cases stored with
  | none => simp
  | some current =>
    simp only [Option.mem_some_iff, forall_eq']
    split
    · next heq => simp [heq, horder current]
    · split <;> simp [*]

theorem compareSigned_eq_gt_iff {candidate current : SignedPresenceObservation} :
    compareSignedObservations candidate current = .gt ↔
      (Observation.signed candidate).Newer (.signed current) := by
  rw [compareSignedObservations, Ordering.then_eq_gt, Nat.compare_eq_gt, Nat.compare_eq_eq,
    Nat.compare_eq_gt, Observation.Newer, Fin.lt_def, Fin.ext_iff, BitVec.lt_def]
  tauto

/-- The tests that both observing methods make. -/
theorem observe_verdict_iff {scope : Prop} [Decidable scope] {T : Type} [DecidableEq T]
    {order : T → T → Ordering} (horder : ∀ o, order o o ≠ .gt) {current : Option T}
    {candidate : T} :
    (do
      self.requireActiveMembership
      if scope then
        throw .observationScopeMismatch
      judge order current candidate) = Except.ok PresenceMutationOutcome.applied ↔
      self.membership.status = .active ∧ ¬ scope ∧ ∀ c ∈ current, order candidate c = .gt := by
  rw [Method.result_bind_eq_ok_iff, ← judge_eq_applied_iff horder]
  simp only [Method.result_guard_eq_ok_iff, exists_and_right]
  refine and_congr_left fun _ => ?_
  unfold requireActiveMembership
  split <;> simp [*]

/-- When an observation is applied. -/
theorem applies_observe_iff :
    self.Applies (.observe o) ↔ self.membership.status = .active ∧ o.InScope self.subject ∧
      ∀ c ∈ self.stored o.source, o.Newer c := by
  unfold Applies
  cases o with
  | signed o =>
    rw [Call.method, applySigned, commit_fst, observe_verdict_iff fun o => by
      simp [compareSigned_eq_gt_iff, Observation.not_newer_self]]
    simp [compareSigned_eq_gt_iff, Observation.InScope, stored, Observation.source]
  | room o =>
    rw [Call.method, applyRoom, commit_fst, observe_verdict_iff fun o => by simp]
    simp [Nat.compare_eq_gt, Observation.InScope, stored, Observation.source, Observation.Newer]

/-- A call that is not applied changes nothing. -/
theorem perform_of_not_applies {call : Call} (h : ¬ self.Applies call) :
    self.perform call = self := by
  have hcommit : ∀ verdict write, call.method = commit verdict write →
      (call.method self).2 = self := by
    intro verdict write hmethod
    rw [Applies, hmethod, commit_fst] at h
    rw [hmethod, commit]
    split
    · contradiction
    · rfl
  cases call with
  | observe o => cases o <;> exact hcommit _ _ rfl
  | reconcileMembership membership => exact hcommit _ _ rfl

/-- An observation that is applied is stored, and those of other sources stay. -/
theorem stored_of_applies (h : self.Applies (.observe o)) :
    (self.perform (.observe o)).stored o.source = some o ∧
      (∀ source ≠ o.source, (self.perform (.observe o)).stored source = self.stored source) ∧
      (self.perform (.observe o)).subject = self.subject := by
  cases o with
  | signed o =>
    have hperform : self.perform (.observe (.signed o)) = { self with signed := some o } :=
      commit_snd h
    rw [hperform]
    refine ⟨rfl, fun source hsource => ?_, rfl⟩
    obtain ⟨id, rfl⟩ := Option.ne_none_iff_exists'.mp hsource
    rfl
  | room o =>
    have hperform : self.perform (.observe (.room o)) =
        { self with rooms := self.rooms.insert o.sourceId o } :=
      commit_snd h
    rw [hperform]
    refine ⟨by simp [stored, Observation.source], fun source hsource => ?_, rfl⟩
    cases source with
    | none => rfl
    | some id =>
      have hid : ¬ o.sourceId = id := fun heq => hsource (congrArg some heq.symm)
      simp [stored, Std.ExtTreeMap.getElem?_insert, hid]

/-- A new membership keeps what is stored if it is active. -/
theorem reconcile_cases (membership : CommunityMembership) :
    (self.perform (.reconcileMembership membership)).subject = self.subject ∧
      ((self.perform (.reconcileMembership membership)).membership.status = .active →
        (self.perform (.reconcileMembership membership)).stored = self.stored) := by
  by_cases h : self.Applies (.reconcileMembership membership)
  · have hperform : self.perform (.reconcileMembership membership) = _ := commit_snd h
    rw [hperform]
    split
    · next hstatus => exact ⟨rfl, fun hactive => absurd hactive hstatus⟩
    · exact ⟨rfl, fun _ => rfl⟩
  · rw [perform_of_not_applies h]
    exact ⟨rfl, fun _ => rfl⟩

/-- The source still stores an observation that is not older than `o`. -/
def Remembers (o : Observation) : Prop :=
  ∃ c ∈ self.stored o.source, ¬ o.Newer c

theorem isSome_source_of_mem_stored {source : Option RoomPresenceSourceId}
    (h : c ∈ self.stored source) : c.source.isSome = source.isSome := by
  cases source with
  | none | some id =>
    obtain ⟨o, -, rfl⟩ := Option.map_eq_some_iff.mp h
    rfl

theorem subject_perform (call : Call) : (self.perform call).subject = self.subject := by
  by_cases h : self.Applies call
  · cases call with
    | observe o => exact (stored_of_applies h).2.2
    | reconcileMembership membership => exact (self.reconcile_cases membership).1
  · rw [perform_of_not_applies h]

theorem remembers_perform {call : Call} (h : self.Remembers o)
    (hactive : (self.perform call).membership.status = .active) :
    (self.perform call).Remembers o := by
  cases call with
  | reconcileMembership membership =>
    rw [Remembers, (self.reconcile_cases membership).2 hactive]
    exact h
  | observe candidate =>
    by_cases happlies : self.Applies (.observe candidate)
    · obtain ⟨hstored, hothers, -⟩ := stored_of_applies happlies
      by_cases hsource : o.source = candidate.source
      · obtain ⟨c, hc, hnot⟩ := h
        have hnewer := (applies_observe_iff.mp happlies).2.2 c (hsource ▸ hc)
        have hkind := isSome_source_of_mem_stored hc
        refine ⟨candidate, hsource ▸ hstored, ?_⟩
        exact Observation.not_newer_trans hkind.symm hnot (hkind.trans (by rw [hsource]))
          hnewer.asymm
      · rw [Remembers, hothers _ hsource]
        exact h
    · rwa [perform_of_not_applies happlies]

/-- While the membership is active, a source does not forget. -/
theorem remembers_run (calls : List Call) (h : self.Remembers o)
    (hactive : ∀ n, ((calls.take n).foldl perform self).membership.status = .active) :
    (calls.foldl perform self).Remembers o := by
  induction calls generalizing self with
  | nil => exact h
  | cons call calls ih =>
    exact ih (remembers_perform h (hactive 1)) fun n => hactive (n + 1)

theorem subject_run (calls : List Call) : (calls.foldl perform self).subject = self.subject := by
  induction calls generalizing self with
  | nil => rfl
  | cons call calls ih => exact ih.trans (subject_perform call)

/-- After `o` was applied, an observation of its source that is not newer is refused and changes
nothing, exactly if the membership is not active or the source still stores an observation that
is not older than `o`.  It does if the membership has been active ever since. -/
theorem replayed_observation_ignored {later : PresenceProjection} (h : self.Applies (.observe o))
    (calls : List Call) (hlater : calls.foldl perform (self.perform (.observe o)) = later) :
    ((∀ replayed : Observation, replayed.source = o.source → ¬ replayed.Newer o →
        ¬ later.Applies (.observe replayed) ∧ later.perform (.observe replayed) = later) ↔
      (later.membership.status = .active → later.Remembers o)) ∧
    ((∀ n, ((calls.take n).foldl perform (self.perform (.observe o))).membership.status =
        .active) → later.Remembers o) := by
  have hscope : o.InScope later.subject := by
    rw [← hlater, subject_run, subject_perform]
    exact (applies_observe_iff.mp h).2.1
  refine ⟨⟨?_, ?_⟩, hlater ▸ remembers_run calls ⟨o, (stored_of_applies h).1, o.not_newer_self⟩⟩
  · intro hignored hactive
    by_contra hforgotten
    refine (hignored o rfl o.not_newer_self).1 (applies_observe_iff.mpr ⟨hactive, hscope, ?_⟩)
    intro c hc
    by_contra hnot
    exact hforgotten ⟨c, hc, hnot⟩
  · intro hremembers replayed hsource hnot
    have happlies : ¬ later.Applies (.observe replayed) := by
      intro happlies
      obtain ⟨hactive, -, hnewer⟩ := applies_observe_iff.mp happlies
      obtain ⟨c, hc, hold⟩ := hremembers hactive
      exact Observation.not_newer_trans (by rw [hsource]) hnot
        (isSome_source_of_mem_stored hc).symm hold (hnewer c (hsource ▸ hc))
    exact ⟨happlies, perform_of_not_applies happlies⟩

end Calls

/-- A member of whom nothing has been observed. -/
def sampleProjection : PresenceProjection :=
  ⟨⟨⟨1⟩, ⟨2⟩, ⟨3⟩⟩, ⟨⟨1⟩, ⟨2⟩, .member, .active, .first⟩, none, ∅⟩

/-- The member is online from `millis` to 100. -/
def sampleObservation (millis : U64) : Observation :=
  .signed ⟨⟨1⟩, ⟨2⟩, ⟨7⟩, ⟨3⟩, .online, millis, some 100⟩

/-- The membership with the given status and version. -/
def sampleReconcile (status : MembershipStatus) (version : AggregateVersion) : Call :=
  .reconcileMembership ⟨⟨1⟩, ⟨2⟩, .member, status, version⟩

/-- A newer observation and a new version of the membership. -/
def sampleCalls : List Call :=
  [.observe (sampleObservation 6), sampleReconcile .active .second]

theorem sampleObservation_replayed :
    ¬ (sampleCalls.foldl perform
        (sampleProjection.perform (.observe (sampleObservation 5)))).Applies
      (.observe (sampleObservation 4)) := by
  obtain ⟨hiff, hremembers⟩ := @replayed_observation_ignored sampleProjection
    (sampleObservation 5) _ rfl sampleCalls rfl
  have hactive : ∀ n, ((sampleCalls.take n).foldl perform
      (sampleProjection.perform (.observe (sampleObservation 5)))).membership.status = .active := by
    intro n
    rcases n with _ | _ | n
    · rfl
    · rfl
    · rw [sampleCalls, List.take_succ_cons, List.take_succ_cons, List.take_nil]
      rfl
  exact (hiff.mpr (fun _ => hremembers hactive) (sampleObservation 4) rfl
    (by simp [sampleObservation, Observation.Newer])).1

/-- Archived and active again, a membership takes an older observation. -/
theorem older_observation_applied : sampleProjection.Applies (.observe (sampleObservation 5)) ∧
      ([sampleReconcile .archived .second,
        sampleReconcile .active ⟨3, by decide, by decide⟩].foldl perform
          (sampleProjection.perform (.observe (sampleObservation 5)))).Applies
        (.observe (sampleObservation 4)) ∧
      ¬ (sampleObservation 4).Newer (sampleObservation 5) :=
  ⟨rfl, rfl, by simp [sampleObservation, Observation.Newer]⟩

end PresenceProjection
end XorEditor.Collaboration
