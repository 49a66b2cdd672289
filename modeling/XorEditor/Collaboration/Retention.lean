import Mathlib.Data.List.Chain
import XorEditor.Collaboration.Identity
import XorEditor.Lib.Method

/-!
# Retention

`resolve_retention` decides whether a record is kept or deleted.  A decision keeps the versions
of the policy, the legal hold and the archive state that it was made with, and a call that is
given the decision refuses snapshots that fall behind them.

* `resolveRetention`: the decision
* `RetentionChain`: calls that are each given the decision before
* `RetentionChain.hold_remembered`: a hold once seen is not passed over
-/

namespace XorEditor.Collaboration

open Lib

abbrev RetentionPolicySchemaVersion := NonZeroUInt 16

def currentRetentionPolicySchemaVersion : RetentionPolicySchemaVersion :=
  ⟨1, Nat.one_pos, by decide⟩

def maxRetentionKindRules : Nat := 128

inductive RetentionPersistenceClass where
  | durable
  | ephemeral
  deriving DecidableEq

/-- `from_registry` gives out a kind only with the class of its number. -/
structure RetentionEventKind where
  value : BitVec 16
  persistence : RetentionPersistenceClass
  registered : (20000 ≤ value.toNat ∧ value.toNat ≤ 29999) ↔ persistence = .ephemeral
  deriving DecidableEq

abbrev RetentionTtl := NonZeroU64

inductive ArchiveRetentionRule where
  | preserve
  | followCommunityPolicy
  | deleteOnArchive
  | expireAfter (ttl : RetentionTtl)
  deriving DecidableEq

structure RetentionKindRule where
  eventKind : RetentionEventKind
  ttl : Option RetentionTtl

/-- A policy, with what `from_record` checks. -/
structure CommunityRetentionPolicy where
  communityId : CommunityId
  schemaVersion : RetentionPolicySchemaVersion
  version : AggregateVersion
  defaultTtl : Option RetentionTtl
  archiveRule : ArchiveRetentionRule
  kindRules : List RetentionKindRule
  named : communityId.isNil = false
  length_le : kindRules.length ≤ maxRetentionKindRules
  durable : ∀ rule ∈ kindRules, rule.eventKind.persistence ≠ .ephemeral
  distinct : (kindRules.map (·.eventKind.value)).Nodup

def CommunityRetentionPolicy.ttlFor (self : CommunityRetentionPolicy)
    (eventKind : RetentionEventKind) : Option RetentionTtl :=
  match self.kindRules.find? (·.eventKind.value == eventKind.value) with
  | none => self.defaultTtl
  | some rule => rule.ttl

inductive RetentionSnapshot (T : Type) where
  | absent
  | current (value : T)
  | unavailable
  | ambiguous

inductive LegalHoldScope where
  | community
  | record (recordId : AggregateId)
  deriving DecidableEq

inductive LegalHoldState where
  | active
  | released
  deriving DecidableEq

structure LegalHoldSnapshot where
  communityId : CommunityId
  scope : LegalHoldScope
  state : LegalHoldState
  version : AggregateVersion

inductive CommunityArchivePolicyState where
  | active
  | archived
  deriving DecidableEq

structure CommunityArchiveSnapshot where
  communityId : CommunityId
  state : CommunityArchivePolicyState
  version : AggregateVersion

structure RetentionArchiveSnapshot where
  archive : CommunityArchiveSnapshot
  archivedAtMillis : Option U64

structure RetentionRecord where
  communityId : CommunityId
  recordId : AggregateId
  eventKind : RetentionEventKind
  retentionStartedAtMillis : U64
  deriving DecidableEq

inductive RetentionVisibility where
  | live
  | archiveOnly
  deriving DecidableEq

inductive RetentionReason where
  | permanent
  | communityPolicy
  | legalHold
  | communityArchive
  deriving DecidableEq

inductive RetentionDisposition where
  | doNotPersist
  | retain (visibility : RetentionVisibility) (reason : RetentionReason)
  | deleteAt (visibility : RetentionVisibility) (reason : RetentionReason) (expiresAtMillis : U64)
  | deleteNow (reason : RetentionReason)
  deriving DecidableEq

structure PolicyFence where
  schemaVersion : RetentionPolicySchemaVersion
  version : AggregateVersion
  ttl : Option RetentionTtl
  archiveRule : ArchiveRetentionRule
  deriving DecidableEq

structure HoldFence where
  version : AggregateVersion
  scope : LegalHoldScope
  state : LegalHoldState
  deriving DecidableEq

structure ArchiveFence where
  version : AggregateVersion
  state : CommunityArchivePolicyState
  archivedAtMillis : Option U64
  deriving DecidableEq

structure RetentionDecision where
  record : RetentionRecord
  evaluatedAtMillis : U64
  policyFence : Option PolicyFence
  holdFence : Option HoldFence
  archiveFence : Option ArchiveFence
  disposition : RetentionDisposition
  deriving DecidableEq

structure RetentionRequest where
  record : RetentionRecord
  policy : RetentionSnapshot CommunityRetentionPolicy
  legalHold : RetentionSnapshot LegalHoldSnapshot
  communityArchive : RetentionSnapshot RetentionArchiveSnapshot
  nowMillis : U64
  previousDecision : Option RetentionDecision

inductive RetentionResolution where
  | evaluated (decision : RetentionDecision)
  | unchanged (decision : RetentionDecision)

def RetentionResolution.decision : RetentionResolution → RetentionDecision
  | evaluated decision | unchanged decision => decision

inductive RetentionError where
  | invalidRecord
  | invalidArchive
  | invalidHold
  | tenantMismatch
  | authorityUnavailable
  | authorityAmbiguous
  | unsupportedPolicyVersion
  | invalidDeadline
  | staleAuthority
  | clockRegression
  | retryConflict

def validateRecord (record : RetentionRecord) : Except RetentionError Unit :=
  if record.communityId.isNil ∨ record.recordId.isNil then .error .invalidRecord else .ok ()

/-- The tests of a policy that is current. -/
def validatePolicy (record : RetentionRecord) (policy : CommunityRetentionPolicy) :
    Except RetentionError Unit :=
  if policy.communityId ≠ record.communityId then .error .tenantMismatch
  else if policy.schemaVersion ≠ currentRetentionPolicySchemaVersion then
    .error .unsupportedPolicyVersion
  else .ok ()

def validateHold (record : RetentionRecord) (hold : LegalHoldSnapshot) :
    Except RetentionError Unit :=
  if hold.communityId ≠ record.communityId then .error .tenantMismatch
  else match hold.scope with
    | .record recordId => if recordId ≠ record.recordId then .error .invalidHold else .ok ()
    | .community => .ok ()

def RetentionArchiveSnapshot.validate (self : RetentionArchiveSnapshot) :
    Except RetentionError Unit :=
  match self.archive.state, self.archivedAtMillis with
  | .active, none | .archived, some _ => .ok ()
  | _, _ => .error .invalidArchive

variable (request : RetentionRequest)

/-- The tests of an archive state that is current. -/
def validateArchive (archive : RetentionArchiveSnapshot) :
    Except RetentionError Unit := do
  archive.validate
  if archive.archive.communityId ≠ request.record.communityId then throw .tenantMismatch
  if archive.archivedAtMillis.any (request.nowMillis < ·) then throw .invalidArchive

def resolveSnapshot {T : Type} : RetentionSnapshot T → Except RetentionError (Option T)
  | .absent => .ok none
  | .current value => .ok (some value)
  | .unavailable => .error .authorityUnavailable
  | .ambiguous => .error .authorityAmbiguous

def deadlineDisposition (startedAtMillis : U64) (ttl : RetentionTtl) (nowMillis : U64)
    (visibility : RetentionVisibility) (reason : RetentionReason) :
    Except RetentionError RetentionDisposition :=
  match U64.checkedAdd startedAtMillis ⟨ttl.get, ttl.lt⟩ with
  | none => .error .invalidDeadline
  | some expiresAtMillis =>
    if expiresAtMillis ≤ nowMillis then .ok (.deleteNow reason)
    else .ok (.deleteAt visibility reason expiresAtMillis)

variable (policy : Option CommunityRetentionPolicy)

def resolvePolicyDisposition (visibility : RetentionVisibility) :
    Except RetentionError RetentionDisposition :=
  match policy.bind (·.ttlFor request.record.eventKind) with
  | none => .ok (.retain visibility .permanent)
  | some ttl => deadlineDisposition request.record.retentionStartedAtMillis ttl request.nowMillis
      visibility .communityPolicy

def resolveArchivedDisposition (archive : RetentionArchiveSnapshot)
    (visibility : RetentionVisibility) : Except RetentionError RetentionDisposition :=
  match (policy.map (·.archiveRule)).getD .preserve with
  | .preserve => .ok (.retain visibility .communityArchive)
  | .followCommunityPolicy => resolvePolicyDisposition request policy visibility
  | .deleteOnArchive => .ok (.deleteNow .communityArchive)
  | .expireAfter ttl =>
    match archive.archivedAtMillis with
    | none => .error .invalidArchive
    | some archivedAtMillis =>
      deadlineDisposition archivedAtMillis ttl request.nowMillis visibility .communityArchive

def policyFence (eventKind : RetentionEventKind) : Option PolicyFence :=
  policy.map fun policy =>
    { schemaVersion := policy.schemaVersion, version := policy.version
      ttl := policy.ttlFor eventKind, archiveRule := policy.archiveRule }

def holdFence (hold : LegalHoldSnapshot) : HoldFence :=
  { version := hold.version, scope := hold.scope, state := hold.state }

def archiveFence (archive : RetentionArchiveSnapshot) : ArchiveFence :=
  { version := archive.archive.version, state := archive.archive.state
    archivedAtMillis := archive.archivedAtMillis }

/-- The disposition that `resolve_retention` ends with. -/
def resolveDisposition (hold : Option LegalHoldSnapshot) (archive : Option RetentionArchiveSnapshot)
    :
    Except RetentionError RetentionDisposition :=
  let held := hold.any (·.state == .active)
  let archived := archive.filter (·.archive.state == .archived)
  let visibility := if archived.isSome then .archiveOnly else .live
  if request.record.eventKind.persistence = .ephemeral then
    if held then .error .invalidHold else .ok .doNotPersist
  else if held then .ok (.retain visibility .legalHold)
  else match archived with
    | some archive => resolveArchivedDisposition request policy archive visibility
    | none => resolvePolicyDisposition request policy visibility

/-- Fences of the three kinds are compared by their versions. -/
def validateFenceProgress {T : Type} [DecidableEq T] (version : T → AggregateVersion) :
    Option T → Option T → Except RetentionError Unit
  | none, _ => .ok ()
  | some _, none => .error .staleAuthority
  | some previous, some current =>
    if (version current).get < (version previous).get then .error .staleAuthority
    else if version current = version previous ∧ current ≠ previous then .error .retryConflict
    else .ok ()

def finishDecision (policyFence : Option PolicyFence) (holdFence : Option HoldFence)
    (archiveFence : Option ArchiveFence) (disposition : RetentionDisposition) :
    Except RetentionError RetentionResolution :=
  let decision : RetentionDecision :=
    { record := request.record, evaluatedAtMillis := request.nowMillis
      policyFence, holdFence, archiveFence, disposition }
  match request.previousDecision with
  | none => .ok (.evaluated decision)
  | some previous => do
    if previous.record ≠ decision.record then throw .retryConflict
    if decision.evaluatedAtMillis < previous.evaluatedAtMillis then throw .clockRegression
    validateFenceProgress PolicyFence.version previous.policyFence decision.policyFence
    validateFenceProgress HoldFence.version previous.holdFence decision.holdFence
    validateFenceProgress ArchiveFence.version previous.archiveFence decision.archiveFence
    if previous.evaluatedAtMillis = decision.evaluatedAtMillis then
      if previous = decision then pure (.unchanged decision) else throw .retryConflict
    else pure (.evaluated decision)

def resolveRetention :
    Except RetentionError RetentionResolution := do
  validateRecord request.record
  let policy ← resolveSnapshot request.policy
  policy.forM (validatePolicy request.record)
  let hold ← resolveSnapshot request.legalHold
  hold.forM (validateHold request.record)
  let archive ← resolveSnapshot request.communityArchive
  archive.forM (validateArchive request)
  let disposition ← resolveDisposition request policy hold archive
  finishDecision request (policyFence policy request.record.eventKind) (hold.map holdFence)
    (archive.map archiveFence) disposition

/-! ### What a decision keeps -/

/-- The current fence does not fall behind the previous one: its version is not lower, and
at the same version it is the same fence. -/
def FenceProgress {T : Type} (version : T → AggregateVersion) (previous current : Option T) :
    Prop :=
  ∀ p ∈ previous, ∃ c ∈ current, (version p).get ≤ (version c).get ∧ (version c = version p → c = p)

section Progress

variable {T : Type} {version : T → AggregateVersion} {a b c : Option T}

theorem FenceProgress.trans (hab : FenceProgress version a b) (hbc : FenceProgress version b c) :
    FenceProgress version a c := by
  intro x hx
  obtain ⟨y, hy, hxy, hsame⟩ := hab x hx
  obtain ⟨z, hz, hyz, hsame'⟩ := hbc y hy
  refine ⟨z, hz, hxy.trans hyz, fun heq => ?_⟩
  have hyx : version y = version x := NonZeroUInt.ext (le_antisymm (heq ▸ hyz) hxy)
  rw [← hsame hyx]
  exact hsame' (heq.trans hyx.symm)

theorem fenceProgress_of_validate [DecidableEq T]
    (h : validateFenceProgress version a b = .ok ()) : FenceProgress version a b := by
  rintro p ⟨⟩
  cases b with
  | none => cases h
  | some c =>
    unfold validateFenceProgress at h
    dsimp only at h
    split_ifs at h with hstale hconflict
    exact ⟨c, rfl, not_lt.mp hstale, fun heq => not_not.mp fun hne => hconflict ⟨heq, hne⟩⟩

/-- The version of the fence does not decrease. -/
theorem FenceProgress.version_le (h : FenceProgress version a b) :
    ∀ v ∈ a.map version, ∃ w ∈ b.map version, v.get ≤ w.get := by
  rintro _ hv
  obtain ⟨p, hp, rfl⟩ := Option.map_eq_some_iff.mp hv
  obtain ⟨c, hc, hle, -⟩ := h p hp
  exact ⟨_, Option.mem_map_of_mem _ hc, hle⟩

end Progress

/-- What a decision that is given to a later call means for the later decision. -/
structure RetentionDecision.Precedes (earlier later : RetentionDecision) : Prop where
  evaluated : earlier.evaluatedAtMillis ≤ later.evaluatedAtMillis
  policy : FenceProgress PolicyFence.version earlier.policyFence later.policyFence
  hold : FenceProgress HoldFence.version earlier.holdFence later.holdFence
  archive : FenceProgress ArchiveFence.version earlier.archiveFence later.archiveFence

instance : Trans RetentionDecision.Precedes RetentionDecision.Precedes
    RetentionDecision.Precedes where
  trans h h' := ⟨h.evaluated.trans h'.evaluated, h.policy.trans h'.policy, h.hold.trans h'.hold,
    h.archive.trans h'.archive⟩

def RetentionDisposition.Deletes : RetentionDisposition → Prop
  | deleteNow _ | deleteAt _ _ _ => True
  | doNotPersist | retain _ _ => False

section Decision

variable {request : RetentionRequest} {resolution : RetentionResolution}
  {disposition : RetentionDisposition}

theorem not_held_of_deletes {policy : Option CommunityRetentionPolicy}
    {hold : Option LegalHoldSnapshot} {archive : Option RetentionArchiveSnapshot}
    (h : resolveDisposition request policy hold archive = .ok disposition)
    (hdeletes : disposition.Deletes) : ∀ held ∈ hold, held.state = .released := by
  rintro held ⟨⟩
  cases hstate : held.state with
  | released => rfl
  | active =>
    unfold resolveDisposition at h
    simp only [Option.any_some, hstate, beq_self_eq_true, if_true] at h
    split_ifs at h <;> cases h <;> cases hdeletes

theorem finishDecision_eq_ok {policy : Option PolicyFence} {hold : Option HoldFence}
    {archive : Option ArchiveFence}
    (h : finishDecision request policy hold archive disposition = .ok resolution) :
    (resolution.decision.holdFence = hold ∧ resolution.decision.disposition = disposition) ∧
      ∀ previous ∈ request.previousDecision, previous.Precedes resolution.decision := by
  unfold finishDecision at h
  cases hprevious : request.previousDecision with
  | none =>
    rw [hprevious] at h
    cases h
    exact ⟨⟨rfl, rfl⟩, by simp⟩
  | some previous =>
    rw [hprevious] at h
    simp only [Method.result_guard_eq_ok_iff, Method.result_bind_eq_ok_iff] at h
    obtain ⟨-, hclock, ⟨⟩, hpolicy, ⟨⟩, hhold, ⟨⟩, harchive, h⟩ := h
    split_ifs at h
    all_goals
      cases h
      refine ⟨⟨rfl, rfl⟩, ?_⟩
      rintro _ ⟨⟩
      exact ⟨not_lt.mp hclock, fenceProgress_of_validate hpolicy, fenceProgress_of_validate hhold,
        fenceProgress_of_validate harchive⟩

theorem resolveSnapshot_eq_ok {T : Type} {snapshot : RetentionSnapshot T} {value : Option T}
    (h : resolveSnapshot snapshot = .ok value) (x : T) : x ∈ value ↔ snapshot = .current x := by
  cases snapshot <;> cases h <;> simp [eq_comm]

/-- A resolution goes on from the previous decision, and keeps the hold it was made with. -/
theorem resolveRetention_eq_ok (h : resolveRetention request = .ok resolution) :
    (∀ previous ∈ request.previousDecision, previous.Precedes resolution.decision) ∧
      (∀ fence, fence ∈ resolution.decision.holdFence ↔
        ∃ hold, request.legalHold = .current hold ∧ holdFence hold = fence) ∧
      (resolution.decision.disposition.Deletes →
        ∀ fence ∈ resolution.decision.holdFence, fence.state = .released) := by
  unfold resolveRetention at h
  simp only [Method.result_bind_eq_ok_iff] at h
  obtain ⟨⟨⟩, -, policy, -, ⟨⟩, -, hold, hhold, ⟨⟩, -, archive, -, ⟨⟩, -, disposition, hdisposition,
    h⟩ := h
  obtain ⟨⟨hfence, hdisposed⟩, hprecedes⟩ := finishDecision_eq_ok h
  rw [hfence, hdisposed]
  refine ⟨hprecedes, fun fence => ?_, fun hdeletes fence hmem => ?_⟩
  · simp only [Option.mem_map, resolveSnapshot_eq_ok hhold]
  · obtain ⟨held, hheld, rfl⟩ := Option.mem_map.mp hmem
    exact not_held_of_deletes hdisposition hdeletes held hheld

end Decision

/-! ### Chains of calls -/

/-- A call that has returned a resolution. -/
structure RetentionCall where
  request : RetentionRequest
  resolution : RetentionResolution
  resolved : resolveRetention request = .ok resolution

def RetentionCall.decision (self : RetentionCall) : RetentionDecision := self.resolution.decision

/-- Each call is given the decision of the call before it. -/
def RetentionChain (calls : List RetentionCall) : Prop :=
  calls.IsChain fun earlier later => later.request.previousDecision = some earlier.decision

/-- A legal hold that was seen is not forgotten: behind a decision with an active hold, a
record is deleted only with a newer hold that is released.  Versions and times do not
decrease. -/
theorem RetentionChain.hold_remembered {calls : List RetentionCall} (h : RetentionChain calls) :
    calls.Pairwise fun earlier later =>
      (∀ hold, earlier.request.legalHold = .current hold → hold.state = .active →
        later.decision.disposition.Deletes → ∃ hold', later.request.legalHold = .current hold' ∧
          hold.version.get < hold'.version.get ∧ hold'.state = .released) ∧
      (∀ v ∈ earlier.decision.policyFence.map PolicyFence.version,
        ∃ w ∈ later.decision.policyFence.map PolicyFence.version, v.get ≤ w.get) ∧
      (∀ v ∈ earlier.decision.holdFence.map HoldFence.version,
        ∃ w ∈ later.decision.holdFence.map HoldFence.version, v.get ≤ w.get) ∧
      (∀ v ∈ earlier.decision.archiveFence.map ArchiveFence.version,
        ∃ w ∈ later.decision.archiveFence.map ArchiveFence.version, v.get ≤ w.get) ∧
      earlier.decision.evaluatedAtMillis ≤ later.decision.evaluatedAtMillis := by
  have hprecedes : calls.IsChain fun earlier later => earlier.decision.Precedes later.decision :=
    h.imp fun earlier later hprevious => (resolveRetention_eq_ok later.resolved).1 _ hprevious
  have hpairwise := (List.isChain_map _).mpr hprecedes |>.pairwise
  rw [List.pairwise_map] at hpairwise
  refine hpairwise.imp fun {earlier later} hlater => ⟨?_, hlater.policy.version_le,
    hlater.hold.version_le, hlater.archive.version_le, hlater.evaluated⟩
  intro hold hcurrent hactive hdeletes
  obtain ⟨-, hfence, -⟩ := resolveRetention_eq_ok earlier.resolved
  obtain ⟨-, hfence', hreleased⟩ := resolveRetention_eq_ok later.resolved
  obtain ⟨fence, hmem, hle, hsame⟩ := hlater.hold _ ((hfence _).mpr ⟨hold, hcurrent, rfl⟩)
  have hstate := hreleased hdeletes fence hmem
  obtain ⟨hold', hcurrent', rfl⟩ := (hfence' fence).mp hmem
  refine ⟨hold', hcurrent', lt_of_le_of_ne hle fun heq => ?_, hstate⟩
  -- at the same version the hold would still be the active one
  rw [hsame (NonZeroUInt.ext heq.symm)] at hstate
  exact absurd (hactive.symm.trans hstate) (by decide)

/-! ### A hold that is released -/

def heldRecord : RetentionRecord where
  communityId := ⟨1⟩
  recordId := ⟨2⟩
  eventKind := ⟨1, .durable, by decide⟩
  retentionStartedAtMillis := 0

def shortPolicy : CommunityRetentionPolicy where
  communityId := ⟨1⟩
  schemaVersion := currentRetentionPolicySchemaVersion
  version := .first
  defaultTtl := some .first
  archiveRule := .preserve
  kindRules := []
  named := rfl
  length_le := by decide
  durable := by simp
  distinct := by simp

def holdRequest (state : LegalHoldState) (version : AggregateVersion) (nowMillis : U64)
    (previousDecision : Option RetentionDecision) : RetentionRequest where
  record := heldRecord
  policy := .current shortPolicy
  legalHold := .current { communityId := ⟨1⟩, scope := .community, state, version }
  communityArchive := .absent
  nowMillis
  previousDecision

def heldCall : RetentionCall := ⟨holdRequest .active .first 5 none, _, rfl⟩

def releasedCall : RetentionCall :=
  ⟨holdRequest .released .second 6 (some heldCall.decision), _, rfl⟩

theorem releasedCall_deletes : releasedCall.decision.disposition = .deleteNow .communityPolicy ∧
      ∃ hold, releasedCall.request.legalHold = .current hold ∧ 1 < hold.version.get ∧
        hold.state = .released := by
  have hchain : RetentionChain [heldCall, releasedCall] :=
    List.isChain_cons_cons.mpr ⟨rfl, List.isChain_singleton _⟩
  have hboth := List.rel_of_pairwise_cons hchain.hold_remembered (List.mem_singleton_self _)
  exact ⟨rfl, hboth.1 _ rfl rfl trivial⟩

end XorEditor.Collaboration
