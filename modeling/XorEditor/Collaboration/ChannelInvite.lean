import XorEditor.Collaboration.Membership
import XorEditor.Lib.Method

/-!
# Invites

An invite admits those who present its token to a community or to a channel, until it is
revoked, used up or expired.  That it is revoked or used up is read from its status; that it
is expired is read from the clock of the call alone, so that a call with an earlier clock is
admitted by an invite whose status says that it has expired.

* `redeem`, `revoke`, `expireIfDue`: the commands
* `redeemed_membership`: what a redemption admits to
* `ended_invite_admits_nobody`: an invite that has ended
-/

namespace XorEditor.Collaboration

open Lib Method

structure InviteTokenHash where
  bytes : BitVec 256
  deriving DecidableEq

inductive ChannelInviteTarget where
  | community
  | channel (channelId : AggregateId)
  deriving DecidableEq

inductive ChannelInviteStatus where
  | active
  | revoked
  | exhausted
  | expired
  deriving DecidableEq

inductive ChannelInviteError where
  | invalidBearer
  | authorizationShape
  | unauthorized
  | unauthorizedRedemption
  | staleVersion
  | expired
  | revoked
  | exhausted
  | versionExhausted
  deriving DecidableEq

/-- `ChannelInvite` and `ChannelInviteRecordFields`. -/
structure ChannelInvite where
  inviteId : AggregateId
  communityId : CommunityId
  target : ChannelInviteTarget
  tokenHash : InviteTokenHash
  role : MembershipRole
  status : ChannelInviteStatus
  maxUses : Option NonZeroU32
  useCount : Nat
  expiresAtMillis : U64
  createdByPrincipalId : PrincipalId
  version : AggregateVersion
  deriving DecidableEq

inductive ChannelInviteCommandOutcome where
  | applied
  | unchanged
  deriving DecidableEq

inductive ChannelInviteRedemption where
  | joined (invite : ChannelInvite) (membership : Membership)
  | alreadyMember (invite : ChannelInvite) (membership : Membership)
  deriving DecidableEq

def ChannelInviteRedemption.invite : ChannelInviteRedemption → ChannelInvite
  | joined invite _ | alreadyMember invite _ => invite

def ChannelInviteRedemption.membership : ChannelInviteRedemption → Membership
  | joined _ membership | alreadyMember _ membership => membership

def ChannelInviteRedemption.isJoined : ChannelInviteRedemption → Bool
  | joined _ _ => true
  | alreadyMember _ _ => false

/-- The arguments of `redeem`. -/
structure RedeemRequest where
  presentedHash : InviteTokenHash
  communityId : CommunityId
  principalId : PrincipalId
  existingMembership : Option MembershipPolicyInput
  expectedVersion : AggregateVersion
  membershipVersion : AggregateVersion
  nowMillis : U64
  deriving DecidableEq

def targetScope : ChannelInviteTarget → MembershipScope
  | .community => .community
  | .channel channelId => .channel channelId

def membershipFromPolicy (target : ChannelInviteTarget) (principalId : PrincipalId) :
    MembershipPolicyInput → Except ChannelInviteError Membership
  | .persistentCommunity value | .virtualCommunity value =>
    if target = .community ∧ value.principalId = principalId ∧ value.status = .active then
      .ok ⟨value.communityId, .community, value.principalId, value.role, value.status,
        value.version, none⟩
    else .error .unauthorizedRedemption
  | .persistentChannel value =>
    if target = .channel value.channelId ∧ value.principalId = principalId ∧
        value.status = .active then
      .ok ⟨value.communityId, .channel value.channelId, value.principalId, value.role,
        value.status, value.version, none⟩
    else .error .unauthorizedRedemption

namespace ChannelInvite

def requireVersion (expected : AggregateVersion) (self : ChannelInvite) :
    Except ChannelInviteError Unit :=
  if self.version ≠ expected then .error .staleVersion else .ok ()

def advanceVersion : EStateM ChannelInviteError ChannelInvite Unit := do
  let self ← get
  match self.version.next with
  | none => throw .versionExhausted
  | some version => set { self with version := version }

/-- `revoke`, with what `authorize_target` says of the caller. -/
def revoke (expectedVersion : AggregateVersion) (authorized : Except ChannelInviteError Unit) :
    EStateM ChannelInviteError ChannelInvite ChannelInviteCommandOutcome := do
  check fun _ => authorized
  check (requireVersion expectedVersion)
  let self ← get
  if self.status = .revoked then
    return .unchanged
  set { self with status := .revoked }
  advanceVersion
  return .applied

def expireIfDue (expectedVersion : AggregateVersion) (nowMillis : U64) :
    EStateM ChannelInviteError ChannelInvite ChannelInviteCommandOutcome := do
  check (requireVersion expectedVersion)
  let self ← get
  if self.status ≠ .active then
    return .unchanged
  if nowMillis < self.expiresAtMillis then
    return .unchanged
  set { self with status := .expired }
  advanceVersion
  return .applied

/-- The uses have reached the maximum. -/
def usedUp (self : ChannelInvite) : Bool := self.maxUses.any (·.get ≤ self.useCount)

/-- The use that a redemption counts. -/
def use (self : ChannelInvite) : ChannelInvite :=
  let used := { self with useCount := self.useCount + 1 }
  if used.usedUp then { used with status := .exhausted } else used

def redeem (request : RedeemRequest) (self : ChannelInvite) :
    Except ChannelInviteError ChannelInviteRedemption := do
  if request.communityId ≠ self.communityId ∨ request.presentedHash ≠ self.tokenHash then
    throw .invalidBearer
  self.requireVersion request.expectedVersion
  if request.nowMillis ≥ self.expiresAtMillis then
    throw .expired
  if self.status = .revoked then
    throw .revoked
  match request.existingMembership with
  | some existing => do
    let membership ← membershipFromPolicy self.target request.principalId existing
    return .alreadyMember self membership
  | none => do
    if self.status = .exhausted ∨ self.usedUp ∨ self.useCount + 1 ≥ 2 ^ 32 then
      throw .exhausted
    match self.use.version.next with
    | none => throw .versionExhausted
    | some version =>
      return .joined { self.use with version := version } {
        communityId := request.communityId
        scope := targetScope self.target
        principalId := request.principalId
        role := self.role
        status := .active
        version := request.membershipVersion
        addedByPrincipalId := some self.createdByPrincipalId }

/-! ### What a redemption gives -/

section Redeem

variable {self invite : ChannelInvite} {request : RedeemRequest} {membership : Membership}
  {redemption : ChannelInviteRedemption}

/-- What has been tested before anybody is admitted. -/
structure Admits (invite : ChannelInvite) (request : RedeemRequest) : Prop where
  community : request.communityId = invite.communityId
  clock : request.nowMillis < invite.expiresAtMillis
  notRevoked : invite.status ≠ .revoked

/-- The two ways in which a redemption succeeds. -/
inductive Redeems (self : ChannelInvite) (request : RedeemRequest) :
    ChannelInviteRedemption → Prop
  | alreadyMember {existing : MembershipPolicyInput} {membership : Membership} :
      self.Admits request → request.existingMembership = some existing →
      membershipFromPolicy self.target request.principalId existing = .ok membership →
      Redeems self request (.alreadyMember self membership)
  | joined {version : AggregateVersion} :
      self.Admits request → request.existingMembership = none → self.status ≠ .exhausted →
      self.usedUp = false →
      Redeems self request (.joined { self.use with version := version }
        ⟨request.communityId, targetScope self.target, request.principalId, self.role, .active,
          request.membershipVersion, some self.createdByPrincipalId⟩)

theorem redeems_of_redeem (h : self.redeem request = .ok redemption) :
    self.Redeems request redemption := by
  unfold redeem at h
  obtain ⟨hbearer, h⟩ := result_guard_eq_ok_iff.mp h
  obtain ⟨-, -, h⟩ := result_bind_eq_ok_iff.mp h
  obtain ⟨hclock, h⟩ := result_guard_eq_ok_iff.mp h
  obtain ⟨hrevoked, h⟩ := result_guard_eq_ok_iff.mp h
  have hadmits : self.Admits request :=
    ⟨not_not.mp (not_or.mp hbearer).1, not_le.mp hclock, hrevoked⟩
  cases hexisting : request.existingMembership with
  | some existing =>
    rw [hexisting] at h
    obtain ⟨membership, hmembership, h⟩ := result_bind_eq_ok_iff.mp h
    obtain rfl := Except.ok.inj h
    exact .alreadyMember hadmits hexisting hmembership
  | none =>
    rw [hexisting] at h
    obtain ⟨hleft, h⟩ := result_guard_eq_ok_iff.mp h
    rw [not_or, not_or, Bool.not_eq_true] at hleft
    split at h
    · cases h
    · obtain rfl := Except.ok.inj h
      exact .joined hadmits hexisting hleft.1 hleft.2.1

theorem membershipFromPolicy_eq_ok {existing : MembershipPolicyInput} {target : ChannelInviteTarget}
    {principalId : PrincipalId}
    (h : membershipFromPolicy target principalId existing = .ok membership) :
    membership.status = .active ∧ membership.principalId = principalId ∧
      membership.scope = targetScope target ∧ membership.communityId = existing.communityId := by
  cases existing with
  | persistentCommunity value | virtualCommunity value | persistentChannel value =>
    rw [membershipFromPolicy] at h
    split at h
    · next hvalid =>
        obtain ⟨rfl, hprincipal, hstatus⟩ := hvalid
        obtain rfl := Except.ok.inj h
        exact ⟨hstatus, hprincipal, rfl, rfl⟩
    · cases h

/-- Whoever redeems an invite is an active member of its target, with its role if it has just
joined.  The membership is of the invite's community exactly if the caller did not hand over
a membership of another community. -/
theorem redeemed_membership (h : self.redeem request = .ok redemption) :
    redemption.membership.status = .active ∧
      redemption.membership.principalId = request.principalId ∧
      redemption.membership.scope = targetScope self.target ∧
      (redemption.isJoined → redemption.membership.role = self.role) ∧
      (redemption.membership.communityId = self.communityId ↔
        ∀ existing ∈ request.existingMembership, existing.communityId = self.communityId) := by
  cases redeems_of_redeem h with
  | alreadyMember hadmits hexisting hmembership =>
    obtain ⟨hstatus, hprincipal, hscope, hcommunity⟩ := membershipFromPolicy_eq_ok hmembership
    refine ⟨hstatus, hprincipal, hscope, nofun, ?_⟩
    rw [ChannelInviteRedemption.membership, hcommunity, hexisting]
    simp
  | joined hadmits hexisting =>
    refine ⟨rfl, rfl, rfl, fun _ => rfl, iff_of_true hadmits.community ?_⟩
    rw [hexisting]
    exact nofun

end Redeem

/-- An invite to a channel, which expires at 100. -/
def sampleInvite : ChannelInvite where
  inviteId := ⟨3⟩
  communityId := ⟨1⟩
  target := .channel ⟨2⟩
  tokenHash := ⟨7⟩
  role := .guest
  status := .active
  maxUses := none
  useCount := 0
  expiresAtMillis := 100
  createdByPrincipalId := ⟨4⟩
  version := .first

/-- A redemption by principal 5 at 50. -/
def sampleRequest (version : AggregateVersion) (existing : Option MembershipPolicyInput) :
    RedeemRequest :=
  ⟨⟨7⟩, ⟨1⟩, ⟨5⟩, existing, version, .first, 50⟩

theorem sampleInvite_redeemed : ∃ redemption,
    sampleInvite.redeem (sampleRequest .first none) = .ok redemption ∧
      redemption.membership.status = .active :=
  ⟨_, rfl, (@redeemed_membership sampleInvite (sampleRequest .first none) _ rfl).1⟩

/-- A membership of a channel with the same identifier in another community is taken for one of
the invite's community. -/
theorem foreign_membership_redeemed : ∃ redemption, sampleInvite.redeem (sampleRequest .first
      (some (.persistentChannel ⟨⟨9⟩, ⟨2⟩, ⟨5⟩, .admin, .active, .first⟩))) = .ok redemption ∧
      redemption.membership.communityId ≠ sampleInvite.communityId :=
  ⟨_, rfl, by decide⟩

/-! ### Runs -/

inductive InviteCommand where
  | revoke (expectedVersion : AggregateVersion) (authorized : Except ChannelInviteError Unit)
  | expireIfDue (expectedVersion : AggregateVersion) (nowMillis : U64)
  | redeem (request : RedeemRequest)

/-- The invite after a call.  A call of `redeem` that fails leaves the invite with its caller. -/
def perform (self : ChannelInvite) : InviteCommand → ChannelInvite
  | .revoke expectedVersion authorized => after (revoke expectedVersion authorized) self
  | .expireIfDue expectedVersion nowMillis =>
    after (expireIfDue expectedVersion nowMillis) self
  | .redeem request =>
    match self.redeem request with
    | .ok redemption => redemption.invite
    | .error _ => self

/-- Whether a call returns `Joined`. -/
def joins (self : ChannelInvite) : InviteCommand → Bool
  | .redeem request => ((self.redeem request).toOption.map (·.isJoined)).getD false
  | _ => false

/-- How many calls of a run return `Joined`. -/
def joinCount (self : ChannelInvite) : List InviteCommand → Nat
  | [] => 0
  | command :: rest =>
    (if self.joins command then 1 else 0) + (self.perform command).joinCount rest

/-- What a call can change: the invite is used, or its status ends it. -/
inductive Effect (self : ChannelInvite) : ChannelInvite → Prop
  | same : Effect self self
  | used {version : AggregateVersion} : Effect self { self.use with version := version }
  | ended {status : ChannelInviteStatus} {version : AggregateVersion}
      (hstatus : status = .revoked ∨ status = .expired ∧ self.status = .active) :
      Effect self { self with status := status, version := version }

variable {self self' : ChannelInvite} {command : InviteCommand}

theorem leaves_advanceVersion {status : ChannelInviteStatus}
    (hstatus : status = .revoked ∨ status = .expired ∧ self.status = .active)
    (outcome : ChannelInviteCommandOutcome) :
    Leaves (advanceVersion >>= fun _ => pure outcome) { self with status := status }
      self.Effect := by
  unfold Leaves Ends
  cases hnext : self.version.next with
  | none =>
    simp only [advanceVersion, bind_apply, get_apply, hnext, throw_apply]
    exact .ended hstatus
  | some version =>
    simp only [advanceVersion, bind_apply, get_apply, hnext, set_apply, pure_apply]
    exact .ended hstatus

theorem effect_perform (command : InviteCommand) : self.Effect (self.perform command) := by
  cases command with
  | revoke expectedVersion authorized =>
    refine (leaves_iff (Q := self.Effect)).mp ?_
    refine ends_check_bind .same fun _ _ => ?_
    refine ends_check_bind .same fun _ _ => ?_
    refine ends_get_bind (ends_ite (fun _ => .same) fun _ => ?_)
    exact ends_set_bind (leaves_advanceVersion (.inl rfl) _)
  | expireIfDue expectedVersion nowMillis =>
    refine (leaves_iff (Q := self.Effect)).mp ?_
    refine ends_check_bind .same fun _ _ => ends_get_bind ?_
    refine ends_ite (fun _ => .same) fun hactive => ?_
    refine ends_ite (fun _ => .same) fun _ => ?_
    exact ends_set_bind (leaves_advanceVersion (.inr ⟨rfl, not_not.mp hactive⟩) _)
  | redeem request =>
    rw [perform]
    split
    · next redemption hredeem =>
        cases redeems_of_redeem hredeem with
        | alreadyMember => exact .same
        | joined => exact .used
    · exact .same

/-- What a call that returns `Joined` has found and done. -/
theorem exists_of_joins (h : self.joins command = true) :
    ∃ request version, command = .redeem request ∧ self.Admits request ∧
      self.status ≠ .exhausted ∧ self.usedUp = false ∧
      self.perform command = { self.use with version := version } := by
  cases command with
  | revoke | expireIfDue => cases h
  | redeem request =>
    rw [joins] at h
    cases hredeem : self.redeem request with
    | error e =>
      rw [hredeem] at h
      cases h
    | ok redemption =>
      rw [hredeem] at h
      have hperform : self.perform (.redeem request) = redemption.invite := by
        rw [perform, hredeem]
      cases redeems_of_redeem hredeem with
      | alreadyMember => cases h
      | joined hadmits _ hexhausted hused =>
        exact ⟨request, _, rfl, hadmits, hexhausted, hused, hperform⟩

theorem use_eq (self : ChannelInvite) :
    self.use = { self with useCount := self.useCount + 1, status := self.use.status } ∧
      (self.use.status = self.status ∨ self.use.status = .exhausted) := by
  unfold use
  dsimp only
  split
  · exact ⟨rfl, .inr rfl⟩
  · exact ⟨rfl, .inl rfl⟩

theorem Effect.limits (h : self.Effect self') :
    self'.maxUses = self.maxUses ∧ self'.expiresAtMillis = self.expiresAtMillis ∧
      self.useCount ≤ self'.useCount := by
  cases h with
  | same => exact ⟨rfl, rfl, le_rfl⟩
  | used =>
    rw [self.use_eq.1]
    exact ⟨rfl, rfl, Nat.le_succ _⟩
  | ended => exact ⟨rfl, rfl, le_rfl⟩

theorem Effect.status (h : self.Effect self') (hended : self.status ≠ .active) :
    self'.status ≠ .active ∧ (self'.status = .expired → self.status = .expired) := by
  cases h with
  | same => exact ⟨hended, id⟩
  | used =>
    dsimp only
    rcases self.use_eq.2 with hstatus | hstatus
    · rw [hstatus]
      exact ⟨hended, id⟩
    · rw [hstatus]
      exact ⟨nofun, nofun⟩
  | ended hstatus =>
    rcases hstatus with rfl | ⟨-, hactive⟩
    · exact ⟨nofun, nofun⟩
    · exact absurd hactive hended

theorem joinCount_le {maximum : NonZeroU32} (hmax : self.maxUses = some maximum)
    (commands : List InviteCommand) : self.joinCount commands ≤ maximum.get - self.useCount := by
  induction commands generalizing self with
  | nil => exact Nat.zero_le _
  | cons command rest ih =>
    obtain ⟨hmax', -, hle⟩ := (self.effect_perform command).limits
    have hrest := ih (hmax'.trans hmax)
    rw [joinCount]
    split
    · next hjoins =>
        obtain ⟨request, version, -, -, -, hused, hperform⟩ := exists_of_joins hjoins
        have hroom : self.useCount < maximum.get := by
          simpa [usedUp, hmax] using hused
        have hcount : (self.perform command).useCount = self.useCount + 1 := by
          rw [hperform, self.use_eq.1]
        omega
    · omega

theorem joinCount_eq_zero {commands : List InviteCommand} (hended : self.status ≠ .active)
    (hclock : self.status = .expired → ∀ request, .redeem request ∈ commands →
      self.expiresAtMillis ≤ request.nowMillis) : self.joinCount commands = 0 := by
  induction commands generalizing self with
  | nil => rfl
  | cons command rest ih =>
    have heffect := self.effect_perform command
    obtain ⟨hended', hexpired⟩ := heffect.status hended
    have hjoins : self.joins command = false := by
      by_contra hjoins
      obtain ⟨request, version, rfl, hadmits, hexhausted, -⟩ :=
        exists_of_joins (Bool.not_eq_false _ ▸ hjoins)
      cases hstatus : self.status with
      | active => exact hended hstatus
      | revoked => exact hadmits.notRevoked hstatus
      | exhausted => exact hexhausted hstatus
      | expired =>
        exact absurd hadmits.clock (not_lt.mpr (hclock hstatus request List.mem_cons_self))
    rw [joinCount, hjoins, ih hended' fun hstatus request hmem => ?_]
    · rfl
    · rw [heffect.limits.2.1]
      exact hclock (hexpired hstatus) request (List.mem_cons_of_mem _ hmem)

/-- No more calls of a run return `Joined` than there are uses, and none after the invite has
ended, if after it has expired no call comes with a clock before its expiry. -/
theorem ended_invite_admits_nobody (self : ChannelInvite) (before after : List InviteCommand) :
    (∀ maximum, self.maxUses = some maximum → self.joinCount (before ++ after) ≤ maximum.get) ∧
    ((before.foldl perform self).status ≠ .active →
      ((before.foldl perform self).status = .expired → ∀ request, .redeem request ∈ after →
        (before.foldl perform self).expiresAtMillis ≤ request.nowMillis) →
      (before.foldl perform self).joinCount after = 0) := by
  refine ⟨fun maximum hmax => ?_, fun hended hclock => joinCount_eq_zero hended hclock⟩
  exact (joinCount_le hmax _).trans (Nat.sub_le _ _)

/-- Somebody joins, and then the invite expires. -/
def sampleCommands : List InviteCommand :=
  [.redeem (sampleRequest .first none), .expireIfDue .second 100]

/-- Redemptions at 100 and at 150. -/
def lateCommands : List InviteCommand :=
  [100, 150].map fun nowMillis =>
    .redeem { sampleRequest ⟨3, by decide, by decide⟩ none with nowMillis }

theorem expired_invite_admits_nobody :
    (sampleCommands.foldl perform sampleInvite).status = .expired ∧
      (sampleCommands.foldl perform sampleInvite).joinCount lateCommands = 0 := by
  refine ⟨by decide, (ended_invite_admits_nobody sampleInvite sampleCommands lateCommands).2
    (by decide) fun _ request hrequest => ?_⟩
  have hnow : request.nowMillis = 100 ∨ request.nowMillis = 150 := by
    simp only [lateCommands, List.map_cons, List.map_nil, List.mem_cons, List.not_mem_nil, or_false,
      InviteCommand.redeem.injEq] at hrequest
    rcases hrequest with rfl | rfl
    · exact .inl rfl
    · exact .inr rfl
  rcases hnow with hnow | hnow <;> rw [hnow] <;> decide

/-- An invite that has expired admits a caller whose clock is behind. -/
theorem expired_invite_admits : (sampleInvite.perform (.expireIfDue .first 100)).status = .expired ∧
      (sampleInvite.perform (.expireIfDue .first 100)).joins
        (.redeem (sampleRequest .second none)) = true := by
  decide +kernel

end ChannelInvite
end XorEditor.Collaboration
