import XorEditor.Collaboration.Identity

/-!
# Memberships

A principal is a member of a community or of one channel of it.  A caller that already knows a
membership hands it over in one of three shapes.

* `Membership`: a membership of either scope
* `MembershipPolicyInput`: what a caller knows about one
-/

namespace XorEditor.Collaboration

inductive MembershipRole where
  | owner
  | admin
  | member
  | guest
  | bot
  deriving DecidableEq

inductive MembershipStatus where
  | active
  | revoked
  | archived
  deriving DecidableEq

structure CommunityMembership where
  communityId : CommunityId
  principalId : PrincipalId
  role : MembershipRole
  status : MembershipStatus
  version : AggregateVersion
  deriving DecidableEq

structure ChannelMembership where
  communityId : CommunityId
  channelId : AggregateId
  principalId : PrincipalId
  role : MembershipRole
  status : MembershipStatus
  version : AggregateVersion
  deriving DecidableEq

inductive MembershipPolicyInput where
  | persistentCommunity (value : CommunityMembership)
  | persistentChannel (value : ChannelMembership)
  | virtualCommunity (value : CommunityMembership)
  deriving DecidableEq

/-- The community that the membership is of. -/
def MembershipPolicyInput.communityId : MembershipPolicyInput → CommunityId
  | persistentCommunity value | virtualCommunity value => value.communityId
  | persistentChannel value => value.communityId

inductive MembershipScope where
  | community
  | channel (channelId : AggregateId)
  deriving DecidableEq

/-- `Membership` and `MembershipRecordFields`. -/
structure Membership where
  communityId : CommunityId
  scope : MembershipScope
  principalId : PrincipalId
  role : MembershipRole
  status : MembershipStatus
  version : AggregateVersion
  addedByPrincipalId : Option PrincipalId
  deriving DecidableEq

end XorEditor.Collaboration
