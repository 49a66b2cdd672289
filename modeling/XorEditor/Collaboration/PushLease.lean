import XorEditor.Collaboration.Identity
import XorEditor.Lib.Method

/-!
# Push leases

A device keeps a lease on its push address.  Each activation carries a generation that must
exceed the stored one, so that an old activation cannot be replayed while the record is
kept.  When a record may be forgotten is its watermark: by then every activation accepted
for the address should have expired.  A revoked lease satisfies this, because its watermark
counts a whole lease time from the revocation; an active one only remembers the expiry of
its last activation.

* `activate`, `replace`, `revoke`: the calls on a lease
* `Run.watermark_covers_iff`: when the watermark covers every activation
-/

namespace XorEditor.Collaboration

open Lib Method

inductive PushLeaseError where
  | invalidAddress
  | invalidRecord
  | invalidExpiration
  | staleGeneration
  | revoked
  | expired
  | wrongLeaseGeneration
  | wrongEndpointGeneration
  | wrongCapability
  | timestampOverflow
  deriving DecidableEq, Repr

def maxInstallationIdBytes : Nat := 64

structure PushInstallationId where
  value : String
  nonempty : value ≠ ""
  le_max : value.utf8ByteSize ≤ maxInstallationIdBytes
  printable : value.toList.any isControl = false
  deriving DecidableEq

structure PushLeaseAddress where
  communityId : CommunityId
  ownerPrincipalId : PrincipalId
  installationId : PushInstallationId
  deriving DecidableEq

/-- A digest that is not all zero. -/
structure PushCapabilityReference where
  digest : BitVec 256
  ne_zero : digest ≠ 0
  deriving DecidableEq

abbrev PushLeaseGeneration := NonZeroU64

abbrev PushEndpointGeneration := NonZeroU64

inductive PushLeaseState where
  | active (capabilityReference : PushCapabilityReference)
      (endpointGeneration : PushEndpointGeneration)
  | revoked (revokedAtMillis : U64)
  deriving DecidableEq

structure PushLeaseRecordFields where
  address : PushLeaseAddress
  generation : PushLeaseGeneration
  expiresAtMillis : U64
  lastActiveExpiresAtMillis : U64
  state : PushLeaseState
  deriving DecidableEq

structure PushLeaseActivation where
  generation : PushLeaseGeneration
  expiresAtMillis : U64
  capabilityReference : PushCapabilityReference
  endpointGeneration : PushEndpointGeneration
  deriving DecidableEq

structure PushLease where
  fields : PushLeaseRecordFields
  deriving DecidableEq

def validateAddress (address : PushLeaseAddress) : Except PushLeaseError Unit :=
  if address.communityId.isNil || address.ownerPrincipalId.isNil then .error .invalidAddress
  else .ok ()

def validateExpiration (expiresAtMillis nowMillis : U64) : Except PushLeaseError Unit :=
  if expiresAtMillis ≤ nowMillis then .error .invalidExpiration else .ok ()

namespace PushLease

def activate (address : PushLeaseAddress) (activation : PushLeaseActivation) (nowMillis : U64) :
    Except PushLeaseError PushLease := do
  validateAddress address
  validateExpiration activation.expiresAtMillis nowMillis
  return ⟨{
    address := address
    generation := activation.generation
    expiresAtMillis := activation.expiresAtMillis
    lastActiveExpiresAtMillis := activation.expiresAtMillis
    state := .active activation.capabilityReference activation.endpointGeneration }⟩

variable (generation : PushLeaseGeneration) {expiresAtMillis nowMillis : U64}

def requireNewerGeneration (self : PushLease) : Except PushLeaseError Unit :=
  if generation.get ≤ self.fields.generation.get then .error .staleGeneration else .ok ()

def replace (activation : PushLeaseActivation) (nowMillis : U64) :
    EStateM PushLeaseError PushLease Unit := do
  check (requireNewerGeneration activation.generation)
  check fun _ => validateExpiration activation.expiresAtMillis nowMillis
  modify fun self => ⟨{ self.fields with
    generation := activation.generation
    expiresAtMillis := activation.expiresAtMillis
    lastActiveExpiresAtMillis := activation.expiresAtMillis
    state := .active activation.capabilityReference activation.endpointGeneration }⟩

def revoke (tombstoneExpiresAtMillis nowMillis : U64) :
    EStateM PushLeaseError PushLease Unit := do
  check (requireNewerGeneration generation)
  check fun _ => validateExpiration tombstoneExpiresAtMillis nowMillis
  modify fun self => ⟨{ self.fields with
    generation := generation
    expiresAtMillis := tombstoneExpiresAtMillis
    state := .revoked nowMillis }⟩

/-- The end of the last activation, and for a revoked lease a whole lease time from there. -/
def retentionBase (self : PushLease) (maxLeaseTtlMillis : U64) : Except PushLeaseError U64 :=
  match self.fields.state with
  | .active _ _ => .ok self.fields.lastActiveExpiresAtMillis
  | .revoked revokedAtMillis =>
    match U64.checkedAdd revokedAtMillis maxLeaseTtlMillis with
    | none => .error .timestampOverflow
    | some untilMillis => .ok (max self.fields.lastActiveExpiresAtMillis untilMillis)

def watermarkRetentionUntil (self : PushLease) (maxLeaseTtlMillis allowedSkewMillis : U64) :
    Except PushLeaseError U64 := do
  let retentionBase ← self.retentionBase maxLeaseTtlMillis
  match U64.checkedAdd retentionBase allowedSkewMillis with
  | none => throw .timestampOverflow
  | some untilMillis => return untilMillis

/-! ### What each call does -/

theorem validateExpiration_eq_ok_iff {done : Unit} :
    validateExpiration expiresAtMillis nowMillis = .ok done ↔ nowMillis < expiresAtMillis := by
  unfold validateExpiration
  split <;> simp_all

/-- The two calls on a lease that exists make the same checks. -/
theorem newer_eq_ok {generation : PushLeaseGeneration} {update : PushLease → PushLease}
    {lease lease' : PushLease}
    (h : (check (requireNewerGeneration generation) >>= fun _ =>
      check (fun _ => validateExpiration expiresAtMillis nowMillis) >>= fun _ => modify update)
      lease = .ok () lease') : lease' = update lease := by
  obtain ⟨⟨⟩, -, h⟩ := check_bind_eq_ok_iff.mp h
  obtain ⟨⟨⟩, -, h⟩ := check_bind_eq_ok_iff.mp h
  exact (EStateM.Result.ok.inj h).2.symm

/-! ### Runs -/

/-- A run of successful calls for one address: the lease it has reached, the activations it
has accepted, and the time of its last call.  No activation lasts longer than the lease time
from its call, and the clock does not run backwards. -/
inductive Run (maxLeaseTtlMillis : U64) : PushLease → List PushLeaseActivation → U64 → Prop
  | activate {address : PushLeaseAddress} {activation : PushLeaseActivation} {nowMillis : U64}
      {lease : PushLease} :
      activate address activation nowMillis = .ok lease →
      activation.expiresAtMillis.val ≤ nowMillis.val + maxLeaseTtlMillis.val →
      Run maxLeaseTtlMillis lease [activation] nowMillis
  | replace {lease lease' : PushLease} {accepted : List PushLeaseActivation}
      {activation : PushLeaseActivation} {previousMillis nowMillis : U64} :
      Run maxLeaseTtlMillis lease accepted previousMillis → previousMillis ≤ nowMillis →
      replace activation nowMillis lease = .ok () lease' →
      activation.expiresAtMillis.val ≤ nowMillis.val + maxLeaseTtlMillis.val →
      Run maxLeaseTtlMillis lease' (accepted ++ [activation]) nowMillis
  | revoke {lease lease' : PushLease} {accepted : List PushLeaseActivation}
      {generation : PushLeaseGeneration} {tombstoneExpiresAtMillis previousMillis nowMillis : U64} :
      Run maxLeaseTtlMillis lease accepted previousMillis → previousMillis ≤ nowMillis →
      revoke generation tombstoneExpiresAtMillis nowMillis lease = .ok () lease' →
      Run maxLeaseTtlMillis lease' accepted nowMillis

variable {maxLeaseTtlMillis nowMillis : U64} {lease : PushLease}
  {accepted : List PushLeaseActivation}

/-- No accepted activation outlasts the lease time from the last call on. -/
theorem Run.expires_le (h : Run maxLeaseTtlMillis lease accepted nowMillis) :
    ∀ activation ∈ accepted,
      activation.expiresAtMillis.val ≤ nowMillis.val + maxLeaseTtlMillis.val := by
  induction h with
  | activate _ hexpires =>
    intro other hother
    rw [List.mem_singleton.mp hother]
    exact hexpires
  | replace _ hclock _ hexpires ih =>
    intro other hother
    rcases List.mem_append.mp hother with hother | hother
    · have hle := ih other hother
      have hclock := Fin.le_def.mp hclock
      omega
    · rw [List.mem_singleton.mp hother]
      exact hexpires
  | revoke _ hclock _ ih =>
    intro other hother
    have hle := ih other hother
    have hclock := Fin.le_def.mp hclock
    omega

/-- What the record of a run tells about it: an active lease is the last activation, and a
revoked one was revoked by the last call. -/
theorem Run.record (h : Run maxLeaseTtlMillis lease accepted nowMillis) :
    ∃ last, accepted.getLast? = some last ∧
      lease.fields.lastActiveExpiresAtMillis = last.expiresAtMillis ∧
      (lease.fields.state = .active last.capabilityReference last.endpointGeneration ∨
        lease.fields.state = .revoked nowMillis) := by
  induction h with
  | activate hactivate _ =>
    obtain ⟨-, -, hactivate⟩ := result_bind_eq_ok_iff.mp hactivate
    obtain ⟨-, -, hactivate⟩ := result_bind_eq_ok_iff.mp hactivate
    obtain rfl := Except.ok.inj hactivate
    exact ⟨_, rfl, rfl, Or.inl rfl⟩
  | replace _ _ hreplace _ ih =>
    obtain rfl := newer_eq_ok hreplace
    exact ⟨_, List.getLast?_concat, rfl, Or.inl rfl⟩
  | revoke _ _ hrevoke ih =>
    obtain rfl := newer_eq_ok hrevoke
    obtain ⟨last, hlast, hexpires, -⟩ := ih
    exact ⟨last, hlast, hexpires, Or.inr rfl⟩

/-! ### Forgetting a lease -/

theorem watermark_eq_ok {allowedSkewMillis untilMillis : U64}
    (h : lease.watermarkRetentionUntil maxLeaseTtlMillis allowedSkewMillis = .ok untilMillis) :
    (∀ capability endpoint, lease.fields.state = .active capability endpoint →
      untilMillis.val = lease.fields.lastActiveExpiresAtMillis.val + allowedSkewMillis.val) ∧
    ∀ revokedAtMillis, lease.fields.state = .revoked revokedAtMillis →
      revokedAtMillis.val + maxLeaseTtlMillis.val ≤ untilMillis.val := by
  obtain ⟨base, hbase, h⟩ := result_bind_eq_ok_iff.mp h
  have huntil : base.val + allowedSkewMillis.val = untilMillis.val := by
    split at h
    · cases h
    · rename_i sum hsum
      obtain rfl := Except.ok.inj h
      exact U64.checkedAdd_eq_some_iff.mp hsum
  unfold retentionBase at hbase
  refine ⟨fun capability endpoint hstate => ?_, fun revokedAtMillis hstate => ?_⟩
  · rw [hstate] at hbase
    obtain rfl := Except.ok.inj hbase
    exact huntil.symm
  · rw [hstate] at hbase
    dsimp only at hbase
    split at hbase
    · cases hbase
    · rename_i sum hsum
      obtain rfl := Except.ok.inj hbase
      have hle := Fin.le_def.mp (le_max_right lease.fields.lastActiveExpiresAtMillis sum)
      rw [← U64.checkedAdd_eq_some_iff.mp hsum] at hle
      omega

/-- The lease is revoked, or the last activation was among those that expire last, up to the
allowed skew. -/
def Covered (lease : PushLease) (accepted : List PushLeaseActivation) (allowedSkewMillis : U64) :
    Prop :=
  (∃ revokedAtMillis, lease.fields.state = .revoked revokedAtMillis) ∨
    ∃ last, accepted.getLast? = some last ∧ ∀ activation ∈ accepted,
      activation.expiresAtMillis.val ≤ last.expiresAtMillis.val + allowedSkewMillis.val

/-- **No accepted activation outlives the watermark of a lease exactly if the lease is revoked
or no earlier activation expires after the last one.**  Until then an activation that has
been replaced can be replayed once the watermark is dropped. -/
theorem Run.watermark_covers_iff (h : Run maxLeaseTtlMillis lease accepted nowMillis)
    {allowedSkewMillis untilMillis : U64}
    (huntil : lease.watermarkRetentionUntil maxLeaseTtlMillis allowedSkewMillis = .ok untilMillis) :
    ((∀ activation ∈ accepted, activation.expiresAtMillis ≤ untilMillis) ↔
      lease.Covered accepted allowedSkewMillis) ∧
    ((∀ activation ∈ accepted, ∀ laterMillis, untilMillis ≤ laterMillis →
      validateExpiration activation.expiresAtMillis laterMillis = .error .invalidExpiration) ↔
      lease.Covered accepted allowedSkewMillis) := by
  have hcovers : (∀ activation ∈ accepted, activation.expiresAtMillis ≤ untilMillis) ↔
      lease.Covered accepted allowedSkewMillis := by
    obtain ⟨hactive, hrevoked⟩ := watermark_eq_ok huntil
    obtain ⟨last, hlast, hexpires, hstate | hstate⟩ := h.record
    · have hsum := hactive _ _ hstate
      rw [hexpires] at hsum
      simp only [Covered, hstate, reduceCtorEq, exists_false, false_or, hlast, Option.some.injEq,
        exists_eq_left', Fin.le_def, hsum]
    · refine iff_of_true (fun activation hactivation => ?_) (Or.inl ⟨_, hstate⟩)
      exact Fin.le_def.mpr ((h.expires_le activation hactivation).trans (hrevoked _ hstate))
  refine ⟨hcovers, Iff.trans ⟨fun hlater activation hactivation => ?_, ?_⟩ hcovers⟩
  · -- an activation that expires after the watermark would pass right at it
    by_contra hexpires
    have hok : validateExpiration activation.expiresAtMillis untilMillis = .ok () :=
      validateExpiration_eq_ok_iff.mpr (not_le.mp hexpires)
    rw [hlater activation hactivation untilMillis le_rfl] at hok
    cases hok
  · intro hle activation hactivation laterMillis hlater
    exact if_pos ((hle activation hactivation).trans hlater)

/-! ### An activation that comes back -/

def exampleAddress : PushLeaseAddress :=
  ⟨⟨1⟩, ⟨1⟩, ⟨"phone", by decide, by decide, by decide⟩⟩

def exampleActivation (expiresAtMillis : U64) : PushLeaseActivation :=
  ⟨generation, expiresAtMillis, ⟨1, by decide⟩, .first⟩

/-- An activation until 1000 is replaced by one until 900.  With a skew of 100 the watermark
covers both, so the first one has expired when the record may be forgotten. -/
theorem watermark_replaced_activation : ∃ lease,
    Run 1000 lease [exampleActivation .first 1000, exampleActivation .second 900] 10 ∧
      lease.watermarkRetentionUntil 1000 100 = .ok 1000 ∧
      validateExpiration (exampleActivation .first 1000).expiresAtMillis 1000 =
        .error .invalidExpiration := by
  have hfirst : Run 1000 _ [exampleActivation .first 1000] 0 :=
    @Run.activate 1000 exampleAddress _ 0 _ rfl (by decide)
  have hsecond := @Run.replace 1000 _ _ _ (exampleActivation .second 900) 0 10 hfirst
    (by decide) rfl (by decide)
  refine ⟨_, hsecond, rfl, ?_⟩
  obtain ⟨-, hexpired⟩ := @Run.watermark_covers_iff _ _ _ _ hsecond 100 1000 rfl
  refine hexpired.mpr (Or.inr ⟨_, rfl, ?_⟩) _ List.mem_cons_self 1000 le_rfl
  decide

/-- An activation until 1000 is replaced by one until 20.  At 20 the record may be forgotten,
and then the first activation is accepted once more. -/
theorem replaced_activation_replayed : ∃ lease lease' accepted activation,
    Run 1000 lease accepted 10 ∧ activation ∈ accepted ∧
      lease.watermarkRetentionUntil 1000 0 = .ok 20 ∧
      ¬ activation.expiresAtMillis ≤ 20 ∧
      validateExpiration activation.expiresAtMillis 20 = .ok () ∧
      PushLease.activate lease.fields.address activation 20 = .ok lease' := by
  have hfirst : Run 1000 _ [exampleActivation .first 1000] 0 :=
    @Run.activate 1000 exampleAddress _ 0 _ rfl (by decide)
  have hsecond := @Run.replace 1000 _ _ _ (exampleActivation .second 20) 0 10
    hfirst (by decide) rfl (by decide)
  exact ⟨_, _, _, exampleActivation .first 1000, hsecond, List.mem_cons_self, rfl, by decide, rfl,
    rfl⟩

end PushLease
end XorEditor.Collaboration
