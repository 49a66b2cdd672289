import XorEditor.Collaboration.Identity
import XorEditor.Lib.JoinMap
import XorEditor.Lib.Method

/-!
# Read markers

The read state of one account in one community: how far each context has been read (its
frontier) and which contexts the owner has marked unread by hand (the override registers).
Devices exchange their states as replicas and merge them by pointwise maximum.  The owner's
own actions advance a frontier, mark a context unread or mark it read.

* `ReadState`: the state, with `merge` and the actions of the owner
* `canonicalReplica`: the replica that is published
-/

namespace XorEditor.Collaboration

open Lib
open Std (ExtTreeMap)

/-- A 32-bit unsigned counter. -/
abbrev U32 := Fin (2 ^ 32)

instance instNeZeroU32 : NeZero (2 ^ 32) := ⟨by decide⟩

/-- `checked_add` of the counters. -/
def U32.checkedAdd (a b : U32) : Option U32 :=
  if h : a.val + b.val < 2 ^ 32 then some ⟨a.val + b.val, h⟩ else none

def maxContextBytes : Nat := 256

def maxOverrideContextBytes : Nat := maxContextBytes - "ov_s:".utf8ByteSize

def maxContexts : Nat := 10000

inductive ReadStateError where
  | invalidContext
  | overrideContextTooLong
  | tooManyContexts
  | overrideWithoutFrontier
  | ownerMismatch
  | scopeMismatch
  | incompleteLoad
  | counterExhausted
  deriving DecidableEq, Repr

/-- A context is named by a text of 1 to 256 bytes. -/
structure ReadContextId where
  value : String
  nonempty : value.utf8ByteSize ≠ 0
  le_max : value.utf8ByteSize ≤ maxContextBytes
  deriving DecidableEq

namespace ReadContextId

def new (value : String) : Except ReadStateError ReadContextId :=
  if h : value.utf8ByteSize = 0 ∨ value.utf8ByteSize > maxContextBytes then
    .error .invalidContext
  else
    .ok ⟨value, fun h' => h (.inl h'), Nat.le_of_not_gt fun h' => h (.inr h')⟩

def supportsOverride (context : ReadContextId) : Bool :=
  context.value.utf8ByteSize ≤ maxOverrideContextBytes

instance : Ord ReadContextId where
  compare := compareOn value

instance : Std.TransOrd ReadContextId :=
  inferInstanceAs (Std.TransCmp (compareOn value))

instance : Std.LawfulEqOrd ReadContextId where
  eq_of_compare {a b} h := by
    have hcompare : compare a.value b.value = .eq := h
    have hvalue := Std.LawfulEqCmp.eq_of_compare hcompare
    cases a
    cases b
    simpa using hvalue

end ReadContextId

structure ReadStateScope where
  communityId : CommunityId
  ownerPrincipalId : PrincipalId
  deriving DecidableEq, Repr

inductive ReadStateCompleteness where
  | complete
  | potentiallyIncomplete
  deriving DecidableEq, Repr

/-! ### Override registers -/

@[ext]
structure ManualUnreadRegister where
  set : U32
  clear : U32
  baseline : U32
  deriving DecidableEq, Repr

variable (self : ManualUnreadRegister) (effectiveFrontier : U32)

namespace ManualUnreadRegister

instance : Inhabited ManualUnreadRegister where
  default := ⟨0, 0, 0⟩

instance : LE ManualUnreadRegister where
  le a b := a.set ≤ b.set ∧ a.clear ≤ b.clear ∧ a.baseline ≤ b.baseline

theorem le_iff {a b : ManualUnreadRegister} :
    a ≤ b ↔ a.set ≤ b.set ∧ a.clear ≤ b.clear ∧ a.baseline ≤ b.baseline := Iff.rfl

def merge (self other : ManualUnreadRegister) : ManualUnreadRegister where
  set := max self.set other.set
  clear := max self.clear other.clear
  baseline := max self.baseline other.baseline

/-- The merge of two registers is their least upper bound. -/
instance : SemilatticeSup ManualUnreadRegister where
  le_refl a := ⟨le_rfl, le_rfl, le_rfl⟩
  le_trans a b c hab hbc := ⟨hab.1.trans hbc.1, hab.2.1.trans hbc.2.1, hab.2.2.trans hbc.2.2⟩
  le_antisymm a b hab hba :=
    ManualUnreadRegister.ext (le_antisymm hab.1 hba.1) (le_antisymm hab.2.1 hba.2.1)
      (le_antisymm hab.2.2 hba.2.2)
  sup := merge
  le_sup_left a b := ⟨le_max_left _ _, le_max_left _ _, le_max_left _ _⟩
  le_sup_right a b := ⟨le_max_right _ _, le_max_right _ _, le_max_right _ _⟩
  sup_le a b c hac hbc := ⟨max_le hac.1 hbc.1, max_le hac.2.1 hbc.2.1, max_le hac.2.2 hbc.2.2⟩

def isActive : Bool :=
  self.set > 0 && self.set > self.clear && effectiveFrontier ≤ self.baseline

def markUnread : Except ReadStateError ManualUnreadRegister :=
  match U32.checkedAdd (max self.set self.clear) 1 with
  | none => .error .counterExhausted
  | some next => .ok { self with set := next, baseline := effectiveFrontier }

def markRead : Except ReadStateError ManualUnreadRegister :=
  match U32.checkedAdd (max self.set self.clear) 1 with
  | none =>
    if self.isActive effectiveFrontier then .error .counterExhausted else .ok self
  | some next => .ok { self with clear := next }

/-- A register that is not set and only remembers how far it has been counted. -/
def tombstone (counter : U32) : ManualUnreadRegister := ⟨0, counter, 0⟩

end ManualUnreadRegister

/-- What a register says at a frontier. -/
inductive ManualUnreadState where
  | virgin
  | live (register : ManualUnreadRegister)
  | tombstone (counter : U32)
  deriving DecidableEq, Repr

def ManualUnreadRegister.canonical : ManualUnreadState :=
  if self.isActive effectiveFrontier then .live self
  else if self.set > 0 ∨ self.clear > 0 then .tombstone (max self.set self.clear)
  else .virgin

abbrev Frontiers := ExtTreeMap ReadContextId U32 compare

abbrev Overrides := ExtTreeMap ReadContextId ManualUnreadRegister compare

/-! ### Replicas and states -/

/-- The decrypted state of one device, as it is exchanged between devices. -/
structure OwnerReadStateReplica where
  scope : ReadStateScope
  frontiers : Frontiers
  overrides : Overrides
  supported : ∀ context ∈ overrides, context.supportsOverride
  bounded : frontiers.size + overrides.size ≤ maxContexts
  located : ∀ context ∈ overrides, context ∈ frontiers
  deriving DecidableEq

/-- Registers of contexts that may have one. -/
abbrev SupportedOverrides :=
  { overrides : Overrides // ∀ context ∈ overrides, context.supportsOverride }

/-- One step of the loop of `OwnerReadStateReplica::new` over the overrides. -/
def normalizeOverride (normalized : SupportedOverrides)
    (entry : ReadContextId × ManualUnreadRegister) : Except ReadStateError SupportedOverrides :=
  if h : entry.1.supportsOverride then
    .ok ⟨JoinMap.upsert normalized.val entry.1 entry.2, fun context hcontext => by
      obtain rfl | hcontext := JoinMap.mem_upsert.mp hcontext
      · exact h
      · exact normalized.property context hcontext⟩
  else .error .overrideContextTooLong

def OwnerReadStateReplica.new (scope : ReadStateScope) (decryptedFor : PrincipalId)
    (frontiers : List (ReadContextId × U32))
    (overrides : List (ReadContextId × ManualUnreadRegister)) :
    Except ReadStateError OwnerReadStateReplica := do
  if scope.ownerPrincipalId ≠ decryptedFor then
    throw .ownerMismatch
  let normalizedFrontiers : Frontiers := JoinMap.upsertAll ∅ frontiers
  let ⟨normalizedOverrides, hsupported⟩ ← overrides.foldlM normalizeOverride ⟨∅, by simp⟩
  if hbounded : normalizedFrontiers.size + normalizedOverrides.size > maxContexts then
    throw .tooManyContexts
  else if hlocated : ∃ context ∈ normalizedOverrides.keys, context ∉ normalizedFrontiers then
    throw .overrideWithoutFrontier
  else
    return {
      scope := scope
      frontiers := normalizedFrontiers
      overrides := normalizedOverrides
      supported := hsupported
      bounded := Nat.le_of_not_gt hbounded
      located := fun context hcontext => by
        by_contra hmissing
        exact hlocated ⟨context, by simpa using hcontext, hmissing⟩ }

structure ReadState where
  scope : ReadStateScope
  completeness : ReadStateCompleteness
  frontiers : Frontiers
  overrides : Overrides
  deriving DecidableEq

namespace ReadState

/-- The state before any replica has been merged. -/
def empty (scope : ReadStateScope) (completeness : ReadStateCompleteness) : ReadState :=
  ⟨scope, completeness, ∅, ∅⟩

def merge (replica : OwnerReadStateReplica) : EStateM ReadStateError ReadState Unit := do
  let self ← get
  if replica.scope ≠ self.scope then
    throw .scopeMismatch
  set { self with
    frontiers := JoinMap.join self.frontiers replica.frontiers
    overrides := JoinMap.join self.overrides replica.overrides }

def fromReplicas (scope : ReadStateScope) (completeness : ReadStateCompleteness)
    (replicas : List OwnerReadStateReplica) : Except ReadStateError ReadState :=
  match (replicas.forM merge) (empty scope completeness) with
  | .ok _ state => .ok state
  | .error e _ => .error e

variable (self : ReadState)

def effectiveFrontierUnchecked (context : ReadContextId) (parent : Option ReadContextId) : U32 :=
  let own := self.frontiers[context]?.getD 0
  match parent with
  | none => own
  | some parent => max own (self.frontiers[parent]?.getD 0)

def requireOwner (principalId : PrincipalId) (self : ReadState) : Except ReadStateError Unit :=
  if self.scope.ownerPrincipalId ≠ principalId then .error .ownerMismatch else .ok ()

def requireCompleteOwner (principalId : PrincipalId) (self : ReadState) :
    Except ReadStateError Unit := do
  self.requireOwner principalId
  if self.completeness ≠ .complete then
    throw .incompleteLoad

def requireOverrideAction (principalId : PrincipalId) (context : ReadContextId)
    (self : ReadState) : Except ReadStateError Unit := do
  self.requireCompleteOwner principalId
  if !context.supportsOverride then
    throw .overrideContextTooLong

def isUnread (viewer : PrincipalId) (context : ReadContextId) (parent : Option ReadContextId)
    (latestMessageAt : U32) : Except ReadStateError Bool := do
  self.requireOwner viewer
  let effectiveFrontier := self.effectiveFrontierUnchecked context parent
  let overrideActive := self.overrides[context]?.any (·.isActive effectiveFrontier)
  return latestMessageAt > effectiveFrontier || overrideActive

def advanceFrontier (owner : PrincipalId) (context : ReadContextId) (readThrough : U32) :
    EStateM ReadStateError ReadState Unit := do
  Method.check (requireCompleteOwner owner)
  modify fun self => { self with frontiers := JoinMap.upsert self.frontiers context readThrough }

/-- Write the result of a register method back.  The entry of the context exists from here
on, also when the method fails. -/
def updateOverride (context : ReadContextId)
    (update : ManualUnreadRegister → Except ReadStateError ManualUnreadRegister) :
    EStateM ReadStateError ReadState Unit := do
  let register := (← get).overrides[context]?.getD default
  modify fun self => { self with overrides := self.overrides.insert context register }
  let register ← Method.check fun _ => update register
  modify fun self => { self with overrides := self.overrides.insert context register }

def markUnread (owner : PrincipalId) (context : ReadContextId)
    (parent : Option ReadContextId) : EStateM ReadStateError ReadState Unit := do
  Method.check (requireOverrideAction owner context)
  let effectiveFrontier := (← get).effectiveFrontierUnchecked context parent
  modify fun self => { self with frontiers := self.frontiers.insertIfNew context 0 }
  updateOverride context (·.markUnread effectiveFrontier)

def markRead (owner : PrincipalId) (context : ReadContextId) (parent : Option ReadContextId)
    (readThrough : U32) : EStateM ReadStateError ReadState Unit := do
  Method.check (requireOverrideAction owner context)
  modify fun self => { self with frontiers := JoinMap.upsert self.frontiers context readThrough }
  let effectiveFrontier := (← get).effectiveFrontierUnchecked context parent
  updateOverride context (·.markRead effectiveFrontier)

abbrev Parents := ExtTreeMap ReadContextId ReadContextId compare

/-- One step of the loop of `canonical_replica` over the overrides. -/
def publishOverride (parents : Parents) (overrides : Overrides)
    (entry : ReadContextId × ManualUnreadRegister) : Overrides :=
  let effectiveFrontier := self.effectiveFrontierUnchecked entry.1 parents[entry.1]?
  match entry.2.canonical effectiveFrontier with
  | .virgin => overrides
  | .live register => overrides.insert entry.1 register
  | .tombstone counter => overrides.insert entry.1 (.tombstone counter)

def canonicalReplica (owner : PrincipalId) (parents : Parents) :
    Except ReadStateError OwnerReadStateReplica := do
  self.requireCompleteOwner owner
  let overrides := self.overrides.toList.foldl (self.publishOverride parents) ∅
  OwnerReadStateReplica.new self.scope owner self.frontiers.toList overrides.toList

/-- The state as a replica for other devices. -/
def asReplica : Except ReadStateError OwnerReadStateReplica :=
  OwnerReadStateReplica.new self.scope self.scope.ownerPrincipalId
    self.frontiers.toList self.overrides.toList

end ReadState
end XorEditor.Collaboration
