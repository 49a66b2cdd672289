import Mathlib.Algebra.GroupWithZero.Nat
import XorEditor.Comfy.Primitives

/-!
# Native handles and payload residency

An opaque handle names a payload in the store of one runtime.  A payload tells how many
bytes it keeps resident: some of its own, and some in allocations that other payloads may
share.  The payload kinds themselves are a parameter; the store only asks for what is in
`PayloadMethods`.

* `NativeOpaqueHandle`: a handle that has been checked
* `NativePayloadResidency`: what a payload keeps resident
-/

namespace XorEditor.Comfy

open Std (ExtTreeMap TransOrd)

def nativeOpaqueHandleSchemaVersion : Nat := 1

def maxIdentifierBytes : Nat := 4096

inductive NativeNodeContractError where
  | unsupportedHandleSchema (version : Nat)
  | invalidText (field : String)
  | invalidHandleGeneration
  | invalidHandleType
  | invalidHandleStoreIdentity
  | invalidDigest
  deriving DecidableEq, Repr

/-- The errors of stored payloads that the store itself raises, and those of the payload
kinds. -/
inductive NativeStoredPayloadError where
  | contract (error : NativeNodeContractError)
  | residentBytesOverflow
  | residentAllocationChanged
  | projectionChanged
  | payload (message : String)
  deriving DecidableEq, Repr

inductive NativeHandleStoreError where
  | cancelled
  | wrongStore
  | wrongGeneration
  | wrongType (expected actual : String)
  | missing (identifier : String)
  | digestMismatch
  | rejected (message : String)
  | invalidHandle (error : NativeNodeContractError)
  | invalidPayload (error : NativeStoredPayloadError)
  deriving DecidableEq, Repr

/-! ### Handles -/

inductive NativeHandleKind where
  | tensor
  | model
  | clip
  | vae
  | controlNet
  | conditioning
  | latent
  | image
  | mask
  | audio
  | video
  | threeD
  | artifact
  | providerTask
  | structuredCompute
  deriving DecidableEq, Repr

structure NativeHandleType where
  kind : NativeHandleKind
  typeId : String
  deriving DecidableEq, Repr

def isTypeIdChar (c : Char) : Bool :=
  c.isAlphanum || c == '_' || c == '-' || c == '.' || c == ':' || c == '@'

def NativeHandleType.validate (self : NativeHandleType) : Except NativeNodeContractError Unit :=
  if self.typeId.isEmpty ∨ maxIdentifierBytes < self.typeId.utf8ByteSize ∨
      ¬ self.typeId.toList.all isTypeIdChar then
    .error .invalidHandleType
  else
    .ok ()

structure NativeHandleStoreIdentity where
  storeId : Uuid
  generationId : Uuid
  deriving DecidableEq, Repr

def NativeHandleStoreIdentity.validate (self : NativeHandleStoreIdentity) :
    Except NativeNodeContractError Unit :=
  if self.storeId.isNil ∨ self.generationId.isNil then .error .invalidHandleStoreIdentity
  else .ok ()

def NativeHandleStoreIdentity.new (storeId generationId : Uuid) :
    Except NativeNodeContractError NativeHandleStoreIdentity := do
  let identity : NativeHandleStoreIdentity := { storeId, generationId }
  identity.validate
  return identity

def validateText (field value : String) (maximumBytes : Nat) (allowEmpty : Bool) :
    Except NativeNodeContractError Unit :=
  if (¬ allowEmpty ∧ value.isEmpty) ∨ maximumBytes < value.utf8ByteSize ∨
      value.toList.contains '\x00' ∨ value.toList.any isControl then
    .error (.invalidText field)
  else
    .ok ()

def validateIdentifier (field value : String) : Except NativeNodeContractError Unit :=
  validateText field value maxIdentifierBytes false

def validSha256 (value : String) : Bool :=
  value.utf8ByteSize == 64 && value.toList.all fun c => c.isDigit || ('a' ≤ c && c ≤ 'f')

structure NativeOpaqueHandle where
  schemaVersion : Nat
  handleType : NativeHandleType
  storeIdentity : NativeHandleStoreIdentity
  identifier : String
  generation : Nat
  digestSha256 : Option String
  deriving DecidableEq, Repr

def NativeOpaqueHandle.validate (self : NativeOpaqueHandle) :
    Except NativeNodeContractError Unit := do
  if self.schemaVersion ≠ nativeOpaqueHandleSchemaVersion then
    throw (.unsupportedHandleSchema self.schemaVersion)
  self.handleType.validate
  self.storeIdentity.validate
  validateIdentifier "opaque handle identifier" self.identifier
  if self.generation = 0 then
    throw .invalidHandleGeneration
  if self.digestSha256.any fun digest => !validSha256 digest then
    throw .invalidDigest

def NativeOpaqueHandle.new (handleType : NativeHandleType)
    (storeIdentity : NativeHandleStoreIdentity) (identifier : String) (generation : Nat)
    (digestSha256 : Option String) : Except NativeNodeContractError NativeOpaqueHandle := do
  let handle : NativeOpaqueHandle :=
    { schemaVersion := nativeOpaqueHandleSchemaVersion
      handleType, storeIdentity, identifier, generation, digestSha256 }
  handle.validate
  return handle

/-! ### Residency -/

/-- An allocation that payloads may share; `ι` is the type of allocation identities. -/
structure NativeResidentAllocation (ι : Type) where
  id : ι
  residentBytes : Nat
  deriving DecidableEq, Repr

/-- What a payload keeps resident.  The shared allocations are collected in a map over
their identities, so no identity occurs twice. -/
structure NativePayloadResidency (ι : Type) where
  exclusiveBytes : Nat
  sharedAllocations : List (NativeResidentAllocation ι)
  distinct : (sharedAllocations.map (·.id)).Nodup
  deriving DecidableEq

section Residency

variable {ι : Type} [Ord ι] [TransOrd ι]

def insertAllocation (unique : ExtTreeMap ι Nat) (allocation : NativeResidentAllocation ι) :
    Except NativeStoredPayloadError (ExtTreeMap ι Nat) :=
  if unique[allocation.id]?.any (· ≠ allocation.residentBytes) then
    .error .residentAllocationChanged
  else
    .ok (unique.insert allocation.id allocation.residentBytes)

def sharedAllocationsOf (unique : ExtTreeMap ι Nat) : List (NativeResidentAllocation ι) :=
  unique.toList.map fun entry => { id := entry.1, residentBytes := entry.2 }

theorem distinct_sharedAllocationsOf (unique : ExtTreeMap ι Nat) :
    ((sharedAllocationsOf unique).map (·.id)).Nodup := by
  have hkeys : (sharedAllocationsOf unique).map (·.id) = unique.keys := by
    rw [sharedAllocationsOf, List.map_map]
    exact ExtTreeMap.map_fst_toList_eq_keys
  rw [hkeys]
  exact ExtTreeMap.nodup_keys

def NativePayloadResidency.checked (exclusiveBytes : Nat)
    (allocations : List (NativeResidentAllocation ι)) :
    Except NativeStoredPayloadError (NativePayloadResidency ι) := do
  let unique ← allocations.foldlM insertAllocation ∅
  match (sharedAllocationsOf unique).foldlM
      (fun total allocation => checkedAdd total allocation.residentBytes) exclusiveBytes with
  | none => throw .residentBytesOverflow
  | some _ =>
    return { exclusiveBytes
             sharedAllocations := sharedAllocationsOf unique
             distinct := distinct_sharedAllocationsOf unique }

end Residency

/-- What the store asks a payload for. -/
structure PayloadMethods (Payload ι : Type) where
  validate : Payload → Except NativeStoredPayloadError Unit
  handleType : Payload → Except NativeStoredPayloadError NativeHandleType
  digestSha256 : Payload → String
  residency : Payload → Except NativeStoredPayloadError (NativePayloadResidency ι)

end XorEditor.Comfy
