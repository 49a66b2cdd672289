import XorEditor.Comfy.NativeHandle
import XorEditor.Lib.Method

/-!
# The native handle store

One generation of the store keeps the payloads that were published, each with the number
of leases (`roots`) and of resolved payloads (`resolvedRoots`) that hold it, and counts
the bytes they keep resident.  An attempt publishes through its session, which remembers
what it has staged until the attempt commits or rolls back.

Every function below is one critical section of the lock on `NativeHandleStoreData`; what
a function does on both sides of a lock is cut there.

* `NativeHandleStoreData`: the data behind the lock
* `publish`, `resolve`, `acquireLease`, `revoke`: the entry points
-/

namespace XorEditor.Comfy

open Std (ExtTreeMap TransOrd LawfulEqOrd)
open Lib

structure AttemptId where
  uuid : Uuid
  deriving DecidableEq, Repr

structure StoredResidentAllocation where
  residentBytes : Nat
  handleReferences : Nat
  deriving DecidableEq, Repr

structure StoredNativeHandle (Payload ι : Type) where
  handleType : NativeHandleType
  generation : Nat
  digestSha256 : String
  value : Payload
  committed : Bool
  publishedBy : AttemptId
  residency : NativePayloadResidency ι
  roots : Nat
  resolvedRoots : Nat
  retired : Bool
  deriving DecidableEq

structure NativeHandleStoreData (Payload ι : Type) [Ord ι] where
  values : ExtTreeMap String (StoredNativeHandle Payload ι)
  allocations : ExtTreeMap ι StoredResidentAllocation
  residentBytes : Nat

/-- The state behind `NativeHandleStoreGeneration`. -/
structure NativeHandleStore (Payload ι : Type) [Ord ι] where
  identity : NativeHandleStoreIdentity
  nextGeneration : Nat
  data : NativeHandleStoreData Payload ι
  capacity : Nat
  byteCapacity : Nat

structure NativeHandleStoreSessionStage where
  identifiers : List String
  closed : Bool
  deriving DecidableEq, Repr

variable {Payload ι : Type} [Ord ι] [TransOrd ι]

namespace NativeHandleStoreData

def empty : NativeHandleStoreData Payload ι :=
  { values := ∅, allocations := ∅, residentBytes := 0 }

variable (data : NativeHandleStoreData Payload ι)

def putRecord (identifier : String) (record : StoredNativeHandle Payload ι) :
    NativeHandleStoreData Payload ι :=
  { data with values := data.values.insert identifier record }

/-! ### Removing and retiring a handle -/

/-- One round of the `try_fold` that adds up the allocations only this handle names. -/
def addRemovedBytes (bytes : Nat) (allocation : NativeResidentAllocation ι) : Option Nat := do
  let stored ← data.allocations[allocation.id]?
  if stored.residentBytes ≠ allocation.residentBytes ∨ stored.handleReferences = 0 then none
  else if stored.handleReferences = 1 then checkedAdd bytes stored.residentBytes
  else some bytes

def releaseAllocation (allocations : ExtTreeMap ι StoredResidentAllocation)
    (allocation : NativeResidentAllocation ι) : ExtTreeMap ι StoredResidentAllocation :=
  match allocations[allocation.id]? with
  | some stored =>
    if stored.handleReferences = 1 then allocations.erase allocation.id
    else
      allocations.insert allocation.id
        { stored with handleReferences := stored.handleReferences - 1 }
  | none => allocations

def removeStoredHandle (identifier : String) :
    Option (StoredNativeHandle Payload ι × NativeHandleStoreData Payload ι) := do
  let removed ← data.values[identifier]?
  let residency := removed.residency
  let removedSharedBytes ← residency.sharedAllocations.foldlM data.addRemovedBytes 0
  let removedBytes ← checkedAdd residency.exclusiveBytes removedSharedBytes
  let nextResidentBytes ← checkedSub data.residentBytes removedBytes
  some (removed,
    { values := data.values.erase identifier
      allocations := residency.sharedAllocations.foldl releaseAllocation data.allocations
      residentBytes := nextResidentBytes })

def retireStoredHandle (identifier : String) : Bool × NativeHandleStoreData Payload ι :=
  match data.values[identifier]? with
  | none => (false, data)
  | some record =>
    let retiredData := data.putRecord identifier { record with retired := true }
    if record.roots = 0 ∧ record.resolvedRoots = 0 then
      match retiredData.removeStoredHandle identifier with
      | some (_, removedData) => (true, removedData)
      | none => (false, retiredData)
    else
      (true, retiredData)

/-- Retire each of the identifiers, as the loops over `removals` and `identifiers` do. -/
def retireAll (identifiers : List String) : NativeHandleStoreData Payload ι :=
  identifiers.foldl (fun data identifier => (data.retireStoredHandle identifier).2) data

/-! ### Leases -/

/-- One round of the first loop of `release_roots`. -/
def releaseRoot (state : NativeHandleStoreData Payload ι × List String)
    (handle : NativeOpaqueHandle) : NativeHandleStoreData Payload ι × List String :=
  match state.1.values[handle.identifier]? with
  | some record =>
    if record.generation = handle.generation ∧ 0 < record.roots then
      let record := { record with roots := record.roots - 1 }
      (state.1.putRecord handle.identifier record,
        if record.roots = 0 ∧ record.committed then state.2 ++ [handle.identifier]
        else state.2)
    else
      state
  | none => state

def releaseRoots (handles : List NativeOpaqueHandle) : NativeHandleStoreData Payload ι :=
  let released := handles.foldl releaseRoot (data, [])
  released.1.retireAll released.2

/-- What `acquire_lease` asks of the record of a handle. -/
def checkLeased (handle : NativeOpaqueHandle) :
    Except NativeHandleStoreError Unit := do
  match data.values[handle.identifier]? with
  | none => throw (.missing handle.identifier)
  | some record =>
    if record.retired then
      throw (.missing handle.identifier)
    if ¬ record.committed ∨ record.generation ≠ handle.generation then
      throw .wrongGeneration
    if record.handleType ≠ handle.handleType then
      throw (.wrongType record.handleType.typeId handle.handleType.typeId)
    if some record.digestSha256 ≠ handle.digestSha256 then
      throw .digestMismatch
    if record.roots = usizeMax then
      throw (.rejected "native handle root count overflowed")

def addRoot (handle : NativeOpaqueHandle) : NativeHandleStoreData Payload ι :=
  match data.values[handle.identifier]? with
  | some record => data.putRecord handle.identifier { record with roots := record.roots + 1 }
  | none => data

/-! ### Resolved payloads -/

/-- The record is the one the handle of a resolved payload was checked against. -/
def Answers (record : StoredNativeHandle Payload ι) (handle : NativeOpaqueHandle) : Prop :=
  record.generation = handle.generation ∧ record.handleType = handle.handleType ∧
    some record.digestSha256 = handle.digestSha256

instance (record : StoredNativeHandle Payload ι) (handle : NativeOpaqueHandle) :
    Decidable (Answers record handle) := by
  unfold Answers
  infer_instance

/-- The removal at the end stands inside a `debug_assert!`: it is run only in builds with
debug assertions. -/
def releaseResolvedRoot (debugAssertions : Bool) (data : NativeHandleStoreData Payload ι)
    (handle : NativeOpaqueHandle) : NativeHandleStoreData Payload ι :=
  match data.values[handle.identifier]? with
  | none => data
  | some record =>
    if ¬ Answers record handle ∨ record.resolvedRoots = 0 then data
    else
      let record := { record with resolvedRoots := record.resolvedRoots - 1 }
      let released := data.putRecord handle.identifier record
      if record.retired ∧ record.roots = 0 ∧ record.resolvedRoots = 0 ∧ debugAssertions then
        match released.removeStoredHandle handle.identifier with
        | some (_, removedData) => removedData
        | none => released
      else
        released

variable (attemptId : AttemptId)

def collectUnrootedAttempt : NativeHandleStoreData Payload ι :=
  let identifiers := (data.values.toList.filter fun entry =>
    entry.2.committed && !entry.2.retired && entry.2.publishedBy == attemptId &&
      entry.2.roots == 0).map Prod.fst
  data.retireAll identifiers

/-! ### The end of an attempt -/

/-- One round of the loops of `rollback_from` and `rollback_all`. -/
def rollbackHandle (data : NativeHandleStoreData Payload ι) (identifier : String) :
    NativeHandleStoreData Payload ι :=
  if data.values[identifier]?.any fun record =>
      !record.committed && record.publishedBy == attemptId then
    (data.retireStoredHandle identifier).2
  else
    data

/-- One round of the loop of `commit`. -/
def commitHandle (data : NativeHandleStoreData Payload ι) (identifier : String) :
    NativeHandleStoreData Payload ι :=
  match data.values[identifier]? with
  | some record =>
    if record.publishedBy = attemptId ∧ ¬ record.retired then
      data.putRecord identifier { record with committed := true }
    else
      data
  | none => data

/-! ### Publishing -/

/-- One round of the loop that computes `resident_delta`. -/
def addResidentDelta (delta : Nat) (allocation : NativeResidentAllocation ι) :
    Except NativeHandleStoreError Nat :=
  match data.allocations[allocation.id]? with
  | some stored =>
    if stored.residentBytes ≠ allocation.residentBytes then
      .error (.invalidPayload .residentAllocationChanged)
    else
      match checkedAdd stored.handleReferences 1 with
      | some _ => .ok delta
      | none => .error (.rejected "native resident allocation reference count overflowed")
  | none =>
    match checkedAdd delta allocation.residentBytes with
    | some delta => .ok delta
    | none => .error (.rejected "native handle resident byte count overflowed")

def retainAllocation (allocations : ExtTreeMap ι StoredResidentAllocation)
    (allocation : NativeResidentAllocation ι) : ExtTreeMap ι StoredResidentAllocation :=
  match allocations[allocation.id]? with
  | some stored =>
    allocations.insert allocation.id
      { stored with handleReferences := stored.handleReferences + 1 }
  | none =>
    allocations.insert allocation.id
      { residentBytes := allocation.residentBytes, handleReferences := 1 }

/-- The bytes resident once the payload is stored. -/
def nextResidentBytes (residency : NativePayloadResidency ι) :
    Except NativeHandleStoreError Nat := do
  let residentDelta ←
    residency.sharedAllocations.foldlM data.addResidentDelta residency.exclusiveBytes
  match checkedAdd data.residentBytes residentDelta with
  | some bytes => return bytes
  | none => throw (.rejected "native handle resident byte count overflowed")

def insertHandle (identifier : String) (record : StoredNativeHandle Payload ι)
    (residentBytes : Nat) : NativeHandleStoreData Payload ι :=
  { values := data.values.insert identifier record
    allocations := record.residency.sharedAllocations.foldl retainAllocation data.allocations
    residentBytes }

end NativeHandleStoreData

/-- The digits that `{:016x}` writes. -/
def hexDigits : Nat → Nat → List Char
  | 0, _ => []
  | width + 1, n => hexDigits width (n / 16) ++ [Nat.digitChar (n % 16)]

def handleIdentifier (generation : Nat) : String :=
  "native-" ++ String.ofList (hexDigits 16 generation)

/-- The hyphenated form of an identifier. -/
def Uuid.text (uuid : Uuid) : String :=
  let group (start width : Nat) := String.ofList (((hexDigits 32 uuid.value).drop start).take width)
  "-".intercalate [group 0 8, group 8 4, group 12 4, group 16 4, group 20 12]

namespace NativeHandleStore

def withCapacities (identity : NativeHandleStoreIdentity) (capacity byteCapacity : Nat) :
    Except NativeHandleStoreError (NativeHandleStore Payload ι) := do
  if capacity = 0 ∨ byteCapacity = 0 then
    throw (.rejected "native handle store capacities must be nonzero")
  identity.validate.mapError .invalidHandle
  return { identity, nextGeneration := 1, data := .empty, capacity, byteCapacity }

/-- Each handle stands once under its identifier and generation; the map is ordered by
both, as the keys of `handles_by_key` are. -/
abbrev HandlesByKey :=
  ExtTreeMap (String × Nat) NativeOpaqueHandle
    (compareLex (compareOn Prod.fst) (compareOn Prod.snd))

instance : Std.TransCmp
    (compareLex (compareOn (Prod.fst : String × Nat → String)) (compareOn Prod.snd)) :=
  inferInstance

def insertByKey (identity : NativeHandleStoreIdentity) (handlesByKey : HandlesByKey)
    (handle : NativeOpaqueHandle) : Except NativeHandleStoreError HandlesByKey := do
  handle.validate.mapError .invalidHandle
  if handle.storeIdentity.storeId ≠ identity.storeId then
    throw .wrongStore
  if handle.storeIdentity.generationId ≠ identity.generationId then
    throw .wrongGeneration
  let key := (handle.identifier, handle.generation)
  if handlesByKey[key]?.any (· ≠ handle) then
    throw .digestMismatch
  return handlesByKey.insert key handle

/-- The handles a lease over `handles` would hold. -/
def leasedHandles (store : NativeHandleStore Payload ι) (handles : List NativeOpaqueHandle) :
    Except NativeHandleStoreError (List NativeOpaqueHandle) := do
  let handlesByKey ← handles.foldlM (insertByKey store.identity) ∅
  let leased := handlesByKey.toList.map Prod.snd
  leased.forM store.data.checkLeased
  return leased

/-- The lease is the list of its handles; without handles there is no lease. -/
def acquireLease (handles : List NativeOpaqueHandle) :
    EStateM NativeHandleStoreError (NativeHandleStore Payload ι)
      (Option (List NativeOpaqueHandle)) := do
  let leased ← Method.check fun store => store.leasedHandles handles
  if leased.isEmpty then
    return none
  modify fun store => { store with data := leased.foldl .addRoot store.data }
  return some leased

/-- What `validate_handle` asks of a handle given to a session. -/
def validateHandle (store : NativeHandleStore Payload ι) (handle : NativeOpaqueHandle)
    (expectedType : NativeHandleType) (cancelled : Bool) :
    Except NativeHandleStoreError Unit := do
  if cancelled then
    throw .cancelled
  handle.validate.mapError .invalidHandle
  if handle.storeIdentity.storeId ≠ store.identity.storeId then
    throw .wrongStore
  if handle.storeIdentity.generationId ≠ store.identity.generationId then
    throw .wrongGeneration
  if handle.handleType ≠ expectedType then
    throw (.wrongType expectedType.typeId handle.handleType.typeId)

variable [DecidableEq ι] (methods : PayloadMethods Payload ι)

/-- What `resolve` asks of the record of a handle. -/
def checkResolved (attemptId : AttemptId) (record : StoredNativeHandle Payload ι)
    (handle : NativeOpaqueHandle) (expectedType : NativeHandleType) :
    Except NativeHandleStoreError Unit := do
  if record.retired then
    throw (.missing handle.identifier)
  if ¬ record.committed ∧ record.publishedBy ≠ attemptId then
    throw (.missing handle.identifier)
  if record.generation ≠ handle.generation then
    throw .wrongGeneration
  if record.handleType ≠ expectedType then
    throw (.wrongType record.handleType.typeId expectedType.typeId)
  if some record.digestSha256 ≠ handle.digestSha256 then
    throw .digestMismatch
  (methods.validate record.value).mapError .invalidPayload
  let residency ← (methods.residency record.value).mapError .invalidPayload
  let handleType ← (methods.handleType record.value).mapError .invalidPayload
  if handleType ≠ record.handleType ∨ methods.digestSha256 record.value ≠ record.digestSha256 ∨
      residency ≠ record.residency then
    throw (.invalidPayload .projectionChanged)

/-- The record that `resolve` finds, with one more resolved payload. -/
def resolvedRecord (store : NativeHandleStore Payload ι) (attemptId : AttemptId)
    (handle : NativeOpaqueHandle) (expectedType : NativeHandleType) (cancelled : Bool) :
    Except NativeHandleStoreError (StoredNativeHandle Payload ι) := do
  store.validateHandle handle expectedType cancelled
  match store.data.values[handle.identifier]? with
  | none => throw (.missing handle.identifier)
  | some record =>
    checkResolved methods attemptId record handle expectedType
    match checkedAdd record.resolvedRoots 1 with
    | some resolvedRoots => return { record with resolvedRoots }
    | none => throw (.rejected "native resolved payload root count overflowed")

/-- `resolve` up to the end of its critical section.  From there on the retention exists;
when a later check fails it is dropped, as any other resolved payload is. -/
def resolve (attemptId : AttemptId) (handle : NativeOpaqueHandle)
    (expectedType : NativeHandleType) (cancelled : Bool) :
    EStateM NativeHandleStoreError (NativeHandleStore Payload ι) Unit := do
  let record ← Method.check fun store =>
    store.resolvedRecord methods attemptId handle expectedType cancelled
  modify fun store => { store with data := store.data.putRecord handle.identifier record }

end NativeHandleStore

/-- What a session method works on: the store, and the staged identifiers under their own
lock. -/
structure SessionAccess (Payload ι : Type) [Ord ι] where
  store : NativeHandleStore Payload ι
  staged : NativeHandleStoreSessionStage

namespace SessionAccess

section Publish

variable [DecidableEq ι] (methods : PayloadMethods Payload ι)

/-- What `publish` has worked out before it takes a generation number. -/
structure Publication (ι : Type) where
  handleType : NativeHandleType
  digestSha256 : String
  residency : NativePayloadResidency ι
  residentBytes : Nat

def checkPublished (access : SessionAccess Payload ι) (payload : Payload) (cancelled : Bool) :
    Except NativeHandleStoreError (Publication ι) := do
  if cancelled then
    throw .cancelled
  (methods.validate payload).mapError .invalidPayload
  let handleType ← (methods.handleType payload).mapError .invalidPayload
  let digestSha256 := methods.digestSha256 payload
  let residency ← (methods.residency payload).mapError .invalidPayload
  if access.staged.closed then
    throw (.rejected "native handle store attempt session is closed")
  let residentBytes ← access.store.data.nextResidentBytes residency
  if access.store.capacity ≤ access.store.data.values.size ∨
      access.store.byteCapacity < residentBytes then
    throw (.rejected "native handle store capacity is exhausted")
  if u64Max ≤ access.store.nextGeneration then
    throw (.rejected "native handle generation was exhausted")
  return { handleType, digestSha256, residency, residentBytes }

/-- `publish` up to the end of its first critical section; the lock on the staged
identifiers is still held then. -/
def publish (attemptId : AttemptId) (payload : Payload) (cancelled : Bool) :
    EStateM NativeHandleStoreError (SessionAccess Payload ι) NativeOpaqueHandle := do
  let publication ← Method.check fun access => access.checkPublished methods payload cancelled
  let access ← get
  let generation := access.store.nextGeneration
  -- the number is taken also when the handle then turns out to be invalid
  let store := { access.store with nextGeneration := generation + 1 }
  set { access with store }
  let identifier := handleIdentifier generation
  let handle ← Method.check fun _ =>
    (NativeOpaqueHandle.new publication.handleType store.identity identifier generation
      (some publication.digestSha256)).mapError .invalidHandle
  let record : StoredNativeHandle Payload ι :=
    { handleType := publication.handleType
      generation
      digestSha256 := publication.digestSha256
      value := payload
      committed := false
      publishedBy := attemptId
      residency := publication.residency
      roots := 0
      resolvedRoots := 0
      retired := false }
  set { store :=
          { store with
            data := store.data.insertHandle identifier record publication.residentBytes }
        staged := { access.staged with identifiers := access.staged.identifiers ++ [identifier] } :
        SessionAccess Payload ι }
  return handle

end Publish

/-- The last section of a cancelled `publish`, before it lets go of the staged
identifiers. -/
def withdraw (access : SessionAccess Payload ι) (handle : NativeOpaqueHandle) :
    SessionAccess Payload ι :=
  { store :=
      { access.store with
        data := (access.store.data.retireStoredHandle handle.identifier).2 }
    staged := { access.staged with identifiers := access.staged.identifiers.dropLast } }

def revocable (access : SessionAccess Payload ι) (attemptId : AttemptId)
    (handle : NativeOpaqueHandle) (cancelled : Bool) : Except NativeHandleStoreError Unit := do
  access.store.validateHandle handle handle.handleType cancelled
  if access.staged.closed then
    throw (.rejected "native handle store attempt session is closed")
  if ¬ access.store.data.values[handle.identifier]?.any (fun record =>
      !record.committed && !record.retired && record.publishedBy == attemptId) then
    throw (.rejected
      "native handles may only be revoked by their publishing attempt before commit")

def revoke (attemptId : AttemptId) (handle : NativeOpaqueHandle) (cancelled : Bool) :
    EStateM NativeHandleStoreError (SessionAccess Payload ι) Unit := do
  Method.check fun access => access.revocable attemptId handle cancelled
  let access ← get
  let (retired, data) := access.store.data.retireStoredHandle handle.identifier
  let store := { access.store with data }
  set { access with store }
  if ¬ retired then
    throw (.missing handle.identifier)
  set { store
        staged :=
          { access.staged with
            identifiers := access.staged.identifiers.filter (· ≠ handle.identifier) } :
        SessionAccess Payload ι }

end SessionAccess

end XorEditor.Comfy
