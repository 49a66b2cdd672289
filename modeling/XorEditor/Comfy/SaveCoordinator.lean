import XorEditor.Comfy.Primitives
import XorEditor.Lib.Method

/-!
# The workflow save coordinator

The coordinator keeps the version of a workflow that was last saved, the local edits, what
has been seen of the file outside, and a save that is under way.  It is persisted as a
journal; opening a journal checks that its parts fit together.  The content hash and the
JSON codec of the journal are parameters of the model.

* `WorkflowSaveCoordinator`: the coordinator
* `prepareSave`, `commitSave`: the two halves of a save
* `encode`, `decode`: the journal
-/

namespace XorEditor.Comfy

open Lib Method

def maxWorkflowBytes : Nat := 64 * 1024 * 1024

def maxSaveJournalBytes : Nat := maxWorkflowBytes * 6

def maxWorkflowIdentityBytes : Nat := 16 * 1024

def maxProviderIdentifierBytes : Nat := 4 * 1024

inductive WorkflowStorageProvider where
  | localFile
  | draft
  | provider (identifier : String)
  deriving DecidableEq, Repr

structure ContentRevision where
  value : String
  deriving DecidableEq, Repr

inductive WorkflowAuthority where
  | inSync
  | localDirty
  | externalNewer
  | externalMissing
  | conflict
  | savePrepared
  | interrupted
  deriving DecidableEq, Repr

structure VersionedWorkflowContent where
  revision : ContentRevision
  bytes : Bytes
  deriving DecidableEq, Repr

structure PreparedWorkflowSave where
  operationId : Uuid
  expectedRevision : ContentRevision
  targetIdentity : String
  bytes : Bytes
  saveCopy : Bool
  deriving DecidableEq, Repr

structure WorkflowSaveCoordinator where
  schemaVersion : Nat
  documentIdentity : String
  provider : WorkflowStorageProvider
  base : VersionedWorkflowContent
  localBytes : Bytes
  external : Option VersionedWorkflowContent
  externalMissing : Bool
  missingRecreationApproved : Bool
  authority : WorkflowAuthority
  prepared : Option PreparedWorkflowSave
  deriving DecidableEq, Repr

inductive WorkflowSaveError where
  | inputTooLarge (actual limit : Nat)
  | journalTooLarge (actual limit : Nat)
  | conflict (expected actual : ContentRevision)
  | unknownOperation (operationId : Uuid)
  | noExternalVersion
  | unsupportedSchema (version : Nat)
  | invalidState (reason : String)
  | persistence (reason : String)
  deriving DecidableEq, Repr

/-- The content hash, and the JSON codec of a journal, which gives a coordinator back. -/
structure JournalCodec where
  digest : Bytes → String
  toVec : WorkflowSaveCoordinator → Except String Bytes
  fromSlice : Bytes → Except String WorkflowSaveCoordinator
  fromSlice_toVec : ∀ coordinator bytes,
    toVec coordinator = .ok bytes → fromSlice bytes = .ok coordinator

/-! ### Validation -/

/-- The characters that `trim` removes. -/
def isWhitespace (c : Char) : Bool :=
  (9 ≤ c.toNat && c.toNat ≤ 13) || c.toNat == 32 || c.toNat == 0x85 || c.toNat == 0xA0 ||
    c.toNat == 0x1680 || (0x2000 ≤ c.toNat && c.toNat ≤ 0x200A) || c.toNat == 0x2028 ||
    c.toNat == 0x2029 || c.toNat == 0x202F || c.toNat == 0x205F || c.toNat == 0x3000

/-- `trim().is_empty()` -/
def isBlank (text : String) : Bool :=
  text.toList.all isWhitespace

def validateDocumentIdentity (documentIdentity : String) : Except WorkflowSaveError Unit :=
  if isBlank documentIdentity then
    .error (.invalidState "workflow document identity is empty")
  else if documentIdentity.utf8ByteSize > maxWorkflowIdentityBytes then
    .error (.invalidState "workflow document identity exceeds 16384 bytes")
  else .ok ()

def validateStorageProvider : WorkflowStorageProvider → Except WorkflowSaveError Unit
  | .provider identifier =>
    if isBlank identifier then
      .error (.invalidState "workflow storage provider identifier is empty")
    else if identifier.utf8ByteSize > maxProviderIdentifierBytes then
      .error (.invalidState "workflow storage provider identifier exceeds 4096 bytes")
    else .ok ()
  | _ => .ok ()

def validateSaveBytes (bytes : Bytes) : Except WorkflowSaveError Unit :=
  if bytes.length > maxWorkflowBytes then
    .error (.inputTooLarge bytes.length maxWorkflowBytes)
  else .ok ()

def validateJournalBytes (bytes : Bytes) : Except WorkflowSaveError Unit :=
  if bytes.length > maxSaveJournalBytes then
    .error (.journalTooLarge bytes.length maxSaveJournalBytes)
  else .ok ()

/-- The table that relates the authority to the other parts. -/
def authorityFits (self : WorkflowSaveCoordinator) : Bool :=
  match self.authority with
  | .inSync =>
    self.localBytes == self.base.bytes && self.external.isNone && !self.externalMissing &&
      !self.missingRecreationApproved && self.prepared.isNone
  | .localDirty =>
    self.external.isNone &&
      ((!self.externalMissing && !self.missingRecreationApproved) ||
        (self.externalMissing && self.missingRecreationApproved)) &&
      self.prepared.isNone
  | .externalNewer =>
    self.localBytes == self.base.bytes && self.external.isSome && !self.externalMissing &&
      !self.missingRecreationApproved && self.prepared.isNone
  | .conflict =>
    (self.external.isSome || self.externalMissing) && !self.missingRecreationApproved &&
      self.prepared.isNone
  | .externalMissing =>
    self.localBytes == self.base.bytes && self.external.isNone && self.externalMissing &&
      !self.missingRecreationApproved && self.prepared.isNone
  | .savePrepared => self.prepared.isSome
  | .interrupted => self.prepared.isNone

def validateCoordinatorAuthority (self : WorkflowSaveCoordinator) : Except WorkflowSaveError Unit :=
  if authorityFits self then .ok ()
  else .error (.invalidState "authority does not match persisted versions")

/-! ### The methods -/

variable (codec : JournalCodec)

def ContentRevision.fromBytes (bytes : Bytes) : ContentRevision := ⟨codec.digest bytes⟩

namespace WorkflowSaveCoordinator

def currentSchemaVersion : Nat := 2

variable (documentIdentity : String)

def new (provider : WorkflowStorageProvider) (bytes : Bytes) :
    Except WorkflowSaveError WorkflowSaveCoordinator := do
  validateSaveBytes bytes
  validateDocumentIdentity documentIdentity
  validateStorageProvider provider
  return {
    schemaVersion := currentSchemaVersion
    documentIdentity
    provider
    base := ⟨ContentRevision.fromBytes codec bytes, bytes⟩
    localBytes := bytes
    external := none
    externalMissing := false
    missingRecreationApproved := false
    authority := .inSync
    prepared := none }

/-- A method of the coordinator. -/
abbrev CoordinatorM := EStateM WorkflowSaveError WorkflowSaveCoordinator

def retargetLocalFile : CoordinatorM Unit := do
  if (← get).provider ≠ .localFile then
    throw (.invalidState "only a local-file workflow can be retargeted after rename")
  if (← get).prepared.isSome then
    throw (.invalidState "a workflow with a prepared save cannot be retargeted")
  check fun _ => validateDocumentIdentity documentIdentity
  modify fun self => { self with documentIdentity }

def switchProviderAfterCommittedSave (provider : WorkflowStorageProvider) : CoordinatorM Unit := do
  check fun _ => validateStorageProvider provider
  let self ← get
  if self.authority ≠ .inSync || self.prepared.isSome || self.external.isSome ||
      self.externalMissing || self.missingRecreationApproved ||
      self.localBytes ≠ self.base.bytes then
    throw (.invalidState "storage provider can change only after a fully committed save")
  set { self with provider }

def detachLocalFileToDraft : CoordinatorM Unit := do
  if (← get).provider ≠ .localFile then
    throw (.invalidState "only a local-file workflow can detach to a draft")
  check fun _ => validateDocumentIdentity documentIdentity
  modify fun self => { self with
    documentIdentity
    provider := .draft
    external := none
    externalMissing := false
    missingRecreationApproved := false
    prepared := none
    authority := .localDirty }
  check validateCoordinatorAuthority

variable (self : WorkflowSaveCoordinator)

/-- The authority after an edit. -/
def editedAuthority : Except WorkflowSaveError WorkflowAuthority :=
  match self.external, self.externalMissing, self.missingRecreationApproved with
  | none, true, true => .ok .localDirty
  | none, true, false =>
    .ok (if self.localBytes = self.base.bytes then .externalMissing else .conflict)
  | some _, false, false =>
    .ok (if self.localBytes = self.base.bytes then .externalNewer else .conflict)
  | none, false, false =>
    .ok (if self.localBytes = self.base.bytes then .inSync else .localDirty)
  | some _, true, _ | some _, false, true | none, false, true =>
    .error (.invalidState "missing-file recreation approval has an inconsistent external state")

variable (bytes : Bytes)

def edit : CoordinatorM Unit := do
  check fun _ => validateSaveBytes bytes
  modify fun self => { self with localBytes := bytes }
  let authority ← check editedAuthority
  modify fun self => { self with authority, prepared := none }

def observeExternalChange : CoordinatorM Unit := do
  check fun _ => validateSaveBytes bytes
  modify fun self => { self with
    externalMissing := false
    missingRecreationApproved := false }
  let self ← get
  let revision := ContentRevision.fromBytes codec bytes
  if revision = self.base.revision then
    set { self with
      external := none
      prepared := none
      authority := if self.localBytes = self.base.bytes then .inSync else .localDirty }
  else if bytes = self.localBytes then
    set { self with
      base := ⟨revision, bytes⟩
      external := none
      prepared := none
      authority := .inSync }
  else
    set { self with
      external := some ⟨revision, bytes⟩
      prepared := none
      authority := if self.localBytes = self.base.bytes then .externalNewer else .conflict }

def observeExternalDeletion : CoordinatorM Unit := do
  if (← get).provider ≠ .localFile then
    throw (.invalidState "only a local-file workflow can observe external deletion")
  if (← get).externalMissing then
    check validateCoordinatorAuthority
  else
    modify fun self => { self with
      external := none
      externalMissing := true
      missingRecreationApproved := false
      prepared := none
      authority := if self.localBytes = self.base.bytes then .externalMissing else .conflict }
    check validateCoordinatorAuthority

/-- The external revision, or the one of the base when no external version is known. -/
def authoritativeRevision : ContentRevision :=
  (self.external.map VersionedWorkflowContent.revision).getD self.base.revision

def prepareSave (operationId : Uuid) (observedRevision : ContentRevision) (targetIdentity : String)
    (saveCopy : Bool) : CoordinatorM PreparedWorkflowSave := do
  check fun _ => validateDocumentIdentity targetIdentity
  let self ← get
  match self.prepared with
  | some prepared =>
    if prepared.operationId = operationId && prepared.expectedRevision = observedRevision &&
        prepared.targetIdentity = targetIdentity && prepared.bytes = self.localBytes &&
        prepared.saveCopy = saveCopy then
      return prepared
    throw (.invalidState "a different workflow save is already prepared")
  | none =>
    if !saveCopy && self.externalMissing && !self.missingRecreationApproved then
      set { self with
        authority := if self.localBytes = self.base.bytes then .externalMissing else .conflict }
      throw (.invalidState
        "external workflow is missing; keep the local version before recreating it")
    if !saveCopy && observedRevision ≠ self.authoritativeRevision then
      set { self with authority := .conflict }
      throw (.conflict self.authoritativeRevision observedRevision)
    if !saveCopy && self.external.isSome then
      set { self with authority := .conflict }
      throw (.conflict self.base.revision self.authoritativeRevision)
    let prepared : PreparedWorkflowSave := {
      operationId
      expectedRevision := observedRevision
      targetIdentity
      bytes := self.localBytes
      saveCopy }
    set { self with prepared := some prepared, authority := .savePrepared }
    return prepared

def commitSave (operationId : Uuid) (observedRevision committedRevision : ContentRevision) :
    CoordinatorM Unit := do
  let self ← get
  let some prepared := self.prepared.filter (·.operationId = operationId)
    | throw (.unknownOperation operationId)
  if !prepared.saveCopy && observedRevision ≠ prepared.expectedRevision then
    set { self with prepared := none, authority := .interrupted }
    throw (.conflict prepared.expectedRevision observedRevision)
  if committedRevision ≠ ContentRevision.fromBytes codec prepared.bytes then
    set { self with prepared := none, authority := .interrupted }
    throw (.invalidState "committed revision does not match prepared bytes")
  set { self with
    documentIdentity := prepared.targetIdentity
    base := ⟨committedRevision, prepared.bytes⟩
    localBytes := prepared.bytes
    external := none
    externalMissing := false
    missingRecreationApproved := false
    prepared := none
    authority := .inSync }

def recoverAfterRestart : WorkflowSaveCoordinator :=
  if self.prepared.isSome then { self with prepared := none, authority := .interrupted }
  else self

def reloadExternal : CoordinatorM Unit := do
  if (← get).externalMissing then
    throw .noExternalVersion
  let self ← get
  let some external := self.external | throw .noExternalVersion
  set { self with
    external := none
    base := external
    localBytes := external.bytes
    prepared := none
    authority := .inSync }

def keepLocal : CoordinatorM Unit := do
  if (← get).externalMissing then
    modify fun self => { self with
      external := none
      missingRecreationApproved := true
      prepared := none
      authority := .localDirty }
    check validateCoordinatorAuthority
  else
    let self ← get
    let some external := self.external | throw .noExternalVersion
    set { self with
      external := none
      base := external
      prepared := none
      authority := if self.localBytes = external.bytes then .inSync else .localDirty }

/-! ### The journal -/

def encode : Except WorkflowSaveError Bytes := do
  let encoded ← (codec.toVec self).mapError .persistence
  validateJournalBytes encoded
  return encoded

/-- The checks of `decode` on the external version. -/
def validateExternal : Except WorkflowSaveError Unit :=
  match self.external with
  | none => .ok ()
  | some external => do
    validateSaveBytes external.bytes
    if external.revision ≠ ContentRevision.fromBytes codec external.bytes then
      throw (.invalidState "external revision does not match its bytes")

/-- The checks of `decode` on the prepared save. -/
def validatePrepared : Except WorkflowSaveError Unit :=
  match self.prepared with
  | none => .ok ()
  | some prepared => do
    validateSaveBytes prepared.bytes
    if prepared.bytes ≠ self.localBytes then
      throw (.invalidState "prepared bytes do not match local bytes")
    validateDocumentIdentity prepared.targetIdentity

/-- The checks of `decode` after the schema version. -/
def validate : Except WorkflowSaveError Unit := do
  validateDocumentIdentity self.documentIdentity
  validateStorageProvider self.provider
  if self.base.revision ≠ ContentRevision.fromBytes codec self.base.bytes then
    throw (.invalidState "base revision does not match its bytes")
  validateSaveBytes self.base.bytes
  validateSaveBytes self.localBytes
  self.validateExternal codec
  if self.externalMissing && self.external.isSome then
    throw (.invalidState "external workflow cannot be both changed and missing")
  if self.missingRecreationApproved && !self.externalMissing then
    throw (.invalidState
      "missing-file recreation approval requires a missing external workflow")
  if self.externalMissing && self.provider ≠ .localFile then
    throw (.invalidState "only a local-file workflow can persist external deletion")
  self.validatePrepared
  if self.authority = .savePrepared && self.prepared.isNone then
    throw (.invalidState "SavePrepared state has no operation")
  if self.prepared.isSome && self.authority ≠ .savePrepared then
    throw (.invalidState "prepared operation is present outside SavePrepared state")
  validateCoordinatorAuthority self

def decode : Except WorkflowSaveError WorkflowSaveCoordinator := do
  validateJournalBytes bytes
  let document ← (codec.fromSlice bytes).mapError .persistence
  if document.schemaVersion ≠ 1 && document.schemaVersion ≠ currentSchemaVersion then
    throw (.unsupportedSchema document.schemaVersion)
  let coordinator := { document with schemaVersion := currentSchemaVersion }
  coordinator.validate codec
  return coordinator.recoverAfterRestart

end WorkflowSaveCoordinator
end XorEditor.Comfy
