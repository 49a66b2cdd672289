import XorEditor.Comfy.SaveCoordinator

/-!
# Reopening the save journal

The journal that a coordinator writes can be opened again if the authority fits the other
parts of the coordinator.  Every method keeps it that way, with one exception: preparing a
save with a revision that is not the one of the base, while no external version is known,
reports a conflict and leaves the coordinator in a conflict that has no external version.
Opening the journal then fails.

* `SaveRun`: the runs of a coordinator
* `StrayConflict`: a conflict without external version
* `journal_reopens`: the journals that can be opened
-/

namespace XorEditor.Comfy

open Lib Method

namespace WorkflowSaveCoordinator

/-- The coordinator is in a conflict without an external version, and without a deletion
that waits for approval. -/
def StrayConflict (s : WorkflowSaveCoordinator) : Prop :=
  s.authority = .conflict ∧ s.prepared = none ∧ s.external = none ∧
    (s.externalMissing = true → s.missingRecreationApproved = true)

/-- What every method keeps; stray conflicts occur only if they are allowed for. -/
structure Sound (codec : JournalCodec) (stray : Prop) (s : WorkflowSaveCoordinator) : Prop where
  schema : s.schemaVersion = currentSchemaVersion
  identity : validateDocumentIdentity s.documentIdentity = .ok ()
  provider : validateStorageProvider s.provider = .ok ()
  base : s.base.revision = ContentRevision.fromBytes codec s.base.bytes
  baseSize : validateSaveBytes s.base.bytes = .ok ()
  localSize : validateSaveBytes s.localBytes = .ok ()
  external : ∀ external, s.external = some external → validateSaveBytes external.bytes = .ok () ∧
      external.revision = ContentRevision.fromBytes codec external.bytes
  missing : s.externalMissing = true → s.external = none
  approved : s.missingRecreationApproved = true → s.externalMissing = true
  missingLocal : s.externalMissing = true → s.provider = .localFile
  prepared : ∀ prepared, s.prepared = some prepared → prepared.bytes = s.localBytes ∧
    validateDocumentIdentity prepared.targetIdentity = .ok () ∧ s.authority = .savePrepared
  fits : authorityFits s = true ∨ stray ∧ StrayConflict s

variable {codec : JournalCodec} {stray : Prop} {s : WorkflowSaveCoordinator} {bytes : Bytes}

theorem not_fits_of_strayConflict (h : StrayConflict s) : authorityFits s = false := by
  obtain ⟨hauthority, hprepared, hexternal, hmissing⟩ := h
  unfold authorityFits
  rw [hauthority]
  cases hflag : s.externalMissing with
  | false => simp [hexternal]
  | true => simp [hmissing hflag]

theorem Sound.validateExternal_eq (h : Sound codec stray s) :
    s.validateExternal codec = .ok () := by
  unfold validateExternal
  cases hexternal : s.external with
  | none => rfl
  | some external =>
    obtain ⟨hsize, hrevision⟩ := h.external external hexternal
    simp only [hsize, hrevision, ne_eq, not_true_eq_false, if_false]
    rfl

theorem Sound.validatePrepared_eq (h : Sound codec stray s) : s.validatePrepared = .ok () := by
  unfold validatePrepared
  cases hprepared : s.prepared with
  | none => rfl
  | some prepared =>
    obtain ⟨hbytes, hidentity, -⟩ := h.prepared prepared hprepared
    simp only [hbytes, h.localSize, ne_eq, not_true_eq_false, if_false]
    exact hidentity

theorem isSome_of_savePrepared (hfits : authorityFits s = true ∨ stray ∧ StrayConflict s)
    (hauthority : s.authority = .savePrepared) : s.prepared.isSome = true := by
  obtain hfits | ⟨-, hstray⟩ := hfits
  · rwa [authorityFits, hauthority] at hfits
  · rw [hstray.1] at hauthority
    cases hauthority

/-- Of all checks only the table of the authority can fail on a sound coordinator. -/
theorem Sound.validate_eq (h : Sound codec stray s) :
    s.validate codec = validateCoordinatorAuthority s := by
  have hmissing : (s.externalMissing && s.external.isSome) = false :=
    Bool.and_eq_false_imp.mpr fun hflag => by simp [h.missing hflag]
  have happroved : (s.missingRecreationApproved && !s.externalMissing) = false :=
    Bool.and_eq_false_imp.mpr fun hflag => by simp [h.approved hflag]
  have hlocal : (s.externalMissing && decide (s.provider ≠ .localFile)) = false :=
    Bool.and_eq_false_imp.mpr fun hflag => by simp [h.missingLocal hflag]
  have hoperation : (decide (s.authority = .savePrepared) && s.prepared.isNone) = false :=
    Bool.and_eq_false_imp.mpr fun hauthority => by
      simp [isSome_of_savePrepared h.fits (of_decide_eq_true hauthority)]
  have houtside : (s.prepared.isSome && decide (s.authority ≠ .savePrepared)) = false := by
    cases hprepared : s.prepared with
    | none => rfl
    | some prepared => simp [(h.prepared prepared hprepared).2.2]
  unfold validate
  simp only [h.identity, h.provider, h.baseSize, h.localSize, h.validateExternal_eq,
    h.validatePrepared_eq, hmissing, happroved, hlocal, hoperation, houtside, Bool.false_eq_true,
    if_false, ne_eq, h.base, not_true_eq_false]
  rfl

/-- Opening the journal of a coordinator gives what recovery would make of it, unless the
authority does not fit. -/
theorem Sound.decode_encode (h : Sound codec stray s) (hencode : s.encode codec = .ok bytes) :
    decode codec bytes =
      if authorityFits s then .ok s.recoverAfterRestart
      else .error (.invalidState "authority does not match persisted versions") := by
  obtain ⟨encoded, htoVec, hencode⟩ := result_bind_eq_ok_iff.mp hencode
  obtain ⟨_, hjournal, hencode⟩ := result_bind_eq_ok_iff.mp hencode
  obtain rfl := Except.ok.inj hencode
  have hfromSlice : codec.fromSlice encoded = .ok s :=
    codec.fromSlice_toVec _ _ (result_mapError_eq_ok_iff.mp htoVec)
  have hschema : { s with schemaVersion := currentSchemaVersion } = s := by
    rw [← h.schema]
  unfold decode
  simp only [hjournal, hfromSlice, Except.mapError, result_ok_bind, h.schema, ne_eq,
    not_true_eq_false, decide_false, Bool.and_false, Bool.false_eq_true, if_false]
  rw [hschema, h.validate_eq, validateCoordinatorAuthority]
  cases authorityFits s <;> rfl

/-! ### Every method keeps the coordinator sound -/

theorem sound_new {documentIdentity : String} {provider : WorkflowStorageProvider}
    (h : new codec documentIdentity provider bytes = .ok s) : Sound codec stray s := by
  obtain ⟨_, hsize, h⟩ := result_bind_eq_ok_iff.mp h
  obtain ⟨_, hidentity, h⟩ := result_bind_eq_ok_iff.mp h
  obtain ⟨_, hprovider, h⟩ := result_bind_eq_ok_iff.mp h
  obtain rfl := Except.ok.inj h
  exact {
    schema := rfl
    identity := hidentity
    provider := hprovider
    base := rfl
    baseSize := hsize
    localSize := hsize
    external := by simp
    missing := by simp
    approved := by simp
    missingLocal := by simp
    prepared := by simp
    fits := by simp [authorityFits] }

theorem keeps_retargetLocalFile (documentIdentity : String) :
    Keeps (Sound codec stray) (retargetLocalFile documentIdentity) := by
  intro s h
  refine ends_get_bind (ends_guard h fun _ => ?_)
  refine ends_get_bind (ends_guard h fun _ => ?_)
  refine ends_check_bind h fun _ hidentity => ends_modify ?_
  exact { h with identity := hidentity }

theorem keeps_switchProvider (provider : WorkflowStorageProvider) :
    Keeps (Sound codec stray) (switchProviderAfterCommittedSave provider) := by
  intro s h
  refine ends_check_bind h fun _ hprovider => ends_get_bind ?_
  refine ends_guard h fun hcommitted => ends_set ?_
  simp only [Bool.or_eq_true, decide_eq_true_eq, not_or, Bool.not_eq_true] at hcommitted
  exact { h with
    provider := hprovider
    missingLocal := by simp [hcommitted.1.1.2] }

theorem keeps_detachLocalFileToDraft (documentIdentity : String) :
    Keeps (Sound codec stray) (detachLocalFileToDraft documentIdentity) := by
  intro s h
  refine ends_get_bind (ends_guard h fun _ => ?_)
  refine ends_check_bind h fun _ hidentity => ends_modify_bind ?_
  refine leaves_check ?_
  exact { h with
    identity := hidentity
    provider := rfl
    external := by simp
    missing := by simp
    approved := by simp
    missingLocal := by simp
    prepared := by simp
    fits := by simp [authorityFits] }

theorem Sound.not_approved (h : Sound codec stray s) (hmissing : s.externalMissing = false) :
    s.missingRecreationApproved = false := by
  by_contra happroved
  have htrue := h.approved (by simpa using happroved)
  rw [hmissing] at htrue
  cases htrue

theorem Sound.not_missing (h : Sound codec stray s) {external : VersionedWorkflowContent}
    (hexternal : s.external = some external) : s.externalMissing = false := by
  by_contra hmissing
  have hnone := h.missing (by simpa using hmissing)
  rw [hexternal] at hnone
  cases hnone

/-- The parts of a sound coordinator decide the authority after an edit, and it fits them. -/
theorem Sound.editedAuthority (h : Sound codec stray s) (bytes : Bytes) :
    ∃ authority, editedAuthority { s with localBytes := bytes } = .ok authority ∧
      authorityFits { s with localBytes := bytes, authority := authority, prepared := none } := by
  unfold WorkflowSaveCoordinator.editedAuthority
  cases hexternal : s.external with
  | none =>
    cases hmissing : s.externalMissing with
    | false =>
      have happroved := h.not_approved hmissing
      simp only [happroved]
      refine ⟨_, rfl, ?_⟩
      by_cases hsame : bytes = s.base.bytes <;> simp [authorityFits, hsame]
    | true =>
      cases happroved : s.missingRecreationApproved with
      | true => exact ⟨_, rfl, by simp [authorityFits]⟩
      | false =>
        refine ⟨_, rfl, ?_⟩
        by_cases hsame : bytes = s.base.bytes <;> simp [authorityFits, hsame]
  | some external =>
    have hmissing := h.not_missing hexternal
    have happroved := h.not_approved hmissing
    simp only [hmissing, happroved]
    refine ⟨_, rfl, ?_⟩
    by_cases hsame : bytes = s.base.bytes <;> simp [authorityFits, hsame]

theorem keeps_edit (bytes : Bytes) : Keeps (Sound codec stray) (edit bytes) := by
  intro s h
  refine ends_check_bind h fun _ hsize => ends_modify_bind ?_
  obtain ⟨authority, hauthority, hfits⟩ := h.editedAuthority bytes
  refine ends_check_cases (fun e he => ?_) fun other hother => ends_modify ?_
  · rw [hauthority] at he
    cases he
  · obtain rfl := Except.ok.inj (hauthority.symm.trans hother)
    exact { h with
      localSize := hsize
      prepared := by simp
      fits := Or.inl hfits }

theorem keeps_observeExternalChange (bytes : Bytes) :
    Keeps (Sound codec stray) (observeExternalChange codec bytes) := by
  intro s h
  refine ends_check_bind h fun _ hsize => ends_modify_bind ?_
  refine ends_get_bind ?_
  refine ends_ite (fun hbase => ends_set ?_) fun _ => ?_
  · exact { h with
      external := by simp
      missing := by simp
      approved := by simp
      missingLocal := by simp
      prepared := by simp
      fits := by
        left
        by_cases hsame : s.localBytes = s.base.bytes <;> simp [authorityFits, hsame] }
  refine ends_ite (fun hlocal => ends_set ?_) fun _ => ends_set ?_
  · exact { h with
      base := rfl
      baseSize := hsize
      external := by simp
      missing := by simp
      approved := by simp
      missingLocal := by simp
      prepared := by simp
      fits := by simp [authorityFits, hlocal] }
  · exact { h with
      external := by
        rintro _ ⟨⟩
        exact ⟨hsize, rfl⟩
      missing := by simp
      approved := by simp
      missingLocal := by simp
      prepared := by simp
      fits := by
        left
        by_cases hsame : s.localBytes = s.base.bytes <;> simp [authorityFits, hsame] }

theorem keeps_observeExternalDeletion : Keeps (Sound codec stray) observeExternalDeletion := by
  intro s h
  refine ends_get_bind ?_
  refine ends_guard h fun hlocal => ends_get_bind ?_
  refine ends_ite (fun _ => leaves_check h) fun _ => ?_
  refine ends_modify_bind (leaves_check ?_)
  exact { h with
    external := by simp
    missing := by simp
    approved := by simp
    missingLocal := fun _ => not_not.mp hlocal
    prepared := by simp
    fits := by
      left
      by_cases hsame : s.localBytes = s.base.bytes <;> simp [authorityFits, hsame] }

theorem keeps_commitSave (operationId : Uuid)
    (observedRevision committedRevision : ContentRevision) : Keeps (Sound codec stray)
      (commitSave codec operationId observedRevision committedRevision) := by
  intro s h
  refine ends_get_bind ?_
  have hinterrupted : Sound codec stray { s with prepared := none, authority := .interrupted } :=
    { h with
      prepared := by simp
      fits := by simp [authorityFits] }
  cases hprepared : s.prepared.filter (·.operationId = operationId) with
  | none => exact ends_throw h
  | some prepared =>
    obtain ⟨hsome, -⟩ := Option.filter_eq_some_iff.mp hprepared
    obtain ⟨hbytes, hidentity, -⟩ := h.prepared prepared hsome
    refine ends_ite (fun _ => ?_) fun _ => ?_
    · exact ends_set_bind (ends_throw_bind hinterrupted)
    refine ends_ite (fun _ => ?_) fun hcommitted => ends_set ?_
    · exact ends_set_bind (ends_throw_bind hinterrupted)
    · exact { h with
        identity := hidentity
        base := not_not.mp hcommitted
        baseSize := hbytes ▸ h.localSize
        localSize := hbytes ▸ h.localSize
        external := by simp
        missing := by simp
        approved := by simp
        missingLocal := by simp
        prepared := by simp
        fits := by simp [authorityFits] }

theorem keeps_reloadExternal : Keeps (Sound codec stray) reloadExternal := by
  intro s h
  refine ends_get_bind (ends_guard h fun hmissing => ends_get_bind ?_)
  cases hexternal : s.external with
  | none => exact ends_throw h
  | some external =>
    refine ends_set ?_
    obtain ⟨hsize, hrevision⟩ := h.external external hexternal
    have happroved := h.not_approved (by simpa using hmissing)
    exact { h with
      base := hrevision
      baseSize := hsize
      localSize := hsize
      external := by simp
      missing := by simp
      prepared := by simp
      fits := by simp [authorityFits, hmissing, happroved] }

theorem keeps_keepLocal : Keeps (Sound codec stray) keepLocal := by
  intro s h
  refine ends_get_bind (ends_ite (fun hmissing => ?_) fun hmissing => ?_)
  · refine ends_modify_bind (leaves_check ?_)
    exact { h with
      external := by simp
      missing := by simp
      approved := fun _ => hmissing
      prepared := by simp
      fits := by simp [authorityFits, hmissing] }
  · refine ends_get_bind ?_
    cases hexternal : s.external with
    | none => exact ends_throw h
    | some external =>
      refine ends_set ?_
      obtain ⟨hsize, hrevision⟩ := h.external external hexternal
      have hpresent : s.externalMissing = false := by simpa using hmissing
      have happroved := h.not_approved hpresent
      exact { h with
        base := hrevision
        baseSize := hsize
        external := by simp
        missing := by simp
        prepared := by simp
        fits := by
          left
          by_cases hsame : s.localBytes = external.bytes <;>
            simp [authorityFits, hsame, hpresent, happroved] }

theorem sound_recoverAfterRestart (h : Sound codec stray s) :
    Sound codec stray s.recoverAfterRestart := by
  unfold recoverAfterRestart
  split_ifs
  · exact { h with
      prepared := by simp
      fits := by simp [authorityFits] }
  · exact h

/-- The call is a copy, or it finds a prepared save, an external version or a deletion that
waits for approval, or it names the revision of the base. -/
def Confirms (observedRevision : ContentRevision) (saveCopy : Bool)
    (s : WorkflowSaveCoordinator) : Prop :=
  saveCopy = true ∨ s.prepared ≠ none ∨ s.external ≠ none ∨
    (s.externalMissing = true ∧ s.missingRecreationApproved = false) ∨
    observedRevision = s.base.revision

/-- Only a save that does not confirm the base leaves a stray conflict. -/
theorem leaves_prepareSave (h : Sound codec stray s) (operationId : Uuid)
    (observedRevision : ContentRevision) (targetIdentity : String) (saveCopy : Bool)
    (hconfirms : stray ∨ Confirms observedRevision saveCopy s) :
    Leaves (prepareSave operationId observedRevision targetIdentity saveCopy) s
      (Sound codec stray) := by
  refine ends_check_bind h fun _ hidentity => ends_get_bind ?_
  cases hprepared : s.prepared with
  | some prepared =>
    exact ends_ite (fun _ => ends_pure h) fun _ => ends_throw h
  | none =>
    have hsound (authority : WorkflowAuthority)
        (hfits : authorityFits { s with authority, prepared := none } = true ∨
          stray ∧ StrayConflict { s with authority, prepared := none }) :
        Sound codec stray { s with authority, prepared := none } :=
      { h with
        prepared := by simp
        fits := hfits }
    have hexternalFits {external : VersionedWorkflowContent}
        (hexternal : s.external = some external) :
        authorityFits { s with authority := .conflict, prepared := none } = true := by
      simp [authorityFits, hexternal, h.not_approved (h.not_missing hexternal)]
    refine ends_ite (fun hmissing => ?_) fun hmissing => ?_
    · refine ends_set_bind (ends_throw_bind (hsound _ (Or.inl ?_)))
      simp only [Bool.and_eq_true, Bool.not_eq_true'] at hmissing
      by_cases hsame : s.localBytes = s.base.bytes <;>
        simp [authorityFits, hsame, hmissing, h.missing hmissing.1.2]
    refine ends_ite (fun hrevision => ?_) fun hrevision => ?_
    · refine ends_set_bind (ends_throw_bind (hsound _ ?_))
      obtain hexternal | ⟨external, hexternal⟩ := Option.eq_none_or_eq_some s.external
      · simp only [authoritativeRevision, hexternal, Option.map_none, Option.getD_none,
          Bool.and_eq_true, Bool.not_eq_true', decide_eq_true_eq] at hrevision
        obtain ⟨hcopy, hrevision⟩ := hrevision
        have happroval : s.externalMissing = true → s.missingRecreationApproved = true := by
          intro hflag
          by_contra happroved
          exact hmissing (by simp [hcopy, hflag, happroved])
        right
        refine ⟨?_, rfl, rfl, hexternal, happroval⟩
        obtain hstray | hcopy' | hsome | hsome | ⟨hflag, happroved⟩ | hbase := hconfirms
        · exact hstray
        · exact absurd (hcopy.symm.trans hcopy') (by simp)
        · exact absurd hprepared hsome
        · exact absurd hexternal hsome
        · exact absurd (happroved.symm.trans (happroval hflag)) (by simp)
        · exact absurd hbase hrevision
      · exact Or.inl (hexternalFits hexternal)
    refine ends_ite (fun hexternal => ?_) fun hexternal => ?_
    · refine ends_set_bind (ends_throw_bind (hsound _ (Or.inl ?_)))
      simp only [Bool.and_eq_true] at hexternal
      obtain ⟨external, hexternal⟩ := Option.isSome_iff_exists.mp hexternal.2
      exact hexternalFits hexternal
    refine ends_set_bind (ends_pure ?_)
    exact { h with
      prepared := by
        rintro _ ⟨⟩
        exact ⟨rfl, hidentity, rfl⟩
      fits := by simp [authorityFits] }

end WorkflowSaveCoordinator

open WorkflowSaveCoordinator

/-! ### Runs -/

/-- The calls that change a coordinator. -/
inductive SaveCall where
  | edit (bytes : Bytes)
  | observeExternalChange (bytes : Bytes)
  | observeExternalDeletion
  | prepareSave (operationId : Uuid) (observedRevision : ContentRevision) (targetIdentity : String)
      (saveCopy : Bool)
  | commitSave (operationId : Uuid) (observedRevision committedRevision : ContentRevision)
  | recoverAfterRestart
  | reloadExternal
  | keepLocal
  | retargetLocalFile (documentIdentity : String)
  | switchProviderAfterCommittedSave (provider : WorkflowStorageProvider)
  | detachLocalFileToDraft (documentIdentity : String)
  deriving DecidableEq

namespace SaveCall

/-- The coordinator that a call leaves, whether it succeeds or fails. -/
def perform (codec : JournalCodec) (s : WorkflowSaveCoordinator) :
    SaveCall → WorkflowSaveCoordinator
  | .edit bytes => after (WorkflowSaveCoordinator.edit bytes) s
  | .observeExternalChange bytes =>
    after (WorkflowSaveCoordinator.observeExternalChange codec bytes) s
  | .observeExternalDeletion => after WorkflowSaveCoordinator.observeExternalDeletion s
  | .prepareSave operationId observedRevision targetIdentity saveCopy =>
    after (WorkflowSaveCoordinator.prepareSave operationId observedRevision
      targetIdentity saveCopy) s
  | .commitSave operationId observedRevision committedRevision =>
    after (WorkflowSaveCoordinator.commitSave codec operationId observedRevision
      committedRevision) s
  | .recoverAfterRestart => s.recoverAfterRestart
  | .reloadExternal => after WorkflowSaveCoordinator.reloadExternal s
  | .keepLocal => after WorkflowSaveCoordinator.keepLocal s
  | .retargetLocalFile documentIdentity =>
    after (WorkflowSaveCoordinator.retargetLocalFile documentIdentity) s
  | .switchProviderAfterCommittedSave provider =>
    after (WorkflowSaveCoordinator.switchProviderAfterCommittedSave provider) s
  | .detachLocalFileToDraft documentIdentity =>
    after (WorkflowSaveCoordinator.detachLocalFileToDraft documentIdentity) s

/-- A save that is prepared confirms the base. -/
def Confirms (s : WorkflowSaveCoordinator) : SaveCall → Prop
  | .prepareSave _ observedRevision _ saveCopy =>
    WorkflowSaveCoordinator.Confirms observedRevision saveCopy s
  | _ => True

end SaveCall

variable {codec : JournalCodec} {stray : Prop} {s : WorkflowSaveCoordinator}

theorem WorkflowSaveCoordinator.Sound.perform (h : Sound codec stray s) (call : SaveCall)
    (hconfirms : stray ∨ call.Confirms s) : Sound codec stray (call.perform codec s) := by
  cases call with
  | edit bytes => exact (keeps_edit bytes).after h
  | observeExternalChange bytes => exact (keeps_observeExternalChange bytes).after h
  | observeExternalDeletion => exact keeps_observeExternalDeletion.after h
  | prepareSave operationId observedRevision targetIdentity saveCopy =>
    exact leaves_iff.mp
      (leaves_prepareSave h operationId observedRevision targetIdentity saveCopy hconfirms)
  | commitSave operationId observedRevision committedRevision =>
    exact (keeps_commitSave operationId observedRevision committedRevision).after h
  | recoverAfterRestart => exact sound_recoverAfterRestart h
  | reloadExternal => exact keeps_reloadExternal.after h
  | keepLocal => exact keeps_keepLocal.after h
  | retargetLocalFile documentIdentity => exact (keeps_retargetLocalFile documentIdentity).after h
  | switchProviderAfterCommittedSave provider => exact (keeps_switchProvider provider).after h
  | detachLocalFileToDraft documentIdentity =>
    exact (keeps_detachLocalFileToDraft documentIdentity).after h

/-- The coordinators that calls of some kind lead to. -/
inductive SaveRun (codec : JournalCodec) (allowed : WorkflowSaveCoordinator → SaveCall → Prop) :
    WorkflowSaveCoordinator → Prop
  | new {documentIdentity : String} {provider : WorkflowStorageProvider} {bytes : Bytes}
      {s : WorkflowSaveCoordinator} :
      new codec documentIdentity provider bytes = .ok s → SaveRun codec allowed s
  | call {s : WorkflowSaveCoordinator} (call : SaveCall) :
      SaveRun codec allowed s → allowed s call → SaveRun codec allowed (call.perform codec s)

theorem SaveRun.sound {allowed : WorkflowSaveCoordinator → SaveCall → Prop}
    (h : SaveRun codec allowed s) (hallowed : ∀ t call, allowed t call → stray ∨ call.Confirms t) :
    Sound codec stray s := by
  induction h with
  | new hnew => exact sound_new hnew
  | call call _ hcall ih => exact ih.perform call (hallowed _ call hcall)

/-- **Reopening the journal.**  After any calls the journal that a coordinator writes opens
again, as what recovery makes of the coordinator, exactly if the coordinator is not in a
stray conflict; and there is none if every save that was prepared confirmed the base. -/
theorem journal_reopens {bytes : Bytes} (hencode : s.encode codec = .ok bytes) :
    (SaveRun codec (fun _ _ => True) s →
      (decode codec bytes = .ok s.recoverAfterRestart ↔ ¬ StrayConflict s)) ∧
    (SaveRun codec (fun t call => call.Confirms t) s →
      decode codec bytes = .ok s.recoverAfterRestart) := by
  constructor
  · intro hrun
    have hsound : Sound codec True s := hrun.sound fun _ _ _ => Or.inl trivial
    rw [hsound.decode_encode hencode]
    obtain hfits | ⟨-, hstray⟩ := hsound.fits
    · have hnot : ¬ StrayConflict s := by
        intro hstray
        rw [not_fits_of_strayConflict hstray] at hfits
        cases hfits
      simp [hfits, hnot]
    · simp [not_fits_of_strayConflict hstray, hstray]
  · intro hrun
    have hsound : Sound codec False s := hrun.sound fun _ _ hcall => Or.inr hcall
    obtain hfits | ⟨hfalse, -⟩ := hsound.fits
    · rw [hsound.decode_encode hencode, if_pos hfits]
    · exact hfalse.elim

/-! ### A stale save -/

/-- A hash without collisions. -/
def textDigest (bytes : Bytes) : String :=
  String.ofList (bytes.map fun byte => Char.ofNat byte.toNat)

theorem textDigest_injective : Function.Injective textDigest := by
  intro a b h
  have hchar : ∀ n < 256, (Char.ofNat n).toNat = n := by decide +kernel
  have hlists := String.ofList_injective h
  refine List.map_injective_iff.mpr ?_ hlists
  intro x y hxy
  have hnat := congrArg Char.toNat hxy
  rw [hchar x.toNat x.toNat_lt, hchar y.toNat y.toNat_lt] at hnat
  exact UInt8.toNat_inj.mp hnat

/-- A codec that can write one coordinator. -/
def singleCodec (stored : WorkflowSaveCoordinator) : JournalCodec where
  digest := textDigest
  toVec coordinator := if coordinator = stored then .ok [0] else .error "not stored"
  fromSlice _ := .ok stored
  fromSlice_toVec := by
    intro coordinator bytes h
    split_ifs at h with hstored
    rw [hstored]

/-- A new coordinator for an empty local file. -/
def emptyWorkflow : WorkflowSaveCoordinator where
  schemaVersion := 2
  documentIdentity := "workflow"
  provider := .localFile
  base := ⟨⟨""⟩, []⟩
  localBytes := []
  external := none
  externalMissing := false
  missingRecreationApproved := false
  authority := .inSync
  prepared := none

/-- The same after an edit and while a save is prepared. -/
def savedWorkflow : WorkflowSaveCoordinator :=
  { emptyWorkflow with
    localBytes := [1]
    authority := .savePrepared
    prepared := some ⟨⟨1⟩, ⟨""⟩, "workflow", [1], false⟩ }

/-- After an edit, and a save that is prepared with the revision of the base, the journal opens
again.  The save was interrupted. -/
theorem edited_journal_reopens :
    savedWorkflow.encode (singleCodec savedWorkflow) = .ok [0] ∧
      savedWorkflow.recoverAfterRestart.authority = .interrupted ∧
      decode (singleCodec savedWorkflow) [0] = .ok savedWorkflow.recoverAfterRestart := by
  have hencode : savedWorkflow.encode (singleCodec savedWorkflow) = .ok [0] := by decide +kernel
  have hnew : new (singleCodec savedWorkflow) "workflow" .localFile [] = .ok emptyWorkflow := by
    decide +kernel
  have hedit : SaveRun (singleCodec savedWorkflow) (fun t call => call.Confirms t) _ :=
    .call (.edit [1]) (.new hnew) trivial
  have hsave : SaveRun (singleCodec savedWorkflow) (fun t call => call.Confirms t) savedWorkflow :=
    .call (.prepareSave ⟨1⟩ ⟨""⟩ "workflow" false) hedit
      (Or.inr (Or.inr (Or.inr (Or.inr rfl))))
  exact ⟨hencode, rfl, (journal_reopens hencode).2 hsave⟩

/-- A save that was prepared with a stale revision fails, and the journal that is written
then does not open again. -/
theorem stale_save_journal_fails : ∃ codec s bytes, Function.Injective (JournalCodec.digest codec) ∧
      SaveRun codec (fun _ _ => True) s ∧ s.encode codec = .ok bytes ∧
      decode codec bytes =
        .error (.invalidState "authority does not match persisted versions") := by
  let s := { emptyWorkflow with authority := .conflict }
  have hnew : new (singleCodec s) "workflow" .localFile [] = .ok emptyWorkflow := by
    decide +kernel
  have hrun : SaveRun (singleCodec s) (fun _ _ => True) s :=
    .call (.prepareSave ⟨1⟩ ⟨"stale"⟩ "workflow" false) (.new hnew) trivial
  exact ⟨singleCodec s, s, [0], textDigest_injective, hrun, by decide +kernel, by decide +kernel⟩

end XorEditor.Comfy
