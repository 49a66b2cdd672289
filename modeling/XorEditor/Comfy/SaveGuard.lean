import XorEditor.Comfy.SaveJournal
import Mathlib.Data.List.Induction

/-!
# A save overwrites nothing unseen

A save is prepared first and committed later, and in between the file may change outside.
Every observation of the external file, every edit and every restart gives a prepared save
up, so a save that commits was prepared by a call after which nothing new was observed; and
unless it was prepared as a copy, the external file was resolved at that call.

* `PreparedBy`: the call that prepared a save
* `committed_save_overwrites_nothing`: what held at that call
* `copy_overwrites_external_change`: a copy
-/

namespace XorEditor.Comfy

open Lib Method WorkflowSaveCoordinator

/-- The call prepares the save: none was prepared before, and unless it is a copy there is
no external version and no deletion without approval, and the save is for the base. -/
structure Prepares (s : WorkflowSaveCoordinator) (call : SaveCall)
    (prepared : PreparedWorkflowSave) : Prop where
  call_eq : call = .prepareSave prepared.operationId prepared.expectedRevision
    prepared.targetIdentity prepared.saveCopy
  free : s.prepared = none
  noExternal : prepared.saveCopy = false → s.external = none
  approved : prepared.saveCopy = false → s.externalMissing = true →
    s.missingRecreationApproved = true
  base : prepared.saveCopy = false → prepared.expectedRevision = s.base.revision

/-- The call is accepted and records something new about the external file: a change, or a
deletion that is not recorded yet. -/
def SaveCall.Observes (s : WorkflowSaveCoordinator) : SaveCall → Prop
  | .observeExternalChange bytes => validateSaveBytes bytes = .ok ()
  | .observeExternalDeletion => s.provider = .localFile ∧ s.externalMissing = false
  | _ => False

/-- What a call can do to the prepared save: it gives it up, it leaves it alone and observes
nothing, or it prepares one. -/
def PreparedStep (s : WorkflowSaveCoordinator) (call : SaveCall) (t : WorkflowSaveCoordinator) :
    Prop :=
  t.prepared = none ∨ (t.prepared = s.prepared ∧ ¬ call.Observes s) ∨
    ∃ prepared, t.prepared = some prepared ∧ Prepares s call prepared

variable {codec : JournalCodec} {s : WorkflowSaveCoordinator}

theorem leaves_prepareSave_step (operationId : Uuid) (observedRevision : ContentRevision)
    (targetIdentity : String) (saveCopy : Bool) :
    Leaves (prepareSave operationId observedRevision targetIdentity saveCopy) s
      (PreparedStep s (.prepareSave operationId observedRevision targetIdentity saveCopy)) := by
  have hsame : PreparedStep s
      (.prepareSave operationId observedRevision targetIdentity saveCopy) s :=
    Or.inr (Or.inl ⟨rfl, id⟩)
  refine ends_check_bind hsame fun _ _ => ends_get_bind ?_
  cases hprepared : s.prepared with
  | some prepared => exact ends_ite (fun _ => ends_pure hsame) fun _ => ends_throw hsame
  | none =>
    refine ends_ite (fun _ => ends_set_bind (ends_throw_bind (Or.inl rfl))) fun hmissing => ?_
    refine ends_ite (fun _ => ends_set_bind (ends_throw_bind (Or.inl rfl))) fun hrevision => ?_
    refine ends_ite (fun _ => ends_set_bind (ends_throw_bind (Or.inl rfl))) fun hexternal => ?_
    have hnone (hcopy : saveCopy = false) : s.external = none := by simpa [hcopy] using hexternal
    refine ends_set_bind (ends_pure (Or.inr (Or.inr ⟨_, rfl, rfl, hprepared, hnone, ?_, ?_⟩)))
    · intro (hcopy : saveCopy = false) hflag
      simpa [hcopy, hflag] using hmissing
    · intro (hcopy : saveCopy = false)
      simpa [hcopy, authoritativeRevision, hnone hcopy] using hrevision

theorem SaveCall.preparedStep_perform (codec : JournalCodec) (s : WorkflowSaveCoordinator)
    (call : SaveCall) : PreparedStep s call (call.perform codec s) := by
  have hsame {call : SaveCall} (hnot : ¬ call.Observes s) : PreparedStep s call s :=
    Or.inr (Or.inl ⟨rfl, hnot⟩)
  cases call with
  | edit bytes =>
    refine leaves_iff.mp (ends_check_bind (hsame id) fun _ _ => ends_modify_bind ?_)
    refine ends_check_bind (Or.inr (Or.inl ⟨rfl, id⟩)) fun _ _ => ?_
    exact ends_modify (Or.inl rfl)
  | observeExternalChange bytes =>
    refine leaves_iff.mp (ends_check_cases (fun e he => hsame fun hok => ?_) fun _ _ => ?_)
    · cases he.symm.trans hok
    refine ends_modify_bind (ends_get_bind (ends_ite (fun _ => ends_set (Or.inl rfl)) fun _ => ?_))
    exact ends_ite (fun _ => ends_set (Or.inl rfl)) fun _ => ends_set (Or.inl rfl)
  | observeExternalDeletion =>
    refine leaves_iff.mp (ends_get_bind (ends_ite (fun hprovider => ?_) fun _ => ?_))
    · exact ends_throw_bind (hsame fun hobserves => hprovider hobserves.1)
    refine ends_get_bind (ends_ite (fun hmissing => leaves_check (hsame ?_)) fun _ => ?_)
    · rintro ⟨-, hpresent⟩
      cases hmissing.symm.trans hpresent
    · exact ends_modify_bind (leaves_check (Or.inl rfl))
  | prepareSave operationId observedRevision targetIdentity saveCopy =>
    exact leaves_iff.mp
      (leaves_prepareSave_step operationId observedRevision targetIdentity saveCopy)
  | commitSave operationId observedRevision committedRevision =>
    refine leaves_iff.mp (ends_get_bind ?_)
    cases s.prepared.filter (·.operationId = operationId) with
    | none => exact ends_throw (hsame id)
    | some prepared =>
      refine ends_ite (fun _ => ends_set_bind (ends_throw_bind (Or.inl rfl))) fun _ => ?_
      refine ends_ite (fun _ => ends_set_bind (ends_throw_bind (Or.inl rfl))) fun _ => ?_
      exact ends_set (Or.inl rfl)
  | recoverAfterRestart =>
    unfold perform WorkflowSaveCoordinator.recoverAfterRestart
    split_ifs
    · exact Or.inl rfl
    · exact hsame id
  | reloadExternal =>
    refine leaves_iff.mp (ends_get_bind (ends_guard (hsame id) fun _ => ends_get_bind ?_))
    cases s.external with
    | none => exact ends_throw (hsame id)
    | some external => exact ends_set (Or.inl rfl)
  | keepLocal =>
    refine leaves_iff.mp (ends_get_bind (ends_ite (fun _ => ?_) fun _ => ends_get_bind ?_))
    · exact ends_modify_bind (leaves_check (Or.inl rfl))
    cases s.external with
    | none => exact ends_throw (hsame id)
    | some external => exact ends_set (Or.inl rfl)
  | retargetLocalFile documentIdentity =>
    refine leaves_iff.mp (ends_get_bind (ends_guard (hsame id) fun _ => ?_))
    refine ends_get_bind (ends_guard (hsame id) fun _ => ?_)
    exact ends_check_bind (hsame id) fun _ _ => ends_modify (hsame id)
  | switchProviderAfterCommittedSave provider =>
    refine leaves_iff.mp (ends_check_bind (hsame id) fun _ _ => ends_get_bind ?_)
    exact ends_guard (hsame id) fun _ => ends_set (hsame id)
  | detachLocalFileToDraft documentIdentity =>
    refine leaves_iff.mp (ends_get_bind (ends_guard (hsame id) fun _ => ?_))
    refine ends_check_bind (hsame id) fun _ _ => ends_modify_bind ?_
    exact leaves_check (Or.inl rfl)

/-! ### Runs of calls -/

/-- The coordinator after the calls. -/
def runCalls (codec : JournalCodec) (s : WorkflowSaveCoordinator) (calls : List SaveCall) :
    WorkflowSaveCoordinator :=
  calls.foldl (SaveCall.perform codec) s

/-- One of the calls prepared the save, and none after that one observed anything new. -/
def PreparedBy (codec : JournalCodec) (s : WorkflowSaveCoordinator) (calls : List SaveCall)
    (prepared : PreparedWorkflowSave) : Prop :=
  ∃ before call rest, calls = before ++ call :: rest ∧
    Prepares (runCalls codec s before) call prepared ∧
    (call.perform codec (runCalls codec s before)).prepared = some prepared ∧
    ∀ between later, between ++ [later] <+: rest →
      ¬ later.Observes (runCalls codec s (before ++ call :: between))

theorem preparedBy_of_prepared (hfree : s.prepared = none) {calls : List SaveCall}
    {prepared : PreparedWorkflowSave}
    (hprepared : (runCalls codec s calls).prepared = some prepared) :
    PreparedBy codec s calls prepared := by
  -- from the last call backwards: it prepared the save, or it left an earlier one alone
  induction calls using List.reverseRecOn with
  | nil => cases hfree.symm.trans hprepared
  | append_singleton calls call ih =>
    rw [runCalls, List.foldl_concat] at hprepared
    obtain hnone | ⟨hsame, hnot⟩ | ⟨other, hother, hprepares⟩ :=
      call.preparedStep_perform codec (runCalls codec s calls)
    · cases hnone.symm.trans hprepared
    · obtain ⟨before, first, rest, rfl, hprepares, hperform, hquiet⟩ :=
        ih (hsame.symm.trans hprepared)
      refine ⟨before, first, rest ++ [call], by simp, hprepares, hperform, ?_⟩
      intro between later hbetween
      obtain heq | hbetween := List.prefix_concat_iff.mp hbetween
      · obtain ⟨rfl, rfl⟩ := List.append_singleton_inj.mp heq
        exact hnot
      · exact hquiet between later hbetween
    · obtain rfl := Option.some.inj (hother.symm.trans hprepared)
      exact ⟨calls, call, [], rfl, hprepares, hother, by simp⟩

/-- **A save overwrites nothing unseen.**  Whatever calls a coordinator without a prepared
save has gone through, a save that commits was prepared by one of them.  Unless that call
prepared a copy, it found no external version and no deletion without approval, and it
named the revision of the base; and no call after it recorded anything new about the
external file. -/
theorem committed_save_overwrites_nothing (hfree : s.prepared = none) {calls : List SaveCall}
    {operationId : Uuid} {observedRevision committedRevision : ContentRevision}
    {t : WorkflowSaveCoordinator}
    (hcommit : commitSave codec operationId observedRevision committedRevision
      (runCalls codec s calls) = .ok () t) :
    ∃ prepared, (runCalls codec s calls).prepared = some prepared ∧
      prepared.operationId = operationId ∧ PreparedBy codec s calls prepared := by
  unfold commitSave at hcommit
  rw [bind_apply, get_apply] at hcommit
  dsimp only at hcommit
  cases hprepared : (runCalls codec s calls).prepared.filter (·.operationId = operationId) with
  | none =>
    rw [hprepared] at hcommit
    cases hcommit
  | some prepared =>
    obtain ⟨hsome, hoperation⟩ := Option.filter_eq_some_iff.mp hprepared
    exact ⟨prepared, hsome, by simpa using hoperation, preparedBy_of_prepared hfree hsome⟩

/-- An edit of a new coordinator is saved. -/
theorem edited_save_overwrites_nothing :
    ∃ prepared : PreparedWorkflowSave, prepared.operationId = ⟨1⟩ ∧
      PreparedBy (singleCodec emptyWorkflow) emptyWorkflow
        [.edit [1], .prepareSave ⟨1⟩ ⟨""⟩ "workflow" false] prepared := by
  have hcommit : ∃ t, commitSave (singleCodec emptyWorkflow) ⟨1⟩ ⟨""⟩ ⟨textDigest [1]⟩
      (runCalls (singleCodec emptyWorkflow) emptyWorkflow
        [.edit [1], .prepareSave ⟨1⟩ ⟨""⟩ "workflow" false]) = .ok () t := ⟨_, rfl⟩
  obtain ⟨t, hcommit⟩ := hcommit
  obtain ⟨prepared, -, hoperation, hprepared⟩ := committed_save_overwrites_nothing rfl hcommit
  exact ⟨prepared, hoperation, hprepared⟩

/-- A change that is too large is not recorded. -/
theorem perform_of_too_large {bytes : Bytes} (h : maxWorkflowBytes < bytes.length) :
    (SaveCall.observeExternalChange bytes).perform codec s = s := by
  have hcheck : validateSaveBytes bytes = .error (.inputTooLarge bytes.length maxWorkflowBytes) :=
    if_pos h
  refine (leaves_iff (Q := (· = s))).mp (ends_check_bind rfl fun _ hok => ?_)
  rw [hcheck] at hok
  cases hok

/-- A copy onto the document itself commits over an external change; and neither a deletion that
is observed again nor a change that is too large gives a prepared save up. -/
theorem copy_overwrites_external_change : let codec := singleCodec emptyWorkflow
    new codec "workflow" .localFile [] = .ok emptyWorkflow ∧
      (runCalls codec emptyWorkflow [.observeExternalChange [1]]).external ≠ none ∧
      (∃ t, commitSave codec ⟨1⟩ ⟨""⟩ ⟨""⟩ (runCalls codec emptyWorkflow
        [.observeExternalChange [1], .prepareSave ⟨1⟩ ⟨""⟩ "workflow" true]) = .ok () t) ∧
      (∃ t, commitSave codec ⟨1⟩ ⟨""⟩ ⟨""⟩ (runCalls codec emptyWorkflow
        [.observeExternalDeletion, .keepLocal, .prepareSave ⟨1⟩ ⟨""⟩ "workflow" false,
          .observeExternalDeletion]) = .ok () t) ∧
      ∃ bytes t, commitSave codec ⟨1⟩ ⟨""⟩ ⟨textDigest [1]⟩ (runCalls codec emptyWorkflow
        [.edit [1], .prepareSave ⟨1⟩ ⟨""⟩ "workflow" false, .observeExternalChange bytes]) =
          .ok () t := by
  intro codec
  refine ⟨by decide +kernel, by decide +kernel, ⟨_, rfl⟩, ⟨_, rfl⟩,
    List.replicate (maxWorkflowBytes + 1) 0, ?_⟩
  have hlarge : maxWorkflowBytes < (List.replicate (maxWorkflowBytes + 1) (0 : UInt8)).length := by
    rw [List.length_replicate]
    exact Nat.lt_succ_self _
  rw [runCalls, List.foldl_cons, List.foldl_cons, List.foldl_cons, perform_of_too_large hlarge]
  exact ⟨_, rfl⟩

end XorEditor.Comfy
