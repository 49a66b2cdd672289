import Mathlib.Order.Bounds.Basic
import XorEditor.Collaboration.ReadState

/-!
# Read markers as a replicated state

A read state is a point of a join semilattice: its frontiers and registers under pointwise
maximum.  Merging a replica is the join, so the outcome of any merges depends only on the
set of replicas merged.  An action of the owner keeps the state above its own earlier
snapshot exactly if it does not lower the baseline of a register, which marking a context
unread can do when the effective frontier it is given has dropped.

* `content`: the point of the semilattice
* `Reachable.merge_and_actions`: merges and actions of the owner
* `isLUB_fromReplicas`: a state loaded from replicas is their least upper bound
-/

namespace XorEditor.Collaboration

open Lib JoinMap Method
open Std (ExtTreeMap)

/-- The data of a replica that merging joins. -/
def OwnerReadStateReplica.content (replica : OwnerReadStateReplica) : Frontiers × Overrides :=
  (replica.frontiers, replica.overrides)

namespace ReadState

/-- The data of a state that merging joins. -/
def content (self : ReadState) : Frontiers × Overrides := (self.frontiers, self.overrides)

/-- Write new data into a state. -/
def withContent (self : ReadState) (content : Frontiers × Overrides) : ReadState :=
  { self with frontiers := content.1, overrides := content.2 }

variable {s s' : ReadState} {replica : OwnerReadStateReplica}

/-! ### Merging -/

theorem merge_eq (replica : OwnerReadStateReplica) (s : ReadState) :
    merge replica s = if replica.scope = s.scope then
      .ok () (s.withContent (s.content ⊔ replica.content)) else .error .scopeMismatch s := by
  by_cases hscope : replica.scope = s.scope
  · simp only [merge, bind_apply, get_apply, hscope, ne_eq, not_true_eq_false, if_false, if_true]
    rfl
  · simp [merge, hscope]

theorem merge_eq_ok_iff : merge replica s = .ok () s' ↔
    replica.scope = s.scope ∧ s' = s.withContent (s.content ⊔ replica.content) := by
  rw [merge_eq]
  split
  · simp_all [eq_comm]
  · simp_all

theorem withContent_eq_self_iff {content : Frontiers × Overrides} :
    s.withContent content = s ↔ content = s.content := by
  constructor
  · intro h
    rw [← h]
    rfl
  · rintro rfl
    rfl

/-- Merging a replica changes nothing exactly if the state is already above the replica. -/
theorem merge_eq_self_iff :
    merge replica s = .ok () s ↔ replica.scope = s.scope ∧ replica.content ≤ s.content := by
  rw [merge_eq_ok_iff, eq_comm (a := s), withContent_eq_self_iff, sup_eq_left]

/-! ### The state as a replica -/

/-- Every register belongs to a context that may have one and that has a frontier. -/
structure Located (state : ReadState) : Prop where
  supported : ∀ context ∈ state.overrides, context.supportsOverride
  located : ∀ context ∈ state.overrides, context ∈ state.frontiers

theorem foldlM_normalizeOverride_eq_ok {entries : List (ReadContextId × ManualUnreadRegister)}
    {start normalized : SupportedOverrides}
    (h : entries.foldlM normalizeOverride start = .ok normalized) :
    normalized.val = upsertAll start.val entries := by
  induction entries generalizing start with
  | nil =>
    obtain rfl := Except.ok.inj h
    rfl
  | cons entry entries ih =>
    rw [List.foldlM_cons, normalizeOverride] at h
    by_cases hentry : entry.1.supportsOverride
    · rw [dif_pos hentry] at h
      exact ih h
    · rw [dif_neg hentry] at h
      cases h

theorem exists_foldlM_normalizeOverride (entries : List (ReadContextId × ManualUnreadRegister))
    (start : SupportedOverrides) (hsupported : ∀ entry ∈ entries, entry.1.supportsOverride) :
    ∃ normalized, entries.foldlM normalizeOverride start = .ok normalized := by
  induction entries generalizing start with
  | nil => exact ⟨start, rfl⟩
  | cons entry entries ih =>
    obtain ⟨hentry, hentries⟩ := List.forall_mem_cons.mp hsupported
    rw [List.foldlM_cons, normalizeOverride, dif_pos hentry]
    exact ih _ hentries

variable {overrides : Overrides} {scope : ReadStateScope} {owner : PrincipalId}
  {frontiers : Frontiers} {a updated : ManualUnreadRegister} {effectiveFrontier : U32}
  {context : ReadContextId}

theorem foldlM_normalizeOverride_toList
    (hsupported : ∀ context ∈ overrides, context.supportsOverride) :
    overrides.toList.foldlM normalizeOverride ⟨∅, by simp⟩ = .ok ⟨overrides, hsupported⟩ := by
  have hentries : ∀ entry ∈ overrides.toList, entry.1.supportsOverride := by
    rintro ⟨context, register⟩ hentry
    apply hsupported context
    rw [ExtTreeMap.mem_toList_iff_getElem?_eq_some] at hentry
    exact ExtTreeMap.mem_iff_isSome_getElem?.mpr (by rw [hentry]; rfl)
  obtain ⟨normalized, hfold⟩ := exists_foldlM_normalizeOverride _ ⟨∅, by simp⟩ hentries
  rw [hfold]
  apply congrArg
  apply Subtype.ext
  rw [foldlM_normalizeOverride_eq_ok hfold]
  exact upsertAll_empty_toList overrides

/-- A replica is made from the entries of two maps exactly if it has their data; whether they
are admissible is part of the replica. -/
theorem new_toList_eq_ok_iff :
    OwnerReadStateReplica.new scope owner frontiers.toList overrides.toList = .ok replica ↔
      scope.ownerPrincipalId = owner ∧ replica.scope = scope ∧
        replica.content = (frontiers, overrides) := by
  unfold OwnerReadStateReplica.new
  constructor
  · intro h
    obtain ⟨howner, h⟩ := result_guard_eq_ok_iff.mp h
    obtain ⟨⟨normalized, hsupported⟩, hfold, h⟩ := result_bind_eq_ok_iff.mp h
    obtain rfl : normalized = _ := foldlM_normalizeOverride_eq_ok hfold
    dsimp only at h
    split at h
    · cases h
    · split at h
      · cases h
      · obtain rfl := Except.ok.inj h
        exact ⟨not_not.mp howner, rfl, Prod.ext (upsertAll_empty_toList _)
          (upsertAll_empty_toList _)⟩
  · rintro ⟨rfl, hscope, hcontent⟩
    obtain ⟨scope, frontiers, overrides, hsupported, hbounded, hlocated⟩ := replica
    obtain rfl : scope = _ := hscope
    obtain ⟨rfl, rfl⟩ := Prod.mk.inj hcontent
    have hmissing : ¬ ∃ context ∈ overrides.keys, context ∉ frontiers := by
      rintro ⟨context, hcontext, hmissing⟩
      exact hmissing (hlocated context (by simpa using hcontext))
    simp only [foldlM_normalizeOverride_toList hsupported, upsertAll_empty_toList, ne_eq,
      not_true_eq_false, if_false]
    change dite _ _ _ = _
    rw [dif_neg (Nat.not_lt.mpr hbounded), dif_neg hmissing]
    rfl

/-- A state that has not too many contexts becomes a replica with its own data. -/
theorem exists_asReplica (h : s.Located)
    (hsize : s.frontiers.size + s.overrides.size ≤ maxContexts) :
    ∃ replica, s.asReplica = .ok replica ∧ replica.scope = s.scope ∧
      replica.content = s.content := by
  refine ⟨⟨s.scope, s.frontiers, s.overrides, h.supported, hsize, h.located⟩, ?_, rfl, rfl⟩
  exact new_toList_eq_ok_iff.mpr ⟨rfl, rfl, rfl⟩

/-! ### The owner's actions -/

/-- An action of the owner on its own device. -/
inductive LocalAction where
  | advanceFrontier (owner : PrincipalId) (context : ReadContextId) (readThrough : U32)
  | markUnread (owner : PrincipalId) (context : ReadContextId) (parent : Option ReadContextId)
  | markRead (owner : PrincipalId) (context : ReadContextId) (parent : Option ReadContextId)
      (readThrough : U32)

def perform : LocalAction → EStateM ReadStateError ReadState Unit
  | .advanceFrontier owner context readThrough =>
    ReadState.advanceFrontier owner context readThrough
  | .markUnread owner context parent => ReadState.markUnread owner context parent
  | .markRead owner context parent readThrough =>
    ReadState.markRead owner context parent readThrough

/-- The register of a context, which is zero while nothing is stored. -/
def register (self : ReadState) (context : ReadContextId) : ManualUnreadRegister :=
  self.overrides[context]?.getD default

theorem updateOverride_eq (context : ReadContextId)
    (update : ManualUnreadRegister → Except ReadStateError ManualUnreadRegister) (s : ReadState) :
    updateOverride context update s = match update (s.register context) with
      | .ok updated => .ok () { s with overrides := s.overrides.insert context updated }
      | .error e =>
        .error e { s with overrides := s.overrides.insert context (s.register context) } := by
  have hinsert (a b : ManualUnreadRegister) :
      (s.overrides.insert context a).insert context b = s.overrides.insert context b := by
    apply ExtTreeMap.ext_getElem?
    intro key
    simp only [ExtTreeMap.getElem?_insert]
    split <;> rfl
  unfold updateOverride register
  cases hupdate : update (s.overrides[context]?.getD default) with
  | ok updated => simp [hupdate, hinsert]
  | error e => simp [hupdate]

theorem lt_of_checkedAdd_one {a next : U32} (h : U32.checkedAdd a 1 = some next) : a < next := by
  unfold U32.checkedAdd at h
  split at h
  · rw [← Option.some.inj h, Fin.lt_def]
    exact Nat.lt_succ_self _
  · cases h

/-- Marking unread raises a register exactly if its baseline does not drop. -/
theorem le_markUnread_iff (h : a.markUnread effectiveFrontier = .ok updated) :
    a ≤ updated ↔ a.baseline ≤ effectiveFrontier := by
  unfold ManualUnreadRegister.markUnread at h
  split at h
  · cases h
  · rename_i next hnext
    obtain rfl := Except.ok.inj h
    have hset : a.set ≤ next := (le_max_left _ _).trans (lt_of_checkedAdd_one hnext).le
    rw [ManualUnreadRegister.le_iff]
    exact ⟨fun hle => hle.2.2, fun hbaseline => ⟨hset, le_rfl, hbaseline⟩⟩

theorem le_markRead (h : a.markRead effectiveFrontier = .ok updated) : a ≤ updated := by
  unfold ManualUnreadRegister.markRead at h
  split at h
  · split at h
    · cases h
    · obtain rfl := Except.ok.inj h
      exact le_rfl
  · rename_i next hnext
    obtain rfl := Except.ok.inj h
    have hclear : a.clear ≤ next := (le_max_right _ _).trans (lt_of_checkedAdd_one hnext).le
    exact ⟨le_rfl, hclear, le_rfl⟩

theorem default_le (a : ManualUnreadRegister) : default ≤ a :=
  ⟨Fin.zero_le _, Fin.zero_le _, Fin.zero_le _⟩

theorem le_insert_iff :
    s.overrides ≤ s.overrides.insert context updated ↔ s.register context ≤ updated := by
  rw [JoinMap.le_insert_iff, register]
  cases s.overrides[context]? with
  | none => simpa using default_le updated
  | some current => simp

/-- The baseline that an action writes is not below the one that is stored. -/
def KeepsBaseline (self : ReadState) : LocalAction → Prop
  | .markUnread _ context parent =>
    (self.register context).baseline ≤ self.effectiveFrontierUnchecked context parent
  | _ => True

instance (self : ReadState) (action : LocalAction) : Decidable (self.KeepsBaseline action) := by
  cases action <;> unfold KeepsBaseline <;> infer_instance

theorem advanceFrontier_eq (owner : PrincipalId) (context : ReadContextId) (readThrough : U32)
    (s : ReadState) :
    advanceFrontier owner context readThrough s = match s.requireCompleteOwner owner with
      | .error e => .error e s
      | .ok _ => .ok () { s with
          frontiers := upsert s.frontiers context readThrough } := by
  cases hguard : s.requireCompleteOwner owner <;> simp [advanceFrontier, hguard]

theorem markUnread_eq (owner : PrincipalId) (context : ReadContextId)
    (parent : Option ReadContextId) (s : ReadState) :
    markUnread owner context parent s = match s.requireOverrideAction owner context with
      | .error e => .error e s
      | .ok _ => updateOverride context
          (·.markUnread (s.effectiveFrontierUnchecked context parent))
          { s with frontiers := s.frontiers.insertIfNew context 0 } := by
  cases hguard : s.requireOverrideAction owner context <;> simp [markUnread, hguard]

theorem markRead_eq (owner : PrincipalId) (context : ReadContextId) (parent : Option ReadContextId)
    (readThrough : U32) (s : ReadState) : markRead owner context parent readThrough s =
      match s.requireOverrideAction owner context with
      | .error e => .error e s
      | .ok _ =>
        let advanced := { s with frontiers := upsert s.frontiers context readThrough }
        updateOverride context
          (·.markRead (advanced.effectiveFrontierUnchecked context parent)) advanced := by
  cases hguard : s.requireOverrideAction owner context <;> simp [markRead, hguard]

theorem updateOverride_eq_ok
    {update : ManualUnreadRegister → Except ReadStateError ManualUnreadRegister}
    (h : updateOverride context update s = .ok () s') :
    ∃ updated, update (s.register context) = .ok updated ∧
      s' = { s with overrides := s.overrides.insert context updated } := by
  rw [updateOverride_eq] at h
  split at h
  · rename_i updated hupdated
    obtain ⟨-, rfl⟩ := EStateM.Result.ok.inj h
    exact ⟨updated, hupdated, rfl⟩
  · cases h

/-- An action that succeeds keeps the scope, and it stays above the state it started from
exactly if it does not lower a baseline. -/
theorem perform_le_iff {action : LocalAction} (h : perform action s = .ok () s') :
    s'.scope = s.scope ∧ (s.content ≤ s'.content ↔ s.KeepsBaseline action) := by
  cases action with
  | advanceFrontier owner context readThrough =>
    change advanceFrontier owner context readThrough s = _ at h
    rw [advanceFrontier_eq] at h
    split at h
    · cases h
    · obtain ⟨-, rfl⟩ := EStateM.Result.ok.inj h
      have hfrontiers := le_upsert s.frontiers context readThrough
      exact ⟨rfl, iff_of_true ⟨hfrontiers, le_refl s.overrides⟩ trivial⟩
  | markUnread owner context parent =>
    change markUnread owner context parent s = _ at h
    rw [markUnread_eq] at h
    split at h
    · cases h
    · obtain ⟨updated, hupdated, rfl⟩ := updateOverride_eq_ok h
      refine ⟨rfl, ?_⟩
      have hfrontiers := le_insertIfNew s.frontiers context 0
      calc s.content ≤ _
        _ ↔ s.overrides ≤ s.overrides.insert context updated := and_iff_right hfrontiers
        _ ↔ s.register context ≤ updated := le_insert_iff
        _ ↔ _ := le_markUnread_iff hupdated
  | markRead owner context parent readThrough =>
    change markRead owner context parent readThrough s = _ at h
    rw [markRead_eq] at h
    split at h
    · cases h
    · obtain ⟨updated, hupdated, rfl⟩ := updateOverride_eq_ok h
      have hfrontiers := le_upsert s.frontiers context readThrough
      have hoverrides : s.overrides ≤ s.overrides.insert context updated :=
        le_insert_iff.mpr (le_markRead hupdated)
      exact ⟨rfl, iff_of_true ⟨hfrontiers, hoverrides⟩ trivial⟩

/-! ### Reachable states -/

/-- The states of a device: loaded from replicas, then changed by merges and by actions of
the owner, failing calls included. -/
inductive Reachable : ReadState → Prop
  | fromReplicas {scope : ReadStateScope} {completeness : ReadStateCompleteness}
      {replicas : List OwnerReadStateReplica} {s : ReadState} :
      fromReplicas scope completeness replicas = .ok s → Reachable s
  | merge {s : ReadState} (replica : OwnerReadStateReplica) :
      Reachable s → Reachable (after (merge replica) s)
  | perform {s : ReadState} (action : LocalAction) :
      Reachable s → Reachable (after (perform action) s)

theorem Located.merge (h : s.Located) (replica : OwnerReadStateReplica) :
    (after (merge replica) s).Located := by
  rw [after, merge_eq]
  split_ifs
  · refine ⟨fun context hcontext => ?_, fun context hcontext => ?_⟩
    · obtain hcontext | hcontext := mem_sup.mp hcontext
      · exact h.supported context hcontext
      · exact replica.supported context hcontext
    · apply mem_sup.mpr
      obtain hcontext | hcontext := mem_sup.mp hcontext
      · exact Or.inl (h.located context hcontext)
      · exact Or.inr (replica.located context hcontext)
  · exact h

theorem supportsOverride_of_requireOverrideAction {u : Unit}
    (h : s.requireOverrideAction owner context = .ok u) : context.supportsOverride := by
  unfold requireOverrideAction at h
  obtain ⟨_, -, h⟩ := result_bind_eq_ok_iff.mp h
  simpa using result_require_eq_ok_iff.mp h

/-- A register may be written once its context has a frontier. -/
theorem Located.updateOverride (h : s.Located)
    (update : ManualUnreadRegister → Except ReadStateError ManualUnreadRegister)
    (hsupported : context.supportsOverride) (hcontext : context ∈ s.frontiers) :
    (after (updateOverride context update) s).Located := by
  have hinsert (a : ManualUnreadRegister) :
      Located { s with overrides := s.overrides.insert context a } := by
    refine ⟨fun other hother => ?_, fun other hother => ?_⟩
    · obtain heq | hother := ExtTreeMap.mem_insert.mp hother
      · obtain rfl : context = other := by simpa using heq
        exact hsupported
      · exact h.supported other hother
    · obtain heq | hother := ExtTreeMap.mem_insert.mp hother
      · obtain rfl : context = other := by simpa using heq
        exact hcontext
      · exact h.located other hother
  rw [after, updateOverride_eq]
  cases update (s.register context) with
  | ok updated => exact hinsert updated
  | error e => exact hinsert (s.register context)

theorem Located.withFrontiers (h : s.Located) (hle : s.frontiers ≤ frontiers) :
    Located { s with frontiers := frontiers } :=
  ⟨h.supported, fun context hcontext => mem_of_le hle (h.located context hcontext)⟩

theorem Located.perform (h : s.Located) (action : LocalAction) :
    (after (perform action) s).Located := by
  cases action with
  | advanceFrontier owner context readThrough =>
    change (after (advanceFrontier owner context readThrough) s).Located
    rw [after, advanceFrontier_eq]
    cases s.requireCompleteOwner owner with
    | error e => exact h
    | ok _ => exact h.withFrontiers (le_upsert _ _ _)
  | markUnread owner context parent =>
    change (after (markUnread owner context parent) s).Located
    rw [after, markUnread_eq]
    cases hguard : s.requireOverrideAction owner context with
    | error e => exact h
    | ok _ =>
      have hlocated := h.withFrontiers (le_insertIfNew s.frontiers context 0)
      exact hlocated.updateOverride _ (supportsOverride_of_requireOverrideAction hguard) (by simp)
  | markRead owner context parent readThrough =>
    change (after (markRead owner context parent readThrough) s).Located
    rw [after, markRead_eq]
    cases hguard : s.requireOverrideAction owner context with
    | error e => exact h
    | ok _ =>
      have hlocated := h.withFrontiers (le_upsert s.frontiers context readThrough)
      exact hlocated.updateOverride _ (supportsOverride_of_requireOverrideAction hguard)
        (mem_upsert.mpr (Or.inl rfl))

theorem located_empty (scope : ReadStateScope) (completeness : ReadStateCompleteness) :
    (empty scope completeness).Located :=
  ⟨by simp [empty], by simp [empty]⟩

theorem Reachable.located (h : Reachable s) : s.Located := by
  induction h with
  | @fromReplicas scope completeness replicas s hs =>
    have hkeeps (replica : OwnerReadStateReplica) :
        Keeps Located (ReadState.merge replica) := fun _ hs => leaves_iff.mpr (hs.merge replica)
    have hloaded := Keeps.forM hkeeps replicas (empty scope completeness)
      (located_empty scope completeness)
    unfold ReadState.fromReplicas at hs
    split at hs
    · rename_i hforM
      exact Except.ok.inj hs ▸ hloaded.of_ok hforM
    · cases hs
  | merge replica _ ih => exact ih.merge replica
  | perform action _ ih => exact ih.perform action

/-! ### Merged replicas -/

/-- A state that was reached from another by merging the replicas of a set: one at a time,
in any order, again and again, or as a batch that was merged elsewhere first. -/
inductive Merged : ReadState → Set OwnerReadStateReplica → ReadState → Prop
  | start (s : ReadState) : Merged s ∅ s
  | merge {start s s' : ReadState} {replicas : Set OwnerReadStateReplica}
      {replica : OwnerReadStateReplica} :
      Merged start replicas s → merge replica s = .ok () s' →
        Merged start (insert replica replicas) s'
  | batch {start s s' batched : ReadState} {replicas others : Set OwnerReadStateReplica}
      {scope : ReadStateScope} {completeness : ReadStateCompleteness}
      {replica : OwnerReadStateReplica} :
      Merged start replicas s → Merged (empty scope completeness) others batched →
        batched.asReplica = .ok replica → merge replica s = .ok () s' →
        Merged start (replicas ∪ others) s'

theorem content_of_asReplica (hreplica : s.asReplica = .ok replica) :
    replica.scope = s.scope ∧ replica.content = s.content :=
  (new_toList_eq_ok_iff.mp hreplica).2

theorem empty_content_le (scope : ReadStateScope) (completeness : ReadStateCompleteness)
    (bound : Frontiers × Overrides) : (empty scope completeness).content ≤ bound :=
  ⟨empty_le bound.1, empty_le bound.2⟩

/-- The data of a state is the least upper bound of where it started and what was merged. -/
theorem Merged.content_le_iff {start : ReadState} {replicas : Set OwnerReadStateReplica}
    (h : Merged start replicas s) (bound : Frontiers × Overrides) : s.content ≤ bound ↔
      start.content ≤ bound ∧ ∀ replica ∈ replicas, replica.content ≤ bound := by
  induction h with
  | start s => simp
  | @merge start s s' replicas replica _ hmerge ih =>
    obtain ⟨-, rfl⟩ := merge_eq_ok_iff.mp hmerge
    change s.content ⊔ replica.content ≤ bound ↔ _
    rw [sup_le_iff, ih, Set.forall_mem_insert, and_assoc, and_comm (a := replica.content ≤ _)]
  | @batch start s s' batched replicas others scope completeness replica _ hbatched hreplica
      hmerge ih ihbatched =>
      obtain ⟨-, rfl⟩ := merge_eq_ok_iff.mp hmerge
      have hcontent := (content_of_asReplica hreplica).2
      change s.content ⊔ replica.content ≤ bound ↔ _
      rw [sup_le_iff, hcontent, ih, ihbatched,
        and_iff_right (empty_content_le scope completeness bound), and_assoc]
      apply and_congr_right
      intro _
      simp only [Set.mem_union, or_imp, forall_and]

/-- **Read markers converge, and an action stays above the owner's earlier snapshot unless
it lowers a baseline.** -/
theorem Reachable.merge_and_actions (h : Reachable s) :
    (∀ replicas s₁ s₂, Merged s replicas s₁ → Merged s replicas s₂ →
      s₁.frontiers = s₂.frontiers ∧ s₁.overrides = s₂.overrides) ∧
    (s.frontiers.size + s.overrides.size ≤ maxContexts → ∃ replica, s.asReplica = .ok replica) ∧
    ∀ action s', ReadState.perform action s = .ok () s' → ∀ replica, s.asReplica = .ok replica →
      (ReadState.merge replica s' = .ok () s' ↔ s.KeepsBaseline action) := by
  refine ⟨fun replicas s₁ s₂ h₁ h₂ => ?_, fun hsize => ?_,
    fun action s' haction replica hreplica => ?_⟩
  · have hcontent : s₁.content = s₂.content := by
      apply eq_of_forall_ge_iff
      intro bound
      rw [h₁.content_le_iff, h₂.content_le_iff]
    exact Prod.ext_iff.mp hcontent
  · obtain ⟨replica, hreplica, -⟩ := exists_asReplica h.located hsize
    exact ⟨replica, hreplica⟩
  · obtain ⟨hscope, hle⟩ := perform_le_iff haction
    obtain ⟨hscope', hcontent⟩ := content_of_asReplica hreplica
    rw [merge_eq_self_iff, hscope, hscope', hcontent, hle]
    exact and_iff_right rfl

/-! ### A baseline that drops -/

def thread : ReadContextId := ⟨"thread", by decide, by decide⟩

def channel : ReadContextId := ⟨"channel", by decide, by decide⟩

def ownerScope : ReadStateScope := ⟨⟨1⟩, ⟨1⟩⟩

/-- The channel is read up to 10, and the thread has been marked unread below the channel. -/
def unreadBelowChannel : ReadState :=
  after (perform (.markUnread ⟨1⟩ thread (some channel)))
    (after (perform (.advanceFrontier ⟨1⟩ channel 10)) (empty ownerScope .complete))

theorem reachable_unreadBelowChannel : Reachable unreadBelowChannel :=
  .perform _ (.perform _ (@Reachable.fromReplicas ownerScope .complete [] _ rfl))

/-- Marking the thread read keeps the state above its earlier snapshot. -/
theorem markRead_above_snapshot : ∃ replica, unreadBelowChannel.asReplica = .ok replica ∧
    merge replica (after (perform (.markRead ⟨1⟩ thread none 3)) unreadBelowChannel) =
      .ok () (after (perform (.markRead ⟨1⟩ thread none 3)) unreadBelowChannel) := by
  obtain ⟨-, hreplica, hactions⟩ := reachable_unreadBelowChannel.merge_and_actions
  obtain ⟨replica, hreplica⟩ := hreplica (by decide +kernel)
  exact ⟨replica, hreplica,
    (hactions (.markRead ⟨1⟩ thread none 3) _ rfl replica hreplica).mpr trivial⟩

/-- Marking the thread unread once more, now without its channel, drops the baseline from 10
to 0.  Merging the earlier snapshot then raises it again, and a thread that counted as read
is unread. -/
theorem markUnread_not_above_snapshot :
    ∃ s s' s'' action replica, Reachable s ∧ perform action s = .ok () s' ∧
      s.asReplica = .ok replica ∧ merge replica s' = .ok () s'' ∧ s'' ≠ s' ∧
      s'.isUnread ⟨1⟩ thread (some channel) 0 = .ok false ∧
      s''.isUnread ⟨1⟩ thread (some channel) 0 = .ok true := by
  let s' := after (perform (.markUnread ⟨1⟩ thread none)) unreadBelowChannel
  obtain ⟨replica, hreplica, hscope, hcontent⟩ :=
    exists_asReplica reachable_unreadBelowChannel.located (by decide +kernel)
  refine ⟨unreadBelowChannel, s', s'.withContent (s'.content ⊔ unreadBelowChannel.content),
    .markUnread ⟨1⟩ thread none, replica, reachable_unreadBelowChannel, rfl, hreplica, ?_, ?_,
    ?_, ?_⟩
  · rw [merge_eq_ok_iff, hcontent]
    exact ⟨hscope, rfl⟩
  · decide +kernel
  · decide +kernel
  · decide +kernel

/-! ### Loading -/

/-- The data of a loaded state is the least upper bound of its replicas, in whatever order and
however often they come. -/
theorem isLUB_fromReplicas {completeness : ReadStateCompleteness}
    {replicas : List OwnerReadStateReplica} (h : fromReplicas scope completeness replicas = .ok s) :
    IsLUB (OwnerReadStateReplica.content '' { replica | replica ∈ replicas }) s.content := by
  have hloop (rest : List OwnerReadStateReplica) (t : ReadState)
      (hrest : (rest.forM merge) t = .ok () s) (bound : Frontiers × Overrides) :
      s.content ≤ bound ↔ t.content ≤ bound ∧ ∀ replica ∈ rest, replica.content ≤ bound := by
    induction rest generalizing t with
    | nil =>
      obtain ⟨-, rfl⟩ := EStateM.Result.ok.inj hrest
      simp
    | cons replica rest ih =>
      change (merge replica >>= fun _ => rest.forM merge) t = _ at hrest
      rw [bind_apply, merge_eq] at hrest
      by_cases hscope : replica.scope = t.scope
      · rw [if_pos hscope] at hrest
        rw [ih _ hrest, List.forall_mem_cons, ← and_assoc]
        exact and_congr_left' sup_le_iff
      · rw [if_neg hscope] at hrest
        cases hrest
  unfold fromReplicas at h
  split at h
  next hforM =>
    obtain rfl := Except.ok.inj h
    rw [isLUB_iff_le_iff]
    intro bound
    rw [hloop _ _ hforM, and_iff_right (empty_content_le scope completeness bound),
      mem_upperBounds, Set.forall_mem_image]
    rfl
  · cases h

/-- The thread is read up to 4. -/
def readThread : ReadState :=
  after (perform (.advanceFrontier ⟨1⟩ thread 4)) (empty ownerScope .complete)

/-- The snapshots of two states, the first of which comes twice. -/
theorem isLUB_fromReplicas_two : ∃ replica other s, unreadBelowChannel.asReplica = .ok replica ∧
    readThread.asReplica = .ok other ∧ other.content ≠ replica.content ∧
      fromReplicas ownerScope .complete [replica, other, replica] = .ok s ∧
      IsLUB (OwnerReadStateReplica.content '' { r | r ∈ [replica, other, replica] }) s.content := by
  refine ⟨_, _, _, rfl, rfl, ?_, rfl, @isLUB_fromReplicas _ ownerScope .complete _ rfl⟩
  decide +kernel

end ReadState
end XorEditor.Collaboration
