import XorEditor.Comfy.HandleSystem

/-!
# Runs of the handle store

The accounts and counters of the store are right after every step of every run.  A retired
handle that nothing holds any more is gone in builds with debug assertions; without them
the drop of the last resolved payload leaves it in the store.

* `Sound`: the invariant of a run
* `HandleRun.accounting`: accounts, counters and what is reclaimed
* `revoked_handle_lingers`: a run without debug assertions
-/

namespace XorEditor.Comfy

open Std (ExtTreeMap TransOrd LawfulEqOrd)
open Lib Method List

variable {Payload ι : Type} [Ord ι] [TransOrd ι] {data : NativeHandleStoreData Payload ι}
  {store : NativeHandleStore Payload ι}

/-! ### Identifiers are given out once -/

theorem digitChar_injective {a b : Nat} (ha : a < 16) (hb : b < 16)
    (h : Nat.digitChar a = Nat.digitChar b) : a = b := by
  have hall : ∀ a < 16, ∀ b < 16, Nat.digitChar a = Nat.digitChar b → a = b := by decide
  exact hall a ha b hb h

theorem hexDigits_injective {width m n : Nat} (hm : m < 16 ^ width) (hn : n < 16 ^ width)
    (h : hexDigits width m = hexDigits width n) : m = n := by
  induction width generalizing m n with
  | zero => omega
  | succ width ih =>
    obtain ⟨hhigh, hlow⟩ := append_inj' h rfl
    have hdigit := digitChar_injective (Nat.mod_lt _ (by decide)) (Nat.mod_lt _ (by decide))
      (List.cons.inj hlow).1
    rw [Nat.pow_succ] at hm hn
    have hquotient := ih (Nat.div_lt_of_lt_mul (by omega)) (Nat.div_lt_of_lt_mul (by omega)) hhigh
    omega

theorem handleIdentifier_injective {m n : Nat} (hm : m ≤ u64Max) (hn : n ≤ u64Max)
    (h : handleIdentifier m = handleIdentifier n) : m = n := by
  unfold handleIdentifier at h
  have hlist := congrArg String.toList h
  rw [String.toList_append, String.toList_append, append_cancel_left_eq,
    String.toList_ofList, String.toList_ofList] at hlist
  unfold u64Max at hm hn
  exact hexDigits_injective (by omega) (by omega) hlist

/-! ### The handles of a new lease -/

namespace NativeHandleStore

/-- Every handle stands under its own key. -/
def Keyed (handlesByKey : HandlesByKey) : Prop :=
  ∀ (key : String × Nat) (handle : NativeOpaqueHandle), handlesByKey[key]? = some handle →
    key = (handle.identifier, handle.generation)

instance : Std.LawfulEqCmp
    (compareLex (compareOn (Prod.fst : String × Nat → String)) (compareOn Prod.snd)) where
  eq_of_compare := by
    intro a b h
    rw [compareLex_eq_eq] at h
    exact Prod.ext (LawfulEqOrd.eq_of_compare h.1) (LawfulEqOrd.eq_of_compare h.2)

variable {identity : NativeHandleStoreIdentity} {handle : NativeOpaqueHandle}

theorem Keyed.insertByKey {handlesByKey next : HandlesByKey} (hkeyed : Keyed handlesByKey)
    (h : insertByKey identity handlesByKey handle = .ok next) : Keyed next := by
  have hnext : next = handlesByKey.insert (handle.identifier, handle.generation) handle := by
    unfold NativeHandleStore.insertByKey at h
    simp only [result_bind_eq_ok_iff, result_guard_eq_ok_iff] at h
    obtain ⟨-, -, -, -, -, hnext⟩ := h
    exact (Except.ok.inj hnext).symm
  intro key other hother
  rw [hnext, ExtTreeMap.getElem?_insert] at hother
  split_ifs at hother with hkey
  · cases hother
    exact (Std.LawfulEqCmp.eq_of_compare hkey).symm
  · exact hkeyed key other hother

theorem keyed_foldlM {handles : List NativeOpaqueHandle} {handlesByKey last : HandlesByKey}
    (hkeyed : Keyed handlesByKey)
    (h : handles.foldlM (insertByKey identity) handlesByKey = .ok last) : Keyed last := by
  induction handles generalizing handlesByKey with
  | nil =>
    cases h
    exact hkeyed
  | cons handle handles ih =>
    rw [foldlM_cons, result_bind_eq_ok_iff] at h
    obtain ⟨next, hnext, hrest⟩ := h
    exact ih (hkeyed.insertByKey hnext) hrest

omit [TransOrd ι] in
theorem leasable_of_checkLeased (h : data.checkLeased handle = .ok ()) : data.Leasable handle := by
  unfold NativeHandleStoreData.checkLeased at h
  split at h
  · cases h
  · rename_i record hrecord
    simp only [result_guard_eq_ok_iff] at h
    obtain ⟨-, hcommitted, -⟩ := h
    rw [not_or, not_not, not_not] at hcommitted
    exact ⟨record, hrecord, hcommitted.1, hcommitted.2⟩

omit [TransOrd ι] in
/-- The handles of a lease have different identifiers: two keys of one identifier would
need two generations, and its record has one. -/
theorem leasedHandles_eq_ok {handles leased : List NativeOpaqueHandle}
    (h : store.leasedHandles handles = .ok leased) :
    (leased.map (·.identifier)).Nodup ∧ ∀ handle ∈ leased, store.data.Leasable handle := by
  unfold leasedHandles at h
  obtain ⟨handlesByKey, hfold, h⟩ := result_bind_eq_ok_iff.mp h
  obtain ⟨⟨⟩, hchecked, hleased⟩ := result_bind_eq_ok_iff.mp h
  obtain rfl := Except.ok.inj hleased
  have hkeyed : Keyed handlesByKey := keyed_foldlM (by simp [Keyed]) hfold
  have hleasable : ∀ handle ∈ handlesByKey.toList.map Prod.snd, store.data.Leasable handle :=
    fun handle hmem => leasable_of_checkLeased (result_forM_eq_ok_iff.mp hchecked handle hmem)
  refine ⟨?_, hleasable⟩
  rw [map_map, List.Nodup, pairwise_map]
  refine handlesByKey.distinct_keys_toList.imp_of_mem ?_
  rintro ⟨key, handle⟩ ⟨key', handle'⟩ hmem hmem' hne
    (hsame : handle.identifier = handle'.identifier)
  have hkey := hkeyed key handle (ExtTreeMap.mem_toList_iff_getElem?_eq_some.mp hmem)
  have hkey' := hkeyed key' handle' (ExtTreeMap.mem_toList_iff_getElem?_eq_some.mp hmem')
  obtain ⟨record, hrecord, -, hgeneration⟩ := hleasable handle (mem_map_of_mem hmem)
  obtain ⟨record', hrecord', -, hgeneration'⟩ := hleasable handle' (mem_map_of_mem hmem')
  rw [hsame, hrecord'] at hrecord
  cases hrecord
  apply hne
  rw [hkey, hkey', hsame, ← hgeneration, ← hgeneration']
  exact Std.ReflCmp.compare_self

end NativeHandleStore

/-! ### Every step keeps the accounts -/

namespace HandleSystem

variable [DecidableEq ι]

/-- The invariant of a run. -/
structure Sound (s : HandleSystem Payload ι) : Prop where
  data : s.store.data.Sound s.store.nextGeneration s.leases s.resolved
  numbers : s.store.nextGeneration ≤ u64Max

/-- The step keeps the invariant, and leaves no handle lingering. -/
def Keeps (s t : HandleSystem Payload ι) : Prop :=
  t.Sound ∧ (s.Reclaimed → t.Reclaimed)

omit [TransOrd ι] [DecidableEq ι] in
theorem reclaimed_iff (s : HandleSystem Payload ι) :
    s.Reclaimed ↔ LingersOnly s.store.data.values [] := by
  simp [Reclaimed, LingersOnly]

variable {s t : HandleSystem Payload ι} {access : SessionAccess Payload ι}
  {methods : PayloadMethods Payload ι} {cancelled : Bool}

/-- A step that leaves the store and what is held as they are. -/
theorem Sound.keeps_of_store (h : s.Sound) (hstore : t.store = s.store)
    (hleases : t.leases = s.leases) (hresolved : t.resolved = s.resolved) : s.Keeps t := by
  unfold Keeps Reclaimed
  rw [hstore]
  refine ⟨⟨?_, hstore ▸ h.numbers⟩, id⟩
  rw [hstore, hleases, hresolved]
  exact h.data

/-- A step that changes the data of the store. -/
theorem Sound.keeps_of_data (h : s.Sound) (hnext : t.store.nextGeneration = s.store.nextGeneration)
    (hkept : NativeHandleStoreData.Kept s.store.nextGeneration t.leases t.resolved s.store.data
      t.store.data) : s.Keeps t := by
  refine ⟨⟨hnext ▸ hkept.1, hnext ▸ h.numbers⟩, ?_⟩
  rw [reclaimed_iff, reclaimed_iff]
  exact hkept.2

theorem fresh_handleIdentifier (h : s.Sound) :
    s.store.data.values[handleIdentifier s.store.nextGeneration]? = none := by
  cases hrecord : s.store.data.values[handleIdentifier s.store.nextGeneration]? with
  | none => rfl
  | some record =>
    obtain ⟨hidentifier, hlt⟩ := h.data.counted.numbered _ _ hrecord
    have hnumbers := h.numbers
    have := handleIdentifier_injective h.numbers (by omega) hidentifier
    omega

/-- What a session method leaves of the store, with nothing held or let go. -/
structure Left (s : HandleSystem Payload ι) (access : SessionAccess Payload ι) : Prop where
  data : access.store.data.Sound access.store.nextGeneration s.leases s.resolved
  numbers : access.store.nextGeneration ≤ u64Max
  lingers : LingersOnly s.store.data.values [] → LingersOnly access.store.data.values []

theorem Left.keeps (h : s.Left access) (index : Nat) (session : AttemptSession)
    (publishing : Option NativeOpaqueHandle) :
    s.Keeps (s.afterCall index session access publishing) := by
  refine ⟨⟨h.data, h.numbers⟩, ?_⟩
  rw [reclaimed_iff, reclaimed_iff]
  exact h.lingers

theorem Sound.left (h : s.Sound) (staged : NativeHandleStoreSessionStage) :
    s.Left { store := s.store, staged } :=
  ⟨h.data, h.numbers, id⟩

omit [DecidableEq ι] in
theorem checkPublished_eq_ok {payload : Payload} {publication : SessionAccess.Publication ι}
    (h : access.checkPublished methods payload cancelled = .ok publication) :
    access.store.data.nextResidentBytes publication.residency = .ok publication.residentBytes ∧
      access.store.nextGeneration < u64Max := by
  unfold SessionAccess.checkPublished at h
  simp only [result_bind_eq_ok_iff, result_guard_eq_ok_iff] at h
  obtain ⟨-, _, -, handleType, -, residency, -, -, bytes, hbytes, -, hnext, hok⟩ := h
  obtain rfl := Except.ok.inj hok
  exact ⟨hbytes, not_le.mp hnext⟩

omit [TransOrd ι] in
theorem resolvedRecord_eq_ok {attemptId : AttemptId} {handle : NativeOpaqueHandle}
    {expectedType : NativeHandleType} {record' : StoredNativeHandle Payload ι}
    (h : store.resolvedRecord methods attemptId handle expectedType cancelled = .ok record') :
    ∃ record, store.data.values[handle.identifier]? = some record ∧
      NativeHandleStoreData.Answers record handle ∧
      record' = { record with resolvedRoots := record.resolvedRoots + 1 } := by
  unfold NativeHandleStore.resolvedRecord at h
  obtain ⟨⟨⟩, hvalid, h⟩ := result_bind_eq_ok_iff.mp h
  split at h
  · cases h
  · rename_i record hrecord
    obtain ⟨⟨⟩, hchecked, h⟩ := result_bind_eq_ok_iff.mp h
    split at h
    · rename_i resolvedRoots hadd
      obtain rfl := Except.ok.inj h
      obtain ⟨-, rfl⟩ := checkedAdd_eq_some.mp hadd
      refine ⟨record, hrecord, ?_, rfl⟩
      unfold NativeHandleStore.validateHandle at hvalid
      unfold NativeHandleStore.checkResolved at hchecked
      simp only [result_bind_eq_ok_iff, result_guard_eq_ok_iff,
        result_require_eq_ok_iff, not_not] at hvalid hchecked
      obtain ⟨-, -, hgeneration, htype, hdigest, -⟩ := hchecked
      obtain ⟨-, -, -, -, -, hexpected⟩ := hvalid
      exact ⟨hgeneration, htype.trans hexpected.symm, hdigest⟩
    · cases h

/-- A payload is resolved, or the call fails and changes nothing. -/
theorem Sound.resolve (h : s.Sound) (methods : PayloadMethods Payload ι) (attemptId : AttemptId)
    (handle : NativeOpaqueHandle) (expectedType : NativeHandleType) (cancelled : Bool) :
    s.Keeps (s.afterResolve handle
      (NativeHandleStore.resolve methods attemptId handle expectedType cancelled s.store)) := by
  unfold NativeHandleStore.resolve
  rw [bind_apply, check_apply]
  cases hresolved : s.store.resolvedRecord methods attemptId handle expectedType cancelled with
  | error e => exact h.keeps_of_store rfl rfl rfl
  | ok record' =>
    obtain ⟨record, hrecord, hanswers, rfl⟩ := resolvedRecord_eq_ok hresolved
    refine h.keeps_of_data rfl ⟨h.data.addResolvedRoot hrecord hanswers, fun hlingers => ?_⟩
    refine forall_insert (fun hzero => ?_) fun other r _ => hlingers other r
    exact absurd hzero.2.2 (Nat.succ_ne_zero _)

/-- A lease is acquired, or the call fails and changes nothing. -/
theorem Sound.acquireLease (h : s.Sound) (handles : List NativeOpaqueHandle) :
    s.Keeps (s.afterLease (NativeHandleStore.acquireLease handles s.store)) := by
  unfold NativeHandleStore.acquireLease
  rw [bind_apply, check_apply]
  cases hleased : s.store.leasedHandles handles with
  | error e => exact h.keeps_of_store rfl rfl rfl
  | ok leased =>
    obtain ⟨hdistinct, hleasable⟩ := NativeHandleStore.leasedHandles_eq_ok hleased
    cases leased with
    | nil => exact h.keeps_of_store rfl rfl rfl
    | cons handle leased =>
      have hkept := NativeHandleStoreData.Sound.foldl_addRoot
        ⟨h.data.balanced, counted_nil_lease.mpr h.data.counted⟩ (by rwa [append_nil]) hleasable
      rw [append_nil] at hkept
      exact h.keeps_of_data rfl hkept

variable [LawfulEqOrd ι]

theorem Sound.left_retire (h : s.Sound) (identifier : String)
    (staged : NativeHandleStoreSessionStage) :
    s.Left { store := s.store.withData (s.store.data.retireStoredHandle identifier).2, staged } :=
  have hkept := h.data.kept_retireStoredHandle identifier
  ⟨hkept.1, h.numbers, hkept.2⟩

theorem Sound.left_revoke (h : s.Sound) (attemptId : AttemptId) (handle : NativeOpaqueHandle)
    (cancelled : Bool) (staged : NativeHandleStoreSessionStage) :
    Leaves (SessionAccess.revoke attemptId handle cancelled) { store := s.store, staged }
      s.Left := by
  unfold SessionAccess.revoke
  refine ends_check_bind (h.left staged) fun _ _ => ?_
  refine ends_get_bind (ends_set_bind (ends_guard ?_ fun _ => ?_))
  · exact h.left_retire handle.identifier staged
  · exact ends_set (h.left_retire handle.identifier _)

theorem Sound.left_publish (h : s.Sound) (methods : PayloadMethods Payload ι)
    (attemptId : AttemptId) (payload : Payload) (cancelled : Bool)
    (staged : NativeHandleStoreSessionStage) :
    Leaves (SessionAccess.publish methods attemptId payload cancelled)
      { store := s.store, staged } s.Left := by
  unfold SessionAccess.publish
  refine ends_check_bind (h.left staged) fun publication hpublication => ?_
  obtain ⟨hbytes, hnext⟩ := checkPublished_eq_ok hpublication
  have hfresh := fresh_handleIdentifier h
  have hnumber : s.Left { store := { s.store with nextGeneration := _ + 1 }, staged } :=
    ⟨⟨h.data.balanced, h.data.counted.mono (Nat.le_succ _)⟩, hnext, id⟩
  refine ends_get_bind (ends_set_bind ?_)
  refine ends_check_bind hnumber fun handle _ => ?_
  refine ends_set_bind (ends_pure ⟨⟨?_, ?_⟩, hnumber.numbers, ?_⟩)
  · exact h.data.balanced.insertHandle hfresh hbytes
  · exact hnumber.data.counted.insert hfresh rfl rfl ⟨rfl, Nat.lt_succ_self _⟩
  · intro hlingers
    exact forall_insert (fun hretired => absurd hretired.1 Bool.false_ne_true) fun other r _ =>
      hlingers other r

theorem perm_eraseIdx {α : Type} {list : List α} {index : Nat} {a : α}
    (h : list[index]? = some a) : list.Perm (a :: list.eraseIdx index) := by
  obtain ⟨hlt, rfl⟩ := List.getElem?_eq_some_iff.mp h
  exact (getElem_cons_eraseIdx_perm hlt).symm

/-- **One step.**  The accounts are right after it, and it leaves a retired handle behind
only by dropping the last resolved payload in a build without debug assertions. -/
theorem Sound.perform {debugAssertions : Bool} {action : HandleAction Payload} (h : s.Sound)
    (hstep : s.perform methods debugAssertions action = some t) :
    t.Sound ∧ (s.Reclaimed → (t.Reclaimed ↔ debugAssertions ∨ ¬ s.DropsLast action)) := by
  -- all actions but one keep a reclaimed store reclaimed, in every build
  have hkeeps : s.Keeps t → ¬ s.DropsLast action →
      t.Sound ∧ (s.Reclaimed → (t.Reclaimed ↔ debugAssertions ∨ ¬ s.DropsLast action)) :=
    fun hkept hdrop => ⟨hkept.1, fun hreclaimed => iff_of_true (hkept.2 hreclaimed) (Or.inr hdrop)⟩
  cases action with
  | session attemptId =>
    cases hstep
    exact hkeeps (h.keeps_of_store rfl rfl rfl) id
  | publish index payload cancelled =>
    obtain ⟨session, -, rfl⟩ := Option.map_eq_some_iff.mp hstep
    refine hkeeps ?_ id
    have hleft := h.left_publish methods session.attemptId payload cancelled session.staged
    cases hcall : SessionAccess.publish methods session.attemptId payload cancelled
        { store := s.store, staged := session.staged } with
    | ok handle access => exact (hleft.of_ok hcall).keeps index session (some handle)
    | error e access => exact (hleft.of_error hcall).keeps index session none
  | finishPublish index cancelled =>
    obtain ⟨session, -, hstep⟩ := Option.bind_eq_some_iff.mp hstep
    obtain ⟨handle, -, hstep⟩ := Option.bind_eq_some_iff.mp hstep
    cases hstep
    refine hkeeps (Left.keeps ?_ index session none) id
    split
    · exact h.left_retire handle.identifier _
    · exact h.left session.staged
  | resolve index handle expectedType cancelled =>
    obtain ⟨session, -, rfl⟩ := Option.map_eq_some_iff.mp hstep
    exact hkeeps (h.resolve methods session.attemptId handle expectedType cancelled) id
  | dropResolved index =>
    obtain ⟨handle, hhandle, rfl⟩ := Option.map_eq_some_iff.mp hstep
    have hdata : s.store.data.Sound s.store.nextGeneration s.leases _ :=
      ⟨h.data.balanced, h.data.counted.perm (List.Perm.refl _) (perm_eraseIdx hhandle)⟩
    obtain ⟨hsound, hlingers⟩ := hdata.releaseResolvedRoot debugAssertions
    refine ⟨⟨hsound, h.numbers⟩, fun hreclaimed => ?_⟩
    have hdrops : s.DropsLast (.dropResolved index) ↔ s.store.data.HeldLast handle := by
      simp [DropsLast, hhandle]
    rw [reclaimed_iff] at hreclaimed ⊢
    rw [hdrops]
    exact hlingers hreclaimed
  | revoke index handle cancelled =>
    obtain ⟨session, -, rfl⟩ := Option.map_eq_some_iff.mp hstep
    have hleft := h.left_revoke session.attemptId handle cancelled session.staged
    exact hkeeps (Left.keeps (leaves_iff.mp hleft) index session none) id
  | rollbackFrom index checkpoint =>
    obtain ⟨session, -, rfl⟩ := Option.map_eq_some_iff.mp hstep
    refine hkeeps ?_ id
    split
    · exact h.keeps_of_store rfl rfl rfl
    · exact h.keeps_of_store rfl rfl rfl
  | rollbackAll index | commit index =>
    obtain ⟨session, -, rfl⟩ := Option.map_eq_some_iff.mp hstep
    exact hkeeps (h.keeps_of_store rfl rfl rfl) id
  | settle index =>
    obtain ⟨task, -, rfl⟩ := Option.map_eq_some_iff.mp hstep
    refine hkeeps (h.keeps_of_data rfl ?_) id
    cases task with
    | rollback attemptId identifiers =>
      exact h.data.kept_foldl (fun h => h.rollbackHandle attemptId) identifiers
    | commit attemptId identifiers =>
      exact h.data.kept_foldl (NativeHandleStoreData.Sound.commitHandle attemptId) identifiers
  | acquireLease handles =>
    cases hstep
    exact hkeeps (h.acquireLease handles) id
  | dropLease index =>
    obtain ⟨lease, hlease, rfl⟩ := Option.map_eq_some_iff.mp hstep
    have hdata : s.store.data.Sound s.store.nextGeneration _ s.resolved :=
      ⟨h.data.balanced, h.data.counted.perm (perm_eraseIdx hlease) (List.Perm.refl _)⟩
    exact hkeeps (h.keeps_of_data rfl hdata.releaseRoots) id
  | collectUnrootedAttempt attemptId =>
    cases hstep
    obtain ⟨hsound, hlingers⟩ := h.data.retireAll _
    exact hkeeps (h.keeps_of_data rfl ⟨hsound, fun hstart => hlingers hstart.mono⟩) id

end HandleSystem

/-! ### Whole runs -/

section Runs

variable [DecidableEq ι]

omit [Ord ι] [TransOrd ι] in
/-- A handle names an allocation at most once, so counting names counts handles. -/
theorem references_namedAllocations (values : ExtTreeMap String (StoredNativeHandle Payload ι))
    (id : ι) : RefCount.references (namedAllocations values) id = handlesNaming values id := by
  unfold RefCount.references namedAllocations handlesNaming
  induction values.toList with
  | nil => rfl
  | cons entry entries ih =>
    rw [flatMap_cons, map_append, count_append, ih, countP_cons,
      entry.2.residency.map_fst_resources, entry.2.residency.distinct.count, Nat.add_comm]
    simp only [contains_eq_mem, decide_eq_true_eq]

theorem HandleSystem.Sound.accounted {s : HandleSystem Payload ι} (h : s.Sound) : s.Accounted where
  residentBytes := h.data.balanced.bytes
  oneSize := fun _ ha _ hb hid => h.data.balanced.tracks.size_eq ha hb hid
  handleReferences := by
    intro id stored hstored
    have hcount := h.data.balanced.tracks.count id stored.residentBytes stored.handleReferences
      (by rw [tableOf, hstored]; rfl)
    rw [hcount.1, references_namedAllocations]
  allocated := by
    intro id
    rw [← references_namedAllocations, ← h.data.balanced.tracks.eq_none_iff, tableOf,
      Option.map_eq_none_iff]
  roots := h.data.counted.roots
  resolvedRoots := h.data.counted.resolvedRoots

variable {identity : NativeHandleStoreIdentity} {capacity byteCapacity : Nat}
  {store : NativeHandleStore Payload ι}

theorem sound_opened
    (h : NativeHandleStore.withCapacities identity capacity byteCapacity = .ok store) :
    (HandleSystem.opened store).Sound ∧ (HandleSystem.opened store).Reclaimed := by
  unfold NativeHandleStore.withCapacities at h
  simp only [result_bind_eq_ok_iff, result_guard_eq_ok_iff] at h
  obtain ⟨-, _, -, hstore⟩ := h
  obtain rfl := Except.ok.inj hstore
  refine ⟨⟨⟨NativeHandleStoreData.balanced_empty, ?_⟩, show 1 ≤ u64Max by decide⟩, ?_⟩
  · constructor
    all_goals simp [HandleSystem.opened, NativeHandleStoreData.empty]
  · intro identifier record hrecord
    cases ExtTreeMap.getElem?_empty.symm.trans hrecord

variable [LawfulEqOrd ι] {methods : PayloadMethods Payload ι} {debugAssertions : Bool}
  {start s : HandleSystem Payload ι} {past : List (HandleSystem Payload ι × HandleAction Payload)}

theorem HandleRun.sound (hstart : start.Sound)
    (h : HandleRun methods debugAssertions start past s) : s.Sound := by
  induction h with
  | start => exact hstart
  | step _ hstep ih => exact (ih.perform hstep).1

/-- **The handle store keeps its accounts.**  In every run of every number of sessions the
resident bytes, the references of the shared allocations and the counts of leases and
resolved payloads are right after every step.  Every state of the run is free of retired
handles that nothing holds exactly when the build has debug assertions or no step dropped
the last resolved payload of a retired handle. -/
theorem HandleRun.accounting
    (hopen : NativeHandleStore.withCapacities identity capacity byteCapacity = .ok store)
    (h : HandleRun methods debugAssertions (.opened store) past s) : s.Accounted ∧
      ((∀ t ∈ s :: past.map Prod.fst, t.Reclaimed) ↔
        debugAssertions ∨ ∀ step ∈ past, ¬ step.1.DropsLast step.2) := by
  obtain ⟨hsound, hreclaimed⟩ := sound_opened hopen
  refine ⟨(h.sound hsound).accounted, ?_⟩
  induction h with
  | start => simp [hreclaimed]
  | @step past s action t hrun hstep ih =>
    have hone := (hrun.sound hsound |>.perform hstep).2
    rw [forall_mem_cons, forall_mem_cons, map_cons, ih, or_and_left]
    exact and_congr_left fun hpast => hone (ih.mpr hpast s mem_cons_self)

omit [LawfulEqOrd ι] in
theorem HandleRun.of_performAll {actions : List (HandleAction Payload)} {t : HandleSystem Payload ι}
    (h : HandleRun methods debugAssertions start past s)
    (hactions : s.performAll methods debugAssertions actions = some t) :
    ∃ past', HandleRun methods debugAssertions start past' t := by
  induction actions generalizing s past with
  | nil =>
    cases hactions
    exact ⟨past, h⟩
  | cons action actions ih =>
    unfold HandleSystem.performAll at hactions
    rw [foldlM_cons] at hactions
    obtain ⟨next, hnext, hrest⟩ := Option.bind_eq_some_iff.mp hactions
    exact ih (h.step hnext) hrest

end Runs

/-! ### A handle revoked while it is resolved -/

/-- Payloads of a given number of bytes of their own that share one allocation. -/
def sharingMethods : PayloadMethods Nat Nat where
  validate := fun _ => .ok ()
  handleType := fun _ => .ok { kind := .tensor, typeId := "TENSOR" }
  digestSha256 := fun _ => String.ofList (List.replicate 64 '0')
  residency := fun bytes => NativePayloadResidency.checked bytes [{ id := 7, residentBytes := 5 }]

def smallStore : NativeHandleStore Nat Nat :=
  { identity := { storeId := ⟨1⟩, generationId := ⟨2⟩ }
    nextGeneration := 1
    data := .empty
    capacity := 4
    byteCapacity := 100 }

def firstHandle : NativeOpaqueHandle :=
  { schemaVersion := nativeOpaqueHandleSchemaVersion
    handleType := { kind := .tensor, typeId := "TENSOR" }
    storeIdentity := smallStore.identity
    identifier := handleIdentifier 1
    generation := 1
    digestSha256 := some (String.ofList (List.replicate 64 '0')) }

/-- The attempt publishes a payload, resolves it, revokes it, and then drops what it
resolved. -/
def revokedWhileResolved : List (HandleAction Nat) :=
  [.session ⟨⟨1⟩⟩, .publish 0 10 false, .finishPublish 0 false,
    .resolve 0 firstHandle firstHandle.handleType false, .revoke 0 firstHandle false,
    .dropResolved 0]

theorem withCapacities_smallStore :
    NativeHandleStore.withCapacities smallStore.identity 4 100 = .ok smallStore := rfl

theorem exists_run_revokedWhileResolved (debugAssertions : Bool) (P : HandleSystem Nat Nat → Bool)
    (h : ((HandleSystem.opened smallStore).performAll sharingMethods debugAssertions
      revokedWhileResolved).any P) :
    ∃ past s, HandleRun sharingMethods debugAssertions (.opened smallStore) past s ∧ P s := by
  obtain ⟨s, hs, hP⟩ := (Option.any_eq_true _ _).mp h
  obtain ⟨past, hrun⟩ := HandleRun.start.of_performAll hs
  exact ⟨past, s, hrun, hP⟩

theorem revoked_handle_accounted :
    ∃ past s, HandleRun sharingMethods true (.opened smallStore) past s ∧
      s.store.data.values.isEmpty ∧ s.Accounted ∧
      ((∀ t ∈ s :: past.map Prod.fst, t.Reclaimed) ↔
        true ∨ ∀ step ∈ past, ¬ step.1.DropsLast step.2) := by
  obtain ⟨past, s, hrun, hempty⟩ := exists_run_revokedWhileResolved true
    (fun s => s.store.data.values.isEmpty) (by decide +kernel)
  exact ⟨past, s, hrun, hempty, hrun.accounting withCapacities_smallStore⟩

/-- Without debug assertions the revoked handle stays in the store for good, with nothing
holding it. -/
theorem revoked_handle_lingers :
    ¬ ∀ (debugAssertions : Bool) (past : List (HandleSystem Nat Nat × HandleAction Nat))
      (s : HandleSystem Nat Nat),
      HandleRun sharingMethods debugAssertions (.opened smallStore) past s →
        s.Accounted ∧ s.Reclaimed := by
  intro hall
  obtain ⟨past, s, hrun, hlingers⟩ := exists_run_revokedWhileResolved false
    (fun s => s.store.data.values[handleIdentifier 1]?.any
      fun record : StoredNativeHandle Nat Nat => decide record.Lingers)
    (by decide +kernel)
  obtain ⟨record, hrecord, hlinger⟩ := (Option.any_eq_true _ _).mp hlingers
  exact (hall false past s hrun).2 _ record hrecord (of_decide_eq_true hlinger)

end XorEditor.Comfy
