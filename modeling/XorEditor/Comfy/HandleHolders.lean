import XorEditor.Comfy.HandleAccounts

/-!
# Leases and resolved payloads of the handle store

A lease is the list of the handles it holds, a resolved payload the handle it was resolved
from.  The counters of a record are compared with the leases and resolved payloads that
are alive.  Every critical section keeps them equal; what differs between the sections is
how a record that nothing holds any more is taken away.

* `Counted`: the counters of a record are right
* `LingersOnly`: what may be left in the store
* `HeldLast`: a handle that is held once more
-/

namespace XorEditor.Comfy

open Std (ExtTreeMap TransOrd LawfulEqOrd)
open Lib MapEntries List

variable {Payload ι : Type} {next : Nat} {leases leases' : List (List NativeOpaqueHandle)}
  {resolved resolved' lease : List NativeOpaqueHandle} {handle : NativeOpaqueHandle}
  {record record' : StoredNativeHandle Payload ι} {identifiers : List String}

def leaseHolds (identifier : String) (lease : List NativeOpaqueHandle) : Bool :=
  lease.any (·.identifier == identifier)

/-- Two records are of one published handle: only counters and flags differ. -/
structure StoredNativeHandle.SameHandle (record' record : StoredNativeHandle Payload ι) : Prop where
  generation : record'.generation = record.generation
  handleType : record'.handleType = record.handleType
  digest : record'.digestSha256 = record.digestSha256
  residency : record'.residency = record.residency

/-- A retired handle that nothing holds. -/
def StoredNativeHandle.Lingers (record : StoredNativeHandle Payload ι) : Prop :=
  record.retired ∧ record.roots = 0 ∧ record.resolvedRoots = 0

instance (record : StoredNativeHandle Payload ι) : Decidable record.Lingers := by
  unfold StoredNativeHandle.Lingers
  infer_instance

/-- The lease can be released: its handles are different and stored. -/
structure Leased (values : ExtTreeMap String (StoredNativeHandle Payload ι))
    (lease : List NativeOpaqueHandle) : Prop where
  distinct : (lease.map (·.identifier)).Nodup
  stored : ∀ handle ∈ lease, ∃ record,
    values[handle.identifier]? = some record ∧ record.generation = handle.generation

/-- The counters of the records are the numbers of leases and of resolved payloads; the
identifiers have been given out below `next`. -/
structure Counted (values : ExtTreeMap String (StoredNativeHandle Payload ι)) (next : Nat)
    (leases : List (List NativeOpaqueHandle)) (resolved : List NativeOpaqueHandle) : Prop where
  roots : ∀ identifier record, values[identifier]? = some record →
    record.roots = leases.countP (leaseHolds identifier)
  resolvedRoots : ∀ identifier record, values[identifier]? = some record →
    record.resolvedRoots = resolved.countP (·.identifier == identifier)
  committed : ∀ (identifier : String) (record : StoredNativeHandle Payload ι),
    values[identifier]? = some record → 0 < record.roots → record.committed
  leased : ∀ lease ∈ leases, Leased values lease
  retained : ∀ handle ∈ resolved, ∃ record, values[handle.identifier]? = some record ∧
    NativeHandleStoreData.Answers record handle
  numbered : ∀ (identifier : String) (record : StoredNativeHandle Payload ι),
    values[identifier]? = some record →
      identifier = handleIdentifier record.generation ∧ record.generation < next

/-- Only the identifiers in the list may belong to retired handles that nothing holds. -/
def LingersOnly (values : ExtTreeMap String (StoredNativeHandle Payload ι))
    (identifiers : List String) : Prop :=
  ∀ identifier record, values[identifier]? = some record → record.Lingers → identifier ∈ identifiers

section Values

variable {values : ExtTreeMap String (StoredNativeHandle Payload ι)} {other identifier : String}
  {P : String → StoredNativeHandle Payload ι → Prop}

theorem getElem?_erase_of_ne (h : other ≠ identifier) :
    (values.erase identifier)[other]? = values[other]? := by
  rw [ExtTreeMap.getElem?_erase, if_neg fun heq => h (LawfulEqOrd.eq_of_compare heq).symm]

/-- A property of all records, after one of them has changed. -/
theorem forall_insert (hnew : P identifier record)
    (hothers : ∀ other r, other ≠ identifier → values[other]? = some r → P other r) :
    ∀ other r, (values.insert identifier record)[other]? = some r → P other r := by
  intro other r h
  obtain ⟨rfl, rfl⟩ | ⟨hne, h⟩ := of_getElem?_insert h
  · exact hnew
  · exact hothers other r hne h

theorem forall_erase
    (hothers : ∀ other r, other ≠ identifier → values[other]? = some r → P other r) :
    ∀ other r, (values.erase identifier)[other]? = some r → P other r := by
  intro other r h
  obtain ⟨hne, h⟩ := of_getElem?_erase h
  exact hothers other r hne h

/-- A handle keeps its record when one record changes its counters or flags. -/
theorem exists_insert {P : StoredNativeHandle Payload ι → Prop}
    (hrecord : values[identifier]? = some record) (hkeeps : P record → P record')
    (h : ∃ r, values[other]? = some r ∧ P r) :
    ∃ r, (values.insert identifier record')[other]? = some r ∧ P r := by
  obtain ⟨r, hr, hP⟩ := h
  by_cases hother : other = identifier
  · subst hother
    rw [hrecord] at hr
    cases hr
    exact ⟨record', ExtTreeMap.getElem?_insert_self, hkeeps hP⟩
  · exact ⟨r, (getElem?_insert_of_ne _ _ hother).trans hr, hP⟩

theorem Leased.insert (h : Leased values lease) (hrecord : values[identifier]? = some record)
    (hsame : record'.SameHandle record) : Leased (values.insert identifier record') lease where
  distinct := h.distinct
  stored := fun handle hmem =>
    exists_insert hrecord (fun hgen => hsame.generation.trans hgen) (h.stored handle hmem)

section Change

variable (h : Counted values next leases resolved)
include h

/-- A record comes that nothing holds yet. -/
theorem Counted.insert (hfresh : values[identifier]? = none) (hroots : record.roots = 0)
    (hresolved : record.resolvedRoots = 0)
    (hnumber : identifier = handleIdentifier record.generation ∧ record.generation < next) :
    Counted (values.insert identifier record) next leases resolved := by
  have hne : ∀ handle : NativeOpaqueHandle, ∀ P : StoredNativeHandle Payload ι → Prop,
      (∃ r, values[handle.identifier]? = some r ∧ P r) → handle.identifier ≠ identifier := by
    rintro handle P ⟨r, hr, -⟩ heq
    rw [heq, hfresh] at hr
    cases hr
  refine ⟨?_, ?_, ?_, ?_, ?_, forall_insert hnumber fun other r _ => h.numbered other r⟩
  · refine forall_insert ?_ fun other r _ => h.roots other r
    rw [hroots, eq_comm, countP_eq_zero]
    intro lease hlease hholds
    obtain ⟨handle, hmem, heq⟩ := any_eq_true.mp hholds
    exact hne handle _ ((h.leased lease hlease).stored handle hmem) (beq_iff_eq.mp heq)
  · refine forall_insert ?_ fun other r _ => h.resolvedRoots other r
    rw [hresolved, eq_comm, countP_eq_zero]
    intro handle hmem heq
    exact hne handle _ (h.retained handle hmem) (beq_iff_eq.mp heq)
  · exact forall_insert (fun hpos => by omega) fun other r _ => h.committed other r
  · intro lease hlease
    refine ⟨(h.leased lease hlease).distinct, fun handle hmem => ?_⟩
    have hstored := (h.leased lease hlease).stored handle hmem
    rw [getElem?_insert_of_ne _ _ (hne handle _ hstored)]
    exact hstored
  · intro handle hmem
    have hstored := h.retained handle hmem
    rw [getElem?_insert_of_ne _ _ (hne handle _ hstored)]
    exact hstored

variable (hrecord : values[identifier]? = some record)
include hrecord

/-- One record changes, with the leases and resolved payloads that hold it. -/
theorem Counted.update (hsame : record'.SameHandle record)
    (hroots : record'.roots = leases'.countP (leaseHolds identifier))
    (hresolved : record'.resolvedRoots = resolved'.countP (·.identifier == identifier))
    (hcommitted : 0 < record'.roots → record'.committed) (hleases : ∀ other, other ≠ identifier →
      leases'.countP (leaseHolds other) = leases.countP (leaseHolds other))
    (hpayloads : ∀ other, other ≠ identifier →
      resolved'.countP (·.identifier == other) = resolved.countP (·.identifier == other))
    (hleased : ∀ lease ∈ leases', Leased values lease)
    (hretained : ∀ handle ∈ resolved', ∃ r, values[handle.identifier]? = some r ∧
      NativeHandleStoreData.Answers r handle) :
    Counted (values.insert identifier record') next leases' resolved' where
  roots := forall_insert hroots fun other r hne hr => (hleases other hne).symm ▸ h.roots other r hr
  resolvedRoots := forall_insert hresolved fun other r hne hr =>
    (hpayloads other hne).symm ▸ h.resolvedRoots other r hr
  committed := forall_insert hcommitted fun other r _ => h.committed other r
  leased := fun lease hmem => (hleased lease hmem).insert hrecord hsame
  retained := fun handle hmem => exists_insert hrecord
    (fun hanswers => by
      unfold NativeHandleStoreData.Answers at hanswers ⊢
      rwa [hsame.generation, hsame.handleType, hsame.digest])
    (hretained handle hmem)
  numbered := forall_insert (hsame.generation.symm ▸ h.numbered _ _ hrecord)
    fun other r _ => h.numbered other r

/-- The flags of a record change, and nothing that is counted. -/
theorem Counted.putFlags (hsame : record'.SameHandle record) (hroots : record'.roots = record.roots)
    (hresolved : record'.resolvedRoots = record.resolvedRoots)
    (hcommitted : record.committed → record'.committed) :
    Counted (values.insert identifier record') next leases resolved :=
  h.update hrecord hsame (hroots.trans (h.roots _ _ hrecord))
    (hresolved.trans (h.resolvedRoots _ _ hrecord))
    (fun hpos => hcommitted (h.committed _ _ hrecord (hroots ▸ hpos)))
    (fun _ _ => rfl) (fun _ _ => rfl) h.leased h.retained

theorem Counted.not_leased (hroots : record.roots = 0) (hlease : lease ∈ leases) :
    ∀ handle ∈ lease, handle.identifier ≠ identifier := by
  intro handle hmem heq
  have hcount := h.roots _ _ hrecord
  rw [hroots, eq_comm, countP_eq_zero] at hcount
  apply hcount lease hlease
  exact any_eq_true.mpr ⟨handle, hmem, beq_iff_eq.mpr heq⟩

theorem Counted.not_resolved (hresolved : record.resolvedRoots = 0) :
    ∀ handle ∈ resolved, handle.identifier ≠ identifier := by
  intro handle hmem heq
  have hcount := h.resolvedRoots _ _ hrecord
  rw [hresolved, eq_comm, countP_eq_zero] at hcount
  exact hcount handle hmem (beq_iff_eq.mpr heq)

/-- A record that nothing holds goes. -/
theorem Counted.erase (hroots : record.roots = 0) (hresolved : record.resolvedRoots = 0) :
    Counted (values.erase identifier) next leases resolved where
  roots := forall_erase fun other r _ => h.roots other r
  resolvedRoots := forall_erase fun other r _ => h.resolvedRoots other r
  committed := forall_erase fun other r _ => h.committed other r
  leased := by
    intro lease hlease
    refine ⟨(h.leased lease hlease).distinct, fun handle hmem => ?_⟩
    rw [getElem?_erase_of_ne (h.not_leased hrecord hroots hlease handle hmem)]
    exact (h.leased lease hlease).stored handle hmem
  retained := by
    intro handle hmem
    rw [getElem?_erase_of_ne (h.not_resolved hrecord hresolved handle hmem)]
    exact h.retained handle hmem
  numbered := forall_erase fun other r _ => h.numbered other r

end Change

theorem LingersOnly.mono (h : LingersOnly values []) : LingersOnly values identifiers :=
  fun identifier record hrecord hlingers =>
    absurd (h identifier record hrecord hlingers) not_mem_nil

/-- Other leases that hold the same handles. -/
theorem Counted.of_leases (h : Counted values next leases resolved)
    (hcount : ∀ identifier, leases.countP (leaseHolds identifier) =
      leases'.countP (leaseHolds identifier))
    (hleased : ∀ lease ∈ leases', Leased values lease) : Counted values next leases' resolved :=
  { h with
    roots := fun identifier record hrecord =>
      (h.roots identifier record hrecord).trans (hcount identifier)
    leased := hleased }

theorem counted_nil_lease :
    Counted values next ([] :: leases) resolved ↔ Counted values next leases resolved := by
  have hcount : ∀ identifier, ([] :: leases).countP (leaseHolds identifier) =
      leases.countP (leaseHolds identifier) := fun identifier => by
    rw [countP_cons_of_neg]
    simp [leaseHolds]
  refine ⟨fun h => h.of_leases hcount (forall_mem_cons.mp h.leased).2, fun h =>
    h.of_leases (fun identifier => (hcount identifier).symm) (forall_mem_cons.mpr ⟨?_, h.leased⟩)⟩
  exact ⟨nodup_nil, by simp⟩

theorem countP_leaseHolds_cons_of_ne (h : identifier ≠ handle.identifier)
    (lease : List NativeOpaqueHandle) :
    ((handle :: lease) :: leases).countP (leaseHolds identifier) =
      (lease :: leases).countP (leaseHolds identifier) := by
  simp [countP_cons, leaseHolds, h.symm]

/-- With its last handle gone, a lease no longer counts for it. -/
theorem countP_leaseHolds_cons_self (hdistinct : ((handle :: lease).map (·.identifier)).Nodup)
    (leases : List (List NativeOpaqueHandle)) :
    ((handle :: lease) :: leases).countP (leaseHolds handle.identifier) =
        leases.countP (leaseHolds handle.identifier) + 1 ∧
      (lease :: leases).countP (leaseHolds handle.identifier) =
        leases.countP (leaseHolds handle.identifier) := by
  rw [map_cons, nodup_cons] at hdistinct
  constructor
  · rw [countP_cons_of_pos]
    simp [leaseHolds]
  · rw [countP_cons_of_neg]
    simp only [leaseHolds, any_eq_true, beq_iff_eq, not_exists, not_and]
    intro other hmem heq
    exact hdistinct.1 (heq ▸ mem_map_of_mem hmem)

/-- The order of the leases, and of the resolved payloads, does not matter. -/
theorem Counted.perm (h : Counted values next leases resolved) (hleases : leases.Perm leases')
    (hresolved : resolved.Perm resolved') : Counted values next leases' resolved' :=
  { h.of_leases (fun _ => hleases.countP_eq _) fun lease hmem =>
      h.leased lease (hleases.mem_iff.mpr hmem) with
    resolvedRoots := fun identifier record hrecord =>
      (h.resolvedRoots identifier record hrecord).trans (hresolved.countP_eq _)
    retained := fun handle hmem => h.retained handle (hresolved.mem_iff.mpr hmem) }

theorem Counted.mono {next' : Nat} (h : Counted values next leases resolved) (hle : next ≤ next') :
    Counted values next' leases resolved :=
  { h with
    numbered := fun identifier record hrecord =>
      ⟨(h.numbered identifier record hrecord).1,
        (h.numbered identifier record hrecord).2.trans_le hle⟩ }

/-- The order of the handles of a lease does not matter either. -/
theorem Counted.lease_perm {lease' : List NativeOpaqueHandle}
    (h : Counted values next (lease :: leases) resolved) (hperm : lease.Perm lease') :
    Counted values next (lease' :: leases) resolved := by
  have hholds : ∀ identifier, leaseHolds identifier lease = leaseHolds identifier lease' :=
    fun identifier => hperm.any_eq
  obtain ⟨hlease, hothers⟩ := forall_mem_cons.mp h.leased
  refine h.of_leases (fun identifier => ?_) (forall_mem_cons.mpr ⟨?_, hothers⟩)
  · rw [countP_cons, countP_cons, hholds]
  · exact ⟨(hperm.map _).nodup_iff.mp hlease.distinct,
      fun handle hmem => hlease.stored handle (hperm.mem_iff.mpr hmem)⟩

end Values

namespace NativeHandleStoreData

variable [Ord ι] [TransOrd ι] [DecidableEq ι]

/-- The accounts and the counters are right. -/
structure Sound (data : NativeHandleStoreData Payload ι) (next : Nat)
    (leases : List (List NativeOpaqueHandle)) (resolved : List NativeOpaqueHandle) : Prop where
  balanced : data.Balanced
  counted : Counted data.values next leases resolved

variable {data : NativeHandleStoreData Payload ι}

/-- With nothing held or let go, the accounts stay right and no handle is left lingering. -/
def Kept (next : Nat) (leases : List (List NativeOpaqueHandle)) (resolved : List NativeOpaqueHandle)
    (data data' : NativeHandleStoreData Payload ι) : Prop :=
  data'.Sound next leases resolved ∧ (LingersOnly data.values [] → LingersOnly data'.values [])

theorem Sound.kept_foldl {step : NativeHandleStoreData Payload ι → String →
      NativeHandleStoreData Payload ι}
    (hstep : ∀ {data}, data.Sound next leases resolved → ∀ identifier,
      Kept next leases resolved data (step data identifier))
    (h : data.Sound next leases resolved) (identifiers : List String) :
    Kept next leases resolved data (identifiers.foldl step data) := by
  induction identifiers generalizing data with
  | nil => exact ⟨h, id⟩
  | cons identifier identifiers ih =>
    obtain ⟨hsound, hlingers⟩ := hstep h identifier
    obtain ⟨hrest, hrestLingers⟩ := ih hsound
    exact ⟨hrest, fun hstart => hrestLingers (hlingers hstart)⟩

theorem Sound.commitHandle (attemptId : AttemptId) (h : data.Sound next leases resolved)
    (identifier : String) :
    Kept next leases resolved data (commitHandle attemptId data identifier) := by
  unfold NativeHandleStoreData.commitHandle
  cases hrecord : data.values[identifier]? with
  | none => exact ⟨h, id⟩
  | some record =>
    dsimp only
    split_ifs
    · refine ⟨⟨h.balanced.putRecord hrecord rfl,
        h.counted.putFlags hrecord ⟨rfl, rfl, rfl, rfl⟩ rfl rfl fun _ => rfl⟩, fun hlingers => ?_⟩
      exact forall_insert (fun h => hlingers identifier record hrecord h)
        fun other r _ => hlingers other r
    · exact ⟨h, id⟩

/-! ### Releasing a lease

The handles of the lease are released one after the other; in between, the lease holds
those that are left. -/

/-- One round of the loop that releases a lease. -/
theorem Sound.releaseRoot (h : data.Sound next ((handle :: lease) :: leases) resolved)
    (removals : List String) :
    (releaseRoot (data, removals) handle).1.Sound next (lease :: leases) resolved ∧
      (LingersOnly data.values removals → LingersOnly (releaseRoot (data, removals) handle).1.values
          (releaseRoot (data, removals) handle).2) := by
  have hlease := h.counted.leased _ mem_cons_self
  obtain ⟨record, hrecord, hgeneration⟩ := hlease.stored handle mem_cons_self
  obtain ⟨hwith, hwithout⟩ := countP_leaseHolds_cons_self hlease.distinct leases
  have hroots := h.counted.roots _ _ hrecord
  have hresolved := h.counted.resolvedRoots _ _ hrecord
  rw [hwith] at hroots
  have hcommitted := h.counted.committed _ _ hrecord (by omega)
  unfold NativeHandleStoreData.releaseRoot
  dsimp only
  rw [hrecord]
  dsimp only
  rw [if_pos ⟨hgeneration, by omega⟩]
  dsimp only
  constructor
  · refine ⟨h.balanced.putRecord hrecord rfl, ?_⟩
    refine h.counted.update hrecord ⟨rfl, rfl, rfl, rfl⟩ ?_ hresolved
      (fun _ => hcommitted) ?_ (fun _ _ => rfl) ?_ h.counted.retained
    · rw [hwithout, hroots, Nat.add_sub_cancel]
    · exact fun other hne => (countP_leaseHolds_cons_of_ne hne lease).symm
    · have hrest := fun other hmem => h.counted.leased other (mem_cons_of_mem _ hmem)
      rw [forall_mem_cons]
      exact ⟨⟨(nodup_cons.mp hlease.distinct).2,
        fun other hmem => hlease.stored other (mem_cons_of_mem _ hmem)⟩, hrest⟩
  · intro hlingers
    refine forall_insert (fun hzero => ?_) fun other r _ hr hl => ?_
    · rw [if_pos ⟨hzero.2.1, hcommitted⟩]
      exact mem_append_right _ mem_cons_self
    · have hmem := hlingers other r hr hl
      split_ifs
      · exact mem_append_left _ hmem
      · exact hmem

theorem Sound.foldl_releaseRoot (h : data.Sound next (lease :: leases) resolved)
    (removals : List String) :
    (lease.foldl NativeHandleStoreData.releaseRoot (data, removals)).1.Sound next leases resolved ∧
      (LingersOnly data.values removals →
        LingersOnly (lease.foldl NativeHandleStoreData.releaseRoot (data, removals)).1.values
          (lease.foldl NativeHandleStoreData.releaseRoot (data, removals)).2) := by
  induction lease generalizing data removals with
  | nil => exact ⟨⟨h.balanced, counted_nil_lease.mp h.counted⟩, id⟩
  | cons handle lease ih =>
    obtain ⟨hsound, hlingers⟩ := h.releaseRoot removals
    obtain ⟨hrest, hrestLingers⟩ := ih hsound _
    exact ⟨hrest, fun hstart => hrestLingers (hlingers hstart)⟩

/-! ### Acquiring a lease -/

/-- One round of the loop that acquires a lease. -/
theorem Sound.addRoot (h : data.Sound next (lease :: leases) resolved)
    (hdistinct : ((handle :: lease).map (·.identifier)).Nodup)
    (hrecord : data.values[handle.identifier]? = some record) (hcommitted : record.committed)
    (hgeneration : record.generation = handle.generation) :
    (data.addRoot handle).Sound next ((handle :: lease) :: leases) resolved := by
  obtain ⟨hwith, hwithout⟩ := countP_leaseHolds_cons_self hdistinct leases
  have hroots := h.counted.roots _ _ hrecord
  have hresolved := h.counted.resolvedRoots _ _ hrecord
  unfold NativeHandleStoreData.addRoot
  rw [hrecord]
  refine ⟨h.balanced.putRecord hrecord rfl, ?_⟩
  refine h.counted.update hrecord ⟨rfl, rfl, rfl, rfl⟩ ?_ hresolved
    (fun _ => hcommitted) ?_ (fun _ _ => rfl) ?_ h.counted.retained
  · rw [hwith, hroots, hwithout]
  · exact fun other hne => countP_leaseHolds_cons_of_ne hne lease
  · rw [forall_mem_cons]
    refine ⟨⟨hdistinct, ?_⟩, fun other hmem => h.counted.leased other (mem_cons_of_mem _ hmem)⟩
    rw [forall_mem_cons]
    exact ⟨⟨record, hrecord, hgeneration⟩, (h.counted.leased _ mem_cons_self).stored⟩

/-- The records a lease may be acquired on. -/
def Leasable (data : NativeHandleStoreData Payload ι) (handle : NativeOpaqueHandle) : Prop :=
  ∃ record, data.values[handle.identifier]? = some record ∧ record.committed ∧
    record.generation = handle.generation

theorem Sound.foldl_addRoot {todo done : List NativeOpaqueHandle}
    (h : data.Sound next (done :: leases) resolved)
    (hdistinct : ((todo ++ done).map (·.identifier)).Nodup)
    (hleasable : ∀ handle ∈ todo, data.Leasable handle) :
    Kept next ((todo ++ done) :: leases) resolved data
      (todo.foldl NativeHandleStoreData.addRoot data) := by
  induction todo generalizing data done with
  | nil => exact ⟨h, id⟩
  | cons handle todo ih =>
    obtain ⟨record, hrecord, hcommitted, hgeneration⟩ := hleasable handle mem_cons_self
    have hperm : (handle :: todo ++ done).Perm (todo ++ handle :: done) := perm_middle.symm
    have hdistinct' := (hperm.map (·.identifier)).nodup_iff.mp hdistinct
    have hhead : ((handle :: done).map (·.identifier)).Nodup := by
      rw [map_append] at hdistinct'
      exact (nodup_append.mp hdistinct').2.1
    have hne : ∀ other ∈ todo, other.identifier ≠ handle.identifier := by
      intro other hmem heq
      rw [cons_append, map_cons, nodup_cons] at hdistinct
      exact hdistinct.1 (heq ▸ mem_map_of_mem (mem_append_left _ hmem))
    have hvalues : (data.addRoot handle).values = data.values.insert handle.identifier
        { record with roots := record.roots + 1 } := by
      unfold NativeHandleStoreData.addRoot
      rw [hrecord]
      rfl
    have htodo : ∀ other ∈ todo, (data.addRoot handle).Leasable other := by
      intro other hmem
      unfold Leasable
      rw [hvalues, getElem?_insert_of_ne _ _ (hne other hmem)]
      exact hleasable other (mem_cons_of_mem _ hmem)
    have hkept : LingersOnly data.values [] → LingersOnly (data.addRoot handle).values [] := by
      intro hlingers
      rw [hvalues]
      refine forall_insert (fun hzero => ?_) fun other r _ => hlingers other r
      exact absurd hzero.2.1 (Nat.succ_ne_zero _)
    obtain ⟨hsound, hlast⟩ := ih (h.addRoot hhead hrecord hcommitted hgeneration) hdistinct' htodo
    exact ⟨⟨hsound.balanced, hsound.counted.lease_perm hperm.symm⟩,
      fun hlingers => hlast (hkept hlingers)⟩

/-! ### Resolving -/

theorem Sound.addResolvedRoot (h : data.Sound next leases resolved)
    (hrecord : data.values[handle.identifier]? = some record) (hanswers : Answers record handle) :
    (data.putRecord handle.identifier
      { record with resolvedRoots := record.resolvedRoots + 1 }).Sound next leases
        (handle :: resolved) := by
  have hroots := h.counted.roots _ _ hrecord
  have hresolved := h.counted.resolvedRoots _ _ hrecord
  have hcommitted := h.counted.committed _ _ hrecord
  refine ⟨h.balanced.putRecord hrecord rfl, ?_⟩
  refine h.counted.update hrecord ⟨rfl, rfl, rfl, rfl⟩ hroots ?_ hcommitted (fun _ _ => rfl) ?_
    h.counted.leased ?_
  · rw [countP_cons_of_pos (by simp), hresolved]
  · intro other hne
    rw [countP_cons_of_neg]
    simpa using hne.symm
  · rw [forall_mem_cons]
    exact ⟨⟨record, hrecord, hanswers⟩, h.counted.retained⟩

theorem Sound.dropResolvedRoot (h : data.Sound next leases (handle :: resolved))
    (hrecord : data.values[handle.identifier]? = some record) : (data.putRecord handle.identifier
      { record with resolvedRoots := record.resolvedRoots - 1 }).Sound next leases resolved := by
  have hroots := h.counted.roots _ _ hrecord
  have hresolved := h.counted.resolvedRoots _ _ hrecord
  have hcommitted := h.counted.committed _ _ hrecord
  rw [countP_cons_of_pos (by simp)] at hresolved
  refine ⟨h.balanced.putRecord hrecord rfl, ?_⟩
  refine h.counted.update hrecord ⟨rfl, rfl, rfl, rfl⟩ hroots ?_ hcommitted (fun _ _ => rfl) ?_
    h.counted.leased ?_
  · rw [hresolved, Nat.add_sub_cancel]
  · intro other hne
    rw [countP_cons_of_neg]
    simpa using hne.symm
  · exact fun other hmem => h.counted.retained other (mem_cons_of_mem _ hmem)

variable [LawfulEqOrd ι]

/-! ### Retiring -/

theorem Sound.retireStoredHandle (h : data.Sound next leases resolved) (identifier : String) :
    (data.retireStoredHandle identifier).2.Sound next leases resolved := by
  cases hrecord : data.values[identifier]? with
  | none =>
    rw [retireStoredHandle_of_none hrecord]
    exact h
  | some record =>
    obtain ⟨retired, hretire, hbalanced, hvalues⟩ := h.balanced.retireStoredHandle hrecord
    rw [hretire]
    refine ⟨hbalanced, ?_⟩
    dsimp only
    rw [hvalues]
    split_ifs with hfree
    · exact h.counted.erase hrecord hfree.1 hfree.2
    · exact h.counted.putFlags hrecord ⟨rfl, rfl, rfl, rfl⟩ rfl rfl id

/-- A handle does not linger once it has been retired. -/
theorem lingersOnly_retireStoredHandle {identifier : String} (hbalanced : data.Balanced)
    (h : LingersOnly data.values (identifier :: identifiers)) :
    LingersOnly (data.retireStoredHandle identifier).2.values identifiers := by
  have hothers : ∀ other r, other ≠ identifier → data.values[other]? = some r → r.Lingers →
      other ∈ identifiers := by
    intro other r hne hr hlingers
    exact (mem_cons.mp (h other r hr hlingers)).resolve_left hne
  cases hrecord : data.values[identifier]? with
  | none =>
    rw [retireStoredHandle_of_none hrecord]
    intro other r hr hlingers
    refine hothers other r (fun heq => ?_) hr hlingers
    rw [heq, hrecord] at hr
    cases hr
  | some record =>
    obtain ⟨retired, hretire, -, hvalues⟩ := hbalanced.retireStoredHandle hrecord
    rw [hretire]
    dsimp only
    rw [hvalues]
    split_ifs with hfree
    · exact forall_erase hothers
    · exact forall_insert (fun hlingers => absurd hlingers.2 hfree) hothers

section

variable (h : data.Sound next leases resolved)
include h

theorem Sound.kept_retireStoredHandle (identifier : String) :
    Kept next leases resolved data (data.retireStoredHandle identifier).2 :=
  ⟨h.retireStoredHandle identifier, fun hlingers =>
    lingersOnly_retireStoredHandle h.balanced hlingers.mono⟩

theorem Sound.retireAll (identifiers : List String) :
    (data.retireAll identifiers).Sound next leases resolved ∧
      (LingersOnly data.values identifiers →
        LingersOnly (data.retireAll identifiers).values []) := by
  induction identifiers generalizing data with
  | nil => exact ⟨h, id⟩
  | cons identifier identifiers ih =>
    obtain ⟨hsound, hlingers⟩ := ih (h.retireStoredHandle identifier)
    exact ⟨hsound, fun hstart => hlingers (lingersOnly_retireStoredHandle h.balanced hstart)⟩

/-! ### The loops of a session that ends -/

theorem Sound.rollbackHandle (attemptId : AttemptId) (identifier : String) :
    Kept next leases resolved data (rollbackHandle attemptId data identifier) := by
  unfold NativeHandleStoreData.rollbackHandle
  split
  · exact h.kept_retireStoredHandle identifier
  · exact ⟨h, id⟩

end

theorem Sound.releaseRoots (h : data.Sound next (lease :: leases) resolved) :
    Kept next leases resolved data (data.releaseRoots lease) := by
  obtain ⟨hreleased, hlingers⟩ := h.foldl_releaseRoot []
  obtain ⟨hsound, hretired⟩ := hreleased.retireAll _
  exact ⟨hsound, fun hstart => hretired (hlingers hstart)⟩

/-! ### Dropping a resolved payload -/

/-- The resolved payload is the last that holds a retired handle. -/
def HeldLast (data : NativeHandleStoreData Payload ι) (handle : NativeOpaqueHandle) : Prop :=
  ∃ record, data.values[handle.identifier]? = some record ∧ record.retired ∧ record.roots = 0 ∧
    record.resolvedRoots = 1

/-- The drop of a resolved payload.  Without debug assertions the last drop leaves the
retired handle where it is. -/
theorem Sound.releaseResolvedRoot (debugAssertions : Bool)
    (h : data.Sound next leases (handle :: resolved)) :
    (data.releaseResolvedRoot debugAssertions handle).Sound next leases resolved ∧
      (LingersOnly data.values [] →
        (LingersOnly (data.releaseResolvedRoot debugAssertions handle).values [] ↔
          debugAssertions ∨ ¬ data.HeldLast handle)) := by
  obtain ⟨record, hrecord, hanswers⟩ := h.counted.retained handle mem_cons_self
  have hdropped := h.dropResolvedRoot hrecord
  have hresolved := h.counted.resolvedRoots _ _ hrecord
  rw [countP_cons_of_pos (by simp)] at hresolved
  have hnew : (data.putRecord handle.identifier { record with
      resolvedRoots := record.resolvedRoots - 1 }).values[handle.identifier]? =
        some { record with resolvedRoots := record.resolvedRoots - 1 } :=
    ExtTreeMap.getElem?_insert_self
  have hlast : data.HeldLast handle ↔
      record.retired ∧ record.roots = 0 ∧ record.resolvedRoots - 1 = 0 := by
    have hone : record.resolvedRoots = 1 ↔ record.resolvedRoots - 1 = 0 := by omega
    simp [HeldLast, hrecord, hone]
  unfold NativeHandleStoreData.releaseResolvedRoot
  rw [hrecord]
  dsimp only
  rw [if_neg (by rw [not_or, not_not]; exact ⟨hanswers, by omega⟩)]
  by_cases hgone : record.retired ∧ record.roots = 0 ∧ record.resolvedRoots - 1 = 0 ∧
      debugAssertions
  · obtain ⟨hretired, hroots, hzero, hdebug⟩ := hgone
    obtain ⟨removed, hremove, hvalues, hbalanced⟩ := hdropped.balanced.removeStoredHandle hnew
    rw [if_pos ⟨hretired, hroots, hzero, hdebug⟩, hremove]
    have hcounted := hdropped.counted.erase hnew hroots hzero
    rw [← hvalues] at hcounted
    refine ⟨⟨hbalanced, hcounted⟩, fun hlingers => iff_of_true ?_ (Or.inl hdebug)⟩
    dsimp only
    rw [hvalues]
    refine forall_erase fun other r hne hr => hlingers other r ?_
    rwa [putRecord, getElem?_insert_of_ne _ _ hne] at hr
  · rw [if_neg hgone]
    refine ⟨hdropped, fun hlingers => ?_⟩
    have hstays : LingersOnly (data.putRecord handle.identifier
        { record with resolvedRoots := record.resolvedRoots - 1 }).values [] ↔
          ¬ data.HeldLast handle := by
      rw [hlast]
      constructor
      · intro hnone hheld
        exact absurd (hnone _ _ hnew hheld) not_mem_nil
      · intro hheld
        exact forall_insert (fun hzero => absurd hzero hheld)
          fun other r _ => hlingers other r
    rw [hstays, or_iff_right_of_imp]
    rw [hlast]
    exact fun hdebug hheld => hgone ⟨hheld.1, hheld.2.1, hheld.2.2, hdebug⟩

end NativeHandleStoreData

end XorEditor.Comfy
