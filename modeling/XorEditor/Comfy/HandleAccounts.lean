import XorEditor.Comfy.HandleStore
import XorEditor.Lib.MapEntries
import XorEditor.Lib.RefCount

/-!
# The byte accounts of the handle store

The allocations map of the store is a table of reference counts for the allocations that
the stored handles name, and `residentBytes` is their footprint together with the bytes of
the handles' own.  Removing, retiring and inserting a handle keep the accounts, and under
them a removal cannot fail.

* `Balanced`: the accounts are right
* `tableOf`: the table of reference counts
-/

namespace XorEditor.Comfy

open Std (ExtTreeMap TransOrd LawfulEqOrd)
open Lib MapEntries RefCount List

variable {Payload ι : Type}

def NativeResidentAllocation.resource (allocation : NativeResidentAllocation ι) : ι × Nat :=
  (allocation.id, allocation.residentBytes)

variable (residency : NativePayloadResidency ι)

def NativePayloadResidency.resources : List (ι × Nat) :=
  residency.sharedAllocations.map NativeResidentAllocation.resource

/-- The shared allocations that the stored handles name. -/
def namedAllocations (values : ExtTreeMap String (StoredNativeHandle Payload ι)) : List (ι × Nat) :=
  values.toList.flatMap fun entry => entry.2.residency.resources

/-- The bytes that belong to one stored handle only. -/
def exclusiveBytes (values : ExtTreeMap String (StoredNativeHandle Payload ι)) : Nat :=
  (values.toList.map fun entry => entry.2.residency.exclusiveBytes).sum

theorem NativePayloadResidency.map_fst_resources :
    residency.resources.map Prod.fst = residency.sharedAllocations.map (·.id) := by
  rw [resources, map_map]
  rfl

theorem NativePayloadResidency.nodup_resources : (residency.resources.map Prod.fst).Nodup := by
  rw [residency.map_fst_resources]
  exact residency.distinct

section Values

variable {values : ExtTreeMap String (StoredNativeHandle Payload ι)} {identifier : String}
  {record : StoredNativeHandle Payload ι}

theorem namedAllocations_erase (h : values[identifier]? = some record) :
    (namedAllocations values).Perm
      (record.residency.resources ++ namedAllocations (values.erase identifier)) :=
  (toList_perm_erase h).flatMap_right _

theorem exclusiveBytes_erase (h : values[identifier]? = some record) : exclusiveBytes values =
      record.residency.exclusiveBytes + exclusiveBytes (values.erase identifier) := by
  have hperm := (toList_perm_erase h).map fun entry => entry.2.residency.exclusiveBytes
  exact hperm.sum_eq

variable {record' : StoredNativeHandle Payload ι}

variable (h : values[identifier]? = some record) (hsame : record'.residency = record.residency)
include h hsame

theorem namedAllocations_replace :
    (namedAllocations (values.insert identifier record')).Perm (namedAllocations values) := by
  have hnew := (toList_insert_perm values identifier record').flatMap_right
    fun entry => entry.2.residency.resources
  rw [flatMap_cons, hsame] at hnew
  exact hnew.trans (namedAllocations_erase h).symm

theorem exclusiveBytes_replace :
    exclusiveBytes (values.insert identifier record') = exclusiveBytes values := by
  have hnew := ((toList_insert_perm values identifier record').map
    fun entry => entry.2.residency.exclusiveBytes).sum_eq
  rw [exclusiveBytes_erase h, exclusiveBytes, hnew, map_cons, sum_cons, hsame]
  rfl

end Values

variable [Ord ι] [TransOrd ι]

/-- The allocations map as a table of reference counts. -/
def tableOf (allocations : ExtTreeMap ι StoredResidentAllocation) : Table ι := fun id =>
  allocations[id]?.map fun stored => (stored.residentBytes, stored.handleReferences)

/-! ### The loops over the allocations of a payload -/

namespace NativeHandleStoreData

variable {data : NativeHandleStoreData Payload ι}

variable {bytes delta : Nat} {allocation : NativeResidentAllocation ι}
  {shared : List (NativeResidentAllocation ι)}

theorem addRemovedBytes_eq {n : Nat}
    (htable : tableOf data.allocations allocation.id = some (allocation.residentBytes, n))
    (hpos : 0 < n) (hbound : bytes + (if n = 1 then allocation.residentBytes else 0) ≤ usizeMax) :
    data.addRemovedBytes bytes allocation =
      some (bytes + if n = 1 then allocation.residentBytes else 0) := by
  obtain ⟨stored, hlookup, hentry⟩ := Option.map_eq_some_iff.mp htable
  obtain ⟨hsize, hcount⟩ := Prod.mk.inj hentry
  unfold addRemovedBytes
  rw [hlookup]
  change (if _ then _ else _) = _
  rw [if_neg (by omega), hcount, hsize]
  by_cases hone : n = 1
  · rw [if_pos hone] at hbound
    rw [if_pos hone, if_pos hone, checkedAdd_eq_some]
    exact ⟨hbound, rfl⟩
  · rw [if_neg hone, if_neg hone, Nat.add_zero]

theorem foldlM_addRemovedBytes
    (hstored : ∀ allocation ∈ shared, ∃ n, tableOf data.allocations allocation.id =
      some (allocation.residentBytes, n) ∧ 0 < n) (hbound : bytes + freed (tableOf data.allocations)
      (shared.map NativeResidentAllocation.resource) ≤ usizeMax) :
    shared.foldlM data.addRemovedBytes bytes = some (bytes + freed (tableOf data.allocations)
        (shared.map NativeResidentAllocation.resource)) := by
  induction shared generalizing bytes with
  | nil => rfl
  | cons allocation shared ih =>
    obtain ⟨n, htable, hpos⟩ := hstored allocation mem_cons_self
    have htail := fun other hmem => hstored other (mem_cons_of_mem _ hmem)
    have hcons : freed _ (allocation.resource :: _) = _ :=
      freed_cons htable (shared.map NativeResidentAllocation.resource)
    rw [map_cons, hcons] at hbound ⊢
    change bytes + ((if n = 1 then allocation.residentBytes else 0) + _) ≤ _ at hbound
    rw [foldlM_cons, addRemovedBytes_eq htable hpos (by omega)]
    change shared.foldlM data.addRemovedBytes _ = _
    rw [ih htail (by omega), Nat.add_assoc]
    rfl

theorem addResidentDelta_eq_ok {delta' : Nat}
    (h : data.addResidentDelta delta allocation = .ok delta') :
    Fits (tableOf data.allocations) allocation.resource ∧
      delta' = delta + if tableOf data.allocations allocation.id = none then
        allocation.residentBytes else 0 := by
  unfold addResidentDelta at h
  unfold Fits
  change (∀ size n, tableOf data.allocations allocation.id = some (size, n) →
    size = allocation.residentBytes) ∧ _
  unfold tableOf
  cases hlookup : data.allocations[allocation.id]? with
  | none =>
    rw [hlookup] at h
    dsimp only at h
    split at h
    · rename_i total hadd
      cases h
      rw [(checkedAdd_eq_some.mp hadd).2]
      simp
    · cases h
  | some stored =>
    rw [hlookup] at h
    dsimp only at h
    split_ifs at h with hsize
    split at h
    · cases h
      rw [not_not] at hsize
      simp [hsize]
    · cases h

theorem foldlM_addResidentDelta {total : Nat}
    (h : shared.foldlM data.addResidentDelta delta = .ok total) :
    (∀ resource ∈ shared.map NativeResidentAllocation.resource,
      Fits (tableOf data.allocations) resource) ∧
      total = delta + added (tableOf data.allocations)
        (shared.map NativeResidentAllocation.resource) := by
  induction shared generalizing delta with
  | nil =>
    cases h
    simp [added]
  | cons allocation shared ih =>
    rw [foldlM_cons, Method.result_bind_eq_ok_iff] at h
    obtain ⟨next, hround, hrest⟩ := h
    obtain ⟨hfit, hnext⟩ := addResidentDelta_eq_ok hround
    obtain ⟨hfits, htotal⟩ := ih hrest
    constructor
    · rw [map_cons, forall_mem_cons]
      exact ⟨hfit, hfits⟩
    · rw [htotal, hnext, added, added, map_cons, map_cons, sum_cons, Nat.add_assoc]
      rfl

theorem nextResidentBytes_eq_ok {residency : NativePayloadResidency ι}
    (h : data.nextResidentBytes residency = .ok bytes) :
    (∀ resource ∈ residency.resources, Fits (tableOf data.allocations) resource) ∧
      bytes = data.residentBytes + (residency.exclusiveBytes +
        added (tableOf data.allocations) residency.resources) ∧
      bytes ≤ usizeMax := by
  unfold nextResidentBytes at h
  obtain ⟨delta, hdelta, hsum⟩ := Method.result_bind_eq_ok_iff.mp h
  obtain ⟨hfits, rfl⟩ := foldlM_addResidentDelta hdelta
  split at hsum
  · rename_i total hadd
    cases hsum
    obtain ⟨hbound, rfl⟩ := checkedAdd_eq_some.mp hadd
    exact ⟨hfits, rfl, hbound⟩
  · cases hsum

theorem retireStoredHandle_of_none {identifier : String} (h : data.values[identifier]? = none) :
    data.retireStoredHandle identifier = (false, data) := by
  unfold NativeHandleStoreData.retireStoredHandle
  rw [h]

end NativeHandleStoreData

variable [DecidableEq ι] {data : NativeHandleStoreData Payload ι} {identifier : String}
  {record : StoredNativeHandle Payload ι}

namespace NativeHandleStoreData

/-! ### The accounts -/

/-- The accounts of the store are right. -/
structure Balanced (data : NativeHandleStoreData Payload ι) : Prop where
  tracks : Tracks (tableOf data.allocations) (namedAllocations data.values)
  bytes : data.residentBytes = exclusiveBytes data.values + footprint (namedAllocations data.values)
  bounded : data.residentBytes ≤ usizeMax

theorem balanced_empty : (empty : NativeHandleStoreData Payload ι).Balanced where
  tracks := tracks_empty
  bytes := rfl
  bounded := Nat.zero_le _

/-- Counters and flags of a record may change freely; its residency may not. -/
theorem Balanced.putRecord {record' : StoredNativeHandle Payload ι} (h : data.Balanced)
    (hrecord : data.values[identifier]? = some record)
    (hsame : record'.residency = record.residency) :
    (data.putRecord identifier record').Balanced where
  tracks := h.tracks.perm (namedAllocations_replace hrecord hsame).symm
  bytes := by
    change data.residentBytes = exclusiveBytes (data.values.insert identifier record') + _
    rw [exclusiveBytes_replace hrecord hsame, h.bytes]
    exact congrArg _ (footprint_perm (namedAllocations_replace hrecord hsame).symm)
  bounded := h.bounded

end NativeHandleStoreData

variable [LawfulEqOrd ι]

/-! ### The table under the loops over allocations -/

theorem tableOf_insert (allocations : ExtTreeMap ι StoredResidentAllocation) (id : ι)
    (stored : StoredResidentAllocation) :
    tableOf (allocations.insert id stored) = Function.update (tableOf allocations) id
      (some (stored.residentBytes, stored.handleReferences)) := by
  funext other
  unfold tableOf
  rw [ExtTreeMap.getElem?_insert]
  by_cases h : other = id
  · subst h
    rw [Function.update_self, if_pos Std.ReflCmp.compare_self, Option.map_some]
  · rw [Function.update_of_ne h, if_neg fun heq => h (LawfulEqOrd.eq_of_compare heq).symm]

theorem tableOf_erase (allocations : ExtTreeMap ι StoredResidentAllocation) (id : ι) :
    tableOf (allocations.erase id) = Function.update (tableOf allocations) id none := by
  funext other
  unfold tableOf
  rw [ExtTreeMap.getElem?_erase]
  by_cases h : other = id
  · subst h
    rw [Function.update_self, if_pos Std.ReflCmp.compare_self, Option.map_none]
  · rw [Function.update_of_ne h, if_neg fun heq => h (LawfulEqOrd.eq_of_compare heq).symm]

namespace NativeHandleStoreData

variable (allocations : ExtTreeMap ι StoredResidentAllocation)
  (allocation : NativeResidentAllocation ι)

omit [DecidableEq ι] [LawfulEqOrd ι] in
theorem tableOf_resource : tableOf allocations allocation.resource.1 =
    allocations[allocation.id]?.map fun stored =>
      (stored.residentBytes, stored.handleReferences) := rfl

theorem tableOf_retainAllocation : tableOf (retainAllocation allocations allocation) =
      retain (tableOf allocations) allocation.resource := by
  unfold retainAllocation retain
  rw [tableOf_resource]
  cases allocations[allocation.id]? with
  | none | some stored => exact tableOf_insert _ _ _

theorem tableOf_releaseAllocation : tableOf (releaseAllocation allocations allocation) =
      release (tableOf allocations) allocation.resource := by
  unfold releaseAllocation release
  rw [tableOf_resource]
  cases allocations[allocation.id]? with
  | none => rfl
  | some stored =>
    dsimp only [Option.map_some]
    split_ifs
    · exact tableOf_erase _ _
    · exact tableOf_insert _ _ _

omit [DecidableEq ι] [LawfulEqOrd ι] in
/-- A loop over allocations changes the table step by step. -/
theorem tableOf_foldl {change : ExtTreeMap ι StoredResidentAllocation →
      NativeResidentAllocation ι → ExtTreeMap ι StoredResidentAllocation}
    {count : Table ι → ι × Nat → Table ι}
    (h : ∀ allocations allocation, tableOf (change allocations allocation) =
      count (tableOf allocations) allocation.resource)
    (allocations : ExtTreeMap ι StoredResidentAllocation)
    (shared : List (NativeResidentAllocation ι)) : tableOf (shared.foldl change allocations) =
      (shared.map NativeResidentAllocation.resource).foldl count (tableOf allocations) := by
  rw [foldl_map]
  exact (foldl_hom tableOf fun x y => (h x y).symm).symm

/-- A stored handle can always be removed, and the accounts stay right. -/
theorem Balanced.removeStoredHandle (h : data.Balanced)
    (hrecord : data.values[identifier]? = some record) :
    ∃ removed, data.removeStoredHandle identifier = some (record, removed) ∧
      removed.values = data.values.erase identifier ∧ removed.Balanced := by
  have htracks := h.tracks.perm (namedAllocations_erase hrecord)
  obtain ⟨hrest, hfoot⟩ := htracks.releaseAll record.residency.nodup_resources
  have hbytes := h.bytes
  have hbounded := h.bounded
  rw [footprint_perm (namedAllocations_erase hrecord), hfoot,
    exclusiveBytes_erase hrecord] at hbytes
  have hstored : ∀ allocation ∈ record.residency.sharedAllocations, ∃ n,
      tableOf data.allocations allocation.id = some (allocation.residentBytes, n) ∧ 0 < n := by
    intro allocation hmem
    obtain ⟨n, hn⟩ := htracks.size allocation.resource (mem_append_left _ (mem_map_of_mem hmem))
    exact ⟨n, hn, (htracks.count _ _ _ hn).2⟩
  have hfreed : record.residency.sharedAllocations.foldlM data.addRemovedBytes 0 =
      some (0 + freed (tableOf data.allocations) record.residency.resources) :=
    foldlM_addRemovedBytes hstored (show 0 + freed _ record.residency.resources ≤ _ by
      omega)
  rw [Nat.zero_add] at hfreed
  have hadd := checkedAdd_eq_some.mpr ⟨(show record.residency.exclusiveBytes +
    freed (tableOf data.allocations) record.residency.resources ≤ usizeMax by omega), rfl⟩
  unfold NativeHandleStoreData.removeStoredHandle
  rw [hrecord]
  dsimp only [Option.bind_eq_bind, Option.bind_some]
  rw [hfreed, Option.bind_some, hadd, Option.bind_some, checkedSub, if_pos (by omega)]
  refine ⟨_, rfl, rfl, ?_, ?_, ?_⟩
  · dsimp only
    rw [tableOf_foldl tableOf_releaseAllocation]
    exact hrest
  · dsimp only
    omega
  · dsimp only
    omega

/-- Retiring a stored handle removes it when nothing holds it, and marks it otherwise. -/
theorem Balanced.retireStoredHandle (h : data.Balanced)
    (hrecord : data.values[identifier]? = some record) :
    ∃ retired, data.retireStoredHandle identifier = (true, retired) ∧ retired.Balanced ∧
      retired.values =
        if record.roots = 0 ∧ record.resolvedRoots = 0 then data.values.erase identifier
        else data.values.insert identifier { record with retired := true } := by
  have hmarked : (data.putRecord identifier { record with retired := true }).Balanced :=
    h.putRecord hrecord rfl
  unfold NativeHandleStoreData.retireStoredHandle
  rw [hrecord]
  dsimp only
  by_cases hfree : record.roots = 0 ∧ record.resolvedRoots = 0
  · obtain ⟨removed, hremove, hvalues, hbalanced⟩ :=
      hmarked.removeStoredHandle ExtTreeMap.getElem?_insert_self
    rw [if_pos hfree, hremove, if_pos hfree]
    refine ⟨removed, rfl, hbalanced, ?_⟩
    rw [hvalues]
    apply ExtTreeMap.ext_getElem?
    intro other
    change (ExtTreeMap.erase (data.values.insert identifier _) identifier)[other]? = _
    rw [ExtTreeMap.getElem?_erase, ExtTreeMap.getElem?_erase, ExtTreeMap.getElem?_insert]
    split_ifs <;> rfl
  · rw [if_neg hfree, if_neg hfree]
    exact ⟨_, rfl, hmarked, rfl⟩

theorem Balanced.insertHandle {bytes : Nat} (h : data.Balanced)
    (hfresh : data.values[identifier]? = none)
    (hbytes : data.nextResidentBytes record.residency = .ok bytes) :
    (data.insertHandle identifier record bytes).Balanced := by
  obtain ⟨hfits, hsum, hbound⟩ := nextResidentBytes_eq_ok hbytes
  obtain ⟨htracks, hfoot⟩ := h.tracks.retainAll record.residency.nodup_resources hfits
  have hentries := toList_insert_perm_of_none hfresh record
  have hperm : (namedAllocations (data.values.insert identifier record)).Perm
      (record.residency.resources ++ namedAllocations data.values) := hentries.flatMap_right _
  have hexclusive := (hentries.map fun entry => entry.2.residency.exclusiveBytes).sum_eq
  change exclusiveBytes _ = record.residency.exclusiveBytes + exclusiveBytes data.values
    at hexclusive
  refine ⟨?_, ?_, hbound⟩
  · change Tracks (tableOf (record.residency.sharedAllocations.foldl retainAllocation _)) _
    rw [tableOf_foldl tableOf_retainAllocation]
    exact htracks.perm hperm.symm
  · change bytes = exclusiveBytes (data.values.insert identifier record) +
      footprint (namedAllocations (data.values.insert identifier record))
    rw [hexclusive, footprint_perm hperm, hfoot, hsum, h.bytes]
    omega

end NativeHandleStoreData

end XorEditor.Comfy
