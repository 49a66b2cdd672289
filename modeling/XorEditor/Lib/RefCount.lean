import Mathlib.Algebra.BigOperators.Group.List.Basic
import Mathlib.Algebra.GroupWithZero.Nat
import Mathlib.Data.List.Dedup

/-!
# Reference counts of shared resources

Holders share resources; a resource has an identity and a size.  A table keeps, for each
resource that is held, its size and the number of times it is held.  The resources held
stand in one list, a resource held twice standing in it twice.

* `Table`: the table
* `Tracks`: it counts the resources held
* `retain`, `release`: its operations
-/

namespace XorEditor.Lib.RefCount

open List

variable {κ : Type*} [DecidableEq κ]

/-- What the table has for an identity: the size and the number of references. -/
abbrev Table (κ : Type*) := κ → Option (Nat × Nat)

/-- How often an identity is held. -/
def references (held : List (κ × Nat)) (id : κ) : Nat :=
  (held.map Prod.fst).count id

/-- The sizes of the different resources held, each counted once. -/
def footprint (held : List (κ × Nat)) : Nat :=
  (held.dedup.map Prod.snd).sum

/-- The table has the resources that are held, and nothing else. -/
structure Tracks (table : Table κ) (held : List (κ × Nat)) : Prop where
  size : ∀ resource ∈ held, ∃ n, table resource.1 = some (resource.2, n)
  count : ∀ id size n, table id = some (size, n) → n = references held id ∧ 0 < n

variable (table : Table κ) (resource : κ × Nat)

/-- Hold a resource once more. -/
def retain : Table κ :=
  Function.update table resource.1 <| some <|
    match table resource.1 with
    | some (size, n) => (size, n + 1)
    | none => (resource.2, 1)

/-- Let go of a resource; the last reference takes the entry along. -/
def release : Table κ :=
  match table resource.1 with
  | some (size, n) =>
    Function.update table resource.1 (if n = 1 then none else some (size, n - 1))
  | none => table

/-- The resource may be held along with those in the table: an entry of its identity has
its size. -/
def Fits : Prop :=
  ∀ size n, table resource.1 = some (size, n) → size = resource.2

/-! ### Lists of resources held -/

theorem references_cons (held : List (κ × Nat)) (id : κ) : references (resource :: held) id =
      references held id + if resource.1 = id then 1 else 0 := by
  simp [references, count_cons]

variable {held held' : List (κ × Nat)} {id : κ}

theorem references_pos : 0 < references held id ↔ ∃ resource ∈ held, resource.1 = id := by
  simp [references, count_pos_iff]

theorem references_perm (h : held.Perm held') (id : κ) : references held id = references held' id :=
  (h.map Prod.fst).count_eq id

theorem footprint_perm (h : held.Perm held') : footprint held = footprint held' :=
  (h.dedup.map Prod.snd).sum_eq

theorem footprint_cons (held : List (κ × Nat)) : footprint (resource :: held) =
      footprint held + if resource ∈ held then 0 else resource.2 := by
  unfold footprint
  by_cases h : resource ∈ held
  · rw [dedup_cons_of_mem h, if_pos h, Nat.add_zero]
  · rw [dedup_cons_of_notMem h, if_neg h, map_cons, sum_cons, Nat.add_comm]

/-! ### Holding and letting go -/

section Tracks

variable {table : Table κ} {resource : κ × Nat}

theorem tracks_empty : Tracks (fun _ : κ => none) [] :=
  ⟨by simp, by simp⟩

theorem Tracks.perm {held' : List (κ × Nat)} (h : Tracks table held) (hp : held.Perm held') :
    Tracks table held' where
  size := fun a ha => h.size a (hp.mem_iff.mpr ha)
  count := fun id size n hn => references_perm hp id ▸ h.count id size n hn

/-- All holders of one identity agree on its size. -/
theorem Tracks.size_eq (h : Tracks table held) {a b : κ × Nat} (ha : a ∈ held) (hb : b ∈ held)
    (hid : a.1 = b.1) : a = b := by
  obtain ⟨n, hn⟩ := h.size a ha
  obtain ⟨m, hm⟩ := h.size b hb
  rw [hid, hm] at hn
  exact Prod.ext hid (congrArg Prod.fst (Option.some.inj hn)).symm

theorem Tracks.eq_none_iff (h : Tracks table held) : table id = none ↔ references held id = 0 := by
  constructor
  · intro hnone
    by_contra hne
    obtain ⟨a, ha, rfl⟩ := references_pos.mp (Nat.pos_of_ne_zero hne)
    obtain ⟨n, hn⟩ := h.size a ha
    rw [hnone] at hn
    cases hn
  · intro hzero
    cases htable : table id with
    | none => rfl
    | some entry =>
      have := h.count id entry.1 entry.2 htable
      omega

/-- A resource is held if its identity is, where the sizes agree. -/
theorem mem_iff_references_pos (hsame : ∀ other ∈ held, other.1 = resource.1 → other = resource) :
    resource ∈ held ↔ 0 < references held resource.1 := by
  rw [references_pos]
  exact ⟨fun hmem => ⟨resource, hmem, rfl⟩, fun ⟨other, hother, hid⟩ =>
    hsame other hother hid ▸ hother⟩

theorem Tracks.mem_iff (h : Tracks table held) (hfit : Fits table resource) :
    resource ∈ held ↔ table resource.1 ≠ none := by
  rw [Ne, h.eq_none_iff, ← Ne, ← Nat.pos_iff_ne_zero]
  refine mem_iff_references_pos fun other hother hid => ?_
  obtain ⟨n, hn⟩ := h.size other hother
  exact Prod.ext hid (hfit _ _ (hid ▸ hn))

theorem retain_self (table : Table κ) (resource : κ × Nat) (hfit : Fits table resource) :
    ∃ n, retain table resource resource.1 = some (resource.2, n + 1) ∧
      n = ((table resource.1).map Prod.snd).getD 0 := by
  unfold retain
  rw [Function.update_self]
  cases htable : table resource.1 with
  | none => exact ⟨0, rfl, rfl⟩
  | some entry =>
    obtain ⟨size, n⟩ := entry
    obtain rfl := hfit size n htable
    exact ⟨n, rfl, rfl⟩

theorem retain_of_ne (table : Table κ) (h : id ≠ resource.1) :
    retain table resource id = table id :=
  Function.update_of_ne h _ _

/-- The number of references of an identity, from the table. -/
theorem Tracks.references_eq (h : Tracks table held) (id : κ) :
    ((table id).map Prod.snd).getD 0 = references held id := by
  cases htable : table id with
  | none => exact (h.eq_none_iff.mp htable).symm
  | some entry => exact (h.count id entry.1 entry.2 htable).1

theorem Tracks.retain (h : Tracks table held) (hfit : Fits table resource) :
    Tracks (retain table resource) (resource :: held) := by
  obtain ⟨m, hm, hcount⟩ := retain_self table resource hfit
  rw [h.references_eq] at hcount
  constructor
  · intro a ha
    by_cases hid : a.1 = resource.1
    · have hsize : a.2 = resource.2 := by
        rcases mem_cons.mp ha with rfl | ha
        · rfl
        · obtain ⟨n, hn⟩ := h.size a ha
          exact hfit _ _ (hid ▸ hn)
      exact ⟨m + 1, by rw [hid, hsize, hm]⟩
    · rw [retain_of_ne table hid]
      have ha' : a ∈ held := (mem_cons.mp ha).resolve_left fun heq => hid (heq ▸ rfl)
      exact h.size a ha'
  · intro id size n hn
    rw [references_cons]
    by_cases hid : id = resource.1
    · subst hid
      rw [hm] at hn
      cases hn
      rw [if_pos rfl, hcount]
      omega
    · rw [retain_of_ne table hid] at hn
      rw [if_neg fun heq => hid heq.symm]
      exact h.count id size n hn

theorem release_of_ne (table : Table κ) (h : id ≠ resource.1) :
    release table resource id = table id := by
  unfold release
  cases table resource.1 with
  | none => rfl
  | some entry => exact Function.update_of_ne h _ _

theorem Tracks.release_self (h : Tracks table (resource :: held)) :
    release table resource resource.1 =
      if references held resource.1 = 0 then none
      else some (resource.2, references held resource.1) := by
  obtain ⟨n, hn⟩ := h.size resource mem_cons_self
  have hcount := (h.count _ _ _ hn).1
  rw [references_cons, if_pos rfl] at hcount
  unfold release
  rw [hn]
  dsimp only
  rw [Function.update_self, hcount]
  by_cases hzero : references held resource.1 = 0
  · rw [if_pos (by omega), if_pos hzero]
  · rw [if_neg (by omega), if_neg hzero, Nat.add_sub_cancel]

theorem Tracks.release (h : Tracks table (resource :: held)) :
    Tracks (release table resource) held := by
  have hself := h.release_self
  constructor
  · intro a ha
    by_cases hid : a.1 = resource.1
    · have hsame := h.size_eq (mem_cons_of_mem _ ha) mem_cons_self hid
      have hpos : 0 < references held resource.1 := references_pos.mpr ⟨a, ha, hid⟩
      rw [hsame, hself, if_neg (by omega)]
      exact ⟨_, rfl⟩
    · rw [release_of_ne table hid]
      exact h.size a (mem_cons_of_mem _ ha)
  · intro id size n hn
    by_cases hid : id = resource.1
    · subst hid
      rw [hself] at hn
      split_ifs at hn with hzero
      cases hn
      exact ⟨rfl, by omega⟩
    · rw [release_of_ne table hid] at hn
      have hcount := h.count id size n hn
      rwa [references_cons, if_neg fun heq => hid heq.symm] at hcount

end Tracks

/-! ### Several resources at once

The resources of one holder have different identities, so what holding them adds can be
read off the table before the first of them is held. -/

section Several

variable {table : Table κ}

/-- What a list of resources adds to the footprint. -/
def added (table : Table κ) (resources : List (κ × Nat)) : Nat :=
  (resources.map fun resource => if table resource.1 = none then resource.2 else 0).sum

/-- What letting go of a list of resources takes from the footprint. -/
def freed (table : Table κ) (resources : List (κ × Nat)) : Nat :=
  (resources.map fun resource =>
    if (table resource.1).map Prod.snd = some 1 then resource.2 else 0).sum

variable {resource : κ × Nat} {table' : Table κ} {resources : List (κ × Nat)}

omit [DecidableEq κ] in
theorem freed_cons {size n : Nat} (h : table resource.1 = some (size, n))
    (resources : List (κ × Nat)) : freed table (resource :: resources) =
      (if n = 1 then resource.2 else 0) + freed table resources := by
  simp [freed, h]

omit [DecidableEq κ] in
theorem added_congr (h : ∀ resource ∈ resources, table' resource.1 = table resource.1) :
    added table' resources = added table resources := by
  unfold added
  rw [map_congr_left fun resource hmem => by rw [h resource hmem]]

omit [DecidableEq κ] in
theorem freed_congr (h : ∀ resource ∈ resources, table' resource.1 = table resource.1) :
    freed table' resources = freed table resources := by
  unfold freed
  rw [map_congr_left fun resource hmem => by rw [h resource hmem]]

omit [DecidableEq κ] in
theorem ne_of_mem_of_nodup (hnodup : ((resource :: resources).map Prod.fst).Nodup) :
    ∀ other ∈ resources, other.1 ≠ resource.1 := by
  intro other hmem heq
  rw [map_cons, nodup_cons] at hnodup
  exact hnodup.1 (heq ▸ mem_map_of_mem hmem)

/-- A holder comes: the table keeps track, and the footprint grows by what the resources
add. -/
theorem Tracks.retainAll (hnodup : (resources.map Prod.fst).Nodup) (h : Tracks table held)
    (hfit : ∀ resource ∈ resources, Fits table resource) :
    Tracks (resources.foldl RefCount.retain table) (resources ++ held) ∧
      footprint (resources ++ held) = footprint held + added table resources := by
  induction resources generalizing table held with
  | nil => exact ⟨h, rfl⟩
  | cons resource resources ih =>
    have hhead : Fits table resource := hfit resource mem_cons_self
    have hkept : ∀ other ∈ resources, RefCount.retain table resource other.1 = table other.1 :=
      fun other hmem => retain_of_ne table (ne_of_mem_of_nodup hnodup other hmem)
    have htail : ∀ other ∈ resources, Fits (RefCount.retain table resource) other := by
      intro other hmem size n hn
      rw [hkept other hmem] at hn
      exact hfit other (mem_cons_of_mem _ hmem) size n hn
    obtain ⟨htracks, hfoot⟩ := ih (nodup_cons.mp hnodup).2 (h.retain hhead) htail
    have hperm : (resources ++ resource :: held).Perm (resource :: resources ++ held) := perm_middle
    refine ⟨htracks.perm hperm, ?_⟩
    rw [← footprint_perm hperm, hfoot, footprint_cons, added_congr hkept]
    have hmem := h.mem_iff hhead
    unfold added
    rw [map_cons, sum_cons]
    by_cases hnone : table resource.1 = none
    · rw [if_neg (fun hin => hmem.mp hin hnone), if_pos hnone]
      omega
    · rw [if_pos (hmem.mpr hnone), if_neg hnone]
      omega

/-- A holder goes: the table keeps track, and the footprint shrinks by what is freed. -/
theorem Tracks.releaseAll (hnodup : (resources.map Prod.fst).Nodup)
    (h : Tracks table (resources ++ held)) : Tracks (resources.foldl RefCount.release table) held ∧
      footprint (resources ++ held) = footprint held + freed table resources := by
  induction resources generalizing table with
  | nil => exact ⟨h, rfl⟩
  | cons resource resources ih =>
    have hkept : ∀ other ∈ resources, RefCount.release table resource other.1 = table other.1 :=
      fun other hmem => release_of_ne table (ne_of_mem_of_nodup hnodup other hmem)
    obtain ⟨htracks, hfoot⟩ := ih (nodup_cons.mp hnodup).2 h.release
    refine ⟨htracks, ?_⟩
    obtain ⟨n, hn⟩ := h.size resource mem_cons_self
    rw [cons_append, footprint_cons, hfoot, freed_congr hkept, freed_cons hn]
    have hcount := (h.count _ _ _ hn).1
    rw [cons_append, references_cons, if_pos rfl] at hcount
    have hiff : resource ∈ resources ++ held ↔ 0 < references (resources ++ held) resource.1 :=
      mem_iff_references_pos fun other hother => h.size_eq (mem_cons_of_mem _ hother) mem_cons_self
    by_cases hmem : resource ∈ resources ++ held
    · have hpos := hiff.mp hmem
      rw [if_pos hmem, if_neg (by omega)]
      omega
    · have hzero := mt hiff.mpr hmem
      rw [if_neg hmem, if_pos (by omega)]
      omega

end Several

end XorEditor.Lib.RefCount
