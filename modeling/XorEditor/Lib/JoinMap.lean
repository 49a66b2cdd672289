import Mathlib.Data.List.Sort
import Mathlib.Order.WithBot

/-!
# Finite maps joined entry by entry

Finite maps whose values form a join semilattice.  One map is below another when each of
its entries is below the other's entry of the same key.  Writing an entry joins it with
the entry that is there, and merging two maps writes all entries of one into the other;
the merge is the least upper bound of the two maps.

* `Covers`: the order of maps
* `join`: the merge, their least upper bound
-/

namespace XorEditor.Lib.JoinMap

open List

open Std (ExtTreeMap TransCmp LawfulEqCmp)

variable {κ β : Type*} {cmp : κ → κ → Ordering} [TransCmp cmp] [SemilatticeSup β]

/-- Join a value with the entry of a key, or make it the entry when there is none. -/
def upsert (t : ExtTreeMap κ β cmp) (key : κ) (value : β) : ExtTreeMap κ β cmp :=
  t.alter key fun
    | some current => some (current ⊔ value)
    | none => some value

/-- Write all entries of a list. -/
def upsertAll (t : ExtTreeMap κ β cmp) (entries : List (κ × β)) : ExtTreeMap κ β cmp :=
  entries.foldl (fun t entry => upsert t entry.1 entry.2) t

/-- The entry of a key, with a least value in the place of none. -/
def entry (t : ExtTreeMap κ β cmp) (key : κ) : WithBot β := t[key]?

/-- The map has an entry of this key that is at least the value. -/
def Covers (t : ExtTreeMap κ β cmp) (key : κ) (value : β) : Prop :=
  ∃ current, t[key]? = some current ∧ value ≤ current

instance instLE : LE (ExtTreeMap κ β cmp) where
  le t u := ∀ key value, t[key]? = some value → Covers u key value

variable {t u v : ExtTreeMap κ β cmp} {key other : κ} {value : β} {entries : List (κ × β)}

theorem covers_iff : Covers t key value ↔ value ≤ entry t key := WithBot.coe_le_iff.symm

theorem le_iff : t ≤ u ↔ ∀ key, entry t key ≤ entry u key :=
  forall_congr' fun _ => WithBot.le_iff_forall.symm

omit [SemilatticeSup β] in
theorem mem_iff : key ∈ t ↔ entry t key ≠ ⊥ :=
  ExtTreeMap.mem_iff_isSome_getElem?.trans Option.isSome_iff_ne_none

theorem mem_of_le (h : t ≤ u) (hkey : key ∈ t) : key ∈ u :=
  mem_iff.mpr (ne_bot_of_le_ne_bot (mem_iff.mp hkey) (le_iff.mp h key))

theorem empty_le (t : ExtTreeMap κ β cmp) : ∅ ≤ t := by
  intro key value hvalue
  simp at hvalue

/-- The order, with one key apart. -/
theorem le_iff_entry (key : κ) : t ≤ u ↔
    entry t key ≤ entry u key ∧ ∀ other, key ≠ other → entry t other ≤ entry u other := by
  rw [le_iff]
  refine ⟨fun h => ⟨h key, fun other _ => h other⟩, fun h other => ?_⟩
  by_cases hother : key = other
  · exact hother ▸ h.1
  · exact h.2 other hother

variable [LawfulEqCmp cmp]

instance instPartialOrder : PartialOrder (ExtTreeMap κ β cmp) where
  le_refl t key value hvalue := ⟨value, hvalue, le_rfl⟩
  le_trans t u v htu huv := le_iff.mpr fun key => (le_iff.mp htu key).trans (le_iff.mp huv key)
  le_antisymm t u htu hut :=
    ExtTreeMap.ext_getElem? fun key => (le_iff.mp htu key).antisymm (le_iff.mp hut key)

omit [SemilatticeSup β] in
theorem entry_alter_of_ne (t : ExtTreeMap κ β cmp) (f : Option β → Option β) (hne : key ≠ other) :
    entry (t.alter key f) other = entry t other := by
  unfold entry
  rw [ExtTreeMap.getElem?_alter, if_neg (by simpa using hne)]

theorem upsert_le_iff : upsert t key value ≤ u ↔ t ≤ u ∧ Covers u key value := by
  have hself : entry (upsert t key value) key = entry t key ⊔ value := by
    unfold entry upsert
    rw [ExtTreeMap.getElem?_alter_self]
    cases t[key]? <;> rfl
  have hrest (other) (hne : key ≠ other) : entry (upsert t key value) other = entry t other :=
    entry_alter_of_ne t _ hne
  rw [le_iff_entry key, hself, sup_le_iff, and_right_comm, ← covers_iff, le_iff_entry key]
  exact and_congr_left' (and_congr_right' (forall₂_congr fun other hne => by rw [hrest other hne]))

omit [LawfulEqCmp cmp] in
theorem upsertAll_cons (t : ExtTreeMap κ β cmp) (entry : κ × β) (entries : List (κ × β)) :
    upsertAll t (entry :: entries) = upsertAll (upsert t entry.1 entry.2) entries := rfl

theorem upsertAll_le_iff :
    upsertAll t entries ≤ u ↔ t ≤ u ∧ ∀ entry ∈ entries, Covers u entry.1 entry.2 := by
  induction entries generalizing t with
  | nil => simp [upsertAll]
  | cons entry entries ih =>
    rw [upsertAll_cons, ih, upsert_le_iff, forall_mem_cons, and_assoc]

theorem forall_mem_toList_covers : (∀ entry ∈ t.toList, Covers u entry.1 entry.2) ↔ t ≤ u := by
  constructor
  · intro h key value hvalue
    exact h (key, value) (ExtTreeMap.mem_toList_iff_getElem?_eq_some.mpr hvalue)
  · rintro h ⟨key, value⟩ hentry
    exact h key value (ExtTreeMap.mem_toList_iff_getElem?_eq_some.mp hentry)

/-- Merge a map into another, entry by entry. -/
def join (t u : ExtTreeMap κ β cmp) : ExtTreeMap κ β cmp :=
  upsertAll t u.toList

theorem join_le_iff : join t u ≤ v ↔ t ≤ v ∧ u ≤ v := by
  rw [join, upsertAll_le_iff, forall_mem_toList_covers]

instance instSemilatticeSup : SemilatticeSup (ExtTreeMap κ β cmp) where
  sup := join
  le_sup_left _ _ := (join_le_iff.mp le_rfl).1
  le_sup_right _ _ := (join_le_iff.mp le_rfl).2
  sup_le _ _ _ ht hu := join_le_iff.mpr ⟨ht, hu⟩

theorem entry_sup (t u : ExtTreeMap κ β cmp) (key : κ) :
    entry (t ⊔ u) key = entry t key ⊔ entry u key := by
  apply eq_of_forall_ge_iff
  intro bound
  -- With the bound in the place of the entry, the rest of the join bounds both maps.
  let replaced : ExtTreeMap κ β cmp := (t ⊔ u).alter key fun _ => bound
  have hbound (w : ExtTreeMap κ β cmp) (hw : w ≤ t ⊔ u) : w ≤ replaced ↔ entry w key ≤ bound := by
    have hself : entry replaced key = bound := ExtTreeMap.getElem?_alter_self
    rw [le_iff_entry key, hself]
    refine and_iff_left fun other hne => (le_iff.mp hw other).trans_eq ?_
    exact (entry_alter_of_ne _ _ hne).symm
  rw [← hbound _ le_rfl, sup_le_iff, hbound _ le_sup_left, hbound _ le_sup_right, sup_le_iff]

theorem mem_sup : key ∈ t ⊔ u ↔ key ∈ t ∨ key ∈ u := by
  simp only [mem_iff, entry_sup, ne_eq, sup_eq_bot_iff, not_and_or]

/-- An entry of the join is the join of the entries that are there. -/
theorem getElem?_sup (t u : ExtTreeMap κ β cmp) (key : κ) :
    (t ⊔ u)[key]? = Option.merge (· ⊔ ·) t[key]? u[key]? := by
  refine (entry_sup t u key).trans ?_
  unfold entry
  cases t[key]? <;> cases u[key]? <;> rfl

theorem mem_upsert : other ∈ upsert t key value ↔ other = key ∨ other ∈ t := by
  rw [upsert, ExtTreeMap.mem_alter]
  by_cases hkey : key = other
  · subst hkey
    cases t[key]? <;> simp
  · simp [hkey, Ne.symm hkey]

theorem le_upsert (t : ExtTreeMap κ β cmp) (key : κ) (value : β) : t ≤ upsert t key value :=
  (upsert_le_iff.mp le_rfl).1

/-- Replacing an entry keeps a map below its old self exactly if the entry does not shrink. -/
theorem le_insert_iff :
    t ≤ t.insert key value ↔ ∀ current, t[key]? = some current → current ≤ value := by
  rw [le_iff_entry key, and_iff_left]
  · unfold entry
    rw [ExtTreeMap.getElem?_insert_self]
    exact WithBot.le_coe_iff
  · intro other hne
    unfold entry
    rw [ExtTreeMap.getElem?_insert, if_neg (by simpa using hne)]
    exact le_rfl (a := entry t other)

theorem le_insertIfNew (t : ExtTreeMap κ β cmp) (key : κ) (value : β) :
    t ≤ t.insertIfNew key value := by
  intro other current hcurrent
  refine ⟨current, ?_, le_rfl⟩
  rw [ExtTreeMap.getElem?_insertIfNew, if_neg, hcurrent]
  rintro ⟨hkey, hnew⟩
  obtain rfl : key = other := by simpa using hkey
  exact hnew (ExtTreeMap.mem_iff_isSome_getElem?.mpr (by simp [hcurrent]))

/-- Writing the entries of a map into the empty map gives the map back. -/
theorem upsertAll_empty_toList (t : ExtTreeMap κ β cmp) : upsertAll ∅ t.toList = t := by
  apply eq_of_forall_ge_iff
  intro u
  rw [upsertAll_le_iff, forall_mem_toList_covers]
  exact and_iff_right (empty_le u)

end XorEditor.Lib.JoinMap
