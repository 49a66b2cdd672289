import Mathlib.Data.List.Sort

/-!
# The entries of a map

Sums and counts over the entries of a map change with an insertion or a removal by one
entry.  The order of the entries is of no interest there, so the rules are permutations.

* `toList_insert_perm`, `toList_perm_erase`: the entries after a change
-/

namespace XorEditor.Lib.MapEntries

open Std (ExtTreeMap TransCmp LawfulEqCmp)

variable {κ β : Type*} {cmp : κ → κ → Ordering} [TransCmp cmp] [LawfulEqCmp cmp]

/-- Keys that are ordered by a value which tells them apart. -/
theorem lawfulEqCmp_compareOn {α γ : Type*} [Ord γ] [Std.TransOrd γ] [Std.LawfulEqOrd γ]
    {value : α → γ} (hvalue : Function.Injective value) : LawfulEqCmp (compareOn value) where
  compare_self := Std.ReflCmp.compare_self
  eq_of_compare {a b} h := by
    have hcompare : compare (value a) (value b) = .eq := h
    exact hvalue (LawfulEqCmp.eq_of_compare hcompare)

theorem nodup_toList (m : ExtTreeMap κ β cmp) : m.toList.Nodup := by
  refine m.distinct_keys_toList.imp ?_
  intro a b hne heq
  subst heq
  exact hne Std.ReflCmp.compare_self

theorem toList_insert_perm (m : ExtTreeMap κ β cmp) (k : κ) (v : β) :
    (m.insert k v).toList.Perm ((k, v) :: (m.erase k).toList) := by
  have hfresh : (k, v) ∉ (m.erase k).toList := by
    rw [ExtTreeMap.mem_toList_iff_getElem?_eq_some, ExtTreeMap.getElem?_erase_self]
    simp
  rw [List.perm_ext_iff_of_nodup (nodup_toList _) (List.nodup_cons.mpr ⟨hfresh, nodup_toList _⟩)]
  rintro ⟨a, b⟩
  rw [List.mem_cons, ExtTreeMap.mem_toList_iff_getElem?_eq_some,
    ExtTreeMap.mem_toList_iff_getElem?_eq_some, ExtTreeMap.getElem?_insert,
    ExtTreeMap.getElem?_erase, Prod.mk.injEq]
  by_cases ha : cmp k a = .eq
  · obtain rfl := LawfulEqCmp.eq_of_compare ha
    rw [if_pos ha, if_pos ha]
    simp [eq_comm]
  · have hne : a ≠ k := by
      rintro rfl
      exact ha Std.ReflCmp.compare_self
    simp [ha, hne]

variable {m : ExtTreeMap κ β cmp} {k a : κ} {v b : β}

theorem toList_perm_erase (h : m[k]? = some v) : m.toList.Perm ((k, v) :: (m.erase k).toList) := by
  have hsame : m.insert k v = m := by
    apply ExtTreeMap.ext_getElem?
    intro a
    rw [ExtTreeMap.getElem?_insert]
    split_ifs with ha
    · obtain rfl := LawfulEqCmp.eq_of_compare ha
      exact h.symm
    · rfl
  simpa only [hsame] using toList_insert_perm m k v

theorem toList_insert_perm_of_none (h : m[k]? = none) (v : β) :
    (m.insert k v).toList.Perm ((k, v) :: m.toList) := by
  have hsame : m.erase k = m := by
    apply ExtTreeMap.ext_getElem?
    intro a
    rw [ExtTreeMap.getElem?_erase]
    split_ifs with ha
    · obtain rfl := LawfulEqCmp.eq_of_compare ha
      exact h.symm
    · rfl
  simpa only [hsame] using toList_insert_perm m k v

/-! ### Looking a key up after a change -/

theorem of_getElem?_insert (h : (m.insert k v)[a]? = some b) : (a = k ∧ b = v)
    ∨ (a ≠ k ∧ m[a]? = some b) := by
  rw [ExtTreeMap.getElem?_insert] at h
  by_cases ha : cmp k a = .eq
  · rw [if_pos ha] at h
    exact Or.inl ⟨(LawfulEqCmp.eq_of_compare ha).symm, (Option.some.inj h).symm⟩
  · rw [if_neg ha] at h
    refine Or.inr ⟨?_, h⟩
    rintro rfl
    exact ha Std.ReflCmp.compare_self

theorem getElem?_insert_of_ne (m : ExtTreeMap κ β cmp) (v : β) (h : a ≠ k) :
    (m.insert k v)[a]? = m[a]? := by
  rw [ExtTreeMap.getElem?_insert, if_neg]
  intro hcompare
  exact h (LawfulEqCmp.eq_of_compare hcompare).symm

theorem of_getElem?_erase (h : (m.erase k)[a]? = some b) : a ≠ k ∧ m[a]? = some b := by
  rw [ExtTreeMap.getElem?_erase] at h
  by_cases ha : cmp k a = .eq
  · rw [if_pos ha] at h
    cases h
  · rw [if_neg ha] at h
    refine ⟨?_, h⟩
    rintro rfl
    exact ha Std.ReflCmp.compare_self

/-! ### Writing a map anew -/

variable {γ : Type*} (write : κ × β → Option γ)
  {round : ExtTreeMap κ γ cmp → κ × β → ExtTreeMap κ γ cmp}
  (hround : ∀ t entry, round t entry = match write entry with
    | none => t
    | some value => t.insert entry.1 value)
include hround

/-- A loop over entries with different keys that writes an entry or leaves it out. -/
theorem getElem?_foldl_write (entries : List (κ × β))
    (hkeys : entries.Pairwise fun a b => ¬ cmp a.1 b.1 = .eq)
    (t : ExtTreeMap κ γ cmp) (k : κ) (value : γ) : (entries.foldl round t)[k]? = some value ↔
      (∃ b, (k, b) ∈ entries ∧ write (k, b) = some value) ∨
        t[k]? = some value ∧ ∀ b, (k, b) ∈ entries → write (k, b) = none := by
  induction entries generalizing t with
  | nil => simp
  | cons entry entries ih =>
    obtain ⟨k', b'⟩ := entry
    obtain ⟨hentry, hentries⟩ := List.pairwise_cons.mp hkeys
    rw [List.foldl_cons, ih hentries, hround]
    by_cases hk : k = k'
    · subst hk
      have hlast (b : β) : (k, b) ∉ entries := fun hb => hentry (k, b) hb Std.ReflCmp.compare_self
      cases hwrite : write (k, b') with
      | none => simp [hlast, hwrite]
      | some written => simp [hlast, hwrite]
    · have hother : ¬ cmp k' k = .eq := fun h => hk (LawfulEqCmp.eq_of_compare h).symm
      cases hwrite : write (k', b') with
      | none => simp [hk]
      | some written => simp [hk, ExtTreeMap.getElem?_insert, hother]

/-- Writing the entries of a map into an empty one, some of them changed or left out. -/
theorem getElem?_foldl_write_toList (m : ExtTreeMap κ β cmp) (k : κ) :
    (m.toList.foldl round ∅)[k]? = m[k]?.bind fun b => write (k, b) := by
  apply Option.ext
  intro value
  rw [getElem?_foldl_write write hround _ m.distinct_keys_toList, Option.bind_eq_some_iff]
  simp only [ExtTreeMap.mem_toList_iff_getElem?_eq_some]
  simp

end XorEditor.Lib.MapEntries
