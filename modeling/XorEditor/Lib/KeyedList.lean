import XorEditor.Lib.ListCursor
import Mathlib.Data.List.Pairwise
import Mathlib.Data.List.Sort

/-!
# Lists ordered by key

An ordered collection with one item per key, and the bulk insertion that merges a batch
of items into it: the batch is sorted by key, the existing items with smaller keys are
copied, and an existing item with the key of a new one is replaced.

* `Ordered`: strictly increasing keys
* `insertAll`: the bulk insertion
* `mem_insertAll`: what is in the collection then
-/

namespace XorEditor.Lib.KeyedList

open List

variable {α K : Type*} [LinearOrder K] (key : α → K)

/-- The keys are strictly increasing. -/
def Ordered (items : List α) : Prop := items.Pairwise fun x y => key x < key y

/-- The items from the first one whose key is not below `target`. -/
def seekFrom (target : K) (items : List α) : List α :=
  items.dropWhile fun item => decide (key item < target)

/-- The items in front of the first one whose key is not below `target`. -/
def takeBelow (target : K) (items : List α) : List α :=
  items.takeWhile fun item => decide (key item < target)

/-- Drop the first item if it has the given key. -/
def dropKey (target : K) : List α → List α
  | [] => []
  | item :: rest => if key item = target then rest else item :: rest

/-- The loop of a bulk insertion, over a batch already sorted by key. -/
def mergeInserts : List α → List α → List α
  | items, [] => items
  | items, new :: news =>
    takeBelow key (key new) items ++
      new :: mergeInserts (dropKey key (key new) (seekFrom key (key new) items)) news

/-- Bulk insertion: sort the batch by key and merge it into the items. -/
def insertAll (items news : List α) : List α :=
  mergeInserts key items (news.insertionSort fun x y => key x ≤ key y)

/-- The items of a list whose key differs from the key of the item kept last. -/
def dedupFrom (last : K) : List α → List α
  | [] => []
  | item :: rest =>
    if key item = last then dedupFrom last rest else item :: dedupFrom (key item) rest

/-- `Vec::dedup_by_key`: of consecutive items with one key the first is kept. -/
def dedup : List α → List α
  | [] => []
  | item :: rest => item :: dedupFrom key (key item) rest

/-- Sort a batch by key and keep one item per key. -/
def sortDedup (items : List α) : List α :=
  dedup key (items.insertionSort fun x y => key x ≤ key y)

variable {key}

theorem Ordered.nil : Ordered key ([] : List α) := List.Pairwise.nil

variable {item x y : α} {items xs ys news : List α} {p : α → Bool}

theorem Ordered.tail (h : Ordered key (item :: items)) : Ordered key items := (pairwise_cons.mp h).2

theorem Ordered.sublist (h : Ordered key ys) (hsub : xs.Sublist ys) :
    Ordered key xs := List.Pairwise.sublist hsub h

/-- Distinct members of a list are related one way or the other. -/
theorem rel_or_rel {R : α → α → Prop} (h : items.Pairwise R) (hx : x ∈ items) (hy : y ∈ items)
    (hne : x ≠ y) : R x y ∨ R y x := by
  have hsymm : Std.Symm fun x y => R x y ∨ R y x := ⟨fun _ _ => Or.symm⟩
  have hpairwise : items.Pairwise fun x y => R x y ∨ R y x := h.imp Or.inl
  exact hpairwise.forall hx hy hne

/-- In an ordered list a key determines its item. -/
theorem Ordered.eq_of_key (h : Ordered key items) (hx : x ∈ items) (hy : y ∈ items)
    (hkey : key x = key y) : x = y := by
  by_contra hne
  rcases rel_or_rel h hx hy hne with hlt | hlt
  · exact ne_of_lt hlt hkey
  · exact ne_of_lt hlt hkey.symm

/-- Ordered lists with the same members are equal. -/
theorem Ordered.eq_of_mem_iff (hxs : Ordered key xs) (hys : Ordered key ys)
    (h : ∀ a, a ∈ xs ↔ a ∈ ys) : xs = ys := by
  have : Std.Irrefl fun x y : α => key x < key y := ⟨fun _ => lt_irrefl _⟩
  have : IsTrans α fun x y : α => key x < key y := ⟨fun _ _ _ => lt_trans⟩
  have : Std.Antisymm fun x y : α => key x < key y := ⟨fun _ _ hxy hyx => absurd hyx (lt_asymm hxy)⟩
  exact List.Pairwise.eq_of_mem_iff hxs hys h

/-- The items below and above an item of an ordered list. -/
theorem Ordered.exists_split (h : Ordered key items) (hitem : item ∈ items) :
    ∃ before after, items = before ++ item :: after ∧ (∀ x ∈ before, key x < key item) ∧
      ∀ x ∈ after, key item < key x := by
  obtain ⟨before, after, rfl⟩ := append_of_mem hitem
  obtain ⟨-, hafter, hbefore⟩ := pairwise_append.mp h
  exact ⟨before, after, rfl, fun x hx => hbefore x hx item mem_cons_self,
    (pairwise_cons.mp hafter).1⟩

/-- A scan takes the part of a list in which its condition holds. -/
theorem span_append (hxs : ∀ x ∈ xs, p x = true) (hys : ∀ y ∈ ys, p y = false) :
    (xs ++ ys).takeWhile p = xs ∧ (xs ++ ys).dropWhile p = ys :=
  span_eq hxs fun y _ htail => hys y (htail ▸ mem_cons_self)

/-- A scan takes what fulfils a condition that is never lost towards smaller keys. -/
theorem span_eq_filter (h : Ordered key items)
    (hp : ∀ x ∈ items, ∀ y ∈ items, key y ≤ key x → p x = true → p y = true) :
    items.takeWhile p = items.filter p ∧ items.dropWhile p = items.filter fun x => !p x := by
  induction items with
  | nil => exact ⟨rfl, rfl⟩
  | cons item items ih =>
    obtain ⟨hhead, htail⟩ := pairwise_cons.mp h
    by_cases hitem : p item = true
    · obtain ⟨htake, hdrop⟩ := ih htail
        fun x hx y hy => hp x (mem_cons_of_mem _ hx) y (mem_cons_of_mem _ hy)
      simp [hitem, htake, hdrop]
    · have hrest : ∀ x ∈ items, p x = false := fun x hx => Bool.not_eq_true _ ▸ fun hx' =>
        hitem (hp x (mem_cons_of_mem _ hx) item mem_cons_self (le_of_lt (hhead x hx)) hx')
      rw [Bool.not_eq_true] at hitem
      simpa [hitem, @eq_comm _ items] using hrest

theorem mem_takeWhile_iff (h : Ordered key items)
    (hp : ∀ x ∈ items, ∀ y ∈ items, key y ≤ key x → p x = true → p y = true) (x : α) :
    x ∈ items.takeWhile p ↔ x ∈ items ∧ p x = true := by
  rw [(span_eq_filter h hp).1, mem_filter]

/-- A seek for the key of an item stops in front of the item. -/
theorem Ordered.exists_seek (h : Ordered key items) (hitem : item ∈ items) :
    ∃ before after, items = before ++ item :: after ∧ (∀ x ∈ before, key x < key item) ∧
      (∀ x ∈ after, key item < key x) ∧ takeBelow key (key item) items = before ∧
      seekFrom key (key item) items = item :: after := by
  obtain ⟨before, after, rfl, hbefore, hafter⟩ := h.exists_split hitem
  refine ⟨before, after, rfl, hbefore, hafter, span_append
    (fun x hx => decide_eq_true (hbefore x hx)) fun x hx => decide_eq_false ?_⟩
  rcases mem_cons.mp hx with rfl | hx
  · exact lt_irrefl _
  · exact lt_asymm (hafter x hx)

theorem takeBelow_append_seekFrom (target : K) (items : List α) :
    takeBelow key target items ++ seekFrom key target items = items :=
  takeWhile_append_dropWhile

section Seek

variable (h : Ordered key items) (target : K)
include h target

theorem span_below :
    takeBelow key target items = items.filter (fun x => decide (key x < target)) ∧
      seekFrom key target items = items.filter fun x => !decide (key x < target) :=
  span_eq_filter h fun _ _ _ _ hle hx =>
    decide_eq_true (lt_of_le_of_lt hle (of_decide_eq_true hx))

theorem mem_takeBelow (x : α) : x ∈ takeBelow key target items ↔ x ∈ items ∧ key x < target := by
  rw [(span_below h target).1, mem_filter, decide_eq_true_iff]

theorem mem_seekFrom (x : α) : x ∈ seekFrom key target items ↔ x ∈ items ∧ target ≤ key x := by
  rw [(span_below h target).2, mem_filter, Bool.not_eq_true', decide_eq_false_iff_not, not_lt]

theorem Ordered.seekFrom : Ordered key (seekFrom key target items) :=
  h.sublist (dropWhile_sublist _)

theorem Ordered.dropKey : Ordered key (dropKey key target items) := by
  cases items with
  | nil => exact Ordered.nil
  | cons item items =>
    simp only [KeyedList.dropKey]
    split
    · exact h.tail
    · exact h

/-- Past a seek, dropping the target's own item leaves exactly the larger keys. -/
theorem mem_dropKey_seekFrom (x : α) :
    x ∈ dropKey key target (seekFrom key target items) ↔ x ∈ items ∧ target < key x := by
  have hseek := mem_seekFrom h target
  have hord := h.seekFrom target
  generalize seekFrom key target items = seeked at hseek hord ⊢
  have hlt : x ∈ items ∧ target < key x ↔ x ∈ seeked ∧ target < key x := by
    rw [hseek]
    exact and_congr_left fun hlt => (and_iff_left (le_of_lt hlt)).symm
  rw [hlt]
  cases seeked with
  | nil => simp [dropKey]
  | cons item rest =>
    obtain ⟨hhead, -⟩ := pairwise_cons.mp hord
    have hitem := ((hseek item).mp mem_cons_self).2
    have hrest : x ∈ rest → target < key x := fun hx => lt_of_le_of_lt hitem (hhead x hx)
    simp only [dropKey, mem_cons]
    split
    · next hkey =>
      refine ⟨fun hx => ⟨Or.inr hx, hrest hx⟩, fun hx => hx.1.resolve_left ?_⟩
      rintro rfl
      exact ne_of_gt hx.2 hkey
    · next hkey =>
      rw [mem_cons, iff_self_and]
      rintro (rfl | hx)
      · exact lt_of_le_of_ne hitem (Ne.symm hkey)
      · exact hrest hx

/-- The items of one group, where the groups follow each other in the order of the keys. -/
theorem mem_group {γ : Type*} [PartialOrder γ] [DecidableEq γ] {group : K → γ}
    (hgroup : Monotone group)
    (htarget : ∀ x, group (key x) = group target → target ≤ key x) (x : α) :
    x ∈ (seekFrom key target items).takeWhile (fun x => decide (group (key x) = group target)) ↔
      x ∈ items ∧ group (key x) = group target := by
  rw [mem_takeWhile_iff (h.seekFrom _), mem_seekFrom h, decide_eq_true_iff, and_assoc]
  · exact and_congr_right fun _ => and_iff_right_of_imp (htarget x)
  · intro x _ y hy hle hx
    exact decide_eq_true (le_antisymm ((hgroup hle).trans (of_decide_eq_true hx).le)
      (hgroup ((mem_seekFrom h _ y).mp hy).2))

end Seek

/-- What a merge of a sorted batch contains: the batch, and the items whose keys the
batch does not mention. -/
theorem mem_mergeInserts (hitems : Ordered key items) (hnews : Ordered key news) (x : α) :
    x ∈ mergeInserts key items news ↔ x ∈ news ∨ (x ∈ items ∧ ∀ new ∈ news, key new ≠ key x) := by
  induction news generalizing items with
  | nil => simp [mergeInserts]
  | cons new news ih =>
    obtain ⟨hhead, htail⟩ := pairwise_cons.mp hnews
    have hrest := (hitems.seekFrom (key new)).dropKey (key new)
    simp only [mergeInserts, mem_append, mem_cons, mem_takeBelow hitems,
      ih hrest htail, mem_dropKey_seekFrom hitems]
    constructor
    · rintro (⟨hmem, hlt⟩ | rfl | hmem | ⟨⟨hmem, hlt⟩, hne⟩)
      · refine Or.inr ⟨hmem, ?_⟩
        rintro other (rfl | hother)
        · exact ne_of_gt hlt
        · exact ne_of_gt (lt_trans hlt (hhead other hother))
      · exact Or.inl (Or.inl rfl)
      · exact Or.inl (Or.inr hmem)
      · refine Or.inr ⟨hmem, ?_⟩
        rintro other (rfl | hother)
        · exact ne_of_lt hlt
        · exact hne other hother
    · rintro ((rfl | hmem) | ⟨hmem, hne⟩)
      · exact Or.inr (Or.inl rfl)
      · exact Or.inr (Or.inr (Or.inl hmem))
      · rcases lt_or_gt_of_ne (hne new (Or.inl rfl)) with hlt | hlt
        · exact Or.inr (Or.inr (Or.inr ⟨⟨hmem, hlt⟩, fun other hother =>
            hne other (Or.inr hother)⟩))
        · exact Or.inl ⟨hmem, hlt⟩

theorem Ordered.mergeInserts (hitems : Ordered key items) (hnews : Ordered key news) :
    Ordered key (mergeInserts key items news) := by
  induction news generalizing items with
  | nil => exact hitems
  | cons new news ih =>
    obtain ⟨hhead, htail⟩ := pairwise_cons.mp hnews
    have hrest := (hitems.seekFrom (key new)).dropKey (key new)
    have hmerged := mem_mergeInserts hrest htail
    have hlater : ∀ x ∈ KeyedList.mergeInserts key
        (KeyedList.dropKey key (key new) (KeyedList.seekFrom key (key new) items)) news,
        key new < key x := by
      intro x hx
      rcases (hmerged x).mp hx with hx | ⟨hx, -⟩
      · exact hhead x hx
      · exact ((mem_dropKey_seekFrom hitems (key new) x).mp hx).2
    refine pairwise_append.mpr ⟨?_, ?_, ?_⟩
    · exact hitems.sublist (takeWhile_sublist _)
    · exact pairwise_cons.mpr ⟨hlater, ih hrest htail⟩
    · intro x hx y hy
      have hxlt := ((mem_takeBelow hitems (key new) x).mp hx).2
      rcases mem_cons.mp hy with rfl | hy
      · exact hxlt
      · exact lt_trans hxlt (hlater y hy)

section

variable (hnews : news.Pairwise fun x y => key x ≠ key y)
include hnews

/-- Sorting a batch with distinct keys gives a strictly ordered batch. -/
theorem ordered_insertionSort : Ordered key (news.insertionSort fun x y => key x ≤ key y) := by
  have hne : (news.insertionSort fun x y => key x ≤ key y).Pairwise
      fun x y => key x ≠ key y :=
    (perm_insertionSort _ news).symm.pairwise hnews fun h => Ne.symm h
  exact ((pairwise_insertionSort (fun x y : α => key x ≤ key y) news).and hne).imp
    fun h => lt_of_le_of_ne h.1 h.2

theorem mem_insertAll (hitems : Ordered key items) (x : α) : x ∈ insertAll key items news ↔
      x ∈ news ∨ (x ∈ items ∧ ∀ new ∈ news, key new ≠ key x) := by
  have hperm := perm_insertionSort (fun x y : α => key x ≤ key y) news
  rw [insertAll, mem_mergeInserts hitems (ordered_insertionSort hnews)]
  simp only [hperm.mem_iff]

theorem Ordered.insertAll (hitems : Ordered key items) : Ordered key (insertAll key items news) :=
  hitems.mergeInserts (ordered_insertionSort hnews)

end

theorem dedupFrom_sublist (last : K) (items : List α) :
    (dedupFrom key last items).Sublist items := by
  induction items generalizing last with
  | nil => exact List.Sublist.refl _
  | cons item items ih =>
    simp only [dedupFrom]
    split
    · exact (ih last).cons item
    · exact (ih (key item)).cons_cons item

/-- Deduplicating a sorted list above a kept key leaves strictly larger keys, in order. -/
theorem ordered_dedupFrom {last : K} (hsorted : items.Pairwise fun x y => key x ≤ key y)
    (hlast : ∀ x ∈ items, last ≤ key x) : Ordered key (dedupFrom key last items) ∧
      ∀ x ∈ dedupFrom key last items, last < key x := by
  induction items generalizing last with
  | nil => exact ⟨Ordered.nil, by simp [dedupFrom]⟩
  | cons item items ih =>
    obtain ⟨hhead, htail⟩ := pairwise_cons.mp hsorted
    simp only [dedupFrom]
    split
    · exact ih htail fun x hx => hlast x (mem_cons_of_mem _ hx)
    · rename_i hne
      obtain ⟨hord, hlt⟩ := ih htail hhead
      have hitem : last < key item := lt_of_le_of_ne (hlast item mem_cons_self) (Ne.symm hne)
      refine ⟨pairwise_cons.mpr ⟨hlt, hord⟩, ?_⟩
      intro x hx
      rcases mem_cons.mp hx with rfl | hx
      · exact hitem
      · exact lt_trans hitem (hlt x hx)

theorem key_mem_dedupFrom (last : K) (hx : x ∈ items) :
    key x = last ∨ ∃ y ∈ dedupFrom key last items, key y = key x := by
  induction items generalizing last with
  | nil => simp at hx
  | cons item items ih =>
    simp only [dedupFrom]
    rcases mem_cons.mp hx with rfl | hx
    · split
      · rename_i hkey
        exact Or.inl hkey
      · exact Or.inr ⟨x, mem_cons_self, rfl⟩
    · split
      · exact ih _ hx
      · rcases ih (key item) hx with hkey | ⟨y, hy, hkey⟩
        · exact Or.inr ⟨item, mem_cons_self, hkey.symm⟩
        · exact Or.inr ⟨y, mem_cons_of_mem _ hy, hkey⟩

theorem ordered_sortDedup (items : List α) : Ordered key (sortDedup key items) := by
  have hsorted := pairwise_insertionSort (fun x y : α => key x ≤ key y) items
  unfold sortDedup
  generalize items.insertionSort (fun x y => key x ≤ key y) = sorted at hsorted ⊢
  cases sorted with
  | nil => exact Ordered.nil
  | cons item rest =>
    obtain ⟨hhead, htail⟩ := pairwise_cons.mp hsorted
    obtain ⟨hord, hlt⟩ := ordered_dedupFrom htail hhead
    exact pairwise_cons.mpr ⟨hlt, hord⟩

/-- If a key determines the item, sorting and deduplicating keeps every item. -/
theorem mem_sortDedup (hkey : ∀ x ∈ items, ∀ y ∈ items, key x = key y → x = y) (x : α) :
    x ∈ sortDedup key items ↔ x ∈ items := by
  have hperm := perm_insertionSort (fun x y : α => key x ≤ key y) items
  rw [← hperm.mem_iff]
  have hkey' : ∀ x ∈ items.insertionSort (fun x y => key x ≤ key y),
      ∀ y ∈ items.insertionSort (fun x y => key x ≤ key y), key x = key y → x = y :=
    fun x hx y hy => hkey x (hperm.mem_iff.mp hx) y (hperm.mem_iff.mp hy)
  unfold sortDedup
  generalize items.insertionSort (fun x y => key x ≤ key y) = sorted at hkey' ⊢
  cases sorted with
  | nil => rfl
  | cons item rest =>
    constructor
    · intro hx
      rcases mem_cons.mp hx with rfl | hx
      · exact mem_cons_self
      · exact mem_cons_of_mem _ ((dedupFrom_sublist _ _).subset hx)
    · intro hx
      rcases mem_cons.mp hx with rfl | hrest
      · exact mem_cons_self
      · rcases key_mem_dedupFrom (key item) hrest with heq | ⟨y, hy, heq⟩
        · rw [hkey' x hx item mem_cons_self heq]
          exact mem_cons_self
        · have hymem : y ∈ item :: rest := mem_cons_of_mem _ ((dedupFrom_sublist _ _).subset hy)
          rw [← hkey' y hymem x hx heq]
          exact mem_cons_of_mem _ hy

/-- Seeking by key in a list whose positions are keys. -/
theorem slice_eq_seekFrom {S D : Type*} (dim : Dimension S D) (summary : α → S)
    {stepsOver : D → Bool} {target : K}
    (h : ∀ position item, stepsOver (dim.addSummary position (summary item)) = true ↔
      key item < target) (cursor : ListCursor α) : cursor.slice dim summary stepsOver =
      (takeBelow key target cursor.rest,
        { before := cursor.before ++ takeBelow key target cursor.rest
          rest := seekFrom key target cursor.rest }) :=
  ListCursor.slice_eq_span dim summary stepsOver (fun item => decide (key item < target))
    (fun position item => by rw [Bool.eq_iff_iff, h, decide_eq_true_iff]) cursor

end XorEditor.Lib.KeyedList
