import Mathlib.Data.List.Induction
import XorEditor.SumTree.TreeMap

/-!
# Bulk edits

`SumTree::edit` merges a list of edits into a keyed tree in one pass: inserted items are
buffered until the cursor has to move past older items.

* `edit`: the bulk edit
* `edit_merges`: what the tree holds then
* `extend_eq_insertAll_iff`: when a batch of insertions is read as a map
-/

namespace XorEditor.SumTree

open Lib List

universe u

open KeyedItem (key)

/-- `Edit`. -/
inductive Edit (T K : Type u) where
  | insert (item : T)
  | remove (k : K)

variable {T S K : Type u} [Summary S] [Item T S] [LawfulDimension K S] [LinearOrder K]
  [KeyedItem T S K]

/-- `Edit::key`. -/
def Edit.key : Edit T K → K
  | insert item => KeyedItem.key item
  | remove k => k

namespace Node

/-- The variables of the loop of `SumTree::edit`. -/
structure EditState (T S K : Type u) where
  cursor : Cursor T S K
  newTree : Node T S
  bufferedItems : List T
  removed : List T

/-- The cursor is moved to the key of an edit: the buffered items go into the tree, and the
items that are passed after them. -/
def EditState.moveTo (self : EditState T S K) (newKey : K) : Option (EditState T S K) := do
  let oldItem ← self.cursor.item
  if oldItem.any fun old => key old < newKey then
    let newTree ← self.newTree.extend self.bufferedItems
    let (cursor, slice) ← self.cursor.slice (compare newKey) .left
    return { self with cursor, newTree := ← newTree.append slice, bufferedItems := [] }
  else return self

/-- One round of the loop of `SumTree::edit`. -/
def EditState.step (self : EditState T S K) (edit : Edit T K) : Option (EditState T S K) := do
  let self ← self.moveTo edit.key
  let (oldItem, cursor) ← self.cursor.takeKey edit.key
  return { self with
    cursor
    removed := self.removed ++ oldItem.toList
    bufferedItems := match edit with
      | .insert item => self.bufferedItems ++ [item]
      | .remove _ => self.bufferedItems }

/-- `SumTree::edit` with the edits in the order of their keys: the new tree and the items that
were replaced or removed. -/
def editSorted (self : Node T S) (edits : List (Edit T K)) : Option (Node T S × List T) :=
  if edits.isEmpty then some (self, [])
  else do
    let (_, cursor) ← (Cursor.new self : Cursor T S K).seek (compare (Dimension.zero S)) .left
    let state ← edits.foldlM EditState.step ⟨cursor, .new, [], []⟩
    let newTree ← state.newTree.extend state.bufferedItems
    let (_, suffix) ← state.cursor.suffix
    return (← newTree.append suffix, state.removed)

/-- The edits in the order of their keys. -/
def Ordered (ordered edits : List (Edit T K)) : Prop :=
  ordered.Perm edits ∧ ordered.Pairwise fun a b => a.key ≤ b.key

/-- `sort_unstable_by_key`: edits of the same key may come in any order. -/
structure UnstableSort (T K : Type u) {S : Type u} [Summary S] [Item T S] [LawfulDimension K S]
    [LinearOrder K] [KeyedItem T S K] where
  sort : List (Edit T K) → List (Edit T K)
  ordered : ∀ edits, Ordered (sort edits) edits

/-- `SumTree::edit`. -/
def edit (sorter : UnstableSort T K) (self : Node T S) (edits : List (Edit T K)) :
    Option (Node T S × List T) :=
  self.editSorted (sorter.sort edits)

end Node

/-! ## Bulk edits -/

/-- The items that an edit inserts. -/
def Edit.inserted : Edit T K → List T
  | insert item => [item]
  | remove _ => []

omit [Summary S] [Item T S] [LawfulDimension K S] [LinearOrder K] [KeyedItem T S K] in
theorem Edit.length_inserted_le (edit : Edit T K) : edit.inserted.length ≤ 1 := by
  cases edit <;> simp [inserted]

/-- The edits mention the key. -/
def Mentions (edits : List (Edit T K)) (k : K) : Prop := ∃ edit ∈ edits, edit.key = k

instance (edits : List (Edit T K)) (k : K) : Decidable (Mentions edits k) :=
  inferInstanceAs (Decidable (∃ edit ∈ edits, edit.key = k))

section Merged

variable {edits : List (Edit T K)} {edit : Edit T K} {k : K}
  {merged passed rest removed front taken more : List T} {x : T}

omit [Summary S] [Item T S] [LawfulDimension K S] [LinearOrder K] [KeyedItem T S K] in
theorem mem_inserted : x ∈ edit.inserted ↔ edit = .insert x := by
  cases edit with
  | insert item => simp [Edit.inserted, eq_comm]
  | remove k => simp [Edit.inserted]

theorem key_of_mem_inserted (h : x ∈ edit.inserted) : key x = edit.key := by
  rw [mem_inserted.1 h, Edit.key]

theorem mentions_append_singleton :
    Mentions (edits ++ [edit]) k ↔ Mentions edits k ∨ edit.key = k := by
  simp [Mentions, or_and_right, exists_or]

/-- The items after some edits, in the order of their keys: `merged` is what has become of the
old items in `passed`, and `rest` are the old items behind them. -/
structure Merged (edits : List (Edit T K)) (passed rest merged removed : List T) : Prop where
  sorted : SortedKeys (merged ++ rest)
  mem_iff : ∀ x, x ∈ merged ↔ .insert x ∈ edits ∨ x ∈ passed ∧ ¬ Mentions edits (key x)
  removed_eq : removed = passed.filter fun x => Mentions edits (key x)
  edits_lt : ∀ edit ∈ edits, ∀ x ∈ rest, edit.key < key x
  passed_le : ∀ x ∈ passed, ∃ edit ∈ edits, key x ≤ edit.key

theorem Merged.not_mentions (h : Merged edits passed rest merged removed) (hx : x ∈ rest) :
    ¬ Mentions edits (key x) := by
  rintro ⟨edit, hedit, hkey⟩
  exact (h.edits_lt edit hedit x hx).ne hkey

/-- What is merged so far is at most as great as an edit. -/
theorem Merged.merged_le (h : Merged edits passed rest merged removed) (hx : x ∈ merged) :
    ∃ edit ∈ edits, key x ≤ edit.key := by
  rcases (h.mem_iff x).1 hx with hinsert | ⟨hpassed, -⟩
  · exact ⟨.insert x, hinsert, le_rfl⟩
  · exact h.passed_le x hpassed

/-- An edit passes the items with lesser keys, replaces or removes the one with its key, and
leaves those with greater keys. -/
theorem Merged.step (h : Merged edits passed (front ++ (taken ++ more)) merged removed)
    (hedits : ∀ earlier ∈ edits, earlier.key < edit.key) (hfront : ∀ x ∈ front, key x < edit.key)
    (htaken : ∀ x ∈ taken, key x = edit.key) (hmore : ∀ x ∈ more, edit.key < key x) :
    Merged (edits ++ [edit]) (passed ++ front ++ taken) more (merged ++ front ++ edit.inserted)
      (removed ++ taken) := by
  have hpassed : ∀ x ∈ passed, key x < edit.key := by
    intro x hx
    obtain ⟨earlier, hearlier, hle⟩ := h.passed_le x hx
    exact hle.trans_lt (hedits earlier hearlier)
  have hmerged : ∀ x ∈ merged ++ front, key x < edit.key := by
    intro x hx
    rcases mem_append.1 hx with hx | hx
    · obtain ⟨earlier, hearlier, hle⟩ := h.merged_le hx
      exact hle.trans_lt (hedits earlier hearlier)
    · exact hfront x hx
  refine ⟨?_, ?_, ?_, ?_, ?_⟩
  · have hsorted : SortedKeys ((merged ++ front) ++ more) := by
      refine List.Pairwise.sublist ?_ h.sorted
      simp [append_assoc]
    obtain ⟨hleft, hright, -⟩ := pairwise_append.1 hsorted
    rw [append_assoc]
    refine pairwise_append.2 ⟨hleft, pairwise_append.2 ⟨?_, hright, ?_⟩, ?_⟩
    · cases edit <;> simp [Edit.inserted]
    · intro a ha b hb
      rw [key_of_mem_inserted ha]
      exact hmore b hb
    · intro a ha b hb
      rcases mem_append.1 hb with hb | hb
      · rw [key_of_mem_inserted hb]
        exact hmerged a ha
      · exact (hmerged a ha).trans (hmore b hb)
  · intro x
    simp only [mem_append, mem_inserted, mem_singleton, mentions_append_singleton,
      h.mem_iff x, not_or]
    constructor
    · rintro ((( hinsert | ⟨hx, hnot⟩) | hx) | rfl)
      · exact .inl (.inl hinsert)
      · exact .inr ⟨.inl (.inl hx), hnot, (hpassed x hx).ne'⟩
      · exact .inr ⟨.inl (.inr hx), h.not_mentions (by simp [hx]), (hfront x hx).ne'⟩
      · exact .inl (.inr rfl)
    · rintro ((hinsert | hinsert) | ⟨(hx | hx) | hx, hnot, hne⟩)
      · exact .inl (.inl (.inl hinsert))
      · exact .inr hinsert.symm
      · exact .inl (.inl (.inr ⟨hx, hnot⟩))
      · exact .inl (.inr hx)
      · exact absurd (htaken x hx).symm hne
  · have hold : passed.filter (fun x => decide (Mentions (edits ++ [edit]) (key x))) =
        passed.filter fun x => decide (Mentions edits (key x)) := by
      refine filter_congr fun x hx => ?_
      simp [mentions_append_singleton, (hpassed x hx).ne']
    have hkept : front.filter (fun x => decide (Mentions (edits ++ [edit]) (key x))) = [] := by
      refine filter_eq_nil_iff.2 fun x hx => ?_
      have hnot : ¬ Mentions edits (key x) := h.not_mentions (by simp [hx])
      simp [mentions_append_singleton, (hfront x hx).ne', hnot]
    have hgone : taken.filter (fun x => decide (Mentions (edits ++ [edit]) (key x))) = taken := by
      refine filter_eq_self.2 fun x hx => ?_
      simp [mentions_append_singleton, (htaken x hx).symm]
    rw [h.removed_eq, filter_append, filter_append, hold, hkept, hgone, append_nil]
  · intro e he x hx
    rcases mem_append.1 he with he | he
    · exact h.edits_lt e he x (by simp [hx])
    · obtain rfl : e = edit := by simpa using he
      exact hmore x hx
  · intro x hx
    simp only [mem_append] at hx
    rcases hx with (hx | hx) | hx
    · obtain ⟨earlier, hearlier, hle⟩ := h.passed_le x hx
      exact ⟨earlier, by simp [hearlier], hle⟩
    · exact ⟨edit, by simp, (hfront x hx).le⟩
    · exact ⟨edit, by simp, (htaken x hx).le⟩

end Merged

namespace Node

variable {edits : List (Edit T K)}
namespace EditState

variable {xs passed rest flushed : List T} {done : List (Edit T K)} {state : EditState T S K}

/-- The state of the loop after some edits in the order of their keys: the cursor has passed
`passed`, and `flushed` is in the new tree.  If the keys of the edits are different, the items
are merged. -/
structure Runs (xs : List T) (done : List (Edit T K)) (state : EditState T S K)
    (passed rest flushed : List T) : Prop where
  seekable : state.cursor.tree.Seekable xs
  splits : state.cursor.Splits passed rest
  newTree : state.newTree.Holds flushed
  few : (flushed ++ state.bufferedItems).length ≤ passed.length + done.length
  fewBuffered : state.bufferedItems.length ≤ done.length
  passed_le : ∀ x ∈ passed, ∃ edit ∈ done, key x ≤ edit.key
  inserted : (done.flatMap Edit.inserted).Sublist (flushed ++ state.bufferedItems)
  merged : (done.Pairwise fun a b => a.key < b.key) →
    Merged done passed rest (flushed ++ state.bufferedItems) state.removed

/-- The new tree, the buffer and the items ahead of the cursor have few items together. -/
theorem Runs.length_flushed_add_le (h : Runs xs done state passed rest flushed) :
    (flushed ++ state.bufferedItems).length + rest.length ≤ seekLimit + done.length := by
  have hlength := h.seekable.length_le
  have hfew := h.few
  rw [← h.seekable.holds.2, h.splits.items_eq, length_append] at hlength
  omega

variable (h : Runs xs done state passed rest flushed) (hxs : SortedKeys xs)
include h hxs

/-- The cursor is moved to a key, and what it passes goes behind the items so far. -/
theorem Runs.moveTo {k : K} (hk : ∀ edit ∈ done, edit.key ≤ k) (hfew : done.length ≤ seekLimit) :
    ∃ moved flushed', state.moveTo k = some moved ∧ moved.cursor.tree = state.cursor.tree ∧
      moved.cursor.Splits (passed ++ rest.takeWhile fun x => key x < k)
        (rest.dropWhile fun x => key x < k) ∧
      moved.newTree.Holds flushed' ∧
      flushed' ++ moved.bufferedItems =
        flushed ++ state.bufferedItems ++ rest.takeWhile (fun x => key x < k) ∧
      moved.bufferedItems.length ≤ state.bufferedItems.length ∧
      moved.removed = state.removed := by
  have hitem := h.splits.item h.seekable.holds
  cases hany : rest.head?.any fun old => key old < k with
  | false =>
    have hstay : rest.takeWhile (fun x => decide (key x < k)) = [] ∧
        rest.dropWhile (fun x => decide (key x < k)) = rest := by
      cases rest with
      | nil => simp
      | cons x rest =>
        have hlt : ¬ key x < k := by simpa using hany
        simp [hlt]
    refine ⟨state, flushed, ?_, rfl, ?_, h.newTree, ?_, le_rfl, rfl⟩
    · rw [EditState.moveTo, hitem]
      simp [hany]
    · rw [hstay.1, hstay.2, append_nil]
      exact h.splits
    · rw [hstay.1, append_nil]
  | true =>
    have hfront : (rest.takeWhile fun x => decide (key x < k)).length ≤ rest.length :=
      (takeWhile_sublist _).length_le
    obtain ⟨pieces, hfaces, rfl⟩ := h.splits.faces
    have hpassed : ∀ x ∈ passed, key x ≤ k := by
      intro x hx
      obtain ⟨edit, hedit, hle⟩ := h.passed_le x hx
      exact hle.trans (hk edit hedit)
    obtain ⟨cursor, slice, hslice, htree, hheld, hsplits⟩ :=
      hfaces.slice_key h.seekable hxs hpassed
    have hflushed := h.length_flushed_add_le
    have hlimit := seekLimit_lt
    obtain ⟨grown, hgrown, hholds⟩ :=
      (h.newTree.extend (h.fewBuffered.trans hfew)).exists_holds (by omega)
    obtain ⟨newTree, hnewTree, hholds'⟩ := (hholds.append hheld).exists_holds (by
      rw [length_append]
      omega)
    refine ⟨{ state with cursor, newTree, bufferedItems := [] }, _, ?_, htree, hsplits, hholds',
      append_nil _, Nat.zero_le _, rfl⟩
    rw [EditState.moveTo, hitem]
    simp [hany, hgrown, hslice, hnewTree]

/-- One edit.  Its key is not less than those before it. -/
theorem Runs.step {edit : Edit T K} (hk : ∀ earlier ∈ done, earlier.key ≤ edit.key)
    (hfew : done.length ≤ seekLimit) :
    ∃ next passed' rest' flushed', state.step edit = some next ∧
      Runs xs (done ++ [edit]) next passed' rest' flushed' := by
  obtain ⟨moved, flushed', hmove, hmoved, hsplits, hnewTree, hmerged, hbuffered, hremoved⟩ :=
    h.moveTo hxs hk hfew
  have hseekable : moved.cursor.tree.Seekable xs := by
    rw [hmoved]
    exact h.seekable
  have hrest : SortedKeys rest := by
    rw [← h.seekable.holds.2, h.splits.items_eq] at hxs
    exact (pairwise_append.1 hxs).2.1
  have hless : ∀ x ∈ rest.takeWhile (fun x => decide (key x < edit.key)), key x < edit.key :=
    fun x hx => by simpa using mem_takeWhile_imp hx
  obtain ⟨taken, cursor, more, htake, htree, hdrop, hsplits', htaken, hgreater⟩ :=
    hsplits.takeKey_lt hseekable (hrest.sublist (dropWhile_sublist _))
      fun x hx => hrest.le_of_mem_dropWhile hx
  -- the rest is what is passed, the item with the key, and items with greater keys
  have hsplit : rest = rest.takeWhile (fun x => decide (key x < edit.key)) ++
      (taken.toList ++ more) := by
    rw [← hdrop, takeWhile_append_dropWhile]
  refine ⟨⟨cursor, moved.newTree, moved.bufferedItems ++ edit.inserted,
    moved.removed ++ taken.toList⟩, _, more, flushed', ?_, by rwa [htree], hsplits', hnewTree,
    ?_, ?_, ?_, ?_, ?_⟩
  · rw [EditState.step, hmove]
    cases edit with
    | insert item | remove k => simp [htake, Edit.inserted]
  · have hold := h.few
    have hone := edit.length_inserted_le
    rw [← append_assoc, hmerged]
    simp only [length_append, length_singleton] at hold ⊢
    omega
  · have hold := h.fewBuffered
    have hone := edit.length_inserted_le
    simp only [length_append, length_singleton]
    omega
  · intro x hx
    simp only [mem_append] at hx
    rcases hx with (hx | hx) | hx
    · obtain ⟨earlier, hearlier, hle⟩ := h.passed_le x hx
      exact ⟨earlier, by simp [hearlier], hle⟩
    · exact ⟨edit, by simp, (hless x hx).le⟩
    · exact ⟨edit, by simp, (htaken x (by simpa using hx)).le⟩
  · rw [flatMap_append, flatMap_singleton, ← append_assoc, hmerged]
    exact (h.inserted.trans (sublist_append_left ..)).append (List.Sublist.refl _)
  · intro hsorted
    obtain ⟨hdone, -, hlt⟩ := pairwise_append.1 hsorted
    have hbefore := h.merged hdone
    rw [hsplit] at hbefore
    have hstep := hbefore.step (fun earlier hearlier => hlt earlier hearlier edit (by simp)) hless
      (by simpa using htaken) hgreater
    rwa [← hmerged, ← hremoved, append_assoc flushed'] at hstep

/-- All edits, in the order of their keys. -/
theorem Runs.foldlM (hsorted : (done ++ edits).Pairwise fun a b => a.key ≤ b.key)
    (hfew : (done ++ edits).length ≤ seekLimit) :
    ∃ final passed' rest' flushed', edits.foldlM EditState.step state = some final ∧
      Runs xs (done ++ edits) final passed' rest' flushed' := by
  induction edits generalizing done state passed rest flushed with
  | nil => exact ⟨state, passed, rest, flushed, rfl, by rwa [append_nil]⟩
  | cons edit edits ih =>
    have hk : ∀ earlier ∈ done, earlier.key ≤ edit.key := fun earlier hearlier =>
      (pairwise_append.1 hsorted).2.2 earlier hearlier edit (by simp)
    obtain ⟨next, passed', rest', flushed', hstep, hnext⟩ := h.step hxs hk (by
      rw [length_append] at hfew
      omega)
    obtain ⟨final, passed', rest', flushed', hfold, hfinal⟩ :=
      ih hnext (by simpa using hsorted) (by simpa using hfew)
    refine ⟨final, passed', rest', flushed', ?_, by simpa using hfinal⟩
    rw [foldlM_cons, hstep]
    exact hfold

end EditState

variable {self : Node T S} {xs : List T}

/-- The cursor that `edit` starts with is before all items. -/
theorem exists_seek_zero (hseekable : self.Seekable xs) (hxs : SortedKeys xs) :
    ∃ found cursor, (Cursor.new self : Cursor T S K).seek (compare (Dimension.zero S)) .left =
        some (found, cursor) ∧
      cursor.tree = self ∧ cursor.Splits [] xs := by
  have hsorted : SortedKeys ([] ++ xs) := hxs
  obtain ⟨found, cursor, rest, hseek, htree, hsplit, hsplits⟩ :=
    exists_seek hseekable (isGE_compare (le_refl (Dimension.zero S : K)))
      hsorted.ahead
  refine ⟨found, cursor, hseek, htree, ?_⟩
  -- no key is less than zero
  have hnone : skippedItems (Walk.seek (compare (Dimension.zero S : K)) .left)
      (Dimension.zero S) xs = [] := by
    have htake := @SortedKeys.skippedItems _ _ _ _ _ _ _ _ _ _ (Dimension.zero S : K) hsorted
    rw [addItems_nil] at htake
    rw [htake]
    cases xs with
    | nil => rfl
    | cons x xs =>
      have hle : ¬ key x < (Dimension.zero S : K) := not_lt.2 (KeyedItem.zero_le T (key x))
      rw [takeWhile_cons_of_neg (by simpa using hle)]
  rw [hnone] at hsplit hsplits
  rwa [nil_append, ← hsplit] at *

/-- `edit` with the edits in the order of their keys.  Whatever is inserted is in the new
tree. -/
theorem editSorted_holds (hseekable : self.Seekable xs) (hxs : SortedKeys xs)
    (hsorted : edits.Pairwise fun a b => a.key ≤ b.key) (hfew : edits.length ≤ seekLimit) :
    ∃ newTree removed merged, self.editSorted edits = some (newTree, removed) ∧
      newTree.Holds merged ∧ (edits.flatMap Edit.inserted).Sublist merged ∧
      ((edits.Pairwise fun a b => a.key < b.key) → SortedKeys merged ∧
        (∀ x, x ∈ merged ↔ .insert x ∈ edits ∨ x ∈ xs ∧ ¬ Mentions edits (key x)) ∧
        removed = xs.filter fun x => Mentions edits (key x)) := by
  cases edits with
  | nil =>
    refine ⟨self, [], xs, rfl, hseekable.holds, by simp, fun _ => ⟨hxs, ?_, ?_⟩⟩
    · simp [Mentions]
    · simp [Mentions]
  | cons edit edits =>
    obtain ⟨found, cursor, hseek, rfl, hsplits⟩ := exists_seek_zero hseekable hxs
    have hstart : EditState.Runs xs [] ⟨cursor, Node.new, [], []⟩ [] xs [] :=
      ⟨hseekable, hsplits, holds_new, by simp, by simp, nofun, by simp,
        fun _ => ⟨by simpa using hxs, by simp, rfl, nofun, nofun⟩⟩
    obtain ⟨final, passed, rest, flushed, hfold, hfinal⟩ := hstart.foldlM hxs hsorted hfew
    rw [nil_append] at hfinal
    have hflushed := hfinal.length_flushed_add_le
    have hlimit := seekLimit_lt
    obtain ⟨grown, hgrown, hholds'⟩ :=
      (hfinal.newTree.extend (hfinal.fewBuffered.trans hfew)).exists_holds (by omega)
    obtain ⟨pieces, hfaces, hpieces⟩ := hfinal.splits.faces
    obtain ⟨moved, suffix, hsuffix, hrest⟩ := hfaces.suffix hfinal.seekable
    rw [hpieces] at hrest
    obtain ⟨newTree, hnewTree, hmerged⟩ := (hholds'.append hrest).exists_holds (by
      rw [length_append]
      omega)
    refine ⟨newTree, final.removed, _, ?_, hmerged,
      hfinal.inserted.trans (sublist_append_left ..), fun hstrict => ?_⟩
    · rw [editSorted, if_neg (by simp), hseek]
      simp only [some_do, hfold, hgrown, hsuffix, hnewTree]
      rfl
    · have hfinish := hfinal.merged hstrict
      have hsplit : xs = passed ++ rest := by
        rw [← hfinal.seekable.holds.2, hfinal.splits.items_eq]
      have hnot : ∀ x ∈ rest, ¬ Mentions (edit :: edits) (key x) :=
        fun x hx => hfinish.not_mentions hx
      refine ⟨hfinish.sorted, fun x => ?_, ?_⟩
      · rw [mem_append, hfinish.mem_iff, hsplit, mem_append]
        have hnot := hnot x
        tauto
      · have hnone : rest.filter (fun x => decide (Mentions (edit :: edits) (key x))) = [] :=
          filter_eq_nil_iff.2 fun x hx => by simpa using hnot x hx
        rw [hfinish.removed_eq, hsplit, filter_append, hnone, append_nil]

/-- The merge sort keeps edits of the same key as they come. -/
def UnstableSort.merge : UnstableSort T K where
  sort edits := edits.mergeSort fun a b => a.key ≤ b.key
  ordered edits := ⟨mergeSort_perm .., by
    have htrans : ∀ a b c : Edit T K, decide (a.key ≤ b.key) = true →
        decide (b.key ≤ c.key) = true → decide (a.key ≤ c.key) = true := by
      simp only [decide_eq_true_eq]
      exact fun _ _ _ => le_trans
    have htotal : ∀ a b : Edit T K,
        (decide (a.key ≤ b.key) || decide (b.key ≤ a.key)) = true := by
      intro a b
      simpa using le_total a.key b.key
    simpa using pairwise_mergeSort htrans htotal edits⟩

theorem Ordered.pairwise_lt {ordered edits : List (Edit T K)} (h : Ordered ordered edits)
    (hdistinct : (edits.map Edit.key).Nodup) : ordered.Pairwise fun a b => a.key < b.key := by
  have hnodup : (ordered.map Edit.key).Nodup := (h.1.map _).nodup_iff.2 hdistinct
  exact (h.2.and (pairwise_map.1 hnodup)).imp fun hboth => hboth.1.lt_of_ne hboth.2

/-- `SumTree::edit` is a sorted merge.  If the keys of the edits are different, the new tree has
the inserted items and the old items whose keys are not mentioned, in the order of their keys,
and the old items whose keys are mentioned are returned in that order.  It does not matter which
sort is used. -/
theorem edit_merges (sorter : UnstableSort T K) (hseekable : self.Seekable xs)
    (hxs : SortedKeys xs) (edits : List (Edit T K)) (hdistinct : (edits.map Edit.key).Nodup)
    (hfew : edits.length ≤ seekLimit) :
    (∀ ordered, Ordered ordered edits → self.editSorted ordered = self.edit sorter edits) ∧
    ∃ newTree removed merged, self.edit sorter edits = some (newTree, removed) ∧
      newTree.Holds merged ∧ SortedKeys merged ∧
      (∀ x, x ∈ merged ↔ .insert x ∈ edits ∨ x ∈ xs ∧ ¬ Mentions edits (key x)) ∧
      removed = (xs.filter fun x => Mentions edits (key x)) ∧ SortedKeys removed := by
  have hordered := sorter.ordered edits
  constructor
  · intro ordered h
    have heq : ordered = sorter.sort edits := by
      refine (h.1.trans hordered.1.symm).eq_of_pairwise ?_ h.2 hordered.2
      intro a b ha hb hab hba
      exact inj_on_of_nodup_map hdistinct (h.1.mem_iff.1 ha) (hordered.1.mem_iff.1 hb)
        (hab.antisymm hba)
    rw [heq]
    rfl
  · obtain ⟨newTree, removed, merged, hedit, hmerged, -, hstrict⟩ :=
      editSorted_holds hseekable hxs hordered.2 (hordered.1.length_eq.trans_le hfew)
    obtain ⟨hsorted, hmem, hremoved⟩ := hstrict (hordered.pairwise_lt hdistinct)
    have hmentions : ∀ k, Mentions (sorter.sort edits) k ↔ Mentions edits k := by
      intro k
      simp only [Mentions, hordered.1.mem_iff]
    simp only [hmentions, hordered.1.mem_iff] at hmem hremoved
    refine ⟨newTree, removed, merged, hedit, hmerged, hsorted, hmem, hremoved, ?_⟩
    rw [hremoved]
    exact hxs.filter _

end Node

/-- An insertion and a removal. -/
theorem edit_merges_two : ∃ tree newTree : TreeMap Nat Nat, ∃ removed merged,
    tree.Holds [⟨1, 10⟩, ⟨3, 30⟩] ∧
    tree.edit .merge [.insert ⟨2, 20⟩, .remove ⟨some 1⟩] = some (newTree, removed) ∧
    newTree.Holds merged ∧ SortedKeys merged ∧ ⟨2, 20⟩ ∈ merged := by
  obtain ⟨tree, -, hseekable⟩ := Node.fromIter_seekable (S := MapKey Nat)
    (show [(⟨1, 10⟩ : MapEntry Nat Nat), ⟨3, 30⟩].length ≤ Node.seekLimit by decide)
  obtain ⟨-, newTree, removed, merged, hedit, hmerged, hsorted, hmem, -⟩ :=
    Node.edit_merges .merge hseekable (TreeMap.sortedKeys_iff.2 (by decide))
      [.insert ⟨2, 20⟩, .remove ⟨some 1⟩] (by decide) (by decide)
  exact ⟨tree, newTree, removed, merged, hseekable.holds, hedit, hmerged, hsorted,
    (hmem _).2 (.inl (by simp))⟩

/-! ## Edits one by one -/

/-- The edit of a map: its key is bound to the inserted item, or to none. -/
def Edit.bind (map : K → Option T) (self : Edit T K) : K → Option T :=
  Function.update map self.key self.inserted.head?

namespace Node

/-- `insert_or_replace` or `remove`. -/
def editOne (self : Node T S) : Edit T K → Option (Node T S)
  | .insert item => Prod.fst <$> self.insertOrReplace item
  | .remove k => Prod.fst <$> self.remove k

/-- The items of the tree, in the order of their keys, are those of a map. -/
def Binds (self : Node T S) (map : K → Option T) : Prop :=
  ∃ xs, self.Holds xs ∧ SortedKeys xs ∧ ∀ x, x ∈ xs ↔ map (key x) = some x

theorem Binds.editOne {self : Node T S} {map : K → Option T} (h : self.Binds map)
    (hlow : self.height < stackCapacity) (edit : Edit T K) :
    ∃ next, self.editOne edit = some next ∧ next.Binds (edit.bind map) := by
  obtain ⟨xs, hholds, hxs, hmem⟩ := h
  cases edit with
  | insert item =>
    obtain ⟨next, _, hnext, hnew⟩ := insertOrReplace_holds ⟨hholds, hlow⟩ hxs item
    refine ⟨next, by rw [Node.editOne, hnext]; rfl, _, hnew, hxs.insertKey item, fun x => ?_⟩
    rw [mem_insertKey, hmem, Edit.bind, Function.update_apply]
    grind [Edit.key, Edit.inserted]
  | remove k =>
    obtain ⟨next, _, ys, hnext, hnew, hys, hleft⟩ := remove_holds ⟨hholds, hlow⟩ hxs k
    refine ⟨next, by rw [Node.editOne, hnext]; rfl, ys, hnew, hys, fun x => ?_⟩
    rw [hleft, hmem, Edit.bind, Function.update_apply]
    grind [Edit.key, Edit.inserted]

theorem Binds.foldlM {self : Node T S} {map : K → Option T} (h : self.Binds map)
    (hlow : self.StaysLow Node.editOne edits) :
    ∃ tree : Node T S, edits.foldlM Node.editOne self = some tree ∧
      tree.Binds (edits.foldl Edit.bind map) := by
  induction edits generalizing self map with
  | nil => exact ⟨self, rfl, h⟩
  | cons edit edits ih =>
    obtain ⟨next, hnext, hbinds⟩ := h.editOne hlow.1 edit
    obtain ⟨tree, htree, hfinal⟩ := ih hbinds (hlow.2 next hnext)
    refine ⟨tree, ?_, hfinal⟩
    rw [foldlM_cons, hnext]
    exact htree

/-- Any calls of `insert_or_replace` and `remove`, from the empty tree on, leave the items that a
map with the same updates has, as long as the stack of a cursor has room for the trees. -/
theorem editOne_binds (hlow : (Node.new : Node T S).StaysLow editOne edits) :
    ∃ tree : Node T S, edits.foldlM editOne Node.new = some tree ∧
      tree.Binds (edits.foldl Edit.bind fun _ => none) :=
  Binds.foldlM ⟨[], holds_new, List.Pairwise.nil, by simp⟩ hlow

/-- Two insertions, a replacement and a removal. -/
theorem editOne_binds_four : ∃ tree : TreeMap Nat Nat,
    [.insert ⟨1, 10⟩, .insert ⟨2, 20⟩, .insert ⟨1, 11⟩, .remove ⟨some 2⟩].foldlM editOne Node.new =
      some tree ∧ ∀ entry, entry ∈ tree.items ↔ entry = ⟨1, 11⟩ := by
  have hlow : (Node.new : TreeMap Nat Nat).StaysLow editOne
      [.insert ⟨1, 10⟩, .insert ⟨2, 20⟩, .insert ⟨1, 11⟩, .remove ⟨some 2⟩] := by decide +kernel
  obtain ⟨tree, htree, xs, hholds, -, hmem⟩ := editOne_binds hlow
  refine ⟨tree, htree, fun entry => ?_⟩
  rw [hholds.2, hmem]
  simp only [foldl_cons, foldl_nil, Edit.bind, Edit.key, Edit.inserted, head?_cons, head?_nil,
    Function.update_apply, KeyedItem.key]
  grind [MapEntry.ext_iff]

end Node

namespace TreeMap

variable {Q V : Type u}

/-- The edits of `extend`. -/
def insertions (pairs : List (Q × V)) : List (Edit (MapEntry Q V) (MapKey Q)) :=
  pairs.map fun pair => .insert ⟨pair.1, pair.2⟩

theorem flatMap_insertions (pairs : List (Q × V)) : (insertions pairs).flatMap Edit.inserted =
      pairs.map fun pair => ⟨pair.1, pair.2⟩ := by
  induction pairs with
  | nil => rfl
  | cons pair pairs ih =>
    rw [insertions, map_cons, flatMap_cons, map_cons, ← ih]
    rfl

variable {pairs : List (Q × V)} {entry : MapEntry Q V}

theorem insert_mem_insertions :
    .insert entry ∈ insertions pairs ↔ (entry.key, entry.value) ∈ pairs := by
  simp only [insertions, mem_map, Edit.insert.injEq, MapEntry.ext_iff]
  constructor
  · rintro ⟨pair, hpair, hkey, hvalue⟩
    rwa [← hkey, ← hvalue]
  · exact fun hpair => ⟨_, hpair, rfl, rfl⟩

variable [LinearOrder Q]

/-- `TreeMap::extend`. -/
def extend (sorter : Node.UnstableSort (MapEntry Q V) (MapKey Q)) (self : TreeMap Q V)
    (pairs : List (Q × V)) : Option (TreeMap Q V) := do
  let (newTree, _) ← self.edit sorter (insertions pairs)
  return newTree

variable {self : TreeMap Q V} {xs : List (MapEntry Q V)}

theorem mentions_insertions :
    Mentions (insertions pairs) (KeyedItem.key entry) ↔ entry.key ∈ pairs.map Prod.fst := by
  simp [Mentions, insertions, Edit.key, KeyedItem.key]

theorem nodup_key_insertions (h : (pairs.map Prod.fst).Nodup) :
    ((insertions pairs).map Edit.key).Nodup := by
  have hkeys : (insertions pairs).map Edit.key =
      (pairs.map Prod.fst).map fun k => (⟨some k⟩ : MapKey Q) := by
    simp [insertions, Edit.key, KeyedItem.key]
  rw [hkeys]
  exact h.map fun a b hab => by simpa using hab

/-- The items of `extend` are in the order of their keys only if no key occurs twice. -/
theorem nodup_of_sortedKeys {ordered : List (Edit (MapEntry Q V) (MapKey Q))}
    (hordered : Node.Ordered ordered (insertions pairs)) {merged : List (MapEntry Q V)}
    (hsublist : (ordered.flatMap Edit.inserted).Sublist merged) (hsorted : SortedKeys merged) :
    (pairs.map Prod.fst).Nodup := by
  have hinserted := sortedKeys_iff.1 (hsorted.sublist hsublist)
  have hnodup : ((ordered.flatMap Edit.inserted).map MapEntry.key).Nodup :=
    pairwise_map.2 (hinserted.imp fun hlt => hlt.ne)
  have hperm := (hordered.1.flatMap_right Edit.inserted).map MapEntry.key
  rw [flatMap_insertions, map_map] at hperm
  exact hperm.nodup_iff.1 hnodup

/-- `extend` is repeated `insert` exactly if no key occurs twice in the list: it leaves the map
in the order of the keys, with the values that inserting the pairs one by one gives.  This does
not depend on how the sort leaves pairs with the same key. -/
theorem extend_eq_insertAll_iff (sorter : Node.UnstableSort (MapEntry Q V) (MapKey Q))
    (h : self.Represents xs) (pairs : List (Q × V)) (hlow : self.height < stackCapacity)
    (hstays : self.StaysLow insertPair pairs) (hfew : pairs.length ≤ Node.seekLimit) :
    ∃ extended inserted, self.extend sorter pairs = some extended ∧
      self.insertAll pairs = some inserted ∧
      (SortedKeys extended.items ∧ (∀ k, extended.get k = inserted.get k) ↔
        (pairs.map Prod.fst).Nodup) := by
  obtain ⟨inserted, hinserted, hrepresents⟩ := h.insertAll pairs hstays
  have hordered := sorter.ordered (insertions pairs)
  have hlength : (sorter.sort (insertions pairs)).length ≤ Node.seekLimit := by
    rw [hordered.1.length_eq, insertions, length_map]
    exact hfew
  obtain ⟨extended, removed, merged, hedit, hmerged, hsublist, hstrict⟩ :=
    Node.editSorted_holds ⟨h.holds, hlow⟩ h.sorted hordered.2 hlength
  refine ⟨extended, inserted, by rw [extend, Node.edit, hedit]; rfl, hinserted, ?_⟩
  rw [hmerged.2]
  refine ⟨fun hboth => nodup_of_sortedKeys hordered hsublist hboth.1, fun hnodup => ?_⟩
  obtain ⟨hsorted, hmem, -⟩ := hstrict (hordered.pairwise_lt (nodup_key_insertions hnodup))
  refine ⟨hsorted, fun k => ?_⟩
  rw [get_eq_lookup hmerged hsorted, get_eq_lookup hrepresents.holds hrepresents.sorted]
  refine congrArg some (Option.ext fun v => ?_)
  rw [lookup_eq_some hsorted, lookup_eq_some hrepresents.sorted]
  have hmentions : ∀ key, Mentions (sorter.sort (insertions pairs)) key ↔
      Mentions (insertions pairs) key := by
    simp only [Mentions, hordered.1.mem_iff, implies_true]
  rw [hmem, mem_foldl_insertKey hnodup, hordered.1.mem_iff, insert_mem_insertions, hmentions,
    mentions_insertions]

/-- Two different keys. -/
theorem extend_two : ∃ extended inserted : TreeMap Nat Nat,
    extend .merge Node.new [(2, 20), (1, 10)] = some extended ∧
    insertAll Node.new [(2, 20), (1, 10)] = some inserted ∧
    SortedKeys extended.items ∧ ∀ k, extended.get k = inserted.get k := by
  obtain ⟨extended, inserted, hextend, hinsert, hiff⟩ :=
    extend_eq_insertAll_iff .merge ⟨Node.holds_new, List.Pairwise.nil⟩
      [((2 : Nat), (20 : Nat)), (1, 10)] (by decide) (by decide +kernel) (by decide)
  exact ⟨extended, inserted, hextend, hinsert, hiff.2 (by decide)⟩

/-- A key that occurs twice in the list of `extend` is left twice in the map. -/
theorem extend_duplicate : ∃ extended : TreeMap Nat Nat,
    extend .merge Node.new [(1, 10), (1, 20)] = some extended ∧ ¬ SortedKeys extended.items ∧
    2 ≤ (extended.items.filter fun entry => entry.key = 1).length := by
  have hordered := Node.UnstableSort.merge.ordered (insertions [((1 : Nat), (10 : Nat)), (1, 20)])
  obtain ⟨extended, removed, merged, hedit, hmerged, hsublist, -⟩ :=
    Node.editSorted_holds Node.seekable_new List.Pairwise.nil hordered.2
      (hordered.1.length_eq.trans_le (by decide))
  refine ⟨extended, by rw [extend, Node.edit, hedit]; rfl, ?_, ?_⟩
  · rw [hmerged.2]
    intro hsorted
    exact absurd (nodup_of_sortedKeys hordered hsublist hsorted) (by decide)
  · have hperm := hordered.1.flatMap_right Edit.inserted
    rw [flatMap_insertions] at hperm
    have hlength := (hperm.filter fun entry : MapEntry Nat Nat => decide (entry.key = 1)).length_eq
    rw [hmerged.2]
    calc 2 = _ := hlength.symm
      _ ≤ _ := (hsublist.filter _).length_le

end TreeMap

end XorEditor.SumTree
