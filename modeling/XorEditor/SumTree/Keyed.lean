import Mathlib.Data.List.TakeWhile
import XorEditor.Lib.KeyedList
import XorEditor.SumTree.Find

/-!
# Keyed trees

The items of a keyed tree are ordered by their keys, and a key is a dimension: the position
behind an item is the item's key.

* `KeyedItem`: an item with its key
* `SortedKeys`: the order
* `insertOrReplace_holds`, `remove_holds`: the two edits by key
-/

namespace XorEditor.SumTree

open Lib List

universe u

/-- `KeyedItem`.  Along items in the order of their keys, the dimension is the key of the last
one, and zero is before all keys. -/
class KeyedItem (T : Type u) (S K : outParam (Type u)) [Summary S] [Item T S] [LawfulDimension K S]
    [LinearOrder K] where
  key : T → K
  zero_le (T) : ∀ k : K, Dimension.zero S ≤ k
  addItems_key : ∀ (xs : List T) (x : T), (xs ++ [x]).Pairwise (fun a b => key a < key b) →
    addItems (Dimension.zero S) (xs ++ [x]) = key x

open KeyedItem (key)

variable {T S K : Type u} [Summary S] [Item T S] [LawfulDimension K S] [LinearOrder K]
  [KeyedItem T S K]

/-- The item that the cursor points at, if it has the key; the cursor then passes it. -/
def Cursor.takeKey (self : Cursor T S K) (k : K) : Option (Option T × Cursor T S K) := do
  match ← self.item with
  | some item =>
    if key item = k then return (some item, ← self.next) else return (none, self)
  | none => return (none, self)

namespace Node

/-- `SumTree::insert_or_replace`: the new tree and the item that was replaced. -/
def insertOrReplace (self : Node T S) (item : T) : Option (Node T S × Option T) := do
  let cursor : Cursor T S K := .new self
  let (cursor, newTree) ← cursor.slice (compare (key item)) .left
  let (replaced, cursor) ← cursor.takeKey (key item)
  let newTree ← newTree.push item
  let (_, suffix) ← cursor.suffix
  return (← newTree.append suffix, replaced)

/-- `SumTree::remove`. -/
def remove (self : Node T S) (k : K) : Option (Node T S × Option T) := do
  let cursor : Cursor T S K := .new self
  let (cursor, newTree) ← cursor.slice (compare k) .left
  let (removed, cursor) ← cursor.takeKey k
  let (_, suffix) ← cursor.suffix
  return (← newTree.append suffix, removed)

end Node

/-! ## Cursors over keys -/

/-- The keys strictly increase. -/
def SortedKeys (xs : List T) : Prop := xs.Pairwise fun a b => key a < key b

section Cursor

variable {xs passed rest : List T} {x : T} {k : K}

/-- The position behind items in order is the key of the last one. -/
theorem SortedKeys.addItems_concat (h : SortedKeys (xs ++ [x])) :
    addItems (Dimension.zero S) (xs ++ [x]) = key x :=
  KeyedItem.addItems_key xs x h

/-- The target of a seek to a key is not before the keys that are less. -/
theorem SortedKeys.isGE (h : SortedKeys passed) (hle : ∀ x ∈ passed, key x ≤ k) :
    (compare k (addItems (Dimension.zero S) passed)).isGE = true := by
  refine isGE_compare ?_
  rcases eq_nil_or_concat' passed with rfl | ⟨init, last, rfl⟩
  · exact KeyedItem.zero_le T k
  · rw [h.addItems_concat]
    exact hle last (by simp)

theorem SortedKeys.ahead {bias : Bias} (h : SortedKeys (passed ++ rest)) :
    Ahead (compare k) bias (addItems (Dimension.zero S) passed) rest := by
  refine ahead_of_le (fun front => addItems (addItems (Dimension.zero S) passed) front) k
    (fun _ _ _ => rfl) ?_ bias
  rintro front middle hne ⟨back, rfl⟩
  obtain ⟨init, last, rfl⟩ := (eq_nil_or_concat' front).resolve_left hne
  rcases eq_nil_or_concat' middle with rfl | ⟨init', last', rfl⟩
  · simp
  · have hsorted : SortedKeys (passed ++ init ++ [last] ++ init' ++ [last']) := by
      refine List.Pairwise.sublist ?_ h
      simp [append_assoc]
    have hlast : SortedKeys ((passed ++ init) ++ [last]) := by
      refine List.Pairwise.sublist ?_ hsorted
      simp [append_assoc]
    simp only [← addItems_append, ← append_assoc]
    rw [hlast.addItems_concat, hsorted.addItems_concat]
    exact ((pairwise_append.1 hsorted).2.2 last (by simp) last' (by simp)).le

/-- A seek to a key passes the items whose keys are less. -/
theorem SortedKeys.skippedItems (h : SortedKeys (passed ++ rest)) :
    skippedItems (Walk.seek (compare k) .left) (addItems (Dimension.zero S) passed) rest =
      rest.takeWhile fun x => key x < k := by
  induction rest generalizing passed with
  | nil => rfl
  | cons x rest ih =>
    have hsorted : SortedKeys ((passed ++ [x]) ++ rest) := by simpa using h
    have hfirst : SortedKeys (passed ++ [x]) := (pairwise_append.1 hsorted).1
    have hposition : Dimension.addSummary (addItems (Dimension.zero S) passed)
        (Item.summary x) = key x := by
      rw [← hfirst.addItems_concat, addItems_append]
      rfl
    have hskip : (Walk.seek (compare k) .left : Walk K S).skip
        (addItems (Dimension.zero S) passed) (Item.summary x) = decide (key x < k) := by
      simp only [Walk.seek, hposition]
      rw [Bool.eq_iff_iff, goesPast_left, decide_eq_true_iff]
    rw [SumTree.skippedItems, hskip, takeWhile_cons]
    by_cases hlt : key x < k
    · have ih := ih hsorted
      rw [addItems_append] at ih
      simpa [hlt] using ih
    · simp [hlt]

variable {cursor : Cursor T S K} {self : Node T S}

/-- A slice up to a key. -/
theorem Cursor.Faces.slice_key {pieces : List (Piece T S)} (h : cursor.Faces passed pieces)
    (hseekable : cursor.tree.Seekable xs) (hsorted : SortedKeys xs)
    (hle : ∀ x ∈ passed, key x ≤ k) :
    ∃ moved slice, cursor.slice (compare k) .left = some (moved, slice) ∧ moved.tree = cursor.tree ∧
      slice.Holds ((Piece.itemsOf pieces).takeWhile fun x => key x < k) ∧
      moved.Splits (passed ++ (Piece.itemsOf pieces).takeWhile fun x => key x < k)
        ((Piece.itemsOf pieces).dropWhile fun x => key x < k) := by
  rw [← hseekable.holds.2, h.items_eq] at hsorted
  have hpassed : SortedKeys passed := (pairwise_append.1 hsorted).1
  obtain ⟨moved, slice, more, rest, hslice, htree, hsplit, hsplits, hheld, hmore⟩ :=
    h.slice_ahead hseekable (hpassed.isGE hle) (Walk.adds ..) hsorted.ahead
  rw [hsorted.skippedItems] at hmore
  obtain rfl : (Piece.itemsOf pieces).dropWhile (fun x => key x < k) = rest := by
    have hboth := takeWhile_append_dropWhile (p := fun x : T => decide (key x < k))
      (l := Piece.itemsOf pieces)
    rw [← hmore] at hboth
    exact append_cancel_left (hboth.trans hsplit)
  rw [hmore] at hsplits hheld
  exact ⟨moved, slice, hslice, htree, hheld, hsplits⟩

/-- The item with the key is passed. -/
theorem Cursor.Splits.takeKey (h : cursor.Splits passed rest) (hseekable : cursor.tree.Seekable xs)
    (k : K) :
    ∃ taken moved more, cursor.takeKey k = some (taken, moved) ∧ moved.tree = cursor.tree ∧
      rest = taken.toList ++ more ∧ moved.Splits (passed ++ taken.toList) more ∧
      (∀ x ∈ taken, key x = k) ∧ ∀ x ∈ more.head?, taken = none → key x ≠ k := by
  have hitem := h.item hseekable.holds
  cases rest with
  | nil =>
    refine ⟨none, cursor, [], ?_, rfl, rfl, by simpa using h, nofun, nofun⟩
    rw [Cursor.takeKey, hitem]
    rfl
  | cons x rest =>
    by_cases hkey : key x = k
    · obtain ⟨moved, hnext, htree, hsplits⟩ := h.next hseekable
      refine ⟨some x, moved, rest, ?_, htree, rfl, hsplits, by simpa using hkey, nofun⟩
      rw [Cursor.takeKey, hitem]
      simp [hkey, hnext]
    · refine ⟨none, cursor, x :: rest, ?_, rfl, rfl, by simpa using h, nofun, ?_⟩
      · rw [Cursor.takeKey, hitem]
        simp [hkey]
      · simpa using hkey

/-- The items with lesser keys come first. -/
theorem SortedKeys.takeWhile_eq_filter (h : SortedKeys xs) : (xs.takeWhile fun x => key x < k)
    = xs.filter fun x => key x < k := by
  refine KeyedList.Ordered.eq_of_mem_iff (h.sublist (takeWhile_sublist _)) (h.filter _) fun x => ?_
  rw [mem_filter, decide_eq_true_iff]
  exact KeyedList.mem_takeBelow h k x

/-- What a seek to a key has before it is not less. -/
theorem SortedKeys.le_of_mem_dropWhile (h : SortedKeys xs)
    (hx : x ∈ xs.dropWhile fun x => key x < k) : k ≤ key x :=
  ((KeyedList.mem_seekFrom h k x).1 hx).2

/-- Behind the item with the key there are only greater keys. -/
theorem Cursor.Splits.takeKey_lt (h : cursor.Splits passed rest)
    (hseekable : cursor.tree.Seekable xs)
    (hsorted : SortedKeys rest) (hge : ∀ x ∈ rest, k ≤ key x) :
    ∃ taken moved more, cursor.takeKey k = some (taken, moved) ∧ moved.tree = cursor.tree ∧
      rest = taken.toList ++ more ∧ moved.Splits (passed ++ taken.toList) more ∧
      (∀ x ∈ taken, key x = k) ∧ ∀ x ∈ more, k < key x := by
  obtain ⟨taken, moved, more, htake, htree, rfl, hsplits, htaken, hhead⟩ := h.takeKey hseekable k
  refine ⟨taken, moved, more, htake, htree, rfl, hsplits, htaken, fun x hx => ?_⟩
  cases taken with
  | some y =>
    rw [← htaken y rfl]
    exact (pairwise_cons.1 hsorted).1 x hx
  | none =>
    refine (hge x hx).lt_of_ne fun heq => ?_
    obtain ⟨y, more, rfl⟩ := exists_cons_of_ne_nil (ne_nil_of_mem hx)
    rcases mem_cons.1 hx with rfl | hmem
    · exact hhead x rfl rfl heq.symm
    · have hlt := (pairwise_cons.1 hsorted).1 x hmem
      exact absurd (hge y (by simp)) (not_le.2 (heq ▸ hlt))

/-- A new cursor that is moved to a key: what is before it, the item with the key, and what is
behind. -/
theorem exists_slice_takeKey (hseekable : self.Seekable xs) (hxs : SortedKeys xs) (k : K) :
    ∃ cursor slice taken moved final suffix,
      (Cursor.new self : Cursor T S K).slice (compare k) .left = some (cursor, slice) ∧
      cursor.takeKey k = some (taken, moved) ∧ moved.suffix = some (final, suffix) ∧
      slice.Holds (xs.filter fun x => key x < k) ∧
      suffix.Holds (xs.filter fun x => k < key x) := by
  have hfaces : (Cursor.new self : Cursor T S K).Faces [] self.pieces :=
    .fresh (Cursor.fresh_new self)
  have hitems : Piece.itemsOf self.pieces = xs := by rw [Node.itemsOf_pieces, hseekable.holds.2]
  obtain ⟨cursor, slice, hslice, htree, hheld, hsplits⟩ := hfaces.slice_key hseekable hxs nofun
  rw [hitems] at hheld hsplits
  obtain ⟨taken, moved, more, htake, htree', hrest, hsplits', htaken, hmore⟩ :=
    hsplits.takeKey_lt (by rw [htree]; exact hseekable)
      (hxs.sublist (dropWhile_sublist _)) fun x hx => hxs.le_of_mem_dropWhile hx
  have hsplit : xs = (xs.filter fun x => key x < k) ++ (taken.toList ++ more) := by
    rw [← hrest, ← hxs.takeWhile_eq_filter, takeWhile_append_dropWhile]
  -- the items behind are those with greater keys
  obtain rfl : xs.filter (fun x => decide (k < key x)) = more := by
    rw [hsplit, filter_append, filter_append, filter_filter,
      filter_eq_nil_iff.2, filter_eq_nil_iff.2, filter_eq_self.2]
    · rfl
    · simpa using hmore
    · intro y hy
      simpa using (htaken y (by simpa using hy)).le
    · intro y _ hy
      simp only [Bool.and_eq_true, decide_eq_true_eq] at hy
      exact lt_asymm hy.1 hy.2
  rw [hxs.takeWhile_eq_filter] at hheld
  obtain ⟨pieces, hfaces', hpieces⟩ := hsplits'.faces
  obtain ⟨final, suffix, hsuffix, hrest⟩ := hfaces'.suffix (by rw [htree', htree]; exact hseekable)
  rw [hpieces] at hrest
  exact ⟨cursor, slice, taken, moved, final, suffix, hslice, htake, hsuffix, hheld, hrest⟩

/-- An item put in the place of its key. -/
def insertKey (x : T) (xs : List T) : List T :=
  (xs.filter fun y => key y < key x) ++ x :: xs.filter fun y => key x < key y

theorem SortedKeys.insertKey (h : SortedKeys xs) (x : T) : SortedKeys (insertKey x xs) := by
  refine pairwise_append.2 ⟨h.filter _, pairwise_cons.2 ⟨?_, h.filter _⟩, ?_⟩
  · intro y hy
    simpa using (mem_filter.1 hy).2
  · intro y hy z hz
    have hlt : key y < key x := by simpa using (mem_filter.1 hy).2
    rcases mem_cons.1 hz with rfl | hz
    · exact hlt
    · exact hlt.trans (by simpa using (mem_filter.1 hz).2)

theorem mem_insertKey {y : T} : y ∈ insertKey x xs ↔ y = x ∨ y ∈ xs ∧ key y ≠ key x := by
  simp only [insertKey, mem_append, mem_cons, mem_filter, decide_eq_true_eq, ne_iff_lt_or_gt]
  tauto

/-- `insert_or_replace` puts the item in the place of its key. -/
theorem insertOrReplace_holds (hseekable : self.Seekable xs) (hxs : SortedKeys xs) (x : T) :
    ∃ newTree replaced, self.insertOrReplace x = some (newTree, replaced) ∧
      newTree.Holds (insertKey x xs) := by
  obtain ⟨cursor, slice, taken, moved, _, suffix, hslice, htake, hsuffix, hheld, hrest⟩ :=
    exists_slice_takeKey hseekable hxs (key x)
  have hfew := hseekable.length_le
  have hlimit := Node.seekLimit_lt
  have hless := length_filter_le (fun y => decide (key y < key x)) xs
  have hmore := length_filter_le (fun y => decide (key x < key y)) xs
  obtain ⟨pushed, hpushed, hholds'⟩ := (hheld.push x).exists_holds (by
    rw [length_append, length_singleton]
    omega)
  obtain ⟨newTree, hnewTree, hholds''⟩ := (hholds'.append hrest).exists_holds (by
    rw [length_append, length_append, length_singleton]
    omega)
  refine ⟨newTree, taken, ?_, by simpa [insertKey] using hholds''⟩
  rw [Node.insertOrReplace, hslice]
  simp [htake, hpushed, hsuffix, hnewTree]

/-- `remove` leaves the items with other keys. -/
theorem remove_holds (hseekable : self.Seekable xs) (hxs : SortedKeys xs) (k : K) :
    ∃ newTree removed ys, self.remove k = some (newTree, removed) ∧ newTree.Holds ys ∧
      SortedKeys ys ∧ ∀ x, x ∈ ys ↔ x ∈ xs ∧ key x ≠ k := by
  obtain ⟨cursor, slice, taken, moved, _, suffix, hslice, htake, hsuffix, hheld, hrest⟩ :=
    exists_slice_takeKey hseekable hxs k
  have hfew := hseekable.length_le
  have hlimit := Node.seekLimit_lt
  have hless := length_filter_le (fun y => decide (key y < k)) xs
  have hmore := length_filter_le (fun y => decide (k < key y)) xs
  obtain ⟨newTree, hnewTree, hholds'⟩ := (hheld.append hrest).exists_holds (by
    rw [length_append]
    omega)
  refine ⟨newTree, taken, _, ?_, hholds', ?_, fun x => ?_⟩
  · rw [Node.remove, hslice]
    simp [htake, hsuffix, hnewTree]
  · refine pairwise_append.2 ⟨hxs.filter _, hxs.filter _, fun x hx y hy => ?_⟩
    simp only [mem_filter, decide_eq_true_eq] at hx hy
    exact hx.2.trans hy.2
  · simp [← and_or_left]

end Cursor

/-- Steps that are taken one after the other find trees that the stack of a cursor has room
for. -/
def Node.StaysLow {E : Type u} (step : Node T S → E → Option (Node T S)) :
    Node T S → List E → Prop
  | _, [] => True
  | tree, edit :: edits =>
    tree.height < stackCapacity ∧ ∀ next ∈ step tree edit, next.StaysLow step edits

instance Node.decidableStaysLow {E : Type u} (step : Node T S → E → Option (Node T S)) :
    (tree : Node T S) → (edits : List E) → Decidable (tree.StaysLow step edits)
  | _, [] => .isTrue trivial
  | tree, edit :: edits =>
    have := fun next => decidableStaysLow step next edits
    inferInstanceAs (Decidable (_ ∧ ∀ next ∈ step tree edit, next.StaysLow step edits))

end XorEditor.SumTree
