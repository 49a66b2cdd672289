import XorEditor.SumTree.Find

/-!
# Cursors of trees and cursors of lists

The models of the crates that use sum trees move a list cursor over the items.  The cursor of a
tree makes the same motions: it passes the same items, stops at the same item and measures the
same position, as long as the target is not behind it and the dimension lets a seek decide about
a subtree by its summary.

* `listDimension`: the dimension of a tree, for a list cursor
* `Cursor.Mirrors`: both cursors stand between the same items
* `Cursor.Mirrors.slice`, `Cursor.Mirrors.seekForward`, `Cursor.Mirrors.suffix`,
  `Cursor.Splits.next_list`: a motion keeps them together
* `Motion.run`: so does a run of motions
* `find_eq_slice`: a search finds what a list cursor finds that starts at the first item
-/

namespace XorEditor.SumTree

open Lib List
open Piece (itemsOf)

universe u

variable {T S D : Type u} [Summary S] [Item T S]

/-- A dimension of the list cursor, for the cursors of trees. -/
abbrev Dimension.ofList (dim : Lib.Dimension S D) : Dimension D S where
  zero := dim.zero
  addSummary := dim.addSummary

variable [Dimension D S]

/-- The dimension of a tree, for the list cursor. -/
def listDimension (S D : Type u) [Summary S] [Dimension D S] : Lib.Dimension S D where
  zero := Dimension.zero S
  addSummary := Dimension.addSummary

/-- Whether a list cursor steps over an item that ends at a position. -/
def stepsOver (target : D → Ordering) (bias : Bias) (position : D) : Bool :=
  passes (target position) bias

theorem goesPast_eq_passes (bias : Bias) (comparison : Ordering) :
    goesPast bias comparison = passes comparison bias := by
  cases bias <;> cases comparison <;> rfl

variable {target : D → Ordering} {bias : Bias}

/-- A scan of the items passes what a list cursor passes. -/
theorem skippedItems_eq_spanPassed (position : D) (xs : List T) :
    skippedItems (Walk.seek target bias) position xs = (ListCursor.spanPassed (listDimension S D)
      Item.summary (stepsOver target bias) position xs).1 := by
  induction xs generalizing position with
  | nil => rfl
  | cons x xs ih =>
    rw [skippedItems, skip_seek, goesPast_eq_passes, ih]
    simp only [ListCursor.spanPassed, apply_ite Prod.fst]
    rfl

/-- The position behind the item that a list cursor points at. -/
theorem addItems_take_one (list : ListCursor T) :
    addItems (Dimension.zero S) (list.before ++ list.rest.take 1) =
      list.endPosition (listDimension S D) Item.summary := by
  rw [ListCursor.endPosition, addItems_append]
  cases list.rest <;> rfl

namespace Cursor

variable {cursor : Cursor T S D} {list : ListCursor T} {xs : List T} {pieces : List (Piece T S)}

/-- The cursor of the tree has passed what the list cursor has, and has the same items before
it. -/
def Mirrors (cursor : Cursor T S D) (list : ListCursor T) : Prop :=
  ∃ pieces, cursor.Faces list.before pieces ∧ itemsOf pieces = list.rest

theorem mirrors_new {tree : Node T S} (hholds : tree.Holds xs) :
    (new tree : Cursor T S D).Mirrors (.ofList xs) :=
  ⟨_, .fresh (fresh_new tree), by rw [new, Node.itemsOf_pieces, hholds.2, ListCursor.ofList_rest]⟩

theorem Splits.mirrors (h : cursor.Splits list.before list.rest) : cursor.Mirrors list := h.faces

theorem Mirrors.start (h : cursor.Mirrors list) :
    cursor.start = list.start (listDimension S D) Item.summary := by
  obtain ⟨pieces, hfaces, -⟩ := h
  exact hfaces.position

theorem Splits.endPosition (h : cursor.Splits list.before list.rest)
    (hholds : cursor.tree.Holds xs) :
    cursor.end_ = some (list.endPosition (listDimension S D) Item.summary) := by
  rw [h.end_ hholds, addItems_take_one]

/-- Where the list cursor goes, and the items that it passes on the way. -/
def sliceTo (target : D → Ordering) (bias : Bias) (list : ListCursor T) : List T × ListCursor T :=
  list.slice (listDimension S D) Item.summary (stepsOver target bias)

/-- `Cursor::slice` returns a tree of the items that a list cursor passes, and stops with it. -/
def SlicesTo (cursor : Cursor T S D) (target : D → Ordering) (bias : Bias)
    (result : List T × ListCursor T) : Prop :=
  ∃ moved slice, cursor.slice target bias = some (moved, slice) ∧ moved.tree = cursor.tree ∧
    slice.Holds result.1 ∧ moved.Splits result.2.before result.2.rest

section Seek

variable (h : cursor.Mirrors list) (hseekable : cursor.tree.Seekable xs)
  (hge : (target cursor.start).isGE) (hadds : (Walk.seek target bias : Walk D S).Adds xs)
  (hahead : Ahead target bias cursor.start list.rest)

include hseekable hadds hahead in
/-- Where a seek stops that passes what a scan of the items does. -/
theorem Lands.splits_slice {A : Type u} {Held : A → List T → Prop} {aggregate : A}
    {moved : Cursor T S D} (hfaces : cursor.Faces list.before pieces)
    (hrest : itemsOf pieces = list.rest) (htree : moved.tree = cursor.tree)
    (hlands : moved.Lands Held (Walk.seek target bias) list.before pieces aggregate) :
    Held aggregate (sliceTo target bias list).1 ∧
      moved.Splits (sliceTo target bias list).2.before (sliceTo target bias list).2.rest := by
  obtain ⟨depth, hexact⟩ := hseekable.holds.1
  rw [Cursor.start, hfaces.position, ← hrest] at hahead
  obtain ⟨more, rest, hsplit, hsplits, hheld, hmore⟩ := hlands.splits_skipped (hfaces.below hexact)
    (hadds.mono (hfaces.itemsOf_subset hseekable.holds)) (faithful_seek hahead)
    (by rw [htree, hfaces.items_eq])
  -- Both lists begin with what is passed, so what is left of them is the same, too.
  have hslice := ListCursor.slice_rest (listDimension S D) Item.summary (stepsOver target bias) list
  rw [hrest, skippedItems_eq_spanPassed] at hmore
  obtain rfl : more = (sliceTo target bias list).1 := hmore
  rw [hrest, ← hslice] at hsplit
  obtain rfl := append_cancel_left hsplit
  exact ⟨hheld, hsplits⟩

include h hseekable hge hadds hahead

theorem Mirrors.slice : cursor.SlicesTo target bias (sliceTo target bias list) := by
  obtain ⟨pieces, hfaces, hrest⟩ := h
  rw [Cursor.start, hfaces.position] at hge
  obtain ⟨moved, slice, hslice, htree, hlands⟩ := hfaces.slice hseekable bias hge hadds
  obtain ⟨hheld, hsplits⟩ := hlands.splits_slice hseekable hadds hahead hfaces hrest htree
  exact ⟨moved, slice, hslice, htree, hheld, hsplits⟩

/-- `Cursor::seek_forward` stops where the list cursor does. -/
theorem Mirrors.seekForward : ∃ found moved,
    cursor.seekForward target bias = some (found, moved) ∧ moved.tree = cursor.tree ∧
    moved.Splits (sliceTo target bias list).2.before (sliceTo target bias list).2.rest := by
  obtain ⟨pieces, hfaces, hrest⟩ := h
  rw [Cursor.start, hfaces.position] at hge
  obtain ⟨found, moved, hseek, htree, hlands⟩ := hfaces.seekForward hseekable bias hge hadds
  exact ⟨found, moved, hseek, htree,
    (hlands.splits_slice hseekable hadds hahead hfaces hrest htree).2⟩

end Seek

/-- `Cursor::suffix` returns a tree of the items behind the list cursor. -/
theorem Mirrors.suffix (h : cursor.Mirrors list) (hseekable : cursor.tree.Seekable xs) :
    ∃ moved suffix, cursor.suffix = some (moved, suffix) ∧ suffix.Holds list.suffix.1 := by
  obtain ⟨pieces, hfaces, hrest⟩ := h
  obtain ⟨moved, suffix, hsuffix, hholds⟩ := hfaces.suffix hseekable
  rw [hrest] at hholds
  exact ⟨moved, suffix, hsuffix, hholds⟩

/-- `Cursor::next`, which stays at the end. -/
theorem Splits.next_list (h : cursor.Splits list.before list.rest)
    (hseekable : cursor.tree.Seekable xs) : ∃ moved, cursor.next = some moved ∧
      moved.tree = cursor.tree ∧ moved.Splits list.next.before list.next.rest := by
  obtain ⟨before, rest⟩ := list
  cases rest with
  | nil =>
    cases h with
    | atEnd h => exact (Follows.atEnd h).next hseekable
  | cons x rest => exact h.next hseekable

end Cursor

/-! ## Runs of motions -/

/-- A motion of a cursor that has sought. -/
inductive Motion (D : Type u) where
  | slice (target : D → Ordering) (bias : Bias)
  | next

namespace Motion

/-- The motion of a list cursor. -/
def onList (list : ListCursor T) : Motion D → ListCursor T
  | slice target bias => (Cursor.sliceTo target bias list).2
  | next => list.next

/-- The motion of the cursor of a tree. -/
def onTree (cursor : Cursor T S D) : Motion D → Option (Cursor T S D)
  | slice target bias => do
    let (cursor, _) ← cursor.slice target bias
    return cursor
  | next => cursor.next

/-- The targets are not behind the cursor, and the summaries of subtrees place them. -/
def Forward (xs : List T) : ListCursor T → List (Motion D) → Prop
  | _, [] => True
  | list, motion :: motions =>
    (∀ target bias, motion = slice target bias →
      (target (addItems (Dimension.zero S) list.before)).isGE = true ∧
        (Walk.seek target bias : Walk D S).Adds xs ∧
        Ahead target bias (addItems (Dimension.zero S) list.before) list.rest) ∧
      Forward xs (onList list motion) motions

/-- The two cursors stay together. -/
theorem run {cursor : Cursor T S D} {list : ListCursor T} {xs : List T} {motions : List (Motion D)}
    (h : cursor.Splits list.before list.rest) (hseekable : cursor.tree.Seekable xs)
    (hforward : Forward xs list motions) :
    ∃ moved, motions.foldlM onTree cursor = some moved ∧ moved.tree = cursor.tree ∧
      moved.Splits (motions.foldl onList list).before (motions.foldl onList list).rest := by
  induction motions generalizing cursor list with
  | nil => exact ⟨cursor, rfl, rfl, h⟩
  | cons motion motions ih =>
    obtain ⟨hallowed, hforward⟩ := hforward
    have hstep : ∃ moved, onTree cursor motion = some moved ∧ moved.tree = cursor.tree ∧
        moved.Splits (onList list motion).before (onList list motion).rest := by
      cases motion with
      | next => exact h.next_list hseekable
      | slice target bias =>
        obtain ⟨hge, hadds, hahead⟩ := hallowed target bias rfl
        rw [← h.position] at hge hahead
        obtain ⟨moved, slice, hslice, htree, -, hsplits⟩ :=
          h.mirrors.slice hseekable hge hadds hahead
        exact ⟨moved, by rw [onTree, hslice]; rfl, htree, hsplits⟩
    obtain ⟨middle, hmotion, htree, hsplits⟩ := hstep
    rw [← htree] at hseekable ⊢
    rw [foldlM_cons, hmotion, some_do]
    exact ih hsplits hseekable hforward

end Motion

/-! ## Searches -/

/-- `find` and `find_with_prev` return what is before and behind a list cursor that has gone
forward from the first item. -/
theorem find_eq_slice {D : Type u} [AddingDimension D S] {target : D → Ordering} {tree : Node T S}
    {xs : List T} {list : ListCursor T} (hholds : tree.Holds xs) (hempty : EmptyAdds S D xs)
    (hahead : Ahead target bias (Dimension.zero S) xs)
    (hlist : (Cursor.sliceTo target bias (.ofList xs)).2 = list) :
    tree.find target bias = some (list.start (listDimension S D) Item.summary,
        list.endPosition (listDimension S D) Item.summary, list.item) ∧
      tree.findWithPrev target bias = some (list.start (listDimension S D) Item.summary,
        list.endPosition (listDimension S D) Item.summary,
        list.item.map fun x => (list.before.getLast?, x)) := by
  obtain ⟨rest, hsplit, hfind, hfindWithPrev⟩ := find_eq hholds hempty hahead
  obtain ⟨hitems, -⟩ := ListCursor.slice_ofList_spec hlist
  have hbefore : skippedItems (Walk.seek target bias) (Dimension.zero S) xs = list.before := by
    rw [skippedItems_eq_spanPassed, ← hlist]
    rfl
  rw [hbefore] at hsplit hfind hfindWithPrev
  obtain rfl : rest = list.rest := append_cancel_left (hsplit.symm.trans hitems)
  rw [addItems_take_one] at hfind hfindWithPrev
  exact ⟨hfind, hfindWithPrev⟩

end XorEditor.SumTree
