import XorEditor.Text.Snapshot

/-!
# Undo operations on a snapshot

`apply_undo` records the new undo counts and then recomputes the visibility of the
fragments that the affected edits inserted or deleted.  Those fragments are found through
the insertion slices of the edits and the insertions tree, never by scanning all
fragments; `fragment_ids_for_edits` is that lookup.

* `fragmentIdsForEdits`: the lookup
* `applyUndo`: the operation
-/

namespace XorEditor.Text

open Clock Lib

/-- The insertion slices of one edit: seek to the first one, then read while the edit is
the same. -/
def slicesForEdit (slices : List InsertionSlice) (editId : Lamport) : List InsertionSlice :=
  let insertionSlice : InsertionSlice :=
    { editId, insertionId := Lamport.MIN, rangeStart := 0, rangeEnd := 0 }
  (KeyedList.seekFrom InsertionSlice.key insertionSlice.key slices).takeWhile
    fun slice => decide (slice.editId = editId)

/-- The order in which slices are looked up: by insertion and start, the longest first. -/
def InsertionSlice.lookupKey (self : InsertionSlice) : Lamport ×ₗ (Nat ×ₗ Natᵒᵈ) :=
  toLex (self.insertionId, toLex (self.rangeStart, OrderDual.toDual self.rangeEnd))

/-- Whether a seek in the insertions tree steps over an item with the given key. -/
def stepsOverInsertion (target position : Lamport ×ₗ Nat) : Bool :=
  passes (compare target position) Bias.left

/-- The body of the loop of `fragment_ids_for_edits` over the sorted slices. -/
def collectFragmentIds (acc : ListCursor InsertionFragment × List Locator)
    (slice : InsertionSlice) : ListCursor InsertionFragment × List Locator :=
  let (cursor, fragmentIds) := acc
  let start := ofLex (cursor.start InsertionFragment.keyDimension InsertionFragment.key)
  let cursor :=
    if slice.insertionId ≠ start.1 ∨ start.2 < slice.rangeStart then
      (cursor.slice InsertionFragment.keyDimension InsertionFragment.key
        (stepsOverInsertion (toLex (slice.insertionId, slice.rangeStart)))).2
    else
      cursor
  let inSlice := fun item : InsertionFragment =>
    !(decide (item.timestamp ≠ slice.insertionId) || decide (slice.rangeEnd ≤ item.splitOffset))
  let found := cursor.rest.takeWhile inSlice
  ({ before := cursor.before ++ found, rest := cursor.rest.dropWhile inSlice },
    fragmentIds ++ found.map InsertionFragment.fragmentId)

/-- `Buffer::fragment_ids_for_edits`. -/
def BufferSnapshot.fragmentIdsForEdits (self : BufferSnapshot) (editIds : List Lamport) :
    List Locator :=
  let insertionSlices := (editIds.flatMap (slicesForEdit self.insertionSlices)).insertionSort
      fun x y => x.lookupKey ≤ y.lookupKey
  let (_, fragmentIds) :=
    insertionSlices.foldl collectFragmentIds (ListCursor.ofList self.insertions, [])
  fragmentIds.insertionSort (· ≤ ·)

/-- Whether a seek to a locator steps over a fragment ending at a position. -/
def stepsOverLocator (target : Locator) (position : Option Locator × Nat) : Bool :=
  passes (compareLocator target position.1) Bias.left

/-- The body of the loop of `apply_undo` over the affected fragments. -/
def undoFragment (undoMap : UndoMap) (timestamp : Lamport) (state : EditState)
    (fragmentId : Locator) : Option EditState := do
  let state ← state.appendSlice locatorDimension (stepsOverLocator fragmentId)
  match state.oldFragments.item with
  | none => pure state
  | some item =>
    let fragment :=
      { item with
        visible := item.isVisible undoMap
        maxUndos := item.maxUndos.observe timestamp }
    let oldStart := (state.oldFragments.start locatorDimension Fragment.summary).2
    let newStart := (FragmentBuilder.text state.newFragments).visible
    let editsPatch :=
      if item.visible && !fragment.visible then
        state.editsPatch.push
          { oldStart, oldEnd := oldStart + fragment.len, newStart, newEnd := newStart }
      else if !item.visible && fragment.visible then
        state.editsPatch.push
          { oldStart, oldEnd := oldStart, newStart, newEnd := newStart + fragment.len }
      else
        state.editsPatch
    let state ← { state with editsPatch }.pushFragment fragment item.visible
    pure { state with oldFragments := state.oldFragments.next }

/-- `Buffer::apply_undo`, on the snapshot of the buffer; the patch is published to the
subscriptions. -/
def BufferSnapshot.applyUndo (self : BufferSnapshot) (undo : UndoOperation) :
    Option (BufferSnapshot × Patch) := do
  let self := { self with undoMap := self.undoMap.insert undo }
  let fragmentIds := self.fragmentIdsForEdits (undo.counts.map Prod.fst)
  let state ← fragmentIds.foldlM (undoFragment self.undoMap undo.timestamp)
    (EditState.new self)
  let state ← state.appendSuffix
  pure
    ({ self with
        fragments := state.newFragments
        visibleText := state.newRopes.finish.1
        deletedText := state.newRopes.finish.2 },
      state.editsPatch)

end XorEditor.Text
