import XorEditor.Text.Fragment

/-!
# Buffer snapshots and their edits

`BufferSnapshot` and the two functions that rewrite its fragments for an edit:
`apply_edit_internal` for a local edit, whose ranges are visible offsets, and
`apply_remote_edit` for an operation of another replica, whose ranges are full offsets at
the version of that operation.

Both walk the old fragments with a cursor and push the new ones, keeping the position
`fragment_start` up to which the current fragment is consumed.  Their local variables are
the record `EditState`, and the blocks of code they share are functions on it.  A failed
`unwrap`, a slice past the end of a rope and an overflow of a `u32` are `none`.

* `BufferSnapshot`, `EditState`: the states
* `applyEditInternal`, `applyRemoteEdit`: the edits
-/

namespace XorEditor.Text

open Clock Lib

/-- `MAX_INSERTION_LEN`: the longest insertion that becomes a single fragment. -/
def maxInsertionLen : Nat := 2 ^ 32 - 1

/-- `BufferSnapshot`, without the line ending, which no modelled function reads. -/
structure BufferSnapshot where
  visibleText : Rope
  deletedText : Rope
  fragments : List Fragment
  insertions : List InsertionFragment
  insertionSlices : List InsertionSlice
  undoMap : UndoMap
  version : Global
  remoteId : Nat
  replicaId : Nat

/-- Where the chunk of an inserted text that begins at `textOffset` ends. -/
def chunkEnd (text : List Char) (textOffset : Nat) : Nat :=
  let targetEnd := min (utf8 text).length (textOffset + maxInsertionLen)
  if targetEnd = (utf8 text).length then targetEnd else floorCharBoundary text targetEnd

/-- The lengths of the chunks of an inserted text from `textOffset` on.  Every chunk but
an empty one takes at least one byte, so the length of the text bounds the loop. -/
def chunkLens (text : List Char) : Nat → Nat → List Nat
  | 0, _ => []
  | fuel + 1, textOffset =>
    if textOffset < (utf8 text).length then
      if chunkEnd text textOffset = textOffset then
        []
      else
        (chunkEnd text textOffset - textOffset) ::
          chunkLens text fuel (chunkEnd text textOffset)
    else
      []

/-- The lengths of the fragments that an inserted text is split into. -/
def insertionChunkLens (text : List Char) : List Nat :=
  chunkLens text (utf8 text).length 0

/-- The local variables of the two edit functions. -/
structure EditState where
  editsPatch : Patch
  newInsertions : List InsertionFragment
  insertionOffset : Nat
  insertionSlices : List InsertionSlice
  newRopes : RopeBuilder
  oldFragments : ListCursor Fragment
  newFragments : List Fragment
  fragmentStart : Nat

namespace EditState

/-- The variables before the first slice. -/
def new (snapshot : BufferSnapshot) : EditState where
  editsPatch := []
  newInsertions := []
  insertionOffset := 0
  insertionSlices := []
  newRopes := RopeBuilder.new snapshot.visibleText snapshot.deletedText
  oldFragments := ListCursor.ofList snapshot.fragments
  newFragments := []
  fragmentStart := 0

/-- Push a fragment whose text is taken from the old texts. -/
def pushFragment (self : EditState) (fragment : Fragment) (wasVisible : Bool) :
    Option EditState := do
  let newRopes ← self.newRopes.push fragment.len wasVisible fragment.visible
  pure { self with newRopes, newFragments := self.newFragments ++ [fragment] }

/-- Push a fragment and record its place among the insertions. -/
def pushPiece (self : EditState) (fragment : Fragment) (wasVisible : Bool) : Option EditState :=
  { self with
    newInsertions := self.newInsertions ++ [InsertionFragment.new fragment] }.pushFragment
      fragment wasVisible

/-- Copy the fragments that the cursor passes on its way to a target. -/
def appendSlice {D : Type} (self : EditState) (dim : Dimension FragmentSummary D)
    (stepsOver : D → Bool) : Option EditState := do
  let (slice, oldFragments) := self.oldFragments.slice dim Fragment.summary stepsOver
  let text := FragmentBuilder.text slice
  let newRopes ← self.newRopes.append text.visible text.deleted
  pure { self with newRopes, oldFragments, newFragments := self.newFragments ++ slice }

/-- If the current fragment, which extends from `cursorStart` to `fragmentEnd`, has been
partially consumed, push the rest of it and advance to the next fragment. -/
def finishFragment (self : EditState) (cursorStart fragmentEnd : Nat) : Option EditState :=
  if cursorStart < self.fragmentStart then do
    let self ←
      if self.fragmentStart < fragmentEnd then do
        let item ← self.oldFragments.item
        let suffix :=
          { item with
            len := fragmentEnd - self.fragmentStart
            insertionOffset := item.insertionOffset + (self.fragmentStart - cursorStart) }
        self.pushPiece suffix suffix.visible
      else
        pure self
    pure { self with oldFragments := self.oldFragments.next }
  else
    pure self

/-- Push the part of the current fragment that precedes `rangeStart`, under a new
locator. -/
def pushPrefix (self : EditState) (cursorStart rangeStart : Nat) : Option EditState :=
  if self.fragmentStart < rangeStart then do
    let item ← self.oldFragments.item
    let piece :=
      { item with
        len := rangeStart - self.fragmentStart
        insertionOffset := item.insertionOffset + (self.fragmentStart - cursorStart)
        id := Locator.between (FragmentBuilder.maxId self.newFragments) item.id }
    let self ← self.pushPiece piece piece.visible
    pure { self with fragmentStart := rangeStart }
  else
    pure self

/-- One iteration of the loop of `push_fragments_for_insertion`. -/
def pushInsertionChunk (timestamp : Lamport) (nextFragmentId : Locator) (self : EditState)
    (chunkLen : Nat) : Option EditState := do
  let fragment : Fragment :=
    { id := Locator.between (FragmentBuilder.maxId self.newFragments) nextFragmentId
      timestamp
      insertionOffset := self.insertionOffset
      len := chunkLen
      visible := true
      deletions := []
      maxUndos := Global.new }
  let slice ← InsertionSlice.fromFragment timestamp fragment
  pure
    { self with
      insertionSlices := self.insertionSlices ++ [slice]
      newInsertions := self.newInsertions ++ [InsertionFragment.new fragment]
      newFragments := self.newFragments ++ [fragment]
      insertionOffset := self.insertionOffset + chunkLen }

/-- `push_fragments_for_insertion`.  The overflow of `insertion_offset` is the overflow
of the end of the slice. -/
def pushFragmentsForInsertion (self : EditState) (newText : List Char) (timestamp : Lamport)
    (nextFragmentId : Locator) : Option EditState := do
  let self ←
    (insertionChunkLens newText).foldlM (pushInsertionChunk timestamp nextFragmentId) self
  pure { self with newRopes := self.newRopes.pushStr newText }

/-- The locator of the current fragment, or `Locator::max` at the end. -/
def nextFragmentId (self : EditState) : Locator :=
  match self.oldFragments.item with
  | some fragment => fragment.id
  | none => Locator.max

/-- Copy the fragments behind the cursor. -/
def appendSuffix (self : EditState) : Option EditState := do
  let (suffix, oldFragments) := self.oldFragments.suffix
  let text := FragmentBuilder.text suffix
  let newRopes ← self.newRopes.append text.visible text.deleted
  pure { self with newRopes, oldFragments, newFragments := self.newFragments ++ suffix }

/-- Store the rewritten fragments, texts and indices in the snapshot. -/
def store (self : EditState) (snapshot : BufferSnapshot) : BufferSnapshot :=
  { snapshot with
    fragments := self.newFragments
    insertions := KeyedList.insertAll InsertionFragment.key snapshot.insertions self.newInsertions
    visibleText := self.newRopes.finish.1
    deletedText := self.newRopes.finish.2
    insertionSlices := KeyedList.insertAll InsertionSlice.key snapshot.insertionSlices
        self.insertionSlices }

end EditState

section LocalEdit

/-- The start of the current fragment, in visible and deleted length. -/
def EditState.textStart (self : EditState) : FragmentTextSummary :=
  self.oldFragments.start textDimension Fragment.summary

/-- The end of the current fragment, in visible and deleted length. -/
def EditState.textEnd (self : EditState) : FragmentTextSummary :=
  self.oldFragments.endPosition textDimension Fragment.summary

/-- Whether a local seek to a visible offset steps over a fragment ending at a position. -/
def stepsOverVisible (target : Nat) (position : FragmentTextSummary) : Bool :=
  passes (compare target position.visible) Bias.right

/-- The intersection of the current fragment with the range of a local edit. -/
def visibleIntersection (timestamp : Lamport) (cursorStart intersectionEnd : Nat)
    (fragment : Fragment) (state : EditState) : Fragment :=
  if fragment.visible then
    { fragment with
      len := intersectionEnd - state.fragmentStart
      insertionOffset := fragment.insertionOffset + (state.fragmentStart - cursorStart)
      id := Locator.between (FragmentBuilder.maxId state.newFragments) fragment.id
      deletions := fragment.deletions ++ [timestamp]
      visible := false }
  else
    fragment

/-- One iteration of the loop of `apply_edit_internal` that marks the fragments of the
range as deleted. -/
def deleteVisibleFragment (timestamp : Lamport) (rangeEnd : Nat) (fragment : Fragment)
    (state : EditState) : Option EditState := do
  let fragmentEnd := state.textEnd.visible
  let intersectionEnd := min rangeEnd fragmentEnd
  let intersection :=
    visibleIntersection timestamp state.textStart.visible intersectionEnd fragment state
  let state ←
    if 0 < intersection.len then do
      let (editsPatch, slices) ←
        if fragment.visible && !intersection.visible then do
          let newStart := (FragmentBuilder.text state.newFragments).visible
          let slice ← InsertionSlice.fromFragment timestamp intersection
          pure
            (state.editsPatch.push
              { oldStart := state.fragmentStart
                oldEnd := intersectionEnd
                newStart
                newEnd := newStart },
              [slice])
        else
          pure (state.editsPatch, [])
      let state ←
        { state with editsPatch, insertionSlices := state.insertionSlices ++ slices }.pushPiece
          intersection fragment.visible
      pure { state with fragmentStart := intersectionEnd }
    else
      pure state
  pure
    (if fragmentEnd ≤ rangeEnd then { state with oldFragments := state.oldFragments.next }
    else state)

/-- The loop `while fragment_start < range.end` of `apply_edit_internal`, over the
fragments from the cursor on.  When a fragment extends beyond the range the loop ends,
since `fragment_start` is then the end of the range. -/
def deleteVisible (timestamp : Lamport) (rangeEnd : Nat) :
    List Fragment → EditState → Option EditState
  | [], state => if state.fragmentStart < rangeEnd then none else some state
  | fragment :: rest, state =>
    if state.fragmentStart < rangeEnd then do
      let next ← deleteVisibleFragment timestamp rangeEnd fragment state
      if state.textEnd.visible ≤ rangeEnd then deleteVisible timestamp rangeEnd rest next
      else some next
    else
      some state

/-- The state of `apply_edit_internal`: the shared variables and the operation being
recorded. -/
structure LocalEditState where
  state : EditState
  ranges : List Range
  newText : List (List Char)

/-- Jump ahead to the first fragment that extends past the start of the range. -/
def seekLocalRange (state : EditState) (rangeStart : Nat) : Option EditState :=
  if state.textEnd.visible < rangeStart then do
    let state ← state.finishFragment state.textStart.visible state.textEnd.visible
    let state ← state.appendSlice textDimension (stepsOverVisible rangeStart)
    pure { state with fragmentStart := state.textStart.visible }
  else
    pure state

/-- Insert the new text of a local edit in front of the cursor. -/
def insertLocalText (state : EditState) (newText : List Char) (timestamp : Lamport) :
    Option EditState :=
  if newText.isEmpty then
    pure state
  else do
    let newStart := (FragmentBuilder.text state.newFragments).visible
    let oldStart := state.fragmentStart
    let state ← state.pushFragmentsForInsertion newText timestamp state.nextFragmentId
    pure
      { state with
        editsPatch := state.editsPatch.push
            { oldStart
              oldEnd := oldStart
              newStart
              newEnd := newStart + (utf8 newText).length } }

/-- The body of the loop of `apply_edit_internal` over the edits. -/
def applyLocalRange (timestamp : Lamport) (acc : LocalEditState)
    (edit : Range × List Char) : Option LocalEditState := do
  let (range, text) := edit
  let newText := LineEnding.normalize text
  let state ← seekLocalRange acc.state range.start
  let fullRangeStart := range.start + state.textStart.deleted
  let state ← state.pushPrefix state.textStart.visible range.start
  let state ← insertLocalText state newText timestamp
  let state ← deleteVisible timestamp range.stop state.oldFragments.rest state
  let fullRangeEnd := range.stop + state.textStart.deleted
  pure
    { state
      ranges := acc.ranges ++ [{ start := fullRangeStart, stop := fullRangeEnd }]
      newText := acc.newText ++ [newText] }

/-- `BufferSnapshot::apply_edit_internal`. -/
def BufferSnapshot.applyEditInternal (self : BufferSnapshot) (edits : List (Range × List Char))
    (timestamp : Lamport) : Option (BufferSnapshot × EditOperation × Patch) :=
  match edits with
  | [] =>
    some (self, { timestamp, version := self.version, ranges := [], newText := [] }, [])
  | first :: _ => do
    let state ← (EditState.new self).appendSlice textDimension
      (stepsOverVisible first.1.start)
    let state := { state with fragmentStart := state.textStart.visible }
    let acc ← edits.foldlM (applyLocalRange timestamp) { state, ranges := [], newText := [] }
    let state ← acc.state.finishFragment acc.state.textStart.visible
      acc.state.textEnd.visible
    let state ← state.appendSuffix
    pure
      (state.store self,
        { timestamp, version := self.version, ranges := acc.ranges, newText := acc.newText },
        state.editsPatch)

end LocalEdit

section RemoteEdit

variable (self : EditState)

/-- The full offset, at a version, of the start of the current fragment. -/
def EditState.versionedStart (version : Global) : Option Nat :=
  (self.oldFragments.start (versionedDimension version) Fragment.summary).1.fullOffset

/-- The full offset, at a version, of the end of the current fragment. -/
def EditState.versionedEnd (version : Global) : Option Nat :=
  (self.oldFragments.endPosition (versionedDimension version) Fragment.summary).1.fullOffset

/-- The visible length before the current fragment. -/
def EditState.visibleStart (version : Global) : Nat :=
  (self.oldFragments.start (versionedDimension version) Fragment.summary).2

/-- Whether a remote seek to a full offset steps over a fragment ending at a position. -/
def stepsOverOffset (target : Nat) (position : VersionedFullOffset × Nat) : Bool :=
  passes (VersionedFullOffset.compareOffset target position.1) Bias.left

/-- Jump ahead to the first fragment that extends up to the start of the range, reusing
any intervening fragments. -/
def seekRemoteRange (version : Global) (rangeStart : Nat) (state : EditState) :
    Option EditState := do
  let fragmentEnd ← state.versionedEnd version
  if fragmentEnd < rangeStart then do
    let cursorStart ← state.versionedStart version
    let state ← state.finishFragment cursorStart fragmentEnd
    let state ← state.appendSlice (versionedDimension version) (stepsOverOffset rangeStart)
    let fragmentStart ← state.versionedStart version
    pure { state with fragmentStart }
  else
    pure state

/-- At the end of a non-concurrent fragment, advance to the next one. -/
def leaveFragment (version : Global) (rangeStart : Nat) (state : EditState) :
    Option EditState := do
  let fragmentEnd ← state.versionedEnd version
  if fragmentEnd = rangeStart ∧ state.fragmentStart < fragmentEnd then do
    let cursorStart ← state.versionedStart version
    let item ← state.oldFragments.item
    let fragment :=
      { item with
        len := fragmentEnd - state.fragmentStart
        insertionOffset := item.insertionOffset + (state.fragmentStart - cursorStart) }
    let state ← state.pushPiece fragment fragment.visible
    let state := { state with oldFragments := state.oldFragments.next }
    let fragmentStart ← state.versionedStart version
    pure { state with fragmentStart }
  else
    pure state

/-- Skip over insertions that are concurrent to the edit, but have a higher timestamp.
The loop runs over the fragments from the cursor on. -/
def skipConcurrent (timestamp : Lamport) (rangeStart : Nat) :
    List Fragment → EditState → Option EditState
  | [], state => some state
  | fragment :: rest, state =>
    if state.fragmentStart = rangeStart ∧ timestamp < fragment.timestamp then do
      let state ← state.pushFragment fragment fragment.visible
      skipConcurrent timestamp rangeStart rest
        { state with oldFragments := state.oldFragments.next }
    else
      some state

/-- Insert the new text before any existing fragments within the range. -/
def insertRemoteText (version : Global) (state : EditState) (newText : List Char)
    (timestamp : Lamport) : Option EditState :=
  if newText.isEmpty then
    pure state
  else do
    let cursorStart ← state.versionedStart version
    let oldStart :=
      match state.oldFragments.item with
      | some fragment =>
        if fragment.visible then
          state.visibleStart version + (state.fragmentStart - cursorStart)
        else
          state.visibleStart version
      | none => state.visibleStart version
    let newStart := (FragmentBuilder.text state.newFragments).visible
    let state ← state.pushFragmentsForInsertion newText timestamp state.nextFragmentId
    pure
      { state with
        editsPatch := state.editsPatch.push
            { oldStart
              oldEnd := oldStart
              newStart
              newEnd := newStart + (utf8 newText).length } }

/-- The intersection of the current fragment with the range of a remote edit, and the
slice recorded for it if the fragment was visible at the version. -/
def observedIntersection (version : Global) (undoMap : UndoMap) (timestamp : Lamport)
    (cursorStart intersectionEnd : Nat) (fragment : Fragment) (state : EditState) :
    Option (Fragment × List InsertionSlice) :=
  if version.observed fragment.timestamp then
    let piece :=
      { fragment with
        len := intersectionEnd - state.fragmentStart
        insertionOffset := fragment.insertionOffset + (state.fragmentStart - cursorStart)
        id := Locator.between (FragmentBuilder.maxId state.newFragments) fragment.id }
    if fragment.wasVisible version undoMap then do
      let intersection :=
        { piece with deletions := piece.deletions ++ [timestamp], visible := false }
      let slice ← InsertionSlice.fromFragment timestamp intersection
      pure (intersection, [slice])
    else
      pure (piece, [])
  else
    pure (fragment, [])

/-- One iteration of the loop of `apply_remote_edit` that marks the fragments of the
range as deleted.  `cursorStart` and `fragmentEnd` are the full offsets of the current
fragment. -/
def deleteObservedFragment (version : Global) (undoMap : UndoMap) (timestamp : Lamport)
    (rangeEnd cursorStart fragmentEnd : Nat) (fragment : Fragment) (state : EditState) :
    Option EditState := do
  let intersectionEnd := min rangeEnd fragmentEnd
  let (intersection, slices) ←
    observedIntersection version undoMap timestamp cursorStart intersectionEnd fragment state
  let state := { state with insertionSlices := state.insertionSlices ++ slices }
  let state ←
    if 0 < intersection.len then do
      let editsPatch :=
        if fragment.visible && !intersection.visible then
          let oldStart := state.visibleStart version + (state.fragmentStart - cursorStart)
          let newStart := (FragmentBuilder.text state.newFragments).visible
          state.editsPatch.push
            { oldStart, oldEnd := oldStart + intersection.len, newStart, newEnd := newStart }
        else
          state.editsPatch
      let state ← { state with editsPatch }.pushPiece intersection fragment.visible
      pure { state with fragmentStart := intersectionEnd }
    else
      pure state
  pure
    (if fragmentEnd ≤ rangeEnd then { state with oldFragments := state.oldFragments.next }
    else state)

/-- The loop `while fragment_start < range.end` of `apply_remote_edit`, over the
fragments from the cursor on. -/
def deleteObserved (version : Global) (undoMap : UndoMap) (timestamp : Lamport)
    (rangeEnd : Nat) : List Fragment → EditState → Option EditState
  | [], state => if state.fragmentStart < rangeEnd then none else some state
  | fragment :: rest, state =>
    if state.fragmentStart < rangeEnd then do
      let cursorStart ← state.versionedStart version
      let fragmentEnd ← state.versionedEnd version
      let next ←
        deleteObservedFragment version undoMap timestamp rangeEnd cursorStart fragmentEnd
          fragment state
      if fragmentEnd ≤ rangeEnd then
        deleteObserved version undoMap timestamp rangeEnd rest next
      else
        some next
    else
      some state

/-- The body of the loop of `apply_remote_edit` over the ranges and texts. -/
def applyRemoteRange (version : Global) (undoMap : UndoMap) (timestamp : Lamport)
    (state : EditState) (edit : Range × List Char) : Option EditState := do
  let (range, newText) := edit
  let state ← seekRemoteRange version range.start state
  let state ← leaveFragment version range.start state
  let state ← skipConcurrent timestamp range.start state.oldFragments.rest state
  let cursorStart ← state.versionedStart version
  let state ← state.pushPrefix cursorStart range.start
  let state ← insertRemoteText version state newText timestamp
  deleteObserved version undoMap timestamp range.stop state.oldFragments.rest state

/-- `Buffer::apply_remote_edit`, on the snapshot of the buffer; the patch is published to
the subscriptions. -/
def BufferSnapshot.applyRemoteEdit (self : BufferSnapshot) (version : Global) (ranges : List Range)
    (newText : List (List Char)) (timestamp : Lamport) : Option (BufferSnapshot × Patch) :=
  match ranges with
  | [] => some (self, [])
  | first :: _ => do
    let state ← (EditState.new self).appendSlice (versionedDimension version)
      (stepsOverOffset first.start)
    let fragmentStart ← state.versionedStart version
    let state ← (ranges.zip newText).foldlM
      (applyRemoteRange version self.undoMap timestamp) { state with fragmentStart }
    let cursorStart ← state.versionedStart version
    let fragmentEnd ← state.versionedEnd version
    let state ← state.finishFragment cursorStart fragmentEnd
    let state ← state.appendSuffix
    pure (state.store self, state.editsPatch)

end RemoteEdit

end XorEditor.Text
