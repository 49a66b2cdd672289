import XorEditor.Text.Anchor

/-!
# Past versions of a buffer

`rope_for_version` rebuilds the text a buffer had at a past version, and `edits_since`
lists the edits that lead from there to the present text.  Both walk the fragments with a
filter cursor, which passes over every fragment whose `max_version` the past version has
observed, and keep cursors into the visible and the deleted text.  The filter cursor is
modelled by a loop over all fragments that carries the position of the current one; rope
cursors are their offsets.

* `ropeForVersion`: the text
* `editsSinceInRange`, `editsSince`: the edits
* `hasEditsSinceInRange`: the test
-/

namespace XorEditor.Text

open Clock Lib

/-- The filter of the fragment cursors: something happened to the fragment that `version`
has not observed. -/
def Fragment.changedAfter (self : Fragment) (version : Global) : Bool :=
  !version.observedAll self.summary.maxVersion

variable (self : BufferSnapshot)

section RopeForVersion

/-- The variables of `rope_for_version`: the text so far and the two rope cursors. -/
structure RopeForVersion where
  rope : Rope
  visibleOffset : Nat
  deletedOffset : Nat

/-- Append the visible text up to `stop`. -/
def RopeForVersion.appendVisible (self : RopeForVersion) (visibleText : Rope) (stop : Nat) :
    Option RopeForVersion := do
  let text ← Rope.slice visibleText self.visibleOffset stop
  pure { self with rope := self.rope ++ text, visibleOffset := stop }

/-- Append the text of a deleted fragment from `start` to `stop`. -/
def RopeForVersion.appendDeleted (self : RopeForVersion) (deletedText : Rope)
    (start stop : Nat) : Option RopeForVersion := do
  let _ ← Rope.slice deletedText self.deletedOffset start
  let text ← Rope.slice deletedText start stop
  pure { self with rope := self.rope ++ text, deletedOffset := stop }

/-- Append the visible text in front of the current fragment that was not copied yet. -/
def RopeForVersion.catchUp (self : RopeForVersion) (visibleText : Rope) (start : Nat) :
    Option RopeForVersion :=
  if self.visibleOffset < start then self.appendVisible visibleText start else pure self

/-- The text of one fragment that changed after the version. -/
def RopeForVersion.visit (snapshot : BufferSnapshot) (version : Global)
    (fragment : Fragment) (start stop : FragmentTextSummary) (self : RopeForVersion) :
    Option RopeForVersion := do
  let self ← self.catchUp snapshot.visibleText start.visible
  if fragment.wasVisible version snapshot.undoMap then
    if fragment.visible then self.appendVisible snapshot.visibleText stop.visible
    else self.appendDeleted snapshot.deletedText start.deleted stop.deleted
  else if fragment.visible then do
    let _ ← Rope.slice snapshot.visibleText self.visibleOffset stop.visible
    pure { self with visibleOffset := stop.visible }
  else
    pure self

/-- The loop of `rope_for_version`, from the fragment at position `start` on. -/
def ropeForVersionFrom (snapshot : BufferSnapshot) (version : Global) :
    List Fragment → FragmentTextSummary → RopeForVersion → Option Rope
  | [], start, state => do
    let state ← state.catchUp snapshot.visibleText start.visible
    pure state.rope
  | fragment :: rest, start, state =>
    let stop := textDimension.addSummary start fragment.summary
    if fragment.changedAfter version then do
      let state ← state.visit snapshot version fragment start stop
      ropeForVersionFrom snapshot version rest stop state
    else
      ropeForVersionFrom snapshot version rest stop state

/-- `BufferSnapshot::rope_for_version`. -/
def BufferSnapshot.ropeForVersion (version : Global) : Option Rope :=
  ropeForVersionFrom self version self.fragments textDimension.zero
    { rope := [], visibleOffset := 0, deletedOffset := 0 }

end RopeForVersion

section Edits

/-- A position inside a fragment: its locator and an offset into its insertion. -/
structure FragmentPosition where
  fragmentId : Locator
  offset : Nat

/-- `Edits`: the iterator over the edits since a version.  `start` is the position of the
first of the remaining `fragments`. -/
structure Edits where
  visibleOffset : Nat
  deletedOffset : Nat
  start : FragmentTextSummary
  fragments : List Fragment
  oldEnd : Nat
  newEnd : Nat

/-- The fixed parts of the iterator: the snapshot, the past version and the range. -/
structure EditsContext where
  snapshot : BufferSnapshot
  since : Global
  rangeStart : FragmentPosition
  rangeEnd : FragmentPosition

/-- An edit and the anchors around its new text. -/
abbrev AnchoredEdit := Edit × (Anchor × Anchor)

/-- A `u32` subtraction; underflow panics. -/
def checkedSub (a b : Nat) : Option Nat := if b ≤ a then some (a - b) else none

namespace Edits

/-- The visible text in front of the current fragment is unchanged. -/
def catchUp (cx : EditsContext) (self : Edits) : Option Edits :=
  if self.visibleOffset < self.start.visible then do
    let text ← Rope.slice cx.snapshot.visibleText self.visibleOffset self.start.visible
    pure
      { self with
        visibleOffset := self.start.visible
        oldEnd := self.oldEnd + text.length
        newEnd := self.newEnd + text.length }
  else
    pure self

/-- `Anchor::new` at the start of a fragment. -/
def startAnchor (cx : EditsContext) (fragment : Fragment) : Anchor where
  timestamp := fragment.timestamp
  offset := fragment.insertionOffset
  bias := Bias.right
  bufferId := cx.snapshot.remoteId

/-- `Anchor::new` at the end of a fragment. -/
def endAnchor (cx : EditsContext) (fragment : Fragment) : Anchor where
  timestamp := fragment.timestamp
  offset := fragment.insertionOffset + fragment.len
  bias := Bias.left
  bufferId := cx.snapshot.remoteId

/-- The end of the current fragment, clipped to the end of the range. -/
def clipEnd (cx : EditsContext) (fragment : Fragment) (start stop : Nat) : Option Nat :=
  if fragment.id = cx.rangeEnd.fragmentId then do
    let len ← checkedSub cx.rangeEnd.offset fragment.insertionOffset
    pure (min stop (start + len))
  else
    pure stop

/-- The current fragment was inserted, or its deletion undone, since the version. -/
def visitInserted (cx : EditsContext) (fragment : Fragment) (visibleStop : Nat)
    (pending : Option AnchoredEdit) (self : Edits) : Option (Option AnchoredEdit × Edits) := do
  let visibleEnd ← clipEnd cx fragment self.start.visible visibleStop
  let text ← Rope.slice cx.snapshot.visibleText self.visibleOffset visibleEnd
  let newEnd := self.newEnd + text.length
  let pending :=
    match pending with
    | some (edit, range) => ({ edit with newEnd }, (range.1, endAnchor cx fragment))
    | none =>
      ({ oldStart := self.oldEnd, oldEnd := self.oldEnd, newStart := self.newEnd, newEnd },
        (startAnchor cx fragment, endAnchor cx fragment))
  pure (some pending, { self with visibleOffset := visibleEnd, newEnd })

/-- The current fragment was deleted, or its insertion undone, since the version. -/
def visitDeleted (cx : EditsContext) (fragment : Fragment) (deletedStop : Nat)
    (pending : Option AnchoredEdit) (self : Edits) : Option (Option AnchoredEdit × Edits) := do
  let deletedEnd ← clipEnd cx fragment self.start.deleted deletedStop
  let deletedOffset ←
    if self.deletedOffset < self.start.deleted then do
      let _ ← Rope.slice cx.snapshot.deletedText self.deletedOffset self.start.deleted
      pure self.start.deleted
    else
      pure self.deletedOffset
  let text ← Rope.slice cx.snapshot.deletedText deletedOffset deletedEnd
  let oldEnd := self.oldEnd + text.length
  let pending :=
    match pending with
    | some (edit, range) => ({ edit with oldEnd }, (range.1, endAnchor cx fragment))
    | none =>
      ({ oldStart := self.oldEnd, oldEnd, newStart := self.newEnd, newEnd := self.newEnd },
        (startAnchor cx fragment, endAnchor cx fragment))
  pure (some pending, { self with deletedOffset := deletedEnd, oldEnd })

/-- Compare the visibility of the current fragment with the one it had at the version. -/
def visit (cx : EditsContext) (fragment : Fragment) (stop : FragmentTextSummary)
    (pending : Option AnchoredEdit) (self : Edits) : Option (Option AnchoredEdit × Edits) :=
  let wasVisible := fragment.wasVisible cx.since cx.snapshot.undoMap
  if !wasVisible && fragment.visible then
    visitInserted cx fragment stop.visible pending self
  else if wasVisible && !fragment.visible then
    visitDeleted cx fragment stop.deleted pending self
  else
    pure (pending, self)

/-- The loop of `Edits::next` over the remaining fragments.  A pending edit is returned as
soon as unchanged text follows it. -/
def nextFrom (cx : EditsContext) :
    List Fragment → Option AnchoredEdit → Edits → Option (Option AnchoredEdit × Edits)
  | [], pending, self => some (pending, { self with fragments := [] })
  | fragment :: rest, pending, self =>
    let stop := textDimension.addSummary self.start fragment.summary
    if !fragment.changedAfter cx.since || decide (fragment.id < cx.rangeStart.fragmentId) then
      nextFrom cx rest pending { self with start := stop }
    else if cx.rangeEnd.fragmentId < fragment.id then
      some (pending, { self with fragments := fragment :: rest })
    else do
      let self ← catchUp cx self
      if pending.any fun change => decide (change.1.newEnd < self.newEnd) then
        some (pending, { self with fragments := fragment :: rest })
      else do
        let (pending, self) ← visit cx fragment stop pending self
        nextFrom cx rest pending { self with start := stop }

/-- `Iterator::next` of `Edits`. -/
def next (cx : EditsContext) (self : Edits) : Option (Option AnchoredEdit × Edits) :=
  nextFrom cx self.fragments none self

/-- The edits the iterator yields.  Every edit consumes a fragment, so the number of
fragments bounds the iteration. -/
def collect (cx : EditsContext) : Nat → Edits → Option (List AnchoredEdit)
  | 0, _ => some []
  | fuel + 1, self => do
    let (edit, self) ← next cx self
    match edit with
    | some edit => do
      let edits ← collect cx fuel self
      pure (edit :: edits)
    | none => pure []

end Edits

namespace BufferSnapshot

/-- `BufferSnapshot::anchored_edits_since_in_range`. -/
def anchoredEditsSinceInRange (since : Global) (rangeStart rangeEnd : Anchor) :
    Option (List AnchoredEdit) :=
  if since = self.version then
    some []
  else do
    let startFragmentId ← self.fragmentIdForAnchor rangeStart
    let cursor := self.findFragment startFragmentId
    let start := cursor.start textDimension Fragment.summary
    let (visibleStart, deletedStart) ←
      match cursor.item with
      | some fragment => do
        let overshoot ← checkedSub rangeStart.offset fragment.insertionOffset
        if fragment.visible then pure (start.visible + overshoot, start.deleted)
        else pure (start.visible, start.deleted + overshoot)
      | none => pure (start.visible, start.deleted)
    let endFragmentId ← self.fragmentIdForAnchor rangeEnd
    Edits.collect
      { snapshot := self
        since
        rangeStart := { fragmentId := startFragmentId, offset := rangeStart.offset }
        rangeEnd := { fragmentId := endFragmentId, offset := rangeEnd.offset } }
      (self.fragments.length + 1)
      { visibleOffset := visibleStart
        deletedOffset := deletedStart
        start := textDimension.zero
        fragments := self.fragments
        oldEnd := 0
        newEnd := 0 }

/-- `BufferSnapshot::edits_since_in_range` with byte offsets. -/
def editsSinceInRange (since : Global) (rangeStart rangeEnd : Anchor) :
    Option (List Edit) := do
  let edits ← self.anchoredEditsSinceInRange since rangeStart rangeEnd
  pure (edits.map Prod.fst)

/-- `BufferSnapshot::has_edits_since_in_range`.  Unlike the iterator, the loop passes over
the fragment in which the range starts. -/
def hasEditsSinceInRange (since : Global) (rangeStart rangeEnd : Anchor) : Option Bool :=
  if since = self.version then some false
  else do
    let startFragmentId ← self.fragmentIdForAnchor rangeStart
    let endFragmentId ← self.fragmentIdForAnchor rangeEnd
    let visited := (self.fragments.filter fun fragment => fragment.changedAfter since).takeWhile
      fun fragment => decide (fragment.id ≤ endFragmentId)
    pure
      (visited.any fun fragment =>
        decide (startFragmentId < fragment.id)
          && fragment.wasVisible since self.undoMap != fragment.visible)

/-- `BufferSnapshot::edits_since` with byte offsets. -/
def editsSince (since : Global) : Option (List Edit) := do
  let edits ← self.anchoredEditsSinceInRange since (Anchor.minForBuffer self.remoteId)
    (Anchor.maxForBuffer self.remoteId)
  pure (edits.map Prod.fst)

/-- `BufferSnapshot::has_edits_since`. -/
def hasEditsSince (since : Global) : Bool :=
  if since = self.version then false
  else
    self.fragments.any fun fragment =>
      fragment.changedAfter since
        && fragment.wasVisible since self.undoMap != fragment.visible

end BufferSnapshot

end Edits

end XorEditor.Text
