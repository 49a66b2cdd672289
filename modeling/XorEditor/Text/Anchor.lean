import XorEditor.Text.Buffer

/-!
# Anchors

An anchor names a place next to a byte of an insertion, so that it survives edits.  A
snapshot resolves it through the insertions tree: `try_find_fragment` looks up the
fragment that holds the byte, `offset_for_anchor` turns that into an offset of the visible
text, and `Anchor::cmp` orders anchors by the locators of their fragments.

* `Anchor`: anchors
* `anchorAt`, `offsetForAnchor`: to an anchor and back
* `Anchor.cmp`: their order
-/

namespace XorEditor.Text

open Clock Lib

/-- `Anchor`, with the timestamp not inlined. -/
structure Anchor where
  timestamp : Lamport
  offset : Nat
  bias : Bias
  bufferId : Nat
deriving DecidableEq

namespace Anchor

/-- `Anchor::min_for_buffer`. -/
def minForBuffer (bufferId : Nat) : Anchor where
  timestamp := Lamport.MIN
  offset := 0
  bias := Bias.left
  bufferId

/-- `Anchor::max_for_buffer`. -/
def maxForBuffer (bufferId : Nat) : Anchor where
  timestamp := Lamport.MAX
  offset := 2 ^ 32 - 1
  bias := Bias.right
  bufferId

/-- `Anchor::is_min`. -/
def isMin (self : Anchor) : Bool :=
  decide (self.timestamp = Lamport.MIN) && self.offset == 0 && self.bias == Bias.left

/-- `Anchor::is_max`. -/
def isMax (self : Anchor) : Bool :=
  decide (self.timestamp = Lamport.MAX) && self.offset == 2 ^ 32 - 1
    && self.bias == Bias.right

/-- The place an anchor looks for in the insertions tree. -/
def key (self : Anchor) : Lamport ×ₗ Nat := toLex (self.timestamp, self.offset)

end Anchor

namespace BufferSnapshot

variable (self : BufferSnapshot)

/-- `BufferSnapshot::try_find_fragment`.  `find_with_prev` seeks from the start of the
insertions tree and also returns the item before the one it stops at. -/
def tryFindFragment (anchor : Anchor) : Option InsertionFragment :=
  let cursor := ((ListCursor.ofList self.insertions).slice InsertionFragment.keyDimension
      InsertionFragment.key fun position => passes (compare anchor.key position) anchor.bias).2
  match cursor.item with
  | some insertion =>
    let comparison := compare insertion.key anchor.key
    if comparison == Ordering.gt
        || (anchor.bias == Bias.left && comparison == Ordering.eq
          && decide (0 < anchor.offset)) then
      cursor.before.getLast?
    else
      some insertion
  | none => self.insertions.getLast?

/-- `BufferSnapshot::fragment_id_for_anchor`, with the check of the timestamp that a debug
build makes; a bad anchor panics. -/
def fragmentIdForAnchor (anchor : Anchor) : Option Locator :=
  if anchor.isMin then
    some Locator.min
  else if anchor.isMax then
    some Locator.max
  else do
    let insertion ← self.tryFindFragment anchor
    if insertion.timestamp = anchor.timestamp then some insertion.fragmentId else none

/-- The fragment with a given locator, found by seeking from the start. -/
def findFragment (id : Locator) : ListCursor Fragment :=
  ((ListCursor.ofList self.fragments).slice locatorDimension Fragment.summary
    (stepsOverLocator id)).2

/-- `BufferSnapshot::offset_for_anchor`.  The subtraction of `u32`s panics on underflow. -/
def offsetForAnchor (anchor : Anchor) : Option Nat :=
  if anchor.isMin then
    some 0
  else if anchor.isMax then
    some self.visibleText.length
  else do
    let insertion ← self.tryFindFragment anchor
    if insertion.timestamp = anchor.timestamp then do
      let cursor := self.findFragment insertion.fragmentId
      let fragment ← cursor.item
      let fragmentOffset := (cursor.start locatorDimension Fragment.summary).2
      if fragment.visible then
        if insertion.splitOffset ≤ anchor.offset then
          some (fragmentOffset + (anchor.offset - insertion.splitOffset))
        else
          none
      else
        some fragmentOffset
    else
      none

/-- `BufferSnapshot::anchor_at_offset`, as a release build computes it. -/
def anchorAtOffset (offset : Nat) (bias : Bias) : Anchor :=
  if bias = Bias.left ∧ offset = 0 then
    Anchor.minForBuffer self.remoteId
  else if bias = Bias.right ∧ self.visibleText.length ≤ offset then
    Anchor.maxForBuffer self.remoteId
  else
    let offset :=
      if Rope.isCharBoundary self.visibleText offset then offset
      else
        match bias with
        | Bias.left => Rope.floorCharBoundary self.visibleText offset
        | Bias.right => Rope.ceilCharBoundary self.visibleText offset
    let cursor := ((ListCursor.ofList self.fragments).slice visibleDimension Fragment.summary
        fun position => passes (compare offset position) bias).2
    match cursor.item with
    | some fragment =>
      { timestamp := fragment.timestamp
        offset := fragment.insertionOffset +
            (offset - cursor.start visibleDimension Fragment.summary)
        bias
        bufferId := self.remoteId }
    | none => Anchor.maxForBuffer self.remoteId

/-- `BufferSnapshot::anchor_at` a byte offset. -/
def anchorAt (position : Nat) (bias : Bias) : Anchor :=
  self.anchorAtOffset (Buffer.toOffset self position) bias

end BufferSnapshot

/-- The order of `Bias`: left before right. -/
def compareBias : Bias → Bias → Ordering
  | Bias.left, Bias.right => Ordering.lt
  | Bias.right, Bias.left => Ordering.gt
  | _, _ => Ordering.eq

/-- `Anchor::cmp`. -/
def Anchor.cmp (self other : Anchor) (buffer : BufferSnapshot) : Option Ordering := do
  let fragmentIdComparison ←
    if self.timestamp = other.timestamp then
      pure Ordering.eq
    else do
      let selfId ← buffer.fragmentIdForAnchor self
      let otherId ← buffer.fragmentIdForAnchor other
      pure (compare selfId otherId)
  pure
    ((fragmentIdComparison.then (compare self.offset other.offset)).then
      (compareBias self.bias other.bias))

end XorEditor.Text
