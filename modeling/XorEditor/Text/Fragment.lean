import XorEditor.Text.Locator
import XorEditor.Text.Operation

/-!
# Fragments

A buffer is a sequence of fragments.  A fragment is a piece of the text inserted by one
operation, together with the operations that deleted it; its text lives in the visible or
in the deleted rope of the buffer, at the place given by the fragments before it.

Fragments are found through the insertions they belong to: an `InsertionFragment` maps
the timestamp and the offset inside the insertion to the fragment's locator, and an
`InsertionSlice` records a range of an insertion that one edit inserted or deleted.

The dimensions of a fragment sequence are the ones the cursors of the source use: visible
and deleted length, full offset at a version, and locator.

* `Fragment`, `FragmentSummary`: fragments
* `InsertionFragment`, `InsertionSlice`: the entries of the two indices
-/

namespace XorEditor.Text

open Clock Lib

/-- `Fragment`. -/
structure Fragment where
  id : Locator
  timestamp : Lamport
  insertionOffset : Nat
  len : Nat
  visible : Bool
  deletions : List Lamport
  maxUndos : Global
deriving DecidableEq

/-- `FragmentTextSummary`. -/
structure FragmentTextSummary where
  visible : Nat
  deleted : Nat
deriving DecidableEq

/-- `FragmentSummary`. -/
structure FragmentSummary where
  text : FragmentTextSummary
  maxId : Locator
  maxVersion : Global
  minInsertionVersion : Global
  maxInsertionVersion : Global

namespace Fragment

/-- `Fragment::is_visible`. -/
def isVisible (self : Fragment) (undos : UndoMap) : Bool :=
  !undos.isUndone self.timestamp && self.deletions.all fun d => undos.isUndone d

/-- `Fragment::was_visible`. -/
def wasVisible (self : Fragment) (version : Global) (undos : UndoMap) : Bool :=
  (version.observed self.timestamp && !undos.wasUndone self.timestamp version) &&
    self.deletions.all fun d => !version.observed d || undos.wasUndone d version

/-- `Item::summary` of a fragment. -/
def summary (self : Fragment) : FragmentSummary where
  text :=
    if self.visible then { visible := self.len, deleted := 0 }
    else { visible := 0, deleted := self.len }
  maxId := self.id
  maxVersion := (self.deletions.foldl Global.observe (Global.new.observe self.timestamp)).join
      self.maxUndos
  minInsertionVersion := Global.new.observe self.timestamp
  maxInsertionVersion := Global.new.observe self.timestamp

end Fragment

/-- `Dimension<FragmentSummary> for FragmentTextSummary`. -/
def textDimension : Dimension FragmentSummary FragmentTextSummary where
  zero := { visible := 0, deleted := 0 }
  addSummary position summary :=
    { visible := position.visible + summary.text.visible
      deleted := position.deleted + summary.text.deleted }

/-- `Dimension<FragmentSummary> for usize`: the visible length. -/
def visibleDimension : Dimension FragmentSummary Nat where
  zero := 0
  addSummary position summary := position + summary.text.visible

/-- `VersionedFullOffset`: an offset that counts the fragments a version has observed.
A subtree that is only partly observed makes the offset invalid. -/
inductive VersionedFullOffset where
  | offset (position : Nat)
  | invalid
deriving DecidableEq

namespace VersionedFullOffset

/-- `VersionedFullOffset::full_offset`; it panics on an invalid offset. -/
def fullOffset : VersionedFullOffset → Option Nat
  | offset position => some position
  | invalid => none

/-- `Dimension::add_summary` of `VersionedFullOffset`, the context being the version. -/
def addSummary (version : Global) (self : VersionedFullOffset) (summary : FragmentSummary) :
    VersionedFullOffset :=
  match self with
  | offset position =>
    if version.observedAll summary.maxInsertionVersion then
      offset (position + (summary.text.visible + summary.text.deleted))
    else if version.observedAny summary.minInsertionVersion then
      invalid
    else
      offset position
  | invalid => invalid

/-- `SeekTarget::cmp` of an offset: everything lies before an invalid position. -/
def compareOffset (target : Nat) : VersionedFullOffset → Ordering
  | offset position => compare target position
  | invalid => Ordering.lt

end VersionedFullOffset

/-- `Dimensions<VersionedFullOffset, usize>`: the full offset at a version and the visible
length. -/
def versionedDimension (version : Global) :
    Dimension FragmentSummary (VersionedFullOffset × Nat) where
  zero := (VersionedFullOffset.offset 0, 0)
  addSummary position summary :=
    (position.1.addSummary version summary, position.2 + summary.text.visible)

/-- `Dimensions<Option<&Locator>, usize>`: the locator of the last fragment passed and the
visible length. -/
def locatorDimension : Dimension FragmentSummary (Option Locator × Nat) where
  zero := (none, 0)
  addSummary position summary := (some summary.maxId, position.2 + summary.text.visible)

/-- The comparison of a locator target: `None` is below every locator. -/
def compareLocator (target : Locator) : Option Locator → Ordering
  | none => Ordering.gt
  | some position => compare target position

/-- `InsertionFragment`: where to find the fragment of an insertion that starts at
`splitOffset`. -/
structure InsertionFragment where
  timestamp : Lamport
  splitOffset : Nat
  fragmentId : Locator
deriving DecidableEq

namespace InsertionFragment

/-- `InsertionFragmentKey`, ordered by timestamp and offset. -/
def key (self : InsertionFragment) : Lamport ×ₗ Nat := toLex (self.timestamp, self.splitOffset)

/-- `InsertionFragment::new` and `insert_new`. -/
def new (fragment : Fragment) : InsertionFragment where
  timestamp := fragment.timestamp
  splitOffset := fragment.insertionOffset
  fragmentId := fragment.id

/-- `Dimension` of the insertions tree: the key of the last item passed. -/
def keyDimension : Dimension (Lamport ×ₗ Nat) (Lamport ×ₗ Nat) where
  zero := toLex (Lamport.MIN, 0)
  addSummary _ key := key

end InsertionFragment

/-- `InsertionSlice`, with the two timestamps not inlined. -/
structure InsertionSlice where
  editId : Lamport
  insertionId : Lamport
  rangeStart : Nat
  rangeEnd : Nat
deriving DecidableEq

namespace InsertionSlice

/-- `Ord for InsertionSlice`. -/
def key (self : InsertionSlice) : Lamport ×ₗ (Lamport ×ₗ (Nat ×ₗ Nat)) :=
  toLex (self.editId, toLex (self.insertionId, toLex (self.rangeStart, self.rangeEnd)))

/-- `InsertionSlice::from_fragment`.  The end of the range is a `u32` addition. -/
def fromFragment (editId : Lamport) (fragment : Fragment) : Option InsertionSlice :=
  if fragment.insertionOffset + fragment.len < 2 ^ 32 then
    some
      { editId
        insertionId := fragment.timestamp
        rangeStart := fragment.insertionOffset
        rangeEnd := fragment.insertionOffset + fragment.len }
  else
    none

end InsertionSlice

namespace FragmentBuilder

/-- `FragmentBuilder::summary().max_id`: the locator of the last fragment pushed. -/
def maxId (fragments : List Fragment) : Locator :=
  match fragments.getLast? with
  | some fragment => fragment.id
  | none => Locator.min

/-- `FragmentBuilder::summary().text`. -/
def text (fragments : List Fragment) : FragmentTextSummary :=
  textDimension.measure Fragment.summary fragments

end FragmentBuilder

end XorEditor.Text
