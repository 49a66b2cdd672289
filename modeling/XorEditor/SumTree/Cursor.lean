import XorEditor.Lib.ListCursor
import XorEditor.SumTree.Build

/-!
# Cursors

A cursor is a position in a tree: the path of nodes from the root to a leaf, with the index of
the child taken in each, and the dimension of all items passed.  The loops of the source over
its stack are recursions here: `walkChildren` goes into the nodes below an entry, `resume`
continues along the entries that are on the stack.  A stack is a list with the root in front.
It has a fixed capacity: `room` is how many entries can still be pushed, and a push without room
is a panic.

* `Dimension`, `Cursor`: positions and cursors
* `Walk`: what a loop over the stack skips
* `seek`, `slice`, `next`, `prev`: motions
-/

namespace XorEditor.SumTree

open Lib (Bias)

universe u

/-- `Dimension`: a measure of the items that are passed. -/
class Dimension (D : Type u) (S : Type u) [Summary S] where
  zero (S) : D
  addSummary : D → S → D

/-- A dimension that adds up: the sum of two summaries measures what both measure in turn. -/
class AddingDimension (D : Type u) (S : Type u) [Summary S] extends Dimension D S where
  addSummary_add : ∀ (d : D) (a b : S), addSummary d (a + b) = addSummary (addSummary d a) b

/-- A dimension that adds up, and where an empty tree has no extent. -/
class LawfulDimension (D : Type u) (S : Type u) [Summary S] extends AddingDimension D S where
  addSummary_zero : addSummary zero 0 = zero

/-- Every summary is a dimension of itself. -/
instance {S : Type u} [Summary S] : LawfulDimension S S where
  zero := 0
  addSummary := (· + ·)
  addSummary_add _ _ _ := (Summary.add_assoc _ _ _).symm
  addSummary_zero := Summary.zero_add 0

instance {S : Type u} [Summary S] : LawfulDimension PUnit.{u + 1} S where
  zero := ⟨⟩
  addSummary _ _ := ⟨⟩
  addSummary_add _ _ _ := rfl
  addSummary_zero := rfl

/-- `StackEntry`. -/
structure StackEntry (T S D : Type u) where
  tree : Node T S
  index : Nat
  position : D

/-- A push to a stack, which panics if the stack is full. -/
def pushEntry {T S D : Type u} (stack : List (StackEntry T S D)) (entry : StackEntry T S D) :
    Option (List (StackEntry T S D)) :=
  if stack.length < stackCapacity then some (stack ++ [entry]) else none

/-- `Cursor`. -/
structure Cursor (T S D : Type u) where
  tree : Node T S
  stack : List (StackEntry T S D)
  position : D
  didSeek : Bool
  atEnd : Bool

/-- `SeekAggregate`: what is done with the items that a seek passes over.  No implementation
does anything at the beginning of a leaf. -/
structure SeekAggregate (A T S : Type u) where
  pushItem : A → T → S → Option A
  endLeaf : A → Option A
  pushTree : A → Node T S → S → Option A

/-- The aggregate of a seek that only moves. -/
def SeekAggregate.unit (T S : Type u) : SeekAggregate PUnit.{u + 1} T S where
  pushItem _ _ _ := some ⟨⟩
  endLeaf _ := some ⟨⟩
  pushTree _ _ _ := some ⟨⟩

/-- `SliceSeekAggregate`: the tree so far, and the items of the current leaf. -/
structure SliceSeekAggregate (T S : Type u) where
  tree : Node T S
  leafItems : List T
  leafItemSummaries : List S
  leafSummary : S

section Aggregates

variable {T S D : Type u} [Summary S] [Item T S] [Dimension D S]

/-- A slice before anything is passed. -/
def SliceSeekAggregate.empty : SliceSeekAggregate T S where
  tree := Node.new
  leafItems := []
  leafItemSummaries := []
  leafSummary := 0

/-- The aggregate of `Cursor::slice`. -/
def SeekAggregate.slice : SeekAggregate (SliceSeekAggregate T S) T S where
  pushItem self item summary :=
    if self.leafItems.length < 2 * treeBase ∧ self.leafItemSummaries.length < 2 * treeBase then
      some { self with
        leafItems := self.leafItems ++ [item]
        leafItemSummaries := self.leafItemSummaries ++ [summary]
        leafSummary := self.leafSummary + summary }
    else none
  endLeaf self := do
    let tree ← self.tree.append
      (Node.leaf self.leafSummary self.leafItems self.leafItemSummaries)
    return { SliceSeekAggregate.empty with tree }
  pushTree self tree _ := do
    return { self with tree := ← self.tree.append tree }

omit [Item T S] in
variable (T D) in
/-- `SummarySeekAggregate`. -/
def SeekAggregate.summary : SeekAggregate D T S where
  pushItem self _ summary := some (Dimension.addSummary self summary)
  endLeaf self := some self
  pushTree self _ summary := some (Dimension.addSummary self summary)

end Aggregates

/-- How a cursor walks forward: which children it skips, given the position before them, and
whether the position in a leaf's entry follows its index. -/
structure Walk (D S : Type u) where
  skip : D → S → Bool
  tracksLeaf : Bool

section Walk

variable {T S D A : Type u} [Summary S] [Dimension D S]

/-- Whether a seek goes past what ends at a position, given the comparison of its target with
that position. -/
def goesPast (bias : Bias) : Ordering → Bool
  | .gt => true
  | .eq => bias = .right
  | .lt => false

/-- The walk of a seek: it skips what ends before its target.  A target is its comparison with
a position. -/
def Walk.seek (target : D → Ordering) (bias : Bias) : Walk D S where
  skip position summary := goesPast bias (target (Dimension.addSummary position summary))
  tracksLeaf := false

/-- The walk of a search: it skips what does not pass the filter. -/
def Walk.search (D : Type u) {S : Type u} (filterNode : S → Bool) : Walk D S where
  skip _ summary := !filterNode summary
  tracksLeaf := true

/-- The entry of a leaf at its next item. -/
def Walk.advance (walk : Walk D S) (entry : StackEntry T S D) (summary : S) : StackEntry T S D :=
  { entry with
    index := entry.index + 1
    position :=
      if walk.tracksLeaf then Dimension.addSummary entry.position summary else entry.position }

/-- The items of a leaf, up to the first that is not skipped. -/
def walkItems (walk : Walk D S) (agg : SeekAggregate A T S) :
    List (T × S) → StackEntry T S D → D → A → Option (Bool × StackEntry T S D × D × A)
  | [], entry, position, aggregate => some (false, entry, position, aggregate)
  | (item, summary) :: rest, entry, position, aggregate =>
    if walk.skip position summary then do
      let aggregate ← agg.pushItem aggregate item summary
      walkItems walk agg rest (walk.advance entry summary)
        (Dimension.addSummary position summary) aggregate
    else some (true, entry, position, aggregate)

/-- The items of a leaf from the index of its entry.  The entry stays on the stack if the walk
stops there. -/
def walkLeaf (walk : Walk D S) (agg : SeekAggregate A T S) (entry : StackEntry T S D)
    (items : List T) (itemSummaries : List S) (position : D) (aggregate : A) :
    Option (List (StackEntry T S D) × D × A) := do
  let (stopped, entry, position, aggregate) ← walkItems walk agg
    ((items.drop entry.index).zip (itemSummaries.drop entry.index)) entry position aggregate
  let aggregate ← agg.endLeaf aggregate
  return (if stopped then [entry] else [], position, aggregate)

mutual

/-- A subtree that is not skipped is pushed to the stack and walked into.  The entries are those
that it leaves on the stack. -/
def walkNode (walk : Walk D S) (agg : SeekAggregate A T S) :
    Nat → Node T S → D → A → Option (List (StackEntry T S D) × D × A)
  | 0, _, _, _ => none
  | room + 1, .internal height summary childSummaries childTrees, position, aggregate =>
    walkChildren walk agg room ⟨.internal height summary childSummaries childTrees, 0, position⟩
      childTrees childSummaries position aggregate
  | _ + 1, .leaf summary items itemSummaries, position, aggregate =>
    walkLeaf walk agg ⟨.leaf summary items itemSummaries, 0, position⟩ items itemSummaries
      position aggregate
termination_by structural _ tree => tree

/-- The children of an entry's node from its index on. -/
def walkChildren (walk : Walk D S) (agg : SeekAggregate A T S) (room : Nat)
    (entry : StackEntry T S D) :
    List (Node T S) → List S → D → A → Option (List (StackEntry T S D) × D × A)
  | childTree :: childTrees, childSummary :: childSummaries, position, aggregate =>
    if walk.skip position childSummary then do
      let aggregate ← agg.pushTree aggregate childTree childSummary
      let position := Dimension.addSummary position childSummary
      walkChildren walk agg room { entry with index := entry.index + 1, position } childTrees
        childSummaries position aggregate
    else do
      let (entries, position, aggregate) ← walkNode walk agg room childTree position aggregate
      if entries.isEmpty then
        walkChildren walk agg room { entry with index := entry.index + 1, position } childTrees
          childSummaries position aggregate
      else return (entry :: entries, position, aggregate)
  | _, _, position, aggregate => some ([], position, aggregate)
termination_by structural childTrees => childTrees

end

/-- One round of the loop over the stack, with `room` above the entry.  `ascending` holds if what
the entry points at has been passed. -/
def walkEntry (walk : Walk D S) (agg : SeekAggregate A T S) (ascending : Bool) (room : Nat)
    (entry : StackEntry T S D) (position : D) (aggregate : A) :
    Option (List (StackEntry T S D) × D × A) :=
  match entry.tree with
  | .internal _ _ childSummaries childTrees =>
    let entry := if ascending then { entry with index := entry.index + 1, position } else entry
    walkChildren walk agg room entry (childTrees.drop entry.index)
      (childSummaries.drop entry.index) position aggregate
  | .leaf _ items itemSummaries =>
    if ascending then do
      let summary ← itemSummaries[entry.index]?
      walkLeaf walk agg (walk.advance entry summary) items itemSummaries
        (Dimension.addSummary position summary) aggregate
    else walkLeaf walk agg entry items itemSummaries position aggregate

/-- The loop over the stack: the last entry first, then those before it as long as the walk
has not stopped.  There is `room` for the entries and what is pushed above them.  `ascending` is
for the last entry. -/
def resume (walk : Walk D S) (agg : SeekAggregate A T S) (ascending : Bool) :
    Nat → List (StackEntry T S D) → D → A → Option (List (StackEntry T S D) × D × A)
  | _, [], position, aggregate => some ([], position, aggregate)
  | room, [entry], position, aggregate =>
    walkEntry walk agg ascending (room - 1) entry position aggregate
  | room, entry :: entries, position, aggregate => do
    let (entries, position, aggregate) ←
      resume walk agg ascending (room - 1) entries position aggregate
    if entries.isEmpty then walkEntry walk agg true (room - 1) entry position aggregate
    else return (entry :: entries, position, aggregate)

end Walk

section Backward

variable {T S D : Type u} [Summary S] [Dimension D S]

/-- The items of a leaf, the later ones first. -/
def searchItems (filterNode : S → Bool) (tree : Node T S) :
    List S → Nat → D → List (StackEntry T S D) × D
  | summary :: summaries, index, position =>
    let later := searchItems filterNode tree summaries (index + 1)
      (Dimension.addSummary position summary)
    if later.1.isEmpty then
      if filterNode summary then ([⟨tree, index, position⟩], position) else ([], position)
    else later
  | [], _, position => ([], position)

mutual

/-- A subtree is pushed to the stack and searched from its last child.  The entries are those
that it leaves on the stack. -/
def searchNode (filterNode : S → Bool) :
    Nat → Node T S → D → Option (List (StackEntry T S D) × D)
  | 0, _, _ => none
  | room + 1, .internal height summary childSummaries childTrees, position =>
    searchChildren filterNode room (.internal height summary childSummaries childTrees) childTrees
      childSummaries 0 position
  | _ + 1, .leaf summary items itemSummaries, position =>
    some (searchItems filterNode (.leaf summary items itemSummaries) itemSummaries 0 position)
termination_by structural _ tree => tree

/-- The children of a node, the later ones first. -/
def searchChildren (filterNode : S → Bool) (room : Nat) (tree : Node T S) :
    List (Node T S) → List S → Nat → D → Option (List (StackEntry T S D) × D)
  | childTree :: childTrees, childSummary :: childSummaries, index, position => do
    let later ← searchChildren filterNode room tree childTrees childSummaries (index + 1)
      (Dimension.addSummary position childSummary)
    if later.1.isEmpty then
      if filterNode childSummary then
        let below ← searchNode filterNode room childTree position
        if below.1.isEmpty then return ([], position)
        else return (⟨tree, index, position⟩ :: below.1, below.2)
      else return ([], position)
    else return later
  | _, _, _, position => some ([], position)
termination_by structural childTrees => childTrees

end

/-- The children of an entry's node before its index, with `room` above the entry. -/
def searchEntry (filterNode : S → Bool) (room : Nat) (entry : StackEntry T S D) (position : D) :
    Option (List (StackEntry T S D) × D) :=
  match entry.tree with
  | .internal _ _ childSummaries childTrees =>
    searchChildren filterNode room entry.tree (childTrees.take entry.index)
      (childSummaries.take entry.index) 0 position
  | .leaf _ _ itemSummaries =>
    some (searchItems filterNode entry.tree (itemSummaries.take entry.index) 0 position)

/-- The loop over the stack: the last entry first, then those before it.  Each entry starts at
the position of the one before. -/
def searchStack (filterNode : S → Bool) :
    Nat → List (StackEntry T S D) → D → Option (List (StackEntry T S D) × D)
  | _, [], position => some ([], position)
  | room, entry :: entries, position => do
    let below ← searchStack filterNode (room - 1) entries entry.position
    if below.1.isEmpty then searchEntry filterNode (room - 1) entry position
    else return (entry :: below.1, below.2)

end Backward

namespace Node

variable {T S : Type u}

mutual

/-- `SumTree::leftmost_leaf`, which panics at an inner node without children. -/
def leftmostLeaf : Node T S → Option (Node T S)
  | leaf summary items itemSummaries => some (leaf summary items itemSummaries)
  | internal _ _ _ childTrees => leftmostOf childTrees

/-- The leftmost leaf of the first tree. -/
def leftmostOf : List (Node T S) → Option (Node T S)
  | [] => none
  | tree :: _ => tree.leftmostLeaf

end

mutual

/-- `SumTree::rightmost_leaf`, which panics at an inner node without children. -/
def rightmostLeaf : Node T S → Option (Node T S)
  | leaf summary items itemSummaries => some (leaf summary items itemSummaries)
  | internal _ _ _ childTrees => rightmostOf childTrees

/-- The rightmost leaf of the last tree. -/
def rightmostOf : List (Node T S) → Option (Node T S)
  | [] => none
  | [tree] => tree.rightmostLeaf
  | _ :: tree :: trees => rightmostOf (tree :: trees)

end

/-- `SumTree::first`. -/
def first (self : Node T S) : Option (Option T) := do
  return (← (← self.leftmostLeaf).items?).head?

/-- `SumTree::last`. -/
def last (self : Node T S) : Option (Option T) := do
  return (← (← self.rightmostLeaf).items?).getLast?

end Node

namespace Cursor

variable {T S D A : Type u} [Summary S] [Dimension D S]

/-- `Cursor::new`. -/
def new (tree : Node T S) : Cursor T S D where
  tree
  stack := []
  position := Dimension.zero S
  didSeek := false
  atEnd := tree.isEmpty

variable (self : Cursor T S D)

/-- `Cursor::reset`. -/
def reset : Cursor T S D :=
  { self with
    didSeek := false
    atEnd := self.tree.isEmpty
    stack := []
    position := Dimension.zero S }

/-- The entry of the root at its first child. -/
def rootEntry : StackEntry T S D := ⟨self.tree, 0, Dimension.zero S⟩

/-- The stack that a seek starts with. -/
def seekStack : Option (List (StackEntry T S D)) :=
  if self.didSeek then some self.stack else pushEntry self.stack self.rootEntry

/-- The stack of a search backward that starts at the end. -/
def endStack : Option (List (StackEntry T S D)) :=
  if self.tree.isEmpty then some self.stack
  else pushEntry self.stack ⟨self.tree, self.tree.childSummaries.length,
    Dimension.addSummary (Dimension.zero S) self.tree.summary⟩

/-- `Cursor::start`. -/
def start : D := self.position

/-- `Cursor::item`, which panics before the first seek. -/
def item : Option (Option T) :=
  if self.didSeek then
    match self.stack.getLast? with
    | some entry => do
      let items ← entry.tree.items?
      if entry.index = items.length then return none
      else return some (← items[entry.index]?)
    | none => some none
  else none

/-- `Cursor::item_summary`. -/
def itemSummary : Option (Option S) :=
  if self.didSeek then
    match self.stack.getLast? with
    | some entry =>
      match entry.tree with
      | .leaf _ _ itemSummaries => do
        if entry.index = itemSummaries.length then return none
        else return some (← itemSummaries[entry.index]?)
      | .internal .. => none
    | none => some none
  else none

/-- `Cursor::end`. -/
def end_ : Option D := do
  match ← self.itemSummary with
  | some summary => return Dimension.addSummary self.start summary
  | none => return self.start

/-- The leaf behind that of the cursor, along the entries above it from the root. -/
def nextLeafOf : List (StackEntry T S D) → Option (Option (Node T S))
  | [] => some none
  | entry :: entries => do
    match ← nextLeafOf entries with
    | some leaf => return some leaf
    | none =>
      let childTrees ← entry.tree.childTrees?
      if entry.index + 1 < childTrees.length then
        return some (← (← childTrees[entry.index + 1]?).leftmostLeaf)
      else return none

/-- `Cursor::next_leaf`. -/
def nextLeaf : Option (Option (Node T S)) := nextLeafOf self.stack.dropLast

/-- `Cursor::next_item`. -/
def nextItem : Option (Option T) :=
  if self.didSeek then
    match self.stack.getLast? with
    | some entry => do
      let items ← entry.tree.items?
      if entry.index + 1 = items.length then
        match ← self.nextLeaf with
        | some leaf => return some (← (← leaf.items?).head?)
        | none => return none
      else return some (← items[entry.index + 1]?)
    | none => if self.atEnd then some none else self.tree.first
  else none

/-- The leaf before that of the cursor, along the entries above it from the root. -/
def prevLeafOf : List (StackEntry T S D) → Option (Option (Node T S))
  | [] => some none
  | entry :: entries => do
    match ← prevLeafOf entries with
    | some leaf => return some leaf
    | none =>
      let childTrees ← entry.tree.childTrees?
      if entry.index = 0 then return none
      else return some (← (← childTrees[entry.index - 1]?).rightmostLeaf)

/-- `Cursor::prev_leaf`. -/
def prevLeaf : Option (Option (Node T S)) := prevLeafOf self.stack.dropLast

/-- `Cursor::prev_item`. -/
def prevItem : Option (Option T) :=
  if self.didSeek then
    match self.stack.getLast? with
    | some entry => do
      let items ← entry.tree.items?
      if entry.index = 0 then
        match ← self.prevLeaf with
        | some leaf => return some (← (← leaf.items?).getLast?)
        | none => return none
      else return some (← items[entry.index - 1]?)
    | none => if self.atEnd then self.tree.last else some none
  else none

/-- The cursor that a search backward starts with: behind the last child of the root if it is at
the end. -/
def backwardStart : Option (Cursor T S D) :=
  let self := if self.didSeek then self else { self with didSeek := true, atEnd := true }
  if self.atEnd then do
    let stack ← self.endStack
    return { self with position := Dimension.zero S, atEnd := self.tree.isEmpty, stack }
  else some self

/-- `Cursor::search_backward`. -/
def searchBackward (filterNode : S → Bool) : Option (Cursor T S D) := do
  let self ← self.backwardStart
  if self.stack.isEmpty then return self
  else
    let (stack, position) ← searchStack filterNode stackCapacity self.stack (Dimension.zero S)
    return { self with stack, position }

/-- `Cursor::prev`. -/
def prev : Option (Cursor T S D) := self.searchBackward fun _ => true

/-- `Cursor::search_forward`. -/
def searchForward (filterNode : S → Bool) : Option (Cursor T S D) := do
  -- an empty stack is at the end or before the start, where the root is descended into
  let descend := self.stack.isEmpty && !self.atEnd
  let stack := if descend then [self.rootEntry] else self.stack
  let (stack, position, _) ← resume (Walk.search D filterNode) (SeekAggregate.unit T S) (!descend)
    stackCapacity stack self.position ⟨⟩
  return { self with
    stack
    position
    didSeek := self.didSeek || self.stack.isEmpty
    atEnd := if stack.isEmpty then true else self.atEnd }

/-- `Cursor::next`. -/
def next : Option (Cursor T S D) := self.searchForward fun _ => true

variable (target : D → Ordering)

/-- `Cursor::seek_internal`. -/
def seekInternal (bias : Bias) (agg : SeekAggregate A T S) (aggregate : A) :
    Option (Bool × Cursor T S D × A) := do
  if (target self.position).isGE then
    let stack ← self.seekStack
    let (stack, position, aggregate) ←
      resume (Walk.seek target bias) agg false stackCapacity stack self.position aggregate
    let self := { self with stack, position, didSeek := true, atEnd := stack.isEmpty }
    let finish ← if bias = .left then self.end_ else some self.position
    return (target finish = .eq, self, aggregate)
  else none

/-- `Cursor::seek_forward`. -/
def seekForward (bias : Bias) :
    Option (Bool × Cursor T S D) := do
  let (found, self, _) ← self.seekInternal target bias (SeekAggregate.unit T S) ⟨⟩
  return (found, self)

/-- `Cursor::seek`. -/
def seek (bias : Bias) : Option (Bool × Cursor T S D) :=
  self.reset.seekForward target bias

/-- `Cursor::summary`. -/
def summary (O : Type u) [Dimension O S] (self : Cursor T S D) (target : D → Ordering)
    (bias : Bias) : Option (Cursor T S D × O) := do
  let (_, self, summary) ←
    self.seekInternal target bias (SeekAggregate.summary T O) (Dimension.zero S)
  return (self, summary)

/-- `Cursor::slice`. -/
def slice [Item T S] (self : Cursor T S D) (target : D → Ordering) (bias : Bias) :
    Option (Cursor T S D × Node T S) := do
  let (_, self, slice) ← self.seekInternal target bias SeekAggregate.slice .empty
  return (self, slice.tree)

/-- `End`, a target behind every position. -/
def endTarget : D → Ordering := fun _ => .gt

/-- `Cursor::suffix`. -/
def suffix [Item T S] (self : Cursor T S D) : Option (Cursor T S D × Node T S) :=
  self.slice endTarget .right

end Cursor
end XorEditor.SumTree
