import XorEditor.SumTree.Backward
import XorEditor.SumTree.Find

/-!
# A cursor is an index

Whatever motions a cursor has made, it denotes an index into the items of its tree or the place
before the first one, and each motion changes the index as a scan of the items would.

* `Spot`: an index, or the place before the first item
* `Reached`: the cursors that motions lead to
* `Reached.refines_index`: what each motion does to the index
-/

namespace XorEditor.SumTree

open Lib List
open Piece (itemsOf itemsOf_append)

universe u

variable {T S D : Type u} [Summary S] [Item T S] [LawfulDimension D S] {cursor : Cursor T S D}
  {depth : Nat} {node : Node T S} {entries : List (StackEntry T S D)} {rest xs before : List T}
  {x : T} {pieces behind : List (Piece T S)} {base : D}

/-! ## The leaves around a cursor -/

namespace Node

theorem Filled.leftmostLeaf (h : node.Filled depth) :
    ∃ leaf : Node T S, node.leftmostLeaf = some leaf ∧ leaf.Filled 0 ∧
      leaf.items.head? = node.items.head? := by
  induction depth generalizing node with
  | zero =>
    refine ⟨node, ?_, h, rfl⟩
    obtain ⟨xs, rfl, -⟩ := h.exists_leaf
    rw [Node.leftmostLeaf]
  | succ depth ih =>
    obtain ⟨trees, rfl, ⟨hne, -⟩, hall⟩ := h.exists_internal
    rw [length_pos_iff] at hne
    obtain ⟨tree, rest, rfl⟩ := exists_cons_of_ne_nil hne
    rw [forall_mem_cons] at hall
    obtain ⟨leaf, hleaf, hfilled, hhead⟩ := ih hall.1
    refine ⟨leaf, by rw [Node.leftmostLeaf, leftmostOf, hleaf], hfilled, ?_⟩
    rw [hhead, items_internal, itemsOf_cons, head?_append_of_ne_nil _ hall.1.items_ne_nil]

/-- `SumTree::first`. -/
theorem Holds.first {xs : List T} (h : node.Holds xs) : node.first = some xs.head? := by
  cases xs with
  | nil =>
    obtain rfl := h.eq_new
    simp [Node.first, new, Node.leftmostLeaf, items?]
  | cons x xs =>
    obtain ⟨depth, hfilled⟩ := h.filled (by simp)
    obtain ⟨leaf, hleaf, hleafFilled, hhead⟩ := hfilled.leftmostLeaf
    obtain ⟨ys, rfl, -⟩ := hleafFilled.exists_leaf
    rw [Node.first, hleaf, ← h.2, ← hhead]
    simp [items?]

end Node

/-- The leaf, if any, starts with the first of the items. -/
def StartsLeaf (later : List T) : Option (Node T S) → Prop
  | none => later = []
  | some leaf => leaf.Filled 0 ∧ leaf.items.head? = later.head?

/-- The leaf, if any, ends with the last of the items. -/
def EndsLeaf (earlier : List T) : Option (Node T S) → Prop
  | none => earlier = []
  | some leaf => leaf.Filled 0 ∧ leaf.items.getLast? = earlier.getLast?

/-- The leaves around that of a cursor: they have the items next to its own. -/
structure Neighbours (entries : List (StackEntry T S D)) (before : List T) (x : T) (after : List T)
    (front back earlier later : List T) : Prop where
  last : ∃ position, entries.getLast? = some ⟨.leaf (sum ((front ++ x :: back).map Item.summary))
    (front ++ x :: back) ((front ++ x :: back).map Item.summary), front.length, position⟩
  before : before = earlier ++ front
  after : after = back ++ later
  next : ∃ leaf, Cursor.nextLeafOf entries.dropLast = some leaf ∧ StartsLeaf (S := S) later leaf
  prev : ∃ leaf, Cursor.prevLeafOf entries.dropLast = some leaf ∧ EndsLeaf (S := S) earlier leaf

theorem Stands.neighbours (h : Stands base node entries before x behind)
    (hfilled : node.Filled depth) : ∃ front back earlier later,
      Neighbours entries before x (itemsOf behind) front back earlier later := by
  induction h generalizing depth with
  | @leaf base position summary items before after x itemSummaries split =>
    obtain ⟨-, -, rfl, rfl⟩ := Node.exact_leaf.1 hfilled.exact
    exact ⟨before, after, [], [], ⟨position, by rw [split]; rfl⟩, rfl, by simp,
      ⟨none, rfl, rfl⟩, none, rfl, rfl⟩
  | @internal base height summary childSummaries childTrees left right tree entries before x
      behind split inside ih =>
      obtain ⟨below, rfl, rfl, rfl, rfl, hleft, hchild, hright⟩ := hfilled.internal_split split
      obtain ⟨front, back, earlier, later, hlast, hbefore, hafter, ⟨next, hnext, hstarts⟩,
        prev, hprev, hends⟩ := ih hchild
      obtain ⟨entry, rest, rfl⟩ := exists_cons_of_ne_nil inside.ne_nil
      refine ⟨front, back, Node.itemsOf left ++ earlier, later ++ Node.itemsOf right, ?_, ?_, ?_,
        ?_, ?_⟩
      · simpa only [getLast?_cons_cons] using hlast
      · rw [hbefore, append_assoc]
      · rw [itemsOf_append, hafter, Piece.itemsOf_map_tree, append_assoc]
      · rw [dropLast_cons_cons, Cursor.nextLeafOf, hnext]
        cases next with
        | some leaf =>
          refine ⟨some leaf, rfl, hstarts.1, ?_⟩
          have hne : leaf.items.head? ≠ none := by simpa using hstarts.1.items_ne_nil
          rw [hstarts.2] at hne ⊢
          rw [head?_append_of_ne_nil _ (by simpa using hne)]
        | none =>
          obtain rfl : later = [] := hstarts
          cases right with
          | nil =>
            refine ⟨none, ?_, by simp [StartsLeaf]⟩
            simp [Node.childTrees?, split]
          | cons next right =>
            obtain ⟨leaf, hleaf, hfilled, hhead⟩ := (hright next (by simp)).leftmostLeaf
            refine ⟨some leaf, ?_, hfilled, ?_⟩
            · simp [Node.childTrees?, split, hleaf]
            · rw [hhead, nil_append, Node.itemsOf_cons,
                head?_append_of_ne_nil _ (hright next (by simp)).items_ne_nil]
      · rw [dropLast_cons_cons, Cursor.prevLeafOf, hprev]
        cases prev with
        | some leaf =>
          refine ⟨some leaf, rfl, hends.1, ?_⟩
          have hne : leaf.items.getLast? ≠ none := by simpa using hends.1.items_ne_nil
          rw [hends.2] at hne ⊢
          rw [getLast?_append_of_ne_nil _ (by simpa using hne)]
        | none =>
          obtain rfl : earlier = [] := hends
          rcases eq_nil_or_concat left with rfl | ⟨left, prev, rfl⟩
          · exact ⟨none, by simp [Node.childTrees?], by simp [EndsLeaf]⟩
          · obtain ⟨leaf, hleaf, hfilled, hgetLast⟩ := (hleft prev (by simp)).rightmostLeaf
            refine ⟨some leaf, ?_, hfilled, ?_⟩
            · simp [Node.childTrees?, split, hleaf]
            · rw [hgetLast, append_nil, concat_eq_append, Node.itemsOf_append,
                Node.itemsOf_cons, Node.itemsOf_nil, append_nil,
                getLast?_append_of_ne_nil _ (hleft prev (by simp)).items_ne_nil]

/-! ## What a cursor denotes -/

/-- A place among the items: before the first one, or an index. -/
inductive Spot where
  | beforeStart
  | index (i : Nat)
  deriving DecidableEq, Repr

namespace Spot

/-- The number of items before the place. -/
def passed : Spot → Nat
  | beforeStart => 0
  | index i => i

/-- The index of the first item behind the place. -/
def next : Spot → Nat
  | beforeStart => 0
  | index i => i + 1

/-- The place one item before, among `n` items. -/
def prev (n : Nat) : Spot → Spot
  | beforeStart => beforeStart
  | index 0 => if n = 0 then index 0 else beforeStart
  | index (i + 1) => index i

/-- The item at the place. -/
def item (xs : List T) : Spot → Option T
  | beforeStart => none
  | index i => xs[i]?

/-- The item before the place. -/
def prevItem (xs : List T) : Spot → Option T
  | index (i + 1) => xs[i]?
  | _ => none

end Spot

variable {passed : List T} {node : Node T S} {depth : Nat} {target : D → Ordering} {before : List T}
  {x : T}

namespace Cursor

/-- What a cursor shows is what is at and around a place among the items. -/
structure Denotes (cursor : Cursor T S D) (xs : List T) (spot : Spot) : Prop where
  bound : spot.passed ≤ xs.length
  item : cursor.item = some (spot.item xs)
  start : cursor.start = addItems (Dimension.zero S) (xs.take spot.passed)
  end_ : cursor.end_ = some (addItems (Dimension.zero S) (xs.take spot.next))
  nextItem : cursor.nextItem = some xs[spot.next]?
  prevItem : cursor.prevItem = some (spot.prevItem xs)

/-- The cursor has been moved back from the first item. -/
structure BeforeStart (cursor : Cursor T S D) : Prop where
  didSeek : cursor.didSeek = true
  atEnd : cursor.atEnd = false
  position : cursor.position = Dimension.zero S
  stack : cursor.stack = []
  nonempty : cursor.tree.isEmpty = false

/-- The states of a cursor that has been moved. -/
inductive Settled (cursor : Cursor T S D) : Spot → Prop
  | beforeStart (h : cursor.BeforeStart) : Settled cursor .beforeStart
  | index {passed rest : List T} (h : cursor.Splits passed rest) :
      Settled cursor (.index passed.length)

section Holds

variable (hholds : cursor.tree.Holds xs)
include hholds

theorem AtItem.filled (h : cursor.AtItem before x behind) : ∃ depth, cursor.tree.Filled depth :=
  hholds.filled (by rw [← hholds.2, h.stands.items_eq]; simp)

/-- `Cursor::next_item` is the second one of the items before the cursor. -/
theorem Splits.nextItem (h : cursor.Splits passed rest) : cursor.nextItem = some rest[1]? := by
  cases h with
  | atEnd h => simp [Cursor.nextItem, h.didSeek, h.stack, h.atEnd]
  | atItem h =>
    obtain ⟨depth, hfilled⟩ := h.filled hholds
    obtain ⟨front, back, earlier, later, ⟨position, hlast⟩, -, hafter, ⟨leaf, hleaf, hstarts⟩,
      -⟩ := h.stands.neighbours hfilled
    rw [Cursor.nextItem, if_pos h.didSeek, hlast, hafter]
    simp only [Node.items?, Cursor.nextLeaf, hleaf, some_do]
    cases back with
    | cons y back => simp
    | nil =>
      rw [if_pos (by simp), nil_append]
      cases leaf with
      | none =>
        obtain rfl : later = [] := hstarts
        rfl
      | some leaf =>
        obtain ⟨hleafFilled, hhead⟩ := hstarts
        obtain ⟨ys, rfl, hne, -⟩ := hleafFilled.exists_leaf
        obtain ⟨y, ys, rfl⟩ := exists_cons_of_ne_nil hne
        rw [getElem?_cons_succ, ← head?_eq_getElem?, ← hhead]
        simp

/-- `Cursor::prev_item` is the last one of the items that the cursor has passed. -/
theorem Splits.prevItem (h : cursor.Splits passed rest) :
    cursor.prevItem = some passed.getLast? := by
  cases h with
  | atEnd h =>
    simp only [Cursor.prevItem, h.didSeek, h.stack, h.atEnd, if_true, getLast?_nil]
    rw [hholds.last, hholds.2]
  | atItem h =>
    obtain ⟨depth, hfilled⟩ := h.filled hholds
    obtain ⟨front, back, earlier, later, ⟨position, hlast⟩, hbefore, -, -, leaf, hleaf, hends⟩ :=
      h.stands.neighbours hfilled
    rw [Cursor.prevItem, if_pos h.didSeek, hlast, hbefore]
    simp only [Node.items?, Cursor.prevLeaf, hleaf, some_do]
    rcases eq_nil_or_concat front with rfl | ⟨front, y, rfl⟩
    · rw [if_pos (by simp), append_nil]
      cases leaf with
      | none =>
        obtain rfl : earlier = [] := hends
        rfl
      | some leaf =>
        obtain ⟨hleafFilled, hgetLast⟩ := hends
        obtain ⟨ys, rfl, hne, -⟩ := hleafFilled.exists_leaf
        rw [← hgetLast]
        simp [getLast?_eq_some_getLast hne]
    · simp

/-- A cursor that splits the items denotes the index of the first one before it. -/
theorem Splits.denotes (h : cursor.Splits passed rest) :
    cursor.Denotes xs (.index passed.length) := by
  have hitems : xs = passed ++ rest := hholds.2.symm.trans h.items_eq
  refine ⟨by simp [Spot.passed, hitems], ?_, ?_, ?_, ?_, ?_⟩
  · rw [h.item hholds, hitems]
    simp [Spot.item, head?_eq_getElem?, getElem?_append_right]
  · rw [Cursor.start, h.position, hitems, Spot.passed, take_left]
  · rw [h.end_ hholds, hitems, Spot.next, take_length_add_append]
  · rw [h.nextItem hholds, hitems, Spot.next]
    simp [getElem?_append_right]
  · rw [h.prevItem hholds, hitems]
    rcases eq_nil_or_concat passed with rfl | ⟨front, y, rfl⟩
    · rfl
    · simp [Spot.prevItem]

theorem BeforeStart.ne_nil (h : cursor.BeforeStart) : xs ≠ [] := by
  rintro rfl
  exact absurd h.nonempty (by rw [hholds.eq_new]; simp [Node.isEmpty, Node.new])

theorem BeforeStart.denotes (h : cursor.BeforeStart) : cursor.Denotes xs .beforeStart := by
  refine ⟨Nat.zero_le _, ?_, ?_, ?_, ?_, ?_⟩
  · simp [Cursor.item, h.didSeek, h.stack, Spot.item]
  · simp [Cursor.start, h.position, Spot.passed]
  · simp [Cursor.end_, Cursor.itemSummary, h.didSeek, h.stack, Cursor.start, h.position, Spot.next]
  · simp only [Cursor.nextItem, h.didSeek, h.stack, h.atEnd, if_true, getLast?_nil,
      Bool.false_eq_true, if_false, Spot.next]
    rw [hholds.first, head?_eq_getElem?]
  · simp [Cursor.prevItem, h.didSeek, h.stack, h.atEnd, Spot.prevItem]

end Holds

/-- A seek forward from before the first item passes nothing and sets the end flag: it shows the
item before the end at the position of the start. -/
theorem BeforeStart.seekForward (h : cursor.BeforeStart) (hholds : cursor.tree.Holds xs)
    (hge : (target (Dimension.zero S)).isGE) (bias : Bias) :
    ∃ found moved, cursor.seekForward target bias = some (found, moved) ∧
      moved.start = Dimension.zero S ∧ moved.item = some none ∧
      moved.prevItem = some xs.getLast? := by
  have hstack : cursor.seekStack = some [] := by rw [seekStack, h.didSeek, h.stack]; rfl
  let moved : Cursor T S D := { cursor with stack := [], didSeek := true, atEnd := true }
  have hend : moved.end_ = some (Dimension.zero S) := by
    simp [moved, Cursor.end_, Cursor.itemSummary, Cursor.start, h.position]
  simp only [moved, h.position] at hend
  refine ⟨decide (target (Dimension.zero S) = .eq), moved, ?_, h.position, rfl, ?_⟩
  · rw [Cursor.seekForward, Cursor.seekInternal, h.position, if_pos hge, hstack]
    simp only [some_do, resume, isEmpty_nil]
    cases bias with
    | left => simp [moved, h.position, hend]
    | right => simp [moved, h.position]
  · simp [moved, Cursor.prevItem, hholds.last]

theorem Settled.didSeek {spot : Spot} (h : cursor.Settled spot) : cursor.didSeek = true := by
  cases h with
  | beforeStart h => exact h.didSeek
  | index h => exact h.didSeek

theorem Settled.denotes {spot : Spot} (h : cursor.Settled spot) (hholds : cursor.tree.Holds xs) :
    cursor.Denotes xs spot := by
  cases h with
  | beforeStart h => exact h.denotes hholds
  | index h => exact h.denotes hholds

/-! ## Seeks -/

/-- Where a seek from index `j` stops: it goes past the items whose end the target is behind. -/
structure SeekStop (target : D → Ordering) (bias : Bias) (xs : List T) (j i : Nat) : Prop where
  lower : j ≤ i
  upper : i ≤ xs.length
  past : ∀ m, j ≤ m → m < i →
    goesPast bias (target (addItems (Dimension.zero S) (xs.take (m + 1)))) = true
  stop : i < xs.length →
    goesPast bias (target (addItems (Dimension.zero S) (xs.take (i + 1)))) = false

theorem goesPast_skippedItems (target : D → Ordering) (bias : Bias) (position : D) (ys : List T) :
    (∀ m < (skippedItems (Walk.seek target bias : Walk D S) position ys).length,
      goesPast bias (target (addItems position (ys.take (m + 1)))) = true) ∧
    ((skippedItems (Walk.seek target bias : Walk D S) position ys).length < ys.length →
      goesPast bias (target (addItems position (ys.take
        ((skippedItems (Walk.seek target bias : Walk D S) position ys).length + 1)))) = false) := by
  induction ys generalizing position with
  | nil => exact ⟨fun _ hm => absurd hm (by simp [skippedItems]), fun h => absurd h (by simp)⟩
  | cons y ys ih =>
    rw [skippedItems, skip_seek]
    split
    next hskip =>
      obtain ⟨hpast, hstop⟩ := ih (Dimension.addSummary position (Item.summary y))
      constructor
      · intro m hm
        cases m with
        | zero => simpa using hskip
        | succ m => simpa using hpast m (by simpa using hm)
      · intro hlt
        simpa using hstop (by simpa using hlt)
    next hkept => exact ⟨fun _ hm => absurd hm (by simp), fun _ => by simpa using hkept⟩

end Cursor

/-! ## Searches -/

/-- The pieces right of what a stack points at, in their order. -/
def piecesBehind : List (StackEntry T S D) → List (Piece T S)
  | [] => []
  | entry :: entries => piecesBehind entries ++ entry.tree.pieces.drop (entry.index + 1)

theorem Stands.piecesBehind_eq (h : Stands base node entries before x behind) :
    piecesBehind entries = behind := by
  induction h with
  | leaf split => simp [piecesBehind, Node.pieces, split, drop_append]
  | internal split _ ih => simp [piecesBehind, Node.pieces, split, ih, drop_append]

/-- The pieces that a search forward goes through.  The root is not among them, and neither is
a node above the item that the cursor points at. -/
def Cursor.piecesBehind (cursor : Cursor T S D) : List (Piece T S) :=
  if cursor.stack.isEmpty then if cursor.atEnd then [] else cursor.tree.pieces
  else SumTree.piecesBehind cursor.stack

/-- The pieces that a search backward goes through. -/
def Cursor.piecesBefore (cursor : Cursor T S D) : List (Piece T S) :=
  if cursor.stack.isEmpty then if cursor.didSeek && !cursor.atEnd then [] else cursor.tree.pieces
  else SumTree.piecesBefore cursor.stack

/-- The first item of the pieces that passes, by the number of items before it. -/
def FirstPass (filterNode : S → Bool) (pieces : List (Piece T S)) : Option Nat → Prop
  | none => ∀ before x after, ¬ Passes filterNode pieces before x after
  | some n => (∃ before x after, Passes filterNode pieces before x after ∧ before.length = n) ∧
      ∀ before x after, Passes filterNode pieces before x after → n ≤ before.length

/-- The last item of the pieces that passes, by the number of items before it. -/
def LastPass (filterNode : S → Bool) (pieces : List (Piece T S)) : Option Nat → Prop
  | none => ∀ before x after, ¬ Passes filterNode pieces before x after
  | some n => (∃ before x after, Passes filterNode pieces before x after ∧ before.length = n) ∧
      ∀ before x after, Passes filterNode pieces before x after → before.length ≤ n

namespace Cursor

variable {spot : Spot}

/-- Where a search forward from behind `passed` items stops among `n`. -/
def forwardSpot (n passed : Nat) (found : Option Nat) : Spot :=
  .index (found.elim n (passed + ·))

/-- Where a search backward stops among `n` items. -/
def backwardSpot (n : Nat) : Option Nat → Spot
  | some i => .index i
  | none => if n = 0 then .index 0 else .beforeStart

/-- What a search backward through the pieces comes to, in a tree of the items. -/
def SearchesBack (cursor : Cursor T S D) (xs : List T) (filterNode : S → Bool)
    (pieces : List (Piece T S)) : Prop :=
  ∃ moved found, cursor.searchBackward filterNode = some moved ∧ moved.tree = cursor.tree ∧
    LastPass filterNode pieces found ∧ moved.Settled (backwardSpot xs.length found)

theorem Follows.search (h : cursor.Follows passed pieces) (hseekable : cursor.tree.Seekable xs)
    (filterNode : S → Bool) :
    ∃ moved found, cursor.searchForward filterNode = some moved ∧ moved.tree = cursor.tree ∧
      FirstPass filterNode pieces found ∧
      moved.Settled (forwardSpot xs.length passed.length found) := by
  obtain ⟨moved, hmoved, htree, hatEnd, houtcome⟩ :=
    h.searchForward hseekable filterNode (Walk.adds ..)
  generalize hstack : moved.stack = stack at houtcome
  generalize moved.position = position at houtcome
  cases houtcome with
  | exhausted nowhere =>
    refine ⟨moved, none, hmoved, htree, ?_, ?_⟩
    · exact fun before x after hpasses => nowhere _ _ _ (hpasses.reaches _)
    · have hsplits := Splits.atEnd (hatEnd hstack)
      rw [htree, hseekable.holds.2] at hsplits
      exact .index hsplits
  | @stopped _ before x behind _ reaches nearest place =>
    refine ⟨moved, some before.length, hmoved, htree, ⟨?_, ?_⟩, ?_⟩
    · exact ⟨before, x, _, reaches_search_iff.1 reaches, rfl⟩
    · exact fun before' x' after' hpasses => nearest _ _ _ (hpasses.reaches _)
    · have hsettled := Settled.index (Splits.atItem place)
      rwa [length_append] at hsettled

variable (cursor) in
/-- What a search backward leaves makes a cursor that is where it stopped. -/
theorem settled_of_back {filterNode : S → Bool} {result : List (StackEntry T S D) × D}
    (hdidSeek : cursor.didSeek = true) (hatEnd : cursor.atEnd = false)
    (hnonempty : cursor.tree.isEmpty = false) (hne : xs ≠ []) (hstack : cursor.stack = result.1)
    (hposition : cursor.position = result.2)
    (h : Back filterNode (Dimension.zero S) pieces (Stands (Dimension.zero S) cursor.tree)
      result) : ∃ found, LastPass filterNode pieces found ∧
      cursor.Settled (backwardSpot xs.length found) := by
  cases h with
  | exhausted nowhere =>
    refine ⟨none, nowhere, ?_⟩
    rw [backwardSpot, if_neg (by simpa using hne)]
    exact .beforeStart ⟨hdidSeek, hatEnd, hposition, hstack, hnonempty⟩
  | @stopped entries before after x behind passes nearest place =>
    refine ⟨some before.length, ⟨⟨before, x, after, passes, rfl⟩, nearest⟩, ?_⟩
    exact .index (.atItem ⟨hdidSeek, hatEnd, hposition, by rwa [hstack]⟩)

/-- From behind the last child of the root, the whole tree is searched. -/
theorem searchStack_root (filterNode : S → Bool) (room : Nat) (hfilled : node.Filled depth)
    (position last : D) :
    searchStack filterNode (room + 1) [⟨node, node.childSummaries.length, last⟩] position =
      searchNode filterNode (room + 1) node position := by
  rw [searchStack, searchStack, some_do, if_pos (by rfl)]
  cases node with
  | leaf => simp [searchEntry, searchNode, Node.childSummaries]
  | internal =>
    obtain ⟨below, -, -, -, rfl, -⟩ := Node.exact_internal.1 hfilled.exact
    simp [searchEntry, searchNode, Node.childSummaries, take_of_length_le]

/-- A search backward from behind the last item. -/
theorem searchBackward_end (hseekable : cursor.tree.Seekable xs) (hstack : cursor.stack = [])
    (hatEnd : cursor.didSeek = true → cursor.atEnd = true) (filterNode : S → Bool) :
    cursor.SearchesBack xs filterNode cursor.tree.pieces := by
  obtain ⟨tree, stack, position, didSeek, atEnd⟩ := cursor
  simp only at hseekable hstack hatEnd
  subst hstack
  -- both states search the whole tree
  have hstart : (⟨tree, [], position, didSeek, atEnd⟩ : Cursor T S D).backwardStart =
      (⟨tree, [], position, true, true⟩ : Cursor T S D).backwardStart := by
    cases didSeek with
    | true => rw [hatEnd rfl]
    | false => rfl
  rw [SearchesBack, Cursor.searchBackward, hstart, backwardStart]
  rcases eq_or_ne xs [] with rfl | hne
  · obtain rfl := hseekable.holds.eq_new
    refine ⟨⟨Node.new, [], Dimension.zero S, true, true⟩, none, rfl, rfl,
      fun _ _ _ => not_passes_nil, ?_⟩
    exact .index (.atEnd ⟨rfl, rfl, rfl, rfl⟩)
  · obtain ⟨depth, hlow, hfilled⟩ := hseekable.filled hne
    obtain ⟨result, hresult, hback⟩ :=
      searchNode_back filterNode hfilled hlow (Dimension.zero S : D)
    obtain ⟨found, hlast, hsettled⟩ := settled_of_back ⟨tree, result.1, result.2, true, false⟩
      rfl rfl hfilled.isEmpty hne rfl rfl hback
    have hstack : (⟨tree, [], position, true, true⟩ : Cursor T S D).endStack =
        some [⟨tree, tree.childSummaries.length,
          Dimension.addSummary (Dimension.zero S) tree.summary⟩] := by
      rw [endStack, hfilled.isEmpty]
      rfl
    have hsearch := (searchStack_root filterNode 15 hfilled (Dimension.zero S : D)
      (Dimension.addSummary (Dimension.zero S) tree.summary)).trans hresult
    refine ⟨⟨tree, result.1, result.2, true, false⟩, found, ?_, rfl, hlast, hsettled⟩
    simp [hstack, hfilled.isEmpty, stackCapacity, hsearch]

/-- `Cursor::search_backward`. -/
theorem Settled.searchBackward (h : cursor.Settled spot) (hseekable : cursor.tree.Seekable xs)
    (filterNode : S → Bool) : cursor.SearchesBack xs filterNode cursor.piecesBefore := by
  cases h with
  | beforeStart h =>
    have hstays : cursor.searchBackward filterNode = some cursor := by
      simp [Cursor.searchBackward, backwardStart, h.didSeek, h.atEnd, h.stack]
    have hpieces : cursor.piecesBefore = [] := by
      simp [Cursor.piecesBefore, h.stack, h.didSeek, h.atEnd]
    rw [SearchesBack, hstays, hpieces]
    refine ⟨cursor, none, rfl, rfl, fun _ _ _ => not_passes_nil, ?_⟩
    rw [backwardSpot, if_neg (by simpa using h.ne_nil hseekable.holds)]
    exact .beforeStart h
  | index h =>
    cases h with
    | atEnd h =>
      have hpieces : cursor.piecesBefore = cursor.tree.pieces := by
        simp [Cursor.piecesBefore, h.stack, h.atEnd]
      rw [hpieces]
      exact searchBackward_end hseekable h.stack (fun _ => h.atEnd) filterNode
    | atItem h =>
      have hne : xs ≠ [] := by
        rw [← hseekable.holds.2, h.stands.items_eq]
        simp
      obtain ⟨depth, hlow, hfilled⟩ := hseekable.filled hne
      have hstack : cursor.stack.isEmpty = false := by simpa using h.stands.ne_nil
      have hpieces : cursor.piecesBefore = SumTree.piecesBefore cursor.stack := by
        simp [Cursor.piecesBefore, hstack]
      obtain ⟨result, hresult, hback⟩ := searchStack_back filterNode hfilled hlow h.stands
      have hsearch : cursor.searchBackward filterNode =
          some { cursor with stack := result.1, position := result.2 } := by
        simp [Cursor.searchBackward, backwardStart, h.didSeek, h.atEnd, h.stands.ne_nil, hresult]
      obtain ⟨found, hlast, hsettled⟩ :=
        settled_of_back { cursor with stack := result.1, position := result.2 } h.didSeek h.atEnd
          hfilled.isEmpty hne rfl rfl hback
      rw [hpieces]
      exact ⟨_, found, hsearch, rfl, hlast, hsettled⟩

theorem Fresh.searchBackward (h : cursor.Fresh) (hseekable : cursor.tree.Seekable xs)
    (filterNode : S → Bool) : cursor.SearchesBack xs filterNode cursor.piecesBefore := by
  have hpieces : cursor.piecesBefore = cursor.tree.pieces := by
    simp [Cursor.piecesBefore, h.stack, h.didSeek]
  rw [hpieces]
  exact searchBackward_end hseekable h.stack (fun hdidSeek => absurd hdidSeek (by simp [h.didSeek]))
    filterNode

/-! ## Runs -/

/-- The cursor has been moved before the first item. -/
def isBeforeStart (cursor : Cursor T S D) : Bool :=
  cursor.didSeek && cursor.stack.isEmpty && !cursor.atEnd

/-- The cursors of a tree after any motions.  `next` and `prev` are searches.  A cursor before
the first item is not moved by a seek forward. -/
inductive Reached (tree : Node T S) : Cursor T S D → Prop
  | new : Reached tree (Cursor.new tree)
  | seek {cursor moved : Cursor T S D} {target : D → Ordering} {bias : Bias} {found : Bool} :
      Reached tree cursor → cursor.seek target bias = some (found, moved) → Reached tree moved
  | seekForward {cursor moved : Cursor T S D} {target : D → Ordering} {bias : Bias}
      {found : Bool} :
      Reached tree cursor → cursor.isBeforeStart = false →
        cursor.seekForward target bias = some (found, moved) → Reached tree moved
  | slice {cursor moved : Cursor T S D} {target : D → Ordering} {bias : Bias}
      {slice : Node T S} :
      Reached tree cursor → cursor.isBeforeStart = false →
        cursor.slice target bias = some (moved, slice) → Reached tree moved
  | summary {O : Type u} [LawfulDimension O S] {cursor moved : Cursor T S D} {target : D → Ordering}
      {bias : Bias} {summary : O} :
      Reached tree cursor → cursor.isBeforeStart = false →
        cursor.summary O target bias = some (moved, summary) → Reached tree moved
  | searchForward {cursor moved : Cursor T S D} {filterNode : S → Bool} :
      Reached tree cursor → cursor.searchForward filterNode = some moved → Reached tree moved
  | searchBackward {cursor moved : Cursor T S D} {filterNode : S → Bool} :
      Reached tree cursor → cursor.searchBackward filterNode = some moved → Reached tree moved

/-- A cursor at a place: it has been moved there, or it has not been moved and counts as before
the first item. -/
inductive State (cursor : Cursor T S D) : Spot → Prop
  | fresh (h : cursor.Fresh) : State cursor .beforeStart
  | settled {spot : Spot} (h : cursor.Settled spot) : State cursor spot

theorem State.searchBackward (h : cursor.State spot) (hseekable : cursor.tree.Seekable xs)
    (filterNode : S → Bool) : cursor.SearchesBack xs filterNode cursor.piecesBefore := by
  cases h with
  | fresh h | settled h => exact h.searchBackward hseekable filterNode

/-- What a seek forward has before it. -/
theorem State.faces (h : cursor.State spot) (hbefore : cursor.isBeforeStart = false) :
    ∃ passed pieces, cursor.Faces passed pieces ∧ passed.length = spot.passed := by
  cases h with
  | fresh h => exact ⟨_, _, .fresh h, rfl⟩
  | settled h =>
    cases h with
    | beforeStart h =>
      simp [isBeforeStart, h.didSeek, h.stack, h.atEnd] at hbefore
    | index h =>
      obtain ⟨pieces, hfaces, -⟩ := h.faces
      exact ⟨_, pieces, hfaces, rfl⟩

/-- What a search forward has before it. -/
theorem State.follows (h : cursor.State spot) (hholds : cursor.tree.Holds xs) :
    ∃ passed, cursor.Follows passed cursor.piecesBehind ∧
      passed.length = min spot.next xs.length := by
  have hstart : cursor.stack = [] → cursor.atEnd = cursor.tree.isEmpty →
      cursor.piecesBehind = cursor.tree.pieces := by
    intro hstack hatEnd
    rw [Cursor.piecesBehind, hstack, hatEnd, isEmpty_nil, if_pos rfl]
    split
    next hempty =>
      obtain ⟨depth, hexact⟩ := hholds.1
      obtain rfl : xs = [] := hholds.2.symm.trans (hexact.isEmpty_iff.1 hempty)
      rw [hholds.eq_new]
      rfl
    next => rfl
  cases h with
  | fresh h =>
    rw [hstart h.stack h.atEnd]
    exact ⟨[], .start h.stack h.position h.atEnd, by simp [Spot.next]⟩
  | settled h =>
    cases h with
    | beforeStart h =>
      have hatEnd := h.atEnd.trans h.nonempty.symm
      rw [hstart h.stack hatEnd]
      exact ⟨[], .start h.stack h.position hatEnd, by simp [Spot.next]⟩
    | index h =>
      have hitems : xs = _ := hholds.2.symm.trans h.items_eq
      cases h with
      | atItem h =>
        have hpieces : cursor.piecesBehind = _ :=
          (if_neg (by simpa using h.stands.ne_nil)).trans h.stands.piecesBehind_eq
        rw [hpieces]
        refine ⟨_, .atItem h, ?_⟩
        rw [hitems]
        simp [Spot.next]
      | atEnd h =>
        have hpieces : cursor.piecesBehind = [] := by
          simp [Cursor.piecesBehind, h.stack, h.atEnd]
        rw [hpieces]
        refine ⟨_, .atEnd h, ?_⟩
        rw [hitems]
        simp [Spot.next]

theorem Faces.state (h : cursor.Faces passed pieces) : ∃ spot, cursor.State spot := by
  cases h with
  | fresh h => exact ⟨_, .fresh h⟩
  | atItem h => exact ⟨_, .settled (.index (.atItem h))⟩
  | atEnd h => exact ⟨_, .settled (.index (.atEnd h))⟩

/-- Every motion leaves the cursor at a place. -/
theorem Reached.state {tree : Node T S} (h : cursor.Reached tree) (hseekable : tree.Seekable xs) :
    cursor.tree = tree ∧ ∃ spot, cursor.State spot := by
  -- a seek leaves the cursor in front of pieces of its tree
  have hseek : ∀ {moved : Cursor T S D}, moved.tree = tree ∧
      (∃ passed pieces, moved.Faces passed pieces) →
      moved.tree = tree ∧ ∃ spot, moved.State spot :=
    fun ⟨htree, _, _, hfaces⟩ => ⟨htree, hfaces.state⟩
  induction h with
  | new => exact ⟨rfl, _, .fresh (fresh_new tree)⟩
  | @seek cursor moved target bias found _ hmoved ih =>
    obtain ⟨rfl, -⟩ := ih
    exact hseek ((Faces.fresh (fresh_reset cursor)).of_seekForward hseekable (Walk.adds ..) hmoved)
  | seekForward _ hbefore hmoved ih =>
    obtain ⟨rfl, spot, hstate⟩ := ih
    obtain ⟨passed, pieces, hfaces, -⟩ := hstate.faces hbefore
    exact hseek (hfaces.of_seekForward hseekable (Walk.adds ..) hmoved)
  | slice _ hbefore hmoved ih =>
    obtain ⟨rfl, spot, hstate⟩ := ih
    obtain ⟨passed, pieces, hfaces, -⟩ := hstate.faces hbefore
    exact hseek (hfaces.of_slice hseekable (Walk.adds ..) hmoved)
  | summary _ hbefore hmoved ih =>
    obtain ⟨rfl, spot, hstate⟩ := ih
    obtain ⟨passed, pieces, hfaces, -⟩ := hstate.faces hbefore
    exact hseek (hfaces.of_summary hseekable (Walk.adds ..) hmoved)
  | @searchForward cursor moved filterNode _ hmoved ih =>
    obtain ⟨rfl, spot, hstate⟩ := ih
    obtain ⟨passed, hfollows, -⟩ := hstate.follows hseekable.holds
    obtain ⟨moved', found, hmoved', htree, -, hsettled⟩ := hfollows.search hseekable filterNode
    obtain rfl : moved' = moved := Option.some.inj (hmoved'.symm.trans hmoved)
    exact ⟨htree, _, .settled hsettled⟩
  | @searchBackward cursor moved filterNode _ hmoved ih =>
    obtain ⟨rfl, spot, hstate⟩ := ih
    obtain ⟨moved', found, hmoved', htree, -, hsettled⟩ :=
      hstate.searchBackward hseekable filterNode
    obtain rfl : moved' = moved := Option.some.inj (hmoved'.symm.trans hmoved)
    exact ⟨htree, _, .settled hsettled⟩

end Cursor

/-! ## Next and previous -/

theorem Stands.piecesBefore_below (h : Stands base node entries before x behind)
    (hexact : node.Exact depth) : Piece.Below depth (piecesBefore entries) := by
  intro tree htree
  obtain ⟨entry, hentry, hmem⟩ := mem_flatMap.1 htree
  exact (h.pieces_below hexact).2 entry hentry tree (mem_of_mem_take hmem)

section Always

variable {bound : Nat} {found : Option Nat}

variable (hbelow : Piece.Below bound pieces)
include hbelow

/-- A filter that lets everything pass stops at every item. -/
theorem passes_always {before after : List T} (hitems : itemsOf pieces = before ++ x :: after) :
    Passes (fun _ => true) pieces before x after :=
  reaches_search_iff.1 (reaches_of_kept bound hbelow
    (Walk.adds ..) (faithful_next (⟨⟩ : PUnit.{u + 1}) _) hitems rfl)

theorem LastPass.always (h : LastPass (fun _ => true) pieces found) :
    found = if itemsOf pieces = [] then none
      else some ((itemsOf pieces).length - 1) := by
  rcases eq_nil_or_concat (itemsOf pieces) with hitems | ⟨ys, y, hitems⟩
  · rw [if_pos hitems]
    cases found with
    | none => rfl
    | some n =>
      obtain ⟨⟨before, x, after, hpasses, -⟩, -⟩ := h
      exact absurd (hitems.symm.trans hpasses.itemsOf_eq) (by simp)
  · rw [concat_eq_append] at hitems
    have hpasses := passes_always hbelow hitems
    rw [if_neg (by simp [hitems]), hitems]
    cases found with
    | none => exact absurd hpasses (h _ _ _)
    | some n =>
      have hle := h.2 _ _ _ hpasses
      obtain ⟨⟨before, x, after, hfound, rfl⟩, -⟩ := h
      have hlength := congrArg List.length (hitems.symm.trans hfound.itemsOf_eq)
      simp only [length_append, length_cons, length_nil] at hlength ⊢
      rw [Option.some.injEq]
      omega

end Always

namespace Cursor

variable {spot : Spot}

/-- `Cursor::next` goes to the next index. -/
theorem State.next (h : cursor.State spot) (hseekable : cursor.tree.Seekable xs) :
    ∃ moved, cursor.next = some moved ∧ moved.Denotes xs (.index (min spot.next xs.length)) := by
  obtain ⟨passed, hfollows, hlength⟩ := h.follows hseekable.holds
  obtain ⟨moved, hmoved, htree, hsplits⟩ := hfollows.next hseekable
  refine ⟨moved, hmoved, ?_⟩
  rw [← hlength]
  exact hsplits.denotes (by rw [htree]; exact hseekable.holds)

/-- The items of the pieces before a cursor are those that it has passed. -/
theorem Settled.itemsOf_piecesBefore (h : cursor.Settled spot) (hholds : cursor.tree.Holds xs) :
    itemsOf cursor.piecesBefore = xs.take spot.passed := by
  cases h with
  | beforeStart h =>
    simp [Cursor.piecesBefore, h.stack, h.didSeek, h.atEnd, Spot.passed]
  | index h =>
    have hitems : xs = _ := hholds.2.symm.trans h.items_eq
    rw [hitems, Spot.passed, take_left]
    cases h with
    | atItem h =>
      rw [Cursor.piecesBefore, if_neg (by simpa using h.stands.ne_nil)]
      exact h.stands.itemsOf_piecesBefore
    | atEnd h => simp [Cursor.piecesBefore, h.stack, h.atEnd]

theorem State.piecesBefore_below (h : cursor.State spot) (hexact : cursor.tree.Exact depth) :
    Piece.Below depth cursor.piecesBefore := by
  have hempty : cursor.stack = [] → Piece.Below depth cursor.piecesBefore := by
    intro hstack
    rw [Cursor.piecesBefore, hstack, isEmpty_nil, if_pos rfl]
    split
    · exact nofun
    · exact hexact.pieces_below
  cases h with
  | fresh h => exact hempty h.stack
  | settled h =>
    cases h with
    | beforeStart h => exact hempty h.stack
    | index h =>
      cases h with
      | atItem h =>
        rw [Cursor.piecesBefore, if_neg (by simpa using h.stands.ne_nil)]
        exact h.stands.piecesBefore_below hexact
      | atEnd h => exact hempty h.stack

/-- Where a search backward starts: a cursor that has not been moved counts as at the end. -/
def backwardOrigin (cursor : Cursor T S D) (n : Nat) (spot : Spot) : Spot :=
  if cursor.didSeek then spot else .index n

/-- `Cursor::prev` goes to the index before. -/
theorem State.prev (h : cursor.State spot) (hseekable : cursor.tree.Seekable xs) :
    ∃ moved, cursor.prev = some moved ∧
      moved.Denotes xs ((cursor.backwardOrigin xs.length spot).prev xs.length) := by
  have hholds := hseekable.holds
  obtain ⟨moved, found, hmoved, htree, hlast, hsettled⟩ := h.searchBackward hseekable fun _ => true
  refine ⟨moved, hmoved, ?_⟩
  obtain ⟨depth, hexact⟩ := hholds.1
  have hdenotes := hsettled.denotes (by rwa [htree])
  -- the pieces before the cursor hold the items before where the search starts
  have horigin : itemsOf cursor.piecesBefore =
        xs.take (cursor.backwardOrigin xs.length spot).passed ∧
      (cursor.backwardOrigin xs.length spot).passed ≤ xs.length ∧
      (cursor.backwardOrigin xs.length spot = .beforeStart → xs.length ≠ 0) := by
    cases h with
    | fresh h =>
      simp [Cursor.piecesBefore, backwardOrigin, h.stack, h.didSeek, Spot.passed, hholds.2]
    | settled h =>
      rw [backwardOrigin, if_pos h.didSeek]
      refine ⟨h.itemsOf_piecesBefore hholds, (h.denotes hholds).bound, ?_⟩
      rintro rfl
      cases h with
      | beforeStart h => simpa using h.ne_nil hholds
  obtain ⟨hitems, hbound, hne⟩ := horigin
  rw [hlast.always (h.piecesBefore_below hexact), hitems] at hdenotes
  generalize cursor.backwardOrigin xs.length spot = origin at hbound hne hdenotes
  match origin with
  | .beforeStart =>
    rw [Spot.passed, take_zero, if_pos rfl, backwardSpot, if_neg (hne rfl)] at hdenotes
    exact hdenotes
  | .index 0 =>
    rw [Spot.passed, take_zero, if_pos rfl] at hdenotes
    exact hdenotes
  | .index (i + 1) =>
    have hlength : (xs.take (i + 1)).length = i + 1 := length_take_of_le hbound
    rw [Spot.passed, if_neg (by rw [← length_eq_zero_iff, hlength]; simp), hlength]
      at hdenotes
    exact hdenotes

/-- A cursor that a seek has left is where it should be. -/
theorem Lands.denotes {A : Type u} {Held : A → List T → Prop} {aggregate : A} {bias : Bias}
    {passed : List T} {pieces : List (Piece T S)} {moved : Cursor T S D}
    (hfaces : cursor.Faces passed pieces) (hholds : cursor.tree.Holds xs)
    (htree : moved.tree = cursor.tree)
    (hlands : moved.Lands Held (Walk.seek target bias) passed pieces aggregate)
    (hahead : Ahead target bias (addItems (Dimension.zero S) passed) (xs.drop passed.length)) :
    ∃ i, SeekStop (S := S) target bias xs passed.length i ∧ moved.Denotes xs (.index i) ∧
      Held aggregate ((xs.take i).drop passed.length) := by
  obtain ⟨depth, hexact⟩ := hholds.1
  obtain rfl : passed ++ itemsOf pieces = xs := hfaces.items_eq.symm.trans hholds.2
  rw [drop_left] at hahead
  obtain ⟨more, rest, hsplit, hsplits, hheld, hmore⟩ := hlands.splits_skipped
    (hfaces.below hexact) (Walk.adds ..) (faithful_seek hahead) (by rw [htree, hfaces.items_eq])
  obtain ⟨hpast, hstop⟩ := goesPast_skippedItems (S := S) target bias
    (addItems (Dimension.zero S) passed) (itemsOf pieces)
  rw [← hmore] at hpast hstop
  refine ⟨(passed ++ more).length, ⟨by simp, by simp [hsplit], ?_, ?_⟩,
    hsplits.denotes (by rwa [htree]), ?_⟩
  · intro m hle hlt
    obtain ⟨k, rfl⟩ := Nat.exists_eq_add_of_le hle
    rw [length_append] at hlt
    rw [Nat.add_assoc, take_length_add_append, addItems_append]
    exact hpast k (by omega)
  · intro hlt
    rw [length_append, length_append] at hlt
    rw [length_append, Nat.add_assoc, take_length_add_append, addItems_append]
    exact hstop (by omega)
  · rwa [hsplit, ← append_assoc, take_left, drop_left]

/-- A cursor refines an index into the items.  After any motions it denotes a place; a seek goes
to the first item that ends at or behind the target, or behind it, and a search to the nearest
item in its direction that passes the filter together with all nodes above it, apart from the
root and the nodes above the item where the search starts.  The tree is not higher than the
stack of the cursor. -/
theorem Reached.refines_index {tree : Node T S} (hseekable : tree.Seekable xs)
    (h : cursor.Reached tree) :
    ∃ spot : Spot, (if cursor.didSeek then cursor.Denotes xs spot else spot = .beforeStart) ∧
      (∀ target bias, (target (Dimension.zero S)).isGE → Ahead target bias (Dimension.zero S) xs →
        ∃ found moved i, cursor.seek target bias = some (found, moved) ∧
          SeekStop (S := S) target bias xs 0 i ∧ moved.Denotes xs (.index i)) ∧
      (cursor.isBeforeStart = false → ∀ target bias, (target cursor.start).isGE →
        Ahead target bias cursor.start (xs.drop spot.passed) →
        (∃ found moved i, cursor.seekForward target bias = some (found, moved) ∧
          SeekStop (S := S) target bias xs spot.passed i ∧ moved.Denotes xs (.index i)) ∧
        (∃ moved slice i, cursor.slice target bias = some (moved, slice) ∧
          SeekStop (S := S) target bias xs spot.passed i ∧ moved.Denotes xs (.index i) ∧
          slice.Holds ((xs.take i).drop spot.passed)) ∧
        ∀ (O : Type u) [LawfulDimension O S], ∃ moved i, cursor.summary O target bias =
            some (moved, addItems (Dimension.zero S) ((xs.take i).drop spot.passed)) ∧
          SeekStop (S := S) target bias xs spot.passed i ∧ moved.Denotes xs (.index i)) ∧
      (∃ moved, cursor.next = some moved ∧ moved.Denotes xs (.index (min spot.next xs.length))) ∧
      (∃ moved, cursor.prev = some moved ∧
        moved.Denotes xs ((cursor.backwardOrigin xs.length spot).prev xs.length)) ∧
      ∀ filterNode, (∃ moved found, cursor.searchForward filterNode = some moved ∧
          FirstPass filterNode cursor.piecesBehind found ∧
          moved.Denotes xs (forwardSpot xs.length (min spot.next xs.length) found)) ∧
        ∃ moved found, cursor.searchBackward filterNode = some moved ∧
          LastPass filterNode cursor.piecesBefore found ∧
          moved.Denotes xs (backwardSpot xs.length found) := by
  obtain ⟨rfl, spot, hstate⟩ := h.state hseekable
  have hholds := hseekable.holds
  refine ⟨spot, ?_, ?_, ?_, hstate.next hseekable, hstate.prev hseekable, ?_⟩
  · cases hstate with
    | fresh h => rw [h.didSeek, if_neg (by simp)]
    | settled h =>
      rw [h.didSeek, if_pos rfl]
      exact h.denotes hholds
  · intro target bias hge hahead
    have hfaces := Faces.fresh (fresh_reset cursor)
    obtain ⟨found, moved, hseek, htree, hlands⟩ :=
      hfaces.seekForward hseekable bias hge (Walk.adds ..)
    obtain ⟨i, hstop, hdenotes, -⟩ := Lands.denotes hfaces hholds htree hlands hahead
    exact ⟨found, moved, i, hseek, hstop, hdenotes⟩
  · intro hbefore target bias hge hahead
    obtain ⟨passed, pieces, hfaces, hpassed⟩ := hstate.faces hbefore
    rw [Cursor.start, hfaces.position] at hge hahead
    rw [← hpassed] at hahead ⊢
    refine ⟨?_, ?_, ?_⟩
    · obtain ⟨found, moved, hseek, htree, hlands⟩ :=
        hfaces.seekForward hseekable bias hge (Walk.adds ..)
      obtain ⟨i, hstop, hdenotes, -⟩ := Lands.denotes hfaces hholds htree hlands hahead
      exact ⟨found, moved, i, hseek, hstop, hdenotes⟩
    · obtain ⟨moved, slice, hslice, htree, hlands⟩ := hfaces.slice hseekable bias hge (Walk.adds ..)
      obtain ⟨i, hstop, hdenotes, hheld⟩ := Lands.denotes hfaces hholds htree hlands hahead
      exact ⟨moved, slice, i, hslice, hstop, hdenotes, hheld⟩
    · intro O _
      obtain ⟨moved, summary, hsummary, htree, hlands⟩ :=
        hfaces.summary hseekable bias hge (Walk.adds ..) O
      obtain ⟨i, hstop, hdenotes, rfl⟩ := Lands.denotes hfaces hholds htree hlands hahead
      exact ⟨moved, i, hsummary, hstop, hdenotes⟩
  · intro filterNode
    obtain ⟨passed, hfollows, hlength⟩ := hstate.follows hholds
    obtain ⟨moved, found, hmoved, htree, hfirst, hsettled⟩ := hfollows.search hseekable filterNode
    obtain ⟨moved', found', hmoved', htree', hlast, hsettled'⟩ :=
      hstate.searchBackward hseekable filterNode
    rw [hlength] at hsettled
    exact ⟨⟨moved, found, hmoved, hfirst, hsettled.denotes (by rwa [htree])⟩,
      moved', found', hmoved', hlast, hsettled'.denotes (by rwa [htree'])⟩

end Cursor

namespace Sample

/-- The end of an item of the first thirty numbers. -/
def endOf (i : Nat) : Nat := addItems (0 : Nat) ((List.range 30).take (i + 1))

/-- Where a seek stops, if all items from its start up to there are passed. -/
theorem seekStop_eq {target : Nat → Ordering} {bias : Bias} {j i k : Nat}
    (h : Cursor.SeekStop (S := Nat) target bias (List.range 30) j i) (hk : j ≤ k ∧ k < 30)
    (hpast : ∀ m < k, j ≤ m → goesPast bias (target (endOf m)) = true)
    (hstop : goesPast bias (target (endOf k)) = false) : i = k := by
  rcases Nat.lt_trichotomy i k with hlt | heq | hgt
  · have hkept := h.stop (by rw [length_range]; omega)
    exact absurd ((hpast i hlt h.lower).symm.trans hkept) (by simp)
  · exact heq
  · exact absurd ((h.past k hk.1 hgt).symm.trans hstop) (by simp)

/-- A cursor that shows an item has been moved, and not before the first item. -/
theorem of_item_eq_some {cursor : Cursor Nat Nat Nat} {x : Nat} (h : cursor.item = some (some x)) :
    cursor.didSeek = true ∧ cursor.isBeforeStart = false := by
  rw [Cursor.item] at h
  split at h
  case isFalse => cases h
  case isTrue hdidSeek =>
    refine ⟨hdidSeek, ?_⟩
    cases hstack : cursor.stack with
    | nil => simp [hstack] at h
    | cons => simp [Cursor.isBeforeStart, hstack]

/-- A cursor denotes one place. -/
theorem spot_eq {cursor : Cursor Nat Nat Nat} {spot : Spot} {i : Nat} (hi : i < 30)
    (hdenotes : cursor.Denotes (List.range 30) (.index i))
    (hspot : if cursor.didSeek then cursor.Denotes (List.range 30) spot
      else spot = .beforeStart) : spot = .index i := by
  have hitem := hdenotes.item
  rw [Spot.item, getElem?_range hi] at hitem
  rw [if_pos (of_item_eq_some hitem).1] at hspot
  have heq := Option.some.inj (hspot.item.symm.trans hitem)
  cases spot with
  | beforeStart => cases heq
  | index j =>
    obtain ⟨_, hvalue⟩ := List.getElem?_eq_some_iff.1 heq
    rw [getElem_range] at hvalue
    rw [hvalue]

/-- A seek into a tree of several leaves, a step back, and a slice from there. -/
theorem thirty_index : ∃ (tree : Node Nat Nat) (found : Bool) (sought : Cursor Nat Nat Nat)
    (back last : Cursor Nat Nat Nat) (slice : Node Nat Nat), tree.Seekable (List.range 30) ∧
      (Cursor.new tree).seek (compare 30) .left = some (found, sought) ∧
      sought.Denotes (List.range 30) (.index 8) ∧ sought.prev = some back ∧
      back.Denotes (List.range 30) (.index 7) ∧
      back.slice (compare 60) .right = some (last, slice) ∧
      last.Denotes (List.range 30) (.index 11) ∧ slice.Holds [7, 8, 9, 10] := by
  obtain ⟨tree, -, hseekable⟩ := Node.fromIter_seekable (S := Nat)
    (show (List.range 30).length ≤ Node.seekLimit by decide)
  have hahead : ∀ n bias position (xs : List Nat), Ahead (compare n) bias position xs :=
    fun n bias => ahead_key id (fun d s => Nat.le_add_right d s) n bias
  have hnew : (Cursor.new tree : Cursor Nat Nat Nat).Reached tree := .new
  obtain ⟨-, -, hseek, -⟩ := Cursor.Reached.refines_index hseekable hnew
  obtain ⟨found, sought, i, hsought, hstop, hdenotes⟩ :=
    hseek (compare 30) .left rfl (hahead _ _ _ _)
  obtain rfl : i = 8 := seekStop_eq hstop (by decide) (by decide) (by decide)
  -- a step back
  have hreached := hnew.seek hsought
  obtain ⟨spot, hspot, -, -, -, ⟨back, hback, hdenotes'⟩, -⟩ :=
    Cursor.Reached.refines_index hseekable hreached
  obtain rfl := spot_eq (by decide) hdenotes hspot
  rw [Cursor.backwardOrigin, if_pos (of_item_eq_some hdenotes.item).1] at hdenotes'
  -- a slice from there
  have hreached' := hreached.searchBackward hback
  obtain ⟨spot, hspot, -, hforward, -⟩ := Cursor.Reached.refines_index hseekable hreached'
  obtain rfl := spot_eq (by decide) hdenotes' hspot
  obtain ⟨-, ⟨last, slice, i, hslice, hstop', hdenotes'', hheld⟩, -⟩ :=
    hforward (of_item_eq_some hdenotes'.item).2 (compare 60) .right
      (by rw [hdenotes'.start]; decide) (hahead _ _ _ _)
  obtain rfl : i = 11 := seekStop_eq hstop' (by decide) (by decide) (by decide)
  exact ⟨tree, found, sought, back, last, slice, hseekable, hsought, hdenotes, hback, hdenotes',
    hslice, hdenotes'', hheld⟩

/-- A search stops at an item below the root although the root does not pass. -/
theorem search_ignores_root : (.leaf 3 [1, 2] [1, 2] : Node Nat Nat).Holds [1, 2] ∧
    ((.leaf 3 [1, 2] [1, 2] : Node Nat Nat).summary == 2) = false ∧
    ((Cursor.new (.leaf 3 [1, 2] [1, 2]) : Cursor Nat Nat Nat).searchForward (· == 2)).bind
      Cursor.item = some (some 2) :=
  ⟨⟨⟨0, Node.exact_leaf.2 ⟨rfl, by decide, rfl, rfl⟩⟩, Node.items_leaf ..⟩, rfl, rfl⟩

end Sample

end XorEditor.SumTree
