import XorEditor.Lib.ListCursor
import XorEditor.SumTree.Walk

/-!
# Where a cursor is

A cursor that has been moved splits the items of its tree: those it has passed, and those from
the one it points at (`Cursor.Splits`).  A seek moves items from the second list to the first
one, and `slice` returns them as a tree.

* `Splits`: the two lists
* `Faces`, `Follows`: what a seek and a search forward have before them
* `Lands`: where they stop
-/

namespace XorEditor.SumTree

open Lib List
open Piece (itemsOf itemsOf_cons)

universe u

variable {T S D A : Type u} [Summary S] [Item T S] [Dimension D S]
variable {target : D → Ordering} {aggregate : A} {before : List T} {bias : Bias} {x : T}
  {Held : A → List T → Prop} {depth : Nat} {agg : SeekAggregate A T S} {node : Node T S}
  {entries : List (StackEntry T S D)} {behind : List (Piece T S)}

/-! ## Aggregates -/

/-- A seek that only moves holds nothing. -/
def Collector.unit : Collector (SeekAggregate.unit T S) where
  Between _ _ := True
  Inside _ _ _ := True
  beginLeaf _ := trivial
  pushItem _ _ _ := ⟨_, rfl, trivial⟩
  endLeaf _ _ := ⟨_, rfl, trivial⟩
  pushTree _ _ _ := ⟨_, rfl, trivial⟩

/-- `Cursor::summary` holds the dimension of what is passed. -/
def Collector.summary {D : Type u} [LawfulDimension D S] :
    Collector (SeekAggregate.summary T D (S := S)) where
  Between aggregate passed := aggregate = addItems (Dimension.zero S) passed
  Inside aggregate passed ys := aggregate = addItems (Dimension.zero S) (passed ++ ys)
  beginLeaf h := by rw [h, append_nil]
  pushItem x h _ := ⟨_, rfl, by rw [h]; simp⟩
  endLeaf h _ := ⟨_, rfl, h⟩
  pushTree h hfilled _ := ⟨_, rfl, by rw [h, hfilled.addSummary, addItems_append]⟩

/-- `Cursor::slice` holds a tree of what is passed. -/
def Collector.slice : Collector (SeekAggregate.slice (T := T) (S := S)) where
  Between aggregate passed := ∃ tree, tree.Holds passed ∧ aggregate = ⟨tree, [], [], 0⟩
  Inside aggregate passed ys := ys.length ≤ 2 * treeBase ∧ ∃ tree, tree.Holds passed ∧
    aggregate = ⟨tree, ys, ys.map Item.summary, sum (ys.map Item.summary)⟩
  beginLeaf h := ⟨Nat.zero_le _, h⟩
  pushItem {aggregate passed ys} x h hroom := by
    obtain ⟨-, tree, htree, rfl⟩ := h
    have hfits : ys.length < 2 * treeBase ∧
        (ys.map (Item.summary : T → S)).length < 2 * treeBase := by simpa using hroom
    refine ⟨_, if_pos hfits, ?_, tree, htree, ?_⟩
    · rw [length_append, length_singleton]
      omega
    · rw [map_append, map_singleton, sum_append _ (by simp), sum_singleton]
  endLeaf {aggregate passed ys} h hfew := by
    obtain ⟨hlength, tree, htree, rfl⟩ := h
    have hleaf : (Node.leaf (sum (ys.map Item.summary)) ys (ys.map Item.summary) :
        Node T S).Holds ys := ⟨⟨0, hlength, rfl, rfl⟩, Node.items_leaf ..⟩
    obtain ⟨grown, hgrown, hholds⟩ := (htree.append hleaf).exists_holds hfew
    refine ⟨⟨grown, [], [], 0⟩, ?_, grown, hholds, rfl⟩
    simp [SeekAggregate.slice, SliceSeekAggregate.empty, hgrown]
  pushTree {aggregate passed depth child} h hfilled hfew := by
    obtain ⟨tree, htree, rfl⟩ := h
    obtain ⟨grown, hgrown, hholds⟩ := (htree.append hfilled.holds).exists_holds hfew
    refine ⟨⟨grown, [], [], 0⟩, ?_, grown, hholds, rfl⟩
    simp [SeekAggregate.slice, hgrown]

/-! ## Walks that find what a scan of the items finds -/

/-- The items that a walk passes if it looks at them one by one. -/
def skippedItems (walk : Walk D S) : D → List T → List T
  | _, [] => []
  | position, x :: xs =>
    if walk.skip position (Item.summary x) then
      x :: skippedItems walk (Dimension.addSummary position (Item.summary x)) xs
    else []

/-- The walk never skips a node that holds an item which it would not skip by itself.  Such a node
has the items around `x` between `front` and `back`, and if it is skipped, its summary measures
what they do. -/
def Faithful (walk : Walk D S) (position : D) (xs : List T) : Prop :=
  ∀ front before x after back summary, xs = front ++ (before ++ x :: after) ++ back →
    (walk.skip (addItems position front) summary = true →
      Dimension.addSummary (addItems position front) summary =
        addItems position (front ++ (before ++ x :: after))) →
    walk.skip (addItems position (front ++ before)) (Item.summary x) = false →
    walk.skip (addItems position front) summary = false

section Faithful

variable {walk : Walk D S} {position : D} {xs ys : List T} {pieces : List (Piece T S)} {K : Type*}
  {after : List T}

theorem Faithful.left (h : Faithful walk position (xs ++ ys)) : Faithful walk position xs := by
  intro front before x after back summary hsplit
  exact h front before x after (back ++ ys) summary (by rw [hsplit]; simp)

theorem Faithful.right (h : Faithful walk position (xs ++ ys)) :
    Faithful walk (addItems position xs) ys := by
  intro front before x after back summary hsplit hsummary hkept
  simp only [← addItems_append, ← append_assoc xs] at hsummary hkept ⊢
  exact h (xs ++ front) before x after back summary (by rw [hsplit]; simp) hsummary hkept

/-- The subtrees among the pieces have items and are less deep than the bound. -/
def Piece.Below (bound : Nat) (pieces : List (Piece T S)) : Prop :=
  ∀ node, .tree node ∈ pieces → ∃ depth < bound, node.Filled depth

theorem Node.Exact.pieces_below (h : node.Exact depth) : Piece.Below depth node.pieces := by
  intro tree htree
  cases node with
  | leaf =>
    obtain ⟨x, -, hx⟩ := mem_map.1 htree
    cases hx
  | internal =>
    obtain ⟨child, hchild, hx⟩ := mem_map.1 htree
    obtain rfl : child = tree := Piece.tree.inj hx
    obtain ⟨below, rfl, -, -, -, -, hall⟩ := Node.exact_internal.1 h
    exact ⟨below, by omega, (hall child hchild).1, (hall child hchild).2⟩

/-- What is behind a cursor, and what its stack goes through, is less deep than its tree. -/
theorem Stands.pieces_below {base : D} (h : Stands base node entries before x behind)
    (hexact : node.Exact depth) : Piece.Below depth behind ∧
      ∀ entry ∈ entries, Piece.Below depth entry.tree.pieces := by
  induction h generalizing depth with
  | leaf =>
    refine ⟨fun tree htree => ?_, by simpa using hexact.pieces_below⟩
    obtain ⟨x, -, hx⟩ := mem_map.1 htree
    cases hx
  | @internal base height summary childSummaries childTrees left right tree entries before x
      behind split inside ih =>
      have hbelow := hexact.pieces_below
      obtain ⟨below, rfl, -, -, -, -, hall⟩ := Node.exact_internal.1 hexact
      have hmono {pieces : List (Piece T S)} (h : Piece.Below below pieces) :
          Piece.Below (below + 1) pieces := fun node hnode =>
        (h node hnode).imp fun _ hdepth => ⟨by omega, hdepth.2⟩
      obtain ⟨hbehind, hentries⟩ := ih (hall tree (by simp [split])).1
      refine ⟨fun other hother => ?_, forall_mem_cons.2 ⟨hbelow, fun entry hentry =>
        hmono (hentries entry hentry)⟩⟩
      rcases mem_append.1 hother with hinside | hright
      · exact hmono hbehind other hinside
      · refine hbelow other ?_
        rw [Node.pieces, split, map_append, map_cons]
        simp only [mem_append, mem_cons]
        exact .inr (.inr hright)

/-- A faithful walk reaches every item that it would not skip by itself.  The induction is on a
bound of the depth of the subtrees, and for each bound on the pieces. -/
theorem reaches_of_kept (bound : Nat) (hbelow : Piece.Below bound pieces)
    (hadds : walk.Adds (itemsOf pieces)) (hfaithful : Faithful walk position (itemsOf pieces))
    (hitems : itemsOf pieces = before ++ x :: after)
    (hkept : walk.skip (addItems position before) (Item.summary x) = false) :
    Reaches walk position pieces before x after := by
  induction bound using Nat.strongRecOn generalizing pieces position before after with
  | _ bound ihBound =>
  induction pieces generalizing position before with
  | nil => simp at hitems
  | cons piece pieces ih =>
    rw [itemsOf_cons] at hadds hfaithful hitems
    rcases Lib.append_eq_append_cons hitems with ⟨rest, hpiece, rfl⟩ | ⟨start, rfl, hpieces⟩
    · cases piece with
      | item y =>
        obtain ⟨rfl, rfl, rfl⟩ : before = [] ∧ y = x ∧ rest = [] := by
          cases before with
          | nil => simpa using hpiece
          | cons => simp at hpiece
        exact .item hkept
      | tree node =>
        obtain ⟨depth, hlt, hfilled⟩ := hbelow node (by simp)
        rw [Piece.items_tree] at hadds hpiece hfaithful
        refine .tree ?_ ?_
        · refine hfaithful [] before x rest (itemsOf pieces) _ ?_ ?_ hkept
          · rw [hpiece, nil_append]
          · intro hskip
            rw [nil_append, ← hpiece]
            exact hadds hfilled (subset_append_left ..) position hskip
        · refine ihBound depth hlt hfilled.exact.pieces_below ?_ ?_ ?_ hkept
          · rw [Node.itemsOf_pieces]
            exact hadds.mono (subset_append_left ..)
          · rw [Node.itemsOf_pieces]
            exact hfaithful.left
          · rw [Node.itemsOf_pieces, hpiece]
    · refine .later (ih (fun node hnode => hbelow node (by simp [hnode]))
        (hadds.mono (subset_append_right ..)) hfaithful.right hpieces ?_)
      rwa [← addItems_append]

/-- The walk skips the items one by one. -/
def AllSkipped (walk : Walk D S) (position : D) (xs : List T) : Prop :=
  ∀ front y back, xs = front ++ y :: back →
    walk.skip (addItems position front) (Item.summary y) = true

theorem allSkipped_nil : AllSkipped walk position ([] : List T) :=
  fun _ _ _ hsplit => absurd hsplit (by simp)

theorem allSkipped_singleton (h : walk.skip position (Item.summary x) = true) :
    AllSkipped walk position [x] := by
  intro front y back hsplit
  cases front with
  | nil =>
    obtain ⟨rfl, -⟩ := List.cons.inj hsplit
    exact h
  | cons => simp at hsplit

section AllSkipped

variable (h : AllSkipped walk position xs)
include h

theorem AllSkipped.append (h' : AllSkipped walk (addItems position xs) ys) :
    AllSkipped walk position (xs ++ ys) := by
  intro front y back hsplit
  rcases Lib.append_eq_append_cons hsplit with ⟨rest, hxs, -⟩ | ⟨start, rfl, hys⟩
  · exact h front y rest hxs
  · rw [addItems_append]
    exact h' start y back hys

theorem AllSkipped.skippedItems_append : skippedItems walk position (xs ++ ys) =
      xs ++ skippedItems walk (addItems position xs) ys := by
  induction xs generalizing position with
  | nil => rfl
  | cons y xs ih =>
    have hfirst : walk.skip position (Item.summary y) = true := h [] y xs rfl
    rw [cons_append, skippedItems, if_pos hfirst, ih]
    · rfl
    · intro front z back hsplit
      exact h (y :: front) z back (by rw [hsplit]; rfl)

theorem AllSkipped.skippedItems_eq : skippedItems walk position xs = xs := by
  have happend : skippedItems walk position (xs ++ []) = _ := h.skippedItems_append
  rwa [append_nil, skippedItems, append_nil] at happend

/-- A scan stops at the first item that is not skipped. -/
theorem AllSkipped.skippedItems_cons
    (hkept : walk.skip (addItems position xs) (Item.summary x) = false) :
    skippedItems walk position (xs ++ x :: ys) = xs := by
  rw [h.skippedItems_append, skippedItems, if_neg (by simp [hkept]), append_nil]

end AllSkipped

/-- Along the items, a target that is not past a position is not past any later one. -/
def Ahead (target : D → Ordering) (bias : Bias) (position : D) (xs : List T) : Prop :=
  ∀ front middle back, xs = front ++ middle ++ back → front ≠ [] →
    goesPast bias (target (addItems position (front ++ middle))) = true →
    goesPast bias (target (addItems position front)) = true

theorem isGE_compare [LinearOrder K] {value k : K} (h : k ≤ value) :
    (compare value k).isGE = true :=
  Std.LawfulLECmp.isGE_iff_ge.2 h

theorem goesPast_left [LinearOrder K] {value k : K} :
    goesPast .left (compare value k) = true ↔ k < value := by
  rcases lt_trichotomy value k with h | h | h
  · simp [compare_lt_iff_lt.2 h, goesPast, h.le]
  · simp [h, goesPast]
  · simp [compare_gt_iff_gt.2 h, goesPast, h]

theorem goesPast_right [LinearOrder K] {value k : K} :
    goesPast .right (compare value k) = true ↔ k ≤ value := by
  rcases lt_trichotomy value k with h | h | h
  · simp [compare_lt_iff_lt.2 h, goesPast, h]
  · simp [h, goesPast]
  · simp [compare_gt_iff_gt.2 h, goesPast, h.le]

/-- A target that compares a value with a measure that grows along the items. -/
theorem ahead_of_le [LinearOrder K] (measure : List T → K) (value : K)
    (htarget : ∀ front, front ≠ [] → front <+: xs →
      target (addItems position front) = compare value (measure front))
    (hle : ∀ front middle, front ≠ [] → front ++ middle <+: xs →
      measure front ≤ measure (front ++ middle)) (bias : Bias) :
    Ahead target bias position xs := by
  intro front middle back hsplit hne hpast
  have hwhole : front ++ middle <+: xs := ⟨back, hsplit.symm⟩
  rw [htarget _ (append_ne_nil_of_left_ne_nil hne middle) hwhole] at hpast
  rw [htarget front hne ((prefix_append front middle).trans hwhole)]
  cases bias with
  | left =>
    rw [goesPast_left] at hpast ⊢
    exact lt_of_le_of_lt (hle front middle hne hwhole) hpast
  | right =>
    rw [goesPast_right] at hpast ⊢
    exact (hle front middle hne hwhole).trans hpast

/-- A key that grows along the items, with the comparison to one of its values. -/
theorem ahead_key [LinearOrder K] (key : D → K)
    (hmono : ∀ (d : D) (s : S), key d ≤ key (Dimension.addSummary d s)) (value : K) (bias : Bias)
    (position : D) (xs : List T) : Ahead (fun d => compare value (key d)) bias position xs := by
  have hgrows : ∀ (ys : List T) (d : D), key d ≤ key (addItems d ys) := by
    intro ys
    induction ys with
    | nil => exact fun d => le_refl _
    | cons y ys ih => exact fun d => (hmono d _).trans (ih _)
  refine ahead_of_le (fun front => key (addItems position front)) value (fun _ _ _ => rfl) ?_ bias
  intro front middle _ _
  rw [addItems_append]
  exact hgrows middle _

omit [Item T S] in
theorem skip_seek (target : D → Ordering) (bias : Bias) (position : D) (summary : S) :
    (Walk.seek target bias).skip position summary =
      goesPast bias (target (Dimension.addSummary position summary)) := rfl

/-- A seek skips items if its target is past their end. -/
theorem Ahead.allSkipped (h : Ahead target bias position xs)
    (hpast : goesPast bias (target (addItems position xs)) = true) :
    AllSkipped (Walk.seek target bias : Walk D S) position xs := by
  intro front y back hsplit
  have hitem := h (front ++ [y]) back [] (by rw [hsplit]; simp) (by simp)
    (by rwa [append_assoc, singleton_append, ← hsplit])
  rw [addItems_append] at hitem
  exact hitem

theorem faithful_seek (h : Ahead target bias position xs) :
    Faithful (Walk.seek target bias : Walk D S) position xs := by
  intro front before x after back summary hsplit hsummary hkept
  by_contra hskip
  rw [Bool.not_eq_false] at hskip
  have hpast : goesPast bias (target (addItems position (front ++ before ++ [x] ++ after))) =
      true := by
    have hend : addItems position (front ++ before ++ [x] ++ after) =
        Dimension.addSummary (addItems position front) summary := by
      rw [hsummary hskip]
      simp
    rw [hend]
    exact hskip
  have hitem := h (front ++ before ++ [x]) after back (by rw [hsplit]; simp) (by simp) hpast
  rw [addItems_append] at hitem
  exact absurd hitem (by simpa [Walk.seek] using hkept)

theorem faithful_next (position : D) (xs : List T) :
    Faithful (Walk.search D fun _ : S => true) position xs :=
  fun _ _ _ _ _ _ _ _ _ => rfl

end Faithful

/-! ## The states of a cursor -/

namespace Cursor

/-- The cursor has not been moved. -/
structure Fresh (cursor : Cursor T S D) : Prop where
  didSeek : cursor.didSeek = false
  stack : cursor.stack = []
  position : cursor.position = Dimension.zero S
  atEnd : cursor.atEnd = cursor.tree.isEmpty

/-- The cursor points at an item. -/
structure AtItem (cursor : Cursor T S D) (before : List T) (x : T) (behind : List (Piece T S)) :
    Prop where
  didSeek : cursor.didSeek = true
  atEnd : cursor.atEnd = false
  position : cursor.position = addItems (Dimension.zero S) before
  stands : Stands (Dimension.zero S) cursor.tree cursor.stack before x behind

/-- The cursor has passed all items. -/
structure AtEnd (cursor : Cursor T S D) : Prop where
  didSeek : cursor.didSeek = true
  atEnd : cursor.atEnd = true
  position : cursor.position = addItems (Dimension.zero S) cursor.tree.items
  stack : cursor.stack = []

/-- The cursor has passed some items and has others before it. -/
inductive Splits (cursor : Cursor T S D) : List T → List T → Prop
  | atItem {before : List T} {x : T} {behind : List (Piece T S)}
      (h : cursor.AtItem before x behind) : Splits cursor before (x :: itemsOf behind)
  | atEnd (h : cursor.AtEnd) : Splits cursor cursor.tree.items []

variable {cursor : Cursor T S D} {passed rest xs : List T}

section Splits

variable (h : cursor.Splits passed rest)
include h

theorem Splits.items_eq : cursor.tree.items = passed ++ rest := by
  cases h with
  | atItem h => exact h.stands.items_eq
  | atEnd => rw [append_nil]

theorem Splits.didSeek : cursor.didSeek = true := by
  cases h with
  | atItem h => exact h.didSeek
  | atEnd h => exact h.didSeek

theorem Splits.position : cursor.position = addItems (Dimension.zero S) passed := by
  cases h with
  | atItem h => exact h.position
  | atEnd h => exact h.position

/-- The pieces that a seek has before it. -/
inductive Faces (cursor : Cursor T S D) : List T → List (Piece T S) → Prop
  | fresh (h : cursor.Fresh) : Faces cursor [] cursor.tree.pieces
  | atItem {before : List T} {x : T} {behind : List (Piece T S)}
      (h : cursor.AtItem before x behind) : Faces cursor before (.item x :: behind)
  | atEnd (h : cursor.AtEnd) : Faces cursor cursor.tree.items []

theorem Splits.faces : ∃ pieces, cursor.Faces passed pieces ∧ itemsOf pieces = rest := by
  cases h with
  | atItem h => exact ⟨_, .atItem h, rfl⟩
  | atEnd h => exact ⟨_, .atEnd h, rfl⟩

end Splits

end Cursor

omit [Item T S] in
/-- From the root at its first child, the loop over the stack goes into the tree. -/
theorem walkEntry_root (walk : Walk D S) (agg : SeekAggregate A T S) (room : Nat)
    (node : Node T S) (position : D) (aggregate : A) :
    walkEntry walk agg false room ⟨node, 0, position⟩ position aggregate =
      walkNode walk agg (room + 1) node position aggregate := by
  cases node with
  | leaf | internal => rw [walkEntry, walkNode]; simp

/-- A walk into a tree that may be empty. -/
theorem walkRoot_walked (collector : Collector agg) (walk : Walk D S) {xs passed : List T}
    (hadds : walk.Adds xs) (hseekable : node.Seekable xs) {position : D}
    (hfew : (passed ++ xs).length < Node.itemLimit) (h : collector.Between aggregate passed) :
    Walked collector walk passed position node.pieces (Stands position node)
      (walkNode walk agg stackCapacity node position aggregate) := by
  cases xs with
  | cons x xs =>
    obtain ⟨depth, hlow, hfilled⟩ := hseekable.filled (cons_ne_nil x xs)
    rw [← hseekable.holds.2] at hadds
    exact walkNode_walked collector walk hadds hfilled hlow (by rwa [hseekable.holds.2]) h
  | nil =>
    obtain rfl := hseekable.holds.eq_new
    rw [stackCapacity, Node.new, walkNode]
    exact (walkLeaf_walked collector walk [] [] ⟨Node.new, 0, position⟩ position rfl
      (Nat.zero_le _) hfew h).imp fun hplace => hplace.stands [] rfl

/-- A walk that stops nowhere, into a tree that may be empty. -/
theorem walkRoot_passesAll (collector : Collector agg) {walk : Walk D S}
    (hskip : ∀ position summary, walk.skip position summary = true) {xs passed : List T}
    (hseekable : node.Seekable xs) {position : D}
    (hfew : (passed ++ xs).length < Node.itemLimit) (h : collector.Between aggregate passed) :
    PassesAll collector passed xs (walkNode walk agg stackCapacity node position aggregate) := by
  rw [← hseekable.holds.2] at hfew ⊢
  obtain ⟨depth, hexact⟩ := hseekable.holds.1
  cases node with
  | leaf summary items itemSummaries =>
    obtain ⟨-, hlength, rfl, rfl⟩ := Node.exact_leaf.1 hexact
    rw [stackCapacity, walkNode]
    have hleaf := (walkLeaf_walked collector walk [] items
      ⟨.leaf (sum (items.map Item.summary)) items (items.map Item.summary), 0, position⟩ position
      rfl hlength (by simpa using hfew) h).passesAll hskip
    simpa using hleaf
  | internal height summary childSummaries childTrees =>
    obtain ⟨below, -, rfl, -, rfl, -, hall⟩ := Node.exact_internal.1 hexact
    rw [stackCapacity, walkNode, Node.items_internal]
    have hfilled : ∀ tree ∈ childTrees, tree.Filled below := fun tree htree =>
      ⟨(hall tree htree).1, (hall tree htree).2⟩
    exact walkChildren_passesAll collector hskip hfilled _ (by simpa using hfew) h

/-- The last entry of the stack is a leaf and points at the item. -/
theorem Stands.getLast? {base : D} (h : Stands base node entries before x behind)
    (hexact : node.Exact depth) : ∃ front back position,
      entries.getLast? = some ⟨.leaf (sum ((front ++ x :: back).map Item.summary))
        (front ++ x :: back) ((front ++ x :: back).map Item.summary), front.length,
        position⟩ := by
  induction h generalizing depth with
  | @leaf base position summary items before after x itemSummaries split =>
    obtain ⟨-, -, rfl, rfl⟩ := Node.exact_leaf.1 hexact
    exact ⟨before, after, position, by rw [split]; rfl⟩
  | @internal base height summary childSummaries childTrees left right tree entries before x
      behind split inside ih =>
      obtain ⟨below, -, -, -, -, -, hall⟩ := Node.exact_internal.1 hexact
      obtain ⟨front, back, position, hlast⟩ := ih (hall tree (by simp [split])).1
      refine ⟨front, back, position, ?_⟩
      obtain ⟨entry, rest, rfl⟩ := exists_cons_of_ne_nil inside.ne_nil
      rwa [getLast?_cons_cons]

namespace Cursor

variable {cursor : Cursor T S D} {passed rest xs : List T} {pieces behind : List (Piece T S)}
  {walk : Walk D S}

/-- `Cursor::item` is the first one of the items before the cursor. -/
theorem Splits.item (h : cursor.Splits passed rest) (hholds : cursor.tree.Holds xs) :
    cursor.item = some rest.head? := by
  cases h with
  | atEnd h =>
    rw [Cursor.item, if_pos h.didSeek, h.stack]
    rfl
  | atItem h =>
    obtain ⟨⟨depth, hexact⟩, -⟩ := hholds
    obtain ⟨front, back, position, hlast⟩ := h.stands.getLast? hexact
    rw [Cursor.item, if_pos h.didSeek, hlast]
    simp [Node.items?]

/-- `Cursor::end` is behind the item that the cursor points at. -/
theorem Splits.end_ (h : cursor.Splits passed rest) (hholds : cursor.tree.Holds xs) :
    cursor.end_ = some (addItems (Dimension.zero S) (passed ++ rest.take 1)) := by
  have hposition := h.position
  cases h with
  | atEnd h =>
    rw [Cursor.end_, Cursor.itemSummary, if_pos h.didSeek, h.stack]
    simp [start, hposition]
  | atItem h =>
    obtain ⟨⟨depth, hexact⟩, -⟩ := hholds
    obtain ⟨front, back, position, hlast⟩ := h.stands.getLast? hexact
    rw [Cursor.end_, Cursor.itemSummary, if_pos h.didSeek, hlast]
    simp [start, hposition]

theorem Faces.items_eq (h : cursor.Faces passed pieces) :
    cursor.tree.items = passed ++ itemsOf pieces := by
  cases h with
  | fresh => simp
  | atItem h => exact h.stands.items_eq
  | atEnd => simp

theorem Faces.itemsOf_subset (h : cursor.Faces passed pieces) (hholds : cursor.tree.Holds xs) :
    itemsOf pieces ⊆ xs := by
  rw [← hholds.2, h.items_eq]
  exact subset_append_right ..

/-- The loop of a seek goes over the pieces before the cursor. -/
theorem Faces.resume (h : cursor.Faces passed pieces) (hseekable : cursor.tree.Seekable xs)
    (collector : Collector agg) (walk : Walk D S) (hadds : walk.Adds xs)
    (hbetween : collector.Between aggregate []) :
    ∃ stack, cursor.seekStack = some stack ∧
      Walked collector walk [] (addItems (Dimension.zero S) passed) pieces
        (fun entries more y rest =>
          Stands (Dimension.zero S) cursor.tree entries (passed ++ more) y rest)
        (SumTree.resume walk agg false stackCapacity stack cursor.position aggregate) := by
  have hfew := hseekable.length_lt
  cases h with
  | fresh h =>
    refine ⟨[cursor.rootEntry], by rw [seekStack, h.didSeek, h.stack]; rfl, ?_⟩
    rw [h.position, SumTree.resume, rootEntry, walkEntry_root]
    exact walkRoot_walked collector walk hadds hseekable (by simpa using hfew) hbetween
  | atItem h =>
    have hitems := hseekable.holds.2.symm.trans h.stands.items_eq
    obtain ⟨depth, hlow, hfilled⟩ := hseekable.filled (by rw [hitems]; simp)
    refine ⟨cursor.stack, by rw [seekStack, h.didSeek, if_pos rfl], ?_⟩
    rw [h.position]
    rw [← hseekable.holds.2] at hadds
    refine resume_walked collector walk hadds hfilled hlow h.stands false ?_ hbetween
    rw [hitems, length_append] at hfew
    simp only [pendingPieces, Bool.false_eq_true, if_false, itemsOf_cons, Piece.items_item,
      nil_append, singleton_append]
    omega
  | atEnd h =>
    refine ⟨[], by rw [seekStack, h.didSeek, h.stack, if_pos rfl], ?_⟩
    rw [h.position, SumTree.resume]
    exact ⟨_, _, _, rfl, .exhausted (fun _ _ _ => not_reaches_nil) (by simpa using hbetween)⟩

/-- Where a cursor is after a walk over the pieces before it. -/
structure Lands (Held : A → List T → Prop) (walk : Walk D S) (passed : List T)
    (pieces : List (Piece T S)) (cursor : Cursor T S D) (aggregate : A) : Prop where
  atEnd : cursor.stack = [] → cursor.AtEnd
  outcome : Outcome Held walk [] (addItems (Dimension.zero S) passed) pieces
    (fun _ more y behind => cursor.AtItem (passed ++ more) y behind) cursor.stack
    cursor.position aggregate

/-- The stack and the position that a walk leaves make a cursor that is where it landed. -/
theorem lands_of_outcome (hdidSeek : cursor.didSeek = true)
    (hatEnd : cursor.atEnd = cursor.stack.isEmpty)
    (hitems : cursor.tree.items = passed ++ itemsOf pieces)
    (h : Outcome Held walk [] (addItems (Dimension.zero S) passed) pieces
      (fun entries more y behind =>
        Stands (Dimension.zero S) cursor.tree entries (passed ++ more) y behind) cursor.stack
      cursor.position aggregate) :
    cursor.Lands Held walk passed pieces aggregate := by
  obtain ⟨tree, stack, position, didSeek, atEnd⟩ := cursor
  simp only at hdidSeek hatEnd hitems h
  subst hdidSeek hatEnd
  cases h with
  | exhausted nowhere held =>
    refine ⟨fun _ => ⟨rfl, rfl, ?_, rfl⟩, .exhausted nowhere held⟩
    rw [hitems, addItems_append]
  | stopped reaches nearest place ne_nil held =>
    refine ⟨fun hnil => absurd hnil ne_nil, .stopped reaches nearest ?_ ne_nil held⟩
    exact ⟨rfl, by simpa using ne_nil, by rw [addItems_append], place⟩

/-- A walk splits the items before the cursor at the first one that it reaches. -/
theorem Lands.splits (h : cursor.Lands Held walk passed pieces aggregate)
    (hitems : cursor.tree.items = passed ++ itemsOf pieces) :
    ∃ more rest, itemsOf pieces = more ++ rest ∧ cursor.Splits (passed ++ more) rest ∧
      Held aggregate more ∧
      (∀ before x after, Reaches walk (addItems (Dimension.zero S) passed) pieces before x after →
        more.length ≤ before.length) ∧
      ∀ x after, rest = x :: after →
        Reaches walk (addItems (Dimension.zero S) passed) pieces more x after := by
  obtain ⟨hatEnd, houtcome⟩ := h
  generalize hstack : cursor.stack = stack at houtcome
  generalize cursor.position = position at houtcome
  cases houtcome with
  | exhausted nowhere held =>
    refine ⟨itemsOf pieces, [], (append_nil _).symm, ?_, held,
      fun _ _ _ hreach => absurd hreach (nowhere _ _ _), nofun⟩
    rw [← hitems]
    exact .atEnd (hatEnd hstack)
  | stopped reaches nearest place ne_nil held =>
    refine ⟨_, _, reaches.itemsOf_eq, .atItem place, held, nearest, ?_⟩
    rintro _ _ ⟨⟩
    exact reaches

/-- A faithful walk passes what a scan of the items passes. -/
theorem Lands.splits_skipped (h : cursor.Lands Held walk passed pieces aggregate) {bound : Nat}
    (hbelow : Piece.Below bound pieces) (hadds : walk.Adds (itemsOf pieces))
    (hfaithful : Faithful walk (addItems (Dimension.zero S) passed) (itemsOf pieces))
    (hitems : cursor.tree.items = passed ++ itemsOf pieces) :
    ∃ more rest, itemsOf pieces = more ++ rest ∧ cursor.Splits (passed ++ more) rest ∧
      Held aggregate more ∧
      more = skippedItems walk (addItems (Dimension.zero S) passed) (itemsOf pieces) := by
  obtain ⟨more, rest, hsplit, hsplits, held, nearest, reaches⟩ := h.splits hitems
  have hall : AllSkipped walk (addItems (Dimension.zero S) passed) more := by
    intro front y back hmore
    by_contra hkept
    have hfront : itemsOf pieces = front ++ y :: (back ++ rest) := by
      rw [hsplit, hmore]
      simp
    have hreach := nearest _ _ _
      (reaches_of_kept bound hbelow hadds hfaithful hfront (by simpa using hkept))
    rw [hmore, length_append, length_cons] at hreach
    omega
  refine ⟨more, rest, hsplit, hsplits, held, ?_⟩
  rw [hsplit]
  cases rest with
  | nil => rw [append_nil, hall.skippedItems_eq]
  | cons x rest => rw [hall.skippedItems_cons (reaches x rest rfl).kept]

theorem Faces.position (h : cursor.Faces passed pieces) :
    cursor.position = addItems (Dimension.zero S) passed := by
  cases h with
  | fresh h => exact h.position
  | atItem h => exact h.position
  | atEnd h => exact h.position

theorem Faces.below (h : cursor.Faces passed pieces) (hexact : cursor.tree.Exact depth) :
    Piece.Below depth pieces := by
  cases h with
  | fresh => exact hexact.pieces_below
  | atItem h =>
    intro node hnode
    rcases mem_cons.1 hnode with hitem | hbehind
    · cases hitem
    · exact (h.stands.pieces_below hexact).1 node hbehind
  | atEnd => exact nofun

omit [Item T S] in
theorem fresh_new (tree : Node T S) : (new tree : Cursor T S D).Fresh := ⟨rfl, rfl, rfl, rfl⟩

omit [Item T S] in
theorem fresh_reset (cursor : Cursor T S D) : cursor.reset.Fresh := ⟨rfl, rfl, rfl, rfl⟩

section Motions

variable (h : cursor.Faces passed pieces) (hseekable : cursor.tree.Seekable xs) (bias : Bias)
  (hge : (target (addItems (Dimension.zero S) passed)).isGE)
  (hadds : (Walk.seek target bias : Walk D S).Adds xs)
include h hseekable hge hadds

/-- A seek forward walks over the pieces before the cursor. -/
theorem Faces.seekInternal (collector : Collector agg) (hbetween : collector.Between aggregate []) :
    ∃ found moved aggregate',
      cursor.seekInternal target bias agg aggregate = some (found, moved, aggregate') ∧
      moved.tree = cursor.tree ∧
      moved.Lands collector.Between (Walk.seek target bias) passed pieces aggregate' := by
  obtain ⟨stack, hstack, entries, position, aggregate', hresume, houtcome⟩ :=
    h.resume hseekable collector (Walk.seek target bias) hadds hbetween
  have hitems := h.items_eq
  let moved : Cursor T S D :=
    { cursor with stack := entries, position, didSeek := true, atEnd := entries.isEmpty }
  have hlands : moved.Lands collector.Between (Walk.seek target bias) passed pieces aggregate' :=
    lands_of_outcome rfl rfl hitems houtcome
  obtain ⟨more, rest, -, hsplits, -⟩ := hlands.splits hitems
  have hend := hsplits.end_ hseekable.holds
  rw [← h.position] at hge
  have hseek : ∃ found, cursor.seekInternal target bias agg aggregate =
      some (found, moved, aggregate') := by
    rw [Cursor.seekInternal, if_pos hge]
    simp only [hstack, hresume, Option.bind_eq_bind, Option.bind_some]
    split
    · simp only [moved] at hend
      rw [hend]
      exact ⟨_, rfl⟩
    · exact ⟨_, rfl⟩
  obtain ⟨found, hseek⟩ := hseek
  exact ⟨found, moved, aggregate', hseek, rfl, hlands⟩

/-! ## The motions of the source -/

/-- `Cursor::seek_forward`. -/
theorem Faces.seekForward : ∃ found moved, cursor.seekForward target bias = some (found, moved) ∧
      moved.tree = cursor.tree ∧
      moved.Lands (fun (_ : PUnit.{u + 1}) (_ : List T) => True) (Walk.seek target bias) passed
        pieces ⟨⟩ := by
  obtain ⟨found, moved, _, hseek, htree, hlands⟩ :=
    h.seekInternal hseekable bias hge hadds Collector.unit trivial
  exact ⟨found, moved, by rw [Cursor.seekForward, hseek]; rfl, htree, hlands⟩

/-- `Cursor::slice`: the tree it returns holds the items that the cursor passes. -/
theorem Faces.slice :
    ∃ moved slice, cursor.slice target bias = some (moved, slice) ∧ moved.tree = cursor.tree ∧
      moved.Lands Node.Holds (Walk.seek target bias) passed pieces slice := by
  have hempty : Collector.slice.Between (SliceSeekAggregate.empty : SliceSeekAggregate T S) [] :=
    ⟨Node.new, Node.holds_new, rfl⟩
  obtain ⟨found, moved, aggregate, hseek, htree, hatEnd, houtcome⟩ :=
    h.seekInternal hseekable bias hge hadds Collector.slice hempty
  refine ⟨moved, aggregate.tree, by rw [Cursor.slice, hseek]; rfl, htree, hatEnd, ?_⟩
  refine houtcome.imp_held ?_
  rintro xs - ⟨tree, htree, rfl⟩
  exact htree

/-- `Cursor::summary`. -/
theorem Faces.summary (O : Type u) [LawfulDimension O S] :
    ∃ moved summary, cursor.summary O target bias = some (moved, summary) ∧
      moved.tree = cursor.tree ∧
      moved.Lands (fun summary more => summary = addItems (Dimension.zero S) more)
        (Walk.seek target bias) passed pieces summary := by
  have hempty : Collector.summary.Between (Dimension.zero S : O) ([] : List T) := rfl
  obtain ⟨found, moved, aggregate, hseek, htree, hlands⟩ :=
    h.seekInternal hseekable bias hge hadds Collector.summary hempty
  exact ⟨moved, aggregate, by rw [Cursor.summary, hseek]; rfl, htree, hlands⟩

variable {bias}
  (hahead : Ahead target bias (addItems (Dimension.zero S) passed) (itemsOf pieces))
include hahead

/-- `Cursor::slice` passes the items that the target is behind. -/
theorem Faces.slice_ahead :
    ∃ moved slice more rest, cursor.slice target bias = some (moved, slice) ∧
      moved.tree = cursor.tree ∧ itemsOf pieces = more ++ rest ∧
      moved.Splits (passed ++ more) rest ∧ slice.Holds more ∧
      more = skippedItems (Walk.seek target bias) (addItems (Dimension.zero S) passed)
        (itemsOf pieces) := by
  obtain ⟨moved, slice, hslice, htree, hlands⟩ := h.slice hseekable bias hge hadds
  obtain ⟨depth, hexact⟩ := hseekable.holds.1
  have haddsPieces := hadds.mono (h.itemsOf_subset hseekable.holds)
  obtain ⟨more, rest, hsplit, hsplits, hheld, hmore⟩ := hlands.splits_skipped (h.below hexact)
    haddsPieces (faithful_seek hahead) (by rw [htree, h.items_eq])
  exact ⟨moved, slice, more, rest, hslice, htree, hsplit, hsplits, hheld, hmore⟩

end Motions

/-- The pieces that a search forward has before it: what the cursor points at is passed. -/
inductive Follows (cursor : Cursor T S D) : List T → List (Piece T S) → Prop
  | start (hstack : cursor.stack = []) (hposition : cursor.position = Dimension.zero S)
      (hatEnd : cursor.atEnd = cursor.tree.isEmpty) : Follows cursor [] cursor.tree.pieces
  | atItem {before : List T} {x : T} {behind : List (Piece T S)}
      (h : cursor.AtItem before x behind) : Follows cursor (before ++ [x]) behind
  | atEnd (h : cursor.AtEnd) : Follows cursor cursor.tree.items []

section Follows

variable (h : cursor.Follows passed pieces)
include h

theorem Follows.items_eq : cursor.tree.items = passed ++ itemsOf pieces := by
  cases h with
  | start => simp
  | atItem h => rw [h.stands.items_eq]; simp
  | atEnd => simp

theorem Follows.below (hexact : cursor.tree.Exact depth) : Piece.Below depth pieces := by
  cases h with
  | start => exact hexact.pieces_below
  | atItem h => exact (h.stands.pieces_below hexact).1
  | atEnd => exact nofun

/-- At the end of the items there is nothing to search. -/
theorem Follows.itemsOf_eq_nil (hholds : cursor.tree.Holds xs) (hatEnd : cursor.atEnd = true) :
    itemsOf pieces = [] := by
  cases h with
  | start _ _ hempty =>
    obtain ⟨depth, hexact⟩ := hholds.1
    rw [Node.itemsOf_pieces]
    exact hexact.isEmpty_iff.1 (hempty.symm.trans hatEnd)
  | atItem h => exact absurd hatEnd (by simp [h.atEnd])
  | atEnd => rfl

/-- The loop of a search goes over the pieces behind what the cursor points at. -/
theorem Follows.resume (hseekable : cursor.tree.Seekable xs) (walk : Walk D S)
    (hadds : walk.Adds xs) :
    Walked Collector.unit walk [] (addItems (Dimension.zero S) passed) pieces
      (fun entries more y rest =>
        Stands (Dimension.zero S) cursor.tree entries (passed ++ more) y rest)
      (SumTree.resume walk (SeekAggregate.unit T S) (!(cursor.stack.isEmpty && !cursor.atEnd))
        stackCapacity
          (if cursor.stack.isEmpty && !cursor.atEnd then [cursor.rootEntry] else cursor.stack)
        cursor.position ⟨⟩) := by
  cases h with
  | start hstack hposition hatEnd =>
    rw [hstack, hposition, hatEnd]
    cases hempty : cursor.tree.isEmpty with
    | true =>
      obtain ⟨depth, hexact⟩ := hseekable.holds.1
      have hitems : cursor.tree.items = [] := hexact.isEmpty_iff.1 hempty
      have hnowhere : ∀ before x after,
          ¬ Reaches walk (Dimension.zero S) cursor.tree.pieces before x after := by
        intro before x after hreach
        have hsplit := hreach.itemsOf_eq
        simp [hitems] at hsplit
      refine ⟨[], _, ⟨⟩, ?_, .exhausted hnowhere trivial⟩
      simp [SumTree.resume, hitems]
    | false =>
      simp only [SumTree.resume, rootEntry, walkEntry_root, isEmpty_nil, Bool.not_false,
        Bool.and_self, if_true, Bool.not_true]
      exact walkRoot_walked Collector.unit walk hadds hseekable (by simpa using hseekable.length_lt)
        trivial
  | atItem h =>
    have hitems := hseekable.holds.2.symm.trans h.stands.items_eq
    obtain ⟨depth, hlow, hfilled⟩ := hseekable.filled (by rw [hitems]; simp)
    have hne : cursor.stack.isEmpty = false := by simpa using h.stands.ne_nil
    have hfew := hseekable.length_lt
    rw [hitems, length_append, length_cons] at hfew
    rw [hne, h.position]
    rw [← hseekable.holds.2] at hadds
    refine resume_walked Collector.unit walk hadds hfilled hlow h.stands true ?_ trivial
    simp only [pendingPieces, if_true, nil_append]
    omega
  | atEnd h =>
    rw [h.stack, h.atEnd, h.position]
    exact ⟨[], _, ⟨⟩, rfl, .exhausted (fun _ _ _ => not_reaches_nil) trivial⟩

/-- `Cursor::search_forward` walks over the pieces behind what the cursor points at. -/
theorem Follows.searchForward (hseekable : cursor.tree.Seekable xs) (filterNode : S → Bool)
    (hadds : (Walk.search D filterNode).Adds xs) :
    ∃ moved, cursor.searchForward filterNode = some moved ∧ moved.tree = cursor.tree ∧
      moved.Lands (fun (_ : PUnit.{u + 1}) (_ : List T) => True) (Walk.search D filterNode)
        passed pieces ⟨⟩ := by
  obtain ⟨entries, position, _, hresume, houtcome⟩ :=
    h.resume hseekable (Walk.search D filterNode) hadds
  let moved : Cursor T S D :=
    { cursor with
      stack := entries
      position
      didSeek := cursor.didSeek || cursor.stack.isEmpty
      atEnd := if entries.isEmpty then true else cursor.atEnd }
  refine ⟨moved, ?_, rfl, lands_of_outcome ?_ ?_ h.items_eq houtcome⟩
  · rw [Cursor.searchForward]
    simp only [hresume]
    rfl
  · cases h with
    | start hstack => simp [moved, hstack]
    | atItem h => simp [moved, h.didSeek]
    | atEnd h => simp [moved, h.didSeek]
  · cases houtcome with
    | exhausted => rfl
    | stopped reaches _ _ ne_nil =>
      have hatEnd : cursor.atEnd = false := by
        by_contra hatEnd
        have hsplit := reaches.itemsOf_eq
        simp [h.itemsOf_eq_nil hseekable.holds (by simpa using hatEnd)] at hsplit
      simp [moved, hatEnd, ne_nil]

end Follows

theorem Splits.follows_cons (h : cursor.Splits passed (x :: rest)) :
    ∃ pieces, cursor.Follows (passed ++ [x]) pieces ∧ itemsOf pieces = rest := by
  cases h with
  | atItem h => exact ⟨_, .atItem h, rfl⟩

/-- `Cursor::next` passes what the cursor points at, and nothing else. -/
theorem Follows.next (h : cursor.Follows passed pieces) (hseekable : cursor.tree.Seekable xs) :
    ∃ moved, cursor.next = some moved ∧ moved.tree = cursor.tree ∧
      moved.Splits passed (itemsOf pieces) := by
  have hadds (ys : List T) : (Walk.search D fun _ : S => true).Adds ys :=
    fun _ _ _ _ _ hskip => nomatch hskip
  obtain ⟨moved, hmoved, htree, hlands⟩ := h.searchForward hseekable (fun _ => true) (hadds xs)
  obtain ⟨depth, hexact⟩ := hseekable.holds.1
  have hitems : moved.tree.items = passed ++ itemsOf pieces := by
    rw [htree, h.items_eq]
  obtain ⟨more, rest, hsplit, hsplits, -, hmore⟩ :=
    hlands.splits_skipped (h.below hexact) (hadds _) (faithful_next _ _) hitems
  refine ⟨moved, hmoved, htree, ?_⟩
  -- nothing is skipped
  obtain rfl : more = [] := by
    rw [hmore]
    cases itemsOf pieces with
    | nil => rfl
    | cons y ys => rfl
  rwa [hsplit, nil_append, ← append_nil passed]

/-- `Cursor::next` passes one item. -/
theorem Splits.next (h : cursor.Splits passed (x :: rest)) (hseekable : cursor.tree.Seekable xs) :
    ∃ moved, cursor.next = some moved ∧ moved.tree = cursor.tree ∧
      moved.Splits (passed ++ [x]) rest := by
  obtain ⟨pieces, hfollows, rfl⟩ := h.follows_cons
  exact hfollows.next hseekable

/-- The loop of a seek that stops nowhere goes over all pieces before the cursor. -/
theorem Faces.passesAll (h : cursor.Faces passed pieces) (hseekable : cursor.tree.Seekable xs)
    (collector : Collector agg) (hskip : ∀ position summary, walk.skip position summary = true)
    (hbetween : collector.Between aggregate []) :
    ∃ stack, cursor.seekStack = some stack ∧
      PassesAll collector [] (itemsOf pieces)
        (SumTree.resume walk agg false stackCapacity stack cursor.position aggregate) := by
  have hfew := hseekable.length_lt
  cases h with
  | fresh h =>
    refine ⟨[cursor.rootEntry], by rw [seekStack, h.didSeek, h.stack]; rfl, ?_⟩
    rw [SumTree.resume, rootEntry, h.position, walkEntry_root, Node.itemsOf_pieces,
      hseekable.holds.2]
    exact walkRoot_passesAll collector hskip hseekable (by simpa using hfew) hbetween
  | atItem h =>
    have hitems := hseekable.holds.2.symm.trans h.stands.items_eq
    obtain ⟨depth, -, hfilled⟩ := hseekable.filled (by rw [hitems]; simp)
    refine ⟨cursor.stack, by rw [seekStack, h.didSeek, if_pos rfl], ?_⟩
    refine resume_passesAll collector hskip hfilled h.stands ?_ hbetween
    rw [hitems, length_append] at hfew
    simpa using (Nat.le_add_left _ _).trans_lt hfew
  | atEnd h =>
    refine ⟨[], by rw [seekStack, h.didSeek, h.stack, if_pos rfl], ?_⟩
    exact ⟨_, _, SumTree.resume.eq_1 .., by simpa using hbetween⟩

/-- `Cursor::suffix` returns all items before the cursor, whatever the dimension is. -/
theorem Faces.suffix (h : cursor.Faces passed pieces) (hseekable : cursor.tree.Seekable xs) :
    ∃ moved suffix, cursor.suffix = some (moved, suffix) ∧ suffix.Holds (itemsOf pieces) := by
  have hempty : Collector.slice.Between (SliceSeekAggregate.empty : SliceSeekAggregate T S) [] :=
    ⟨Node.new, Node.holds_new, rfl⟩
  have hskip : ∀ position summary,
      (Walk.seek endTarget .right : Walk D S).skip position summary = true := fun _ _ => rfl
  obtain ⟨stack, hstack, position, aggregate, hresume, tree, htree, rfl⟩ :=
    h.passesAll hseekable Collector.slice hskip hempty
  let moved : Cursor T S D := { cursor with stack := [], position, didSeek := true, atEnd := true }
  refine ⟨moved, tree, ?_, htree⟩
  have hahead : (endTarget cursor.position).isGE = true := rfl
  rw [Cursor.suffix, Cursor.slice, Cursor.seekInternal, if_pos hahead, hstack, some_do, hresume]
  rfl

/-! ## Trees that are too high -/

section Leaves

variable {moved : Cursor T S D}

/-- Where a walk ends, the cursor faces the rest of the pieces. -/
theorem Lands.faces {Held : A → List T → Prop} {walk : Walk D S}
    (h : cursor.Lands Held walk passed pieces aggregate)
    (hitems : cursor.tree.items = passed ++ Piece.itemsOf pieces) :
    ∃ passed pieces, cursor.Faces passed pieces := by
  obtain ⟨more, rest, -, hsplits, -⟩ := h.splits hitems
  obtain ⟨rest, hfaces, -⟩ := hsplits.faces
  exact ⟨_, rest, hfaces⟩

omit [Item T S] in
/-- A seek returns only if its target is not before the position of the cursor. -/
theorem isGE_of_seekInternal {result : Bool × Cursor T S D × A}
    (h : cursor.seekInternal target bias agg aggregate = some result) :
    (target cursor.position).isGE = true := by
  rw [Cursor.seekInternal] at h
  split at h
  · assumption
  · cases h

section Faces

variable (h : cursor.Faces passed pieces) (hseekable : cursor.tree.Seekable xs) {found : Bool}
  (hadds : (Walk.seek target bias : Walk D S).Adds xs)
include h hseekable hadds

/-- A seek leaves the cursor in front of pieces of its tree. -/
theorem Faces.of_seekInternal (collector : Collector agg) {aggregate' : A}
    (hbetween : collector.Between aggregate [])
    (hseek : cursor.seekInternal target bias agg aggregate = some (found, moved, aggregate')) :
    moved.tree = cursor.tree ∧ ∃ passed pieces, moved.Faces passed pieces := by
  have hge : (target (addItems (Dimension.zero S) passed)).isGE := by
    rw [← h.position]
    exact isGE_of_seekInternal hseek
  obtain ⟨found', moved', aggregate'', hseek', htree, hlands⟩ :=
    h.seekInternal hseekable bias hge hadds collector hbetween
  obtain ⟨-, rfl, -⟩ : found' = found ∧ moved' = moved ∧ aggregate'' = aggregate' := by
    simpa using hseek'.symm.trans hseek
  exact ⟨htree, hlands.faces (by rw [htree, h.items_eq])⟩

theorem Faces.of_seekForward (hseek : cursor.seekForward target bias = some (found, moved)) :
    moved.tree = cursor.tree ∧ ∃ passed pieces, moved.Faces passed pieces := by
  simp only [Cursor.seekForward, do_eq_some] at hseek
  obtain ⟨⟨found', moved', aggregate⟩, hseek, ⟨⟩⟩ := hseek
  exact h.of_seekInternal hseekable hadds Collector.unit trivial hseek

theorem Faces.of_slice {slice : Node T S}
    (hslice : cursor.slice target bias = some (moved, slice)) :
    moved.tree = cursor.tree ∧ ∃ passed pieces, moved.Faces passed pieces := by
  simp only [Cursor.slice, do_eq_some] at hslice
  obtain ⟨⟨found, moved', aggregate⟩, hseek, ⟨⟩⟩ := hslice
  exact h.of_seekInternal hseekable hadds Collector.slice ⟨Node.new, Node.holds_new, rfl⟩ hseek

theorem Faces.of_summary {O : Type u} [LawfulDimension O S] {summary : O}
    (hsummary : cursor.summary O target bias = some (moved, summary)) :
    moved.tree = cursor.tree ∧ ∃ passed pieces, moved.Faces passed pieces := by
  simp only [Cursor.summary, do_eq_some] at hsummary
  obtain ⟨⟨found, moved', aggregate⟩, hseek, ⟨⟩⟩ := hsummary
  exact h.of_seekInternal hseekable hadds Collector.summary rfl hseek

end Faces

end Leaves

end Cursor

end XorEditor.SumTree
