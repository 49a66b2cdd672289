import XorEditor.SumTree.Node

/-!
# Appending sum trees

`SumTree::append` and the functions below it.  A node that outgrows its capacity is split in
two halves; the panics of the source (a full array, a leaf where an inner node is expected)
are the value `none`.

* `append`: the append
* `Holds`: a tree that is well formed and has the given items
* `Holds.append`: the items of an append
-/

namespace XorEditor.SumTree.Node

open Lib List

universe u

variable {T S : Type u} [Summary S] [Item T S]

/-- The number of children that the left one of two halves gets. -/
def midpoint (childCount : Nat) : Nat := (childCount + childCount % 2) / 2

/-- Two leaves with half of the items each. -/
def splitLeaf (items : List T) (itemSummaries : List S) :
    Option (Node T S × Node T S) := do
  let middle := midpoint items.length
  let left ← leaf? (sum (itemSummaries.take middle)) (items.take middle)
    (itemSummaries.take middle)
  let right ← leaf? (sum (itemSummaries.drop middle)) (items.drop middle)
    (itemSummaries.drop middle)
  return (left, right)

/-- Two inner nodes with half of the children each. -/
def splitInternal (height : Nat) (childSummaries : List S) (childTrees : List (Node T S)) :
    Option (Node T S × Node T S) := do
  let middle := midpoint childTrees.length
  let left ← internal? height (sum (childSummaries.take middle)) (childSummaries.take middle)
    (childTrees.take middle)
  let right ← internal? height (sum (childSummaries.drop middle)) (childSummaries.drop middle)
    (childTrees.drop middle)
  return (left, right)

/-- Put children behind those of an inner node; a node that overflows is split. -/
def pushChildren (height : Nat) (summary : S) (childSummaries : List S)
    (childTrees : List (Node T S)) (summariesToAppend : List S)
    (treesToAppend : List (Node T S)) : Option (Node T S × Option (Node T S)) := do
  if childTrees.length + treesToAppend.length > 2 * treeBase then
    let (left, right) ← splitInternal height (childSummaries ++ summariesToAppend)
      (childTrees ++ treesToAppend)
    return (left, some right)
  else
    let node ← internal? height summary (childSummaries ++ summariesToAppend)
      (childTrees ++ treesToAppend)
    return (node, none)

/-- `SumTree::push_tree_recursive`: the tree with the other one pushed into it, and what it
has split off. -/
def pushTreeRecursive (self other : Node T S) : Option (Node T S × Option (Node T S)) :=
  match self with
  | leaf summary items itemSummaries => do
    let otherItems ← other.items?
    if items.length + otherItems.length > 2 * treeBase then
      let (left, right) ← splitLeaf (items ++ otherItems)
        (itemSummaries ++ other.childSummaries)
      return (left, some right)
    else
      let node ← leaf? (summary + other.summary) (items ++ otherItems)
        (itemSummaries ++ other.childSummaries)
      return (node, none)
  | internal height summary childSummaries childTrees =>
    if height < other.height then none
    else if height = other.height then do
      let otherTrees ← other.childTrees?
      pushChildren height (summary + other.summary) childSummaries childTrees
        other.childSummaries otherTrees
    else if height = other.height + 1 ∧ other.isUnderflowing = false then
      pushChildren height (summary + other.summary) childSummaries childTrees
        [other.summary] [other]
    else
      match _hlast : childTrees.getLast? with
      | none => none
      | some last => do
        let (last, split) ← pushTreeRecursive last other
        pushChildren height (summary + other.summary)
          (childSummaries.dropLast ++ [last.summary]) (childTrees.dropLast ++ [last])
          (split.toList.map Node.summary) split.toList
termination_by sizeOf self
decreasing_by
  have hmem := mem_of_getLast? _hlast
  have hsize := sizeOf_lt_of_mem hmem
  simp only [internal.sizeOf_spec]
  omega

/-- `SumTree::merge_into_right`: the large node with the small one of the same height in front
of its own data, and in front of it the left half if both do not fit. -/
def mergeIntoRight (small large : Node T S) : Option (Node T S × Option (Node T S)) :=
  match small, large with
  | internal _ smallSummary smallChildSummaries smallChildTrees,
    internal height summary childSummaries childTrees => do
      if childTrees.length + smallChildTrees.length ≤ 2 * treeBase then
        let node ← internal? height (smallSummary + summary)
          (smallChildSummaries ++ childSummaries) (smallChildTrees ++ childTrees)
        return (node, none)
      else
        let (left, right) ← splitInternal height (smallChildSummaries ++ childSummaries)
          (smallChildTrees ++ childTrees)
        return (right, some left)
  | leaf smallSummary smallItems smallItemSummaries, leaf summary items itemSummaries => do
    if smallItems.length + items.length ≤ 2 * treeBase then
      let node ← leaf? (smallSummary + summary) (smallItems ++ items)
        (smallItemSummaries ++ itemSummaries)
      return (node, none)
    else
      let (left, right) ← splitLeaf (smallItems ++ items) (smallItemSummaries ++ itemSummaries)
      return (right, some left)
  | _, _ => none

/-- Put a tree in front of the children of an inner node; a full node gives away the tree and
its first children. -/
def pushFront (height : Nat) (summary : S) (childSummaries : List S) (childTrees : List (Node T S))
    (tree : Node T S) :
    Option (Node T S × Option (Node T S)) := do
  if childTrees.length < 2 * treeBase then
    let node ← internal? height summary (tree.summary :: childSummaries) (tree :: childTrees)
    return (node, none)
  else
    let front ← internal? height (sum (tree.summary :: childSummaries.take treeBase))
      (tree.summary :: childSummaries.take treeBase) (tree :: childTrees.take treeBase)
    let node ← internal? height (sum (childSummaries.drop treeBase))
      (childSummaries.drop treeBase) (childTrees.drop treeBase)
    return (node, some front)

/-- `SumTree::append_large`: the large tree with the small one in front of it, and what has to
stand in front of that. -/
def appendLarge (small large : Node T S) : Option (Node T S × Option (Node T S)) :=
  if small.height = large.height then
    if small.isUnderflowing = false then some (large, some small)
    else mergeIntoRight small large
  else
    match large with
    | leaf .. => none
    | internal height summary childSummaries childTrees =>
      match _hfirst : childTrees.head? with
      | none => none
      | some first => do
        let (first, res) ← appendLarge small first
        let childSummaries := first.summary :: childSummaries.tail
        let childTrees := first :: childTrees.tail
        match res with
        | some tree => pushFront height (small.summary + summary) childSummaries childTrees tree
        | none =>
          let node ← internal? height (small.summary + summary) childSummaries childTrees
          return (node, none)
termination_by sizeOf large
decreasing_by
  have hmem := mem_of_head? _hfirst
  have hsize := sizeOf_lt_of_mem hmem
  simp only [internal.sizeOf_spec]
  omega

/-- `SumTree::from_child_trees`, which panics if the height is no longer a byte. -/
def fromChildTrees (left right : Node T S) : Option (Node T S) :=
  if left.height < maxHeight then
    internal? (left.height + 1) (sum [left.summary, right.summary]) [left.summary, right.summary]
      [left, right]
  else none

/-- `SumTree::append`. -/
def append (self other : Node T S) : Option (Node T S) :=
  if self.isEmpty then some other
  else if other.isEmpty then some self
  else if self.height < other.height then do
    match ← appendLarge self other with
    | (other, some tree) => fromChildTrees tree other
    | (other, none) => return other
  else do
    match ← pushTreeRecursive self other with
    | (node, some split) => fromChildTrees node split
    | (node, none) => return node

/-- `SumTree::new`. -/
def new : Node T S := leaf 0 [] []

/-- `SumTree::push`. -/
def push (self : Node T S) (item : T) : Option (Node T S) :=
  self.append (leaf (Item.summary item) [item] [Item.summary item])

/-! ## Correctness -/

/-- The tree holds items and all of its nodes are exact. -/
structure Filled (depth : Nat) (node : Node T S) : Prop where
  exact : Exact depth node
  isEmpty : node.isEmpty = false

section Correctness

variable {depth : Nat} {node other left right : Node T S} {trees : List (Node T S)} {xs : List T}

theorem Filled.items_ne_nil (h : Filled depth node) : node.items ≠ [] :=
  h.exact.items_ne_nil h.isEmpty

theorem Filled.summaries_ne_nil (h : Filled depth node) : node.items.map Item.summary ≠ [] := by
  simpa using h.items_ne_nil

/-- The sum of the summaries of trees is that of their items. -/
theorem sum_summaries (h : ∀ tree ∈ trees, Filled depth tree) :
    sum (trees.map Node.summary) = sum ((itemsOf trees).map Item.summary) := by
  have hparts : trees.map Node.summary = trees.map fun tree => sum (tree.items.map Item.summary) :=
    map_congr_left fun tree htree => (h tree htree).exact.summary_eq
  rw [hparts, sum_flatMap _ _ fun tree htree => (h tree htree).summaries_ne_nil,
    itemsOf_eq_flatMap, map_flatMap]

variable {summary : S} {itemSummaries childSummaries : List S} {n depth' : Nat}

theorem filled_leaf (hne : xs ≠ []) (hlength : xs.length ≤ 2 * treeBase)
    (hsummaries : itemSummaries = xs.map Item.summary) (hsummary : summary = sum itemSummaries) :
    Filled 0 (leaf summary xs itemSummaries) :=
  ⟨⟨hlength, hsummaries, hsummary⟩, by simpa [Node.isEmpty] using hne⟩

/-- A leaf that fits. -/
theorem leaf?_filled (hne : xs ≠ []) (hlength : xs.length ≤ 2 * treeBase)
    (hsummaries : itemSummaries = xs.map Item.summary)
    (hsummary : summary = sum (xs.map Item.summary)) :
    ∃ node, leaf? summary xs itemSummaries = some node ∧ Filled 0 node ∧ node.items = xs := by
  refine ⟨leaf summary xs itemSummaries, if_pos ⟨hlength, ?_⟩,
    filled_leaf hne hlength hsummaries (hsummaries ▸ hsummary), items_leaf ..⟩
  rwa [hsummaries, length_map]

/-- An inner node that fits. -/
theorem internal?_filled (hfits : Fits (depth + 1) trees.length)
    (hsummaries : childSummaries = trees.map Node.summary)
    (hall : ∀ tree ∈ trees, Filled depth tree)
    (hsummary : summary = sum ((itemsOf trees).map Item.summary)) :
    ∃ node, internal? (depth + 1) summary childSummaries trees = some node ∧
      Filled (depth + 1) node ∧ node.items = itemsOf trees := by
  refine ⟨internal (depth + 1) summary childSummaries trees, if_pos ⟨hfits.2.2, ?_⟩,
    ⟨⟨rfl, hfits, hsummaries, ?_, fun tree htree =>
      ⟨(hall tree htree).exact, (hall tree htree).isEmpty⟩⟩, rfl⟩, items_internal ..⟩
  · rw [hsummary, hsummaries, sum_summaries hall]
  · rw [hsummaries, length_map]
    exact hfits.2.2

/-- Two lists that both fit are halved by the midpoint of their length. -/
theorem midpoint_bounds {childCount : Nat} (hover : 2 * treeBase < childCount)
    (hlength : childCount ≤ 4 * treeBase) :
    2 ≤ midpoint childCount ∧ midpoint childCount + 2 ≤ childCount ∧
      midpoint childCount ≤ 2 * treeBase ∧ childCount - midpoint childCount ≤ 2 * treeBase := by
  simp only [midpoint, treeBase] at *
  omega

theorem take_ne_nil {α : Type*} {l : List α} (hpos : 0 < n) (hn : n < l.length) : l.take n ≠ [] :=
  ne_nil_of_length_pos (by rw [length_take]; omega)

theorem drop_ne_nil {α : Type*} {l : List α} (hn : n < l.length) : l.drop n ≠ [] :=
  ne_nil_of_length_pos (by rw [length_drop]; omega)

/-- Some trees together hold the items. -/
structure Spread (depth : Nat) (xs : List T) (parts : List (Node T S)) : Prop where
  filled : ∀ tree ∈ parts, Filled depth tree
  items : itemsOf parts = xs

theorem Filled.spread (h : Filled depth node) (hitems : node.items = xs) : Spread depth xs [node] :=
  ⟨by simpa using h, by simpa using hitems⟩

theorem Filled.spread_pair (h : Filled depth left) (h' : Filled depth right)
    (hitems : left.items ++ right.items = xs) : Spread depth xs [left, right] :=
  ⟨by simp [h, h'], by simpa using hitems⟩

theorem splitLeaf_filled (hover : 2 * treeBase < xs.length) (hlength : xs.length ≤ 4 * treeBase)
    (hsummaries : itemSummaries = xs.map Item.summary) :
    ∃ left right, splitLeaf xs itemSummaries = some (left, right) ∧ Spread 0 xs [left, right] := by
  obtain ⟨hfront, hback, hleft, hright⟩ := midpoint_bounds hover hlength
  have hlt : midpoint xs.length < xs.length := by omega
  obtain ⟨left, hleft, hfilled, hitems⟩ := leaf?_filled
    (take_ne_nil (Nat.lt_of_lt_of_le Nat.zero_lt_two hfront) hlt)
    (by rw [length_take]; omega) rfl rfl
  obtain ⟨right, hright, hfilled', hitems'⟩ := leaf?_filled
    (drop_ne_nil hlt) (by rw [length_drop]; omega) rfl rfl
  refine ⟨left, right, ?_, hfilled.spread_pair hfilled' ?_⟩
  · rw [map_take, ← hsummaries] at hleft
    rw [map_drop, ← hsummaries] at hright
    simp only [splitLeaf, hleft, hright]
    rfl
  · rw [hitems, hitems', take_append_drop]

theorem splitInternal_filled (hover : 2 * treeBase < trees.length)
    (hlength : trees.length ≤ 4 * treeBase) (hsummaries : childSummaries = trees.map Node.summary)
    (hall : ∀ tree ∈ trees, Filled depth tree) :
    ∃ left right, splitInternal (depth + 1) childSummaries trees = some (left, right) ∧
      Spread (depth + 1) (itemsOf trees) [left, right] := by
  obtain ⟨hfront, hback, hleft, hright⟩ := midpoint_bounds hover hlength
  have htake : ∀ tree ∈ trees.take (midpoint trees.length), Filled depth tree :=
    fun tree htree => hall tree (mem_of_mem_take htree)
  have hdrop : ∀ tree ∈ trees.drop (midpoint trees.length), Filled depth tree :=
    fun tree htree => hall tree (mem_of_mem_drop htree)
  obtain ⟨left, hleft, hfilled, hitems⟩ := internal?_filled
    (fits_of_two_le (by rw [length_take]; omega) (by rw [length_take]; omega)) rfl htake rfl
  obtain ⟨right, hright, hfilled', hitems'⟩ := internal?_filled
    (fits_of_two_le (by rw [length_drop]; omega) (by rw [length_drop]; omega)) rfl hdrop rfl
  refine ⟨left, right, ?_, hfilled.spread_pair hfilled' ?_⟩
  · rw [← sum_summaries htake, map_take, ← hsummaries] at hleft
    rw [← sum_summaries hdrop, map_drop, ← hsummaries] at hright
    simp only [splitInternal, hleft, hright]
    rfl
  · rw [hitems, hitems', ← itemsOf_append, take_append_drop]

/-- Children put behind those of a node. -/
theorem pushChildren_spread {toAppend : List (Node T S)} (hfits : Fits (depth + 1) trees.length)
    (hlength' : toAppend.length ≤ 2 * treeBase)
    (hall : ∀ tree ∈ trees ++ toAppend, Filled depth tree)
    (hsummary : summary = sum ((itemsOf (trees ++ toAppend)).map Item.summary)) :
    ∃ node split, pushChildren (depth + 1) summary (trees.map Node.summary) trees
        (toAppend.map Node.summary) toAppend = some (node, split) ∧
      Spread (depth + 1) (itemsOf (trees ++ toAppend)) (node :: split.toList) := by
  have hlength := hfits.2.2
  unfold pushChildren
  split_ifs with hover
  · obtain ⟨left, right, hsplit, hspread⟩ := splitInternal_filled (by rwa [length_append])
      (by rw [length_append]; omega) map_append.symm hall
    exact ⟨left, some right, by rw [hsplit]; rfl, hspread⟩
  · obtain ⟨node, hnode, hfilled, hitems⟩ := internal?_filled
      (hfits.mono (by rw [length_append]; omega) (by rw [length_append]; omega))
      map_append.symm hall hsummary
    exact ⟨node, none, by rw [hnode]; rfl, hfilled.spread hitems⟩

/-- The summary of two trees side by side. -/
theorem summary_add (h : Filled depth node) (h' : Filled depth' other) :
    node.summary + other.summary = sum ((node.items ++ other.items).map Item.summary) := by
  rw [map_append, sum_append _ h'.summaries_ne_nil, h.exact.summary_eq, h'.exact.summary_eq]

theorem Filled.exists_leaf (h : Filled 0 node) :
    ∃ xs, node = leaf (sum (xs.map Item.summary)) xs (xs.map Item.summary) ∧ xs ≠ [] ∧
      xs.length ≤ 2 * treeBase := by
  cases node with
  | leaf summary items itemSummaries =>
    obtain ⟨hlength, rfl, rfl⟩ := h.exact
    exact ⟨items, rfl, by simpa [Node.isEmpty] using h.isEmpty, hlength⟩
  | internal => exact h.exact.elim

theorem Filled.exists_internal (h : Filled (depth + 1) node) :
    ∃ trees, node = internal (depth + 1) (sum (trees.map Node.summary)) (trees.map Node.summary)
        trees ∧
      Fits (depth + 1) trees.length ∧ ∀ tree ∈ trees, Filled depth tree := by
  cases node with
  | leaf => exact h.exact.elim
  | internal height summary childSummaries childTrees =>
    obtain ⟨rfl, hfits, rfl, rfl, hall⟩ := h.exact
    exact ⟨childTrees, rfl, hfits, fun tree htree =>
      ⟨(hall tree htree).1, (hall tree htree).2⟩⟩

/-- The children of a tree around one of them. -/
theorem Filled.internal_split {height : Nat} {summary : S} {childSummaries : List S}
    {tree : Node T S} {left right : List (Node T S)}
    (h : Filled depth (internal height summary childSummaries trees))
    (split : trees = left ++ tree :: right) : ∃ below, depth = below + 1 ∧ height = below + 1 ∧
      childSummaries = trees.map Node.summary ∧ summary = sum childSummaries ∧
      (∀ tree ∈ left, Filled below tree) ∧ Filled below tree ∧
      ∀ tree ∈ right, Filled below tree := by
  obtain ⟨below, rfl, rfl, -, rfl, rfl, hall⟩ := exact_internal.1 h.exact
  have hfilled : ∀ tree ∈ trees, Filled below tree := fun tree htree =>
    ⟨(hall tree htree).1, (hall tree htree).2⟩
  rw [split, forall_mem_append, forall_mem_cons] at hfilled
  exact ⟨below, rfl, rfl, rfl, rfl, hfilled⟩

/-- Leaves are pushed into each other. -/
theorem pushTreeRecursive_leaf (h : Filled 0 node) (h' : Filled 0 other) :
    ∃ grown split, node.pushTreeRecursive other = some (grown, split) ∧
      Spread 0 (node.items ++ other.items) (grown :: split.toList) := by
  have hsum := summary_add h h'
  obtain ⟨xs, rfl, hne, hlength⟩ := h.exists_leaf
  obtain ⟨ys, rfl, hne', hlength'⟩ := h'.exists_leaf
  simp only [items_leaf, summary_leaf] at hsum ⊢
  rw [pushTreeRecursive]
  simp only [items?, some_do, Node.childSummaries, summary_leaf]
  split_ifs with hover
  · obtain ⟨left, right, hsplit, hspread⟩ := splitLeaf_filled (by rwa [length_append])
      (by rw [length_append]; omega) map_append.symm
    exact ⟨left, some right, by rw [hsplit]; rfl, hspread⟩
  · obtain ⟨grown, hgrown, hfilled, hitems⟩ := leaf?_filled
      (append_ne_nil_of_left_ne_nil hne ys) (by rw [length_append]; omega)
      map_append.symm hsum
    exact ⟨grown, none, by rw [hgrown]; rfl, hfilled.spread hitems⟩

/-- A tree pushed into one that is not lower. -/
theorem pushTreeRecursive_spread (h : Filled depth node) (h' : Filled depth' other)
    (hle : depth' ≤ depth) : ∃ grown split, node.pushTreeRecursive other = some (grown, split) ∧
      Spread depth (node.items ++ other.items) (grown :: split.toList) := by
  induction depth generalizing node with
  | zero =>
    obtain rfl : depth' = 0 := Nat.le_zero.1 hle
    exact pushTreeRecursive_leaf h h'
  | succ depth ih =>
    have hsum := summary_add h h'
    obtain ⟨trees, rfl, hfits, hall⟩ := h.exists_internal
    have hheight := h'.exact.height_eq
    simp only [items_internal] at hsum ⊢
    rw [pushTreeRecursive]
    simp only [hheight]
    rw [if_neg (by omega)]
    split_ifs with hequal hchild
    · -- The children of the other tree become children of this one.
      obtain rfl : depth' = depth + 1 := hequal.symm
      obtain ⟨others, rfl, hfits', hall'⟩ := h'.exists_internal
      rw [items_internal, ← itemsOf_append] at hsum ⊢
      exact pushChildren_spread hfits hfits'.2.2 (forall_mem_append.2 ⟨hall, hall'⟩) hsum
    · -- The other tree becomes a child.
      obtain rfl : depth' = depth := by omega
      have hitems : itemsOf trees ++ other.items = itemsOf (trees ++ [other]) := by simp
      rw [hitems] at hsum ⊢
      exact pushChildren_spread hfits (by simp [treeBase])
        (forall_mem_append.2 ⟨hall, by simpa using h'⟩) hsum
    · -- The other tree is pushed into the last child.
      split
      · next hnone =>
          exact absurd (getLast?_eq_none_iff.1 hnone) (ne_nil_of_length_pos hfits.1)
      · next last hlast =>
          obtain ⟨init, rfl⟩ := getLast?_eq_some_iff.1 hlast
          rw [forall_mem_append, forall_mem_singleton] at hall
          obtain ⟨grown, split, hpush, hfilled, hitems⟩ := ih hall.2 (by omega)
          have hitems' : itemsOf (init ++ [last]) ++ other.items =
              itemsOf (init ++ [grown] ++ split.toList) := by
            simpa using hitems.symm
          rw [hitems'] at hsum ⊢
          have hsummaries : ((init ++ [last]).map Node.summary).dropLast ++ [grown.summary] =
              (init ++ [grown]).map Node.summary := by
            simp
          rw [hpush]
          simp only [some_do, dropLast_concat, hsummaries]
          refine pushChildren_spread (by simpa using hfits) ?_ ?_ hsum
          · cases split <;> simp [treeBase]
          · rw [append_assoc, forall_mem_append]
            exact ⟨hall.1, hfilled⟩

/-- Nodes of one height are merged. -/
theorem mergeIntoRight_spread (h : Filled depth node) (h' : Filled depth other) :
    ∃ grown front, node.mergeIntoRight other = some (grown, front) ∧
      Spread depth (node.items ++ other.items) (front.toList ++ [grown]) := by
  have hsum := summary_add h h'
  cases depth with
  | zero =>
    obtain ⟨xs, rfl, hne, hlength⟩ := h.exists_leaf
    obtain ⟨ys, rfl, hne', hlength'⟩ := h'.exists_leaf
    simp only [items_leaf, summary_leaf] at hsum ⊢
    rw [mergeIntoRight]
    split_ifs with hfits
    · obtain ⟨grown, hgrown, hfilled, hitems⟩ := leaf?_filled
        (append_ne_nil_of_left_ne_nil hne ys) (by rwa [length_append])
        map_append.symm hsum
      exact ⟨grown, none, by rw [hgrown]; rfl, hfilled.spread hitems⟩
    · have hover : 2 * treeBase < (xs ++ ys).length := by
        rw [length_append]
        omega
      obtain ⟨left, right, hsplit, hspread⟩ := splitLeaf_filled hover
        (by rw [length_append]; omega) map_append.symm
      exact ⟨right, some left, by rw [hsplit]; rfl, hspread⟩
  | succ depth =>
    obtain ⟨trees, rfl, hfits, hall⟩ := h.exists_internal
    obtain ⟨others, rfl, hfits', hall'⟩ := h'.exists_internal
    have hlength := hfits.2.2
    have hlength' := hfits'.2.2
    simp only [items_internal, summary_internal, ← itemsOf_append] at hsum ⊢
    have hboth := forall_mem_append.2 ⟨hall, hall'⟩
    rw [mergeIntoRight]
    split_ifs with hroom
    · obtain ⟨grown, hgrown, hfilled, hitems⟩ := internal?_filled
        (hfits.mono (by rw [length_append]; omega) (by rw [length_append]; omega))
        map_append.symm hboth hsum
      exact ⟨grown, none, by rw [hgrown]; rfl, hfilled.spread hitems⟩
    · obtain ⟨left, right, hsplit, hspread⟩ := splitInternal_filled
        (by rw [length_append]; omega) (by rw [length_append]; omega) map_append.symm hboth
      exact ⟨right, some left, by rw [hsplit]; rfl, hspread⟩

/-- A tree put in front of the children of a node. -/
theorem pushFront_spread (hfits : Fits (depth + 1) trees.length)
    (hall : ∀ tree ∈ node :: trees, Filled depth tree)
    (hsummary : summary = sum ((itemsOf (node :: trees)).map Item.summary)) :
    ∃ grown front, pushFront (depth + 1) summary (trees.map Node.summary) trees node =
        some (grown, front) ∧
      Spread (depth + 1) (itemsOf (node :: trees)) (front.toList ++ [grown]) := by
  have hlength := hfits.2.2
  unfold pushFront
  split_ifs with hroom
  · obtain ⟨grown, hgrown, hfilled, hitems⟩ := internal?_filled
      (hfits.mono (by rw [length_cons]; omega) (by rw [length_cons]; omega)) map_cons.symm hall
      hsummary
    exact ⟨grown, none, by rw [hgrown]; rfl, hfilled.spread hitems⟩
  · -- A full node: its first children go to the front with the tree.
    have hfront : ∀ tree ∈ node :: trees.take treeBase, Filled depth tree :=
      fun tree htree => hall tree (cons_subset_cons _ (take_subset _ _) htree)
    have hback : ∀ tree ∈ trees.drop treeBase, Filled depth tree :=
      fun tree htree => hall tree (mem_cons_of_mem _ (mem_of_mem_drop htree))
    have hfull : trees.length = 2 * treeBase := by omega
    have hfront' : (node :: trees.take treeBase).length = treeBase + 1 := by
      rw [length_cons, length_take, hfull, treeBase]
      rfl
    have hback' : (trees.drop treeBase).length = treeBase := by
      rw [length_drop, hfull, treeBase]
    obtain ⟨front, hfront', hfilled, hitems⟩ := internal?_filled
      (fits_of_two_le (by rw [hfront', treeBase]; omega) (by rw [hfront', treeBase]; omega)) rfl
      hfront rfl
    obtain ⟨grown, hgrown, hfilled', hitems'⟩ := internal?_filled
      (fits_of_two_le (by rw [hback', treeBase]; omega) (by rw [hback', treeBase]; omega)) rfl
      hback rfl
    refine ⟨grown, some front, ?_, hfilled.spread_pair hfilled' ?_⟩
    · rw [← sum_summaries hfront, map_cons, map_take] at hfront'
      rw [← sum_summaries hback, map_drop] at hgrown
      simp only [hfront', hgrown]
      rfl
    · rw [hitems, hitems', ← itemsOf_append, cons_append, take_append_drop]

/-- A tree put in front of one of the same height. -/
theorem appendLarge_same (h : Filled depth node) (h' : Filled depth other) :
    ∃ grown front, node.appendLarge other = some (grown, front) ∧
      Spread depth (node.items ++ other.items) (front.toList ++ [grown]) := by
  rw [appendLarge.eq_def, if_pos (by rw [h.exact.height_eq, h'.exact.height_eq])]
  split_ifs
  · exact ⟨other, some node, rfl, h.spread_pair h' rfl⟩
  · exact mergeIntoRight_spread h h'

/-- A tree put in front of one that is not lower. -/
theorem appendLarge_spread (h : Filled depth' node) (h' : Filled depth other)
    (hle : depth' ≤ depth) : ∃ grown front, node.appendLarge other = some (grown, front) ∧
      Spread depth (node.items ++ other.items) (front.toList ++ [grown]) := by
  induction depth generalizing other with
  | zero =>
    obtain rfl : depth' = 0 := Nat.le_zero.1 hle
    exact appendLarge_same h h'
  | succ depth ih =>
    by_cases hsame : depth' = depth + 1
    · subst hsame
      exact appendLarge_same h h'
    have hsum := summary_add h h'
    obtain ⟨trees, rfl, hfits, hall⟩ := h'.exists_internal
    simp only [items_internal, summary_internal] at hsum ⊢
    rw [appendLarge.eq_def, if_neg (by rwa [h.exact.height_eq, h'.exact.height_eq])]
    simp only
    split
    · next hnone => exact absurd (head?_eq_none_iff.1 hnone) (ne_nil_of_length_pos hfits.1)
    · next first hfirst =>
        obtain ⟨rest, rfl⟩ := head?_eq_some_iff.1 hfirst
        rw [forall_mem_cons] at hall
        obtain ⟨grown, front, hlarge, hfilled, hitems⟩ := ih hall.1 (by omega)
        rw [hlarge]
        simp only [some_do, map_cons, tail_cons]
        rw [itemsOf_cons, ← append_assoc, ← hitems, ← itemsOf_append] at hsum ⊢
        have hboth := forall_mem_append.2 ⟨hfilled, hall.2⟩
        cases front with
        | none =>
          have hfits' : Fits (depth + 1) (grown :: rest).length := hfits
          obtain ⟨node', hnode, hfilled, hitems'⟩ := internal?_filled hfits' rfl hboth hsum
          rw [map_cons, map_cons] at hnode
          exact ⟨node', none, by simp only [hnode]; rfl, hfilled.spread hitems'⟩
        | some tree => exact pushFront_spread hfits hboth hsum

/-- The tree holds the items, and all of its nodes are exact. -/
def Holds (node : Node T S) (xs : List T) : Prop := (∃ depth, Exact depth node) ∧ node.items = xs

/-- The tree holds the items, and a cursor has room on its stack for every path in it. -/
structure Seekable (node : Node T S) (xs : List T) : Prop where
  holds : node.Holds xs
  low : node.height < stackCapacity

theorem Filled.holds (h : Filled depth node) : node.Holds node.items := ⟨⟨depth, h.exact⟩, rfl⟩

theorem Spread.holds (h : Spread depth xs [node]) : node.Holds xs :=
  ⟨⟨depth, (h.filled node mem_cons_self).exact⟩, by simpa using h.items⟩

/-- So many items that the height of their tree may not fit into a byte. -/
def itemLimit : Nat := 2 ^ (maxHeight + 1 - stackCapacity)

/-- The operation returns a tree of the items, or it fails because they are too many. -/
def Returns (result : Option (Node T S)) (xs : List T) : Prop :=
  (∃ node, result = some node ∧ node.Holds xs) ∨ (result = none ∧ itemLimit ≤ xs.length)

theorem Returns.holds {result : Option (Node T S)} (h : Returns result xs)
    (hsome : result = some node) : node.Holds xs := by
  rcases h with ⟨node', hnode, hholds⟩ | ⟨hnone, -⟩
  · obtain rfl : node' = node := Option.some.inj (hnode.symm.trans hsome)
    exact hholds
  · cases hnone.symm.trans hsome

theorem Returns.exists_holds {result : Option (Node T S)} (h : Returns result xs)
    (hfew : xs.length < itemLimit) : ∃ node, result = some node ∧ node.Holds xs :=
  h.resolve_right fun hmany => absurd hmany.2 (Nat.not_le.2 hfew)

theorem fromChildTrees_returns (h : Spread depth xs [left, right]) :
    Returns (fromChildTrees left right) xs := by
  have hleft := h.filled left mem_cons_self
  by_cases hlow : depth < maxHeight
  · have hfits : Fits (depth + 1) [left, right].length :=
      fits_of_two_le (Nat.le_refl 2) (by simp [treeBase])
    obtain ⟨node, hnode, hfilled, hitems⟩ := internal?_filled hfits rfl h.filled rfl
    rw [← sum_summaries h.filled] at hnode
    refine .inl ⟨node, ?_, ⟨_, hfilled.exact⟩, hitems.trans h.items⟩
    rw [fromChildTrees, hleft.exact.height_eq, if_pos hlow]
    exact hnode
  · refine .inr ⟨by rw [fromChildTrees, hleft.exact.height_eq, if_neg hlow], ?_⟩
    calc itemLimit ≤ 2 ^ (depth + 1 - stackCapacity) :=
          Nat.pow_le_pow_right (by decide) (by omega)
      _ ≤ left.items.length := hleft.exact.two_pow_le hleft.isEmpty
      _ ≤ xs.length := by
          rw [← h.items, itemsOf_cons, length_append]
          omega

/-- `append` returns a tree of the items of both. -/
theorem Holds.append {ys : List T} (h : node.Holds xs) (h' : other.Holds ys) :
    Returns (node.append other) (xs ++ ys) := by
  obtain ⟨⟨depth, hexact⟩, rfl⟩ := h
  obtain ⟨⟨depth', hexact'⟩, rfl⟩ := h'
  unfold Node.append
  split_ifs with hempty hempty' hlower
  · refine .inl ⟨other, rfl, ⟨depth', hexact'⟩, ?_⟩
    rw [hexact.isEmpty_iff.1 hempty, nil_append]
  · refine .inl ⟨node, rfl, ⟨depth, hexact⟩, ?_⟩
    rw [hexact'.isEmpty_iff.1 hempty', append_nil]
  · have hnode : Filled depth node := ⟨hexact, by simpa using hempty⟩
    have hother : Filled depth' other := ⟨hexact', by simpa using hempty'⟩
    rw [hexact.height_eq, hexact'.height_eq] at hlower
    obtain ⟨grown, front, hlarge, hspread⟩ := appendLarge_spread hnode hother (Nat.le_of_lt hlower)
    rw [hlarge]
    cases front with
    | none => exact .inl ⟨grown, rfl, hspread.holds⟩
    | some tree => exact fromChildTrees_returns hspread
  · have hnode : Filled depth node := ⟨hexact, by simpa using hempty⟩
    have hother : Filled depth' other := ⟨hexact', by simpa using hempty'⟩
    rw [hexact.height_eq, hexact'.height_eq] at hlower
    obtain ⟨grown, split, hpush, hspread⟩ :=
      pushTreeRecursive_spread hnode hother (Nat.not_lt.1 hlower)
    rw [hpush]
    cases split with
    | none => exact .inl ⟨grown, rfl, hspread.holds⟩
    | some tree => exact fromChildTrees_returns hspread

theorem holds_new : (new : Node T S).Holds [] := ⟨⟨0, by simp [Exact, new]⟩, items_leaf ..⟩

theorem seekable_new : (new : Node T S).Seekable [] := ⟨holds_new, Nat.zero_lt_succ _⟩

/-- As many items as a tree that a cursor can walk has at most. -/
def seekLimit : Nat := (2 * treeBase) ^ stackCapacity

theorem Seekable.length_le (h : node.Seekable xs) : xs.length ≤ seekLimit := by
  obtain ⟨⟨⟨depth, hexact⟩, rfl⟩, hlow⟩ := h
  rw [hexact.height_eq] at hlow
  exact Nat.le_trans hexact.length_items_le (Nat.pow_le_pow_right (by decide) hlow)

theorem seekLimit_lt : 2 * seekLimit + 1 < itemLimit := by decide

theorem Seekable.length_lt (h : node.Seekable xs) : xs.length < itemLimit := by
  have hlength := h.length_le
  have hlimit := seekLimit_lt
  omega

theorem Holds.push (h : node.Holds xs) (item : T) : Returns (node.push item) (xs ++ [item]) := by
  refine h.append ⟨⟨0, ?_⟩, items_leaf ..⟩
  simp [Exact, treeBase]

end Correctness

end XorEditor.SumTree.Node
