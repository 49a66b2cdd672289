import XorEditor.SumTree.Append

/-!
# Building and updating sum trees

`SumTree::from_iter` and `from_par_iter` build a tree level by level; `update_first` and
`update_last` change one item and the summaries above it.

* `fromIter`, `fromParIter`: the trees of a list
* `fromIter_seekable`: such a tree holds its items and fits a cursor
-/

namespace XorEditor.SumTree

open Lib List

universe u

/-- A list cut into pieces as long as a node has room for. -/
def chunks {α : Type u} : List α → List (List α)
  | [] => []
  | x :: xs => (x :: xs).take (2 * treeBase) :: chunks ((x :: xs).drop (2 * treeBase))
termination_by xs => xs.length
decreasing_by
  rw [length_drop, length_cons, treeBase]
  omega

section Chunks

variable {α : Type u}

theorem chunks_nil : chunks ([] : List α) = [] := by rw [chunks]

theorem chunks_of_ne_nil {xs : List α} (h : xs ≠ []) :
    chunks xs = xs.take (2 * treeBase) :: chunks (xs.drop (2 * treeBase)) := by
  obtain ⟨x, rest, rfl⟩ := exists_cons_of_ne_nil h
  rw [chunks]

/-- Induction over the pieces of a list. -/
theorem chunks_induction {motive : List α → Prop} (nil : motive [])
    (cut : ∀ xs, xs ≠ [] → motive (xs.drop (2 * treeBase)) → motive xs) (xs : List α) :
    motive xs := by
  induction xs using chunks.induct with
  | case1 => exact nil
  | case2 x xs ih => exact cut _ (cons_ne_nil x xs) ih

theorem flatten_chunks (xs : List α) : (chunks xs).flatten = xs := by
  induction xs using chunks_induction with
  | nil => rw [chunks_nil, flatten_nil]
  | cut xs hne ih => rw [chunks_of_ne_nil hne, flatten_cons, ih, take_append_drop]

theorem mem_chunks {xs piece : List α} (h : piece ∈ chunks xs) :
    piece ≠ [] ∧ piece.length ≤ 2 * treeBase ∧ ∀ x ∈ piece, x ∈ xs := by
  induction xs using chunks_induction with
  | nil => simp [chunks_nil] at h
  | cut xs hne ih =>
    rw [chunks_of_ne_nil hne] at h
    rcases mem_cons.1 h with rfl | hrest
    · refine ⟨?_, by rw [length_take]; omega, fun x hx => mem_of_mem_take hx⟩
      have := length_pos_iff.2 hne
      rw [← length_pos_iff, length_take, treeBase]
      omega
    · obtain ⟨hpiece, hlength, hmem⟩ := ih hrest
      exact ⟨hpiece, hlength, fun x hx => mem_of_mem_drop (hmem x hx)⟩

/-- All pieces but the last are full. -/
theorem length_chunks_le (xs : List α) :
    2 * treeBase * (chunks xs).length ≤ xs.length + (2 * treeBase - 1) := by
  induction xs using chunks_induction with
  | nil => simp [chunks_nil]
  | cut xs hne ih =>
    have := length_pos_iff.2 hne
    rw [length_drop, treeBase] at ih
    rw [chunks_of_ne_nil hne, length_cons, treeBase]
    omega

theorem length_chunks_le_pow {xs : List α} {k : Nat} (h : xs.length ≤ (2 * treeBase) ^ (k + 1)) :
    (chunks xs).length ≤ (2 * treeBase) ^ k := by
  have hle := length_chunks_le xs
  rw [Nat.pow_succ] at h
  rw [treeBase] at *
  omega

end Chunks

namespace Node

variable {T S : Type u} [Summary S] [Item T S]

/-- The first summary with the others added to it; there has to be one. -/
def sumFromFirst : List S → Option S
  | [] => none
  | first :: rest => some (rest.foldl (· + ·) first)

theorem sumFromFirst_eq {summaries : List S} (h : summaries ≠ []) :
    sumFromFirst summaries = some (sum summaries) := by
  obtain ⟨first, rest, rfl⟩ := exists_cons_of_ne_nil h
  rw [sumFromFirst, sum, foldl_cons, Summary.zero_add]

/-- A leaf of `from_iter` and `from_par_iter`. -/
def leafOf (items : List T) : Option (Node T S) := do
  let itemSummaries := items.map Item.summary
  let summary ← sumFromFirst itemSummaries
  leaf? summary items itemSummaries

/-- An inner node of `from_iter`, whose summary starts at zero. -/
def parentOf (height : Nat) (children : List (Node T S)) : Option (Node T S) :=
  let childSummaries := children.map Node.summary
  internal? height (sum childSummaries) childSummaries children

/-- An inner node of `from_par_iter`, whose summary starts at that of the first child. -/
def parParentOf (height : Nat) (children : List (Node T S)) : Option (Node T S) := do
  let childSummaries := children.map Node.summary
  let summary ← sumFromFirst childSummaries
  internal? height summary childSummaries children

/-- The loop over the levels: as long as there are several nodes, they get parents, whose height
has to be a byte.  `fuel` is at least the number of nodes. -/
def buildLevels (parent : Nat → List (Node T S) → Option (Node T S)) :
    Nat → Nat → List (Node T S) → Option (Node T S)
  | _, _, [] => some new
  | _, _, [node] => some node
  | 0, _, _ => none
  | fuel + 1, height, nodes =>
    if height < maxHeight then do
      let parents ← (chunks nodes).mapM (parent (height + 1))
      buildLevels parent fuel (height + 1) parents
    else none

/-- `SumTree::from_iter`. -/
def fromIter (items : List T) : Option (Node T S) := do
  let nodes ← (chunks items).mapM leafOf
  buildLevels parentOf nodes.length 0 nodes

/-- `SumTree::from_par_iter`. -/
def fromParIter (items : List T) : Option (Node T S) := do
  let nodes ← (chunks items).mapM leafOf
  buildLevels parParentOf nodes.length 0 nodes

/-- `SumTree::extend`. -/
def extend (self : Node T S) (items : List T) : Option (Node T S) := do
  self.append (← fromIter items)

/-- `SumTree::par_extend`. -/
def parExtend (self : Node T S) (items : List T) : Option (Node T S) := do
  self.append (← fromParIter items)

/-- `SumTree::update_last_recursive`: the tree, and its summary if there was an item. -/
def updateLastRecursive (f : T → T) (self : Node T S) : Option (Node T S × Option S) :=
  match self with
  | internal height _ childSummaries childTrees =>
    match _hlast : childTrees.getLast? with
    | none => none
    | some last => do
      let (last, lastSummary) ← updateLastRecursive f last
      let childSummaries := childSummaries.dropLast ++ [← lastSummary]
      let summary := sum childSummaries
      return (internal height summary childSummaries (childTrees.dropLast ++ [last]), some summary)
  | leaf summary items itemSummaries =>
    match items.getLast?, itemSummaries.getLast? with
    | some item, some _ =>
      let itemSummaries := itemSummaries.dropLast ++ [Item.summary (f item)]
      some (leaf (sum itemSummaries) (items.dropLast ++ [f item]) itemSummaries,
        some (sum itemSummaries))
    | _, _ => some (leaf summary items itemSummaries, none)
termination_by sizeOf self
decreasing_by
  have hmem := mem_of_getLast? _hlast
  have hsize := sizeOf_lt_of_mem hmem
  simp only [internal.sizeOf_spec]
  omega

/-- `SumTree::update_last`. -/
def updateLast (self : Node T S) (f : T → T) : Option (Node T S) :=
  (updateLastRecursive f self).map Prod.fst

/-- `SumTree::update_first_recursive`. -/
def updateFirstRecursive (f : T → T) (self : Node T S) : Option (Node T S × Option S) :=
  match self with
  | internal height _ childSummaries childTrees =>
    match _hfirst : childTrees.head? with
    | none => none
    | some first => do
      let (first, firstSummary) ← updateFirstRecursive f first
      let childSummaries := (← firstSummary) :: childSummaries.tail
      let summary := sum childSummaries
      return (internal height summary childSummaries (first :: childTrees.tail), some summary)
  | leaf summary items itemSummaries =>
    match items.head?, itemSummaries.head? with
    | some item, some _ =>
      let itemSummaries := Item.summary (f item) :: itemSummaries.tail
      some (leaf (sum itemSummaries) (f item :: items.tail) itemSummaries, some (sum itemSummaries))
    | _, _ => some (leaf summary items itemSummaries, none)
termination_by sizeOf self
decreasing_by
  have hmem := mem_of_head? _hfirst
  have hsize := sizeOf_lt_of_mem hmem
  simp only [internal.sizeOf_spec]
  omega

/-- `SumTree::update_first`. -/
def updateFirst (self : Node T S) (f : T → T) : Option (Node T S) :=
  (updateFirstRecursive f self).map Prod.fst

/-! ## Correctness -/

section Correctness

variable {depth : Nat} {node : Node T S} {trees : List (Node T S)} {xs : List T}

theorem leafOf_filled (hne : xs ≠ []) (hlength : xs.length ≤ 2 * treeBase) :
    ∃ node : Node T S, leafOf xs = some node ∧ Filled 0 node ∧ node.items = xs := by
  obtain ⟨node, hnode, hfilled, hitems⟩ := leaf?_filled (S := S) hne hlength rfl rfl
  refine ⟨node, ?_, hfilled, hitems⟩
  rw [leafOf, sumFromFirst_eq (by simpa using hne)]
  exact hnode

/-- The function makes a parent of as many children as fit. -/
def Parents (parent : Nat → List (Node T S) → Option (Node T S)) : Prop :=
  ∀ depth trees, Fits (depth + 1) trees.length → (∀ tree ∈ trees, Filled depth tree) →
    ∃ node, parent (depth + 1) trees = some node ∧ Filled (depth + 1) node ∧
      node.items = itemsOf trees

theorem parents_parentOf : Parents (parentOf (T := T) (S := S)) := by
  intro depth trees hfits hall
  rw [parentOf, sum_summaries hall]
  exact internal?_filled hfits rfl hall rfl

theorem parents_parParentOf : Parents (parParentOf (T := T) (S := S)) := by
  intro depth trees hfits hall
  have hne : trees.map Node.summary ≠ [] := by simpa using ne_nil_of_length_pos hfits.1
  rw [parParentOf, sumFromFirst_eq hne, sum_summaries hall]
  exact internal?_filled hfits rfl hall rfl

/-- Nodes made of pieces, one by one. -/
theorem mapM_filled {α : Type u} {make : List α → Option (Node T S)} {itemsIn : List α → List T}
    {pieces : List (List α)}
    (h : ∀ piece ∈ pieces, ∃ node, make piece = some node ∧ Filled depth node ∧
      node.items = itemsIn piece) :
    ∃ nodes, pieces.mapM make = some nodes ∧ nodes.length = pieces.length ∧
      (∀ node ∈ nodes, Filled depth node) ∧ itemsOf nodes = pieces.flatMap itemsIn := by
  induction pieces with
  | nil => exact ⟨[], rfl, rfl, by simp, by simp⟩
  | cons piece pieces ih =>
    rw [forall_mem_cons] at h
    obtain ⟨node, hnode, hfilled, hitems⟩ := h.1
    obtain ⟨nodes, hnodes, hlength, hall, hitems'⟩ := ih h.2
    refine ⟨node :: nodes, ?_, by simp [hlength], forall_mem_cons.2 ⟨hfilled, hall⟩, ?_⟩
    · rw [mapM_cons, hnode, hnodes]
      rfl
    · rw [itemsOf_cons, hitems, hitems', flatMap_cons]

omit [Summary S] [Item T S] in
theorem itemsOf_flatten (pieces : List (List (Node T S))) :
    itemsOf pieces.flatten = pieces.flatMap itemsOf := by
  induction pieces with
  | nil => simp
  | cons piece pieces ih => rw [flatten_cons, itemsOf_append, ih, flatMap_cons]

/-- The loop over the levels ends with one tree of all items.  There are `levels` levels that a
cursor has room for above the nodes, and the nodes are not too many for them. -/
theorem buildLevels_seekable {parent : Nat → List (Node T S) → Option (Node T S)}
    (hparent : Parents parent) {fuel levels : Nat} (hfuel : trees.length ≤ fuel)
    (hlevels : depth + levels < stackCapacity) (hfew : trees.length ≤ (2 * treeBase) ^ levels)
    (hall : ∀ tree ∈ trees, Filled depth tree) :
    ∃ node, buildLevels parent fuel depth trees = some node ∧ node.Seekable (itemsOf trees) := by
  induction fuel generalizing depth levels trees with
  | zero =>
    obtain rfl : trees = [] := eq_nil_of_length_eq_zero (Nat.le_zero.1 hfuel)
    exact ⟨new, rfl, by simpa using seekable_new⟩
  | succ fuel ih =>
    match trees, hall with
    | [], _ => exact ⟨new, rfl, by simpa using seekable_new⟩
    | [tree], hall =>
      have hfilled := hall tree (by simp)
      refine ⟨tree, rfl, by simpa using hfilled.holds, ?_⟩
      rw [hfilled.exact.height_eq]
      omega
    | first :: second :: rest, hall =>
      -- several nodes need another level
      obtain ⟨levels, rfl⟩ : ∃ below, levels = below + 1 := by
        cases levels with
        | zero => simp at hfew
        | succ below => exact ⟨below, rfl⟩
      have hpieces : ∀ piece ∈ chunks (first :: second :: rest),
          ∃ node, parent (depth + 1) piece = some node ∧ Filled (depth + 1) node ∧
            node.items = itemsOf piece := by
        intro piece hpiece
        obtain ⟨hne, hle, hmem⟩ := mem_chunks hpiece
        exact hparent depth piece ⟨length_pos_iff.2 hne, fun hhigh => by omega, hle⟩
          fun tree htree => hall tree (hmem tree htree)
      obtain ⟨parents, hparents, hlength, hfilled, hitems⟩ := mapM_filled hpieces
      have hfewer := length_chunks_le (first :: second :: rest)
      have hlt : parents.length ≤ fuel := by
        rw [length_cons, length_cons] at hfuel hfewer
        rw [treeBase] at hfewer
        omega
      have hbelow : depth + 1 + levels < stackCapacity := by omega
      obtain ⟨node, hnode, hseekable⟩ := ih hlt hbelow
        (by rw [hlength]; exact length_chunks_le_pow hfew) hfilled
      refine ⟨node, ?_, ?_⟩
      · have hheight : depth < maxHeight := by
          rw [stackCapacity] at hlevels
          rw [maxHeight]
          omega
        rw [buildLevels, if_pos hheight, hparents]
        · exact hnode
        · simp
        · simp
      · rwa [hitems, ← itemsOf_flatten, flatten_chunks] at hseekable

theorem exists_leaves (xs : List T) :
    ∃ nodes : List (Node T S), (chunks xs).mapM leafOf = some nodes ∧
      nodes.length = (chunks xs).length ∧ (∀ node ∈ nodes, Filled 0 node) ∧
      itemsOf nodes = xs := by
  have hpieces : ∀ piece ∈ chunks xs, ∃ node : Node T S, leafOf piece = some node ∧
      Filled 0 node ∧ node.items = id piece := fun piece hpiece =>
    leafOf_filled (mem_chunks hpiece).1 (mem_chunks hpiece).2.1
  obtain ⟨nodes, hnodes, hlength, hall, hitems⟩ := mapM_filled hpieces
  refine ⟨nodes, hnodes, hlength, hall, ?_⟩
  rw [hitems, flatMap_id, flatten_chunks]

section FromIter

variable {ys : List T} (hfew : ys.length ≤ seekLimit)
include hfew

/-- The levels above the leaves. -/
theorem buildLevels_leaves {parent : Nat → List (Node T S) → Option (Node T S)}
    (hparent : Parents parent) :
    ∃ nodes node, (chunks ys).mapM leafOf = some nodes ∧
      buildLevels parent nodes.length 0 nodes = some node ∧ node.Seekable ys := by
  obtain ⟨nodes, hnodes, hlength, hall, hitems⟩ := exists_leaves (S := S) ys
  have hleaves : nodes.length ≤ (2 * treeBase) ^ (stackCapacity - 1) := by
    rw [hlength]
    exact length_chunks_le_pow hfew
  obtain ⟨node, hnode, hseekable⟩ :=
    buildLevels_seekable hparent (Nat.le_refl _) (by decide) hleaves hall
  exact ⟨nodes, node, hnodes, hnode, hitems ▸ hseekable⟩

theorem fromIter_seekable : ∃ node : Node T S, fromIter ys = some node ∧ node.Seekable ys := by
  obtain ⟨nodes, node, hnodes, hnode, hseekable⟩ :=
    buildLevels_leaves (S := S) hfew parents_parentOf
  exact ⟨node, by rw [fromIter, hnodes]; exact hnode, hseekable⟩

theorem fromParIter_seekable :
    ∃ node : Node T S, fromParIter ys = some node ∧ node.Seekable ys := by
  obtain ⟨nodes, node, hnodes, hnode, hseekable⟩ :=
    buildLevels_leaves (S := S) hfew parents_parParentOf
  exact ⟨node, by rw [fromParIter, hnodes]; exact hnode, hseekable⟩

theorem Holds.extend (h : node.Holds xs) : Returns (node.extend ys) (xs ++ ys) := by
  obtain ⟨other, hother, hseekable⟩ := fromIter_seekable (S := S) hfew
  rw [Node.extend, hother]
  exact h.append hseekable.holds

theorem Holds.parExtend (h : node.Holds xs) : Returns (node.parExtend ys) (xs ++ ys) := by
  obtain ⟨other, hother, hseekable⟩ := fromParIter_seekable (S := S) hfew
  rw [Node.parExtend, hother]
  exact h.append hseekable.holds

end FromIter

theorem filled_parentOf (hfits : Fits (depth + 1) trees.length)
    (hall : ∀ tree ∈ trees, Filled depth tree) : Filled (depth + 1)
      (internal (depth + 1) (sum (trees.map Node.summary)) (trees.map Node.summary) trees) :=
  ⟨⟨rfl, hfits, rfl, rfl, fun tree htree => ⟨(hall tree htree).exact,
    (hall tree htree).isEmpty⟩⟩, rfl⟩

/-- `update_last` in a tree with items: the last one is replaced. -/
theorem updateLastRecursive_filled (f : T → T) (h : Filled depth node) :
    ∃ changed, updateLastRecursive f node = some (changed, some changed.summary) ∧
      Filled depth changed ∧
      changed.items = node.items.dropLast ++ node.items.getLast?.toList.map f := by
  induction depth generalizing node with
  | zero =>
    obtain ⟨items, rfl, hne, hlength⟩ := h.exists_leaf
    obtain ⟨init, last, rfl⟩ := (eq_nil_or_concat' items).resolve_left hne
    have hfilled : Filled 0 (leaf (sum ((init ++ [f last]).map Item.summary)) (init ++ [f last])
        ((init ++ [f last]).map Item.summary) : Node T S) :=
      filled_leaf (by simp) (by simpa using hlength) rfl rfl
    refine ⟨_, ?_, hfilled, by simp⟩
    rw [updateLastRecursive.eq_def]
    simp
  | succ depth ih =>
    obtain ⟨trees, rfl, hfits, hall⟩ := h.exists_internal
    obtain ⟨initTrees, lastTree, rfl⟩ :=
      (eq_nil_or_concat' trees).resolve_left (ne_nil_of_length_pos hfits.1)
    rw [forall_mem_append] at hall
    have hlast := hall.2 lastTree (by simp)
    obtain ⟨changed, hupdate, hfilled, hchanged⟩ := ih hlast
    have hparent := @filled_parentOf _ _ _ _ depth (initTrees ++ [changed])
      (by simpa using hfits) (forall_mem_append.2 ⟨hall.1, by simpa using hfilled⟩)
    refine ⟨_, ?_, hparent, ?_⟩
    · rw [updateLastRecursive.eq_def]
      dsimp only
      split
      · rename_i hnone
        simp at hnone
      · rename_i lastTree' hlast
        obtain rfl : lastTree = lastTree' := by simpa using hlast
        simp [hupdate]
    · simp [hchanged, dropLast_append_of_ne_nil hlast.items_ne_nil,
        getLast?_append_of_ne_nil _ hlast.items_ne_nil]

/-- `update_first` in a tree with items: the first one is replaced. -/
theorem updateFirstRecursive_filled (f : T → T) (h : Filled depth node) :
    ∃ changed, updateFirstRecursive f node = some (changed, some changed.summary) ∧
      Filled depth changed ∧
      changed.items = node.items.head?.toList.map f ++ node.items.tail := by
  induction depth generalizing node with
  | zero =>
    obtain ⟨items, rfl, hne, hlength⟩ := h.exists_leaf
    obtain ⟨first, rest, rfl⟩ := exists_cons_of_ne_nil hne
    have hfilled : Filled 0 (leaf (sum ((f first :: rest).map Item.summary)) (f first :: rest)
        ((f first :: rest).map Item.summary) : Node T S) :=
      filled_leaf (by simp) (by simpa using hlength) rfl rfl
    refine ⟨_, ?_, hfilled, by simp⟩
    rw [updateFirstRecursive.eq_def]
    simp
  | succ depth ih =>
    obtain ⟨trees, rfl, hfits, hall⟩ := h.exists_internal
    obtain ⟨firstTree, restTrees, rfl⟩ := exists_cons_of_length_pos hfits.1
    rw [forall_mem_cons] at hall
    obtain ⟨changed, hupdate, hfilled, hchanged⟩ := ih hall.1
    have hparent := @filled_parentOf _ _ _ _ depth (changed :: restTrees)
      (by simpa using hfits) (forall_mem_cons.2 ⟨hfilled, hall.2⟩)
    refine ⟨_, ?_, hparent, ?_⟩
    · rw [updateFirstRecursive.eq_def]
      simp [hupdate]
    · simp [hchanged, head?_append_of_ne_nil _ hall.1.items_ne_nil,
        tail_append_of_ne_nil hall.1.items_ne_nil]

/-- A tree of items is not empty. -/
theorem Holds.filled (h : node.Holds xs) (hne : xs ≠ []) : ∃ depth, Filled depth node := by
  obtain ⟨⟨depth, hexact⟩, rfl⟩ := h
  refine ⟨depth, hexact, ?_⟩
  rw [Bool.eq_false_iff]
  exact fun hempty => hne (hexact.isEmpty_iff.1 hempty)

theorem Seekable.filled (h : node.Seekable xs) (hne : xs ≠ []) :
    ∃ depth, depth < stackCapacity ∧ Filled depth node := by
  obtain ⟨depth, hfilled⟩ := h.holds.filled hne
  exact ⟨depth, by rw [← hfilled.exact.height_eq]; exact h.low, hfilled⟩

/-- A tree of no items is a leaf without items. -/
theorem Holds.eq_new (h : node.Holds []) : node = new := by
  obtain ⟨⟨depth, hexact⟩, hitems⟩ := h
  have hempty := hexact.isEmpty_iff.2 hitems
  cases node with
  | internal => cases hempty
  | leaf summary items itemSummaries =>
    obtain ⟨-, -, rfl, rfl⟩ := exact_leaf.1 hexact
    rw [items_leaf] at hitems
    rw [hitems]
    rfl

theorem Holds.updateLast (h : node.Holds xs) (f : T → T) :
    ∃ changed, node.updateLast f = some changed ∧
      changed.Holds (xs.dropLast ++ xs.getLast?.toList.map f) := by
  rcases eq_or_ne xs [] with rfl | hne
  · obtain rfl := h.eq_new
    refine ⟨new, ?_, holds_new⟩
    rw [Node.updateLast, updateLastRecursive.eq_def]
    rfl
  · obtain ⟨depth, hfilled⟩ := h.filled hne
    obtain ⟨changed, hupdate, hfilled', hchanged⟩ := updateLastRecursive_filled f hfilled
    rw [h.2] at hchanged
    exact ⟨changed, by rw [Node.updateLast, hupdate]; rfl, ⟨depth, hfilled'.exact⟩, hchanged⟩

theorem Holds.updateFirst (h : node.Holds xs) (f : T → T) :
    ∃ changed, node.updateFirst f = some changed ∧
      changed.Holds (xs.head?.toList.map f ++ xs.tail) := by
  rcases eq_or_ne xs [] with rfl | hne
  · obtain rfl := h.eq_new
    refine ⟨new, ?_, holds_new⟩
    rw [Node.updateFirst, updateFirstRecursive.eq_def]
    rfl
  · obtain ⟨depth, hfilled⟩ := h.filled hne
    obtain ⟨changed, hupdate, hfilled', hchanged⟩ := updateFirstRecursive_filled f hfilled
    rw [h.2] at hchanged
    exact ⟨changed, by rw [Node.updateFirst, hupdate]; rfl, ⟨depth, hfilled'.exact⟩, hchanged⟩

end Correctness

end Node

namespace Sample

end Sample

end XorEditor.SumTree
