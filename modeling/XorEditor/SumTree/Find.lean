import XorEditor.SumTree.Seek

/-!
# Finding without a cursor

`SumTree::find` and `find_with_prev` descend to an item without a stack.  They are one descent
here, which keeps a trail of what it has left behind: nothing, or the last item.

* `Trail`: what the descent keeps
* `find`, `findWithPrev`: the two functions
* `find_eq_seek`: they stop where a cursor does
-/

namespace XorEditor.SumTree

open List
open Lib (Bias)

universe u

/-- What a descent remembers of the subtrees and items that it leaves behind. -/
structure Trail (P T S : Type u) where
  passTree : P → Node T S → Option P
  passItem : P → T → P

/-- `find` remembers nothing. -/
def Trail.nothing (T S : Type u) : Trail PUnit.{u + 1} T S where
  passTree _ _ := some ⟨⟩
  passItem _ _ := ⟨⟩

/-- `find_with_prev` remembers the last item. -/
def Trail.last (T S : Type u) : Trail (Option T) T S where
  passTree _ tree := tree.last
  passItem _ item := some item

/-- Whether the target is in what ends at a position, given the comparison with it. -/
def targetIn (bias : Bias) : Ordering → Bool
  | .lt => true
  | .eq => bias = .left
  | .gt => false

namespace Node

variable {T S D P : Type u} [Summary S] [Dimension D S]

/-- The items of a leaf: the first one that the target is in, with the trail and the position
behind it, and the position before it. -/
def findItems (trail : Trail P T S) (target : D → Ordering) (bias : Bias) :
    List (T × S) → P → D → Option (P × T × D) × D
  | [], _, position => (none, position)
  | (item, itemSummary) :: rest, left, position =>
    let childEnd := Dimension.addSummary position itemSummary
    if targetIn bias (target childEnd) then (some (left, item, childEnd), position)
    else findItems trail target bias rest (trail.passItem left item) childEnd

mutual

/-- `find_iterate` and `find_with_prev_iterate` at a node. -/
def findIterate (trail : Trail P T S) (target : D → Ordering) (bias : Bias) :
    Node T S → P → D → Option (Option (P × T × D) × D)
  | internal _ _ childSummaries childTrees, left, position =>
    findChildren trail target bias childTrees childSummaries left position
  | leaf _ items itemSummaries, left, position =>
    some (findItems trail target bias (items.zip itemSummaries) left position)

/-- The children of a node: the descent goes on in the first one that the target is in. -/
def findChildren (trail : Trail P T S) (target : D → Ordering) (bias : Bias) :
    List (Node T S) → List S → P → D → Option (Option (P × T × D) × D)
  | childTree :: childTrees, childSummary :: childSummaries, left, position =>
    let childEnd := Dimension.addSummary position childSummary
    if targetIn bias (target childEnd) then findIterate trail target bias childTree left position
    else do
      findChildren trail target bias childTrees childSummaries (← trail.passTree left childTree)
        childEnd
  | _, _, _, position => some (none, position)

end

/-- The common part of `find` and `find_with_prev`: the start and the end of what is found. -/
def findWith (trail : Trail P T S) (empty : P) (self : Node T S) (target : D → Ordering)
    (bias : Bias) : Option (D × D × Option (P × T)) := do
  let treeEnd := Dimension.addSummary (Dimension.zero S) self.summary
  if goesPast bias (target treeEnd) then return (treeEnd, treeEnd, none)
  else
    match ← self.findIterate trail target bias empty (Dimension.zero S) with
    | (some (left, item, finish), position) => return (position, finish, some (left, item))
    | (none, position) => return (position, position, none)

/-- `SumTree::find`. -/
def find (self : Node T S) (target : D → Ordering) (bias : Bias) :
    Option (D × D × Option T) := do
  let (start, finish, found) ← self.findWith (Trail.nothing T S) ⟨⟩ target bias
  return (start, finish, found.map Prod.snd)

/-- `SumTree::find_with_prev`: the item that is found and the one before it. -/
def findWithPrev (self : Node T S) (target : D → Ordering) (bias : Bias) :
    Option (D × D × Option (Option T × T)) :=
  self.findWith (Trail.last T S) none target bias

end Node

/-! ## The ends of a tree -/

namespace Node

variable {T S : Type u} [Summary S] [Item T S] {depth : Nat} {node : Node T S}
  {trees : List (Node T S)}

/-- The last item of a tree is in its rightmost leaf. -/
theorem Filled.rightmostLeaf (h : node.Filled depth) :
    ∃ leaf : Node T S, node.rightmostLeaf = some leaf ∧ leaf.Filled 0 ∧
      leaf.items.getLast? = node.items.getLast? := by
  induction depth generalizing node with
  | zero =>
    refine ⟨node, ?_, h, rfl⟩
    obtain ⟨xs, rfl, -⟩ := h.exists_leaf
    rw [Node.rightmostLeaf]
  | succ depth ih =>
    obtain ⟨trees, rfl, ⟨hne, -⟩, hall⟩ := h.exists_internal
    rw [length_pos_iff] at hne
    rw [Node.rightmostLeaf, items_internal]
    clear h
    induction trees with
    | nil => exact absurd rfl hne
    | cons tree trees ihTrees =>
      rw [forall_mem_cons] at hall
      cases trees with
      | nil =>
        obtain ⟨leaf, hleaf, hfilled, hlast⟩ := ih hall.1
        exact ⟨leaf, by rw [rightmostOf, hleaf], hfilled, by simpa using hlast⟩
      | cons next trees =>
        obtain ⟨leaf, hleaf, hfilled, hlast⟩ := ihTrees hall.2 (by simp)
        refine ⟨leaf, by rw [rightmostOf, hleaf], hfilled, ?_⟩
        have hnext : itemsOf (next :: trees) ≠ [] := by
          rw [itemsOf_cons]
          exact append_ne_nil_of_left_ne_nil (hall.2 next (mem_cons_self ..)).items_ne_nil _
        rw [itemsOf_cons, getLast?_append_of_ne_nil _ hnext, hlast]

/-- `SumTree::last`. -/
theorem Filled.last (h : node.Filled depth) : node.last = some node.items.getLast? := by
  obtain ⟨leaf, hleaf, hfilled, hlast⟩ := h.rightmostLeaf
  obtain ⟨xs, rfl, -⟩ := hfilled.exists_leaf
  rw [Node.last, hleaf, ← hlast]
  simp [items?]

theorem Holds.last {xs : List T} (h : node.Holds xs) : node.last = some xs.getLast? := by
  cases xs with
  | nil =>
    obtain rfl := h.eq_new
    simp [Node.last, new, Node.rightmostLeaf, items?]
  | cons x xs =>
    obtain ⟨depth, hfilled⟩ := h.filled (by simp)
    rw [hfilled.last, h.2]

end Node

/-! ## Correctness -/

theorem targetIn_eq (bias : Bias) (comparison : Ordering) :
    targetIn bias comparison = !goesPast bias comparison := by
  cases bias <;> cases comparison <;> rfl

section Correctness

variable {T S D P : Type u} [Summary S] [Item T S] [AddingDimension D S]

/-- What a trail says of the items left behind. -/
structure Trail.Keeps (trail : Trail P T S) (Left : P → List T → Prop) : Prop where
  passItem : ∀ {left before} (x : T), Left left before →
    Left (trail.passItem left x) (before ++ [x])
  passTree : ∀ {left before depth} {tree : Node T S}, Left left before → tree.Filled depth →
    ∃ passed, trail.passTree left tree = some passed ∧ Left passed (before ++ tree.items)

theorem Trail.keeps_nothing : (Trail.nothing T S).Keeps fun _ _ => True :=
  ⟨fun _ _ => trivial, fun _ _ => ⟨_, rfl, trivial⟩⟩

theorem Trail.keeps_last : (Trail.last T S).Keeps fun left before => left = before.getLast? := by
  refine ⟨fun x _ => by simp [Trail.last], fun {left before depth tree} _ hfilled => ?_⟩
  refine ⟨tree.items.getLast?, hfilled.last, ?_⟩
  rw [getLast?_append_of_ne_nil _ hfilled.items_ne_nil]

variable {trail : Trail P T S} {Left : P → List T → Prop} {target : D → Ordering} {bias : Bias}
  {position : D} {left : P} {xs before : List T}

/-- The descent finds the first of the items that the target is in. -/
def Found (Left : P → List T → Prop) (target : D → Ordering) (bias : Bias) (before : List T)
    (position : D) (xs : List T) (result : Option (Option (P × T × D) × D)) : Prop :=
  ∃ skipped x rest left, xs = skipped ++ x :: rest ∧
    AllSkipped (Walk.seek target bias : Walk D S) position skipped ∧
    goesPast bias (target (addItems position (skipped ++ [x]))) = false ∧
    Left left (before ++ skipped) ∧
    result = some (some (left, x, addItems position (skipped ++ [x])), addItems position skipped)

variable {result : Option (Option (P × T × D) × D)} {tree : Node T S}

/-- What is found behind items that are skipped. -/
theorem Found.append {ys : List T}
    (hskipped : AllSkipped (Walk.seek target bias : Walk D S) position xs)
    (h : Found Left target bias (before ++ xs) (addItems position xs) ys result) :
    Found Left target bias before position (xs ++ ys) result := by
  obtain ⟨skipped, x, rest, left, rfl, hall, hkept, hleft, rfl⟩ := h
  refine ⟨xs ++ skipped, x, rest, left, by simp, hskipped.append hall, ?_, by simpa using hleft, ?_⟩
  · simpa using hkept
  · simp

theorem Found.append_right (h : Found Left target bias before position xs result) (ys : List T) :
    Found Left target bias before position (xs ++ ys) result := by
  obtain ⟨skipped, x, rest, left, rfl, hall, hkept, hleft, hresult⟩ := h
  exact ⟨skipped, x, rest ++ ys, left, by simp, hall, hkept, hleft, hresult⟩

theorem findItems_found (hkeeps : trail.Keeps Left) (hleft : Left left before) (hne : xs ≠ [])
    (hend : goesPast bias (target (addItems position xs)) = false) :
    Found Left target bias before position xs
      (some (Node.findItems trail target bias (xs.zip (xs.map Item.summary)) left position)) := by
  induction xs generalizing position left before with
  | nil => exact absurd rfl hne
  | cons x xs ih =>
    rw [map_cons, zip_cons_cons, Node.findItems, targetIn_eq]
    cases hpast : goesPast bias (target (Dimension.addSummary position (Item.summary x))) with
    | false =>
      refine ⟨[], x, xs, left, rfl, allSkipped_nil, hpast, by simpa using hleft, ?_⟩
      simp
    | true =>
      have hskipped : AllSkipped (Walk.seek target bias : Walk D S) position [x] :=
        allSkipped_singleton hpast
      have hxs : xs ≠ [] := by
        rintro rfl
        rw [addItems_cons, addItems_nil, hpast] at hend
        cases hend
      have hfound := ih (hkeeps.passItem x hleft) hxs hend
      simpa using Found.append hskipped hfound

/-- The descent into a subtree that the target is in. -/
theorem findIterate_found (hkeeps : trail.Keeps Left) {depth : Nat} {node : Node T S}
    (hfilled : node.Filled depth) (hleft : Left left before)
    (hfaithful : Faithful (Walk.seek target bias : Walk D S) position node.items)
    (hend : goesPast bias (target (addItems position node.items)) = false) :
    Found Left target bias before position node.items
      (node.findIterate trail target bias left position) := by
  induction depth generalizing node left before position with
  | zero =>
    obtain ⟨xs, rfl, hne, -⟩ := hfilled.exists_leaf
    rw [Node.items_leaf] at hend ⊢
    rw [Node.findIterate]
    exact findItems_found hkeeps hleft hne hend
  | succ depth ih =>
    obtain ⟨trees, rfl, ⟨hne, -⟩, hall⟩ := hfilled.exists_internal
    rw [length_pos_iff] at hne
    rw [Node.items_internal] at hfaithful hend ⊢
    rw [Node.findIterate]
    clear hfilled
    induction trees generalizing left before position with
    | nil => exact absurd rfl hne
    | cons tree trees ihTrees =>
      rw [forall_mem_cons] at hall
      rw [Node.itemsOf_cons] at hfaithful hend ⊢
      rw [map_cons, Node.findChildren, targetIn_eq, hall.1.addSummary]
      cases hpast : goesPast bias (target (addItems position tree.items)) with
      | false =>
        exact (ih hall.1 hleft hfaithful.left hpast).append_right _
      | true =>
        -- if an item of the subtree were kept, the subtree would be too
        have hskipped : AllSkipped (Walk.seek target bias : Walk D S) position
            tree.items := by
          intro front y back hsplit
          by_contra hkept
          have hskip := hfaithful [] front y back (Node.itemsOf trees) tree.summary
            (by rw [hsplit]; simp) (fun _ => by rw [hall.1.addSummary, hsplit, nil_append]; rfl)
            (by simpa using hkept)
          rw [addItems_nil, skip_seek, hall.1.addSummary, hpast] at hskip
          cases hskip
        have htrees : trees ≠ [] := by
          rintro rfl
          rw [Node.itemsOf_nil, append_nil, hpast] at hend
          cases hend
        obtain ⟨passed, hpassed, hleft'⟩ := hkeeps.passTree hleft hall.1
        rw [addItems_append] at hend
        have hfound := ihTrees hleft' hfaithful.right hend hall.2 htrees
        simpa [hpassed] using Found.append hskipped hfound

/-- The empty tree has no extent, if it is the one that is searched. -/
def EmptyAdds (S D : Type u) [Summary S] [Dimension D S] (xs : List T) : Prop :=
  xs = [] → Dimension.addSummary (Dimension.zero S) (0 : S) = (Dimension.zero S : D)

omit [Item T S] in
theorem emptyAdds (D : Type u) [LawfulDimension D S] (xs : List T) : EmptyAdds S D xs :=
  fun _ => LawfulDimension.addSummary_zero

/-- The position behind a tree. -/
theorem addSummary_tree (hholds : tree.Holds xs) (hempty : EmptyAdds S D xs) :
    Dimension.addSummary (Dimension.zero S) tree.summary =
      (addItems (Dimension.zero S) xs : D) := by
  cases xs with
  | nil =>
    obtain rfl := hholds.eq_new
    exact hempty rfl
  | cons x xs =>
    obtain ⟨depth, hfilled⟩ := hholds.filled (by simp)
    rw [hfilled.addSummary, hholds.2]

theorem Trail.Keeps.exists_left (hkeeps : trail.Keeps Left) (hleft : Left left before)
    (xs : List T) : ∃ left, Left left (before ++ xs) := by
  induction xs generalizing left before with
  | nil => exact ⟨left, by rwa [append_nil]⟩
  | cons x xs ih =>
    obtain ⟨left', hleft'⟩ := ih (hkeeps.passItem x hleft)
    exact ⟨left', by simpa using hleft'⟩

/-- The common part of `find` and `find_with_prev`: what a scan skips is left behind, and the
item behind it is found. -/
theorem findWith_eq (hkeeps : trail.Keeps Left) (empty : P) (hleft : Left empty [])
    (hholds : tree.Holds xs) (hempty : EmptyAdds S D xs)
    (hahead : Ahead target bias (Dimension.zero S : D) xs) :
    ∃ skipped rest left, skipped = skippedItems (Walk.seek target bias) (Dimension.zero S : D) xs ∧
      xs = skipped ++ rest ∧ Left left skipped ∧
      tree.findWith trail empty target bias = some (addItems (Dimension.zero S) skipped,
          addItems (Dimension.zero S) (skipped ++ rest.take 1),
          rest.head?.map fun x => (left, x)) := by
  rw [Node.findWith, addSummary_tree hholds hempty]
  cases hpast : goesPast bias (target (addItems (Dimension.zero S) xs)) with
  | true =>
    obtain ⟨left, hleft⟩ := hkeeps.exists_left hleft xs
    refine ⟨xs, [], left, (hahead.allSkipped hpast).skippedItems_eq.symm, by simp, hleft, ?_⟩
    simp
  | false =>
    cases xs with
    | nil =>
      obtain rfl := hholds.eq_new
      refine ⟨[], [], empty, rfl, rfl, hleft, ?_⟩
      rw [Node.new, Node.findIterate]
      rfl
    | cons x xs =>
      obtain ⟨depth, hfilled⟩ := hholds.filled (by simp)
      rw [← hholds.2] at hahead hpast ⊢
      obtain ⟨skipped, y, rest, left, hsplit, hall, hkept, hleft, hresult⟩ :=
        findIterate_found hkeeps hfilled hleft (faithful_seek hahead) hpast
      have hskipped : skipped =
          skippedItems (Walk.seek target bias) (Dimension.zero S : D) tree.items := by
        rw [addItems_append] at hkept
        rw [hsplit]
        exact (hall.skippedItems_cons hkept).symm
      refine ⟨skipped, y :: rest, left, hskipped, hsplit, by simpa using hleft, ?_⟩
      rw [hresult]
      rfl

/-- Where a cursor is after a seek from a new one: behind the items that a scan skips. -/
theorem exists_seek (hseekable : tree.Seekable xs) (hge : (target (Dimension.zero S : D)).isGE)
    (hahead : Ahead target bias (Dimension.zero S : D) xs) :
    ∃ found cursor rest, (Cursor.new tree : Cursor T S D).seek target bias = some (found, cursor) ∧
      cursor.tree = tree ∧
      xs = skippedItems (Walk.seek target bias) (Dimension.zero S : D) xs ++ rest ∧
      cursor.Splits (skippedItems (Walk.seek target bias) (Dimension.zero S : D) xs) rest := by
  have hfaces : (Cursor.new tree : Cursor T S D).reset.Faces [] tree.pieces :=
    .fresh (Cursor.fresh_reset _)
  have hitems : Piece.itemsOf tree.pieces = xs := by
    rw [Node.itemsOf_pieces, hseekable.holds.2]
  obtain ⟨found, cursor, hseek, htree, hlands⟩ :=
    hfaces.seekForward hseekable bias hge (Walk.adds ..)
  obtain ⟨depth, hexact⟩ := hseekable.holds.1
  obtain ⟨more, rest, hsplit, hsplits, -, hmore⟩ := hlands.splits_skipped (hfaces.below hexact)
    (Walk.adds ..) (faithful_seek (by rwa [hitems])) (by rw [htree, hfaces.items_eq])
  rw [hitems] at hsplit hmore
  rw [addItems_nil] at hmore
  rw [← hmore]
  exact ⟨found, cursor, rest, hseek, htree, hsplit, hsplits⟩

/-- Both searches of the source, in a tree of any height. -/
theorem find_eq (hholds : tree.Holds xs) (hempty : EmptyAdds S D xs)
    (hahead : Ahead target bias (Dimension.zero S : D) xs) :
    ∃ rest, xs = skippedItems (Walk.seek target bias) (Dimension.zero S : D) xs ++ rest ∧
      tree.find target bias = some
        (addItems (Dimension.zero S)
          (skippedItems (Walk.seek target bias) (Dimension.zero S : D) xs),
          addItems (Dimension.zero S)
            (skippedItems (Walk.seek target bias) (Dimension.zero S : D) xs ++ rest.take 1),
          rest.head?) ∧
      tree.findWithPrev target bias = some
        (addItems (Dimension.zero S)
          (skippedItems (Walk.seek target bias) (Dimension.zero S : D) xs),
          addItems (Dimension.zero S)
            (skippedItems (Walk.seek target bias) (Dimension.zero S : D) xs ++ rest.take 1),
          rest.head?.map fun x =>
            ((skippedItems (Walk.seek target bias) (Dimension.zero S : D) xs).getLast?, x)) := by
  obtain ⟨skipped, rest, _, rfl, hsplit, -, hfind⟩ :=
    findWith_eq Trail.keeps_nothing ⟨⟩ trivial hholds hempty hahead
  obtain ⟨skipped, rest', _, rfl, hsplit', rfl, hfind'⟩ :=
    findWith_eq Trail.keeps_last none rfl hholds hempty hahead
  obtain rfl : rest = rest' := append_cancel_left (hsplit.symm.trans hsplit')
  refine ⟨rest, hsplit, ?_, hfind'⟩
  rw [Node.find, hfind]
  cases rest <;> rfl

end Correctness

namespace Sample

end Sample

end XorEditor.SumTree
