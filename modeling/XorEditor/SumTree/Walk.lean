import XorEditor.SumTree.Cursor

/-!
# Walking forward

What a cursor has before it is a list of pieces: the rest of its leaf item by item, then the
subtrees right of its path.  A walk goes through the pieces from left to right and into those
that it does not skip, and stops at the first item that it reaches (`Outcome`).  `Stands` says
where the stack of a cursor that stopped points at.

* `Piece`, `Collector`: what is ahead, and what is skipped
* `walkNode_walked`, `resume_walked`: a walk from a node, and from the stack
-/

namespace XorEditor.SumTree

open List

universe u

variable {T S D A : Type u} [Summary S] [Item T S] [Dimension D S]
variable {entries : List (StackEntry T S D)} {node : Node T S} {before after : List T} {x : T}
  {position base : D} {aggregate : A} {trees : List (Node T S)} {depth : Nat}

/-- The position behind some items. -/
def addItems (position : D) (xs : List T) : D :=
  xs.foldl (fun position x => Dimension.addSummary position (Item.summary x)) position

@[simp] theorem addItems_nil (position : D) : addItems position ([] : List T) = position := rfl

@[simp] theorem addItems_cons (position : D) (x : T) (xs : List T) : addItems position (x :: xs) =
      addItems (Dimension.addSummary position (Item.summary x)) xs := rfl

@[simp] theorem addItems_append (position : D) (xs ys : List T) :
    addItems position (xs ++ ys) = addItems (addItems position xs) ys := foldl_append

/-! ## Sums of items -/

section Lawful

variable {D : Type u} [AddingDimension D S]

omit [Item T S] in
theorem addSummary_foldl (position : D) (a : S) (summaries : List S) :
    Dimension.addSummary position (summaries.foldl (· + ·) a) =
      summaries.foldl Dimension.addSummary (Dimension.addSummary position a) := by
  induction summaries generalizing a with
  | nil => rfl
  | cons b summaries ih =>
    rw [foldl_cons, foldl_cons, ih, AddingDimension.addSummary_add]

/-- Adding the sum of some items is adding them one by one. -/
theorem addSummary_sum (position : D) {xs : List T} (h : xs ≠ []) :
    Dimension.addSummary position (sum (xs.map Item.summary)) = addItems position xs := by
  obtain ⟨x, rest, rfl⟩ := exists_cons_of_ne_nil h
  rw [sum, map_cons, foldl_cons, Summary.zero_add, addSummary_foldl, addItems_cons,
    addItems, foldl_map]

theorem Node.Filled.addSummary (h : node.Filled depth) (position : D) :
    Dimension.addSummary position node.summary = addItems position node.items := by
  rw [h.exact.summary_eq, addSummary_sum position h.items_ne_nil]

end Lawful

/-- The walk skips a subtree of these items only where its summary measures what the items do. -/
def Walk.Adds (walk : Walk D S) (xs : List T) : Prop :=
  ∀ ⦃depth : Nat⦄ ⦃node : Node T S⦄, node.Filled depth → node.items ⊆ xs → ∀ position,
    walk.skip position node.summary = true →
      Dimension.addSummary position node.summary = addItems position node.items

theorem Walk.Adds.mono {walk : Walk D S} {xs ys : List T} (h : walk.Adds ys) (hsubset : xs ⊆ ys) :
    walk.Adds xs :=
  fun _ _ hfilled hitems => h hfilled fun _ hx => hsubset (hitems hx)

theorem Walk.adds {D : Type u} [AddingDimension D S] (walk : Walk D S) (xs : List T) :
    walk.Adds xs :=
  fun _ _ hfilled _ position _ => hfilled.addSummary position

/-! ## Pieces -/

/-- What a walk decides about: an item, or a subtree. -/
inductive Piece (T S : Type u) where
  | item (x : T)
  | tree (node : Node T S)

/-- The items of a piece. -/
def Piece.items : Piece T S → List T
  | item x => [x]
  | tree node => node.items

/-- The items of some pieces. -/
def Piece.itemsOf (pieces : List (Piece T S)) : List T := pieces.flatMap Piece.items

namespace Piece

omit [Summary S] [Item T S]

@[simp] theorem items_item (x : T) : (item x : Piece T S).items = [x] := rfl

@[simp] theorem items_tree (node : Node T S) : (tree node).items = node.items := rfl

@[simp] theorem itemsOf_nil : itemsOf ([] : List (Piece T S)) = [] := rfl

@[simp] theorem itemsOf_cons (piece : Piece T S) (pieces : List (Piece T S)) :
    itemsOf (piece :: pieces) = piece.items ++ itemsOf pieces := flatMap_cons

@[simp] theorem itemsOf_append (pieces others : List (Piece T S)) :
    itemsOf (pieces ++ others) = itemsOf pieces ++ itemsOf others := flatMap_append

@[simp] theorem itemsOf_map_item (xs : List T) : itemsOf (xs.map item : List (Piece T S)) = xs := by
  induction xs with
  | nil => rfl
  | cons x xs ih => rw [map_cons, itemsOf_cons, ih, items_item, singleton_append]

@[simp] theorem itemsOf_map_tree (trees : List (Node T S)) :
    itemsOf (trees.map tree) = Node.itemsOf trees := by
  induction trees with
  | nil => simp
  | cons node trees ih => rw [map_cons, itemsOf_cons, ih, items_tree, Node.itemsOf_cons]

end Piece

variable {behind : List (Piece T S)}

/-- The pieces that a node consists of. -/
def Node.pieces : Node T S → List (Piece T S)
  | leaf _ items _ => items.map .item
  | internal _ _ _ childTrees => childTrees.map .tree

omit [Summary S] [Item T S] in
@[simp] theorem Node.itemsOf_pieces (node : Node T S) : Piece.itemsOf node.pieces = node.items := by
  cases node <;> simp [Node.pieces]

/-- A walk from a position reaches an item in the pieces: neither the item nor any node above
it is skipped.  `before` and `after` are the items around it. -/
inductive Reaches (walk : Walk D S) : D → List (Piece T S) → List T → T → List T → Prop
  | item {position : D} {x : T} {pieces : List (Piece T S)}
      (kept : walk.skip position (Item.summary x) = false) :
      Reaches walk position (.item x :: pieces) [] x (Piece.itemsOf pieces)
  | tree {position : D} {node : Node T S} {pieces : List (Piece T S)} {before after : List T}
      {x : T} (kept : walk.skip position node.summary = false)
      (inside : Reaches walk position node.pieces before x after) :
      Reaches walk position (.tree node :: pieces) before x (after ++ Piece.itemsOf pieces)
  | later {position : D} {piece : Piece T S} {pieces : List (Piece T S)} {before after : List T}
      {x : T} (behind : Reaches walk (addItems position piece.items) pieces before x after) :
      Reaches walk position (piece :: pieces) (piece.items ++ before) x after

section Reaches

variable {walk : Walk D S} {pieces others : List (Piece T S)}

theorem Reaches.itemsOf_eq (h : Reaches walk position pieces before x after) :
    Piece.itemsOf pieces = before ++ x :: after := by
  induction h with
  | item => simp
  | tree _ _ ih =>
    rw [Node.itemsOf_pieces] at ih
    simp [ih]
  | later _ ih => simp [ih]

/-- What is reached is not skipped by itself. -/
theorem Reaches.kept (h : Reaches walk position pieces before x after) :
    walk.skip (addItems position before) (Item.summary x) = false := by
  induction h with
  | item kept => exact kept
  | tree _ _ ih => exact ih
  | later _ ih => rwa [addItems_append]

theorem Reaches.length_le (h : Reaches walk position pieces before x after) :
    before.length ≤ (Piece.itemsOf pieces).length := by
  rw [h.itemsOf_eq, length_append]
  exact Nat.le_add_right _ _

theorem Reaches.append_right (h : Reaches walk position pieces before x after)
    (others : List (Piece T S)) :
    Reaches walk position (pieces ++ others) before x (after ++ Piece.itemsOf others) := by
  induction h with
  | item kept =>
    rw [← Piece.itemsOf_append]
    exact .item kept
  | tree kept inside _ =>
    rw [append_assoc, ← Piece.itemsOf_append]
    exact .tree kept inside
  | later _ ih => exact ih.later

theorem Reaches.append_left (pieces : List (Piece T S)) : ∀ {position : D},
      Reaches walk (addItems position (Piece.itemsOf pieces)) others before x after →
      Reaches walk position (pieces ++ others) (Piece.itemsOf pieces ++ before) x after := by
  induction pieces with
  | nil => exact fun h => h
  | cons piece pieces ih =>
    intro position h
    rw [Piece.itemsOf_cons, addItems_append] at h
    rw [Piece.itemsOf_cons, append_assoc]
    exact (ih h).later

/-- What is reached in pieces is reached in the front ones or in those behind. -/
theorem reaches_append (h : Reaches walk position (pieces ++ others) before x after) :
    (∃ rest, Reaches walk position pieces before x rest) ∨
      ∃ start, before = Piece.itemsOf pieces ++ start ∧
        Reaches walk (addItems position (Piece.itemsOf pieces)) others start x after := by
  induction pieces generalizing position before with
  | nil => exact .inr ⟨before, rfl, h⟩
  | cons piece pieces ih =>
    rw [cons_append] at h
    cases h with
    | item kept => exact .inl ⟨_, .item kept⟩
    | tree kept inside => exact .inl ⟨_, .tree kept inside⟩
    | later behind =>
      rcases ih behind with ⟨rest, hreach⟩ | ⟨start, hbefore, hreach⟩
      · exact .inl ⟨rest, .later hreach⟩
      · refine .inr ⟨start, by rw [hbefore]; simp, ?_⟩
        simpa using hreach

end Reaches

/-- The stack points from a node at position `base` down to an item.  `before` are the items
before it, `behind` the pieces behind it. -/
inductive Stands : D → Node T S → List (StackEntry T S D) → List T → T → List (Piece T S) → Prop
  | leaf {base position : D} {summary : S} {items before after : List T} {x : T}
      {itemSummaries : List S} (split : items = before ++ x :: after) :
      Stands base (.leaf summary items itemSummaries)
        [⟨.leaf summary items itemSummaries, before.length, position⟩] before x
        (after.map .item)
  | internal {base : D} {height : Nat} {summary : S} {childSummaries : List S}
      {childTrees left right : List (Node T S)} {tree : Node T S}
      {entries : List (StackEntry T S D)} {before : List T} {x : T} {behind : List (Piece T S)}
      (split : childTrees = left ++ tree :: right)
      (inside : Stands (addItems base (Node.itemsOf left)) tree entries before x behind) :
      Stands base (.internal height summary childSummaries childTrees)
        (⟨.internal height summary childSummaries childTrees, left.length,
          addItems base (Node.itemsOf left)⟩ :: entries)
        (Node.itemsOf left ++ before) x (behind ++ right.map .tree)

theorem Stands.items_eq (h : Stands base node entries before x behind) :
    node.items = before ++ x :: Piece.itemsOf behind := by
  induction h with
  | leaf split => simp [split]
  | internal split _ ih => simp [split, ih]

theorem Stands.ne_nil (h : Stands base node entries before x behind) : entries ≠ [] := by
  cases h <;> simp

/-! ## Aggregates -/

/-- What an aggregate holds: between two leaves, and inside a leaf of which some items have been
passed.  An aggregate that builds a tree cannot hold more items than a tree can. -/
structure Collector (agg : SeekAggregate A T S) where
  Between : A → List T → Prop
  Inside : A → List T → List T → Prop
  beginLeaf : ∀ {aggregate passed}, Between aggregate passed → Inside aggregate passed []
  pushItem : ∀ {aggregate passed ys} (x : T), Inside aggregate passed ys →
    ys.length < 2 * treeBase → ∃ pushed, agg.pushItem aggregate x (Item.summary x) = some pushed ∧
        Inside pushed passed (ys ++ [x])
  endLeaf : ∀ {aggregate passed ys}, Inside aggregate passed ys →
    (passed ++ ys).length < Node.itemLimit →
    ∃ ended, agg.endLeaf aggregate = some ended ∧ Between ended (passed ++ ys)
  pushTree : ∀ {aggregate passed depth} {tree : Node T S}, Between aggregate passed →
    tree.Filled depth → (passed ++ tree.items).length < Node.itemLimit →
    ∃ pushed, agg.pushTree aggregate tree tree.summary = some pushed ∧
        Between pushed (passed ++ tree.items)

/-! ## The outcome of a walk -/

/-- The outcome of a walk over pieces: it has passed all of them and reached no item, or it
stands at the first item that it reaches.  `Place` says what the stack it leaves points at, and
`Held` what its aggregate holds. -/
inductive Outcome (Held : A → List T → Prop) (walk : Walk D S) (passed : List T) (position : D)
    (pieces : List (Piece T S))
    (Place : List (StackEntry T S D) → List T → T → List (Piece T S) → Prop) :
    List (StackEntry T S D) → D → A → Prop
  | exhausted {aggregate : A}
      (nowhere : ∀ before x after, ¬ Reaches walk position pieces before x after)
      (held : Held aggregate (passed ++ Piece.itemsOf pieces)) :
      Outcome Held walk passed position pieces Place []
        (addItems position (Piece.itemsOf pieces)) aggregate
  | stopped {entries : List (StackEntry T S D)} {before : List T} {x : T}
      {behind : List (Piece T S)} {aggregate : A}
      (reaches : Reaches walk position pieces before x (Piece.itemsOf behind))
      (nearest : ∀ before' x' after', Reaches walk position pieces before' x' after' →
        before.length ≤ before'.length)
      (place : Place entries before x behind) (ne_nil : entries ≠ [])
      (held : Held aggregate (passed ++ before)) :
      Outcome Held walk passed position pieces Place entries (addItems position before)
        aggregate

section Outcome

variable {Held : A → List T → Prop} {walk : Walk D S} {passed passed' : List T} {position' : D}
  {pieces others : List (Piece T S)}
  {Place Place' : List (StackEntry T S D) → List T → T → List (Piece T S) → Prop}

/-- What a walk that has stopped leaves on the stack may be put on top of more. -/
theorem Outcome.imp_stopped {entries' : List (StackEntry T S D)}
    (h : Outcome Held walk passed position pieces Place entries position' aggregate)
    (hne : entries ≠ []) (hne' : entries' ≠ [])
    (himp : ∀ before x behind, Place entries before x behind → Place' entries' before x behind) :
    Outcome Held walk passed position pieces Place' entries' position' aggregate := by
  cases h with
  | exhausted => exact absurd rfl hne
  | stopped reaches nearest place _ held =>
    exact .stopped reaches nearest (himp _ _ _ place) hne' held

/-- A walk that leaves nothing on the stack has passed everything. -/
theorem Outcome.of_nil (h : Outcome Held walk passed position pieces Place [] position' aggregate) :
    (∀ before x after, ¬ Reaches walk position pieces before x after) ∧
      position' = addItems position (Piece.itemsOf pieces) ∧
      Held aggregate (passed ++ Piece.itemsOf pieces) := by
  cases h with
  | exhausted nowhere held => exact ⟨nowhere, rfl, held⟩
  | stopped _ _ _ ne_nil => exact absurd rfl ne_nil

section Held

variable (h : Outcome Held walk passed position pieces Place entries position' aggregate)
include h

theorem Outcome.exists_held :
    ∃ xs, xs.length ≤ (Piece.itemsOf pieces).length ∧ Held aggregate (passed ++ xs) := by
  cases h with
  | exhausted _ held => exact ⟨_, Nat.le_refl _, held⟩
  | stopped reaches _ _ _ held => exact ⟨_, reaches.length_le, held⟩

theorem Outcome.imp_held {B : Type u} {Held' : B → List T → Prop} {aggregate' : B}
    (himp : ∀ xs, xs.length ≤ (Piece.itemsOf pieces).length → Held aggregate (passed ++ xs) →
      Held' aggregate' (passed' ++ xs)) :
    Outcome Held' walk passed' position pieces Place entries position' aggregate' := by
  cases h with
  | exhausted nowhere held => exact .exhausted nowhere (himp _ (Nat.le_refl _) held)
  | stopped reaches nearest place ne_nil held =>
    exact .stopped reaches nearest place ne_nil (himp _ reaches.length_le held)

/-- A walk that has stopped does not look at what is behind. -/
theorem Outcome.append_right (hne : entries ≠ []) (others : List (Piece T S)) :
    Outcome Held walk passed position (pieces ++ others)
      (fun entries before x behind => ∃ rest, behind = rest ++ others ∧
        Place entries before x rest) entries position' aggregate := by
  cases h with
  | exhausted => exact absurd rfl hne
  | @stopped _ before x behind _ reaches nearest place ne_nil held =>
    have hreaches := reaches.append_right others
    rw [← Piece.itemsOf_append] at hreaches
    refine .stopped hreaches ?_ ⟨_, rfl, place⟩ ne_nil held
    intro before' x' after' hreach
    rcases reaches_append hreach with ⟨rest, hfront⟩ | ⟨start, rfl, -⟩
    · exact nearest _ _ _ hfront
    · rw [reaches.itemsOf_eq]
      simp only [length_append, length_cons]
      omega

end Held

/-- A walk that has passed some pieces goes on with those behind them. -/
theorem Outcome.append_left
    (nowhere : ∀ before x after, ¬ Reaches walk position pieces before x after)
    (h : Outcome Held walk (passed ++ Piece.itemsOf pieces)
      (addItems position (Piece.itemsOf pieces)) others Place' entries position' aggregate)
    (himp : ∀ before x behind, Place' entries before x behind →
      Place entries (Piece.itemsOf pieces ++ before) x behind) :
    Outcome Held walk passed position (pieces ++ others) Place entries position' aggregate := by
  cases h with
  | exhausted nowhere' held =>
    rw [← addItems_append, ← Piece.itemsOf_append]
    refine .exhausted ?_ (by simpa using held)
    intro before x after hreach
    rcases reaches_append hreach with ⟨rest, hfront⟩ | ⟨start, -, hback⟩
    · exact nowhere _ _ _ hfront
    · exact nowhere' _ _ _ hback
  | stopped reaches nearest place ne_nil held =>
    rw [← addItems_append]
    refine .stopped (reaches.append_left pieces) ?_ (himp _ _ _ place) ne_nil (by simpa using held)
    intro before' x' after' hreach
    rcases reaches_append hreach with ⟨rest, hfront⟩ | ⟨start, rfl, hback⟩
    · exact absurd hfront (nowhere _ _ _)
    · have := nearest _ _ _ hback
      simp only [length_append]
      omega

/-- A subtree that is not skipped is walked into. -/
theorem Outcome.of_tree (kept : walk.skip position node.summary = false)
    (h : Outcome Held walk passed position node.pieces Place entries position' aggregate) :
    Outcome Held walk passed position [.tree node] Place entries position' aggregate := by
  have hitems : Piece.itemsOf [.tree node] = Piece.itemsOf node.pieces := by simp
  -- what is reached in the subtree as a piece is reached among its pieces
  have hinside : ∀ {before x after}, Reaches walk position [.tree node] before x after →
      Reaches walk position node.pieces before x after := by
    intro before x after hreach
    cases hreach with
    | tree _ inside => simpa using inside
    | later behind => cases behind
  cases h with
  | exhausted nowhere held =>
    rw [← hitems] at held ⊢
    exact .exhausted (fun _ _ _ hreach => nowhere _ _ _ (hinside hreach)) held
  | stopped reaches nearest place ne_nil held =>
    have hreach : Reaches walk position [.tree node] _ _ _ := .tree kept reaches
    rw [Piece.itemsOf_nil, append_nil] at hreach
    exact .stopped hreach (fun _ _ _ hreach => nearest _ _ _ (hinside hreach)) place ne_nil held

end Outcome

/-! ## The walks of the source -/

section Skip

variable {walk : Walk D S}

theorem not_reaches_nil : ¬ Reaches walk position [] before x after := nofun

theorem not_reaches_skipped_item {y : T} (h : walk.skip position (Item.summary y) = true) :
    ¬ Reaches walk position [.item y] before x after := by
  intro hreach
  cases hreach with
  | item kept => exact absurd h (by simp [kept])
  | later behind => exact not_reaches_nil behind

theorem not_reaches_skipped_tree (h : walk.skip position node.summary = true) :
    ¬ Reaches walk position [.tree node] before x after := by
  intro hreach
  cases hreach with
  | tree kept => exact absurd h (by simp [kept])
  | later behind => exact not_reaches_nil behind

end Skip

section Source

variable {agg : SeekAggregate A T S} (collector : Collector agg) (walk : Walk D S) {passed : List T}

/-- The stack of a walk that has stopped among the items of a leaf. -/
def InItems (tree : Node T S) (index : Nat) (ys : List T) (entries : List (StackEntry T S D))
    (before : List T) (x : T) (behind : List (Piece T S)) : Prop :=
  ∃ after position, ys = before ++ x :: after ∧ behind = after.map .item ∧
    entries = [⟨tree, index + before.length, position⟩]

theorem walkItems_outcome {done : List T} (ys : List T) :
    ∀ (entry : StackEntry T S D) (position : D) (aggregate : A),
      collector.Inside aggregate passed done → done.length + ys.length ≤ 2 * treeBase →
      ∃ stopped entry' position' aggregate',
        walkItems walk agg (ys.zip (ys.map Item.summary)) entry position aggregate =
          some (stopped, entry', position', aggregate') ∧
        Outcome (collector.Inside · passed) walk done position (ys.map .item)
          (InItems entry.tree entry.index ys) (if stopped then [entry'] else []) position'
          aggregate' := by
  induction ys generalizing done with
  | nil =>
    intro entry position aggregate hinside _
    refine ⟨false, entry, position, aggregate, rfl, ?_⟩
    exact .exhausted (fun _ _ _ => not_reaches_nil) (by simpa using hinside)
  | cons y ys ih =>
    intro entry position aggregate hinside hroom
    rw [length_cons] at hroom
    rw [map_cons, zip_cons_cons, walkItems]
    cases hskip : walk.skip position (Item.summary y) with
    | true =>
      obtain ⟨pushed, hpushed, hinside'⟩ := collector.pushItem y hinside (by omega)
      obtain ⟨stopped, entry', position', aggregate', hwalk, houtcome⟩ :=
        ih (walk.advance entry (Item.summary y))
          (Dimension.addSummary position (Item.summary y)) pushed hinside'
          (by rw [length_append, length_singleton]; omega)
      refine ⟨stopped, entry', position', aggregate', ?_, ?_⟩
      · rw [if_pos rfl, hpushed]
        exact hwalk
      · have hfront : ∀ before x after, ¬ Reaches walk position [.item y] before x after :=
          fun _ _ _ => not_reaches_skipped_item hskip
        refine houtcome.append_left hfront ?_
        rintro before x behind ⟨after, position, rfl, rfl, hentries⟩
        refine ⟨after, position, rfl, rfl, ?_⟩
        rw [hentries, Walk.advance]
        simp only [Piece.itemsOf_cons, Piece.items_item, Piece.itemsOf_nil,
          append_nil, singleton_append, length_cons]
        rw [Nat.add_right_comm, Nat.add_assoc]
    | false =>
      refine ⟨true, entry, position, aggregate, by simp, ?_⟩
      have hreach : Reaches walk position (.item y :: ys.map .item) [] y
        (Piece.itemsOf (ys.map .item)) := .item hskip
      exact .stopped hreach (fun _ _ _ _ => Nat.zero_le _)
        ⟨ys, entry.position, rfl, rfl, rfl⟩ (by simp) (by simpa using hinside)

/-- The walk returns, and its outcome is as it should be. -/
def Walked (passed : List T) (position : D) (pieces : List (Piece T S))
    (Place : List (StackEntry T S D) → List T → T → List (Piece T S) → Prop)
    (result : Option (List (StackEntry T S D) × D × A)) : Prop :=
  ∃ entries position' aggregate', result = some (entries, position', aggregate') ∧
    Outcome collector.Between walk passed position pieces Place entries position' aggregate'

variable {collector walk} in
theorem Walked.imp {pieces : List (Piece T S)}
    {Place Place' : List (StackEntry T S D) → List T → T → List (Piece T S) → Prop}
    {result : Option (List (StackEntry T S D) × D × A)}
    (h : Walked collector walk passed position pieces Place result)
    (himp : ∀ {entries before x behind}, Place entries before x behind →
      Place' entries before x behind) :
    Walked collector walk passed position pieces Place' result := by
  obtain ⟨entries, position', aggregate', hwalk, houtcome⟩ := h
  refine ⟨entries, position', aggregate', hwalk, ?_⟩
  cases houtcome with
  | exhausted nowhere held => exact .exhausted nowhere held
  | stopped reaches nearest place ne_nil held =>
    exact .stopped reaches nearest (himp place) ne_nil held

theorem walkLeaf_walked (front ys : List T) (entry : StackEntry T S D) (position : D)
    (hindex : entry.index = front.length) (hlength : (front ++ ys).length ≤ 2 * treeBase)
    (hfew : (passed ++ ys).length < Node.itemLimit) (h : collector.Between aggregate passed) :
    Walked collector walk passed position (ys.map .item) (InItems entry.tree entry.index ys)
      (walkLeaf walk agg entry (front ++ ys) ((front ++ ys).map Item.summary) position
        aggregate) := by
  rw [length_append] at hlength
  obtain ⟨stopped, entry', position', aggregate', hwalk, houtcome⟩ :=
    walkItems_outcome collector walk ys entry position aggregate (collector.beginLeaf h)
      (by simp only [length_nil]; omega)
  -- every outcome of the items ends the leaf
  have hended : ∃ ended, agg.endLeaf aggregate' = some ended ∧
      ∀ xs, xs.length ≤ (Piece.itemsOf (ys.map .item : List (Piece T S))).length →
        collector.Inside aggregate' passed ([] ++ xs) →
        collector.Between ended (passed ++ xs) := by
    have hroom : ∀ xs : List T, xs.length ≤ ys.length →
        (passed ++ xs).length < Node.itemLimit := by
      intro xs hxs
      rw [length_append] at hfew ⊢
      omega
    rw [Piece.itemsOf_map_item]
    obtain ⟨xs, hle, hinside⟩ := houtcome.exists_held
    rw [Piece.itemsOf_map_item] at hle
    obtain ⟨ended, hend, -⟩ := collector.endLeaf hinside (hroom xs hle)
    refine ⟨ended, hend, fun xs hle hxs => ?_⟩
    obtain ⟨other, hother, hbetween⟩ := collector.endLeaf hxs (hroom xs hle)
    obtain rfl : ended = other := Option.some.inj (hend.symm.trans hother)
    exact hbetween
  obtain ⟨ended, hend, himp⟩ := hended
  refine ⟨_, _, ended, ?_, houtcome.imp_held himp⟩
  rw [walkLeaf, hindex, map_append, drop_left, drop_left' (by simp), hwalk]
  simp [hend]

/-- The stack of a walk that has stopped in a subtree of a node. -/
def InChildren (tree : Node T S) (index : Nat) (position : D) (trees : List (Node T S))
    (entries : List (StackEntry T S D)) (before : List T) (x : T) (behind : List (Piece T S)) :
    Prop :=
  ∃ left child right below before' behind', trees = left ++ child :: right ∧
    entries = ⟨tree, index + left.length, addItems position (Node.itemsOf left)⟩ :: below ∧
    Stands (addItems position (Node.itemsOf left)) child below before' x behind' ∧
    before = Node.itemsOf left ++ before' ∧ behind = behind' ++ right.map .tree

theorem InChildren.cons {tree child : Node T S} {index : Nat}
    (h : InChildren tree (index + 1) (addItems position child.items) trees entries before x
      behind) :
    InChildren tree index position (child :: trees) entries (child.items ++ before) x behind := by
  obtain ⟨left, next, right, below, before', behind', rfl, rfl, hstands, rfl, rfl⟩ := h
  refine ⟨child :: left, next, right, below, before', behind', rfl, ?_, ?_, ?_, rfl⟩
  · simp [Nat.add_assoc, Nat.add_comm 1]
  · simpa using hstands
  · simp

/-- The walk over children, if that into a subtree is as it should be. -/
theorem walkChildren_walked {room : Nat} (hadds : walk.Adds (Node.itemsOf trees))
    (hnode : ∀ (tree : Node T S) (passed : List T) (position : D) (aggregate : A),
      walk.Adds tree.items → tree.Filled depth → (passed ++ tree.items).length < Node.itemLimit →
      collector.Between aggregate passed →
      Walked collector walk passed position tree.pieces (Stands position tree)
        (walkNode walk agg room tree position aggregate))
    (hall : ∀ tree ∈ trees, tree.Filled depth) (entry : StackEntry T S D)
    (hposition : entry.position = position)
    (hfew : (passed ++ Node.itemsOf trees).length < Node.itemLimit)
    (h : collector.Between aggregate passed) :
    Walked collector walk passed position (trees.map .tree)
      (InChildren entry.tree entry.index position trees)
      (walkChildren walk agg room entry trees (trees.map Node.summary) position aggregate) := by
  induction trees generalizing entry position aggregate passed with
  | nil =>
    refine ⟨[], position, aggregate, by simp [walkChildren], ?_⟩
    exact .exhausted (fun _ _ _ => not_reaches_nil) (by simpa using h)
  | cons child trees ih =>
    rw [forall_mem_cons] at hall
    rw [map_cons, map_cons, walkChildren]
    rw [Node.itemsOf_cons] at hadds
    have haddsTrees := hadds.mono (subset_append_right ..)
    rw [Node.itemsOf_cons, ← append_assoc] at hfew
    have hfew' : (passed ++ child.items).length < Node.itemLimit := by
      rw [length_append] at hfew
      omega
    cases hskip : walk.skip position child.summary with
    | true =>
      obtain ⟨pushed, hpushed, hbetween⟩ := collector.pushTree h hall.1 hfew'
      rw [hadds hall.1 (subset_append_left ..) position hskip]
      obtain ⟨entries, position', aggregate', hwalk, houtcome⟩ :=
        ih haddsTrees hall.2 ⟨entry.tree, entry.index + 1, addItems position child.items⟩ rfl hfew
          hbetween
      have hfront : ∀ before x after, ¬ Reaches walk position [.tree child] before x after :=
        fun _ _ _ => not_reaches_skipped_tree hskip
      refine ⟨entries, position', aggregate', ?_, ?_⟩
      · rw [if_pos rfl, hpushed]
        exact hwalk
      · refine Outcome.append_left hfront (by simpa using houtcome) ?_
        intro before x behind hplace
        simpa using hplace.cons
    | false =>
      obtain ⟨entries, position', aggregate', hwalk, houtcome⟩ :=
        hnode child passed position aggregate (hadds.mono (subset_append_left ..)) hall.1 hfew' h
      rw [if_neg (by simp), hwalk]
      have hfirst := houtcome.of_tree hskip
      rcases eq_or_ne entries [] with rfl | hne
      case inr =>
        refine ⟨entry :: entries, position', aggregate', by simp [hne], ?_⟩
        refine (hfirst.append_right hne (trees.map .tree)).imp_stopped hne (by simp) ?_
        rintro before x behind ⟨rest, rfl, hstands⟩
        refine ⟨[], child, trees, entries, before, rest, rfl, ?_, hstands, rfl, rfl⟩
        simp [← hposition]
      case inl =>
        obtain ⟨hnowhere, rfl, hbetween⟩ := hfirst.of_nil
        obtain ⟨entries, position', aggregate', hwalk, houtcome⟩ :=
          ih haddsTrees hall.2 ⟨entry.tree, entry.index + 1, addItems position child.items⟩ rfl
            (by simpa using hfew) hbetween
        refine ⟨entries, position', aggregate', by simpa using hwalk, ?_⟩
        refine Outcome.append_left hnowhere (by simpa using houtcome) ?_
        intro before x behind hplace
        simpa using hplace.cons

theorem InItems.stands {summary : S} {items ys : List T} {itemSummaries : List S} (front : List T)
    (hitems : items = front ++ ys)
    (h : InItems (.leaf summary items itemSummaries) front.length ys entries before x behind) :
    Stands base (.leaf summary items itemSummaries) entries (front ++ before) x behind := by
  obtain ⟨after, position, rfl, rfl, rfl⟩ := h
  have hsplit : items = (front ++ before) ++ x :: after := by rw [hitems, append_assoc]
  rw [← length_append]
  exact .leaf hsplit

theorem InChildren.stands {height : Nat} {summary : S} {childSummaries : List S}
    {childTrees : List (Node T S)} (front : List (Node T S)) (htrees : childTrees = front ++ trees)
    (h : InChildren (.internal height summary childSummaries childTrees) front.length
      (addItems base (Node.itemsOf front)) trees entries before x behind) :
    Stands base (.internal height summary childSummaries childTrees) entries
      (Node.itemsOf front ++ before) x behind := by
  obtain ⟨left, child, right, below, before', behind', rfl, rfl, hstands, rfl, rfl⟩ := h
  have hsplit : childTrees = (front ++ left) ++ child :: right := by
    rw [htrees, append_assoc]
  rw [← addItems_append, ← Node.itemsOf_append] at hstands ⊢
  rw [← append_assoc, ← Node.itemsOf_append, ← length_append]
  exact .internal hsplit hstands

/-- The walk into a subtree, with room on the stack for each of its levels. -/
theorem walkNode_walked {room : Nat} (hadds : walk.Adds node.items) (hfilled : node.Filled depth)
    (hroom : depth < room)
    (hfew : (passed ++ node.items).length < Node.itemLimit)
    (h : collector.Between aggregate passed) :
    Walked collector walk passed position node.pieces (Stands position node)
      (walkNode walk agg room node position aggregate) := by
  obtain ⟨room, rfl⟩ := Nat.exists_eq_add_one_of_ne_zero (Nat.ne_zero_of_lt hroom)
  induction depth generalizing node passed position aggregate room with
  | zero =>
    obtain ⟨xs, rfl, -, hlength⟩ := hfilled.exists_leaf
    rw [walkNode]
    exact (walkLeaf_walked collector walk [] xs _ position rfl hlength
      (by simpa using hfew) h).imp fun hplace => hplace.stands [] rfl
  | succ depth ih =>
    obtain ⟨trees, rfl, -, hall⟩ := hfilled.exists_internal
    obtain ⟨room, rfl⟩ := Nat.exists_eq_add_one_of_ne_zero
      (Nat.ne_zero_of_lt (Nat.lt_of_succ_lt_succ hroom))
    rw [Node.items_internal] at hadds
    rw [walkNode]
    exact (walkChildren_walked collector walk hadds (fun _ _ _ _ hadds hfilled hfew h =>
      ih hadds hfilled hfew h room (Nat.lt_of_succ_lt_succ hroom)) hall _
      rfl (by simpa using hfew) h).imp fun hplace => hplace.stands [] rfl

variable (ascending : Bool)

/-- The items that a cursor has passed, with the one it points at or without. -/
def passedItems (before : List T) (x : T) : List T :=
  if ascending then before ++ [x] else before

/-- The pieces that a cursor has before it, without the item it points at or with it. -/
def pendingPieces (x : T) (behind : List (Piece T S)) : List (Piece T S) :=
  if ascending then behind else .item x :: behind

omit [Summary S] [Item T S] in
theorem passedItems_append (left before : List T) (x : T) :
    passedItems ascending (left ++ before) x = left ++ passedItems ascending before x := by
  cases ascending <;> simp [passedItems]

omit [Summary S] [Item T S] in
theorem pendingPieces_append (x : T) (behind others : List (Piece T S)) :
    pendingPieces ascending x (behind ++ others) = pendingPieces ascending x behind ++ others := by
  cases ascending <;> simp [pendingPieces]

omit [Item T S] in
/-- A walk goes on at the entry where it passes everything below; else the entry stays. -/
theorem resume_cons (hne : entries ≠ []) (ascending : Bool) (room : Nat)
    (entry : StackEntry T S D) :
    resume walk agg ascending room (entry :: entries) position aggregate =
      (resume walk agg ascending (room - 1) entries position aggregate).bind fun below =>
        if below.1.isEmpty then walkEntry walk agg true (room - 1) entry below.2.1 below.2.2
        else some (entry :: below.1, below.2) := by
  rw [resume]
  · rfl
  · exact hne

/-- A walk from where a cursor stands. -/
theorem resume_walked {room : Nat} (hadds : walk.Adds node.items) (hfilled : node.Filled depth)
    (hroom : depth < room)
    (hstands : Stands base node entries before x behind) (ascending : Bool)
    (hfew : (passed ++ Piece.itemsOf (pendingPieces ascending x behind)).length < Node.itemLimit)
    (h : collector.Between aggregate passed) :
    Walked collector walk passed (addItems base (passedItems ascending before x))
      (pendingPieces ascending x behind)
      (fun entries more y rest =>
        Stands base node entries (passedItems ascending before x ++ more) y rest)
      (resume walk agg ascending room entries (addItems base before) aggregate) := by
  induction hstands generalizing depth room with
  | @leaf base position summary items before after x itemSummaries split =>
    obtain ⟨rfl, hlength, rfl, rfl⟩ := Node.exact_leaf.1 hfilled.exact
    cases ascending with
    | true =>
      have hitems : items = (before ++ [x]) ++ after := by simp [split]
      have hat : (items.map Item.summary)[before.length]? = some (Item.summary x : S) := by
        simp [split]
      have hposition : Dimension.addSummary (addItems base before) (Item.summary x) =
        addItems base (before ++ [x]) := by simp
      rw [resume, walkEntry]
      simp only [if_true, hat, Option.bind_eq_bind, Option.bind_some, hposition]
      have hwalk := walkLeaf_walked collector walk (before ++ [x]) after
        (walk.advance ⟨.leaf (sum (items.map Item.summary)) items (items.map Item.summary),
          before.length, position⟩ (Item.summary x)) (addItems base (before ++ [x]))
        (by simp [Walk.advance]) (by rwa [← hitems]) (by simpa [pendingPieces] using hfew) h
      rw [← hitems] at hwalk
      refine hwalk.imp fun hplace => InItems.stands (before ++ [x]) hitems ?_
      simpa [Walk.advance] using hplace
    | false =>
      rw [resume, walkEntry]
      simp only [Bool.false_eq_true, if_false]
      have hwalk := walkLeaf_walked collector walk before (x :: after)
        ⟨.leaf (sum (items.map Item.summary)) items (items.map Item.summary), before.length,
          position⟩ (addItems base before) rfl (by rwa [← split])
        (by simpa [pendingPieces] using hfew) h
      rw [← split] at hwalk
      exact hwalk.imp fun hplace => hplace.stands before split
  | @internal base height summary childSummaries childTrees left right tree entries before x
      behind split inside ih =>
      obtain ⟨below, rfl, rfl, rfl, rfl, hleft, hchild, hright⟩ := hfilled.internal_split split
      rw [pendingPieces_append, Piece.itemsOf_append, ← append_assoc] at hfew
      rw [Node.items_internal, split, Node.itemsOf_append, Node.itemsOf_cons] at hadds
      have haddsChild : walk.Adds tree.items := hadds.mono (by simp)
      obtain ⟨entries', position', aggregate', hwalk, houtcome⟩ := ih haddsChild hchild
        (Nat.lt_sub_of_add_lt hroom) (by rw [length_append] at hfew; omega)
      rw [← addItems_append] at hwalk
      rw [passedItems_append, pendingPieces_append, addItems_append]
      rcases eq_or_ne entries' [] with rfl | hne
      case inr =>
        rw [resume_cons walk inside.ne_nil, hwalk, Option.bind_some, if_neg (by simpa using hne)]
        refine ⟨_, position', aggregate', rfl, ?_⟩
        refine (houtcome.append_right hne (right.map .tree)).imp_stopped hne (by simp) ?_
        rintro more y rest ⟨rest, rfl, hplace⟩
        rw [append_assoc]
        exact .internal split hplace
      case inl =>
        obtain ⟨hnowhere, rfl, hbetween⟩ := houtcome.of_nil
        -- the subtree has been passed as a whole
        have hdone : Node.itemsOf left ++ (passedItems ascending before x ++
            Piece.itemsOf (pendingPieces ascending x behind)) = Node.itemsOf (left ++ [tree]) := by
          rw [Node.itemsOf_append, Node.itemsOf_cons, Node.itemsOf_nil, append_nil,
            inside.items_eq]
          cases ascending <;> simp [passedItems, pendingPieces]
        have hsplit : childTrees = (left ++ [tree]) ++ right := by simp [split]
        have hposition : addItems (addItems (addItems base (Node.itemsOf left))
            (passedItems ascending before x))
            (Piece.itemsOf (pendingPieces ascending x behind)) =
              addItems base (Node.itemsOf (left ++ [tree])) := by
          rw [← hdone, addItems_append, addItems_append]
        obtain ⟨entries', position', aggregate'', hwalk', houtcome'⟩ :=
          walkChildren_walked collector walk (hadds.mono (by simp))
            (fun _ _ _ _ hadds hfilled hfew h => walkNode_walked collector walk hadds hfilled
              (Nat.lt_sub_of_add_lt hroom) hfew h) hright
            ⟨.internal (below + 1) (sum (childTrees.map Node.summary))
              (childTrees.map Node.summary) childTrees, left.length + 1,
              addItems base (Node.itemsOf (left ++ [tree]))⟩ rfl (by simpa using hfew) hbetween
        refine ⟨entries', position', aggregate'', ?_, ?_⟩
        · rw [resume_cons walk inside.ne_nil, hwalk, Option.bind_some,
            if_pos isEmpty_nil, walkEntry]
          simp only [if_true, hposition]
          rw [← hwalk', hsplit, map_append, drop_left' (by simp), drop_left' (by simp)]
        · refine Outcome.append_left hnowhere (hposition ▸ houtcome') ?_
          intro more y rest hplace
          rw [← append_assoc, append_assoc (Node.itemsOf left), hdone]
          rw [hposition] at hplace
          refine InChildren.stands (left ++ [tree]) hsplit ?_
          rwa [length_append, length_singleton]

/-! ### Walks that stop nowhere -/

/-- The walk returns, and has passed the items. -/
def PassesAll (passed ys : List T) (result : Option (List (StackEntry T S D) × D × A)) : Prop :=
  ∃ position' aggregate', result = some ([], position', aggregate') ∧
    collector.Between aggregate' (passed ++ ys)

variable {walk} {room : Nat} (hskip : ∀ position summary, walk.skip position summary = true)
include hskip

variable {collector} in
theorem Walked.passesAll {pieces : List (Piece T S)}
    {Place : List (StackEntry T S D) → List T → T → List (Piece T S) → Prop}
    {result : Option (List (StackEntry T S D) × D × A)}
    (h : Walked collector walk passed position pieces Place result) :
    PassesAll collector passed (Piece.itemsOf pieces) result := by
  obtain ⟨entries, position', aggregate', hwalk, houtcome⟩ := h
  cases houtcome with
  | exhausted _ held => exact ⟨_, aggregate', hwalk, held⟩
  | stopped reaches => cases reaches.kept.symm.trans (hskip _ _)

/-- Where the summaries of subtrees do not add up, the position is not that of their items, but
the items are passed all the same. -/
theorem walkChildren_passesAll (hall : ∀ tree ∈ trees, tree.Filled depth)
    (entry : StackEntry T S D) (hfew : (passed ++ Node.itemsOf trees).length < Node.itemLimit)
    (h : collector.Between aggregate passed) :
    PassesAll collector passed (Node.itemsOf trees)
      (walkChildren walk agg room entry trees (trees.map Node.summary) position aggregate) := by
  induction trees generalizing entry position aggregate passed with
  | nil => exact ⟨position, aggregate, by simp [walkChildren], by simpa using h⟩
  | cons child trees ih =>
    rw [forall_mem_cons] at hall
    rw [Node.itemsOf_cons, ← append_assoc] at hfew
    have hfew' : (passed ++ child.items).length < Node.itemLimit := by
      rw [length_append] at hfew
      omega
    obtain ⟨pushed, hpushed, hbetween⟩ := collector.pushTree h hall.1 hfew'
    rw [map_cons, walkChildren, if_pos (hskip ..), hpushed, Node.itemsOf_cons]
    obtain ⟨position', aggregate', hwalk, hdone⟩ := ih hall.2 _ hfew hbetween
    exact ⟨position', aggregate', hwalk, by rwa [← append_assoc]⟩

theorem resume_passesAll (hfilled : node.Filled depth)
    (hstands : Stands base node entries before x behind)
    (hfew : (passed ++ x :: Piece.itemsOf behind).length < Node.itemLimit)
    (h : collector.Between aggregate passed) :
    PassesAll collector passed (x :: Piece.itemsOf behind)
      (resume walk agg false room entries position aggregate) := by
  induction hstands generalizing depth room with
  | @leaf base position' summary items before after x itemSummaries split =>
    obtain ⟨rfl, hlength, rfl, rfl⟩ := Node.exact_leaf.1 hfilled.exact
    rw [resume, walkEntry]
    simp only [Bool.false_eq_true, if_false]
    have hwalk := (walkLeaf_walked collector walk before (x :: after)
      ⟨.leaf (sum (items.map Item.summary)) items (items.map Item.summary), before.length,
        position'⟩ position rfl (by rwa [← split]) (by simpa using hfew) h).passesAll hskip
    rw [← split] at hwalk
    simpa using hwalk
  | @internal base height summary childSummaries childTrees left right tree entries before x
      behind split inside ih =>
    obtain ⟨below, rfl, rfl, rfl, rfl, hleft, hchild, hright⟩ := hfilled.internal_split split
    rw [Piece.itemsOf_append, ← cons_append, ← append_assoc, Piece.itemsOf_map_tree] at hfew
    obtain ⟨position', aggregate', hwalk, hdone⟩ := ih hchild
      (by rw [length_append] at hfew; omega)
    have hsplit : childTrees = (left ++ [tree]) ++ right := by simp [split]
    obtain ⟨position'', aggregate'', hwalk', hdone'⟩ :=
      walkChildren_passesAll collector hskip hright
        ⟨.internal (below + 1) (sum (childTrees.map Node.summary))
          (childTrees.map Node.summary) childTrees, left.length + 1, position'⟩ hfew hdone
    refine ⟨position'', aggregate'', ?_, ?_⟩
    · rw [resume_cons walk inside.ne_nil, hwalk, Option.bind_some, if_pos isEmpty_nil, walkEntry]
      simp only [if_true]
      rw [← hwalk', hsplit, map_append, drop_left' (by simp), drop_left' (by simp)]
    · rwa [Piece.itemsOf_append, ← cons_append, ← append_assoc, Piece.itemsOf_map_tree]

end Source

end XorEditor.SumTree
