import XorEditor.SumTree.Seek

/-!
# Searching backward

`Cursor::search_backward` goes through the pieces before the cursor from right to left and into
those that pass the filter, and stops at the last item that passes together with all nodes of
the pieces above it.

* `Passes`: an item that passes with the nodes above it
* `Searched`: where a search backward stops
-/

namespace XorEditor.SumTree

open Lib List
open Piece (itemsOf itemsOf_cons)

universe u

variable {T S D : Type u} [Summary S] [Item T S] [LawfulDimension D S] {node : Node T S}
  {depth : Nat}

/-- An item of the pieces passes the filter, and so do the nodes of the pieces above it.
`before` and `after` are the items around it. -/
inductive Passes (filterNode : S → Bool) : List (Piece T S) → List T → T → List T → Prop
  | item {x : T} {pieces : List (Piece T S)} (passes : filterNode (Item.summary x) = true) :
      Passes filterNode (.item x :: pieces) [] x (itemsOf pieces)
  | tree {node : Node T S} {pieces : List (Piece T S)} {before after : List T} {x : T}
      (passes : filterNode node.summary = true)
      (inside : Passes filterNode node.pieces before x after) :
      Passes filterNode (.tree node :: pieces) before x (after ++ itemsOf pieces)
  | later {piece : Piece T S} {pieces : List (Piece T S)} {before after : List T} {x : T}
      (behind : Passes filterNode pieces before x after) :
      Passes filterNode (piece :: pieces) (piece.items ++ before) x after

section Passes

variable {filterNode : S → Bool} {pieces others : List (Piece T S)} {before after : List T} {x : T}

theorem Passes.reaches (h : Passes filterNode pieces before x after) (position : D) :
    Reaches (Walk.search D filterNode) position pieces before x after := by
  induction h generalizing position with
  | item passes => exact .item (by simpa [Walk.search] using passes)
  | tree passes _ ih => exact .tree (by simpa [Walk.search] using passes) (ih position)
  | later _ ih => exact .later (ih _)

/-- A search forward reaches what passes its filter. -/
theorem reaches_search_iff {position : D} :
    Reaches (Walk.search D filterNode) position pieces before x after ↔
      Passes filterNode pieces before x after := by
  refine ⟨fun h => ?_, fun h => h.reaches position⟩
  induction h with
  | item kept => exact .item (by simpa [Walk.search] using kept)
  | tree kept _ ih => exact .tree (by simpa [Walk.search] using kept) ih
  | later _ ih => exact .later ih

theorem Passes.itemsOf_eq (h : Passes filterNode pieces before x after) :
    itemsOf pieces = before ++ x :: after :=
  (h.reaches (⟨⟩ : PUnit.{u + 1})).itemsOf_eq

theorem Passes.append_right (h : Passes filterNode pieces before x after)
    (others : List (Piece T S)) :
    Passes filterNode (pieces ++ others) before x (after ++ itemsOf others) :=
  reaches_search_iff.1 ((h.reaches (⟨⟩ : PUnit.{u + 1})).append_right others)

theorem Passes.append_left (pieces : List (Piece T S))
    (h : Passes filterNode others before x after) :
    Passes filterNode (pieces ++ others) (itemsOf pieces ++ before) x after :=
  reaches_search_iff.1 (@Reaches.append_left _ _ _ _ _ _ _ _ _ _ _ pieces ⟨⟩
    (h.reaches (⟨⟩ : PUnit.{u + 1})))

/-- What passes in pieces passes in the front ones or in those behind. -/
theorem passes_append (h : Passes filterNode (pieces ++ others) before x after) :
    (∃ rest, Passes filterNode pieces before x rest) ∨
      ∃ start, before = itemsOf pieces ++ start ∧ Passes filterNode others start x after := by
  rcases reaches_append (h.reaches (⟨⟩ : PUnit.{u + 1})) with
    ⟨rest, hfront⟩ | ⟨start, hbefore, hback⟩
  · exact .inl ⟨rest, reaches_search_iff.1 hfront⟩
  · exact .inr ⟨start, hbefore, reaches_search_iff.1 hback⟩

section Nothing

omit [Summary S]

theorem not_passes_nil : ¬ Passes filterNode ([] : List (Piece T S)) before x after := nofun

theorem not_passes_item {y : T} (h : filterNode (Item.summary y) = false) :
    ¬ Passes filterNode [(.item y : Piece T S)] before x after := by
  intro hpasses
  cases hpasses with
  | item passes => exact absurd h (by simp [passes])
  | later behind => exact not_passes_nil behind

theorem not_passes_tree (h : filterNode node.summary = false) :
    ¬ Passes filterNode [.tree node] before x after := by
  intro hpasses
  cases hpasses with
  | tree passes => exact absurd h (by simp [passes])
  | later behind => exact not_passes_nil behind

end Nothing

end Passes

/-- The outcome of a search backward over pieces: no item passes, or it stands at the last one
that does.  `Place` says what the stack it leaves points at. -/
inductive Back (filterNode : S → Bool) (base : D) (pieces : List (Piece T S))
    (Place : List (StackEntry T S D) → List T → T → List (Piece T S) → Prop) :
    List (StackEntry T S D) × D → Prop
  | exhausted (nowhere : ∀ before x after, ¬ Passes filterNode pieces before x after) :
      Back filterNode base pieces Place ([], base)
  | stopped {entries : List (StackEntry T S D)} {before after : List T} {x : T}
      {behind : List (Piece T S)} (passes : Passes filterNode pieces before x after)
      (nearest : ∀ before' x' after', Passes filterNode pieces before' x' after' →
        before'.length ≤ before.length)
      (place : Place entries before x behind) (ne_nil : entries ≠ []) :
      Back filterNode base pieces Place (entries, addItems base before)

section Back

variable {filterNode : S → Bool} {base : D} {pieces others : List (Piece T S)}
  {Place Place' : List (StackEntry T S D) → List T → T → List (Piece T S) → Prop}
  {entries : List (StackEntry T S D)} {result : List (StackEntry T S D) × D}

/-- A search that leaves nothing on the stack has found nothing. -/
theorem Back.of_nil (h : Back filterNode base pieces Place result) (hnil : result.1 = []) :
    ∀ before x after, ¬ Passes filterNode pieces before x after := by
  cases h with
  | exhausted nowhere => exact nowhere
  | stopped _ _ _ ne_nil => exact absurd hnil ne_nil

theorem Back.imp (h : Back filterNode base pieces Place result)
    (himp : ∀ before x behind, Place result.1 before x behind →
      ∃ behind', Place' result.1 before x behind') : Back filterNode base pieces Place' result := by
  cases h with
  | exhausted nowhere => exact .exhausted nowhere
  | stopped passes nearest place ne_nil =>
    obtain ⟨behind', place'⟩ := himp _ _ _ place
    exact .stopped passes nearest place' ne_nil

/-- What is found in the later pieces is found first; what the search leaves on the stack may be
put on top of more. -/
theorem Back.append_left (pieces : List (Piece T S)) {entries' : List (StackEntry T S D)}
    (h : Back filterNode (addItems base (itemsOf pieces)) others Place result)
    (hne : result.1 ≠ []) (hne' : entries' ≠ [])
    (himp : ∀ before x behind, Place result.1 before x behind →
      ∃ behind', Place' entries' (itemsOf pieces ++ before) x behind') :
    Back filterNode base (pieces ++ others) Place' (entries', result.2) := by
  cases h with
  | exhausted => exact absurd rfl hne
  | stopped passes nearest place ne_nil =>
    obtain ⟨behind', place'⟩ := himp _ _ _ place
    rw [← addItems_append]
    refine .stopped (passes.append_left pieces) ?_ place' hne'
    intro before' x' after' hpasses
    rcases passes_append hpasses with ⟨rest, hfront⟩ | ⟨start, rfl, hback⟩
    · rw [hfront.itemsOf_eq]
      simp only [length_append, length_cons]
      omega
    · have hle := nearest _ _ _ hback
      simp only [length_append]
      omega

/-- Pieces in which the same items pass are searched alike. -/
theorem Back.congr (h : Back filterNode base pieces Place result)
    (hto : ∀ {before x after}, Passes filterNode pieces before x after →
      ∃ rest, Passes filterNode others before x rest)
    (hfrom : ∀ {before x after}, Passes filterNode others before x after →
      ∃ rest, Passes filterNode pieces before x rest) :
    Back filterNode base others Place result := by
  cases h with
  | exhausted nowhere =>
    refine .exhausted fun before x after hpasses => ?_
    obtain ⟨rest, hrest⟩ := hfrom hpasses
    exact nowhere _ _ _ hrest
  | stopped passes nearest place ne_nil =>
    obtain ⟨rest, hrest⟩ := hto passes
    refine .stopped hrest (fun before' x' after' hpasses => ?_) place ne_nil
    obtain ⟨rest, hrest⟩ := hfrom hpasses
    exact nearest _ _ _ hrest

/-- Where nothing is found in the later pieces, the search goes on with those before. -/
theorem Back.append_right (nowhere : ∀ before x after, ¬ Passes filterNode others before x after)
    (h : Back filterNode base pieces Place result) :
    Back filterNode base (pieces ++ others) Place result :=
  h.congr (fun passes => ⟨_, passes.append_right others⟩) fun hpasses =>
    (passes_append hpasses).resolve_right fun ⟨_, _, hback⟩ => nowhere _ _ _ hback

/-- A subtree that passes is searched. -/
theorem Back.of_tree (passes : filterNode node.summary = true)
    (h : Back filterNode base node.pieces Place result) :
    Back filterNode base [.tree node] Place result := by
  refine h.congr (fun inside => ⟨_, .tree passes inside⟩) fun hpasses => ?_
  cases hpasses with
  | tree _ inside => exact ⟨_, inside⟩
  | later behind => exact absurd behind not_passes_nil

end Back

/-! ## The searches of the source -/

/-- The search returns, and its outcome is as it should be. -/
def Searched (filterNode : S → Bool) (base : D) (pieces : List (Piece T S))
    (Place : List (StackEntry T S D) → List T → T → List (Piece T S) → Prop)
    (result : Option (List (StackEntry T S D) × D)) : Prop :=
  ∃ found, result = some found ∧ Back filterNode base pieces Place found

section Source

variable (filterNode : S → Bool) {room : Nat}

theorem searchItems_back (tree : Node T S) (ys : List T) (index : Nat) (position : D) :
    Back filterNode position (ys.map .item) (InItems tree index ys)
      (searchItems filterNode tree (ys.map Item.summary) index position) := by
  induction ys generalizing index position with
  | nil => exact .exhausted fun _ _ _ => not_passes_nil
  | cons y ys ih =>
    have hlater := ih (index + 1) (Dimension.addSummary position (Item.summary y))
    rw [map_cons, map_cons, searchItems]
    split
    next hnil =>
      have hnowhere := hlater.of_nil (by simpa using hnil)
      split
      next hpasses =>
        have hfound : Back filterNode position [(.item y : Piece T S)]
            (InItems tree index (y :: ys)) ([⟨tree, index, position⟩], position) := by
          refine .stopped (.item hpasses) ?_ ⟨ys, position, rfl, rfl, rfl⟩ (by simp)
          intro before' x' after' hpasses'
          have hsplit := congrArg List.length hpasses'.itemsOf_eq
          simp only [itemsOf_cons, Piece.items_item, Piece.itemsOf_nil, append_nil,
            length_cons, length_nil, length_append] at hsplit ⊢
          omega
        exact hfound.append_right hnowhere
      next hfails =>
        exact Back.append_right hnowhere
          (.exhausted fun _ _ _ => not_passes_item (by simpa using hfails))
    next hne =>
      have hne' : (searchItems filterNode tree (ys.map Item.summary) (index + 1)
        (Dimension.addSummary position (Item.summary y))).1 ≠ [] := by simpa using hne
      refine Back.append_left [.item y] hlater hne' hne' ?_
      rintro before x behind ⟨after, position, rfl, rfl, hentries⟩
      refine ⟨_, after, position, rfl, rfl, ?_⟩
      rw [hentries]
      simp only [itemsOf_cons, Piece.items_item, Piece.itemsOf_nil, append_nil,
        singleton_append, length_cons]
      rw [Nat.add_right_comm, Nat.add_assoc]

/-- The search of children, if that of a subtree is as it should be. -/
theorem searchChildren_back
    (hnode : ∀ (tree : Node T S) (position : D), tree.Filled depth →
      Searched filterNode position tree.pieces (Stands position tree)
        (searchNode filterNode room tree position))
    (tree : Node T S) {trees : List (Node T S)} (hall : ∀ tree ∈ trees, tree.Filled depth)
    (index : Nat) (position : D) :
    Searched filterNode position (trees.map .tree) (InChildren tree index position trees)
      (searchChildren filterNode room tree trees (trees.map Node.summary) index position) := by
  induction trees generalizing index position with
  | nil =>
    rw [map_nil, map_nil, searchChildren]
    · exact ⟨_, rfl, .exhausted fun _ _ _ => not_passes_nil⟩
    · simp
  | cons child trees ih =>
    rw [forall_mem_cons] at hall
    obtain ⟨later, hsearch, hlater⟩ := ih hall.2 (index + 1) (addItems position child.items)
    rw [map_cons, map_cons, searchChildren, hall.1.addSummary, hsearch]
    rcases eq_or_ne later.1 [] with hnil | hne
    case inr =>
      refine ⟨later, by simp [hne], ?_⟩
      refine Back.append_left [.tree child] (by simpa using hlater) hne hne ?_
      intro before x behind hplace
      exact ⟨behind, by simpa using hplace.cons⟩
    case inl =>
      have hnowhere := hlater.of_nil hnil
      cases hpasses : filterNode child.summary with
      | false =>
        refine ⟨([], position), by simp [hnil], ?_⟩
        exact Back.append_right hnowhere (.exhausted fun _ _ _ => not_passes_tree hpasses)
      | true =>
        obtain ⟨below, hsearch', hbelow⟩ := hnode child position hall.1
        have hchild := hbelow.of_tree hpasses
        rcases eq_or_ne below.1 [] with hnil' | hne'
        case inl =>
          refine ⟨([], position), by simp [hnil, hsearch', hnil'], ?_⟩
          exact Back.append_right hnowhere (.exhausted (hchild.of_nil hnil'))
        case inr =>
          refine ⟨(⟨tree, index, position⟩ :: below.1, below.2), by simp [hnil, hsearch', hne'], ?_⟩
          refine Back.append_right hnowhere (Back.append_left [] hchild hne' (by simp) ?_)
          intro before x behind hstands
          exact ⟨_, [], child, trees, _, before, behind, rfl, by simp, hstands, rfl, rfl⟩

variable {filterNode} in
theorem Searched.imp {base : D} {pieces : List (Piece T S)}
    {Place Place' : List (StackEntry T S D) → List T → T → List (Piece T S) → Prop}
    {result : Option (List (StackEntry T S D) × D)}
    (h : Searched filterNode base pieces Place result)
    (himp : ∀ {entries before x behind}, Place entries before x behind →
      ∃ behind', Place' entries before x behind') :
    Searched filterNode base pieces Place' result := by
  obtain ⟨found, hfound, hback⟩ := h
  exact ⟨found, hfound, hback.imp fun _ _ _ hplace => himp hplace⟩

/-- The search of a subtree, with room on the stack for each of its levels. -/
theorem searchNode_back (hfilled : node.Filled depth) (hroom : depth < room) (position : D) :
    Searched filterNode position node.pieces (Stands position node)
      (searchNode filterNode room node position) := by
  obtain ⟨room, rfl⟩ := Nat.exists_eq_add_one_of_ne_zero (Nat.ne_zero_of_lt hroom)
  induction depth generalizing node position room with
  | zero =>
    obtain ⟨xs, rfl, -, -⟩ := hfilled.exists_leaf
    rw [searchNode]
    exact ⟨_, rfl, (searchItems_back filterNode _ xs 0 position).imp fun _ _ _ hplace =>
      ⟨_, hplace.stands [] rfl⟩⟩
  | succ depth ih =>
    obtain ⟨trees, rfl, -, hall⟩ := hfilled.exists_internal
    obtain ⟨room, rfl⟩ := Nat.exists_eq_add_one_of_ne_zero
      (Nat.ne_zero_of_lt (Nat.lt_of_succ_lt_succ hroom))
    rw [searchNode]
    exact (searchChildren_back filterNode (fun _ position hfilled =>
      ih hfilled position room (Nat.lt_of_succ_lt_succ hroom)) _ hall 0 position).imp
        fun hplace => ⟨_, hplace.stands [] rfl⟩

end Source

/-- The pieces left of what an entry points at. -/
def StackEntry.piecesBefore (entry : StackEntry T S D) : List (Piece T S) :=
  entry.tree.pieces.take entry.index

/-- The pieces left of what a stack points at, in their order. -/
def piecesBefore (entries : List (StackEntry T S D)) : List (Piece T S) :=
  entries.flatMap StackEntry.piecesBefore

section Stack

variable {base : D} {node : Node T S} {entries : List (StackEntry T S D)} {before : List T} {x : T}
  {behind : List (Piece T S)}

theorem Stands.itemsOf_piecesBefore (h : Stands base node entries before x behind) :
    itemsOf (piecesBefore entries) = before := by
  induction h with
  | leaf split => simp [piecesBefore, StackEntry.piecesBefore, Node.pieces, split]
  | internal split _ ih =>
    rw [piecesBefore, flatMap_cons, Piece.itemsOf_append]
    rw [piecesBefore] at ih
    simp [StackEntry.piecesBefore, Node.pieces, split, ih]

/-- A search from where a cursor stands goes over the pieces before it. -/
theorem searchStack_back (filterNode : S → Bool) {room : Nat} (hfilled : node.Filled depth)
    (hroom : depth < room) (h : Stands base node entries before x behind) :
    Searched filterNode base (piecesBefore entries) (Stands base node)
      (searchStack filterNode room entries base) := by
  induction h generalizing depth room with
  | @leaf base position summary items before after x itemSummaries split =>
    obtain ⟨rfl, -, rfl, rfl⟩ := Node.exact_leaf.1 hfilled.exact
    have hpieces : piecesBefore [(⟨.leaf (sum (items.map Item.summary)) items
        (items.map Item.summary), before.length, position⟩ : StackEntry T S D)] =
          before.map .item := by
      simp [piecesBefore, StackEntry.piecesBefore, Node.pieces, split]
    have hsummaries : (items.map Item.summary).take before.length =
        before.map (Item.summary : T → S) := by simp [split]
    rw [searchStack, searchStack, hpieces]
    refine ⟨_, by rw [some_do, if_pos (by rfl), searchEntry], ?_⟩
    simp only [hsummaries]
    refine (searchItems_back filterNode _ before 0 base).imp ?_
    rintro more y rest ⟨back, position, rfl, rfl, hentries⟩
    rw [hentries, Nat.zero_add]
    exact ⟨_, .leaf (show items = more ++ y :: (back ++ x :: after) by simp [split])⟩
  | @internal base height summary childSummaries childTrees left right tree entries before x
      behind split inside ih =>
      obtain ⟨below, rfl, rfl, rfl, rfl, hleft, hchild, hright⟩ := hfilled.internal_split split
      have hroom' : below < room - 1 := Nat.lt_sub_of_add_lt hroom
      obtain ⟨found, hfound, hbelow⟩ := ih hchild hroom'
      have hpieces : piecesBefore ((⟨.internal (below + 1) (sum (childTrees.map Node.summary))
          (childTrees.map Node.summary) childTrees, left.length,
          addItems base (Node.itemsOf left)⟩ : StackEntry T S D) :: entries) =
            left.map .tree ++ piecesBefore entries := by
        simp [piecesBefore, StackEntry.piecesBefore, Node.pieces, split]
      rw [searchStack, hpieces, hfound, some_do]
      rcases eq_or_ne found.1 [] with hnil | hne
      case inl =>
        have hnowhere := hbelow.of_nil hnil
        have hsummaries : (childTrees.map Node.summary).take left.length =
            left.map Node.summary := by simp [split]
        have htrees : childTrees.take left.length = left := by simp [split]
        rw [if_pos (by simp [hnil]), searchEntry]
        simp only [hsummaries, htrees]
        obtain ⟨found', hfound', hback⟩ := searchChildren_back filterNode
          (fun _ position hfilled => searchNode_back filterNode hfilled hroom' position)
          (.internal (below + 1) (sum (childTrees.map Node.summary)) (childTrees.map Node.summary)
            childTrees) hleft 0 base
        refine ⟨found', hfound', Back.append_right hnowhere (hback.imp ?_)⟩
        rintro more y rest ⟨left', child, right', below', before', behind', rfl, hentries,
          hstands, rfl, rfl⟩
        have hsplit : childTrees = left' ++ child :: (right' ++ tree :: right) := by simp [split]
        rw [hentries, Nat.zero_add]
        exact ⟨_, .internal hsplit hstands⟩
      case inr =>
        refine ⟨_, if_neg (by simpa using hne), ?_⟩
        refine Back.append_left (left.map .tree) (by simpa using hbelow) hne (by simp) ?_
        intro more y rest hstands
        rw [Piece.itemsOf_map_tree]
        exact ⟨_, .internal split hstands⟩

end Stack

end XorEditor.SumTree
