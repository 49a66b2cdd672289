import Mathlib.Algebra.GroupWithZero.Nat
import XorEditor.Lib.Loop

/-!
# Sum trees

A sum tree is a tree of bounded width whose leaves hold items and whose nodes hold the
summaries of the items below them.  The summary of a list is the sum of its items' summaries.
Zero has to be neutral on the left only: the summary of a map entry is its key, and adding a
summary replaces the key.

* `Summary`, `Item`, `Node`: the trees
* `Fits`: their shape
* `Exact`: the summaries in them are those of the items
-/

namespace XorEditor.SumTree

open List

universe u

/-- `Summary`: what is known of a sequence of items. -/
class Summary (S : Type u) extends Add S, Zero S where
  add_assoc : ∀ a b c : S, a + b + c = a + (b + c)
  zero_add : ∀ a : S, 0 + a = a

/-- `Item`: a value with a summary. -/
class Item (T : Type u) (S : outParam (Type u)) where
  summary : T → S

namespace Sample

/-- Numbers that are added up. -/
scoped instance : Summary Nat where
  add_assoc := Nat.add_assoc
  zero_add := Nat.zero_add

scoped instance : Item Nat Nat where
  summary n := n

end Sample

/-- `TREE_BASE`. -/
def treeBase : Nat := 6

/-- The capacity of the stack of a `Cursor`. -/
def stackCapacity : Nat := 16

/-- `u8::MAX`: the height of a node is a byte. -/
def maxHeight : Nat := 255

/-- `sum`: the summaries added up from the left. -/
def sum {S : Type u} [Summary S] (summaries : List S) : S := summaries.foldl (· + ·) 0

section Sum

variable {S : Type u} [Summary S]

theorem foldl_add (a b : S) (summaries : List S) :
    summaries.foldl (· + ·) (a + b) = a + summaries.foldl (· + ·) b := by
  induction summaries generalizing b with
  | nil => rfl
  | cons c summaries ih => rw [foldl_cons, foldl_cons, Summary.add_assoc, ih]

@[simp] theorem sum_nil : sum ([] : List S) = 0 := rfl

@[simp] theorem sum_singleton (a : S) : sum [a] = a := Summary.zero_add a

/-- Something may be added in front of summaries that are there. -/
theorem foldl_eq_add_sum (a : S) {summaries : List S} (h : summaries ≠ []) :
    summaries.foldl (· + ·) a = a + sum summaries := by
  obtain ⟨b, rest, rfl⟩ := exists_cons_of_ne_nil h
  rw [sum, foldl_cons, foldl_cons, Summary.zero_add, foldl_add]

/-- The sums of adjacent parts are added. -/
theorem sum_append (summaries : List S) {others : List S} (h : others ≠ []) :
    sum (summaries ++ others) = sum summaries + sum others := by
  rw [sum, foldl_append, foldl_eq_add_sum _ h]
  rfl

/-- The sums of parts add up to the sum of the whole. -/
theorem sum_flatMap {α : Type*} (parts : List α) (summaries : α → List S)
    (h : ∀ part ∈ parts, summaries part ≠ []) :
    sum (parts.map fun part => sum (summaries part)) = sum (parts.flatMap summaries) := by
  induction parts with
  | nil => rfl
  | cons part rest ih =>
    rw [forall_mem_cons] at h
    cases rest with
    | nil => simp
    | cons next others =>
      have hrest : (next :: others).flatMap summaries ≠ [] := by
        rw [flatMap_cons]
        exact append_ne_nil_of_left_ne_nil (h.2 next (mem_cons_self ..)) _
      have hcons : (part :: next :: others).flatMap summaries =
          summaries part ++ (next :: others).flatMap summaries := flatMap_cons
      rw [map_cons, ← singleton_append, sum_append _ (by simp), ih h.2, hcons,
        sum_append _ hrest, sum_singleton]

end Sum

/-- `Node`: a leaf with its items, or an inner node with its children, each with the summaries
of what it holds and the summary of all of it. -/
inductive Node (T S : Type u) where
  | leaf (summary : S) (items : List T) (itemSummaries : List S)
  | internal (height : Nat) (summary : S) (childSummaries : List S)
      (childTrees : List (Node T S))

namespace Node

variable {T S : Type u}

mutual

/-- The items below a node, in order. -/
def items : Node T S → List T
  | leaf _ items _ => items
  | internal _ _ _ childTrees => itemsOf childTrees

/-- The items below several nodes, in order. -/
def itemsOf : List (Node T S) → List T
  | [] => []
  | tree :: trees => tree.items ++ itemsOf trees

end

@[simp] theorem items_leaf (summary : S) (items : List T) (itemSummaries : List S) :
    (leaf summary items itemSummaries).items = items := by
  rw [Node.items]

@[simp] theorem items_internal (height : Nat) (summary : S) (childSummaries : List S)
    (childTrees : List (Node T S)) :
    (internal height summary childSummaries childTrees).items = itemsOf childTrees := by
  rw [Node.items]

@[simp] theorem itemsOf_nil : itemsOf ([] : List (Node T S)) = [] := by
  rw [itemsOf]

@[simp] theorem itemsOf_cons (tree : Node T S) (trees : List (Node T S)) :
    itemsOf (tree :: trees) = tree.items ++ itemsOf trees := by
  rw [itemsOf]

theorem itemsOf_eq_flatMap (trees : List (Node T S)) : itemsOf trees = trees.flatMap items := by
  induction trees with
  | nil => simp
  | cons tree trees ih => rw [itemsOf_cons, ih, flatMap_cons]

@[simp] theorem itemsOf_append (trees others : List (Node T S)) :
    itemsOf (trees ++ others) = itemsOf trees ++ itemsOf others := by
  simp only [itemsOf_eq_flatMap, flatMap_append]

theorem le_length_itemsOf {n : Nat} {trees : List (Node T S)}
    (h : ∀ tree ∈ trees, n ≤ tree.items.length) : trees.length * n ≤ (itemsOf trees).length := by
  induction trees with
  | nil => simp
  | cons tree trees ih =>
    rw [forall_mem_cons] at h
    rw [itemsOf_cons, length_cons, length_append, Nat.succ_mul, Nat.add_comm]
    exact Nat.add_le_add h.1 (ih h.2)

theorem length_itemsOf_le {n : Nat} {trees : List (Node T S)}
    (h : ∀ tree ∈ trees, tree.items.length ≤ n) : (itemsOf trees).length ≤ trees.length * n := by
  induction trees with
  | nil => simp
  | cons tree trees ih =>
    rw [forall_mem_cons] at h
    rw [itemsOf_cons, length_cons, length_append, Nat.succ_mul, Nat.add_comm]
    exact Nat.add_le_add (ih h.2) h.1

/-- `Node::height`. -/
def height : Node T S → Nat
  | leaf .. => 0
  | internal height .. => height

/-- `Node::summary`. -/
def summary : Node T S → S
  | leaf summary .. => summary
  | internal _ summary .. => summary

@[simp] theorem summary_leaf (summary : S) (items : List T) (itemSummaries : List S) :
    (leaf summary items itemSummaries).summary = summary := rfl

@[simp] theorem summary_internal (height : Nat) (summary : S) (childSummaries : List S)
    (childTrees : List (Node T S)) :
    (internal height summary childSummaries childTrees).summary = summary := rfl

/-- `Node::child_summaries`. -/
def childSummaries : Node T S → List S
  | leaf _ _ itemSummaries => itemSummaries
  | internal _ _ childSummaries _ => childSummaries

/-- `Node::child_trees`, which panics at a leaf. -/
def childTrees? : Node T S → Option (List (Node T S))
  | leaf .. => none
  | internal _ _ _ childTrees => some childTrees

/-- `Node::items`, which panics at an inner node. -/
def items? : Node T S → Option (List T)
  | leaf _ items _ => some items
  | internal .. => none

/-- `SumTree::is_empty`. -/
def isEmpty : Node T S → Bool
  | leaf _ items _ => items.isEmpty
  | internal .. => false

/-- `Node::is_underflowing`. -/
def isUnderflowing : Node T S → Bool
  | leaf _ items _ => items.length < treeBase
  | internal _ _ _ childTrees => childTrees.length < treeBase

/-- A leaf, if its items fit into the fixed capacity. -/
def leaf? (summary : S) (items : List T) (itemSummaries : List S) : Option (Node T S) :=
  if items.length ≤ 2 * treeBase ∧ itemSummaries.length ≤ 2 * treeBase then
    some (leaf summary items itemSummaries)
  else none

/-- An inner node, if its children fit into the fixed capacity. -/
def internal? (height : Nat) (summary : S) (childSummaries : List S)
    (childTrees : List (Node T S)) : Option (Node T S) :=
  if childTrees.length ≤ 2 * treeBase ∧ childSummaries.length ≤ 2 * treeBase then
    some (internal height summary childSummaries childTrees)
  else none

section Exact

variable [Summary S] [Item T S]

/-- How many children an inner node may have: as many as fit, one at least, and two in a node
that is too high for the stack of a cursor.  (`from_iter` leaves nodes with one child at the end
of a level, but no list is long enough to make them that high.) -/
def Fits (height count : Nat) : Prop :=
  0 < count ∧ (stackCapacity ≤ height → 2 ≤ count) ∧ count ≤ 2 * treeBase

/-- The node is the root of a tree of the given height: its leaves are all that deep, every inner
node has as many children as it may have, none but the root may be empty, and every summary is
the sum of those below it. -/
def Exact : Nat → Node T S → Prop
  | 0, leaf summary items itemSummaries =>
    items.length ≤ 2 * treeBase ∧ itemSummaries = items.map Item.summary ∧
      summary = sum itemSummaries
  | depth + 1, internal height summary childSummaries childTrees =>
    height = depth + 1 ∧ Fits (depth + 1) childTrees.length ∧
      childSummaries = childTrees.map Node.summary ∧ summary = sum childSummaries ∧
      ∀ tree ∈ childTrees, Exact depth tree ∧ tree.isEmpty = false
  | _, _ => False

variable {depth : Nat} {node : Node T S}

theorem fits_of_two_le {height count : Nat} (h : 2 ≤ count) (hmax : count ≤ 2 * treeBase) :
    Fits height count :=
  ⟨by omega, fun _ => h, hmax⟩

theorem Fits.mono {height count count' : Nat} (h : Fits height count) (hle : count ≤ count')
    (hmax : count' ≤ 2 * treeBase) : Fits height count' :=
  ⟨Nat.lt_of_lt_of_le h.1 hle, fun hhigh => Nat.le_trans (h.2.1 hhigh) hle, hmax⟩

theorem exact_leaf {summary : S} {items : List T} {itemSummaries : List S} :
    Exact depth (leaf summary items itemSummaries) ↔
      depth = 0 ∧ items.length ≤ 2 * treeBase ∧ itemSummaries = items.map Item.summary ∧
        summary = sum itemSummaries := by
  cases depth <;> simp [Exact]

theorem exact_internal {height : Nat} {summary : S} {childSummaries : List S}
    {childTrees : List (Node T S)} :
    Exact depth (internal height summary childSummaries childTrees) ↔
      ∃ below, depth = below + 1 ∧ height = below + 1 ∧ Fits (below + 1) childTrees.length ∧
        childSummaries = childTrees.map Node.summary ∧ summary = sum childSummaries ∧
        ∀ tree ∈ childTrees, Exact below tree ∧ tree.isEmpty = false := by
  cases depth with
  | zero => simp [Exact]
  | succ depth => simp [Exact]

variable (h : Exact depth node)
include h

theorem Exact.height_eq : node.height = depth := by
  cases node with
  | leaf => exact (exact_leaf.1 h).1.symm
  | internal =>
    obtain ⟨below, rfl, hheight, -⟩ := exact_internal.1 h
    exact hheight

/-- A tree that is not empty has items. -/
theorem Exact.items_ne_nil (hempty : node.isEmpty = false) : node.items ≠ [] := by
  induction depth generalizing node with
  | zero =>
    cases node with
    | leaf => simpa [isEmpty] using hempty
    | internal => exact h.elim
  | succ depth ih =>
    cases node with
    | leaf => exact h.elim
    | internal height summary childSummaries childTrees =>
      obtain ⟨-, hfits, -, -, hall⟩ := h
      obtain ⟨tree, trees, rfl⟩ := exists_cons_of_length_pos hfits.1
      have hfirst := hall tree (mem_cons_self ..)
      rw [items_internal, itemsOf_cons]
      exact append_ne_nil_of_left_ne_nil (ih hfirst.1 hfirst.2) _

theorem Exact.isEmpty_iff : node.isEmpty = true ↔ node.items = [] := by
  cases hempty : node.isEmpty with
  | false => simpa using h.items_ne_nil hempty
  | true =>
    cases node with
    | leaf => simpa [isEmpty] using hempty
    | internal => cases hempty

/-- The summary of every node is the sum of the summaries of its items. -/
theorem Exact.summary_eq : node.summary = sum (node.items.map Item.summary) := by
  induction depth generalizing node with
  | zero =>
    cases node with
    | leaf summary items itemSummaries =>
      obtain ⟨-, rfl, rfl⟩ := h
      rw [items_leaf, Node.summary]
    | internal => exact h.elim
  | succ depth ih =>
    cases node with
    | leaf => exact h.elim
    | internal height summary childSummaries childTrees =>
      obtain ⟨-, -, rfl, rfl, hall⟩ := h
      have hparts : childTrees.map Node.summary =
          childTrees.map fun tree => sum (tree.items.map Item.summary) :=
        map_congr_left fun tree htree => ih (hall tree htree).1
      rw [Node.summary, hparts, sum_flatMap, items_internal, itemsOf_eq_flatMap, map_flatMap]
      intro tree htree
      simpa using (hall tree htree).1.items_ne_nil (hall tree htree).2

/-- A tree has at most as many items as its height allows. -/
theorem Exact.length_items_le : node.items.length ≤ (2 * treeBase) ^ (depth + 1) := by
  induction depth generalizing node with
  | zero =>
    cases node with
    | leaf => simpa using h.1
    | internal => exact h.elim
  | succ depth ih =>
    cases node with
    | leaf => exact h.elim
    | internal height summary childSummaries childTrees =>
      obtain ⟨-, hfits, -, -, hall⟩ := h
      rw [items_internal, Nat.pow_succ, Nat.mul_comm]
      exact Nat.le_trans (length_itemsOf_le fun tree htree => ih (hall tree htree).1)
        (Nat.mul_le_mul_right _ hfits.2.2)

/-- The items of a tree that is too high for a cursor double with its height. -/
theorem Exact.two_pow_le (hempty : node.isEmpty = false) :
    2 ^ (depth + 1 - stackCapacity) ≤ node.items.length := by
  induction depth generalizing node with
  | zero => exact length_pos_iff.2 (h.items_ne_nil hempty)
  | succ depth ih =>
    by_cases hlow : depth + 1 < stackCapacity
    · rw [Nat.sub_eq_zero_of_le hlow]
      exact length_pos_iff.2 (h.items_ne_nil hempty)
    cases node with
    | leaf => exact h.elim
    | internal height summary childSummaries childTrees =>
      obtain ⟨-, hfits, -, -, hall⟩ := h
      rw [Nat.not_lt] at hlow
      rw [items_internal, Nat.sub_add_comm hlow, Nat.pow_succ, Nat.mul_comm]
      exact Nat.le_trans (Nat.mul_le_mul_right _ (hfits.2.1 hlow))
        (le_length_itemsOf fun tree htree => ih (hall tree htree).1 (hall tree htree).2)

end Exact

end Node
end XorEditor.SumTree
