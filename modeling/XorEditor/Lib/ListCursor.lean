import Mathlib.Algebra.BigOperators.Group.List.Basic
import Mathlib.Algebra.GroupWithZero.Nat
import Mathlib.Order.Lattice

/-!
# Cursors over summarised lists

A sequence whose items carry summaries is traversed by a cursor that stands between two
items.  The cursor is a zipper: the items already passed and the items still ahead.  A
*dimension* accumulates the summaries of the items passed into a position, and seeking
passes items as long as their end position does not reach the target.

Nothing here depends on what the items are.  A balanced tree with cached summaries is one
implementation of this interface; an array with prefix sums would be another.

* `Dimension`, `ListCursor`: positions and cursors
* `slice`: a seek that returns what it passes
* `slice_ofList_spec`: where a seek from the first item stops
-/

namespace XorEditor.Lib

open List

section Split

variable {α : Type*} {p : α → Bool} {x : α} {xs ys before after : List α}

theorem append_eq_append_cons (h : xs ++ ys = before ++ x :: after) :
    (∃ rest, xs = before ++ x :: rest ∧ after = rest ++ ys) ∨
      ∃ start, before = xs ++ start ∧ ys = start ++ x :: after := by
  rcases append_eq_append_iff.1 h with ⟨start, rfl, hys⟩ | ⟨rest, rfl, hrest⟩
  · exact .inr ⟨start, rfl, hys⟩
  · cases rest with
    | nil => exact .inr ⟨[], by simp, hrest.symm⟩
    | cons y rest =>
      obtain ⟨rfl, rfl⟩ := List.cons.inj hrest
      exact .inl ⟨rest, rfl, rfl⟩

/-- Where a scan of a list stops. -/
theorem span_eq (hxs : ∀ y ∈ xs, p y = true) (hys : ∀ y tail, ys = y :: tail → p y = false) :
    (xs ++ ys).takeWhile p = xs ∧ (xs ++ ys).dropWhile p = ys := by
  rw [takeWhile_append_of_pos hxs, dropWhile_append_of_pos hxs]
  cases ys with
  | nil => simp
  | cons y tail => simp [hys y tail rfl]

end Split

/-- The side an ambiguous position is attached to. -/
inductive Bias where
  | left
  | right
deriving DecidableEq, Repr, Inhabited

/-- A dimension accumulates summaries of type `S` into positions of type `D`. -/
structure Dimension (S D : Type*) where
  zero : D
  addSummary : D → S → D

namespace Dimension

variable {α S D : Type*} (dim : Dimension S D) (summary : α → S)

/-- The position reached by passing the items of a list, starting from `start`. -/
def measureFrom (start : D) (items : List α) : D :=
  items.foldl (fun position item => dim.addSummary position (summary item)) start

/-- The position reached by passing the items of a list from the beginning. -/
def measure (items : List α) : D := dim.measureFrom summary dim.zero items

@[simp] theorem measureFrom_nil (start : D) : dim.measureFrom summary start [] = start := rfl

@[simp] theorem measureFrom_cons (start : D) (item : α) (items : List α) :
    dim.measureFrom summary start (item :: items) =
      dim.measureFrom summary (dim.addSummary start (summary item)) items := rfl

theorem measureFrom_append (start : D) (xs ys : List α) : dim.measureFrom summary start (xs ++ ys) =
      dim.measureFrom summary (dim.measureFrom summary start xs) ys := by
  simp [measureFrom, foldl_append]

theorem measure_concat (items : List α) (item : α) : dim.measure summary (items ++ [item]) =
      dim.addSummary (dim.measure summary items) (summary item) := by
  simp [measure, measureFrom_append]

end Dimension

/-- Whether a seek goes past an item that ends at a position comparing to the target as
`comparison`: the target lies beyond the end, or exactly at it with a right bias. -/
def passes (comparison : Ordering) (bias : Bias) : Bool :=
  comparison == Ordering.gt || (comparison == Ordering.eq && bias == Bias.right)

theorem passes_left_iff {K : Type*} [LinearOrder K] (target position : K) :
    passes (compare target position) Bias.left = true ↔ position < target := by
  rcases lt_trichotomy target position with h | h | h
  · simp [passes, compare_lt_iff_lt.mpr h, le_of_lt h]
  · simp [passes, h]
  · simp [passes, compare_gt_iff_gt.mpr h, h]

theorem passes_right_iff {K : Type*} [LinearOrder K] (target position : K) :
    passes (compare target position) Bias.right = true ↔ position ≤ target := by
  rcases lt_trichotomy target position with h | h | h
  · simp [passes, compare_lt_iff_lt.mpr h, h]
  · simp [passes, h]
  · simp [passes, compare_gt_iff_gt.mpr h, le_of_lt h]

theorem passes_left_compare (target position : Nat) :
    passes (compare target position) Bias.left = decide (position < target) := by
  rw [Bool.eq_iff_iff, decide_eq_true_iff]
  exact passes_left_iff target position

theorem passes_right_compare (target position : Nat) :
    passes (compare target position) Bias.right = decide (position ≤ target) := by
  rw [Bool.eq_iff_iff, decide_eq_true_iff]
  exact passes_right_iff target position

/-- A position in a list: the items before it, in order, and the items after it. -/
structure ListCursor (α : Type*) where
  before : List α
  rest : List α

namespace ListCursor

variable {α S D : Type*} (cursor : ListCursor α)

/-- The whole list the cursor moves over. -/
def items : List α := cursor.before ++ cursor.rest

variable (items : List α) {rest : List α}

/-- A cursor in front of the first item. -/
def ofList : ListCursor α := { before := [], rest := items }

/-- The item the cursor stands in front of. -/
def item : Option α := cursor.rest.head?

/-- Step over the current item; at the end of the list the cursor stays. -/
def next : ListCursor α :=
  match cursor.rest with
  | [] => cursor
  | item :: rest => { before := cursor.before ++ [item], rest }

section Position

variable (dim : Dimension S D) (summary : α → S) (cursor : ListCursor α)

/-- The position in front of the current item. -/
def start : D := dim.measure summary cursor.before

/-- The position behind the current item, or the start position at the end. -/
def endPosition : D :=
  match cursor.rest with
  | [] => cursor.start dim summary
  | item :: _ => dim.addSummary (cursor.start dim summary) (summary item)

/-- Split a list at the first item whose end position is not passed. -/
def spanPassed (stepsOver : D → Bool) : D → List α → List α × List α
  | _, [] => ([], [])
  | position, item :: rest =>
    let itemEnd := dim.addSummary position (summary item)
    if stepsOver itemEnd then
      let split := spanPassed stepsOver itemEnd rest
      (item :: split.1, split.2)
    else
      ([], item :: rest)

/-- Seek forward and return the items passed over. -/
def slice (stepsOver : D → Bool) (cursor : ListCursor α) : List α × ListCursor α :=
  let split := spanPassed dim summary stepsOver (cursor.start dim summary) cursor.rest
  (split.1, { before := cursor.before ++ split.1, rest := split.2 })

/-- All items from the cursor on; the cursor moves to the end. -/
def suffix : List α × ListCursor α :=
  (cursor.rest, { before := cursor.before ++ cursor.rest, rest := [] })

end Position

@[simp] theorem ofList_before : (ofList items).before = [] := rfl

@[simp] theorem ofList_rest : (ofList items).rest = items := rfl

@[simp] theorem items_ofList : (ofList items).items = items := rfl

@[simp] theorem items_next : cursor.next.items = cursor.items := by
  obtain ⟨before, rest⟩ := cursor
  cases rest <;> simp [next, items]

theorem next_of_rest {cursor : ListCursor α} {item : α} (h : cursor.rest = item :: rest) :
    cursor.next = { before := cursor.before ++ [item], rest } := by
  simp [next, h]

theorem item_eq_some_iff {cursor : ListCursor α} {item : α} :
    cursor.item = some item ↔ ∃ rest, cursor.rest = item :: rest := by
  unfold ListCursor.item
  cases cursor.rest with
  | nil => simp
  | cons head tail => simp

section Position

variable (dim : Dimension S D) (summary : α → S)

theorem endPosition_of_rest {cursor : ListCursor α} {item : α} (h : cursor.rest = item :: rest) :
    cursor.endPosition dim summary =
      dim.addSummary (cursor.start dim summary) (summary item) := by
  simp [endPosition, h]

section Passed

variable (stepsOver : D → Bool)
include stepsOver

theorem spanPassed_append (position : D) (rest : List α) :
    (spanPassed dim summary stepsOver position rest).1 ++
      (spanPassed dim summary stepsOver position rest).2 = rest := by
  induction rest generalizing position with
  | nil => simp [spanPassed]
  | cons item rest ih =>
    simp only [spanPassed]
    split
    · simp [ih]
    · simp

/-- A seek passes nothing, or ends at a position that is stepped over. -/
theorem stepsOver_of_spanPassed (position : D) (rest : List α) :
    (spanPassed dim summary stepsOver position rest).1 = [] ∨
      stepsOver (dim.measureFrom summary position
        (spanPassed dim summary stepsOver position rest).1) = true := by
  induction rest generalizing position with
  | nil => exact Or.inl rfl
  | cons item rest ih =>
    simp only [spanPassed]
    split
    · rename_i hitem
      right
      rcases ih (dim.addSummary position (summary item)) with hnil | hover
      · simpa [hnil] using hitem
      · exact hover
    · exact Or.inl rfl

/-- The item a seek stops at ends at a position that is not stepped over. -/
theorem not_stepsOver_of_spanPassed (position : D) (rest : List α) {item : α} {tail : List α}
    (h : (spanPassed dim summary stepsOver position rest).2 = item :: tail) :
    stepsOver (dim.addSummary (dim.measureFrom summary position
      (spanPassed dim summary stepsOver position rest).1) (summary item)) = false := by
  induction rest generalizing position with
  | nil => simp [spanPassed] at h
  | cons head rest ih =>
    simp only [spanPassed] at h ⊢
    split at h
    · rename_i hhead
      rw [if_pos hhead]
      exact ih _ h
    · rename_i hhead
      rw [if_neg hhead]
      simp only [List.cons.injEq] at h
      obtain ⟨rfl, -⟩ := h
      simpa using hhead

variable (cursor : ListCursor α)

theorem slice_rest :
    (cursor.slice dim summary stepsOver).1 ++ (cursor.slice dim summary stepsOver).2.rest =
      cursor.rest :=
  spanPassed_append dim summary stepsOver _ _

@[simp] theorem slice_before : (cursor.slice dim summary stepsOver).2.before =
      cursor.before ++ (cursor.slice dim summary stepsOver).1 := rfl

/-- The last item passed by a slice ends at a position that is stepped over: either
nothing was passed, or the new start position is stepped over. -/
theorem slice_start : (cursor.slice dim summary stepsOver).1 = [] ∨
      stepsOver ((cursor.slice dim summary stepsOver).2.start dim summary) = true := by
  rw [start, slice_before, Dimension.measure, Dimension.measureFrom_append]
  exact stepsOver_of_spanPassed dim summary stepsOver _ _

/-- If the position behind an item depends on the item alone, a slice passes the longest
beginning of the list that is stepped over. -/
theorem slice_eq_span (p : α → Bool)
    (h : ∀ position item, stepsOver (dim.addSummary position (summary item)) = p item)
    (cursor : ListCursor α) : cursor.slice dim summary stepsOver = (cursor.rest.takeWhile p,
        { before := cursor.before ++ cursor.rest.takeWhile p
          rest := cursor.rest.dropWhile p }) := by
  have hspan : ∀ (rest : List α) (position : D),
      spanPassed dim summary stepsOver position rest = (rest.takeWhile p, rest.dropWhile p) := by
    intro rest
    induction rest with
    | nil => exact fun _ => rfl
    | cons item rest ih =>
      intro position
      rw [takeWhile_cons, dropWhile_cons]
      simp only [spanPassed, h, ih]
      cases p item <;> rfl
  simp only [slice, hspan]

/-- The item a slice stops at is not stepped over. -/
theorem slice_endPosition {item : α}
    (h : (cursor.slice dim summary stepsOver).2.rest = item :: rest) :
    stepsOver ((cursor.slice dim summary stepsOver).2.endPosition dim summary) = false := by
  rw [endPosition_of_rest dim summary h, start, slice_before, Dimension.measure,
    Dimension.measureFrom_append]
  exact not_stepsOver_of_spanPassed dim summary stepsOver _ _ h

variable {dim summary stepsOver cursor items}

/-- Where a seek from the beginning stops. -/
theorem slice_ofList_spec (h : ((ofList items).slice dim summary stepsOver).2 = cursor) :
    items = cursor.before ++ cursor.rest ∧
      (cursor.before = [] ∨ stepsOver (cursor.start dim summary) = true) ∧
      ∀ item rest, cursor.rest = item :: rest →
        stepsOver (dim.addSummary (cursor.start dim summary) (summary item)) = false := by
  subst h
  refine ⟨(slice_rest dim summary stepsOver (ofList items)).symm, slice_start .., ?_⟩
  intro item rest hrest
  rw [← endPosition_of_rest dim summary hrest]
  exact slice_endPosition dim summary stepsOver _ hrest

end Passed

end Position

end ListCursor

end XorEditor.Lib
