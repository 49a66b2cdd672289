import XorEditor.Lib.Rga

/-!
# Range edits of a replicated list

An edit of a replicated list is given by ranges of positions that count only some of the
elements, the ones its author knew.  At the start of each range the edit inserts new
elements, behind the element counted last and behind the uncounted elements that win
against it; the counted elements of the range are marked.

`editRanges` is that operation in one pass from left to right.  On the elements' identities it
is nothing but the insertion of each new element behind its parent.

* `editRanges`: the edit
* `map_editRanges_filter`: what it is on the identities
-/

namespace XorEditor.Lib.RangeEdit

open Rga List

variable {α ι P : Type*} {pos : Nat} {n : Nat}

section SplitCounted

variable (counted : α → Bool)

/-- The shortest beginning of a list that contains `n` counted elements, and the rest. -/
def splitCounted : Nat → List α → List α × List α
  | 0, list => ([], list)
  | _ + 1, [] => ([], [])
  | n + 1, a :: list =>
    let split := splitCounted (if counted a then n else n + 1) list
    (a :: split.1, split.2)

/-- A list that is empty or ends with a counted element. -/
def EndsCounted (list : List α) : Prop :=
  list = [] ∨ ∃ init a, list = init ++ [a] ∧ counted a = true

variable {counted}

@[simp] theorem splitCounted_zero (list : List α) : splitCounted counted 0 list = ([], list) := by
  cases list <;> rfl

variable {front list : List α}

/-- A beginning with too few counted elements is passed as a whole. -/
theorem splitCounted_append_of_lt (h : front.countP counted < n) (rest : List α) :
    splitCounted counted n (front ++ rest) =
      (front ++ (splitCounted counted (n - front.countP counted) rest).1,
        (splitCounted counted (n - front.countP counted) rest).2) := by
  induction front generalizing n with
  | nil => simp
  | cons a front ih =>
    cases n with
    | zero => omega
    | succ n =>
      rw [countP_cons] at h
      simp only [cons_append, splitCounted, countP_cons]
      split at h
      · rename_i ha
        rw [if_pos ha, if_pos ha, ih (by omega), Nat.add_sub_add_right]
      · rename_i ha
        rw [if_neg ha, if_neg ha, ih (by omega)]
        rfl

theorem splitCounted_append (hfront : EndsCounted counted front) (rest : List α) :
    splitCounted counted (front.countP counted) (front ++ rest) = (front, rest) := by
  rcases hfront with rfl | ⟨init, a, rfl, ha⟩
  · simp
  · have hcount : (init ++ [a]).countP counted = init.countP counted + 1 := by simp [ha]
    rw [append_assoc, splitCounted_append_of_lt (by omega), hcount, Nat.add_sub_cancel_left]
    simp [splitCounted, ha]

/-- A list with enough counted elements has a beginning that ends with the `n`-th one. -/
theorem exists_endsCounted (counted : α → Bool) (n : Nat) (list : List α)
    (hn : n ≤ list.countP counted) : ∃ front rest, list = front ++ rest ∧ front.countP counted = n ∧
      EndsCounted counted front := by
  induction list generalizing n with
  | nil =>
    have : n = 0 := by simpa using hn
    subst this
    exact ⟨[], [], rfl, rfl, Or.inl rfl⟩
  | cons a list ih =>
    cases n with
    | zero => exact ⟨[], a :: list, rfl, rfl, Or.inl rfl⟩
    | succ n =>
      have hle : (if counted a then n else n + 1) ≤ list.countP counted := by
        rw [countP_cons] at hn
        split <;> simp_all
      obtain ⟨front, rest, rfl, hcount, hends⟩ := ih _ hle
      refine ⟨a :: front, rest, rfl, ?_, Or.inr ?_⟩
      · rw [countP_cons, hcount]
        split <;> rfl
      · rcases hends with rfl | ⟨init, b, rfl, hb⟩
        · refine ⟨[], a, rfl, ?_⟩
          by_contra ha
          simp [ha] at hcount
        · exact ⟨a :: init, b, rfl, hb⟩

theorem splitCounted_parts (counted : α → Bool) (n : Nat) (list : List α) :
    (splitCounted counted n list).1 ++ (splitCounted counted n list).2 = list := by
  induction list generalizing n with
  | nil => cases n <;> rfl
  | cons a list ih =>
    cases n with
    | zero => rfl
    | succ n =>
      simp only [splitCounted, cons_append]
      rw [ih]

theorem splitCounted_congr {counted' : α → Bool} (h : ∀ a ∈ list, counted a = counted' a) :
    splitCounted counted n list = splitCounted counted' n list := by
  induction list generalizing n with
  | nil => cases n <;> rfl
  | cons a list ih =>
    cases n with
    | zero => rfl
    | succ n =>
      simp only [splitCounted, h a (by simp)]
      rw [ih fun b hb => h b (mem_cons_of_mem a hb)]

theorem span_congr {skips skips' : α → Bool} (h : ∀ a ∈ list, skips a = skips' a) :
    list.takeWhile skips = list.takeWhile skips' ∧
      list.dropWhile skips = list.dropWhile skips' := by
  induction list with
  | nil => exact ⟨rfl, rfl⟩
  | cons a list ih =>
    obtain ⟨htake, hdrop⟩ := ih fun b hb => h b (mem_cons_of_mem a hb)
    simp only [takeWhile_cons, dropWhile_cons, ← h a (by simp), htake, hdrop, and_self]

end SplitCounted

/-- One range of an edit: its bounds, and what is inserted at its start. -/
structure RangeInsert (α : Type*) where
  start : Nat
  stop : Nat
  inserted : List α

section EditRanges

variable (counted skips : α → Bool) (mark : α → α)

/-- Apply the ranges of an edit to the elements behind the position `pos`. -/
def editRanges : List (RangeInsert α) → Nat → List α → List α
  | [], _, list => list
  | edit :: edits, pos, list =>
    let front := splitCounted counted (edit.start - pos) list
    let deleted := splitCounted counted (edit.stop - edit.start) (front.2.dropWhile skips)
    front.1 ++ front.2.takeWhile skips ++ edit.inserted ++ deleted.1.map mark ++
      editRanges edits edit.stop deleted.2

/-- The ranges are in order, and end within `length`. -/
def Ranges (length : Nat) : List (RangeInsert α) → Nat → Prop
  | [], pos => pos ≤ length
  | edit :: edits, pos =>
    pos ≤ edit.start ∧ edit.start ≤ edit.stop ∧ Ranges length edits edit.stop

variable {length pos : Nat} {edits : List (RangeInsert α)} {edit : RangeInsert α}
  {front list : List α}

theorem Ranges.pos_le (h : Ranges length edits pos) : pos ≤ length := by
  induction edits generalizing pos with
  | nil => exact h
  | cons edit edits ih =>
    obtain ⟨hstart, hstop, hrest⟩ := h
    have := ih hrest
    omega

theorem Ranges.pos_le_start (h : Ranges length edits pos) : ∀ edit ∈ edits, pos ≤ edit.start := by
  induction edits generalizing pos with
  | nil => simp
  | cons edit edits ih =>
    obtain ⟨hstart, hstop, hrest⟩ := h
    intro e he
    rcases mem_cons.mp he with rfl | he
    · exact hstart
    · have := ih hrest e he
      omega

/-- What an edit inserts, in order. -/
def insertedBy (edits : List (RangeInsert α)) : List α := edits.flatMap RangeInsert.inserted

theorem map_insertedBy_cons (id : α → ι) (edit : RangeInsert α) (edits : List (RangeInsert α)) :
    (insertedBy (edit :: edits)).map id = edit.inserted.map id ++ (insertedBy edits).map id :=
  map_append

/-- How the first range cuts a list: the elements in front of it, the ones it gives way
to, the ones inside it, and the rest. -/
structure Segments (edit : RangeInsert α) (pos : Nat)
    (front skipped deleted rest : List α) : Prop where
  frontCount : pos + front.countP counted = edit.start
  frontEnds : EndsCounted counted front
  skipped : ∀ a ∈ skipped, skips a = true
  next : ∀ a tail, deleted ++ rest = a :: tail → skips a = false
  deletedCount : edit.start + deleted.countP counted = edit.stop
  deletedEnds : EndsCounted counted deleted

variable {counted skips mark} {skipped deleted rest : List α}

theorem editRanges_cons (mark : α → α) (edits : List (RangeInsert α))
    (h : Segments counted skips edit pos front skipped deleted rest) :
    editRanges counted skips mark (edit :: edits) pos
        (front ++ (skipped ++ (deleted ++ rest))) =
      front ++ skipped ++ edit.inserted ++ deleted.map mark ++
        editRanges counted skips mark edits edit.stop rest := by
  have hfront : edit.start - pos = front.countP counted := by
    have := h.frontCount
    omega
  have hdeleted : edit.stop - edit.start = deleted.countP counted := by
    have := h.deletedCount
    omega
  have hspan := span_eq h.skipped h.next
  simp only [editRanges, hfront, splitCounted_append h.frontEnds, hspan.1, hspan.2, hdeleted,
    splitCounted_append h.deletedEnds]

/-- The parts of the list that the first range makes, in order or not. -/
theorem exists_parts (counted skips : α → Bool) (edit : RangeInsert α) (pos : Nat) (list : List α) :
    ∃ front skipped deleted rest, list = front ++ (skipped ++ (deleted ++ rest)) ∧
      ∀ mark edits, editRanges counted skips mark (edit :: edits) pos list =
        front ++ skipped ++ edit.inserted ++ deleted.map mark ++
          editRanges counted skips mark edits edit.stop rest := by
  refine ⟨_, _, _, _, ?_, fun _ _ => rfl⟩
  rw [splitCounted_parts, takeWhile_append_dropWhile, splitCounted_parts]

/-- Elements that end in front of the first range are not touched. -/
theorem editRanges_append (hle : pos + front.countP counted ≤ edit.start)
    (hfront : EndsCounted counted front ∨ pos + front.countP counted < edit.start) (rest : List α) :
    editRanges counted skips mark (edit :: edits) pos (front ++ rest) =
      front ++ editRanges counted skips mark (edit :: edits) (pos + front.countP counted) rest := by
  simp only [editRanges]
  rcases Nat.lt_or_ge (pos + front.countP counted) edit.start with hlt | hge
  · rw [splitCounted_append_of_lt (by omega), Nat.sub_sub]
    simp
  · have heq : edit.start - pos = front.countP counted := by omega
    rw [heq, splitCounted_append (hfront.resolve_right (by omega)), Nat.sub_eq_zero_of_le hge]
    simp

section

variable (hskips : ∀ a, counted a = true → skips a = false)
include hskips

/-- An edit gives way to elements that are not counted only. -/
theorem filter_eq_nil_of_skips (h : ∀ a ∈ list, skips a = true) : list.filter counted = [] := by
  rw [filter_eq_nil_iff]
  intro a ha hcounted
  exact absurd (h a ha) (by simp [hskips a hcounted])

/-- Ranges that are in order cut a list with enough counted elements. -/
theorem exists_segments (h : Ranges (pos + list.countP counted) (edit :: edits) pos) :
    ∃ front skipped deleted rest, list = front ++ (skipped ++ (deleted ++ rest)) ∧
      Segments counted skips edit pos front skipped deleted rest ∧
      Ranges (edit.stop + rest.countP counted) edits edit.stop := by
  obtain ⟨hstart, hstop, hrest⟩ := h
  have hle := hrest.pos_le
  obtain ⟨front, list₁, rfl, hfront, hfrontEnds⟩ :=
    exists_endsCounted counted (edit.start - pos) list (by omega)
  have hskips₁ : ∀ a ∈ list₁.takeWhile skips, skips a = true := fun a ha => mem_takeWhile_imp ha
  have hskipped : (list₁.takeWhile skips).countP counted = 0 := by
    rw [countP_eq_length_filter, filter_eq_nil_of_skips hskips hskips₁, length_nil]
  have hsplit := takeWhile_append_dropWhile (p := skips) (l := list₁)
  rw [countP_append, ← hsplit, countP_append, hskipped] at hle hrest
  obtain ⟨deleted, rest, hdrop, hdeleted, hdeletedEnds⟩ :=
    exists_endsCounted counted (edit.stop - edit.start) (list₁.dropWhile skips) (by omega)
  refine ⟨front, list₁.takeWhile skips, deleted, rest, ?_, ⟨by omega, hfrontEnds, hskips₁, ?_,
    by omega, hdeletedEnds⟩, ?_⟩
  · rw [← hdrop, hsplit]
  · intro a tail hcons
    have hhead := head?_dropWhile_not skips list₁
    rw [hdrop, hcons] at hhead
    simpa using hhead
  · rw [hdrop, countP_append] at hrest
    have heq : pos + (front.countP counted + (0 + (deleted.countP counted +
        rest.countP counted))) = edit.stop + rest.countP counted := by omega
    rwa [heq] at hrest

/-- The counted elements up to the first range, and those inside it. -/
theorem Segments.observed (h : Segments counted skips edit pos front skipped deleted rest)
    (id : α → ι) {init observed : List ι}
    (hinit : observed = init ++ ((front ++ (skipped ++ (deleted ++ rest))).filter counted).map id)
    (hlength : init.length = pos) : observed = init ++ (front.filter counted).map id ++
        ((deleted.filter counted).map id ++ (rest.filter counted).map id) ∧
      (init ++ (front.filter counted).map id).length = edit.start ∧
      (init ++ (front.filter counted).map id ++ (deleted.filter counted).map id).length =
        edit.stop := by
  have hfront := h.frontCount
  have hdeleted := h.deletedCount
  rw [countP_eq_length_filter] at hfront hdeleted
  refine ⟨by simp [hinit, filter_eq_nil_of_skips hskips h.skipped], ?_, ?_⟩
  all_goals
    simp only [length_append, length_map]
    omega

end

/-- What an edit does depends only on how it treats the elements of the list. -/
theorem editRanges_congr {counted' skips' : α → Bool} {mark' : α → α}
    (hcounted : ∀ a ∈ list, counted a = counted' a) (hskips : ∀ a ∈ list, skips a = skips' a)
    (hmark : ∀ a ∈ list, mark a = mark' a) : editRanges counted skips mark edits pos list =
      editRanges counted' skips' mark' edits pos list := by
  induction edits generalizing pos list with
  | nil => rfl
  | cons edit edits ih =>
    simp only [editRanges]
    rw [← splitCounted_congr hcounted]
    have hfront := splitCounted_parts counted (edit.start - pos) list
    generalize splitCounted counted (edit.start - pos) list = front at hfront ⊢
    have hmem : ∀ a ∈ front.2, a ∈ list := fun a ha => by simp [← hfront, ha]
    have hspan := span_congr fun a ha => hskips a (hmem a ha)
    rw [← hspan.1, ← hspan.2]
    have hmem' : ∀ a ∈ front.2.dropWhile skips, a ∈ list :=
      fun a ha => hmem a ((dropWhile_sublist skips).subset ha)
    rw [← splitCounted_congr fun a ha => hcounted a (hmem' a ha)]
    have hdeleted := splitCounted_parts counted (edit.stop - edit.start) (front.2.dropWhile skips)
    generalize splitCounted counted (edit.stop - edit.start) (front.2.dropWhile skips) =
      deleted at hdeleted ⊢
    have hdeletedMem : ∀ a, a ∈ deleted.1 ∨ a ∈ deleted.2 → a ∈ list :=
      fun a ha => hmem' a (by simpa [← hdeleted] using ha)
    rw [map_congr_left fun a ha => hmark a (hdeletedMem a (Or.inl ha)),
      ih (fun a ha => hcounted a (hdeletedMem a (Or.inr ha)))
        (fun a ha => hskips a (hdeletedMem a (Or.inr ha)))
        (fun a ha => hmark a (hdeletedMem a (Or.inr ha)))]

end EditRanges

variable {counted skips : α → Bool} {mark : α → α} {id : α → ι}

section Insertions

variable [LinearOrder P]

/-- The parent at a position: the element counted last before it. -/
def anchorBefore (observed : List ι) : Nat → Option ι
  | 0 => none
  | n + 1 => observed[n]?

/-- Within a run every element is the parent of the next one. -/
def RunParents (parent : ι → Option ι) : Option ι → List ι → Prop
  | _, [] => True
  | p, x :: xs => parent x = p ∧ RunParents parent (some x) xs

variable {parent : ι → Option ι} {priority : ι → P}

variable {first : Option ι} {xs observed before done : List ι} {edits : List (RangeInsert α)}

theorem RunParents.congr {parent' : ι → Option ι} (h : RunParents parent first xs)
    (heq : ∀ x ∈ xs, parent' x = parent x) : RunParents parent' first xs := by
  induction xs generalizing first with
  | nil => trivial
  | cons x xs ih =>
    exact ⟨(heq x (by simp)).trans h.1, ih h.2 fun y hy => heq y (mem_cons_of_mem x hy)⟩

theorem mem_of_anchorBefore {p : ι} (h : anchorBefore observed n = some p) : p ∈ observed := by
  cases n with
  | zero => simp [anchorBefore] at h
  | succ n => exact mem_of_getElem? h

/-- The parent of an element of a run is the first parent or in the run. -/
theorem RunParents.parent_mem (h : RunParents parent first xs) {x p : ι} (hx : x ∈ xs)
    (hp : parent x = some p) : first = some p ∨ p ∈ xs := by
  induction xs generalizing first with
  | nil => simp at hx
  | cons y xs ih =>
    rcases mem_cons.mp hx with rfl | hx
    · exact Or.inl (h.1.symm.trans hp)
    · rcases ih h.2 hx with heq | hmem
      · exact Or.inr (Option.some.inj heq ▸ mem_cons_self)
      · exact Or.inr (mem_cons_of_mem y hmem)

theorem RunParents.endsAt {after : List ι} {x : ι}
    (h : RunParents parent first (before ++ x :: after)) (front : List ι)
    (hfront : EndsAt first front) : EndsAt (parent x) (front ++ before) := by
  induction before generalizing first front with
  | nil =>
    rw [append_nil, h.1]
    exact hfront
  | cons b before ih =>
    simpa using ih h.2 (front ++ [b]) ⟨front, rfl⟩

/-- A single run is a well-formed universe. -/
theorem RunParents.wf (priority : ι → P) (h : RunParents parent none xs) (hnodup : xs.Nodup) :
    Wf parent priority xs := by
  refine ⟨hnodup, ?_⟩
  rintro before x after rfl
  exact ⟨before, [], by simp, h.endsAt [] rfl, by simp⟩

/-- Moving on to the end of a segment: everything passed lies behind the element counted
last, unless nothing was counted. -/
theorem advance (id : α → ι) {segment : List α} (hends : EndsCounted counted segment)
    (beyond : List ι)
    (hobserved : ∃ init tail, observed = init ++ (segment.filter counted).map id ++ tail ∧
      init.length = pos)
    (hdone : EndsAt (anchorBefore observed pos) done) :
    ∃ done' beyond', done ++ beyond ++ segment.map id = done' ++ beyond' ∧
      EndsAt (anchorBefore observed (pos + segment.countP counted)) done' ∧
      ∀ y ∈ beyond', y ∈ beyond := by
  rcases hends with rfl | ⟨front, a, rfl, ha⟩
  · exact ⟨done, beyond, by simp, by simpa using hdone, fun y hy => hy⟩
  · obtain ⟨init, tail, rfl, rfl⟩ := hobserved
    refine ⟨done ++ beyond ++ (front ++ [a]).map id, [], by simp, ?_, by simp⟩
    have hanchor : anchorBefore (init ++ ((front ++ [a]).filter counted).map id ++ tail)
        (init.length + (front ++ [a]).countP counted) = some (id a) := by
      have hcount : init.length + (front ++ [a]).countP counted =
          (init ++ (front.filter counted).map id).length + 1 := by
        simp [ha, countP_eq_length_filter]
        omega
      rw [hcount]
      simp [anchorBefore, ha]
    rw [hanchor]
    exact ⟨done ++ beyond ++ front.map id, by simp⟩

/-- The parents of the inserted elements are counted elements, or inserted before. -/
theorem parentsIn_insertedBy {A : ι → Prop} (hA : ∀ x ∈ observed, A x)
    (hparents : ∀ edit ∈ edits, RunParents parent (anchorBefore observed edit.start)
      (edit.inserted.map id)) : ParentsIn parent A ((insertedBy edits).map id) := by
  have hrun : ∀ (xs ys : List ι) (first : Option ι) (A : ι → Prop),
      RunParents parent first xs → (∀ p, first = some p → A p) →
      (∀ B : ι → Prop, (∀ y, A y → B y) → ParentsIn parent B ys) →
      ParentsIn parent A (xs ++ ys) := by
    intro xs ys
    induction xs with
    | nil => exact fun _ A _ _ hys => hys A fun _ h => h
    | cons x xs ih =>
      intro first A hrun hfirst hys
      refine ⟨fun p hp => hfirst p (hrun.1 ▸ hp), ih (some x) _ hrun.2 ?_ ?_⟩
      · rintro p ⟨⟩
        exact Or.inr rfl
      · exact fun B hB => hys B fun y hy => hB y (Or.inl hy)
  induction edits generalizing A with
  | nil => trivial
  | cons edit edits ih =>
    rw [map_insertedBy_cons]
    refine hrun _ _ _ A (hparents edit (by simp)) ?_ ?_
    · exact fun p hp => hA p (mem_of_anchorBefore hp)
    · intro B hB
      exact ih (fun x hx => hB x (hA x hx)) fun e he => hparents e (mem_cons_of_mem _ he)

variable [DecidableEq ι]

/-- Distinct new elements can be given the parents of a run. -/
theorem exists_runParents_run (parent : ι → Option ι) (first : Option ι) (hnodup : xs.Nodup) :
    ∃ parent', RunParents parent' first xs ∧ ∀ x ∉ xs, parent' x = parent x := by
  induction xs generalizing first with
  | nil => exact ⟨parent, trivial, fun _ _ => rfl⟩
  | cons x xs ih =>
    obtain ⟨hx, hxs⟩ := nodup_cons.mp hnodup
    obtain ⟨parent₁, hrun, hother⟩ := ih (some x) hxs
    refine ⟨Function.update parent₁ x first, ⟨Function.update_self .., hrun.congr ?_⟩, ?_⟩
    · intro y hy
      have hne : y ≠ x := fun heq => hx (heq ▸ hy)
      exact Function.update_of_ne hne ..
    · intro y hy
      rw [mem_cons, not_or] at hy
      rw [Function.update_of_ne hy.1]
      exact hother y hy.2

/-- Distinct new elements can be given the parents of several runs. -/
theorem exists_runParents {β : Type*} (parent : ι → Option ι) (first : β → Option ι)
    (run : β → List ι) (edits : List β) (hnodup : (edits.flatMap run).Nodup) :
    ∃ parent', (∀ edit ∈ edits, RunParents parent' (first edit) (run edit)) ∧
      ∀ x ∉ edits.flatMap run, parent' x = parent x := by
  induction edits with
  | nil => exact ⟨parent, by simp, fun _ _ => rfl⟩
  | cons edit edits ih =>
    rw [flatMap_cons] at hnodup
    obtain ⟨hrun, hrest, hdisjoint⟩ := nodup_append.mp hnodup
    obtain ⟨parent₁, hruns, hother⟩ := ih hrest
    obtain ⟨parent₂, hfirst, hkept⟩ := exists_runParents_run parent₁ (first edit) hrun
    refine ⟨parent₂, ?_, ?_⟩
    · intro e he
      rcases mem_cons.mp he with rfl | he
      · exact hfirst
      · refine (hruns e he).congr fun x hx => hkept x fun hmem => ?_
        exact hdisjoint x hmem x (mem_flatMap.mpr ⟨e, he, hx⟩) rfl
    · intro x hx
      rw [flatMap_cons, mem_append, not_or] at hx
      rw [hkept x hx.1, hother x hx.2]

/-- Inserting a run of elements, each the parent of the next one. -/
theorem insertAll_run {skipped rest : List ι} (hparents : RunParents parent first xs)
    (hbefore : EndsAt first before) (hnodup : (before ++ skipped ++ xs).Nodup)
    (hskipped : ∀ x ∈ xs, ∀ y ∈ skipped, priority x < priority y)
    (hrest : ∀ x ∈ xs, ∀ y tail, rest = y :: tail → ¬ priority x < priority y) :
    insertAll priority parent xs (before ++ skipped ++ rest) = before ++ skipped ++ xs ++ rest := by
  induction xs generalizing first before skipped with
  | nil => simp [insertAll_nil]
  | cons x xs ih =>
    obtain ⟨hx, hxs⟩ := hparents
    rw [insertAll_cons, hx, insertAfter_append hbefore
      (hnodup.of_append_left).of_append_left (hskipped x (by simp)) (hrest x (by simp))]
    have hstep := @ih (some x) (before ++ skipped ++ [x]) [] hxs
      ⟨before ++ skipped, rfl⟩ (by simpa using hnodup) (by simp)
      (fun y hy => hrest y (mem_cons_of_mem x hy))
    simpa using hstep

variable (hskips : ∀ a, counted a = true → skips a = false) (hmark : ∀ a, id (mark a) = id a)
  {list : List α}
  (hdecreasing : ((insertedBy edits).map id).Pairwise fun x y => priority y < priority x)
  (hskip : ∀ x ∈ (insertedBy edits).map id, ∀ a ∈ list, (skips a = true ↔
    priority x < priority (id a)))
include hskips hmark hdecreasing hskip

/-- An edit by ranges inserts each new element behind its parent.  `done` ends with the
element counted last, `beyond` holds the elements behind it that the rest of the edit gives
way to. -/
theorem insertAll_insertedBy {beyond : List ι}
    (hobserved : ∃ init, observed = init ++ (list.filter counted).map id ∧ init.length = pos)
    (hdone : EndsAt (anchorBefore observed pos) done)
    (hrange : Ranges (pos + list.countP counted) edits pos)
    (hparents : ∀ edit ∈ edits, RunParents parent (anchorBefore observed edit.start)
      (edit.inserted.map id))
    (hnodup : (done ++ beyond ++ list.map id ++ (insertedBy edits).map id).Nodup)
    (hover : ∀ x ∈ (insertedBy edits).map id, ∀ y ∈ beyond, priority x < priority y) :
    insertAll priority parent ((insertedBy edits).map id) (done ++ beyond ++ list.map id) =
      done ++ beyond ++ (editRanges counted skips mark edits pos list).map id := by
  induction edits generalizing pos done beyond list with
  | nil => simp [insertedBy, insertAll_nil, editRanges]
  | cons edit edits ih =>
    obtain ⟨front, skipped, deleted, rest, rfl, hseg, hrest⟩ := exists_segments hskips hrange
    obtain ⟨init, hinit, hlength⟩ := hobserved
    obtain ⟨hsplit, hstart, hstop⟩ := hseg.observed hskips id hinit hlength
    rw [map_insertedBy_cons] at hnodup hdecreasing hover hskip ⊢
    -- Pass the elements in front of the range, and the ones that win against the edit.
    obtain ⟨done₁, beyond₁, hfront, hdone₁, hover₁⟩ := advance id hseg.frontEnds
      beyond ⟨init, _, hsplit, hlength⟩ hdone
    rw [hseg.frontCount] at hdone₁
    have hlist : done ++ beyond ++ (front ++ (skipped ++ (deleted ++ rest))).map id =
        done₁ ++ (beyond₁ ++ skipped.map id) ++ (deleted ++ rest).map id := by
      rw [map_append, ← append_assoc, hfront]
      simp
    rw [hlist] at hnodup ⊢
    have hover' : ∀ x ∈ edit.inserted.map id ++ (insertedBy edits).map id,
        ∀ y ∈ beyond₁ ++ skipped.map id, priority x < priority y := by
      intro x hx y hy
      rcases mem_append.mp hy with hy | hy
      · exact hover x hx y (hover₁ y hy)
      · obtain ⟨a, ha, rfl⟩ := mem_map.mp hy
        exact (hskip x hx a (by simp [ha])).mp (hseg.skipped a ha)
    -- Insert the run.
    have hrun : insertAll priority parent (edit.inserted.map id)
        (done₁ ++ (beyond₁ ++ skipped.map id) ++ (deleted ++ rest).map id) =
        done₁ ++ (beyond₁ ++ skipped.map id) ++ edit.inserted.map id ++
          (deleted ++ rest).map id := by
      apply insertAll_run (hparents edit (by simp)) hdone₁
      · refine hnodup.sublist ?_
        simp only [append_assoc]
        refine List.Sublist.append_left (List.Sublist.append_left
          (List.Sublist.append_left ?_ _) _) _
        exact (sublist_append_left _ _).trans (sublist_append_right _ _)
      · exact fun x hx => hover' x (mem_append_left _ hx)
      · intro x hx y tail hy
        cases hnext : deleted ++ rest with
        | nil => simp [hnext] at hy
        | cons a tail' =>
          rw [hnext, map_cons, List.cons.injEq] at hy
          have ha : a ∈ deleted ++ rest := by simp [hnext]
          rw [← hy.1, ← hskip x (mem_append_left _ hx) a (by
            simp only [mem_append] at ha ⊢
            tauto), hseg.next a tail' hnext]
          exact Bool.false_ne_true
    -- Pass the elements inside the range.
    obtain ⟨done₂, beyond₂, hdeleted, hdone₂, hover₂⟩ := advance id hseg.deletedEnds
      (beyond₁ ++ skipped.map id ++ edit.inserted.map id)
      ⟨_, (rest.filter counted).map id, by rw [hsplit, ← append_assoc], hstart⟩ hdone₁
    rw [hseg.deletedCount] at hdone₂
    have hlist₂ : done₁ ++ (beyond₁ ++ skipped.map id) ++ edit.inserted.map id ++
        (deleted ++ rest).map id = done₂ ++ beyond₂ ++ rest.map id := by
      rw [← hdeleted]
      simp
    obtain ⟨-, hdecreasing', hcross⟩ := pairwise_append.mp hdecreasing
    have hperm : (done₁ ++ (beyond₁ ++ skipped.map id) ++ (deleted ++ rest).map id ++
        (edit.inserted.map id ++ (insertedBy edits).map id)).Perm
        (done₂ ++ beyond₂ ++ rest.map id ++ (insertedBy edits).map id) := by
      rw [← hlist₂]
      have hcomm := perm_append_comm_assoc ((deleted ++ rest).map id)
        (edit.inserted.map id) ((insertedBy edits).map id)
      simpa only [append_assoc] using hcomm.append_left (done₁ ++ (beyond₁ ++ skipped.map id))
    have hstep := ih hdecreasing' (fun x hx a ha =>
      hskip x (mem_append_right _ hx) a (by simp [ha]))
      ⟨_, by rw [hsplit, ← append_assoc], hstop⟩ hdone₂ hrest
      (fun e he => hparents e (mem_cons_of_mem _ he)) (hperm.nodup_iff.mp hnodup) (by
        intro x hx y hy
        rcases mem_append.mp (hover₂ y hy) with hy | hy
        · exact hover' x (mem_append_right _ hx) y hy
        · exact hcross y hy x hx)
    have hmarked : (deleted.map mark).map id = deleted.map id := by
      rw [map_map]
      exact map_congr_left fun a _ => hmark a
    have hresult : ∀ tail : List ι,
        done ++ beyond ++ ((front ++ skipped ++ edit.inserted ++ deleted.map mark).map id ++ tail) =
        done₂ ++ beyond₂ ++ tail := by
      intro tail
      rw [← hdeleted, map_append, hmarked, map_append, map_append]
      simp only [append_assoc] at hfront ⊢
      rw [← append_assoc beyond, ← append_assoc done, ← append_assoc done,
        append_assoc done, hfront]
      simp
    rw [insertAll_append, hrun, hlist₂, hstep, editRanges_cons _ _ hseg, map_append, hresult]

/-- A replica that holds a part of a universe closed under parents, and edits it by ranges,
again holds a part of the universe in its order. -/
theorem map_editRanges_filter {elements : List ι} (hwf : Wf parent priority elements) {A : ι → Bool}
    (hclosed : ∀ y ∈ elements, A y = true → ∀ p, parent y = some p → A p = true)
    (hlist : list.map id = elements.filter A) (hrange : Ranges (list.countP counted) edits 0)
    (hparents : ∀ edit ∈ edits, RunParents parent
      (anchorBefore ((list.filter counted).map id) edit.start) (edit.inserted.map id))
    (hmem : ∀ x ∈ (insertedBy edits).map id, x ∈ elements)
    (hfresh : ∀ x ∈ (insertedBy edits).map id, A x = false) :
    (editRanges counted skips mark edits 0 list).map id =
      elements.filter fun y => A y || decide (y ∈ (insertedBy edits).map id) := by
  have hnew : ((insertedBy edits).map id).Nodup :=
    hdecreasing.imp fun {x y} hlt heq => absurd (heq ▸ hlt) (lt_irrefl _)
  have hA : ∀ x ∈ (list.filter counted).map id, A x = true := by
    intro x hx
    obtain ⟨a, ha, rfl⟩ := mem_map.mp hx
    have : id a ∈ elements.filter A := hlist ▸ mem_map_of_mem (mem_filter.mp ha).1
    exact (mem_filter.mp this).2
  have hnodup : (list.map id ++ (insertedBy edits).map id).Nodup := by
    refine nodup_append.mpr ⟨hlist ▸ hwf.nodup.filter A, hnew, ?_⟩
    intro x hx y hy heq
    have htrue := (mem_filter.mp (hlist ▸ hx)).2
    rw [heq, hfresh y hy] at htrue
    exact Bool.noConfusion htrue
  have hinsert : insertAll priority parent ((insertedBy edits).map id) (list.map id) =
      (editRanges counted skips mark edits 0 list).map id := by
    have hdone : EndsAt (anchorBefore ((list.filter counted).map id) 0) ([] : List ι) := rfl
    have hover : ∀ x ∈ (insertedBy edits).map id, ∀ y ∈ ([] : List ι),
        priority x < priority y := by simp
    rw [← Nat.zero_add (list.countP counted)] at hrange
    exact insertAll_insertedBy hskips hmark hdecreasing hskip ⟨[], rfl, rfl⟩ hdone hrange
      hparents hnodup hover
  rw [← hinsert, hlist]
  exact insertAll_filter hwf hclosed hnew hmem hfresh (parentsIn_insertedBy hA hparents)

end Insertions

section Marks

/-- The elements inside the ranges, among the ones the positions count. -/
def inRanges (edits : List (RangeInsert α)) (observed : List ι) : List ι :=
  edits.flatMap fun edit => (observed.take edit.stop).drop edit.start

variable {edits : List (RangeInsert α)} {list : List α}

/-- Ranges behind a position contain only elements behind it. -/
theorem mem_of_mem_inRanges {init tail : List ι} (hstart : ∀ edit ∈ edits, init.length ≤ edit.start)
    {x : ι} (hx : x ∈ inRanges edits (init ++ tail)) : x ∈ tail := by
  obtain ⟨edit, hedit, hx⟩ := mem_flatMap.mp hx
  rw [drop_take] at hx
  have hx := mem_of_mem_take hx
  rw [drop_append, drop_eq_nil_of_le (hstart edit hedit), nil_append] at hx
  exact mem_of_mem_drop hx

/-- Apart from the elements of the list, an edit contains what it inserts, in order. -/
theorem filter_editRanges_inserted (hmarkId : ∀ a, id (mark a) = id a) {new : ι → Bool}
    (hold : ∀ a ∈ list, new (id a) = false) (hnew : ∀ a ∈ insertedBy edits, new (id a) = true) :
    (editRanges counted skips mark edits pos list).filter (fun a => new (id a)) =
      insertedBy edits := by
  induction edits generalizing pos list with
  | nil =>
    rw [editRanges, insertedBy, flatMap_nil, filter_eq_nil_iff]
    intro a ha
    simp [hold a ha]
  | cons edit edits ih =>
    obtain ⟨front, skipped, deleted, rest, rfl, hparts⟩ := exists_parts counted skips edit pos list
    have hgone : ∀ segment : List α, (∀ a ∈ segment, new (id a) = false) →
        segment.filter (fun a => new (id a)) = [] := fun _ h =>
      filter_eq_nil_iff.mpr fun a ha => by simp [h a ha]
    rw [hparts]
    simp only [filter_append]
    rw [ih (fun a ha => hold a (by simp [ha])) fun a ha => hnew a (mem_append_right _ ha),
      hgone front fun a ha => hold a (by simp [ha]),
      hgone skipped fun a ha => hold a (by simp [ha]),
      hgone (deleted.map mark) (forall_mem_map.mpr fun a ha => by
        rw [hmarkId]
        exact hold a (by simp [ha])),
      filter_eq_self.mpr fun a ha => hnew a (mem_append_left _ ha)]
    simp [insertedBy]

variable [DecidableEq ι]

/-- Apart from what it inserts, an edit marks exactly the elements inside its ranges. -/
theorem filter_editRanges (hskips : ∀ a, counted a = true → skips a = false)
    (hmarkId : ∀ a, id (mark a) = id a) (hmark : ∀ a, counted a = false → mark a = a)
    {observed : List ι}
    (hobserved : ∃ init, observed = init ++ (list.filter counted).map id ∧ init.length = pos)
    (hnodup : observed.Nodup) (hrange : Ranges (pos + list.countP counted) edits pos)
    {old : ι → Bool} (hold : ∀ a ∈ list, old (id a) = true)
    (hnew : ∀ a ∈ insertedBy edits, old (id a) = false) :
    (editRanges counted skips mark edits pos list).filter (fun a => old (id a)) =
      list.map fun a => if id a ∈ inRanges edits observed then mark a else a := by
  induction edits generalizing pos list with
  | nil =>
    simp only [editRanges, inRanges, flatMap_nil, not_mem_nil, if_false, map_id']
    exact filter_eq_self.mpr hold
  | cons edit edits ih =>
    obtain ⟨front, skipped, deleted, rest, rfl, hseg, hrest⟩ := exists_segments hskips hrange
    obtain ⟨init, hinit, hlength⟩ := hobserved
    obtain ⟨hsplit, hfrontLen, hstop⟩ := hseg.observed hskips id hinit hlength
    have hslice : (observed.take edit.stop).drop edit.start = (deleted.filter counted).map id := by
      rw [hsplit, ← append_assoc, ← hstop, take_left, ← hfrontLen, drop_left]
    have hcons : ∀ x, x ∈ inRanges (edit :: edits) observed ↔
        x ∈ (deleted.filter counted).map id ∨ x ∈ inRanges edits observed := by
      intro x
      rw [inRanges, flatMap_cons, hslice, mem_append, ← inRanges]
    -- Elements that are not counted stay as they are, so only the others are compared.
    have hmarks : ∀ (a : α) (p q : Prop) [Decidable p] [Decidable q], (counted a = true → (p ↔ q)) →
          (if p then mark a else a) = if q then mark a else a := by
      intro a p q _ _ hiff
      cases hcounted : counted a with
      | false => simp [hmark a hcounted]
      | true => simp only [hiff hcounted]
    rw [hsplit] at hnodup
    have hfront : ∀ a ∈ front,
        (if id a ∈ inRanges (edit :: edits) observed then mark a else a) = a := by
      intro a ha
      refine hmarks a _ False fun hcounted => iff_false_intro fun hmem => ?_
      rw [hsplit] at hmem
      have hstart : ∀ e ∈ edit :: edits,
          (init ++ (front.filter counted).map id).length ≤ e.start := by
        rw [hfrontLen]
        exact Ranges.pos_le_start ⟨Nat.le_refl _, hrange.2⟩
      have htail := mem_of_mem_inRanges hstart hmem
      refine (nodup_append.mp hnodup).2.2 (id a) ?_ (id a) htail rfl
      exact mem_append_right _ (mem_map_of_mem (by simp [ha, hcounted]))
    have hskipped : ∀ a ∈ skipped,
        (if id a ∈ inRanges (edit :: edits) observed then mark a else a) = a := by
      intro a ha
      refine hmarks a _ False fun hcounted => ?_
      exact absurd (hseg.skipped a ha) (by simp [hskips a hcounted])
    have hdeleted : ∀ a ∈ deleted,
        (if id a ∈ inRanges (edit :: edits) observed then mark a else a) = mark a := by
      intro a ha
      refine hmarks a _ True fun hcounted => iff_true_intro ?_
      exact (hcons _).mpr (Or.inl (mem_map_of_mem (by simp [ha, hcounted])))
    have hrestMarks : ∀ a ∈ rest, (if id a ∈ inRanges (edit :: edits) observed then mark a else a) =
          if id a ∈ inRanges edits observed then mark a else a := by
      intro a ha
      refine hmarks a _ _ fun hcounted => ?_
      rw [hcons, or_iff_right]
      intro hmem
      exact (nodup_append.mp (nodup_append.mp hnodup).2.1).2.2 (id a) hmem (id a)
        (mem_map_of_mem (by simp [ha, hcounted])) rfl
    have hstep := ih ⟨_, by rw [hsplit, ← append_assoc], hstop⟩ hrest
      (fun a ha => hold a (by simp [ha])) (fun a ha => hnew a (mem_append_right _ ha))
    rw [editRanges_cons _ _ hseg]
    simp only [filter_append, map_append, hstep]
    rw [map_congr_left hfront, map_congr_left hskipped,
      map_congr_left hdeleted, map_congr_left hrestMarks]
    have hinserted : edit.inserted.filter (fun a => old (id a)) = [] :=
      filter_eq_nil_iff.mpr fun a ha => by simp [hnew a (mem_append_left _ ha)]
    rw [filter_eq_self.mpr fun a (ha : a ∈ front) => hold a (by simp [ha]),
      filter_eq_self.mpr fun a (ha : a ∈ skipped) => hold a (by simp [ha]), hinserted,
      filter_eq_self.mpr (forall_mem_map.mpr fun a (ha : a ∈ deleted) => by
        rw [hmarkId]
        exact hold a (by simp [ha]))]
    simp

end Marks

end XorEditor.Lib.RangeEdit
