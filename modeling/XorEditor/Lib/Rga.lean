import Mathlib.Data.List.Nodup
import Mathlib.Data.List.TakeWhile
import XorEditor.Lib.ListCursor

/-!
# Replicated growable arrays

A replicated list whose elements are never removed.  Every element has a *parent*, the
element it was inserted behind (or the beginning of the list), and a *priority*.  A new
element is placed behind its parent, after all directly following elements of higher
priority.

The list of all elements ever inserted is a *universe*: `Wf` states that between an
element and its parent there are only elements of higher priority.  The two main results
are

* `Wf.insertAll`: inserting new elements keeps the universe well formed;
* `insertAll_filter`: a replica that holds the elements of a set closed under parents, in
  the order of the universe, and inserts further elements of the universe, again holds
  them in the order of the universe.

So the order in which replicas insert elements does not matter.
-/

namespace XorEditor.Lib.Rga

open List

variable {ι P : Type*} [LinearOrder P] {A : ι → Bool} {parent : Option ι} {list : List ι}

section Insertion

variable (priority : ι → P)

/-- Insert `x` in front of the first element that does not have a higher priority. -/
def insertSkip (x : ι) (list : List ι) : List ι :=
  list.takeWhile (fun y => decide (priority x < priority y)) ++
    x :: list.dropWhile fun y => decide (priority x < priority y)

variable [DecidableEq ι]

/-- Insert `x` behind its parent; `none` is the beginning of the list. -/
def insertAfter : Option ι → ι → List ι → List ι
  | none, x, list => insertSkip priority x list
  | some _, _, [] => []
  | some p, x, y :: ys =>
    if y = p then y :: insertSkip priority x ys else y :: insertAfter (some p) x ys

/-- Insert several elements, one after the other, each behind its parent. -/
def insertAll (parent : ι → Option ι) (xs : List ι) (list : List ι) : List ι :=
  xs.foldl (fun list x => insertAfter priority (parent x) x list) list

end Insertion

/-- The list ends with the given parent; it is empty if that is the beginning. -/
def EndsAt : Option ι → List ι → Prop
  | none, list => list = []
  | some p, list => ∃ init, list = init ++ [p]

theorem endsAt_iff : EndsAt parent list ↔ list.getLast? = parent := by
  cases parent with
  | none => exact getLast?_eq_none_iff.symm
  | some p => exact getLast?_eq_some_iff.symm

theorem EndsAt.filter (h : EndsAt parent list) (hA : ∀ p, parent = some p → A p = true) :
    EndsAt parent (list.filter A) := by
  cases parent with
  | none =>
    change list = [] at h
    simp [EndsAt, h]
  | some p =>
    obtain ⟨init, rfl⟩ := h
    exact ⟨init.filter A, by simp [hA p rfl]⟩

section InsertAfter

variable {priority : ι → P} {x : ι}

theorem insertSkip_append {skipped rest : List ι}
    (hskipped : ∀ y ∈ skipped, priority x < priority y)
    (hrest : ∀ y tail, rest = y :: tail → ¬ priority x < priority y) :
    insertSkip priority x (skipped ++ rest) = skipped ++ x :: rest := by
  obtain ⟨htake, hdrop⟩ := span_eq (fun y hy => decide_eq_true (hskipped y hy))
    fun y tail hy => decide_eq_false (hrest y tail hy)
  rw [insertSkip, htake, hdrop]

/-- Every list splits at the place where `insertSkip` puts an element. -/
theorem exists_insertSkip_split (priority : ι → P) (x : ι) (list : List ι) :
    ∃ skipped rest, list = skipped ++ rest ∧ (∀ y ∈ skipped, priority x < priority y) ∧
      ∀ y tail, rest = y :: tail → ¬ priority x < priority y := by
  refine ⟨_, _, (takeWhile_append_dropWhile
    (p := fun y => decide (priority x < priority y))).symm, ?_, ?_⟩
  · intro y hy
    simpa using mem_takeWhile_imp hy
  · intro y tail hrest
    have hhead := head?_dropWhile_not (fun y => decide (priority x < priority y)) list
    rw [hrest] at hhead
    simpa using hhead

variable [DecidableEq ι]

/-- Where `insertAfter` puts an element: behind the parent and the elements of higher
priority that follow it. -/
theorem insertAfter_append {before skipped rest : List ι} (hbefore : EndsAt parent before)
    (hnodup : before.Nodup) (hskipped : ∀ y ∈ skipped, priority x < priority y)
    (hrest : ∀ y tail, rest = y :: tail → ¬ priority x < priority y) :
    insertAfter priority parent x (before ++ skipped ++ rest) = before ++ skipped ++ x :: rest := by
  cases parent with
  | none =>
    change before = [] at hbefore
    subst hbefore
    simpa [insertAfter] using insertSkip_append hskipped hrest
  | some p =>
    obtain ⟨init, rfl⟩ := hbefore
    induction init with
    | nil =>
      have hskip := insertSkip_append hskipped hrest
      simp [insertAfter, hskip]
    | cons y init ih =>
      simp only [cons_append, nodup_cons, mem_append, mem_singleton, not_or] at hnodup
      simp only [cons_append, insertAfter, if_neg hnodup.1.2, List.cons.injEq, true_and]
      exact ih hnodup.2

/-- Inserting an element changes nothing else. -/
theorem filter_insertAfter (hx : A x = false) (parent : Option ι) (list : List ι) :
    (insertAfter priority parent x list).filter A = list.filter A := by
  have hskip : ∀ list : List ι, (insertSkip priority x list).filter A = list.filter A := by
    intro list
    rw [insertSkip, filter_append, filter_cons_of_neg (by simp [hx]),
      ← filter_append, takeWhile_append_dropWhile]
  cases parent with
  | none => simpa only [insertAfter] using hskip list
  | some p =>
    induction list with
    | nil => simp [insertAfter]
    | cons y ys ih =>
      simp only [insertAfter]
      split <;> simp [filter_cons, hskip, ih]

end InsertAfter

section Universe

variable (parent : ι → Option ι) (priority : ι → P)

/-- `x` may follow the elements `list`: they end with its parent, up to elements of
higher priority. -/
def Anchored (x : ι) (list : List ι) : Prop :=
  ∃ before skipped, list = before ++ skipped ∧ EndsAt (parent x) before ∧
    ∀ y ∈ skipped, priority x < priority y

/-- Between an element and its parent there are only elements of higher priority. -/
structure Wf (elements : List ι) : Prop where
  nodup : elements.Nodup
  anchored : ∀ before x after, elements = before ++ x :: after → Anchored parent priority x before

/-- Every element's parent is in `A` or among the elements inserted before it. -/
def ParentsIn (A : ι → Prop) : List ι → Prop
  | [] => True
  | x :: xs => (∀ p, parent x = some p → A p) ∧ ParentsIn (fun y => A y ∨ y = x) xs

variable {parent priority}

theorem ParentsIn.imp {A B : ι → Prop} {xs : List ι} (h : ParentsIn parent A xs)
    (hAB : ∀ y, A y → B y) : ParentsIn parent B xs := by
  induction xs generalizing A B with
  | nil => trivial
  | cons x xs ih =>
    refine ⟨fun p hp => hAB p (h.1 p hp), ih h.2 ?_⟩
    intro y hy
    exact hy.imp_left (hAB y)

variable {list elements : List ι} {x : ι}

theorem exists_endsAt {p : Option ι} (h : ∀ q, p = some q → q ∈ list) :
    ∃ before after, list = before ++ after ∧ EndsAt p before := by
  cases p with
  | none => exact ⟨[], list, rfl, rfl⟩
  | some q =>
    obtain ⟨init, after, hlist⟩ := append_of_mem (h q rfl)
    exact ⟨init ++ [q], after, by simp [hlist], init, rfl⟩

/-- Only the parents of the elements matter. -/
theorem Wf.congr {parent' : ι → Option ι} (h : Wf parent priority elements)
    (heq : ∀ x ∈ elements, parent' x = parent x) : Wf parent' priority elements := by
  refine ⟨h.nodup, fun before x after hsplit => ?_⟩
  obtain ⟨anchor, skipped, hbefore, hanchor, hskipped⟩ := h.anchored before x after hsplit
  exact ⟨anchor, skipped, hbefore, (heq x (by simp [hsplit])).symm ▸ hanchor, hskipped⟩

/-- An element stays anchored when `x` is inserted somewhere in front of it, provided
that the elements following `x` up to it do not have a higher priority than `x`. -/
theorem Anchored.insert {y : ι} {before between : List ι}
    (h : Anchored parent priority y (before ++ between)) (hxy : priority x ≠ priority y)
    (hnext : ∀ z tail, between ++ [y] = z :: tail → ¬ priority x < priority z) :
    Anchored parent priority y (before ++ x :: between) := by
  obtain ⟨anchor, skipped, hsplit, hanchor, hskipped⟩ := h
  -- If `x` lands among the skipped elements, its priority must be above that of `y`.
  have habove : ∀ front, skipped = front ++ between → priority y < priority x := by
    intro front hfront
    cases between with
    | nil => exact lt_of_le_of_ne (not_lt.mp (hnext y [] rfl)) hxy.symm
    | cons z tail =>
      have hz := hskipped z (by simp [hfront])
      exact lt_of_lt_of_le hz (not_lt.mp (hnext z (tail ++ [y]) rfl))
  rcases append_eq_append_iff.mp hsplit with ⟨mid, hanchor', hbetween⟩ | ⟨mid, hbefore', hskip⟩
  · -- The parent of `y` comes after `x`, or right at the end of `before`.
    cases mid with
    | nil =>
      refine ⟨anchor, x :: skipped, ?_, hanchor, ?_⟩
      · simp_all
      · intro z hz
        rcases mem_cons.mp hz with rfl | hz
        · exact habove [] (by simpa using hbetween.symm)
        · exact hskipped z hz
    | cons m mid =>
      refine ⟨before ++ x :: m :: mid, skipped, by simp [hbetween], ?_, hskipped⟩
      rw [hanchor', endsAt_iff, getLast?_append_of_ne_nil _ (by simp)] at hanchor
      rwa [endsAt_iff, getLast?_append_of_ne_nil _ (by simp), getLast?_cons_cons]
  · refine ⟨anchor, mid ++ x :: between, by simp [hbefore'], hanchor, ?_⟩
    intro z hz
    rcases mem_append.mp hz with hz | hz
    · exact hskipped z (by simp [hskip, hz])
    · rcases mem_cons.mp hz with rfl | hz
      · exact habove mid hskip
      · exact hskipped z (by simp [hskip, hz])

variable [DecidableEq ι]

variable (priority) in
/-- The shape of the list after an insertion. -/
theorem exists_insertAfter_split (hnodup : list.Nodup)
    (hparent : ∀ p, parent x = some p → p ∈ list) :
    ∃ before rest, list = before ++ rest ∧ Anchored parent priority x before ∧
      (∀ y tail, rest = y :: tail → ¬ priority x < priority y) ∧
      insertAfter priority (parent x) x list = before ++ x :: rest := by
  obtain ⟨before, after, rfl, hbefore⟩ := exists_endsAt hparent
  obtain ⟨skipped, rest, rfl, hskipped, hrest⟩ := exists_insertSkip_split priority x after
  refine ⟨before ++ skipped, rest, by simp, ⟨before, skipped, rfl, hbefore, hskipped⟩, hrest, ?_⟩
  rw [← append_assoc]
  exact insertAfter_append hbefore (List.Nodup.of_append_left hnodup) hskipped hrest

/-- Inserting a new element keeps a universe well formed. -/
theorem Wf.insertAfter (hwf : Wf parent priority elements) (hinj : Function.Injective priority)
    (hx : x ∉ elements) (hparent : ∀ p, parent x = some p → p ∈ elements) :
    Wf parent priority (insertAfter priority (parent x) x elements) := by
  obtain ⟨before, rest, rfl, hanchored, hrest, heq⟩ :=
    exists_insertAfter_split priority hwf.nodup hparent
  rw [heq]
  refine ⟨?_, ?_⟩
  · have hperm : (before ++ x :: rest).Perm (x :: (before ++ rest)) := perm_middle
    exact hperm.nodup_iff.mpr (nodup_cons.mpr ⟨hx, hwf.nodup⟩)
  · intro front y after hsplit
    rcases append_eq_append_cons hsplit with ⟨mid, rfl, -⟩ | ⟨mid, rfl, hmid⟩
    · exact hwf.anchored front y (mid ++ rest) (by simp)
    · cases mid with
      | nil =>
        obtain ⟨rfl, -⟩ := List.cons.inj hmid
        rwa [append_nil]
      | cons m mid =>
        -- `y` lies behind the new element.
        obtain ⟨rfl, rfl⟩ := List.cons.inj hmid
        have hold := hwf.anchored (before ++ mid) y after (by simp)
        have hne : x ≠ y := by
          rintro rfl
          exact hx (by simp)
        refine hold.insert (fun h => hne (hinj h)) ?_
        intro z tail hz
        exact hrest z (tail ++ after) (by simpa using congrArg (· ++ after) hz)

/-- The order of the universe is respected by the insertion of one of its elements into
a part of it that is closed under parents. -/
theorem insertAfter_filter (hwf : Wf parent priority elements)
    (hclosed : ∀ y ∈ elements, A y = true → ∀ p, parent y = some p → A p = true) (hx : x ∈ elements)
    (hxA : A x = false) (hparent : ∀ p, parent x = some p → A p = true) :
    Rga.insertAfter priority (parent x) x (elements.filter A) =
      elements.filter fun y => A y || decide (y = x) := by
  obtain ⟨front, after, rfl⟩ := append_of_mem hx
  obtain ⟨before, skipped, rfl, hbefore, hskipped⟩ := hwf.anchored front x after rfl
  have hnodup := hwf.nodup
  have hxfront : x ∉ before ++ skipped := by
    intro hmem
    exact (nodup_append.mp hnodup).2.2 x hmem x (by simp) rfl
  have hxafter : x ∉ after := (nodup_cons.mp (nodup_append.mp hnodup).2.1).1
  have hne : ∀ list : List ι, x ∉ list →
      list.filter (fun y => A y || decide (y = x)) = list.filter A := by
    intro list hlist
    apply filter_congr
    intro y hy
    have : y ≠ x := by
      rintro rfl
      exact hlist hy
    simp [this]
  have hrhs : (before ++ skipped ++ x :: after).filter (fun y => A y || decide (y = x)) =
      before.filter A ++ skipped.filter A ++ x :: after.filter A := by
    rw [filter_append, hne _ hxfront, filter_cons_of_pos (by simp), hne _ hxafter, filter_append]
  have hlhs : (before ++ skipped ++ x :: after).filter A =
      before.filter A ++ skipped.filter A ++ after.filter A := by
    rw [filter_append, filter_append, filter_cons_of_neg (by simp [hxA])]
  rw [hrhs, hlhs]
  apply insertAfter_append (hbefore.filter hparent)
  · exact ((hnodup.of_append_left).of_append_left).filter _
  · intro y hy
    exact hskipped y (mem_of_mem_filter hy)
  · -- The first element of `A` behind `x` has its parent in front of `x`.
    intro w tail htail hlt
    obtain ⟨between, after', hafter, hbetween, hw⟩ :
        ∃ between after', after = between ++ w :: after' ∧
          (∀ y ∈ between, A y = false) ∧ A w = true := by
      obtain ⟨l₁, l₂, hl, hl₁, hw, -⟩ := filter_eq_cons_iff.mp htail
      exact ⟨l₁, l₂, hl, by simpa using hl₁, hw⟩
    subst hafter
    obtain ⟨anchor, skipped', hsplit, hanchor, hskipped'⟩ :=
      hwf.anchored (before ++ skipped ++ x :: between) w after' (by simp)
    have hwparent : ∀ p, parent w = some p → A p = true := hclosed w (by simp) hw
    rcases append_eq_append_cons hsplit.symm with ⟨mid, rfl, rfl⟩ | ⟨mid, -, rfl⟩
    · rw [endsAt_iff, getLast?_append_of_ne_nil _ (by simp)] at hanchor
      obtain ⟨q, hq⟩ := Option.isSome_iff_exists.mp (by simp : (x :: mid).getLast?.isSome)
      have hqA := hwparent q (hanchor.symm.trans hq)
      rcases mem_cons.mp (mem_of_getLast? hq) with rfl | hq
      · simp [hxA] at hqA
      · simp [hbetween q (by simp [hq])] at hqA
    · exact lt_asymm hlt (hskipped' x (by simp))

section InsertAll

theorem insertAll_nil (list : List ι) : insertAll priority parent [] list = list := rfl

theorem insertAll_cons (x : ι) (xs list : List ι) : insertAll priority parent (x :: xs) list =
      insertAll priority parent xs (Rga.insertAfter priority (parent x) x list) := rfl

theorem insertAll_append (xs ys list : List ι) : insertAll priority parent (xs ++ ys) list =
      insertAll priority parent ys (insertAll priority parent xs list) := by
  simp only [insertAll, foldl_append]

variable {xs : List ι}

/-- Elements outside the inserted ones keep their order. -/
theorem filter_insertAll (hxs : ∀ x ∈ xs, A x = false) (list : List ι) :
    (insertAll priority parent xs list).filter A = list.filter A := by
  induction xs generalizing list with
  | nil => rfl
  | cons x xs ih =>
    rw [insertAll_cons, ih fun y hy => hxs y (mem_cons_of_mem x hy)]
    exact filter_insertAfter (hxs x (by simp)) _ _

section Fresh

variable (hwf : Wf parent priority elements) (hinj : Function.Injective priority)
  (hnodup : xs.Nodup) (hfresh : ∀ x ∈ xs, x ∉ elements)
  (hparents : ParentsIn parent (· ∈ elements) xs)
include hwf hinj hnodup hfresh hparents

theorem mem_insertAll_and_wf : Wf parent priority (insertAll priority parent xs elements) ∧
      ∀ y, y ∈ insertAll priority parent xs elements ↔ y ∈ elements ∨ y ∈ xs := by
  induction xs generalizing elements with
  | nil => exact ⟨hwf, by simp [insertAll_nil]⟩
  | cons x xs ih =>
    obtain ⟨hx, hxs⟩ := nodup_cons.mp hnodup
    have hmem : ∀ y, y ∈ Rga.insertAfter priority (parent x) x elements ↔
        y ∈ elements ∨ y = x := by
      obtain ⟨before, rest, rfl, -, -, heq⟩ :=
        exists_insertAfter_split priority hwf.nodup hparents.1
      simp only [heq, mem_append, mem_cons]
      tauto
    have hstep := ih (hwf.insertAfter hinj (hfresh x (by simp)) hparents.1) hxs
      (by
        intro y hy hmem'
        rcases (hmem y).mp hmem' with h | rfl
        · exact hfresh y (mem_cons_of_mem x hy) h
        · exact hx hy)
      (hparents.2.imp fun y hy => (hmem y).mpr hy)
    rw [insertAll_cons]
    refine ⟨hstep.1, fun y => ?_⟩
    rw [hstep.2 y, hmem y, mem_cons]
    tauto

/-- Inserting new elements keeps a universe well formed. -/
theorem Wf.insertAll : Wf parent priority (insertAll priority parent xs elements) :=
  (mem_insertAll_and_wf hwf hinj hnodup hfresh hparents).1

theorem mem_insertAll (y : ι) :
    y ∈ Rga.insertAll priority parent xs elements ↔ y ∈ elements ∨ y ∈ xs :=
  (mem_insertAll_and_wf hwf hinj hnodup hfresh hparents).2 y

end Fresh

/-- A replica that holds a part of the universe closed under parents, and inserts further
elements of it, again holds a part of the universe in its order. -/
theorem insertAll_filter (hwf : Wf parent priority elements)
    (hclosed : ∀ y ∈ elements, A y = true → ∀ p, parent y = some p → A p = true) (hnodup : xs.Nodup)
    (hxs : ∀ x ∈ xs, x ∈ elements) (hfresh : ∀ x ∈ xs, A x = false)
    (hparents : ParentsIn parent (A · = true) xs) :
    Rga.insertAll priority parent xs (elements.filter A) =
      elements.filter fun y => A y || decide (y ∈ xs) := by
  induction xs generalizing A with
  | nil => simp [insertAll_nil]
  | cons x xs ih =>
    obtain ⟨hx, hxs'⟩ := nodup_cons.mp hnodup
    rw [insertAll_cons, insertAfter_filter hwf hclosed (hxs x (by simp))
      (hfresh x (by simp)) hparents.1]
    rw [ih ?_ hxs' (fun y hy => hxs y (mem_cons_of_mem x hy)) ?_ ?_]
    · apply filter_congr
      intro y _
      simp [Bool.or_assoc, mem_cons]
    · intro y hy hyA p hp
      simp only [Bool.or_eq_true, decide_eq_true_eq] at hyA ⊢
      rcases hyA with hyA | rfl
      · exact Or.inl (hclosed y hy hyA p hp)
      · exact Or.inl (hparents.1 p hp)
    · intro y hy
      have hne : y ≠ x := by
        rintro rfl
        exact hx hy
      simp [hfresh y (mem_cons_of_mem x hy), hne]
    · exact hparents.2.imp (by simp)

end InsertAll

end Universe

end XorEditor.Lib.Rga
