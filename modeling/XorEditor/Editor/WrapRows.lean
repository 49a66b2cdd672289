import XorEditor.Rope.TextSummary
import XorEditor.SumTree.CursorList
import Mathlib.Data.List.Chain

/-!
# Row boundaries of wrapped text

A wrap snapshot shows the text of the tab map in runs, with a line break and an indent between
two of them.  `prev_row_boundary` and `next_row_boundary` look for a wrap row that starts a
line.  They only read how many newlines a run has and where it starts, so a run that follows a
wrap without indent, and has two newlines or more, is taken for one that starts a line.

* `WrapSnapshot`: the transforms of a snapshot
* `exists_seek_tree`: the cursor of their tree
* `Overrun`: the rows that are taken for line starts
* `rowBoundaries_isTabRow`: the row boundaries around a row
-/

namespace XorEditor.Editor

open Lib Rope List

/-- A run of text that is shown as it is, or a wrap. -/
inductive Transform where
  | isomorphic (lines : ExactPoint)
  | wrap (indent : Nat)
  deriving DecidableEq

namespace Transform

def isIsomorphic : Transform → Bool
  | isomorphic _ => true
  | wrap _ => false

/-- The input and the output of a transform. -/
def summary : Transform → ExactPoint × ExactPoint
  | isomorphic lines => (lines, lines)
  | wrap indent => (.zero, ⟨1, indent⟩)

end Transform

/-- `Dimensions<WrapPoint, TabPoint>` -/
def wrapDimension : Lib.Dimension (ExactPoint × ExactPoint) (ExactPoint × ExactPoint) where
  zero := (.zero, .zero)
  addSummary position summary := (position.1 + summary.2, position.2 + summary.1)

/-- The positions of a cursor in the tree of transforms. -/
def WrapPosition : Type := ExactPoint × ExactPoint

instance : SumTree.Summary (ExactPoint × ExactPoint) where
  zero := (.zero, .zero)
  add self other := (self.1 + other.1, self.2 + other.2)
  add_assoc _ _ _ := Prod.ext (PointIn.add_assoc ..) (PointIn.add_assoc ..)
  zero_add _ := Prod.ext (PointIn.zero_add _) (PointIn.zero_add _)

instance : SumTree.Item Transform (ExactPoint × ExactPoint) where
  summary := Transform.summary

instance : SumTree.AddingDimension WrapPosition (ExactPoint × ExactPoint) where
  toDimension := .ofList wrapDimension
  addSummary_add _ _ _ := Prod.ext (PointIn.add_assoc ..).symm (PointIn.add_assoc ..).symm

/-- The wrap point and the tab point behind some transforms. -/
def position (transforms : List Transform) : ExactPoint × ExactPoint :=
  wrapDimension.measure Transform.summary transforms

/-- Runs and wraps alternate, and no wrap stands at the start of a line. -/
structure WrapSnapshot where
  transforms : List Transform
  alternating : transforms.IsChain fun a b => a.isIsomorphic ≠ b.isIsomorphic
  inside : ∀ before indent after, transforms = before ++ .wrap indent :: after →
    0 < (position before).2.column

namespace WrapSnapshot

variable (self : WrapSnapshot)

/-- `seek` with a bias to the right. -/
def seek (point : ExactPoint) : ListCursor Transform :=
  ((ListCursor.ofList self.transforms).slice wrapDimension Transform.summary fun position =>
    passes (compare point position.1) .right).2

def maxPoint : ExactPoint := (position self.transforms).1

def toTabPoint (point : ExactPoint) : ExactPoint :=
  let cursor := self.seek point
  let start := position cursor.before
  match cursor.item with
  | some (.isomorphic _) => start.2 + (point - start.1)
  | _ => start.2

/-- The loop of `prev_row_boundary`, over the transforms up to the cursor, the last one first. -/
def prevBoundary (row : Nat) : List Transform → Nat
  | [] => 0
  | .wrap _ :: before => prevBoundary row before
  | .isomorphic lines :: before =>
    let start := position before.reverse
    if lines.row > 1 then
      min ((start.1 + lines).row - 1) row
    else if start.2.column = 0 then
      min (start.1 + lines).row row
    else
      prevBoundary row before

def prevRowBoundary (point : ExactPoint) : Nat :=
  let cursor := self.seek ⟨point.row, 0⟩
  prevBoundary point.row (cursor.item.toList ++ cursor.before.reverse)

/-- The loop of `next_row_boundary`, over the transforms behind the cursor. -/
def nextBoundary (row : Nat) : List Transform → List Transform → Option Nat
  | _, [] => none
  | before, transform :: rest =>
    if transform.isIsomorphic && (position before).2.column = 0 then
      some (max (position before).1.row row)
    else
      nextBoundary row (before ++ [transform]) rest

def nextRowBoundary (point : ExactPoint) : Option Nat :=
  let point := point + ⟨1, 0⟩
  let cursor := self.seek point
  nextBoundary point.row cursor.before cursor.rest

/-- Whether a wrap row is the start of a line of the tab map. -/
def IsTabRow (row : Nat) : Prop := (self.toTabPoint ⟨row, 0⟩).column = 0

/-- A row that starts a line, at another row or above. -/
def LineAbove (row found : Nat) : Prop := found ≤ row ∧ self.IsTabRow found

/-! ### Where a seek stops -/

variable {self} {before after rest : List Transform} {transform : Transform}
  {lines point : ExactPoint}
  {row found : Nat}

theorem le_add (a b : ExactPoint) : a ≤ a + b := by
  rw [PointIn.le_iff, PointIn.add_row, PointIn.add_column]
  split_ifs <;> omega

theorem zero_le (a : ExactPoint) : .zero ≤ a := PointIn.zero_add a ▸ le_add .zero a

theorem row_le {a b : ExactPoint} (h : a ≤ b) : a.row ≤ b.row := by
  rw [PointIn.le_iff] at h
  omega

theorem position_concat (before : List Transform) (transform : Transform) :
    position (before ++ [transform]) = ((position before).1 + transform.summary.2,
      (position before).2 + transform.summary.1) :=
  wrapDimension.measure_concat Transform.summary before transform

theorem le_position (before rest : List Transform) :
    (position before).1 ≤ (position (before ++ rest)).1 := by
  induction rest using List.reverseRecOn with
  | nil => simp
  | append_singleton rest transform ih =>
    rw [← append_assoc, position_concat]
    exact ih.trans (le_add _ _)

/-- The point is behind the transforms before the cursor, and the next one holds it. -/
def Stops (point : ExactPoint) (before rest : List Transform) : Prop :=
  (position before).1 ≤ point ∧
    ∀ transform ∈ rest.head?, point < (position (before ++ [transform])).1

theorem exists_seek (self : WrapSnapshot) (point : ExactPoint) : ∃ before rest,
    self.transforms = before ++ rest ∧ Stops point before rest ∧
      self.seek point = ⟨before, rest⟩ := by
  obtain ⟨hsplit, hstart, hstop⟩ := ListCursor.slice_ofList_spec (rfl : _ = self.seek point)
  refine ⟨_, _, hsplit, ⟨?_, fun transform hitem => ?_⟩, rfl⟩
  · rcases hstart with hnil | hpassed
    · rw [hnil]
      exact zero_le point
    · exact (passes_right_iff _ _).mp hpassed
  · obtain ⟨after, hrest⟩ := head?_eq_some_iff.mp hitem
    rw [position_concat, ← not_le, ← passes_right_iff, Bool.not_eq_true]
    exact hstop transform after hrest

/-- The cursor of the tree of transforms stops there, too. -/
theorem exists_seek_tree {tree : SumTree.Node Transform (ExactPoint × ExactPoint)}
    (hseekable : tree.Seekable self.transforms) (point : ExactPoint) :
    ∃ found cursor, (SumTree.Cursor.new tree : SumTree.Cursor _ _ WrapPosition).seek
        (fun position => compare point position.1) .right = some (found, cursor) ∧
      cursor.tree = tree ∧ cursor.Splits (self.seek point).before (self.seek point).rest := by
  have hnew := SumTree.Cursor.mirrors_new (D := WrapPosition) hseekable.holds
  refine hnew.seekForward hseekable ?_ (SumTree.Walk.adds ..) ?_
  · exact SumTree.isGE_compare (zero_le point)
  · exact SumTree.ahead_key (fun position : WrapPosition => position.1) (fun _ _ => le_add _ _)
      point .right _ _

theorem Stops.not_stops {between : List Transform} (h : Stops point before (transform :: rest)) :
    ¬ Stops point (before ++ transform :: between) after := by
  intro hbehind
  have hle := le_position (before ++ [transform]) between
  rw [append_assoc] at hle
  exact (h.2 transform rfl).not_ge (hle.trans hbehind.1)

/-- There is one place where a seek stops. -/
theorem seek_eq (h : self.transforms = before ++ rest) (hstops : Stops point before rest) :
    self.seek point = ⟨before, rest⟩ := by
  obtain ⟨before', rest', h', hstops', hseek⟩ := self.exists_seek point
  rw [hseek]
  rcases append_eq_append_iff.mp (h.symm.trans h') with
    ⟨_ | ⟨transform, between⟩, rfl, rfl⟩ | ⟨_ | ⟨transform, between⟩, rfl, rfl⟩
  · simp
  · exact absurd hstops' hstops.not_stops
  · simp
  · exact absurd hstops hstops'.not_stops

/-! ### Which rows start a line -/

theorem sub_def (a b : ExactPoint) : a - b =
    if a.row = b.row then ⟨0, a.column - b.column⟩ else ⟨a.row - b.row, a.column⟩ := rfl

section Run

variable (h : self.transforms = before ++ .isomorphic lines :: after)
include h

theorem toTabPoint_eq (hle : (position before).1 ≤ point)
    (hlt : point < (position before).1 + lines) :
    self.toTabPoint point = (position before).2 + (point - (position before).1) := by
  have hseek := seek_eq h ⟨hle, by simpa [position_concat, Transform.summary] using hlt⟩
  rw [toTabPoint, hseek]
  rfl

/-- Only the first run starts at the beginning of a line. -/
theorem before_eq_nil (hcolumn : (position before).2.column = 0) : before = [] := by
  obtain rfl | ⟨init, transform, rfl⟩ := eq_nil_or_concat' before
  · rfl
  · rw [append_assoc] at h
    have hchain := h ▸ self.alternating
    cases transform with
    | isomorphic _ => simp [isChain_append, Transform.isIsomorphic] at hchain
    | wrap indent =>
      have hinside := self.inside init indent _ h
      rw [position_concat] at hcolumn
      simp only [Transform.summary, PointIn.add_zero] at hcolumn
      omega

/-- Only the last run ends at the beginning of a line. -/
theorem after_eq_nil (hcolumn : ((position before).2 + lines).column = 0) : after = [] := by
  cases after with
  | nil => rfl
  | cons transform after =>
    have hchain := h ▸ self.alternating
    cases transform with
    | isomorphic _ => simp [isChain_append, Transform.isIsomorphic] at hchain
    | wrap indent =>
      have hinside := self.inside (before ++ [.isomorphic lines]) indent after (by simp [h])
      rw [position_concat] at hinside
      simp only [Transform.summary] at hinside
      omega

/-- A row that starts within a run starts a line, if it does not start with the run or the
run is the first one. -/
theorem isTabRow (hstop : row ≤ (position before).1.row + lines.row)
    (hstart : (position before).1.row < row ∨ before = []) : self.IsTabRow row := by
  have hle : (position before).1 ≤ ⟨row, 0⟩ := by
    rcases hstart with hbelow | rfl
    · exact PointIn.le_iff.mpr (Or.inl hbelow)
    · exact zero_le _
  have hcolumn : (position before).1.row < row ∨ (position before).2.column = 0 :=
    hstart.imp_right fun hnil => by rw [hnil]; rfl
  rcases lt_or_ge ⟨row, 0⟩ ((position before).1 + lines) with hlt | hge
  · rw [IsTabRow, toTabPoint_eq h hle hlt, PointIn.add_column, sub_def]
    rw [PointIn.le_iff] at hle
    dsimp only at hle ⊢
    split_ifs <;> dsimp only at * <;> omega
  · -- the run ends with a newline, so that it is the last one
    have hend : ((position before).2 + lines).column = 0 := by
      rw [PointIn.le_iff, PointIn.add_row, PointIn.add_column] at hge
      rw [PointIn.le_iff] at hle
      rw [PointIn.add_column]
      dsimp only at hge hle
      split_ifs at hge ⊢ <;> omega
    obtain rfl := after_eq_nil h hend
    have hseek := @seek_eq self (before ++ [.isomorphic lines]) [] ⟨row, 0⟩ (by simp [h])
      ⟨by rwa [position_concat], by simp⟩
    rw [IsTabRow, toTabPoint, hseek]
    change (position _).2.column = 0
    rwa [position_concat]

/-- What the loop answers at a run, if a run of several lines starts above the row. -/
theorem prevBoundary_isomorphic
    (hstart : 1 < lines.row → (position before).1.row < row ∨ before = [])
    (hback : self.LineAbove row (prevBoundary row before.reverse)) :
    self.LineAbove row (prevBoundary row (.isomorphic lines :: before.reverse)) := by
  simp only [prevBoundary, reverse_reverse, PointIn.add_row]
  split_ifs with hlines hcolumn
  · refine ⟨min_le_right _ _, isTabRow h (by omega) ((hstart hlines).imp_left fun hbelow => ?_)⟩
    omega
  · exact ⟨min_le_right _ _, isTabRow h (min_le_left _ _) (Or.inr (before_eq_nil h hcolumn))⟩
  · exact hback

end Run

theorem isTabRow_zero (self : WrapSnapshot) : self.IsTabRow 0 := by
  cases h : self.transforms with
  | nil =>
    have hseek := @seek_eq self [] [] ⟨0, 0⟩ h ⟨le_rfl, by simp⟩
    rw [IsTabRow, toTabPoint, hseek]
    rfl
  | cons transform after =>
    cases transform with
    | wrap indent => exact absurd (self.inside [] indent after h) (lt_irrefl _)
    | isomorphic lines =>
      exact @isTabRow self [] after lines 0 h (Nat.zero_le _) (Or.inr rfl)

/-- From the end of transforms before a row, the loop finds the start of a line. -/
theorem prevBoundary_line (h : self.transforms = before ++ after)
    (hle : (position before).1 ≤ ⟨row, 0⟩) :
    self.LineAbove row (prevBoundary row before.reverse) := by
  induction before using List.reverseRecOn generalizing after with
  | nil => exact ⟨Nat.zero_le _, self.isTabRow_zero⟩
  | append_singleton before transform ih =>
    rw [append_assoc] at h
    have hback := ih h ((le_position before _).trans hle)
    rw [reverse_concat]
    cases transform with
    | wrap indent => exact hback
    | isomorphic lines =>
      refine prevBoundary_isomorphic h (fun hlines => Or.inl ?_) hback
      have hrow := row_le (position_concat before _ ▸ hle)
      simp only [Transform.summary, PointIn.add_row] at hrow
      omega

/-- The row goes on with a line behind a wrap without indent, and the run there has two
newlines or more. -/
def Overrun (self : WrapSnapshot) (row : Nat) : Prop :=
  ∃ before lines after, self.transforms = before ++ .isomorphic lines :: after ∧ before ≠ [] ∧
    (position before).1 = ⟨row, 0⟩ ∧ 1 < lines.row

theorem prevRowBoundary_of_overrun (h : self.Overrun row) :
    self.prevRowBoundary ⟨row, 0⟩ = row ∧ ¬ self.IsTabRow row := by
  obtain ⟨before, lines, after, h, hbefore, hstart, hlines⟩ := h
  have hlt : (⟨row, 0⟩ : ExactPoint) < (position before).1 + lines := by
    rw [hstart, PointIn.lt_iff, PointIn.add_row]
    left
    dsimp only
    omega
  have hseek := seek_eq h ⟨hstart.le, by simpa [position_concat, Transform.summary] using hlt⟩
  constructor
  · rw [prevRowBoundary, hseek]
    change prevBoundary row (.isomorphic lines :: before.reverse) = row
    simp only [prevBoundary, reverse_reverse, if_pos hlines, hstart, PointIn.add_row]
    omega
  · rw [IsTabRow, toTabPoint_eq h hstart.le hlt, hstart, sub_def, if_pos rfl, PointIn.add_column]
    exact fun hcolumn => hbefore (before_eq_nil h hcolumn)

theorem prevRowBoundary_line (h : ¬ self.Overrun row) :
    self.LineAbove row (self.prevRowBoundary ⟨row, 0⟩) := by
  obtain ⟨before, rest, hsplit, hstops, hseek⟩ := self.exists_seek ⟨row, 0⟩
  have hback := prevBoundary_line hsplit hstops.1
  rw [prevRowBoundary, hseek]
  rcases rest with _ | ⟨lines | indent, after⟩
  · exact hback
  · refine prevBoundary_isomorphic hsplit (fun hlines => ?_) hback
    by_contra hfirst
    rw [not_or] at hfirst
    refine h ⟨before, lines, after, hsplit, hfirst.2, ?_, hlines⟩
    have hle := PointIn.le_iff.mp hstops.1
    ext <;> dsimp only at * <;> omega
  · exact hback

/-- `next_row_boundary` only finds a line that starts within the first run. -/
theorem nextBoundary_eq_some (h : self.transforms = before ++ rest)
    (hfound : nextBoundary row before rest = some found) :
    before = [] ∧ found = row ∧ ∃ lines after, rest = .isomorphic lines :: after := by
  induction rest generalizing before with
  | nil => exact absurd hfound (by simp [nextBoundary])
  | cons transform rest ih =>
    rw [nextBoundary] at hfound
    split_ifs at hfound with hstart
    · cases transform with
      | wrap indent => simp [Transform.isIsomorphic] at hstart
      | isomorphic lines =>
        obtain rfl := before_eq_nil h (by simpa [Transform.isIsomorphic] using hstart)
        obtain rfl := Option.some.inj hfound
        exact ⟨rfl, Nat.zero_max _, lines, rest, rfl⟩
    · exact absurd (ih (by rw [h, append_cons]) hfound).1 (by simp)

theorem nextRowBoundary_line (hfound : self.nextRowBoundary ⟨row, 0⟩ = some found) :
    row < found ∧ found ≤ self.maxPoint.row ∧ self.IsTabRow found := by
  obtain ⟨before, rest, hsplit, hstops, hseek⟩ := self.exists_seek ⟨row + 1, 0⟩
  replace hseek : self.seek (⟨row, 0⟩ + ⟨1, 0⟩) = ⟨before, rest⟩ := hseek
  rw [nextRowBoundary, hseek] at hfound
  obtain ⟨rfl, rfl, lines, after, rfl⟩ := nextBoundary_eq_some hsplit hfound
  have hrun : (position [.isomorphic lines]).1 = lines := PointIn.zero_add lines
  have hlt : (⟨row + 1, 0⟩ : ExactPoint) ≤ lines := hrun ▸ (hstops.2 _ rfl).le
  have hmax : lines ≤ self.maxPoint := by
    rw [maxPoint, hsplit]
    exact hrun.ge.trans (le_position [.isomorphic lines] after)
  have hrow := row_le hlt
  refine ⟨Nat.lt_succ_self _, hrow.trans (row_le hmax), isTabRow hsplit ?_ (Or.inr rfl)⟩
  exact hrow.trans_eq (Nat.zero_add _).symm

/-- The row boundaries around a wrapped row are real line starts, but for the one case in which
the row is not returned to the start of its line. -/
theorem rowBoundaries_isTabRow (self : WrapSnapshot) (row : Nat) :
    self.prevRowBoundary ⟨row, 0⟩ ≤ row ∧
      (self.IsTabRow (self.prevRowBoundary ⟨row, 0⟩) ↔ ¬ self.Overrun row) ∧
      ∀ next, self.nextRowBoundary ⟨row, 0⟩ = some next →
        row < next ∧ next ≤ self.maxPoint.row ∧ self.IsTabRow next := by
  refine ⟨?_, ⟨fun hline hoverrun => ?_, fun h => (prevRowBoundary_line h).2⟩,
    fun _ => nextRowBoundary_line⟩
  · by_cases hoverrun : self.Overrun row
    · exact (prevRowBoundary_of_overrun hoverrun).1.le
    · exact (prevRowBoundary_line hoverrun).1
  · obtain ⟨hrow, hinside⟩ := prevRowBoundary_of_overrun hoverrun
    exact hinside (hrow ▸ hline)

/-- The text `a`, wrapped without indent, and `b` with two newlines behind it. -/
theorem prevRowBoundary_insideLine : ∃ self : WrapSnapshot,
    self.transforms = [.isomorphic ⟨0, 1⟩, .wrap 0, .isomorphic ⟨2, 0⟩] ∧
      self.prevRowBoundary ⟨1, 0⟩ = 1 ∧ self.toTabPoint ⟨1, 0⟩ = ⟨0, 1⟩ := by
  refine ⟨⟨[.isomorphic ⟨0, 1⟩, .wrap 0, .isomorphic ⟨2, 0⟩], by decide, ?_⟩, rfl, ?_, ?_⟩
  · intro before indent after h
    rcases before with _ | ⟨first, _ | ⟨second, _ | ⟨third, before⟩⟩⟩ <;> simp at h
    obtain ⟨rfl, -⟩ := h
    decide
  · decide +kernel
  · decide +kernel

end WrapSnapshot

end XorEditor.Editor
