import XorEditor.Text.PatchSemantics
import XorEditor.Text.Versions

/-!
# Composition of patches

`Patch::compose` walks over two patches at once, the first from a text to a middle one and
the second on from there, and writes down what both do together.  Offsets are subtracted with
a check, so that a composition which returns has subtracted nothing below zero.

* `compose`: the composition
* `WellFormed`: a patch from one text to another
* `compose_wellFormed`: it returns, and what it returns
-/

namespace XorEditor.Text

open Lib List

def Edit.oldLen (edit : Edit) : Option Nat := checkedSub edit.oldEnd edit.oldStart

def Edit.newLen (edit : Edit) : Option Nat := checkedSub edit.newEnd edit.newStart

/-- The patch composed so far, and the positions it reaches in the first and the last text. -/
structure ComposeState where
  composed : Patch := []
  oldStart : Nat := 0
  newStart : Nat := 0

namespace ComposeState

variable (state : ComposeState)

/-- Go past text that no edit touches. -/
def advance (catchup : Nat) : ComposeState :=
  { state with oldStart := state.oldStart + catchup, newStart := state.newStart + catchup }

/-- Push the edit from the reached positions to the given ones. -/
def emit (oldEnd newEnd : Nat) : ComposeState where
  composed := state.composed.push ⟨state.oldStart, oldEnd, state.newStart, newEnd⟩
  oldStart := oldEnd
  newStart := newEnd

/-- An old edit in front of all new ones. -/
def pushOld (oldEdit : Edit) : Option ComposeState := do
  let state := state.advance (← checkedSub oldEdit.oldStart state.oldStart)
  return state.emit (state.oldStart + (← oldEdit.oldLen)) (state.newStart + (← oldEdit.newLen))

/-- A new edit in front of all old ones. -/
def pushNew (newEdit : Edit) : Option ComposeState := do
  let state := state.advance (← checkedSub newEdit.newStart state.newStart)
  return state.emit (state.oldStart + (← newEdit.oldLen)) (state.newStart + (← newEdit.newLen))

/-- The part of an old edit in front of the new edit that overlaps it. -/
def alignOld (oldEdit newEdit : Edit) :
    Option (ComposeState × Edit) := do
  let state := state.advance (← checkedSub oldEdit.oldStart state.oldStart)
  let overshoot ← checkedSub newEdit.oldStart oldEdit.newStart
  let oldEnd := min (state.oldStart + overshoot) oldEdit.oldEnd
  let newEnd := state.newStart + overshoot
  return (state.emit oldEnd newEnd,
    { oldEdit with oldStart := oldEnd, newStart := oldEdit.newStart + overshoot })

/-- The part of a new edit in front of the old edit that overlaps it. -/
def alignNew (oldEdit newEdit : Edit) :
    Option (ComposeState × Edit) := do
  let state := state.advance (← checkedSub newEdit.newStart state.newStart)
  let overshoot ← checkedSub oldEdit.newStart newEdit.oldStart
  let oldEnd := state.oldStart + overshoot
  let newEnd := min (state.newStart + overshoot) newEdit.newEnd
  return (state.emit oldEnd newEnd,
    { newEdit with oldStart := newEdit.oldStart + overshoot, newStart := newEnd })

/-- Bring two edits that overlap to one position of the middle text. -/
def align (oldEdit newEdit : Edit) : Option (ComposeState × Edit × Edit) :=
  if oldEdit.newStart < newEdit.oldStart then
    (state.alignOld oldEdit newEdit).map fun aligned => (aligned.1, aligned.2, newEdit)
  else
    (state.alignNew oldEdit newEdit).map fun aligned => (aligned.1, oldEdit, aligned.2)

/-- The whole new edit, within an old one; what is left of the old edit is returned. -/
def takeNew (oldEdit newEdit : Edit) :
    Option (ComposeState × Edit) := do
  let oldEnd := state.oldStart + min (← oldEdit.oldLen) (← newEdit.oldLen)
  let newEnd := state.newStart + (← newEdit.newLen)
  return (state.emit oldEnd newEnd, { oldEdit with oldStart := oldEnd, newStart := newEdit.oldEnd })

/-- The whole old edit, within a new one; what is left of the new edit is returned. -/
def takeOld (oldEdit newEdit : Edit) :
    Option (ComposeState × Edit) := do
  let oldEnd := state.oldStart + (← oldEdit.oldLen)
  let newEnd := state.newStart + min (← oldEdit.newLen) (← newEdit.newLen)
  return (state.emit oldEnd newEnd, { newEdit with oldStart := oldEdit.newEnd, newStart := newEnd })

end ComposeState

namespace Patch

open ComposeState

/-- The loop of `Patch::compose`. -/
def composeFrom : List Edit → List Edit → ComposeState → Option Patch
  | [], [], state => some state.composed
  | oldEdit :: oldEdits, [], state => do
    composeFrom oldEdits [] (← state.pushOld oldEdit)
  | [], newEdit :: newEdits, state => do
    composeFrom [] newEdits (← state.pushNew newEdit)
  | oldEdit :: oldEdits, newEdit :: newEdits, state =>
    if oldEdit.newEnd < newEdit.oldStart then do
      composeFrom oldEdits (newEdit :: newEdits) (← state.pushOld oldEdit)
    else if newEdit.oldEnd < oldEdit.newStart then do
      composeFrom (oldEdit :: oldEdits) newEdits (← state.pushNew newEdit)
    else do
      let (state, oldEdit, newEdit) ← state.align oldEdit newEdit
      if newEdit.oldEnd < oldEdit.newEnd then
        let (state, oldEdit) ← state.takeNew oldEdit newEdit
        composeFrom (oldEdit :: oldEdits) newEdits state
      else
        let (state, newEdit) ← state.takeOld oldEdit newEdit
        composeFrom oldEdits (newEdit :: newEdits) state
termination_by oldEdits newEdits => oldEdits.length + newEdits.length

/-- `Patch::compose`. -/
def compose (patch : Patch) (newEdits : List Edit) : Option Patch :=
  composeFrom patch newEdits {}

end Patch

/-! ## Correctness -/

theorem checkedSub_add (a b : Nat) : checkedSub (a + b) a = some b := by
  simp [checkedSub]

namespace ComposeState

/-- The composed patch turns the first text into the last one, as far as it goes. -/
structure Written (state : ComposeState) (oldDone newDone : Rope) : Prop where
  turns : Patch.Turns 0 0 state.composed oldDone newDone
  separated : state.composed.Separated
  oldStart : state.oldStart = oldDone.length
  newStart : state.newStart = newDone.length

/-- What is left to do from a state: the old edits turn the rest of the first text into that
of the middle one, from `middle` on, and the new edits turn it into that of the last one. -/
def Remaining (middle : Nat) (oldEdits newEdits : List Edit) (state : ComposeState)
    (old new : Rope) : Prop :=
  ∃ oldDone newDone oldRest middleRest newRest,
    old = oldDone ++ oldRest ∧ new = newDone ++ newRest ∧ state.Written oldDone newDone ∧
    Patch.Turns state.oldStart middle oldEdits oldRest middleRest ∧
    Patch.Turns middle state.newStart newEdits middleRest newRest

variable {state : ComposeState} {oldDone newDone old new : Rope} {middle : Nat}
  {oldEdit newEdit : Edit} {oldEdits newEdits : List Edit}

theorem Written.advance (h : state.Written oldDone newDone) (same : Rope) :
    (state.advance same.length).Written (oldDone ++ same) (newDone ++ same) where
  turns := h.turns.same same
  separated := h.separated
  oldStart := by simp [ComposeState.advance, h.oldStart]
  newStart := by simp [ComposeState.advance, h.newStart]

theorem Written.emit (h : state.Written oldDone newDone) (deleted inserted : Rope) :
    (state.emit (state.oldStart + deleted.length) (state.newStart + inserted.length)).Written
      (oldDone ++ deleted) (newDone ++ inserted) := by
  obtain ⟨hturns, hseparated⟩ := h.turns.push h.separated deleted inserted
    (by rw [← h.oldStart, ← h.newStart])
  exact ⟨hturns, hseparated, by simp [ComposeState.emit, h.oldStart],
    by simp [ComposeState.emit, h.newStart]⟩

/-- Text that both leave alone and an edit after it are done. -/
theorem Written.remaining (h : state.Written oldDone newDone) (same deleted inserted : Rope)
    {oldRest middleRest newRest : Rope}
    (hold : Patch.Turns (state.oldStart + same.length + deleted.length) middle oldEdits oldRest
      middleRest)
    (hnew : Patch.Turns middle (state.newStart + same.length + inserted.length) newEdits middleRest
      newRest) : Remaining middle oldEdits newEdits ((state.advance same.length).emit
      (state.oldStart + same.length + deleted.length)
      (state.newStart + same.length + inserted.length))
      (oldDone ++ (same ++ deleted ++ oldRest)) (newDone ++ (same ++ inserted ++ newRest)) :=
  ⟨oldDone ++ same ++ deleted, newDone ++ same ++ inserted, oldRest, middleRest, newRest, by simp,
    by simp, (h.advance same).emit deleted inserted, hold, hnew⟩

/-- An old edit that ends in front of the new ones is done. -/
theorem Remaining.pushOld (h : Remaining middle (oldEdit :: oldEdits) newEdits state old new)
    (hbefore : ∀ edit ∈ newEdits.head?, oldEdit.newEnd ≤ edit.oldStart) :
    ∃ state', state.pushOld oldEdit = some state' ∧
      Remaining oldEdit.newEnd oldEdits newEdits state' old new := by
  obtain ⟨oldDone, newDone, oldRest, middleRest, newRest, rfl, rfl, hwritten, hold, hnew⟩ := h
  obtain ⟨same, deleted, inserted, oldRest, middleRest, rfl, rfl, hos, hoe, hns, hne, hrest⟩ := hold
  obtain ⟨newRest, rfl, hlast⟩ := hnew.drop_same (fun edit hedit => by
    have := hbefore edit hedit
    rw [length_append]
    omega)
  rw [length_append, ← Nat.add_assoc, ← Nat.add_assoc] at hlast
  refine ⟨_, ?_, hwritten.remaining same deleted inserted (by rwa [← hos, ← hoe])
    (by rwa [hne, hns])⟩
  simp only [ComposeState.pushOld, hos, hoe, hne, Edit.oldLen, Edit.newLen, checkedSub_add]
  rfl

/-- A new edit that ends in front of the old ones is done. -/
theorem Remaining.pushNew (h : Remaining middle oldEdits (newEdit :: newEdits) state old new)
    (hbefore : ∀ edit ∈ oldEdits.head?, newEdit.oldEnd ≤ edit.newStart) :
    ∃ state', state.pushNew newEdit = some state' ∧
      Remaining newEdit.oldEnd oldEdits newEdits state' old new := by
  obtain ⟨oldDone, newDone, oldRest, middleRest, newRest, rfl, rfl, hwritten, hold, hnew⟩ := h
  obtain ⟨same, deleted, inserted, middleRest, newRest, rfl, rfl, hos, hoe, hns, hne, hrest⟩ := hnew
  obtain ⟨oldRest, rfl, hlast⟩ := hold.drop_same_new (fun edit hedit => by
    have := hbefore edit hedit
    rw [length_append]
    omega)
  rw [length_append, ← Nat.add_assoc, ← Nat.add_assoc] at hlast
  refine ⟨_, ?_, hwritten.remaining same deleted inserted (by rwa [hoe, hos])
    (by rwa [← hns, ← hne])⟩
  simp only [ComposeState.pushNew, hns, hoe, hne, Edit.oldLen, Edit.newLen, checkedSub_add]
  rfl

/-- The patches may be replaced by others that say the same. -/
theorem Remaining.imp {oldEdits' newEdits' : List Edit}
    (h : Remaining middle oldEdits newEdits state old new)
    (hold : ∀ {old new}, Patch.Turns state.oldStart middle oldEdits old new →
      Patch.Turns state.oldStart middle oldEdits' old new)
    (hnew : ∀ {old new}, Patch.Turns middle state.newStart newEdits old new →
      Patch.Turns middle state.newStart newEdits' old new) :
    Remaining middle oldEdits' newEdits' state old new := by
  obtain ⟨oldDone, newDone, oldRest, middleRest, newRest, rfl, rfl, hwritten, hturns, hturns'⟩ := h
  exact ⟨oldDone, newDone, oldRest, middleRest, newRest, rfl, rfl, hwritten, hold hturns,
    hnew hturns'⟩

/-- Where the next old edit stands. -/
theorem Remaining.old_bounds (h : Remaining middle (oldEdit :: oldEdits) newEdits state old new) :
    state.oldStart ≤ oldEdit.oldStart ∧ oldEdit.oldStart ≤ oldEdit.oldEnd ∧
      oldEdit.newStart ≤ oldEdit.newEnd ∧
      oldEdit.oldStart + middle = oldEdit.newStart + state.oldStart := by
  obtain ⟨-, -, oldRest, middleRest, -, -, -, -, hold, -⟩ := h
  have hbounds := hold.le_length mem_cons_self
  exact ⟨hbounds.1, hbounds.2.1, hbounds.2.2.2.2.1, hold.first_gap⟩

/-- Where the next new edit stands. -/
theorem Remaining.new_bounds (h : Remaining middle oldEdits (newEdit :: newEdits) state old new) :
    state.newStart ≤ newEdit.newStart ∧ newEdit.oldStart ≤ newEdit.oldEnd ∧
      newEdit.newStart ≤ newEdit.newEnd ∧
      newEdit.oldStart + state.newStart = newEdit.newStart + middle := by
  obtain ⟨-, -, -, middleRest, newRest, -, -, -, -, hnew⟩ := h
  have hbounds := hnew.le_length mem_cons_self
  exact ⟨hbounds.2.2.2.1, hbounds.2.1, hbounds.2.2.2.2.1, hnew.first_gap⟩

section Overlap

variable (h : Remaining middle (oldEdit :: oldEdits) (newEdit :: newEdits) state old new)
include h

/-- The front of an old edit that begins before a new edit is done. -/
theorem Remaining.alignOld (hstart : oldEdit.newStart ≤ newEdit.oldStart)
    (hend : newEdit.oldStart ≤ oldEdit.newEnd) :
    ∃ state' oldEdit', state.alignOld oldEdit newEdit = some (state', oldEdit') ∧
      oldEdit'.newStart = newEdit.oldStart ∧
      Remaining newEdit.oldStart (oldEdit' :: oldEdits) (newEdit :: newEdits) state' old new := by
  obtain ⟨hos, hoe, -, -⟩ := h.old_bounds
  obtain ⟨state', hpush, hremaining⟩ :=
    (h.imp (fun hold => hold.split hstart hend) id).pushOld (by simp)
  refine ⟨state', _, ?_, rfl, hremaining⟩
  obtain ⟨catchup, hcatchup⟩ := Nat.exists_eq_add_of_le hos
  obtain ⟨overshoot, hovershoot⟩ := Nat.exists_eq_add_of_le hstart
  obtain ⟨deleted, hdeleted⟩ : ∃ deleted,
      min (state.oldStart + catchup + overshoot) oldEdit.oldEnd =
        state.oldStart + catchup + deleted := Nat.exists_eq_add_of_le (by omega)
  simp only [ComposeState.pushOld, Edit.oldLen, Edit.newLen, hcatchup, hovershoot, hdeleted,
    checkedSub_add, Nat.add_sub_cancel_left, some_do] at hpush
  obtain rfl := Option.some.inj hpush
  simp only [ComposeState.alignOld, ComposeState.advance, hcatchup, hovershoot, hdeleted,
    checkedSub_add, Nat.add_sub_cancel_left, some_do]
  rfl

/-- The front of a new edit that begins before an old edit is done. -/
theorem Remaining.alignNew (hstart : newEdit.oldStart ≤ oldEdit.newStart)
    (hend : oldEdit.newStart ≤ newEdit.oldEnd) :
    ∃ state' newEdit', state.alignNew oldEdit newEdit = some (state', newEdit') ∧
      newEdit'.oldStart = oldEdit.newStart ∧
      Remaining oldEdit.newStart (oldEdit :: oldEdits) (newEdit' :: newEdits) state' old new := by
  obtain ⟨state', hpush, hremaining⟩ :=
    (h.imp id fun hnew => hnew.split_old hstart hend).pushNew (by simp)
  refine ⟨state', _, ?_, rfl, hremaining⟩
  obtain ⟨hns, -, hne, -⟩ := h.new_bounds
  obtain ⟨catchup, hcatchup⟩ := Nat.exists_eq_add_of_le hns
  obtain ⟨overshoot, hovershoot⟩ := Nat.exists_eq_add_of_le hstart
  obtain ⟨inserted, hinserted⟩ : ∃ inserted,
      min (state.newStart + catchup + overshoot) newEdit.newEnd =
        state.newStart + catchup + inserted := Nat.exists_eq_add_of_le (by omega)
  simp only [ComposeState.pushNew, Edit.oldLen, Edit.newLen, hcatchup, hovershoot, hinserted,
    checkedSub_add, Nat.add_sub_cancel_left, some_do] at hpush
  obtain rfl := Option.some.inj hpush
  simp only [ComposeState.alignNew, ComposeState.advance, hcatchup, hovershoot, hinserted,
    checkedSub_add, Nat.add_sub_cancel_left, some_do]
  rfl

/-- Edits that overlap are brought to one position of the middle text. -/
theorem Remaining.align (hold : newEdit.oldStart ≤ oldEdit.newEnd)
    (hnew : oldEdit.newStart ≤ newEdit.oldEnd) :
    ∃ state' oldEdit' newEdit', state.align oldEdit newEdit = some (state', oldEdit', newEdit') ∧
      oldEdit'.newStart = newEdit'.oldStart ∧
      Remaining oldEdit'.newStart (oldEdit' :: oldEdits) (newEdit' :: newEdits) state' old new := by
  unfold ComposeState.align
  split_ifs with hstart
  · obtain ⟨state', oldEdit', haligned, hsame, hremaining⟩ := h.alignOld hstart.le hold
    refine ⟨state', oldEdit', newEdit, by rw [haligned]; rfl, hsame, ?_⟩
    rwa [hsame]
  · obtain ⟨state', newEdit', haligned, hsame, hremaining⟩ := h.alignNew (Nat.not_lt.1 hstart) hnew
    exact ⟨state', oldEdit, newEdit', by rw [haligned]; rfl, hsame.symm, hremaining⟩

variable (hold : oldEdit.newStart = middle) (hnew : newEdit.oldStart = middle)
include hold hnew

/-- Two edits with the same range of the middle text are done together. -/
theorem Remaining.pushBoth (hend : oldEdit.newEnd = newEdit.oldEnd) :
    Remaining newEdit.oldEnd oldEdits newEdits (state.emit oldEdit.oldEnd newEdit.newEnd)
      old new := by
  obtain ⟨oldDone, newDone, oldRest, middleRest, newRest, rfl, rfl, hwritten, hturns, hturns'⟩ := h
  obtain ⟨same, deleted, inserted, oldRest, middleRest, rfl, rfl, hos, hoe, hns, hne, hrest⟩ :=
    hturns
  obtain ⟨same', deleted', inserted', middleRest', newRest, hmiddle, rfl, hos', hoe', hns', hne',
    hrest'⟩ := hturns'
  obtain rfl : same = [] := eq_nil_of_length_eq_zero (by omega)
  obtain rfl : same' = [] := eq_nil_of_length_eq_zero (by omega)
  simp only [nil_append, length_nil, Nat.add_zero] at *
  obtain ⟨rfl, rfl⟩ := append_inj hmiddle (by omega)
  have hwritten' := hwritten.emit deleted inserted'
  rw [← hos, ← hoe, ← hns', ← hne'] at hwritten'
  refine ⟨oldDone ++ deleted, newDone ++ inserted', oldRest, middleRest, newRest, by simp,
    by simp, hwritten', hend ▸ hrest, hrest'⟩

/-- A new edit within an old one that begins with it is done. -/
theorem Remaining.takeNew (hend : newEdit.oldEnd ≤ oldEdit.newEnd) :
    ∃ state' oldEdit', state.takeNew oldEdit newEdit = some (state', oldEdit') ∧
      Remaining newEdit.oldEnd (oldEdit' :: oldEdits) newEdits state' old new := by
  obtain ⟨hos, hoe, -, hgap⟩ := h.old_bounds
  obtain ⟨hns, hle, hne, hgap'⟩ := h.new_bounds
  have hcut := h.imp (fun hturns => hturns.split (by omega : _ ≤ newEdit.oldEnd) hend) id
  refine ⟨_, _, ?_, hcut.pushBoth hold hnew rfl⟩
  have hoverlap : state.oldStart +
      min (oldEdit.oldEnd - oldEdit.oldStart) (newEdit.oldEnd - newEdit.oldStart) =
        min (oldEdit.oldStart + (newEdit.oldEnd - oldEdit.newStart)) oldEdit.oldEnd := by
    omega
  have hreached : state.newStart + (newEdit.newEnd - newEdit.newStart) = newEdit.newEnd := by
    omega
  simp [ComposeState.takeNew, Edit.oldLen, Edit.newLen, checkedSub, hoe, hle, hne, hoverlap,
    hreached]

/-- An old edit within a new one that begins with it is done. -/
theorem Remaining.takeOld (hend : oldEdit.newEnd ≤ newEdit.oldEnd) :
    ∃ state' newEdit', state.takeOld oldEdit newEdit = some (state', newEdit') ∧
      Remaining oldEdit.newEnd oldEdits (newEdit' :: newEdits) state' old new := by
  obtain ⟨hos, hoe, hle, hgap⟩ := h.old_bounds
  obtain ⟨hns, -, hne, hgap'⟩ := h.new_bounds
  have hcut := h.imp id fun hturns => hturns.split_old (by omega : _ ≤ oldEdit.newEnd) hend
  refine ⟨_, _, ?_, hcut.pushBoth hold hnew rfl⟩
  have hoverlap : state.newStart +
      min (oldEdit.newEnd - oldEdit.newStart) (newEdit.newEnd - newEdit.newStart) =
        min (newEdit.newStart + (oldEdit.newEnd - newEdit.oldStart)) newEdit.newEnd := by
    omega
  have hreached : state.oldStart + (oldEdit.oldEnd - oldEdit.oldStart) = oldEdit.oldEnd := by
    omega
  simp [ComposeState.takeOld, Edit.oldLen, Edit.newLen, checkedSub, hoe, hle, hne, hoverlap,
    hreached]

end Overlap

end ComposeState

namespace Patch

open ComposeState

/-- A patch from one text to another: its edits are in increasing order and do not touch, and
the texts are the same outside of them. -/
structure WellFormed (patch : Patch) (old new : Rope) : Prop where
  separated : patch.Separated
  turns : patch.Turns 0 0 old new

/-- From a state with what remains to be done, the loop ends and the composed patch is one
from the first text to the last. -/
theorem composeFrom_wellFormed (oldEdits newEdits : List Edit) (state : ComposeState) {middle : Nat}
    {old new : Rope} (h : Remaining middle oldEdits newEdits state old new) :
    ∃ composed, composeFrom oldEdits newEdits state = some composed ∧
      composed.WellFormed old new := by
  induction oldEdits, newEdits, state using composeFrom.induct generalizing middle with
  | case1 state =>
    obtain ⟨oldDone, newDone, oldRest, middleRest, newRest, rfl, rfl, hwritten, hold, hnew⟩ := h
    obtain rfl : oldRest = middleRest := hold
    obtain rfl : oldRest = newRest := hnew
    rw [composeFrom]
    exact ⟨_, rfl, hwritten.separated, hwritten.turns.same oldRest⟩
  | case2 oldEdit oldEdits state ih =>
    obtain ⟨state', hpush, hremaining⟩ := h.pushOld (fun edit hedit => by cases hedit)
    rw [composeFrom, hpush]
    exact ih state' hremaining
  | case3 newEdit newEdits state ih =>
    obtain ⟨state', hpush, hremaining⟩ := h.pushNew (fun edit hedit => by cases hedit)
    rw [composeFrom, hpush]
    exact ih state' hremaining
  | case4 oldEdit oldEdits newEdit newEdits state hbefore ih =>
    obtain ⟨state', hpush, hremaining⟩ := h.pushOld (fun edit hedit => by
      cases hedit
      exact hbefore.le)
    rw [composeFrom, if_pos hbefore, hpush]
    exact ih state' hremaining
  | case5 oldEdit oldEdits newEdit newEdits state hnot hbefore ih =>
    obtain ⟨state', hpush, hremaining⟩ := h.pushNew (fun edit hedit => by
      cases hedit
      exact hbefore.le)
    rw [composeFrom, if_neg hnot, if_pos hbefore, hpush]
    exact ih state' hremaining
  | case6 oldEdit oldEdits newEdit newEdits state hold hnew ihold ihnew =>
    obtain ⟨state', oldEdit', newEdit', halign, hsame, hremaining⟩ :=
      h.align (Nat.not_lt.1 hold) (Nat.not_lt.1 hnew)
    rw [composeFrom, if_neg hold, if_neg hnew, halign]
    simp only [some_do]
    split_ifs with hend
    · obtain ⟨state'', oldEdit'', htake, hdone⟩ := hremaining.takeNew rfl hsame.symm hend.le
      rw [htake]
      exact ihold state'' oldEdit'' hdone
    · obtain ⟨state'', newEdit'', htake, hdone⟩ :=
        hremaining.takeOld rfl hsame.symm (Nat.not_lt.1 hend)
      rw [htake]
      exact ihnew state'' newEdit'' hdone

theorem WellFormed.exists_compose {patch newPatch : Patch} {first second third : Rope}
    (hpatch : patch.WellFormed first second) (hnew : newPatch.WellFormed second third) :
    ∃ composed, patch.compose newPatch = some composed ∧ composed.WellFormed first third := by
  have hstart : Remaining 0 patch newPatch {} first third :=
    ⟨[], [], first, second, third, rfl, rfl, ⟨rfl, List.Pairwise.nil, rfl, rfl⟩, hpatch.turns,
      hnew.turns⟩
  exact composeFrom_wellFormed patch newPatch {} hstart

/-- The edits of a patch, with the text that it leads to, make this text. -/
theorem WellFormed.substitute_eq {patch : Patch} {old new : Rope} (h : patch.WellFormed old new) :
    patch.substitute old new 0 = new := by
  have hsubstitute : patch.substitute ([] ++ old) ([] ++ new) 0 = new :=
    @Turns.substitute_eq patch old new [] [] h.turns
  exact hsubstitute

/-- The composition of a patch from a first text to a second one with a patch from there to a
third one returns, without having subtracted below zero, and is a patch from the first text to
the third: its edits, with the text of the third, make the third out of the first. -/
theorem compose_wellFormed {patch newPatch : Patch} {first second third : Rope}
    (hpatch : patch.WellFormed first second) (hnew : newPatch.WellFormed second third) :
    ∃ composed, patch.compose newPatch = some composed ∧ composed.WellFormed first third ∧
      composed.substitute first third 0 = third := by
  obtain ⟨composed, hcompose, hwellFormed⟩ := hpatch.exists_compose hnew
  exact ⟨composed, hcompose, hwellFormed, hwellFormed.substitute_eq⟩

/-- A byte is put in front of the last one of a text, and then the last one is deleted. -/
theorem compose_insert_delete :
    ∃ composed, Patch.compose [⟨1, 1, 1, 2⟩] [⟨2, 3, 2, 2⟩] = some composed ∧
      composed.WellFormed [97, 98] [97, 88] ∧
      composed.substitute [97, 98] [97, 88] 0 = [97, 88] :=
  @compose_wellFormed [⟨1, 1, 1, 2⟩] [⟨2, 3, 2, 2⟩] [97, 98] [97, 88, 98] [97, 88]
    ⟨pairwise_singleton _ _, [97], [], [88], [98], [98], rfl, rfl, rfl, rfl, rfl, rfl, rfl⟩
    ⟨pairwise_singleton _ _, [97, 88], [98], [], [], [], rfl, rfl, rfl, rfl, rfl, rfl, rfl⟩

/-- The inverse of a patch leads back, and the composition of both from the first text to
itself: its edits leave the text as it is. -/
theorem invert_wellFormed {patch : Patch} {first second : Rope}
    (h : patch.WellFormed first second) : patch.invert.WellFormed second first ∧
      ∃ composed, patch.compose patch.invert = some composed ∧ composed.WellFormed first first ∧
        composed.substitute first first 0 = first := by
  have hinvert : patch.invert.WellFormed second first :=
    ⟨pairwise_map.mpr (h.separated.imp And.symm), h.turns.invert⟩
  obtain ⟨composed, hcompose, hwellFormed⟩ := h.exists_compose hinvert
  exact ⟨hinvert, composed, hcompose, hwellFormed, hwellFormed.substitute_eq⟩

theorem invert_insert : ∃ composed, Patch.compose [⟨1, 1, 1, 2⟩] [⟨1, 2, 1, 1⟩] = some composed ∧
    composed.WellFormed [97, 98] [97, 98] ∧ composed.substitute [97, 98] [97, 98] 0 = [97, 98] :=
  (@invert_wellFormed [⟨1, 1, 1, 2⟩] [97, 98] [97, 88, 98]
    ⟨pairwise_singleton _ _, [97], [], [88], [98], [98], rfl, rfl, rfl, rfl, rfl, rfl, rfl⟩).2

end Patch

end XorEditor.Text
