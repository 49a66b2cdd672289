import XorEditor.Text.EditsSince

/-!
# The edits since a version in a range

`has_edits_since_in_range` should tell whether `edits_since_in_range` yields anything.  Both
walk the fragments that changed after the version, but they disagree about the fragment in
which the range starts: the iterator visits it, the test does not.

* `Begins`: a fragment that begins an edit
* `Run.hasEditsSinceInRange_iff`: when the test is right
-/

namespace XorEditor.Text

open Clock Lib List

namespace Edits

variable {cx : EditsContext} {rest : List Fragment} {pending result : Option AnchoredEdit}
  {iter iter' : Edits} {edits : List AnchoredEdit} {fuel : Nat}

/-- A fragment of the range that makes the iterator begin an edit. -/
def Begins (cx : EditsContext) (f : Fragment) : Prop :=
  cx.rangeStart.fragmentId ≤ f.id ∧ f.id ≤ cx.rangeEnd.fragmentId ∧
    cx.snapshot.wasVisibleAt cx.since f ≠ f.visible

theorem exists_begins_of_nextFrom (hnext : nextFrom cx rest pending iter = some (result, iter'))
    (hresult : result ≠ none) : pending ≠ none ∨ ∃ f ∈ rest, Begins cx f := by
  have hyielded {pending iter} (hdone : some (pending, iter) = some (result, iter')) :
      pending ≠ none := (Prod.mk.inj (Option.some.inj hdone)).1 ▸ hresult
  induction rest generalizing pending iter with
  | nil => exact Or.inl (hyielded hnext)
  | cons f rest ih =>
    rw [exists_mem_cons_iff]
    simp only [nextFrom] at hnext
    split_ifs at hnext with hskip hbehind
    · exact (ih hnext).imp_right Or.inr
    · exact Or.inl (hyielded hnext)
    · obtain ⟨caught, -, hnext⟩ := do_eq_some.mp hnext
      split_ifs at hnext
      · exact Or.inl (hyielded hnext)
      · obtain ⟨⟨pending₁, iter₁⟩, hvisit, hnext⟩ := do_eq_some.mp hnext
        by_cases hsame : f.wasVisible cx.since cx.snapshot.undoMap = f.visible
        · -- The visit leaves the pending edit as it is.
          simp only [visit, hsame, Bool.not_and_self, Bool.and_not_self, Bool.false_eq_true,
            if_false, pure_eq_some] at hvisit
          obtain ⟨rfl, -⟩ := hvisit
          exact (ih hnext).imp_right Or.inr
        · rw [Bool.or_eq_true, decide_eq_true_iff, not_or] at hskip
          exact Or.inr (Or.inl ⟨not_lt.mp hskip.2, not_lt.mp hbehind, hsame⟩)

theorem exists_begins_of_collect (hcollect : collect cx fuel iter = some edits)
    (hne : edits ≠ []) : ∃ f ∈ iter.fragments, Begins cx f := by
  cases fuel with
  | zero => exact absurd (Option.some.inj hcollect).symm hne
  | succ fuel =>
    obtain ⟨⟨edit, iter'⟩, hnext, hedits⟩ := do_eq_some.mp hcollect
    cases edit with
    | none => exact absurd (Option.some.inj hedits).symm hne
    | some edit => exact (exists_begins_of_nextFrom hnext nofun).resolve_left (absurd rfl)

end Edits

section Range

variable {snapshot : BufferSnapshot} {v : Global} {rangeStart rangeEnd : Anchor}
  {startId endId : Locator} (hversion : v ≠ snapshot.version)
  (hstart : snapshot.fragmentIdForAnchor rangeStart = some startId)
  (hend : snapshot.fragmentIdForAnchor rangeEnd = some endId)

include hversion hstart hend

/-- An edit is only yielded for a fragment that changed. -/
theorem BufferSnapshot.exists_changed_of_editsSinceInRange {edits : List Edit}
    (hedits : snapshot.editsSinceInRange v rangeStart rangeEnd = some edits) (hne : edits ≠ []) :
    ∃ f ∈ snapshot.fragments, startId ≤ f.id ∧ f.id ≤ endId ∧
      snapshot.wasVisibleAt v f ≠ f.visible := by
  obtain ⟨yielded, hyielded, hmap⟩ := do_eq_some.mp hedits
  obtain rfl := Option.some.inj hmap
  replace hne := mt map_eq_nil_iff.mpr hne
  simp only [anchoredEditsSinceInRange, hversion, if_false, hstart, hend, some_do] at hyielded
  split at hyielded
  · obtain ⟨overshoot, -, hyielded⟩ := do_eq_some.mp hyielded
    split_ifs at hyielded <;> exact Edits.exists_begins_of_collect hyielded hne
  · exact Edits.exists_begins_of_collect hyielded hne

/-- The test finds the changed fragments behind the one in which the range starts. -/
theorem World.Consistent.hasEditsSinceInRange_eq_true_iff {W : World} {applied : List Operation}
    (h : W.Consistent snapshot applied) :
    snapshot.hasEditsSinceInRange v rangeStart rangeEnd = some true ↔
      ∃ f ∈ snapshot.fragments, startId < f.id ∧ f.id ≤ endId ∧
        snapshot.wasVisibleAt v f ≠ f.visible := by
  have hordered : KeyedList.Ordered Fragment.id
      (snapshot.fragments.filter fun f => f.changedAfter v) := h.indexed.ids.filter _
  have hvisited := KeyedList.mem_takeWhile_iff hordered
    (p := fun f => decide (f.id ≤ endId)) fun f _ g _ hle hf =>
      decide_eq_true (hle.trans (of_decide_eq_true hf))
  simp only [BufferSnapshot.hasEditsSinceInRange, hversion, if_false, hstart, hend, some_do,
    pure, Option.some.injEq, any_eq_true, hvisited, mem_filter, Bool.and_eq_true,
    decide_eq_true_iff, bne_iff_ne]
  refine exists_congr fun f => ⟨?_, ?_⟩
  · rintro ⟨⟨⟨hf, -⟩, hle⟩, hlt, hchanged⟩
    exact ⟨hf, hlt, hle, hchanged⟩
  · rintro ⟨hf, hlt, hle, hchanged⟩
    have hafter := Bool.of_not_eq_false (mt (h.wasVisible_eq_visible hf) hchanged)
    exact ⟨⟨⟨hf, hafter⟩, hle⟩, hlt, hchanged⟩

end Range

namespace Network

/-- When a range has an edit, the test says so exactly if the fragment in which the range
starts did not change, or another one of the range did. -/
theorem Run.hasEditsSinceInRange_iff {remoteId : Nat} {baseText : List Char} {N : Network}
    {past : List Network} (h : Run remoteId baseText (N :: past)) (i : Nat)
    {snapshot : BufferSnapshot} (hsnapshot : snapshot = (N.buffers i).snapshot) {v : Global}
    {rangeStart rangeEnd : Anchor} {startId endId : Locator} {edits : List Edit}
    (hstart : snapshot.fragmentIdForAnchor rangeStart = some startId)
    (hend : snapshot.fragmentIdForAnchor rangeEnd = some endId)
    (hedits : snapshot.editsSinceInRange v rangeStart rangeEnd = some edits)
    (hedit : ∃ edit ∈ edits, edit.oldStart ≠ edit.oldEnd ∨ edit.newStart ≠ edit.newEnd) :
    snapshot.hasEditsSinceInRange v rangeStart rangeEnd = some true ↔
      (∀ f ∈ snapshot.fragments, f.id = startId → f.wasVisible v snapshot.undoMap = f.visible) ∨
      ∃ f ∈ snapshot.fragments, startId < f.id ∧ f.id ≤ endId ∧
        f.wasVisible v snapshot.undoMap ≠ f.visible := by
  obtain ⟨W, hW⟩ := h.exists_world
  have hconsistent := hsnapshot ▸ hW.consistent N mem_cons_self i
  obtain ⟨edit, hedit, -⟩ := hedit
  have hversion : v ≠ snapshot.version := by
    intro heq
    rw [BufferSnapshot.editsSinceInRange, BufferSnapshot.anchoredEditsSinceInRange,
      if_pos heq] at hedits
    obtain rfl := Option.some.inj hedits
    exact not_mem_nil hedit
  rw [hconsistent.hasEditsSinceInRange_eq_true_iff hversion hstart hend]
  refine ⟨Or.inr, fun hcase => hcase.elim (fun hsame => ?_) id⟩
  obtain ⟨f, hf, hle, hend, hchanged⟩ :=
    BufferSnapshot.exists_changed_of_editsSinceInRange hversion hstart hend hedits
      (ne_nil_of_mem hedit)
  exact ⟨f, hf, hle.lt_of_ne fun heq => hchanged (hsame f hf heq.symm), hend, hchanged⟩

/-- The whole text, in which a byte of the base text was deleted. -/
theorem hasEditsSinceInRange_insertDeleteUndo : ∃ N past, Run 1 ['a', 'c'] (N :: past) ∧
      (N.buffers 1).snapshot.hasEditsSinceInRange (N.buffers 3).version (Anchor.minForBuffer 1)
        (Anchor.maxForBuffer 1) = some true := by
  obtain ⟨N, past, hrun, hedits, hids⟩ := exists_run_of_script 1 ['a', 'c'] (fun _ => rfl)
    insertDeleteUndo
    (fun N => (N.buffers 1).snapshot.editsSinceInRange (N.buffers 3).version
        (Anchor.minForBuffer 1) (Anchor.maxForBuffer 1) = some [⟨0, 1, 0, 0⟩] ∧
      ∀ f ∈ (N.buffers 1).snapshot.fragments, f.id ≠ Locator.min)
    ⟨_, _, rfl, by decide +kernel⟩
  refine ⟨N, past, hrun, ?_⟩
  exact (hrun.hasEditsSinceInRange_iff 1 rfl rfl rfl hedits ⟨_, mem_cons_self, by decide⟩).mpr
    (Or.inl fun f hf hid => absurd hid (hids f hf))

/-- The range of the deleted byte itself has an edit that the test does not see. -/
theorem exists_edit_not_hasEditsSinceInRange :
    ∃ N past rangeStart rangeEnd edits, Run 1 ['a', 'c'] (N :: past) ∧
      (N.buffers 1).version.observedAll (N.buffers 3).version = true ∧
      Anchor.cmp rangeStart rangeEnd (N.buffers 1).snapshot = some Ordering.lt ∧
      (N.buffers 1).snapshot.editsSinceInRange (N.buffers 3).version rangeStart rangeEnd =
        some edits ∧
      (∃ edit ∈ edits, edit.oldStart ≠ edit.oldEnd) ∧
      (N.buffers 1).snapshot.hasEditsSinceInRange (N.buffers 3).version rangeStart rangeEnd =
        some false := by
  obtain ⟨N, past, hrun, hobserved, hcmp, hedits, hhas⟩ := exists_run_of_script 1 ['a', 'c']
    (fun _ => rfl) insertDeleteUndo
    (fun N =>
      let old := (N.buffers 3).snapshot
      let new := (N.buffers 1).snapshot
      let rangeStart := old.anchorAt 0 Bias.right
      let rangeEnd := old.anchorAt 1 Bias.left
      new.version.observedAll old.version = true ∧ rangeStart.cmp rangeEnd new = some Ordering.lt ∧
        new.editsSinceInRange old.version rangeStart rangeEnd = some [⟨0, 1, 0, 0⟩] ∧
        new.hasEditsSinceInRange old.version rangeStart rangeEnd = some false)
    ⟨_, _, rfl, by decide +kernel⟩
  exact ⟨N, past, _, _, _, hrun, hobserved, hcmp, hedits, ⟨_, mem_cons_self, by decide⟩, hhas⟩

end Network

end XorEditor.Text
