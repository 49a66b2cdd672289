import XorEditor.Text.Invariants
import XorEditor.Text.Versions

/-!
# The text of a past version

`rope_for_version` copies the visible text in long stretches and stops only at fragments
that changed after the version.  Its result is the text of the bytes that were visible at
the version: a fragment it passes over is visible now exactly if it was visible then,
because `max_version` dominates every insertion, deletion and undo that touched it.

The bytes visible at a version are the same for all replicas that have observed it, so the
result is the text that any replica showed at that version.

* `visibleAt`: the bytes visible at a version
* `Run.ropeForVersion_eq_visibleText`: the result
-/

namespace XorEditor.Text

open Clock Lib List FragmentBuilder

/-- The fragments that were visible at a version. -/
abbrev BufferSnapshot.wasVisibleAt (snapshot : BufferSnapshot) (version : Global)
    (f : Fragment) : Bool :=
  f.wasVisible version snapshot.undoMap

section OldBytes

variable (byteAt : ByteId → UInt8) (was : Fragment → Bool)

/-- The text of the fragments that were visible. -/
def oldBytes (fs : List Fragment) : Rope := (fs.filter was).flatMap (Fragment.bytes byteAt)

@[simp] theorem oldBytes_nil : oldBytes byteAt was [] = [] := rfl

@[simp] theorem oldBytes_append (fs gs : List Fragment) :
    oldBytes byteAt was (fs ++ gs) = oldBytes byteAt was fs ++ oldBytes byteAt was gs := by
  simp [oldBytes]

theorem oldBytes_singleton (f : Fragment) :
    oldBytes byteAt was [f] = if was f then f.bytes byteAt else [] := by
  cases hwas : was f <;> simp [oldBytes, hwas]

theorem oldBytes_visible (fs : List Fragment) :
    oldBytes byteAt Fragment.visible fs = visibleBytes byteAt (atomsOf fs) :=
  (visibleBytes_atomsOf byteAt fs).symm

end OldBytes

section Walk

variable {byteAt : ByteId → UInt8}

variable {snapshot : BufferSnapshot} {before after : List Fragment} {f : Fragment} {offset : Nat}

/-- The position behind one more fragment. -/
theorem text_concat (before : List Fragment) (f : Fragment) :
    textDimension.addSummary (text before) f.summary = text (before ++ [f]) :=
  (Dimension.measure_concat _ _ _ _).symm

theorem text_le_concat (before : List Fragment) (f : Fragment) :
    (text before).visible ≤ (text (before ++ [f])).visible ∧ (text before).deleted ≤
        (text (before ++ [f])).deleted := by
  rw [← text_concat]
  exact ⟨Nat.le_add_right _ _, Nat.le_add_right _ _⟩

theorem visible_text_eq (byteAt : ByteId → UInt8) (fs : List Fragment) :
    (text fs).visible = (visibleBytes byteAt (atomsOf fs)).length := by
  rw [text_eq byteAt]

theorem deleted_text_eq (byteAt : ByteId → UInt8) (fs : List Fragment) :
    (text fs).deleted = (deletedBytes byteAt (atomsOf fs)).length := by
  rw [text_eq byteAt]

theorem visibleBytes_concat (before : List Fragment) (f : Fragment) :
    visibleBytes byteAt (atomsOf (before ++ [f])) =
      visibleBytes byteAt (atomsOf before) ++ if f.visible then f.bytes byteAt else [] := by
  simp [visibleBytes_atoms]

theorem visible_text_concat (hvisible : f.visible = false) :
    (text (before ++ [f])).visible = (text before).visible := by
  simp [← text_concat, textDimension, Fragment.summary, hvisible]

theorem slice_append {xs ys : Rope} (hle : offset ≤ xs.length) :
    Rope.slice (xs ++ ys) offset xs.length = some (xs.drop offset) := by
  rw [Rope.slice, if_pos ⟨hle, by simp⟩, take_left]

section TextsValid

variable (h : snapshot.TextsValid byteAt)
include h

/-- The visible text that was passed over without being copied. -/
theorem slice_visibleText (hsplit : snapshot.fragments = before ++ after)
    (hle : offset ≤ (text before).visible) :
    Rope.slice snapshot.visibleText offset (text before).visible =
      some ((visibleBytes byteAt (atomsOf before)).drop offset) := by
  rw [visible_text_eq byteAt] at hle ⊢
  rw [h.visibleText, hsplit, atomsOf_append, visibleBytes_append, slice_append hle]

theorem slice_deletedText (hsplit : snapshot.fragments = before ++ after)
    (hle : offset ≤ (text before).deleted) :
    Rope.slice snapshot.deletedText offset (text before).deleted =
      some ((deletedBytes byteAt (atomsOf before)).drop offset) := by
  rw [deleted_text_eq byteAt] at hle ⊢
  rw [h.deletedText, hsplit, atomsOf_append, deletedBytes_append, slice_append hle]

/-- The text of the current fragment, if it is visible. -/
theorem slice_visible_fragment (hsplit : snapshot.fragments = before ++ f :: after)
    (hvisible : f.visible = true) : Rope.slice snapshot.visibleText (text before).visible
      (text (before ++ [f])).visible = some (f.bytes byteAt) := by
  rw [slice_visibleText h (by rw [hsplit, append_cons]) (text_le_concat before f).1,
    visible_text_eq byteAt, visibleBytes_concat, if_pos hvisible, drop_left]

theorem slice_deleted_fragment (hsplit : snapshot.fragments = before ++ f :: after)
    (hvisible : f.visible = false) : Rope.slice snapshot.deletedText (text before).deleted
      (text (before ++ [f])).deleted = some (f.bytes byteAt) := by
  rw [slice_deletedText h (by rw [hsplit, append_cons]) (text_le_concat before f).2,
    deleted_text_eq byteAt]
  simp [deletedBytes_atoms, hvisible]

end TextsValid

end Walk

namespace RopeForVersion

variable {byteAt : ByteId → UInt8} {was : Fragment → Bool} {snapshot : BufferSnapshot}
  {before after : List Fragment} {f : Fragment} {state : RopeForVersion}

/-- The state in front of a fragment: the text so far lacks the visible text since the
last fragment that was visited. -/
structure Reading (byteAt : ByteId → UInt8) (was : Fragment → Bool) (before : List Fragment)
    (state : RopeForVersion) : Prop where
  rope : state.rope ++ (visibleBytes byteAt (atomsOf before)).drop state.visibleOffset =
    oldBytes byteAt was before
  visible_le : state.visibleOffset ≤ (text before).visible
  deleted_le : state.deletedOffset ≤ (text before).deleted

/-- A fragment whose visibility did not change may be passed over. -/
theorem Reading.skip (h : Reading byteAt was before state) (hsame : was f = f.visible) :
    Reading byteAt was (before ++ [f]) state := by
  obtain ⟨hvisible, hdeleted⟩ := text_le_concat before f
  refine ⟨?_, h.visible_le.trans hvisible, h.deleted_le.trans hdeleted⟩
  have hle : state.visibleOffset ≤ (visibleBytes byteAt (atomsOf before)).length :=
    visible_text_eq byteAt before ▸ h.visible_le
  rw [visibleBytes_concat, drop_append_of_le_length hle, ← append_assoc, h.rope,
    oldBytes_append, oldBytes_singleton, hsame]

theorem reading_of_rope {rope : Rope} {visibleOffset deletedOffset : Nat}
    (hrope : oldBytes byteAt was before = rope) (hvisible : (text before).visible = visibleOffset)
    (hdeleted : deletedOffset ≤ (text before).deleted) :
    Reading byteAt was before ⟨rope, visibleOffset, deletedOffset⟩ := by
  refine ⟨?_, hvisible.ge, hdeleted⟩
  rw [hrope, ← hvisible, visible_text_eq byteAt, drop_length, append_nil]

/-- Once caught up, the text so far is complete. -/
theorem Reading.catchUp (h : Reading byteAt was before state) (htexts : snapshot.TextsValid byteAt)
    (hsplit : snapshot.fragments = before ++ after) :
    state.catchUp snapshot.visibleText (text before).visible =
      some { state with
        rope := oldBytes byteAt was before
        visibleOffset := (text before).visible } := by
  unfold RopeForVersion.catchUp
  split
  · rw [appendVisible, slice_visibleText htexts hsplit h.visible_le]
    change some _ = some _
    rw [h.rope]
  · have hoffset : state.visibleOffset = (text before).visible := by
      have := h.visible_le
      omega
    have hrope := h.rope
    rw [hoffset, visible_text_eq byteAt, drop_length, append_nil] at hrope
    rw [← hrope, ← hoffset]
    rfl

/-- A visited fragment contributes its text if it was visible. -/
theorem Reading.visit {version : Global}
    (h : Reading byteAt (snapshot.wasVisibleAt version) before state)
    (htexts : snapshot.TextsValid byteAt) (hsplit : snapshot.fragments = before ++ f :: after) :
    ∃ state', state.visit snapshot version f (text before)
        (text (before ++ [f])) = some state' ∧
      Reading byteAt (snapshot.wasVisibleAt version) (before ++ [f]) state' := by
  have hdeleted := h.deleted_le.trans (text_le_concat before f).2
  have hold := oldBytes_append byteAt (snapshot.wasVisibleAt version) before [f]
  rw [oldBytes_singleton] at hold
  simp only [RopeForVersion.visit, h.catchUp htexts hsplit, some_do]
  cases hwas : f.wasVisible version snapshot.undoMap with
  | true =>
    rw [if_pos hwas] at hold
    cases hvisible : f.visible with
    | true =>
      refine ⟨⟨_, _, _⟩, ?_, reading_of_rope hold rfl hdeleted⟩
      rw [if_pos rfl, if_pos rfl, appendVisible, slice_visible_fragment htexts hsplit hvisible]
      rfl
    | false =>
      refine ⟨⟨_, _, _⟩, ?_, reading_of_rope hold (visible_text_concat hvisible) le_rfl⟩
      rw [if_pos rfl, if_neg (by simp), appendDeleted]
      simp only [slice_deletedText htexts hsplit h.deleted_le,
        slice_deleted_fragment htexts hsplit hvisible]
      rfl
  | false =>
    rw [if_neg (by simp [hwas]), append_nil] at hold
    cases hvisible : f.visible with
    | true =>
      refine ⟨⟨_, _, _⟩, ?_, reading_of_rope hold rfl hdeleted⟩
      rw [if_neg (by simp), if_pos rfl, slice_visible_fragment htexts hsplit hvisible]
      rfl
    | false =>
      refine ⟨⟨_, _, _⟩, ?_, reading_of_rope hold (visible_text_concat hvisible) hdeleted⟩
      rw [if_neg (by simp), if_neg (by simp)]
      rfl

end RopeForVersion

/-- `rope_for_version` copies the fragments that were visible, provided that the ones it
passes over did not change their visibility. -/
theorem ropeForVersionFrom_spec {byteAt : ByteId → UInt8} {snapshot : BufferSnapshot}
    {version : Global} (htexts : snapshot.TextsValid byteAt)
    (hsame : ∀ f ∈ snapshot.fragments, f.changedAfter version = false →
      f.wasVisible version snapshot.undoMap = f.visible)
    {before rest : List Fragment} (hsplit : snapshot.fragments = before ++ rest)
    {state : RopeForVersion} (h : RopeForVersion.Reading byteAt (snapshot.wasVisibleAt version)
      before state) : ropeForVersionFrom snapshot version rest (text before) state =
      some (oldBytes byteAt (snapshot.wasVisibleAt version) snapshot.fragments) := by
  induction rest generalizing before state with
  | nil =>
    rw [append_nil] at hsplit
    rw [ropeForVersionFrom, h.catchUp htexts (by rw [hsplit, append_nil]), hsplit]
    rfl
  | cons f rest ih =>
    have hsplit' : snapshot.fragments = (before ++ [f]) ++ rest := by simp [hsplit]
    simp only [ropeForVersionFrom, text_concat]
    split
    · obtain ⟨state', hvisit, hstate'⟩ := h.visit htexts hsplit
      rw [hvisit]
      exact ih hsplit' hstate'
    · rename_i hchanged
      exact ih hsplit' (h.skip (hsame f (by simp [hsplit]) (by simpa using hchanged)))

namespace World

variable {W : World} {snapshot snapshot' : BufferSnapshot} {applied applied' : List Operation}
  {v : Global}

/-- The bytes visible at a version. -/
noncomputable def visibleAt (W : World) (v : Global) : List ByteId :=
  open Classical in W.sequence.filter fun byte => decide (W.VisibleAt v byte)

namespace Consistent

variable {f : Fragment}

/-- The text of the fragments that were visible at a version the snapshot has observed. -/
theorem oldBytes_eq (hW : W.Valid) (h : W.Consistent snapshot applied)
    (hv : snapshot.version.observedAll v = true) :
    oldBytes W.byteAt (snapshot.wasVisibleAt v) snapshot.fragments =
      (W.visibleAt v).map W.byteAt := by
  classical
  have hids : W.visibleAt v = (W.observedBytes snapshot.version).filter
      fun byte => decide (W.VisibleAt v byte) := by
    rw [visibleAt, observedBytes, filter_filter]
    refine filter_congr fun byte _ => ?_
    rw [Bool.eq_iff_iff, Bool.and_eq_true, decide_eq_true_iff]
    exact ⟨fun hvisible => ⟨hvisible, observed_of_observedAll hv hvisible.observed⟩, And.left⟩
  have hatoms : ∀ f ∈ snapshot.fragments, ∀ i < f.len,
      decide (W.VisibleAt v (f.atomAt i).id) = snapshot.wasVisibleAt v f := by
    intro f hf i hi
    rw [Bool.eq_iff_iff, decide_eq_true_iff, ← h.wasVisible_iff (atomAt_mem_atomsOf hf hi) hW hv]
    rfl
  rw [hids, ← h.ids, filter_map, Function.comp_def, filter_atomsOf hatoms, map_map, atomsOf,
    map_flatMap]
  rfl

/-- The current text of a snapshot. -/
theorem visibleText_eq (hW : W.Valid) (h : W.Consistent snapshot applied) :
    snapshot.visibleText = (W.visibleAt snapshot.version).map W.byteAt := by
  rw [← h.oldBytes_eq hW (Global.observedAll_self _), h.texts.visibleText, ← oldBytes_visible]
  unfold oldBytes
  congr 1
  refine filter_congr fun f hf => ?_
  exact h.visible_eq_wasVisible (atomAt_mem_atomsOf hf (h.indexed.valid f hf).len_pos)

/-- What `max_version` observes: the insertion, the deletions and the undos. -/
theorem observed_of_not_changedAfter (hchanged : f.changedAfter v = false) :
    v.observed f.timestamp = true ∧ (∀ d ∈ f.deletions, v.observed d = true) ∧
      v.observedAll f.maxUndos = true := by
  have hall : v.observedAll f.summary.maxVersion = true := by
    simpa [Fragment.changedAfter] using hchanged
  simp only [Fragment.summary, Global.observedAll_join_iff, Global.observedAll_foldl_observe_iff,
    Global.observedAll_observe_iff] at hall
  exact ⟨hall.1.1.2, hall.1.2, hall.2⟩

/-- A fragment that did not change after a version is visible exactly if it was. -/
theorem wasVisible_eq_visible (h : W.Consistent snapshot applied) (hf : f ∈ snapshot.fragments)
    (hchanged : f.changedAfter v = false) : f.wasVisible v snapshot.undoMap = f.visible := by
  have ha : f.atomAt 0 ∈ atomsOf snapshot.fragments :=
    atomAt_mem_atomsOf hf (h.indexed.valid f hf).len_pos
  obtain ⟨hinserted, hdeleted, hundos⟩ := observed_of_not_changedAfter hchanged
  -- Every undo of an edit that touched the fragment is observed by the version.
  have hundone : ∀ editId, (f.atomAt 0).TouchedBy editId →
      snapshot.undoMap.wasUndone editId v = snapshot.undoMap.isUndone editId := by
    intro editId htouched
    have hall : (snapshot.undoMap.entriesOf editId).filter
        (fun entry => v.observed entry.undoId) = snapshot.undoMap.entriesOf editId := by
      refine filter_eq_self.mpr fun entry hentry => ?_
      obtain ⟨hmem, rfl⟩ := (UndoMap.mem_entriesOf h.undo_ordered editId entry).mp hentry
      obtain ⟨undo, hundo, htimestamp, hcount⟩ := (h.mem_undoMap entry).mp hmem
      rw [← htimestamp]
      exact observed_of_observedAll hundos
        (h.maxUndos _ ha undo hundo _ (mem_map_of_mem hcount) htouched)
    rw [UndoMap.wasUndone_eq, UndoMap.isUndone_eq, UndoMap.countsAt, hall]
  have hvisible : f.visible = f.isVisible snapshot.undoMap := h.visible _ ha
  rw [hvisible, Fragment.wasVisible, Fragment.isVisible, hinserted, Bool.true_and,
    hundone f.timestamp (Or.inl rfl)]
  congr 1
  rw [Bool.eq_iff_iff, all_eq_true, all_eq_true]
  refine forall₂_congr fun d hd => ?_
  rw [hdeleted d hd, hundone d (Or.inr hd), Bool.not_true, Bool.false_or]

/-- `rope_for_version` returns the text of the bytes visible at the version. -/
theorem ropeForVersion_eq (hW : W.Valid) (h : W.Consistent snapshot applied)
    (hv : snapshot.version.observedAll v = true) :
    snapshot.ropeForVersion v = some ((W.visibleAt v).map W.byteAt) := by
  rw [← h.oldBytes_eq hW hv]
  exact ropeForVersionFrom_spec h.texts (fun f hf => h.wasVisible_eq_visible hf)
    (nil_append _).symm ⟨rfl, Nat.le_refl _, Nat.le_refl _⟩

end Consistent

end World

namespace Network

variable {remoteId : Nat} {baseText : List Char} {N : Network} {past : List Network}

/-- Time travel is exact: the text rebuilt for a version that some replica had is the text
which that replica had. -/
theorem Run.ropeForVersion_eq_visibleText (h : Run remoteId baseText (N :: past))
    {now earlier : Network} (hnow : now ∈ N :: past) (hearlier : earlier ∈ N :: past) (i j : Nat)
    (hobserved : (now.buffers i).version.observedAll (earlier.buffers j).version = true) :
    (now.buffers i).snapshot.ropeForVersion (earlier.buffers j).version =
      some (earlier.buffers j).snapshot.visibleText := by
  obtain ⟨W, hW⟩ := h.exists_world
  have hi := hW.consistent now hnow i
  have hj := hW.consistent earlier hearlier j
  rw [hj.visibleText_eq hW.valid]
  exact hi.ropeForVersion_eq hW.valid hobserved

/-- The text of a replica that has received nothing, rebuilt by one that has received
everything. -/
theorem ropeForVersion_insertDeleteUndo : ∃ N past, Run 1 ['a', 'c'] (N :: past) ∧
      (N.buffers 1).snapshot.visibleText ≠ (N.buffers 3).snapshot.visibleText ∧
      (N.buffers 1).snapshot.ropeForVersion (N.buffers 3).version =
        some (N.buffers 3).snapshot.visibleText := by
  obtain ⟨N, past, hrun, hne, hobserved⟩ := exists_run_of_script 1 ['a', 'c'] (fun _ => rfl)
    insertDeleteUndo
    (fun N => (N.buffers 1).snapshot.visibleText ≠ (N.buffers 3).snapshot.visibleText ∧
      (N.buffers 1).version.observedAll (N.buffers 3).version = true)
    ⟨_, _, rfl, by decide +kernel⟩
  exact ⟨N, past, hrun, hne, hrun.ropeForVersion_eq_visibleText mem_cons_self
    mem_cons_self 1 3 hobserved⟩

end Network

end XorEditor.Text
