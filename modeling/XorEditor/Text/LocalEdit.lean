import XorEditor.Text.RemoteEdit

/-!
# Local edits, byte by byte

`apply_edit_internal` takes ranges of the visible text and records, for the operation it
produces, the corresponding ranges of all bytes, deleted ones included.  Its effect on the
fragments is the edit by these recorded ranges: everything in front of a range is kept,
the new text is inserted, and the visible bytes of the range are deleted.  This is what a
remote replica does with the operation at the version it was made at.

* `visibleRanges`: the ranges recorded
* `applyEditInternal_spec`: the effect
-/

namespace XorEditor.Text

open Clock Lib RangeEdit EditState List FragmentBuilder

/-- A local edit deletes the visible bytes of its ranges. -/
def Atom.deleteVisible (timestamp : Lamport) (a : Atom) : Atom :=
  if a.visible then a.delete timestamp else a

section Measure

theorem visible_atomAt (f : Fragment) (i : Nat) : (f.atomAt i).visible = f.visible := rfl

theorem text_visible (fs : List Fragment) : (text fs).visible = countedSum Fragment.visible fs := by
  induction fs using List.reverseRecOn with
  | nil => rfl
  | append_singleton fs f ih =>
    simp only [text] at ih ⊢
    rw [Dimension.measure_concat, countedSum_append, countedSum_cons, countedSum_nil, ← ih,
      ← summary_visible]
    rfl

theorem text_sum (fs : List Fragment) : (text fs).visible + (text fs).deleted =
      (atomsOf fs).length := by
  induction fs using List.reverseRecOn with
  | nil => rfl
  | append_singleton fs f ih =>
    simp only [text] at ih ⊢
    rw [Dimension.measure_concat]
    simp only [textDimension, Fragment.summary, atomsOf_append, atomsOf_cons, atomsOf_nil,
      append_nil, length_append, Fragment.length_atoms] at ih ⊢
    split <;> simp only <;> omega

theorem stepsOverVisible_iff (target : Nat) (fs : List Fragment) :
    stepsOverVisible target (textDimension.measure Fragment.summary fs) = true ↔
      countedSum Fragment.visible fs ≤ target := by
  rw [← text_visible]
  exact (Bool.eq_iff_iff.mp (passes_right_compare target _)).trans decide_eq_true_iff

variable {state : EditState}

theorem textStart_visible : state.textStart.visible = state.countedStart Fragment.visible :=
  text_visible _

theorem textEnd_visible : state.textEnd.visible = state.countedEnd Fragment.visible := by
  rw [EditState.textEnd]
  cases hrest : state.oldFragments.rest with
  | nil =>
    rw [ListCursor.endPosition, hrest, countedEnd_of_nil hrest]
    exact text_visible _
  | cons item rest =>
    rw [ListCursor.endPosition_of_rest _ _ hrest, ListCursor.start,
      ← Dimension.measure_concat, countedEnd_of_cons _ hrest]
    exact (text_visible _).trans (by simp [EditState.countedStart])

end Measure

/-- The position of a local edit.  All new locators lie in front of the current fragment,
even when it is consumed to its end. -/
structure EditState.LocalAt (state : EditState) (consumed : Nat) : Prop
    extends state.CountedAt Fragment.visible consumed where
  below : ∀ f ∈ state.newFragments, f.id < state.nextFragmentId

/-- The number of bytes, visible or not, that are consumed. -/
def EditState.fullPosition (state : EditState) (consumed : Nat) : Nat :=
  (atomsOf state.oldFragments.before).length + consumed

section Blocks

variable {byteAt : ByteId → UInt8} {old : List Fragment} {timestamp : Lamport} {state : EditState}
  {consumed : Nat}

theorem fullPosition_add_pending (h : Good byteAt old timestamp state consumed) :
    state.fullPosition consumed + (atomsOf (state.pending consumed)).length =
      (atomsOf old).length := by
  -- The full position counts every byte.
  have hcount := @countP_atomsOf (fun _ => true) (fun _ => true) fun _ _ => rfl
  have hpending := @counted_pending (fun _ => true) (fun _ => true) _ _ _ _ _ (fun _ _ => rfl) h
    fun _ _ _ _ => rfl
  rwa [EditState.countedStart, ← hcount, ← hcount, countP_true] at hpending

variable {state' : EditState} {item piece : Fragment} {rest : List Fragment}
  {rangeStart rangeEnd : Nat} {acc acc' : LocalEditState}

/-- A block moves the full position by the bytes it takes. -/
theorem EditState.EditStep.fullPosition_eq {consumed' inserted : Nat} {taken pushed : List Atom}
    (h : Good byteAt old timestamp state consumed)
    (hstep : EditStep byteAt old timestamp state consumed state' consumed' taken pushed inserted) :
    state'.fullPosition consumed' = state.fullPosition consumed + taken.length := by
  have hbefore := fullPosition_add_pending h
  have hafter := fullPosition_add_pending hstep.good
  rw [hstep.taken, length_append] at hbefore
  omega

/-- The full position is the visible position and the deleted length in front of it. -/
theorem fullPosition_eq_start (hat : state.LocalAt consumed) :
    state.fullPosition consumed = state.fragmentStart + state.textStart.deleted := by
  have hsum := text_sum state.oldFragments.before
  have hvisible : (text state.oldFragments.before).visible =
      state.countedStart Fragment.visible := textStart_visible
  have hstart := hat.start
  have hdeleted : state.textStart.deleted = (text state.oldFragments.before).deleted := rfl
  rw [EditState.fullPosition]
  omega

/-- A position at the start of a fragment. -/
theorem EditState.LocalAt.of_start (h : Good byteAt old timestamp state 0)
    (hstart : state.fragmentStart = state.countedStart Fragment.visible) : state.LocalAt 0 :=
  ⟨.of_start hstart, h.lt_nextFragmentId fun item rest hrest =>
    (h.rest_valid item (by simp [hrest])).len_pos⟩

section Steps

variable (h : Good byteAt old timestamp state consumed) (hat : state.LocalAt consumed)
include h hat

/-- Jumping ahead to the fragment that extends past the start of the range. -/
theorem seekLocalRange_step (hrange : state.fragmentStart ≤ rangeStart)
    (hroom : rangeStart ≤ countedSum Fragment.visible old) :
    ∃ state' consumed' moved, seekLocalRange state rangeStart = some state' ∧
      EditStep byteAt old timestamp state consumed state' consumed' moved moved 0 ∧
      state'.LocalAt consumed' ∧ state'.fragmentStart ≤ rangeStart ∧
      rangeStart ≤ state'.countedEnd Fragment.visible := by
  simp only [seekLocalRange, textStart_visible, textEnd_visible, Option.bind_eq_bind]
  split
  next hlt =>
    obtain ⟨state', moved, hseek, hstep, -, hle, hend⟩ := seek_step
      (· ≤ rangeStart) (stepsOverVisible_iff rangeStart) visible_atomAt (fun _ => id)
      (fun _ hn => Nat.le_of_lt (Nat.lt_of_not_le hn)) h hat.toCountedAt (Nat.le_of_lt hlt)
      hrange hroom
    refine ⟨_, 0, moved, ?_, hstep, .of_start hstep.good rfl, hle, hend⟩
    rw [← Option.bind_assoc, hseek]
    rfl
  next hge => exact ⟨state, consumed, [], rfl, EditStep.refl h, hat, hrange, Nat.le_of_not_lt hge⟩

/-- Inserting the new text.  The text fits, since the insertion succeeded. -/
theorem insertLocalText_step {newText : List Char} (hoffset : state.insertionOffset < 2 ^ 32)
    (hbytes : BytesMatch byteAt timestamp state.insertionOffset (utf8 newText))
    (hsome : insertLocalText state newText timestamp = some state') :
    EditStep byteAt old timestamp state consumed state' consumed []
        (insertedAtoms timestamp state.insertionOffset (utf8 newText).length)
        (utf8 newText).length ∧
      state'.LocalAt consumed ∧ state'.fragmentStart = state.fragmentStart ∧
      state'.insertionOffset < 2 ^ 32 := by
  simp only [insertLocalText] at hsome
  split at hsome
  · rename_i hempty
    obtain rfl : state = state' := by simpa using hsome
    rw [isEmpty_iff.mp hempty]
    exact ⟨EditStep.refl h, hat, rfl, hoffset⟩
  · rw [do_eq_some] at hsome
    obtain ⟨state₁, hpush, hresult⟩ := hsome
    obtain rfl := Option.some.inj hresult
    have hlen : state.insertionOffset + (utf8 newText).length < 2 ^ 32 := by
      simp only [EditState.pushFragmentsForInsertion, do_eq_some] at hpush
      obtain ⟨state₂, hfold, -⟩ := hpush
      obtain ⟨heq, hlt⟩ := insertionOffset_of_foldlM hfold hoffset
      rw [sum_insertionChunkLens] at heq
      omega
    obtain ⟨state₂, hpush₂, hstep, hold, hstart, hbelow⟩ := insertion_step h hat.below hlen hbytes
    obtain rfl : state₁ = state₂ := Option.some.inj (hpush.symm.trans hpush₂)
    refine ⟨hstep.congr _ _, ⟨hat.toCountedAt.congr hold hstart, hbelow⟩, hstart, ?_⟩
    have hinserted : state₁.insertionOffset = _ := hstep.insertionOffset
    change state₁.insertionOffset < 2 ^ 32
    omega

/-- The piece of the current fragment that a range covers, and the slice it records. -/
theorem deletes_visible (hrest : state.oldFragments.rest = item :: rest)
    (hlt : state.fragmentStart < rangeEnd) (hconsumed : consumed < item.len) :
    Deletes Fragment.visible timestamp state consumed rangeEnd (Atom.deleteVisible timestamp) item
      (deleteVisibleFragment timestamp rangeEnd item state) := by
  simp only [deleteVisibleFragment, textStart_visible, textEnd_visible, visibleIntersection,
    Option.bind_eq_bind]
  cases hvisible : item.visible with
  | true =>
    obtain ⟨htaken, hstop⟩ := Taken.new
      { item with
        len := _
        insertionOffset := _
        id := Locator.between (maxId state.newFragments) item.id
        deletions := item.deletions ++ [timestamp]
        visible := false }
      (Atom.deleteVisible timestamp) h hat.toCountedAt hrest hlt hconsumed hvisible
      rfl rfl rfl rfl (PushSlices.deleted rfl) fun i => (if_pos hvisible).symm
    simp only [if_true, if_pos htaken.front.len_pos, fromFragment_eq _ hstop, Deletes, hvisible]
    exact ⟨_, _, _, htaken, Option.map_eq_bind.symm⟩
  | false =>
    refine ⟨item, [], state.editsPatch, .whole h hat.toCountedAt hrest hlt hconsumed hvisible
      fun i => (if_neg (by simp [Fragment.atomAt, hvisible])).symm, ?_⟩
    simp only [Bool.false_eq_true, if_false, hvisible, if_pos (Nat.zero_lt_of_lt hconsumed)]
    exact Option.map_eq_bind.symm

/-- The deletion of one fragment. -/
theorem deleteVisibleFragment_step (hrest : state.oldFragments.rest = item :: rest)
    (hlt : state.fragmentStart < rangeEnd) :
    ∃ state' consumed' deleted, deleteVisibleFragment timestamp rangeEnd item state = some state' ∧
      EditStep byteAt old timestamp state consumed state' consumed' deleted
        (deleted.map (Atom.deleteVisible timestamp)) 0 ∧
      state'.LocalAt consumed' ∧
      state'.fragmentStart = min rangeEnd (state.countedEnd Fragment.visible) ∧
      (state.countedEnd Fragment.visible ≤ rangeEnd → state'.oldFragments.rest = rest) := by
  rcases Nat.lt_or_ge consumed item.len with hconsumed | hge
  · obtain ⟨state', consumed', taken, hdelete, hstep, hat', hlen, hstart, hnext⟩ :=
      deletePiece_step h hat.toCountedAt hrest hlt hconsumed
        (deletes_visible h hat hrest hlt hconsumed)
    exact ⟨state', consumed', _, hdelete, hstep, ⟨hat', hstep.good.lt_nextFragmentId hlen⟩, hstart,
      hnext⟩
  · -- The fragment was consumed to its end, so only the cursor moves.
    have hlen : consumed = item.len := by
      have := h.consumed_le item rest hrest
      omega
    have hpos : 0 < consumed := by
      have := (h.rest_valid item (by simp [hrest])).len_pos
      omega
    have hvisible := hat.counted hpos item rest hrest
    have hend := hat.end_eq hrest hpos
    have hstart := hat.start
    have hstep := (EditStep.refl h).next hrest hlen
    refine ⟨{ state with oldFragments := state.oldFragments.next }, 0, [], ?_, hstep,
      .of_start hstep.good ?_, ?_, fun _ => by rw [ListCursor.next_of_rest hrest]⟩
    · have hempty : ¬ 0 < (visibleIntersection timestamp state.textStart.visible
          (min rangeEnd state.textEnd.visible) item state).len := by
        rw [visibleIntersection, if_pos hvisible, textEnd_visible]
        change ¬ 0 < min rangeEnd (state.countedEnd Fragment.visible) - state.fragmentStart
        omega
      have hcovered : state.textEnd.visible ≤ rangeEnd := by
        rw [textEnd_visible]
        omega
      simp only [deleteVisibleFragment, if_neg hempty, if_pos hcovered]
      rfl
    · rw [countedStart_next _ rfl hrest, countedLen_of_counts hvisible, ← hlen]
      exact hstart
    · change state.fragmentStart = _
      omega

/-- The loop that deletes the visible bytes of a range. -/
theorem deleteVisible_step (rest : List Fragment) (hrest : state.oldFragments.rest = rest)
    (hrange : state.fragmentStart ≤ rangeEnd) (hroom : rangeEnd ≤ countedSum Fragment.visible old) :
    ∃ state' consumed' deleted, deleteVisible timestamp rangeEnd rest state = some state' ∧
      EditStep byteAt old timestamp state consumed state' consumed' deleted
        (deleted.map (Atom.deleteVisible timestamp)) 0 ∧
      state'.LocalAt consumed' ∧ state'.fragmentStart = rangeEnd := by
  induction rest generalizing state consumed with
  | nil =>
    have hstart := hat.start
    have hconsumed := h.consumed_end hrest
    have htotal := countedStart_add_rest Fragment.visible h
    rw [hrest, countedSum_nil] at htotal
    have heq : state.fragmentStart = rangeEnd := by omega
    refine ⟨state, consumed, [], ?_, EditStep.refl h, hat, heq⟩
    simp [deleteVisible, heq]
  | cons item rest ih =>
    simp only [deleteVisible]
    split
    · rename_i hlt
      obtain ⟨state₁, consumed₁, deleted₁, hdelete, hstep₁, hat₁, hmin, hnext⟩ :=
        deleteVisibleFragment_step h hat hrest hlt
      simp only [Option.bind_eq_bind, hdelete, Option.bind_some, textEnd_visible]
      split
      · rename_i hle
        obtain ⟨state₂, consumed₂, deleted₂, hloop, hstep₂, hat₂, hstart₂⟩ :=
          ih hstep₁.good hat₁ (hnext hle) (by omega)
        refine ⟨state₂, consumed₂, deleted₁ ++ deleted₂, hloop, ?_, hat₂, hstart₂⟩
        rw [map_append]
        exact hstep₁.trans hstep₂
      · exact ⟨state₁, consumed₁, deleted₁, rfl, hstep₁, hat₁, by omega⟩
    · exact ⟨state, consumed, [], rfl, EditStep.refl h, hat, by omega⟩

end Steps

/-- One range of a local edit, and the full range it records. -/
theorem applyLocalRange_step {range : Range} {text : List Char}
    (h : Good byteAt old timestamp acc.state consumed) (hat : acc.state.LocalAt consumed)
    (hstart : acc.state.fragmentStart ≤ range.start) (hstop : range.start ≤ range.stop)
    (hroom : range.stop ≤ countedSum Fragment.visible old)
    (hoffset : acc.state.insertionOffset < 2 ^ 32)
    (hbytes : BytesMatch byteAt timestamp acc.state.insertionOffset
      (utf8 (LineEnding.normalize text)))
    (hsome : applyLocalRange timestamp acc (range, text) = some acc') : ∃ consumed' front deleted,
      EditStep byteAt old timestamp acc.state consumed acc'.state consumed' (front ++ deleted)
        (front ++ insertedAtoms timestamp acc.state.insertionOffset
            (utf8 (LineEnding.normalize text)).length ++
          deleted.map (Atom.deleteVisible timestamp))
        (utf8 (LineEnding.normalize text)).length ∧
      acc'.state.LocalAt consumed' ∧ acc'.state.fragmentStart = range.stop ∧
      acc'.state.insertionOffset < 2 ^ 32 ∧
      acc'.ranges = acc.ranges ++
        [{ start := acc.state.fullPosition consumed + front.length
           stop := acc.state.fullPosition consumed + front.length + deleted.length }] ∧
      acc'.newText = acc.newText ++ [LineEnding.normalize text] := by
  obtain ⟨state₁, consumed₁, moved₁, hseek, hstep₁, hat₁, hstart₁, hend₁⟩ :=
    seekLocalRange_step h hat hstart (Nat.le_trans hstop hroom)
  obtain ⟨state₂, moved₂, hprefix, hstep₂, hcounted₂, hstart₂, hold₂, -, -, hbelow₂⟩ :=
    pushPrefix_at visible_atomAt hstep₁.good hat₁.toCountedAt hstart₁ hend₁
  rw [← textStart_visible] at hprefix
  have hat₂ : state₂.LocalAt _ := ⟨hcounted₂, hbelow₂ hat₁.below⟩
  simp only [applyLocalRange, hseek, hprefix, Option.bind_eq_bind, Option.bind_some,
    Option.bind_eq_some_iff] at hsome
  obtain ⟨state₃, hinsert, state₄, hdelete, hresult⟩ := hsome
  have hoffset₂ : state₂.insertionOffset = acc.state.insertionOffset :=
    (hstep₁.trans hstep₂).insertionOffset
  obtain ⟨hstep₃, hat₃, hstart₃, hoffset₃⟩ := insertLocalText_step hstep₂.good hat₂
    (hoffset₂ ▸ hoffset) (hoffset₂ ▸ hbytes) hinsert
  obtain ⟨state₄', consumed₄, deleted, hdelete', hstep₄, hat₄, hstart₄⟩ :=
    deleteVisible_step hstep₃.good hat₃ state₃.oldFragments.rest rfl (by omega) hroom
  obtain rfl : state₄ = state₄' := Option.some.inj (hdelete.symm.trans hdelete')
  obtain rfl := Option.some.inj hresult
  rw [hoffset₂] at hstep₃
  have hfront := hstep₁.trans hstep₂
  have hstep := (hfront.trans hstep₃).trans hstep₄
  refine ⟨consumed₄, moved₁ ++ moved₂, deleted, ?_, hat₄, hstart₄, ?_, ?_, rfl⟩
  · simpa [append_assoc] using hstep
  · rw [hstep₄.insertionOffset]
    exact hoffset₃
  · -- The recorded bounds are the full positions in front of and behind the range.
    have hposition₂ := hfront.fullPosition_eq h
    have hposition₄ := (hstep₃.trans hstep₄).fullPosition_eq hstep₂.good
    have hfull₂ := fullPosition_eq_start hat₂
    have hfull₄ := fullPosition_eq_start hat₄
    have hdeleted₂ : state₂.textStart.deleted = state₁.textStart.deleted := by
      rw [EditState.textStart, EditState.textStart, hold₂]
    rw [nil_append] at hposition₄
    have hfirst : range.start + state₁.textStart.deleted =
        acc.state.fullPosition consumed + (moved₁ ++ moved₂).length := by omega
    have hlast : range.stop + state₄.textStart.deleted =
        acc.state.fullPosition consumed + (moved₁ ++ moved₂).length + deleted.length := by
      omega
    simp only [hfirst, hlast]

variable (edits : List (Range × List Char))

/-- The ranges of a local edit, as ranges of the visible text. -/
def visibleRanges : List (RangeInsert Atom) :=
  edits.map fun edit => { start := edit.1.start, stop := edit.1.stop, inserted := [] }

/-- The texts of a local edit, as they are inserted. -/
def normalizedTexts : List (List Char) :=
  edits.map fun edit => LineEnding.normalize edit.2

theorem endsCounted_true (list : List Atom) : EndsCounted (fun _ => true) list := by
  rcases eq_nil_or_concat list with h | ⟨init, a, h⟩
  · exact Or.inl h
  · exact Or.inr ⟨init, a, by rw [h, concat_eq_append], rfl⟩

/-- All ranges of a local edit. -/
theorem foldlM_applyLocalRange (h : Good byteAt old timestamp acc.state consumed)
    (hat : acc.state.LocalAt consumed)
    (hranges : Ranges (countedSum Fragment.visible old) (visibleRanges edits)
      acc.state.fragmentStart)
    (hoffset : acc.state.insertionOffset < 2 ^ 32)
    (hbytes : BytesMatch byteAt timestamp acc.state.insertionOffset
      ((normalizedTexts edits).flatMap utf8))
    (hsome : edits.foldlM (applyLocalRange timestamp) acc = some acc') : ∃ consumed' ranges,
      Good byteAt old timestamp acc'.state consumed' ∧ acc'.state.LocalAt consumed' ∧
      acc'.ranges = acc.ranges ++ ranges ∧ acc'.newText = acc.newText ++ normalizedTexts edits ∧
      ranges.length = edits.length ∧
      acc.state.insertionOffset + insertedLen (ranges.zip (normalizedTexts edits)) < 2 ^ 32 ∧
      Ranges (atomsOf old).length
        (rangeInserts timestamp acc.state.insertionOffset (ranges.zip (normalizedTexts edits)))
        (acc.state.fullPosition consumed) ∧
      atomsOf acc'.state.newFragments ++ atomsOf (acc'.state.pending consumed') =
        atomsOf acc.state.newFragments ++
          editRanges (fun _ => true) (fun _ => false) (Atom.deleteVisible timestamp)
            (rangeInserts timestamp acc.state.insertionOffset (ranges.zip (normalizedTexts edits)))
            (acc.state.fullPosition consumed) (atomsOf (acc.state.pending consumed)) := by
  induction edits generalizing acc consumed with
  | nil =>
    obtain rfl : acc = acc' := by simpa using hsome
    have hposition := fullPosition_add_pending h
    refine ⟨consumed, [], h, hat, by simp, by simp [normalizedTexts], rfl,
      by simpa [insertedLen] using hoffset, ?_, by simp [rangeInserts, editRanges]⟩
    change acc.state.fullPosition consumed ≤ (atomsOf old).length
    omega
  | cons edit edits ih =>
    obtain ⟨range, text⟩ := edit
    obtain ⟨hstart, hstop, hrest⟩ := hranges
    rw [foldlM_cons, do_eq_some] at hsome
    obtain ⟨acc₁, happly, hfold⟩ := hsome
    have htexts : normalizedTexts ((range, text) :: edits) =
        LineEnding.normalize text :: normalizedTexts edits := rfl
    rw [htexts, flatMap_cons] at hbytes
    obtain ⟨consumed₁, front, deleted, hstep, hat₁, hstart₁, hoffset₁, hranges₁, htext₁⟩ :=
      applyLocalRange_step h hat hstart hstop hrest.pos_le hoffset hbytes.of_append.1 happly
    have hinsertion := hstep.insertionOffset
    have hposition := hstep.fullPosition_eq h
    rw [length_append] at hposition
    obtain ⟨consumed₂, ranges, hgood₂, hat₂, hranges₂, htext₂, hlength, hlen, hfull, hatoms⟩ :=
      ih hstep.good hat₁ (hstart₁ ▸ hrest) hoffset₁
        (by rw [hinsertion]; exact hbytes.of_append.2) hfold
    rw [hinsertion] at hlen hfull hatoms
    refine ⟨consumed₂, { start := acc.state.fullPosition consumed + front.length
                         stop := acc.state.fullPosition consumed + front.length +
                          deleted.length } :: ranges, hgood₂, hat₂, ?_, ?_, ?_, ?_, ?_, ?_⟩
    · rw [hranges₂, hranges₁]
      simp
    · rw [htext₂, htext₁, htexts]
      simp
    · simp [hlength]
    · rw [htexts, zip_cons_cons]
      simp only [insertedLen, map_cons, sum_cons] at hlen ⊢
      omega
    · rw [htexts, zip_cons_cons, rangeInserts]
      refine ⟨Nat.le_add_right _ _, Nat.le_add_right _ _, ?_⟩
      simp only
      rwa [Nat.add_assoc, ← hposition]
    · have hseg : Segments (fun _ => true) (fun _ => false)
          { start := acc.state.fullPosition consumed + front.length
            stop := acc.state.fullPosition consumed + front.length + deleted.length
            inserted := insertedAtoms timestamp acc.state.insertionOffset
              (utf8 (LineEnding.normalize text)).length }
          (acc.state.fullPosition consumed) front [] deleted
          (atomsOf (acc₁.state.pending consumed₁)) := by
        refine ⟨by simp, endsCounted_true front, by simp, fun _ _ _ => rfl, by simp,
          endsCounted_true deleted⟩
      have hcons := fun edits => editRanges_cons (Atom.deleteVisible timestamp) edits hseg
      rw [hatoms, hstep.pushed, hstep.taken, htexts, zip_cons_cons, rangeInserts]
      rw [← Nat.add_assoc] at hposition
      simp only [append_assoc, nil_append, hposition] at hcons ⊢
      rw [hcons]

/-- A local edit edits the fragments by the full ranges it records in its operation. -/
theorem applyEditInternal_spec {snapshot snapshot' : BufferSnapshot}
    {edits : List (Range × List Char)} {editOp : EditOperation} {patch : Patch}
    (h : snapshot.TextsValid byteAt)
    (hranges : Ranges (countedSum Fragment.visible snapshot.fragments) (visibleRanges edits) 0)
    (hbytes : BytesMatch byteAt timestamp 0 ((normalizedTexts edits).flatMap utf8))
    (hsome : snapshot.applyEditInternal edits timestamp = some (snapshot', editOp, patch)) :
    editOp.timestamp = timestamp ∧ editOp.version = snapshot.version ∧
      editOp.newText = normalizedTexts edits ∧
      editOp.ranges.length = editOp.newText.length ∧
      insertedLen (editOp.ranges.zip editOp.newText) < 2 ^ 32 ∧
      Ranges (atomsOf snapshot.fragments).length
        (rangeInserts timestamp 0 (editOp.ranges.zip editOp.newText)) 0 ∧
      Rewritten byteAt timestamp snapshot snapshot'
        (editRanges (fun _ => true) (fun _ => false) (Atom.deleteVisible timestamp)
          (rangeInserts timestamp 0 (editOp.ranges.zip editOp.newText)) 0
          (atomsOf snapshot.fragments)) := by
  cases edits with
  | nil =>
    simp only [BufferSnapshot.applyEditInternal, Option.some.injEq, Prod.mk.injEq] at hsome
    obtain ⟨rfl, rfl, rfl⟩ := hsome
    exact ⟨rfl, rfl, rfl, rfl, by simp [insertedLen], Nat.zero_le _, Rewritten.refl h⟩
  | cons first edits =>
    obtain ⟨state, front, hslice, hgood, hoffset, hnew, hbefore, hold, hcounted, hfront⟩ :=
      start_step timestamp (· ≤ first.1.start) (stepsOverVisible_iff first.1.start) visible_atomAt h
    rw [← textStart_visible] at hgood hcounted hfront
    have hstart : state.textStart.visible ≤ first.1.start := by
      rcases hfront with rfl | hle
      · rw [hcounted]
        exact Nat.zero_le _
      · exact hle
    simp only [BufferSnapshot.applyEditInternal, hslice, Option.bind_eq_bind,
      Option.bind_some, Option.bind_eq_some_iff] at hsome
    obtain ⟨acc, hfold, state', hfinish', state'', hsuffix, hresult⟩ := hsome
    obtain ⟨consumed, ranges, hgood', hat', hrangesEq, htextEq, hlength, hlen, hfull, hatoms⟩ :=
      foldlM_applyLocalRange (first :: edits) hgood (.of_start hgood textStart_visible)
        ⟨hstart, hranges.2⟩ (by rw [hoffset]; decide) (by rw [hoffset]; exact hbytes) hfold
    obtain ⟨state₁, hfinish, hrewritten⟩ := finish_spec
      acc.state.textStart.visible acc.state.textEnd.visible hgood'
      (textStart_visible ▸ hat'.start)
      (fun item rest hrest hpos => by
        rw [textStart_visible, textEnd_visible]
        exact hat'.end_eq hrest hpos)
    rw [hfinish', Option.bind_some, hsuffix] at hfinish
    obtain rfl := Option.some.inj hfinish
    simp only [pure, Option.some.injEq, Prod.mk.injEq] at hresult
    obtain ⟨rfl, rfl, -⟩ := hresult
    simp only [nil_append] at hrangesEq htextEq
    simp only [hrangesEq, htextEq, hoffset, Nat.zero_add] at hlen hfull hatoms ⊢
    have hfullPosition : EditState.fullPosition
        { state with insertionOffset := 0, fragmentStart := state.textStart.visible } 0 =
          front.length := congrArg List.length hbefore
    obtain ⟨range, ranges, rfl⟩ := exists_cons_of_length_eq_add_one hlength
    rw [hfullPosition, normalizedTexts, map_cons, zip_cons_cons, rangeInserts]
      at hfull
    refine ⟨trivial, trivial, trivial, ?_, hlen, ?_, ?_⟩
    · simpa [normalizedTexts] using hlength
    · rw [normalizedTexts, map_cons, zip_cons_cons, rangeInserts]
      exact ⟨Nat.zero_le _, hfull.2⟩
    · rw [hatoms] at hrewritten
      have hpending : EditState.pending
          { state with insertionOffset := 0, fragmentStart := state.textStart.visible } 0 =
            state.pending 0 := rfl
      simp only [hfullPosition, hpending, hnew] at hrewritten
      rw [hold, normalizedTexts, map_cons, zip_cons_cons, rangeInserts,
        editRanges_append (by simpa using hfull.1) (Or.inl (endsCounted_true front))]
      simpa [normalizedTexts, rangeInserts] using hrewritten

end Blocks

end XorEditor.Text
