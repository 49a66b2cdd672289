import XorEditor.Text.Consistent
import XorEditor.Text.Buffer

/-!
# Applying an operation of the world

A snapshot that is consistent with a world, and has observed everything that an operation
of the world had observed, stays consistent when it applies the operation.  For an edit
the new bytes land where the world has them (`Applicable.result_ids`), because the ranges
of the edit insert each byte behind its parent; and the bytes it marks are the ones the
world says it deletes.

* `Applicable`: an operation that a snapshot can apply
* `World.Applicable.applyOp`: the snapshot stays consistent
-/

namespace XorEditor.Text

open Clock Lib RangeEdit List

namespace World

variable {W W' : World} {snapshot snapshot' : BufferSnapshot} {applied : List Operation}

/-- The world may grow. -/
theorem Consistent.extend {op : Operation} (hW : W.Valid) (h : W.Consistent snapshot applied)
    (hext : W.ExtendsBy op W') : W'.Consistent snapshot applied where
  log := h.log.extend hW hext
  ids := by rw [h.ids, hext.observedBytes_eq (h.log.not_observed hext)]
  mem_deletions := by
    intro a ha d
    rw [h.mem_deletions a ha d]
    refine exists_congr fun edit => and_congr_right fun hedit => and_congr_right ?_
    rintro rfl
    exact (hext.deletes _ (hext.timestamp_ne _ (h.log.mem _ hedit)) a.id).symm
  deletions_nodup := h.deletions_nodup
  undo_ordered := h.undo_ordered
  mem_undoMap := h.mem_undoMap
  visible := h.visible
  maxUndos := h.maxUndos
  indexed := h.indexed
  texts := h.texts.congr fun _ ha =>
    (hext.byteAt_eq (hext.ne_of_mem_sequence (h.mem_observedBytes ha).1)).symm

/-- The bytes of a snapshot that an earlier version knew. -/
theorem Consistent.observed_ids (h : W.Consistent snapshot applied) {v : Global}
    (hv : snapshot.version.observedAll v = true) :
    ((atomsOf snapshot.fragments).filter (Atom.observedBy v)).map Atom.id = W.observedBytes v := by
  have hfilter : ((atomsOf snapshot.fragments).filter (Atom.observedBy v)).map Atom.id =
      ((atomsOf snapshot.fragments).map Atom.id).filter fun byte => v.observed byte.1 := by
    rw [filter_map]
    rfl
  rw [hfilter, h.ids, observedBytes, observedBytes, filter_filter]
  refine filter_congr fun byte _ => ?_
  rw [Bool.and_eq_left_iff_imp]
  exact observed_of_observedAll hv

/-- An operation of the world whose turn it is. -/
structure Applicable (W : World) (snapshot : BufferSnapshot) (applied : List Operation)
    (op : Operation) : Prop where
  valid : W.Valid
  consistent : W.Consistent snapshot applied
  mem : op ∈ W.operations
  new : op ∉ applied
  version : snapshot.version.observedAll op.version = true

namespace Applicable

variable {op : Operation}

variable (h : W.Applicable snapshot applied op)
include h

theorem log : W.Log (snapshot.version.observe op.timestamp) (applied ++ [op]) :=
  h.consistent.log.append h.valid h.mem h.new h.version

theorem not_observed : snapshot.version.observed op.timestamp = false := by
  rw [← Bool.not_eq_true, h.consistent.log.observed_iff h.valid h.mem]
  exact h.new

/-- No operation applied so far has observed the new one. -/
theorem not_observed_by {op' : Operation} (hop' : op' ∈ applied ++ [op]) :
    ¬ op'.version.observed op.timestamp = true := by
  intro hobserved
  rcases mem_append.mp hop' with hop' | hop'
  · exact h.new (h.consistent.log.mem_of_causal hop' h.mem hobserved)
  · rw [mem_singleton.mp hop', h.valid.not_observed_self h.mem] at hobserved
    exact Bool.noConfusion hobserved

/-- No undo applied so far is an undo of the new operation. -/
theorem not_undone {undo : UndoOperation} (hundo : Operation.undo undo ∈ applied ++ [op]) :
    op.timestamp ∉ undo.counts.map Prod.fst := by
  intro hmem
  have hobserved := ((h.valid.undo_valid undo (h.log.mem _ hundo)).edits _ hmem).1
  exact h.not_observed_by hundo hobserved

end Applicable

end World

section Edit

/-- The atoms after an edit. -/
def EditOperation.result (edit : EditOperation) (snapshot : BufferSnapshot) : List Atom :=
  editRanges (Atom.observedBy edit.version) (Atom.winsAgainst edit.timestamp)
    (Atom.markDeleted edit.version snapshot.undoMap edit.timestamp) edit.inserts 0
    (atomsOf snapshot.fragments)

theorem Atom.markDeleted_id (version : Global) (undoMap : UndoMap) (timestamp : Lamport)
    (a : Atom) : (a.markDeleted version undoMap timestamp).id = a.id := by
  unfold markDeleted
  split <;> rfl

/-- What an edit inserts. -/
theorem mem_rangeInserts {timestamp : Lamport} {offset : Nat} {edits : List (Range × List Char)}
    {a : Atom} (ha : a ∈ insertedBy (rangeInserts timestamp offset edits)) :
    a.timestamp = timestamp ∧ a.visible = true ∧ a.deletions = [] := by
  induction edits generalizing offset with
  | nil => simp [rangeInserts, insertedBy] at ha
  | cons edit edits ih =>
    obtain ⟨range, text⟩ := edit
    simp only [rangeInserts, insertedBy, flatMap_cons, mem_append] at ha
    rcases ha with ha | ha
    · obtain ⟨i, -, rfl⟩ := mem_map.mp ha
      exact ⟨rfl, rfl, rfl⟩
    · exact ih ha

namespace World.Applicable

variable {W : World} {snapshot snapshot' : BufferSnapshot} {applied : List Operation}
  {edit : EditOperation}

section Edit

variable (h : W.Applicable snapshot applied (Operation.edit edit))
include h

theorem not_wins (a : Atom) (ha : Atom.observedBy edit.version a = true) :
    Atom.winsAgainst edit.timestamp a = false :=
  decide_eq_false (not_lt_of_observed (h.valid.version_lt _ h.mem) ha)

theorem observed_ids :
    ((atomsOf snapshot.fragments).filter (Atom.observedBy edit.version)).map Atom.id =
      W.observedBytes edit.version :=
  h.consistent.observed_ids h.version

theorem ranges : Ranges ((atomsOf snapshot.fragments).countP (Atom.observedBy edit.version))
      edit.inserts 0 := by
  have hranges := (h.valid.edit_valid edit h.mem).ranges
  rwa [← h.observed_ids, length_map, ← countP_eq_length_filter] at hranges

/-- The bytes inserted by the edit are new. -/
theorem timestamp_ne {a : Atom}
    (ha : a ∈ atomsOf snapshot.fragments) : a.timestamp ≠ edit.timestamp := by
  intro heq
  have hobserved := (h.consistent.mem_observedBytes ha).2
  rw [heq] at hobserved
  exact Bool.false_ne_true (h.not_observed.symm.trans hobserved)

/-- The bytes after an edit are the part of the world that the new version selects. -/
theorem result_ids : (edit.result snapshot).map Atom.id =
      W.observedBytes (snapshot.version.observe edit.timestamp) := by
  have hvalid := h.valid.edit_valid edit h.mem
  have hids := map_editRanges_filter h.not_wins
    (Atom.markDeleted_id edit.version snapshot.undoMap edit.timestamp) (pairwise_inserts edit) ?_
    h.valid.wf
    (fun byte hbyte hobserved p hp => h.valid.parent_observed h.consistent.log.base
      (h.consistent.log.closed h.valid) hbyte hobserved hp)
    h.consistent.ids h.ranges
    (by rw [h.observed_ids]; exact hvalid.parents)
    (fun byte hbyte => h.valid.mem_of_mem_inserts h.mem hbyte)
    (fun byte hbyte => by rw [timestamp_of_mem_inserts hbyte]; exact h.not_observed)
  · rw [EditOperation.result, hids, observedBytes]
    refine filter_congr fun byte hbyte => ?_
    have hobserve := h.consistent.log.observe_byte h.valid h.log hbyte
    simp only [Operation.timestamp] at hobserve
    rw [Bool.eq_iff_iff]
    simp only [Bool.or_eq_true, decide_eq_true_eq, hobserve]
    refine or_congr_right ⟨timestamp_of_mem_inserts, fun heq => ?_⟩
    rw [map_id_inserts]
    have hlt := (h.valid.mem_sequence byte).mp hbyte
    rw [heq, h.valid.length_insertedText h.mem] at hlt
    exact mem_map.mpr ⟨byte.2, mem_range.mpr hlt, by rw [← heq]⟩
  · intro byte hbyte a ha
    rw [Atom.winsAgainst, decide_eq_true_iff, ByteId.priority_lt_iff,
      timestamp_of_mem_inserts hbyte]
    refine ⟨Or.inl, fun hlt => hlt.resolve_right fun heq => ?_⟩
    exact h.timestamp_ne ha heq.1.symm

/-- The atoms after an edit: the old ones, marked if the edit deletes them, and the
inserted ones. -/
theorem mem_result {a' : Atom} (ha' : a' ∈ edit.result snapshot) :
    (∃ a ∈ atomsOf snapshot.fragments,
      (W.deletes edit.timestamp a.id ∧ a' = a.delete edit.timestamp) ∨
      (¬ W.deletes edit.timestamp a.id ∧ a' = a)) ∨ a' ∈ insertedBy edit.inserts := by
  have hnew : ∀ a ∈ insertedBy edit.inserts, a.id.1 = edit.timestamp :=
    fun a ha => (mem_rangeInserts ha).1
  by_cases htimestamp : a'.id.1 = edit.timestamp
  · right
    have hfilter := @filter_editRanges_inserted _ _ 0 (Atom.observedBy edit.version)
      (Atom.winsAgainst edit.timestamp) _ _ edit.inserts (atomsOf snapshot.fragments)
      (Atom.markDeleted_id edit.version snapshot.undoMap edit.timestamp)
      (fun byte => decide (byte.1 = edit.timestamp))
      (fun a ha => decide_eq_false (h.timestamp_ne ha)) (fun a ha => decide_eq_true (hnew a ha))
    rw [← hfilter]
    exact mem_filter.mpr ⟨ha', decide_eq_true htimestamp⟩
  · left
    have hmark : ∀ a : Atom, Atom.observedBy edit.version a = false →
        a.markDeleted edit.version snapshot.undoMap edit.timestamp = a := by
      intro a ha
      rw [Atom.observedBy] at ha
      simp [Atom.markDeleted, Atom.wasVisible, ha]
    have hranges := h.ranges
    rw [← Nat.zero_add (List.countP _ _)] at hranges
    have hfilter := @filter_editRanges _ _ 0 _ _ _ _ _ _ _ h.not_wins
      (Atom.markDeleted_id edit.version snapshot.undoMap edit.timestamp) hmark _
      ⟨[], h.observed_ids.symm, rfl⟩ (h.valid.wf.nodup.filter _) hranges
      (fun byte => decide (byte.1 ≠ edit.timestamp))
      (fun a ha => decide_eq_true (h.timestamp_ne ha))
      (fun a ha => decide_eq_false (not_not_intro (hnew a ha)))
    have hmem : a' ∈ (edit.result snapshot).filter fun a => decide (a.id.1 ≠ edit.timestamp) :=
      mem_filter.mpr ⟨ha', decide_eq_true htimestamp⟩
    rw [EditOperation.result, hfilter] at hmem
    obtain ⟨a, ha, heq⟩ := mem_map.mp hmem
    refine ⟨a, ha, ?_⟩
    have hvisibleAt : a.wasVisible edit.version snapshot.undoMap = true ↔
        W.VisibleAt edit.version a.id := h.consistent.wasVisible_iff ha h.valid h.version
    rw [(h.valid.edit_valid edit h.mem).deletes_iff, ← hvisibleAt]
    split at heq
    · rename_i hin
      by_cases hvisible : a.wasVisible edit.version snapshot.undoMap = true
      · rw [Atom.markDeleted, if_pos hvisible] at heq
        exact Or.inl ⟨⟨hin, hvisible⟩, heq.symm⟩
      · rw [Atom.markDeleted, if_neg hvisible] at heq
        exact Or.inr ⟨fun hdeletes => hvisible hdeletes.2, heq.symm⟩
    · rename_i hin
      exact Or.inr ⟨fun hdeletes => hin hdeletes.1, heq.symm⟩

theorem isUndone_new : snapshot.undoMap.isUndone edit.timestamp = false := by
  refine UndoMap.isUndone_of_forall_ne h.consistent.undo_ordered fun entry hentry heq => ?_
  obtain ⟨undo, hundo, -, hmem⟩ := (h.consistent.mem_undoMap entry).mp hentry
  refine h.not_undone (mem_append_left _ hundo) ?_
  exact mem_map.mpr ⟨_, hmem, heq⟩

variable (hrewritten : Rewritten W.byteAt edit.timestamp snapshot snapshot' (edit.result snapshot))
include hrewritten

theorem indexed_edit : snapshot'.Indexed baseTimestamp := by
  refine h.consistent.indexed.rewritten hrewritten ?_ ?_ ?_
  · exact fun f hf =>
      h.timestamp_ne (atomAt_mem_atomsOf hf (h.consistent.indexed.valid f hf).len_pos)
  · rw [h.result_ids]
    exact h.valid.wf.nodup.filter _
  · rw [h.result_ids, h.consistent.ids]
    intro byte hbyte
    obtain ⟨hmem, hobserved⟩ := mem_filter.mp hbyte
    exact mem_filter.mpr ⟨hmem,
      (h.consistent.log.observe_byte h.valid h.log hmem).mpr (Or.inl hobserved)⟩

/-- An edit of the world keeps a snapshot consistent. -/
theorem applyEdit :
    W.Consistent { snapshot' with version := snapshot.version.observe edit.timestamp }
      (applied ++ [Operation.edit edit]) where
  log := h.log
  ids := by
    simp only [hrewritten.atoms]
    exact h.result_ids
  mem_deletions := by
    simp only [hrewritten.atoms]
    intro a' ha' d
    have hsplit : ∀ P : EditOperation → Prop,
        (∃ edit', Operation.edit edit' ∈ applied ++ [Operation.edit edit] ∧ P edit') ↔
          (∃ edit', Operation.edit edit' ∈ applied ∧ P edit') ∨ P edit := by
      intro P
      simp only [mem_append, mem_singleton, Operation.edit.injEq, or_and_right,
        exists_or, exists_eq_left]
    rcases h.mem_result ha' with ⟨a, ha, hcases⟩ | hinserted
    · have hold := h.consistent.mem_deletions a ha d
      rcases hcases with ⟨hdeletes, rfl⟩ | ⟨hdeletes, rfl⟩
      · rw [hsplit, Atom.delete, mem_append, mem_singleton]
        change d ∈ a.deletions ∨ d = edit.timestamp ↔
          (∃ edit', Operation.edit edit' ∈ applied ∧ edit'.timestamp = d ∧ W.deletes d a.id) ∨
            edit.timestamp = d ∧ W.deletes d a.id
        rw [hold]
        refine or_congr_right ⟨?_, fun heq => heq.1.symm⟩
        rintro rfl
        exact ⟨rfl, hdeletes⟩
      · rw [hsplit, hold]
        refine (or_iff_left ?_).symm
        rintro ⟨rfl, hd⟩
        exact hdeletes hd
    · obtain ⟨htimestamp, -, hnil⟩ := mem_rangeInserts hinserted
      rw [hnil]
      refine iff_of_false (by simp) ?_
      rintro ⟨edit', hedit', rfl, hdeletes⟩
      have hvalid := h.valid.edit_valid edit' (h.log.mem _ hedit')
      have hobserved : edit'.version.observed a'.timestamp = true :=
        ((hvalid.deletes_iff _).mp hdeletes).2.observed
      rw [htimestamp] at hobserved
      exact h.not_observed_by hedit' hobserved
  deletions_nodup := by
    simp only [hrewritten.atoms]
    intro a' ha'
    rcases h.mem_result ha' with ⟨a, ha, ⟨-, rfl⟩ | ⟨-, rfl⟩⟩ | hinserted
    · refine nodup_append.mpr ⟨h.consistent.deletions_nodup a ha, nodup_singleton _, ?_⟩
      rintro d hd d' hd' rfl
      obtain ⟨edit', hedit', htimestamp, -⟩ := (h.consistent.mem_deletions a ha d).mp hd
      refine h.new ?_
      rwa [h.valid.eq_of_timestamp h.mem (h.consistent.log.mem _ hedit')
        (htimestamp.trans (mem_singleton.mp hd')).symm]
    · exact h.consistent.deletions_nodup _ ha
    · rw [(mem_rangeInserts hinserted).2.2]
      exact nodup_nil
  undo_ordered := by
    simp only [hrewritten.undoMap]
    exact h.consistent.undo_ordered
  mem_undoMap := by
    simp only [hrewritten.undoMap]
    intro entry
    rw [h.consistent.mem_undoMap]
    simp
  visible := by
    simp only [hrewritten.atoms, hrewritten.undoMap]
    intro a' ha'
    rcases h.mem_result ha' with ⟨a, ha, ⟨-, rfl⟩ | ⟨-, rfl⟩⟩ | hinserted
    · simp [Atom.delete, Atom.isVisible, h.isUndone_new]
    · exact h.consistent.visible _ ha
    · obtain ⟨htimestamp, hvisible, hnil⟩ := mem_rangeInserts hinserted
      rw [hvisible, Atom.isVisible, htimestamp, hnil, h.isUndone_new]
      rfl
  maxUndos := by
    simp only [hrewritten.atoms]
    intro a' ha' undo hundo editId heditId htouched
    have hne : editId ≠ edit.timestamp := by
      rintro rfl
      exact h.not_undone hundo heditId
    have hundo : Operation.undo undo ∈ applied := by simpa using hundo
    rcases h.mem_result ha' with ⟨a, ha, ⟨-, rfl⟩ | ⟨-, rfl⟩⟩ | hinserted
    · refine h.consistent.maxUndos a ha undo hundo editId heditId (htouched.imp_right ?_)
      intro hd
      exact (mem_append.mp hd).resolve_right fun hd => hne (mem_singleton.mp hd)
    · exact h.consistent.maxUndos _ ha undo hundo editId heditId htouched
    · obtain ⟨htimestamp, -, hnil⟩ := mem_rangeInserts hinserted
      rw [Atom.TouchedBy, htimestamp, hnil] at htouched
      exact absurd (htouched.resolve_right (by simp)).symm hne
  indexed := (h.indexed_edit hrewritten).withVersion _
  texts := by
    have hindexed := h.indexed_edit hrewritten
    refine BufferSnapshot.TextsValid.withVersion ⟨hindexed.valid, hindexed.ids, ?_, ?_⟩ _
    · rw [hrewritten.visibleText, hrewritten.atoms]
    · rw [hrewritten.deletedText, hrewritten.atoms]

end Edit

end World.Applicable

end Edit

section Undo

/-- A snapshot after an undo. -/
def World.undone (W : World) (snapshot : BufferSnapshot) (undo : UndoOperation) : BufferSnapshot :=
  let undoMap := snapshot.undoMap.insert undo
  let fragments := snapshot.fragments.map (Fragment.applyUndo undoMap undo)
  { snapshot with
    undoMap
    fragments
    visibleText := visibleBytes W.byteAt (atomsOf fragments)
    deletedText := deletedBytes W.byteAt (atomsOf fragments)
    version := snapshot.version.observe undo.timestamp }

namespace World.Applicable

variable {W : World} {snapshot snapshot' : BufferSnapshot} {applied : List Operation}
  {undo : UndoOperation}

section Undo

variable (h : W.Applicable snapshot applied (Operation.undo undo))
include h

theorem base_not_undone : baseTimestamp ∉ undo.counts.map Prod.fst := by
  intro hmem
  obtain ⟨-, edit, hedit, htimestamp⟩ := (h.valid.undo_valid undo h.mem).edits _ hmem
  exact h.valid.timestamp_ne_base hedit htimestamp

/-- `apply_undo` succeeds; it does not depend on the version of the snapshot. -/
theorem applyUndo_eq (version : Global) :
    ∃ patch, BufferSnapshot.applyUndo { snapshot with version } undo =
      some ({ W.undone snapshot undo with version }, patch) := by
  obtain ⟨visibleText, deletedText, patch, happly, rfl, rfl⟩ :=
    applyUndo_spec (h.consistent.indexed.withVersion version)
      (h.consistent.texts.withVersion version) h.base_not_undone
  exact ⟨patch, happly⟩

theorem counts_distinct : (undo.counts.map fun count : Lamport × Nat =>
      ({ editId := count.1, undoId := undo.timestamp, undoCount := count.2 } :
        UndoMapEntry)).Pairwise fun x y => x.key ≠ y.key := by
  have hnodup := (h.valid.undo_valid undo h.mem).nodup
  rw [List.Nodup, pairwise_map] at hnodup
  refine pairwise_map.mpr (hnodup.imp fun {x y} hne heq => hne ?_)
  exact congrArg (fun key => (ofLex key).1) heq

theorem ordered_insert_undo : KeyedList.Ordered UndoMapEntry.key (snapshot.undoMap.insert undo) :=
  h.consistent.undo_ordered.insertAll h.counts_distinct

theorem mem_insert_undo (entry : UndoMapEntry) :
    entry ∈ snapshot.undoMap.insert undo ↔ entry ∈ snapshot.undoMap ∨
      (undo.timestamp = entry.undoId ∧ (entry.editId, entry.undoCount) ∈ undo.counts) := by
  rw [UndoMap.insert, KeyedList.mem_insertAll h.counts_distinct h.consistent.undo_ordered, or_comm]
  refine or_congr ?_ ?_
  · refine and_iff_left_of_imp fun hentry new hnew heq => ?_
    obtain ⟨undo', hundo', htimestamp, -⟩ := (h.consistent.mem_undoMap entry).mp hentry
    obtain ⟨count, -, rfl⟩ := mem_map.mp hnew
    have hkey : undo.timestamp = entry.undoId := congrArg (fun key => (ofLex key).2) heq
    refine h.new ?_
    rwa [h.valid.eq_of_timestamp h.mem (h.consistent.log.mem _ hundo') (hkey.trans htimestamp.symm)]
  · rw [mem_map]
    constructor
    · rintro ⟨count, hcount, rfl⟩
      exact ⟨rfl, hcount⟩
    · rintro ⟨htimestamp, hcount⟩
      exact ⟨_, hcount, by cases entry; simp_all⟩

/-- No byte appears or disappears with an undo. -/
theorem observedBytes_undo : W.observedBytes (snapshot.version.observe undo.timestamp) =
      W.observedBytes snapshot.version := by
  refine filter_congr fun byte hbyte => ?_
  have hobserve := h.consistent.log.observe_byte h.valid h.log hbyte
  simp only [Operation.timestamp] at hobserve
  rw [Bool.eq_iff_iff, hobserve]
  refine or_iff_left ?_
  intro heq
  rcases h.valid.byte_cases hbyte with hbase | ⟨edit, hedit, htimestamp, -⟩
  · obtain ⟨offset, -, rfl⟩ := mem_map.mp hbase
    exact h.valid.timestamp_ne_base h.mem heq.symm
  · have := h.valid.eq_of_timestamp hedit h.mem (htimestamp.trans heq)
    exact Operation.noConfusion this

/-- An undo of the world keeps a snapshot consistent. -/
theorem consistent_undone :
    W.Consistent (W.undone snapshot undo) (applied ++ [Operation.undo undo]) where
  log := h.log
  ids := by
    simp only [undone, atomsOf_map_applyUndo_ids]
    rw [h.observedBytes_undo]
    exact h.consistent.ids
  mem_deletions := by
    simp only [undone, atomsOf_map_applyUndo, forall_mem_map]
    intro a ha d
    simpa using h.consistent.mem_deletions a ha d
  deletions_nodup := by
    simp only [undone, atomsOf_map_applyUndo, forall_mem_map]
    intro a ha
    rw [Atom.applyUndo_deletions]
    exact h.consistent.deletions_nodup a ha
  undo_ordered := h.ordered_insert_undo
  mem_undoMap := by
    intro entry
    simp only [undone]
    rw [h.mem_insert_undo, h.consistent.mem_undoMap]
    simp only [mem_append, mem_singleton, Operation.undo.injEq, or_and_right,
      exists_or, exists_eq_left]
  visible := by
    simp only [undone, atomsOf_map_applyUndo, forall_mem_map]
    intro a ha
    unfold Atom.applyUndo
    split
    · rfl
    · rename_i haffected
      have hundone : ∀ editId, a.TouchedBy editId → snapshot.undoMap.isUndone editId =
            (snapshot.undoMap.insert undo).isUndone editId := by
        intro editId htouched
        refine UndoMap.isUndone_congr h.consistent.undo_ordered h.ordered_insert_undo
          fun entry hentry => ?_
        rw [h.mem_insert_undo]
        refine (or_iff_left ?_).symm
        rintro ⟨-, hmem⟩
        refine haffected (any_eq_true.mpr ⟨editId, ?_, decide_eq_true htouched⟩)
        exact mem_map.mpr ⟨_, hmem, hentry⟩
      rw [h.consistent.visible a ha, Atom.isVisible, Atom.isVisible, hundone _ (Or.inl rfl)]
      congr 1
      rw [Bool.eq_iff_iff, all_eq_true, all_eq_true]
      refine forall₂_congr fun d hd => ?_
      rw [hundone d (Or.inr hd)]
  maxUndos := by
    simp only [undone, atomsOf_map_applyUndo]
    intro a' ha' undo' hundo' editId heditId htouched
    obtain ⟨a, ha, rfl⟩ := mem_map.mp ha'
    rw [Atom.applyUndo_touchedBy] at htouched
    rcases mem_append.mp hundo' with hundo' | hundo'
    · have hold := h.consistent.maxUndos a ha undo' hundo' editId heditId htouched
      unfold Atom.applyUndo
      split
      · exact observed_of_observedAll (Global.observe_covers _ _).1 hold
      · exact hold
    · obtain rfl : undo' = undo := by simpa using hundo'
      have haffected : a.affectedBy undo' = true :=
        any_eq_true.mpr ⟨editId, heditId, decide_eq_true htouched⟩
      rw [Atom.applyUndo, if_pos haffected]
      exact (Global.observe_covers _ _).2
  indexed := (h.consistent.indexed.applyUndo undo _ _ _).withVersion _
  texts := by
    have hindexed := h.consistent.indexed.applyUndo undo (snapshot.undoMap.insert undo) [] []
    exact ⟨hindexed.valid, hindexed.ids, rfl, rfl⟩

end Undo

end World.Applicable

end Undo

section Buffer

variable {W : World} {b : Buffer} {op : Operation}

theorem bytesMatch_getD (bytes : Rope) (timestamp : Lamport) {byteAt : ByteId → UInt8}
    (h : ∀ i, byteAt (timestamp, i) = bytes.getD i 0) : BytesMatch byteAt timestamp 0 bytes := by
  refine ext_getElem (by simp) fun i hi hi' => ?_
  simp only [getElem_map, getElem_range, Nat.zero_add, h]
  simp [getD_eq_getElem?_getD, hi']

/-- `apply_op` applies an operation whose turn it is; only the clock can overflow. -/
theorem World.Applicable.applyOp (h : W.Applicable b.snapshot b.applied op) :
    ∃ snapshot patch, W.Consistent snapshot (b.applied ++ [op]) ∧
      b.applyOp op = (b.lamportClock.observe op.timestamp).map fun lamportClock =>
        { b with
          snapshot
          lamportClock
          published := b.published ++ [patch]
          applied := b.applied ++ [op] } := by
  have hnot : b.version.observed op.timestamp = false := h.not_observed
  rw [Buffer.applyOp, if_neg (by rw [hnot]; exact Bool.false_ne_true)]
  cases op with
  | edit edit =>
    have hvalid := h.valid.edit_valid edit h.mem
    have htext : edit.edits.flatMap (fun edit => utf8 edit.2) = W.insertedText edit.timestamp := by
      rw [h.valid.insertedText_edit h.mem, EditOperation.edits, ← flatMap_map,
        map_snd_zip (Nat.le_of_eq hvalid.length_eq.symm)]
    have hbytes : BytesMatch W.byteAt edit.timestamp 0
        (edit.edits.flatMap fun edit => utf8 edit.2) := by
      rw [htext]
      exact bytesMatch_getD _ _ fun i => rfl
    obtain ⟨snapshot, patch, happly, hrewritten⟩ := applyRemoteEdit_spec h.consistent.texts
        (fun f _ hobserved => not_lt_of_observed (h.valid.version_lt _ h.mem) hobserved)
        h.ranges hvalid.length_eq hvalid.inserted_lt hbytes
    refine ⟨_, patch, h.applyEdit hrewritten, ?_⟩
    simp only [Operation.version, Operation.timestamp] at happly
    rw [Option.map_eq_bind]
    simp only [happly, hrewritten.version, some_do]
    rfl
  | undo undo =>
    obtain ⟨patch, happly⟩ := h.applyUndo_eq b.snapshot.version
    refine ⟨_, patch, h.consistent_undone, ?_⟩
    rw [Option.map_eq_bind]
    simp only [happly, some_do]
    rfl

end Buffer

end XorEditor.Text
