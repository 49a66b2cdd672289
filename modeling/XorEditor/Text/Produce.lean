import XorEditor.Text.ApplyOp

/-!
# Producing an operation

A replica that edits or undoes locally adds an operation to the world.  The operation is
new because its timestamp is beyond everything the replica has seen, and the replica has
applied all its own operations.  A local edit does to the fragments what the operation it
produces does at every other replica.

* `NewOperation`, `NewEdit`: what a replica adds
* `Consistent.localEdit`: its own edit is like a remote one
-/

namespace XorEditor.Text

open Clock Lib RangeEdit List

namespace World

/-- A timestamp for a new operation of a replica. -/
structure Fresh (W : World) (version : Global) (applied : List Operation)
    (timestamp : Lamport) : Prop where
  value_ge : 2 ≤ timestamp.value
  value_lt : timestamp.value + 1 < 2 ^ 32
  version_lt : ∀ r, version.get r < timestamp.value
  own : ∀ op ∈ W.operations, op.replicaId = timestamp.replicaId → op ∈ applied

variable {W W' : World} {snapshot snapshot' : BufferSnapshot} {applied : List Operation}
  {timestamp : Lamport} {op : Operation} {byte : ByteId}

namespace Fresh

variable (h : W.Fresh snapshot.version applied timestamp) (hlog : W.Log snapshot.version applied)
include h hlog

theorem own_lt (hop : op ∈ W.operations) (hreplica : op.replicaId = timestamp.replicaId) :
    op.timestamp.value < timestamp.value := by
  have hobserved := @observed_observeAll W.baseVersion _ _ (h.own op hop hreplica)
  rw [← hlog.version_eq, Global.observed_iff] at hobserved
  exact hobserved.trans_lt (h.version_lt _)

theorem not_observed {v : Global} (hv : W.Witnessed v) : v.observed timestamp = false := by
  rw [← Bool.not_eq_true, Global.observed_iff, Nat.not_le]
  rcases hv timestamp.replicaId with hbase | ⟨op, hop, htimestamp⟩
  · have := Log.baseVersion_get_le W timestamp.replicaId
    have := h.value_ge
    omega
  · simpa [htimestamp] using h.own_lt hlog hop (by simp [Operation.replicaId, htimestamp])

theorem timestamp_ne (op : Operation) (hop : op ∈ W.operations) : op.timestamp ≠ timestamp := by
  rintro rfl
  exact Nat.lt_irrefl _ (h.own_lt hlog hop rfl)

theorem not_mem_sequence (hW : W.Valid) (hbyte : byte ∈ W.sequence) : byte.1 ≠ timestamp := by
  rcases hW.byte_cases hbyte with hbase | ⟨edit, hedit, htimestamp, -⟩
  · obtain ⟨offset, -, rfl⟩ := mem_map.mp hbase
    rintro rfl
    have := h.value_ge
    simp [baseTimestamp, Lamport.new] at this
  · rw [← htimestamp]
    exact h.timestamp_ne hlog _ hedit

end Fresh

/-- A new operation at a consistent snapshot. -/
structure NewOperation (W : World) (snapshot : BufferSnapshot) (applied : List Operation)
    (op : Operation) : Prop where
  valid : W.Valid
  consistent : W.Consistent snapshot applied
  fresh : W.Fresh snapshot.version applied op.timestamp
  version : op.version = snapshot.version

namespace NewOperation

variable (h : W.NewOperation snapshot applied op)
include h

theorem not_mem_sequence (hbyte : byte ∈ W.sequence) : byte.1 ≠ op.timestamp :=
  h.fresh.not_mem_sequence h.consistent.log h.valid hbyte

/-- What every new operation satisfies. -/
theorem newValid (hmem : ∀ offset, (op.timestamp, offset) ∈ W'.sequence ↔
      offset < (W'.insertedText op.timestamp).length)
    (hordered : (W'.sequence.filter fun byte => decide (byte.1 = op.timestamp)).Pairwise
      fun x y => x.2 < y.2) (hwf : Rga.Wf W'.parent ByteId.priority W'.sequence)
    (hedit : ∀ edit, op = Operation.edit edit → W'.EditValid edit)
    (hundo : ∀ undo, op = Operation.undo undo → W'.UndoValid undo) :
    ExtendsBy.NewValid W op W' where
  value_ge := h.fresh.value_ge
  value_lt := h.fresh.value_lt
  version_lt := h.version ▸ h.fresh.version_lt
  version_base := h.version ▸ h.consistent.log.base
  version_closed := h.version ▸ h.consistent.log.closed h.valid
  version_witnessed := h.version ▸ h.consistent.log.witnessed
  version_own := by
    intro op' hop' hreplica
    rw [h.version, h.consistent.log.observed_iff h.valid hop']
    exact h.fresh.own op' hop' hreplica
  mem_sequence := hmem
  ordered := hordered
  wf := hwf
  edit_valid := hedit
  undo_valid := hundo

/-- The operation can be applied in the world that has it. -/
theorem applicable (hext : W.ExtendsBy op W') (hvalid : W'.Valid) :
    W'.Applicable snapshot applied op where
  valid := hvalid
  consistent := h.consistent.extend h.valid hext
  mem := hext.mem_operations.mpr (Or.inr rfl)
  new := fun hmem => hext.timestamp_ne _ (h.consistent.log.mem _ hmem) rfl
  version := by
    rw [h.version]
    exact Global.observedAll_self _

end NewOperation

section Undo

variable {undo : UndoOperation}

/-- The world with a new undo. -/
def addUndo (W : World) (undo : UndoOperation) : World :=
  { W with operations := W.operations ++ [Operation.undo undo] }

variable (h : W.NewOperation snapshot applied (.undo undo))
include h

theorem extendsBy_addUndo : W.ExtendsBy (Operation.undo undo) (W.addUndo undo) where
  base := rfl
  operations := rfl
  timestamp_ne := h.fresh.timestamp_ne h.consistent.log
  fresh := fun _ hv => h.fresh.not_observed h.consistent.log hv
  sequence := filter_eq_self.mpr fun _ hbyte => decide_eq_true (h.not_mem_sequence hbyte)
  parent := fun _ _ => rfl
  deletes := fun _ _ _ => Iff.rfl

variable (hnodup : (undo.counts.map Prod.fst).Nodup)
  (hedits : ∀ editId ∈ undo.counts.map Prod.fst,
    ∃ edit, Operation.edit edit ∈ applied ∧ edit.timestamp = editId)
include hnodup hedits

theorem valid_addUndo : (W.addUndo undo).Valid := by
  have hext := extendsBy_addUndo h
  have hlog := h.consistent.log
  refine hext.valid h.valid (h.newValid ?_ ?_ h.valid.wf (by simp) ?_)
  · intro offset
    refine iff_of_false (fun hbyte => h.not_mem_sequence hbyte rfl) ?_
    rw [insertedText, hext.find_new]
    exact Nat.not_lt_zero offset
  · rw [filter_eq_nil_iff.mpr]
    · exact List.Pairwise.nil
    · exact fun byte hbyte heq => h.not_mem_sequence hbyte (of_decide_eq_true heq)
  · rintro undo' ⟨⟩
    refine ⟨hnodup, fun editId hmem => ?_⟩
    obtain ⟨edit, hedit, rfl⟩ := hedits editId hmem
    refine ⟨?_, edit, hext.mem_operations.mpr (Or.inl (hlog.mem _ hedit)), rfl⟩
    rw [show undo.version = snapshot.version from h.version]
    exact (hlog.observed_iff h.valid (hlog.mem _ hedit)).mpr hedit

/-- A local undo. -/
theorem NewOperation.localUndo :
    ∃ W' snapshot' patch, W.ExtendsBy (Operation.undo undo) W' ∧ W'.Valid ∧ BufferSnapshot.applyUndo
        { snapshot with version := snapshot.version.observe undo.timestamp } undo =
          some (snapshot', patch) ∧
      W'.Consistent snapshot' (applied ++ [Operation.undo undo]) := by
  have hext := extendsBy_addUndo h
  have hvalid := valid_addUndo h hnodup hedits
  have happlicable := h.applicable hext hvalid
  obtain ⟨patch, happly⟩ := happlicable.applyUndo_eq (snapshot.version.observe undo.timestamp)
  exact ⟨_, _, patch, hext, hvalid, happly, happlicable.consistent_undone⟩

end Undo

section Edit

variable {edit : EditOperation} {parent : ByteId → Option ByteId}

/-- The world with a new edit, whose bytes get the given parents. -/
def addEdit (W : World) (edit : EditOperation) (parent : ByteId → Option ByteId) : World where
  base := W.base
  operations := W.operations ++ [Operation.edit edit]
  sequence := Rga.insertAll ByteId.priority parent
    ((insertedBy edit.inserts).map Atom.id) W.sequence
  parent := parent
  deletes t byte :=
    if t = edit.timestamp then
      byte ∈ inRanges edit.inserts (W.observedBytes edit.version) ∧ W.VisibleAt edit.version byte
    else
      W.deletes t byte

/-- An edit of the whole text of a consistent snapshot. -/
structure NewEdit (W : World) (snapshot : BufferSnapshot) (applied : List Operation)
    (edit : EditOperation) (parent : ByteId → Option ByteId) : Prop extends
    W.NewOperation snapshot applied (.edit edit) where
  length_eq : edit.ranges.length = edit.newText.length
  inserted_lt : insertedLen edit.edits < 2 ^ 32
  ranges : Ranges (atomsOf snapshot.fragments).length edit.inserts 0
  parents : ∀ range ∈ edit.inserts, RunParents parent
    (anchorBefore (W.observedBytes edit.version) range.start)
    (range.inserted.map Atom.id)
  parent_eq : ∀ byte ∉ (insertedBy edit.inserts).map Atom.id, parent byte = W.parent byte

namespace NewEdit

variable (h : W.NewEdit snapshot applied edit parent)

include h

theorem edit_version : edit.version = snapshot.version := h.version

theorem extendsBy : W.ExtendsBy (Operation.edit edit) (W.addEdit edit parent) where
  base := rfl
  operations := rfl
  timestamp_ne := h.fresh.timestamp_ne h.consistent.log
  fresh := fun _ hv => h.fresh.not_observed h.consistent.log hv
  sequence := by
    rw [addEdit, Rga.filter_insertAll]
    · exact filter_eq_self.mpr fun byte hbyte => decide_eq_true (h.not_mem_sequence hbyte)
    · exact fun byte hbyte => decide_eq_false (not_not_intro (timestamp_of_mem_inserts hbyte))
  parent := fun byte hbyte => h.parent_eq byte fun hmem => hbyte (timestamp_of_mem_inserts hmem)
  deletes := fun t ht byte => by
    simp only [addEdit]
    rw [if_neg (show t ≠ edit.timestamp from ht)]

theorem wf_old : Rga.Wf parent ByteId.priority W.sequence :=
  h.valid.wf.congr fun byte hbyte =>
    h.parent_eq byte fun hmem => h.not_mem_sequence hbyte (timestamp_of_mem_inserts hmem)

theorem parentsIn : Rga.ParentsIn parent (· ∈ W.sequence) ((insertedBy edit.inserts).map Atom.id) :=
  parentsIn_insertedBy (fun _ hbyte => (mem_filter.mp hbyte).1) h.parents

theorem not_mem_of_inserted (hbyte : byte ∈ (insertedBy edit.inserts).map Atom.id) :
    byte ∉ W.sequence :=
  fun hmem => h.not_mem_sequence hmem (timestamp_of_mem_inserts hbyte)

theorem wf : Rga.Wf parent ByteId.priority (W.addEdit edit parent).sequence :=
  h.wf_old.insertAll ByteId.priority_injective (nodup_inserts edit)
    (fun _ hbyte => h.not_mem_of_inserted hbyte) h.parentsIn

theorem mem_sequence (byte : ByteId) : byte ∈ (W.addEdit edit parent).sequence ↔
      byte ∈ W.sequence ∨ byte ∈ (insertedBy edit.inserts).map Atom.id :=
  Rga.mem_insertAll h.wf_old ByteId.priority_injective (nodup_inserts edit)
    (fun _ hbyte => h.not_mem_of_inserted hbyte) h.parentsIn byte

theorem mem_inserted_iff (hbyte : byte ∈ (W.addEdit edit parent).sequence) :
    byte.1 = edit.timestamp ↔ byte ∈ (insertedBy edit.inserts).map Atom.id := by
  refine ⟨fun heq => ?_, timestamp_of_mem_inserts⟩
  exact ((h.mem_sequence byte).mp hbyte).resolve_left fun hmem => h.not_mem_sequence hmem heq

theorem not_observed : edit.version.observed edit.timestamp = false := by
  rw [h.edit_version]
  exact h.fresh.not_observed h.consistent.log h.consistent.log.witnessed

/-- The atoms of the snapshot are the bytes that the edit knows. -/
theorem ids_eq : (atomsOf snapshot.fragments).map Atom.id = W.observedBytes edit.version := by
  rw [h.consistent.ids, h.edit_version]

/-- All atoms are known to the edit, and none of them wins against it. -/
theorem not_wins {a : Atom} (ha : a ∈ atomsOf snapshot.fragments) :
    ¬ edit.timestamp < a.timestamp :=
  not_lt_of_observed h.fresh.version_lt (h.consistent.mem_observedBytes ha).2

theorem parent_observed {p : ByteId} (hbyte : byte ∈ (W.addEdit edit parent).sequence)
    (hobserved : edit.version.observed byte.1 = true) (hp : parent byte = some p) :
    edit.version.observed p.1 = true := by
  have hne : byte.1 ≠ edit.timestamp := by
    intro heq
    rw [heq, h.not_observed] at hobserved
    exact Bool.noConfusion hobserved
  have hnot : byte ∉ (insertedBy edit.inserts).map Atom.id :=
    fun hmem => hne (timestamp_of_mem_inserts hmem)
  have hold := ((h.mem_sequence byte).mp hbyte).resolve_right hnot
  rw [h.parent_eq byte hnot] at hp
  rw [h.edit_version] at hobserved ⊢
  exact h.valid.parent_observed h.consistent.log.base (h.consistent.log.closed h.valid) hold
    hobserved hp

/-- The bytes of the edit stand in the sequence in the order of their offsets: the local
edit puts them so, and they are inserted behind their parents in any larger part of the
sequence. -/
theorem filter_sequence :
    (W.addEdit edit parent).sequence.filter (fun byte => decide (byte.1 = edit.timestamp)) =
      (insertedBy edit.inserts).map Atom.id := by
  have hids := @map_editRanges_filter Atom ByteId _ (fun _ => true) (fun _ => false)
    (fun a => a) Atom.id _ parent ByteId.priority edit.inserts _ (fun _ _ => rfl)
    (fun _ => rfl) (atomsOf snapshot.fragments) (pairwise_inserts edit)
    (fun byte hbyte a ha => by
      rw [ByteId.priority_lt_iff, timestamp_of_mem_inserts hbyte]
      refine iff_of_false Bool.false_ne_true ?_
      rintro (hlt | ⟨heq, -⟩)
      · exact h.not_wins ha hlt
      · exact h.not_mem_sequence (h.consistent.mem_observedBytes ha).1 heq.symm)
    _ h.wf (fun byte => edit.version.observed byte.1)
    (fun byte hbyte hobserved p hp => h.parent_observed hbyte hobserved hp)
    (by rw [h.ids_eq, ← h.extendsBy.observedBytes_eq h.not_observed]; rfl)
    (by simpa using h.ranges) (by simpa [h.ids_eq] using h.parents)
    (fun byte hbyte => (h.mem_sequence byte).mpr (Or.inr hbyte))
    (fun byte hbyte => by rw [timestamp_of_mem_inserts hbyte]; exact h.not_observed)
  have hinserted := @filter_editRanges_inserted Atom ByteId 0 (fun _ => true)
    (fun _ => false) (fun a => a) Atom.id edit.inserts (atomsOf snapshot.fragments) (fun _ => rfl)
    (fun byte => decide (byte.1 = edit.timestamp))
    (fun a ha => decide_eq_false (h.not_mem_sequence (h.consistent.mem_observedBytes ha).1))
    (fun a ha => decide_eq_true (mem_rangeInserts ha).1)
  rw [← hinserted]
  refine Eq.trans ?_ (filter_map (p := fun byte : ByteId => decide (byte.1 = edit.timestamp)))
  rw [hids, filter_filter]
  refine filter_congr fun byte hbyte => ?_
  by_cases heq : byte.1 = edit.timestamp
  · simp only [heq, (h.mem_inserted_iff hbyte).mp heq, decide_true, Bool.or_true, Bool.and_true]
  · simp [heq]

theorem editValid : (W.addEdit edit parent).EditValid edit where
  length_eq := h.length_eq
  inserted_lt := h.inserted_lt
  ranges := by
    rw [h.extendsBy.observedBytes_eq h.not_observed, ← h.ids_eq, length_map]
    exact h.ranges
  parents := by
    rw [h.extendsBy.observedBytes_eq h.not_observed]
    exact h.parents
  deletes_iff := by
    intro byte
    rw [h.extendsBy.observedBytes_eq h.not_observed, h.extendsBy.visibleAt_iff h.not_observed]
    simp only [addEdit, if_true]

theorem valid_addEdit : (W.addEdit edit parent).Valid := by
  have hext := h.extendsBy
  refine hext.valid h.valid (h.newValid ?_ ?_ h.wf ?_ (by simp))
  · intro offset
    simp only [Operation.timestamp]
    rw [hext.insertedText_new, length_flatMap_utf8 h.length_eq, h.mem_sequence, map_id_inserts]
    constructor
    · rintro (hmem | hmem)
      · exact absurd rfl (h.not_mem_sequence hmem)
      · obtain ⟨i, hi, heq⟩ := mem_map.mp hmem
        rw [← (Prod.mk.inj heq).2]
        exact mem_range.mp hi
    · intro hlt
      exact Or.inr (mem_map.mpr ⟨offset, mem_range.mpr hlt, rfl⟩)
  · change ((W.addEdit edit parent).sequence.filter
      fun byte => decide (byte.1 = edit.timestamp)).Pairwise _
    rw [h.filter_sequence, map_id_inserts, pairwise_map]
    exact pairwise_lt_range
  · rintro edit' ⟨⟩
    exact h.editValid

/-- The local edit and the operation it produces do the same. -/
theorem result_eq : editRanges (fun _ => true) (fun _ => false) (Atom.deleteVisible edit.timestamp)
      edit.inserts 0 (atomsOf snapshot.fragments) = edit.result snapshot := by
  refine editRanges_congr ?_ ?_ ?_
  · intro a ha
    rw [Atom.observedBy, h.edit_version, (h.consistent.mem_observedBytes ha).2]
  · exact fun a ha => (decide_eq_false (h.not_wins ha)).symm
  · intro a ha
    rw [Atom.markDeleted, h.edit_version, ← h.consistent.visible_eq_wasVisible ha]
    rfl

end NewEdit

/-- A local edit. -/
theorem Consistent.localEdit (hW : W.Valid) (h : W.Consistent snapshot applied)
    (hfresh : W.Fresh snapshot.version applied timestamp) {edits : List (Range × List Char)}
    {patch : Patch}
    (hranges : Ranges (countedSum Fragment.visible snapshot.fragments) (visibleRanges edits) 0)
    (hsome : snapshot.applyEditInternal edits timestamp = some (snapshot', edit, patch)) :
    ∃ W', W.ExtendsBy (Operation.edit edit) W' ∧ W'.Valid ∧ edit.timestamp = timestamp ∧
      W'.Consistent { snapshot' with version := snapshot'.version.observe timestamp }
        (applied ++ [Operation.edit edit]) := by
  -- The bytes of the new edit are not yet in the world, so they are added by hand.
  have htexts : snapshot.TextsValid fun byte =>
      if byte.1 = timestamp then ((normalizedTexts edits).flatMap utf8).getD byte.2 0
      else W.byteAt byte := by
    refine h.texts.congr fun a ha => ?_
    rw [if_neg (hfresh.not_mem_sequence h.log hW (h.mem_observedBytes ha).1)]
  obtain ⟨htimestamp, hversion, hnewText, hlength, hlt, hfull, hrewritten⟩ :=
    applyEditInternal_spec htexts hranges (bytesMatch_getD _ _ fun i => by rw [if_pos rfl]) hsome
  subst htimestamp
  obtain ⟨parent, hparents, hparentEq⟩ := exists_runParents W.parent
    (fun range : RangeInsert Atom => anchorBefore (W.observedBytes edit.version) range.start)
    (fun range => range.inserted.map Atom.id) edit.inserts
    (by rw [← map_flatMap]; exact nodup_inserts edit)
  rw [← map_flatMap] at hparentEq
  have hnew : W.NewEdit snapshot applied edit parent :=
    ⟨⟨hW, h, hfresh, hversion⟩, hlength, hlt, hfull, hparents, hparentEq⟩
  have hbyteAt : (W.addEdit edit parent).byteAt = fun byte =>
      if byte.1 = edit.timestamp then ((normalizedTexts edits).flatMap utf8).getD byte.2 0
      else W.byteAt byte := by
    funext byte
    split
    · rename_i heq
      rw [byteAt, heq, hnew.extendsBy.insertedText_new, hnewText]
    · rename_i hne
      exact hnew.extendsBy.byteAt_eq hne
  refine ⟨_, hnew.extendsBy, hnew.valid_addEdit, rfl, ?_⟩
  rw [hrewritten.version]
  refine (hnew.applicable hnew.extendsBy hnew.valid_addEdit).applyEdit ?_
  rw [hbyteAt, ← hnew.result_eq]
  exact hrewritten

end Edit

end World

end XorEditor.Text
