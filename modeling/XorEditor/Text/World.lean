import XorEditor.Text.LocalEdit
import XorEditor.Text.UndoEffect

/-!
# What all replicas together know

A `World` collects all operations that the replicas of a buffer have produced so far, and
what these operations mean independently of any replica:

* one sequence of all inserted bytes, which every replica holds a part of;
* for every byte its parent, the byte it was inserted behind;
* for every edit the bytes that it deletes.

A version picks the operations it has observed, hence the bytes that exist at it and the
ones among them that are visible.  `World.Valid` states how the operations, the sequence
and the deletions fit together.  `World.ExtendsBy` is the way a world grows: a new
operation never changes what an earlier version says.

* `World`: the operations with their sequence
* `Valid`, `ExtendsBy`: well-formed worlds and their growth
-/

namespace XorEditor.Text

open Clock Lib RangeEdit List

variable {byte : ByteId} {edit : EditOperation} {t : Lamport}
/-- The timestamp of the insertion of the base text. -/
def baseTimestamp : Lamport := Lamport.new replicaIdLocal

/-- The edits of an edit operation: the full ranges and their new texts. -/
def EditOperation.edits (self : EditOperation) : List (Range × List Char) :=
  self.ranges.zip self.newText

/-- The ranges of an edit operation with the atoms inserted at each of them. -/
def EditOperation.inserts (self : EditOperation) : List (RangeInsert Atom) :=
  rangeInserts self.timestamp 0 self.edits

/-- All operations of the replicas of a buffer, and what they mean. -/
structure World where
  base : Rope
  operations : List Operation
  sequence : List ByteId
  parent : ByteId → Option ByteId
  deletes : Lamport → ByteId → Prop

namespace World

section Definitions

variable (W : World)

/-- The text inserted under a timestamp. -/
def insertedText (timestamp : Lamport) : Rope :=
  match W.operations.find? fun op => decide (op.timestamp = timestamp) with
  | some (Operation.edit edit) => edit.newText.flatMap utf8
  | some (Operation.undo _) => []
  | none => if timestamp = baseTimestamp then W.base else []

/-- The inserted bytes. -/
def byteAt (byte : ByteId) : UInt8 := (W.insertedText byte.1).getD byte.2 0

/-- The version of a new buffer. -/
def baseVersion : Global :=
  if W.base.isEmpty then Global.new else Global.new.observe baseTimestamp

variable (version : Global)

/-- The bytes that exist at a version, in order. -/
def observedBytes : List ByteId :=
  W.sequence.filter fun byte => version.observed byte.1

/-- The counts that the undo operations observed by a version give to an edit. -/
def undoCounts (editId : Lamport) : List Nat :=
  W.operations.flatMap fun
    | Operation.edit _ => []
    | Operation.undo undo =>
      if version.observed undo.timestamp then
        (undo.counts.filter fun count => decide (count.1 = editId)).map Prod.snd
      else
        []

/-- Whether an edit is undone at a version. -/
def UndoneAt (editId : Lamport) : Prop :=
  (W.undoCounts version editId).foldl max 0 % 2 = 1

/-- Whether a byte is visible at a version: its insertion is observed and not undone, and
every observed deletion of it is undone. -/
structure VisibleAt (version : Global) (byte : ByteId) : Prop where
  observed : version.observed byte.1 = true
  inserted : ¬ W.UndoneAt version byte.1
  deleted : ∀ edit, Operation.edit edit ∈ W.operations →
    version.observed edit.timestamp = true → W.deletes edit.timestamp byte →
    W.UndoneAt version edit.timestamp

/-- Every component of a version is the timestamp of an operation, or comes from the base
text. -/
def Witnessed : Prop :=
  ∀ r, version.get r = W.baseVersion.get r ∨
    ∃ op ∈ W.operations, op.timestamp = { value := version.get r, replicaId := r }

/-- A version contains with every operation what the operation had observed. -/
def Closed : Prop :=
  ∀ op ∈ W.operations, version.observed op.timestamp = true → version.observedAll op.version = true

/-- How an edit operation fits into the world. -/
structure EditValid (edit : EditOperation) : Prop where
  length_eq : edit.ranges.length = edit.newText.length
  inserted_lt : insertedLen edit.edits < 2 ^ 32
  ranges : Ranges (W.observedBytes edit.version).length edit.inserts 0
  parents : ∀ range ∈ edit.inserts, RunParents W.parent
    (anchorBefore (W.observedBytes edit.version) range.start)
    (range.inserted.map Atom.id)
  deletes_iff : ∀ byte, W.deletes edit.timestamp byte ↔
    byte ∈ inRanges edit.inserts (W.observedBytes edit.version) ∧ W.VisibleAt edit.version byte

/-- How an undo operation fits into the world. -/
structure UndoValid (undo : UndoOperation) : Prop where
  nodup : (undo.counts.map Prod.fst).Nodup
  edits : ∀ editId ∈ undo.counts.map Prod.fst, undo.version.observed editId = true ∧
    ∃ edit, Operation.edit edit ∈ W.operations ∧ edit.timestamp = editId

/-- The bytes of the base text. -/
def baseBytes : List ByteId := (List.range W.base.length).map fun offset => (baseTimestamp, offset)

/-- The operations, the sequence of bytes and the deletions fit together. -/
structure Valid : Prop where
  timestamps : (W.operations.map Operation.timestamp).Nodup
  value_ge : ∀ op ∈ W.operations, 2 ≤ op.timestamp.value
  value_lt : ∀ op ∈ W.operations, op.timestamp.value + 1 < 2 ^ 32
  version_lt : ∀ op ∈ W.operations, ∀ r, op.version.get r < op.timestamp.value
  version_base : ∀ op ∈ W.operations, op.version.observedAll W.baseVersion = true
  version_closed : ∀ op ∈ W.operations, W.Closed op.version
  version_witnessed : ∀ op ∈ W.operations, W.Witnessed op.version
  version_own : ∀ op ∈ W.operations, ∀ op' ∈ W.operations, op.replicaId = op'.replicaId →
    op.timestamp < op'.timestamp → op'.version.observed op.timestamp = true
  mem_sequence : ∀ byte, byte ∈ W.sequence ↔ byte.2 < (W.insertedText byte.1).length
  ordered : W.sequence.Pairwise fun x y => x.1 = y.1 → x.2 < y.2
  wf : Rga.Wf W.parent ByteId.priority W.sequence
  base_parents : RunParents W.parent none W.baseBytes
  edit_valid : ∀ edit, Operation.edit edit ∈ W.operations → W.EditValid edit
  undo_valid : ∀ undo, Operation.undo undo ∈ W.operations → W.UndoValid undo

end Definitions

section Inserted

theorem map_id_insertedAtoms (timestamp : Lamport) (offset len : Nat) :
    (insertedAtoms timestamp offset len).map Atom.id =
      (List.range len).map fun i => (timestamp, offset + i) := by
  simp only [insertedAtoms, map_map]
  rfl

theorem map_id_rangeInserts (timestamp : Lamport) (offset : Nat)
    (edits : List (Range × List Char)) :
    (insertedBy (rangeInserts timestamp offset edits)).map Atom.id =
      (List.range (insertedLen edits)).map fun i => (timestamp, offset + i) := by
  induction edits generalizing offset with
  | nil => rfl
  | cons edit edits ih =>
    obtain ⟨range, text⟩ := edit
    have hlen : insertedLen ((range, text) :: edits) =
        (utf8 text).length + insertedLen edits := by simp [insertedLen]
    simp only [insertedBy, rangeInserts, flatMap_cons, map_append] at ih ⊢
    rw [ih, map_id_insertedAtoms, hlen, range_add, map_append, map_map]
    simp [Function.comp_def, Nat.add_assoc]

/-- The bytes that an edit inserts. -/
theorem map_id_inserts (edit : EditOperation) : (insertedBy edit.inserts).map Atom.id =
      (List.range (insertedLen edit.edits)).map fun i => (edit.timestamp, i) := by
  have := map_id_rangeInserts edit.timestamp 0 edit.edits
  simpa [EditOperation.inserts] using this

theorem timestamp_of_mem_inserts (hbyte : byte ∈ (insertedBy edit.inserts).map Atom.id) :
    byte.1 = edit.timestamp := by
  rw [map_id_inserts] at hbyte
  obtain ⟨i, -, rfl⟩ := mem_map.mp hbyte
  rfl

theorem nodup_bytes (timestamp : Lamport) (len : Nat) :
    ((List.range len).map fun offset => (timestamp, offset)).Nodup :=
  nodup_range.map fun _ _ heq => (Prod.mk.inj heq).2

theorem nodup_inserts (edit : EditOperation) : ((insertedBy edit.inserts).map Atom.id).Nodup := by
  rw [map_id_inserts]
  exact nodup_bytes _ _

/-- Within one insertion the priorities decrease. -/
theorem pairwise_inserts (edit : EditOperation) : ((insertedBy edit.inserts).map Atom.id).Pairwise
      fun x y => y.priority < x.priority := by
  rw [map_id_inserts, pairwise_map]
  refine pairwise_lt_range.imp fun {i j} hij => ?_
  rw [ByteId.priority_lt_iff]
  exact Or.inr ⟨rfl, hij⟩

theorem length_flatMap_utf8 (hlength : edit.ranges.length = edit.newText.length) :
    (edit.newText.flatMap utf8).length = insertedLen edit.edits := by
  have hmap : edit.edits.map Prod.snd = edit.newText := map_snd_zip (Nat.le_of_eq hlength.symm)
  rw [length_flatMap, insertedLen, ← hmap, map_map]
  rfl

end Inserted

section Lookup

variable {W : World}

variable {op : Operation}

variable (h : W.Valid)
include h

/-- An operation is determined by its timestamp. -/
theorem Valid.eq_of_timestamp {op' : Operation} (hop : op ∈ W.operations)
    (hop' : op' ∈ W.operations) (heq : op.timestamp = op'.timestamp) : op = op' :=
  inj_on_of_nodup_map h.timestamps hop hop' heq

theorem Valid.find_operation (hop : op ∈ W.operations) :
    (W.operations.find? fun op' => decide (op'.timestamp = op.timestamp)) = some op := by
  cases hfind : W.operations.find? fun op' => decide (op'.timestamp = op.timestamp) with
  | none =>
    rw [find?_eq_none] at hfind
    exact absurd (decide_eq_true rfl) (hfind op hop)
  | some op' =>
    have heq : op'.timestamp = op.timestamp := by simpa using find?_some hfind
    rw [h.eq_of_timestamp (mem_of_find?_eq_some hfind) hop heq]

theorem Valid.insertedText_edit (hedit : Operation.edit edit ∈ W.operations) :
    W.insertedText edit.timestamp = edit.newText.flatMap utf8 := by
  have hfind : (W.operations.find? fun op => decide (op.timestamp = edit.timestamp)) =
      some (Operation.edit edit) := h.find_operation hedit
  simp only [insertedText, hfind]

theorem Valid.length_insertedText (hedit : Operation.edit edit ∈ W.operations) :
    (W.insertedText edit.timestamp).length = insertedLen edit.edits := by
  rw [h.insertedText_edit hedit, length_flatMap_utf8 (h.edit_valid edit hedit).length_eq]

/-- The base text is not an operation. -/
theorem Valid.timestamp_ne_base (hop : op ∈ W.operations) : op.timestamp ≠ baseTimestamp := by
  intro heq
  have := h.value_ge op hop
  rw [heq] at this
  simp [baseTimestamp, Lamport.new] at this

/-- A byte belongs to the base text or to an edit. -/
theorem Valid.byte_cases (hbyte : byte ∈ W.sequence) :
    byte ∈ W.baseBytes ∨ ∃ edit, Operation.edit edit ∈ W.operations ∧
      edit.timestamp = byte.1 ∧ byte ∈ (insertedBy edit.inserts).map Atom.id := by
  have hlt := (h.mem_sequence byte).mp hbyte
  cases hfind : W.operations.find? fun op => decide (op.timestamp = byte.1) with
  | none =>
    simp only [insertedText, hfind] at hlt
    split at hlt
    · rename_i hbase
      refine Or.inl (mem_map.mpr ⟨byte.2, mem_range.mpr hlt, ?_⟩)
      rw [← hbase]
    · simp at hlt
  | some op =>
    have hop := mem_of_find?_eq_some hfind
    have htimestamp : op.timestamp = byte.1 := by simpa using find?_some hfind
    cases op with
    | edit edit =>
      simp only [Operation.timestamp] at htimestamp
      rw [← htimestamp, h.length_insertedText hop] at hlt
      refine Or.inr ⟨edit, hop, htimestamp, ?_⟩
      rw [map_id_inserts]
      exact mem_map.mpr ⟨byte.2, mem_range.mpr hlt, by rw [htimestamp]⟩
    | undo undo => simp [insertedText, hfind] at hlt

/-- The bytes of an edit are in the sequence. -/
theorem Valid.mem_of_mem_inserts (hedit : Operation.edit edit ∈ W.operations)
    (hbyte : byte ∈ (insertedBy edit.inserts).map Atom.id) : byte ∈ W.sequence := by
  rw [map_id_inserts] at hbyte
  obtain ⟨i, hi, rfl⟩ := mem_map.mp hbyte
  refine (h.mem_sequence _).mpr ?_
  rw [h.length_insertedText hedit]
  exact mem_range.mp hi

end Lookup

section Versions

variable {W : World}

variable {v : Global}

theorem observed_of_observedAll {v' : Global} (h : v.observedAll v' = true)
    (ht : v'.observed t = true) : v.observed t = true := by
  rw [Global.observedAll_iff] at h
  rw [Global.observed_iff] at ht ⊢
  exact Nat.le_trans ht (h t.replicaId)

/-- What a version has observed lies before what its components are below. -/
theorem not_lt_of_observed {t' : Lamport} (hlt : ∀ r, v.get r < t.value)
    (ht' : v.observed t' = true) : ¬ t < t' := by
  rw [Global.observed_iff] at ht'
  have := hlt t'.replicaId
  rw [Lamport.lt_iff]
  omega

theorem Valid.not_observed_self (h : W.Valid) {op : Operation} (hop : op ∈ W.operations) :
    op.version.observed op.timestamp = false := by
  rw [← Bool.not_eq_true, Global.observed_iff]
  have := h.version_lt op hop op.timestamp.replicaId
  omega

/-- The base text is observed by every version that contains the base version. -/
theorem observed_base (hbase : v.observedAll W.baseVersion = true) (hbyte : byte ∈ W.baseBytes) :
    v.observed byte.1 = true := by
  obtain ⟨offset, hoffset, rfl⟩ := mem_map.mp hbyte
  refine observed_of_observedAll hbase ?_
  have hne : W.base.isEmpty = false := by
    cases hb : W.base with
    | nil => simp [hb] at hoffset
    | cons _ _ => rfl
  rw [baseVersion, hne, Global.observed_iff]
  simp [baseTimestamp]

/-- The bytes that exist at a closed version are closed under parents. -/
theorem Valid.parent_observed (h : W.Valid) (hbase : v.observedAll W.baseVersion = true)
    (hclosed : W.Closed v) {p : ByteId} (hbyte : byte ∈ W.sequence)
    (hobserved : v.observed byte.1 = true) (hp : W.parent byte = some p) :
    v.observed p.1 = true := by
  rcases h.byte_cases hbyte with hbyte | ⟨edit, hedit, htimestamp, hbyte⟩
  · rcases h.base_parents.parent_mem hbyte hp with hnone | hmem
    · cases hnone
    · exact observed_base hbase hmem
  · have hversion : v.observedAll edit.version = true :=
      hclosed (Operation.edit edit) hedit (by rwa [Operation.timestamp, htimestamp])
    obtain ⟨a, ha, rfl⟩ := mem_map.mp hbyte
    obtain ⟨range, hrange, ha⟩ := mem_flatMap.mp ha
    have hparents := (h.edit_valid edit hedit).parents range hrange
    rcases hparents.parent_mem (mem_map_of_mem ha) hp with hanchor | hmem
    · have hmem := mem_of_anchorBefore hanchor
      exact observed_of_observedAll hversion (mem_filter.mp hmem).2
    · obtain ⟨b, hb, rfl⟩ := mem_map.mp hmem
      rw [timestamp_of_mem_inserts
        (mem_map_of_mem (mem_flatMap.mpr ⟨range, hrange, hb⟩)), htimestamp]
      exact hobserved

end Versions

/-- The way a world grows by a new operation. -/
structure ExtendsBy (W : World) (op : Operation) (W' : World) : Prop where
  base : W'.base = W.base
  operations : W'.operations = W.operations ++ [op]
  timestamp_ne : ∀ op' ∈ W.operations, op'.timestamp ≠ op.timestamp
  fresh : ∀ version, W.Witnessed version → version.observed op.timestamp = false
  sequence : W'.sequence.filter (fun byte => decide (byte.1 ≠ op.timestamp)) = W.sequence
  parent : ∀ byte, byte.1 ≠ op.timestamp → W'.parent byte = W.parent byte
  deletes : ∀ t, t ≠ op.timestamp → ∀ byte, W'.deletes t byte ↔ W.deletes t byte

namespace ExtendsBy

variable {W W' : World} {op : Operation} {v : Global}

section

variable (h : W.ExtendsBy op W')
include h

theorem baseVersion_eq : W'.baseVersion = W.baseVersion := by
  rw [baseVersion, baseVersion, h.base]

theorem baseBytes_eq : W'.baseBytes = W.baseBytes := by
  rw [baseBytes, baseBytes, h.base]

theorem mem_operations {op' : Operation} : op' ∈ W'.operations ↔ op' ∈ W.operations ∨ op' = op := by
  rw [h.operations, mem_append, mem_singleton]

theorem forall_operations {P : Operation → Prop} (hold : ∀ op' ∈ W.operations, P op') (hop : P op) :
    ∀ op' ∈ W'.operations, P op' := by
  rw [h.operations, forall_mem_append]
  exact ⟨hold, by simpa using hop⟩

theorem find_new :
    (W'.operations.find? fun op' => decide (op'.timestamp = op.timestamp)) = some op := by
  rw [h.operations, find?_append, find?_eq_none.mpr]
  · simp
  · exact fun op' hop' heq => h.timestamp_ne op' hop' (of_decide_eq_true heq)

end

theorem insertedText_new (h : W.ExtendsBy (Operation.edit edit) W') :
    W'.insertedText edit.timestamp = edit.newText.flatMap utf8 := by
  have hfind : (W'.operations.find? fun op => decide (op.timestamp = edit.timestamp)) =
      some (Operation.edit edit) := h.find_new
  simp only [insertedText, hfind]

section ExtendsBy

variable (h : W.ExtendsBy op W')
include h

theorem insertedText_eq (ht : t ≠ op.timestamp) : W'.insertedText t = W.insertedText t := by
  have hfind : (W'.operations.find? fun op' => decide (op'.timestamp = t)) =
      W.operations.find? fun op' => decide (op'.timestamp = t) := by
    rw [h.operations, find?_append]
    simp [Ne.symm ht]
  rw [insertedText, insertedText, hfind, h.base]

theorem byteAt_eq (hbyte : byte.1 ≠ op.timestamp) : W'.byteAt byte = W.byteAt byte := by
  rw [byteAt, byteAt, h.insertedText_eq hbyte]

theorem ne_of_mem_sequence (hbyte : byte ∈ W.sequence) : byte.1 ≠ op.timestamp := by
  rw [← h.sequence] at hbyte
  exact of_decide_eq_true (mem_filter.mp hbyte).2

section Unobserved

variable (hv : v.observed op.timestamp = false)
include hv

theorem observedBytes_eq : W'.observedBytes v = W.observedBytes v := by
  rw [observedBytes, observedBytes, ← h.sequence, filter_filter]
  apply filter_congr
  intro byte _
  by_cases hbyte : byte.1 = op.timestamp
  · simp [hbyte, hv]
  · simp [hbyte]

theorem undoCounts_eq (editId : Lamport) : W'.undoCounts v editId = W.undoCounts v editId := by
  rw [undoCounts, undoCounts, h.operations, flatMap_append]
  cases op with
  | edit edit => simp
  | undo undo =>
    simp only [Operation.timestamp] at hv
    simp [hv]

theorem undoneAt_iff (editId : Lamport) : W'.UndoneAt v editId ↔ W.UndoneAt v editId := by
  rw [UndoneAt, UndoneAt, h.undoCounts_eq hv]

theorem visibleAt_iff (byte : ByteId) : W'.VisibleAt v byte ↔ W.VisibleAt v byte := by
  constructor
  · rintro ⟨hobserved, hinserted, hdeleted⟩
    refine ⟨hobserved, by rwa [h.undoneAt_iff hv] at hinserted, ?_⟩
    intro edit hedit hobs hdeletes
    rw [← h.undoneAt_iff hv]
    refine hdeleted edit (h.mem_operations.mpr (Or.inl hedit)) hobs ?_
    rwa [h.deletes edit.timestamp (h.timestamp_ne _ hedit)]
  · rintro ⟨hobserved, hinserted, hdeleted⟩
    refine ⟨hobserved, by rwa [h.undoneAt_iff hv], ?_⟩
    intro edit hedit hobs hdeletes
    rcases h.mem_operations.mp hedit with hold | heq
    · rw [h.undoneAt_iff hv]
      refine hdeleted edit hold hobs ?_
      rwa [← h.deletes edit.timestamp (h.timestamp_ne _ hold)]
    · rw [← heq] at hv
      exact absurd hobs (by simpa [Operation.timestamp] using hv)

end Unobserved

theorem witnessed (hv : W.Witnessed v) : W'.Witnessed v := by
  intro r
  rcases hv r with hbase | ⟨op', hop', htimestamp⟩
  · exact Or.inl (hbase.trans (by rw [h.baseVersion_eq]))
  · exact Or.inr ⟨op', h.mem_operations.mpr (Or.inl hop'), htimestamp⟩

theorem closed (hclosed : W.Closed v) (hv : v.observed op.timestamp = false) : W'.Closed v := by
  intro op' hop' hobserved
  rcases h.mem_operations.mp hop' with hold | rfl
  · exact hclosed op' hold hobserved
  · rw [hv] at hobserved
    exact Bool.noConfusion hobserved

/-- Earlier edits keep their meaning. -/
theorem editValid (hW : W.Valid) (hedit : Operation.edit edit ∈ W.operations) :
    W'.EditValid edit := by
  have hvalid := hW.edit_valid edit hedit
  have hne : edit.timestamp ≠ op.timestamp := h.timestamp_ne _ hedit
  have hv : edit.version.observed op.timestamp = false := h.fresh _ (hW.version_witnessed _ hedit)
  have hbytes := h.observedBytes_eq hv
  refine ⟨hvalid.length_eq, hvalid.inserted_lt, hbytes ▸ hvalid.ranges, ?_, ?_⟩
  · intro range hrange
    rw [hbytes]
    refine (hvalid.parents range hrange).congr fun byte hbyte => h.parent byte ?_
    obtain ⟨a, ha, rfl⟩ := mem_map.mp hbyte
    rw [timestamp_of_mem_inserts (mem_map_of_mem (mem_flatMap.mpr ⟨range, hrange, ha⟩))]
    exact hne
  · intro byte
    rw [h.deletes _ hne, h.visibleAt_iff hv, hbytes]
    exact hvalid.deletes_iff byte

/-- What a new operation has to satisfy. -/
structure NewValid (W : World) (op : Operation) (W' : World) : Prop where
  value_ge : 2 ≤ op.timestamp.value
  value_lt : op.timestamp.value + 1 < 2 ^ 32
  version_lt : ∀ r, op.version.get r < op.timestamp.value
  version_base : op.version.observedAll W.baseVersion = true
  version_closed : W.Closed op.version
  version_witnessed : W.Witnessed op.version
  version_own : ∀ op' ∈ W.operations, op'.replicaId = op.replicaId →
    op.version.observed op'.timestamp = true
  mem_sequence : ∀ offset, (op.timestamp, offset) ∈ W'.sequence ↔
    offset < (W'.insertedText op.timestamp).length
  ordered : (W'.sequence.filter fun byte => decide (byte.1 = op.timestamp)).Pairwise
    fun x y => x.2 < y.2
  wf : Rga.Wf W'.parent ByteId.priority W'.sequence
  edit_valid : ∀ edit, op = Operation.edit edit → W'.EditValid edit
  undo_valid : ∀ undo, op = Operation.undo undo → W'.UndoValid undo

theorem valid (hW : W.Valid) (hnew : NewValid W op W') : W'.Valid := by
  have hcases : ∀ {op'}, op' ∈ W'.operations → op' ∈ W.operations ∨ op' = op :=
    fun hop' => h.mem_operations.mp hop'
  have hself : op.version.observed op.timestamp = false := by
    rw [← Bool.not_eq_true, Global.observed_iff]
    have := hnew.version_lt op.timestamp.replicaId
    omega
  have hold : ∀ byte : ByteId, byte.1 ≠ op.timestamp →
      (byte ∈ W'.sequence ↔ byte ∈ W.sequence) := by
    intro byte hbyte
    rw [← h.sequence, mem_filter]
    simp [hbyte]
  constructor
  case timestamps =>
    rw [h.operations, map_append, nodup_append]
    refine ⟨hW.timestamps, by simp, ?_⟩
    intro t ht t' ht' heq
    obtain ⟨op', hop', rfl⟩ := mem_map.mp ht
    simp only [map_cons, map_nil, mem_singleton] at ht'
    exact h.timestamp_ne op' hop' (heq.trans ht')
  case value_ge => exact h.forall_operations hW.value_ge hnew.value_ge
  case value_lt => exact h.forall_operations hW.value_lt hnew.value_lt
  case version_lt => exact h.forall_operations hW.version_lt hnew.version_lt
  case version_base =>
    rw [h.baseVersion_eq]
    exact h.forall_operations hW.version_base hnew.version_base
  case version_closed =>
    exact h.forall_operations (fun op' hop' => h.closed (hW.version_closed op' hop')
      (h.fresh _ (hW.version_witnessed op' hop'))) (h.closed hnew.version_closed hself)
  case version_witnessed =>
    exact h.forall_operations (fun op' hop' => h.witnessed (hW.version_witnessed op' hop'))
      (h.witnessed hnew.version_witnessed)
  case version_own =>
    intro op₁ hop₁ op₂ hop₂ hreplica hlt
    rcases hcases hop₁ with hop₁ | rfl
    · rcases hcases hop₂ with hop₂ | rfl
      · exact hW.version_own op₁ hop₁ op₂ hop₂ hreplica hlt
      · exact hnew.version_own op₁ hop₁ hreplica
    · rcases hcases hop₂ with hop₂ | rfl
      · exact absurd hlt
          (not_lt_of_observed hnew.version_lt (hnew.version_own op₂ hop₂ hreplica.symm))
      · exact absurd hlt (lt_irrefl _)
  case mem_sequence =>
    intro byte
    by_cases hbyte : byte.1 = op.timestamp
    · obtain ⟨t, offset⟩ := byte
      simp only at hbyte
      subst hbyte
      exact hnew.mem_sequence offset
    · rw [hold byte hbyte, h.insertedText_eq hbyte]
      exact hW.mem_sequence byte
  case ordered =>
    rw [pairwise_iff_forall_sublist]
    intro x y hsublist heq
    by_cases hx : x.1 = op.timestamp
    · have hfilter := hsublist.filter fun byte => decide (byte.1 = op.timestamp)
      simp only [filter_cons, hx, heq ▸ hx, decide_true, if_true, filter_nil] at hfilter
      exact pairwise_iff_forall_sublist.mp hnew.ordered hfilter
    · have hy : y.1 ≠ op.timestamp := heq ▸ hx
      have hfilter := hsublist.filter fun byte => decide (byte.1 ≠ op.timestamp)
      rw [h.sequence] at hfilter
      simp only [filter_cons, hx, hy, ne_eq, not_false_eq_true, decide_true, if_true,
        filter_nil] at hfilter
      exact pairwise_iff_forall_sublist.mp hW.ordered hfilter heq
  case wf => exact hnew.wf
  case base_parents =>
    rw [h.baseBytes_eq]
    refine hW.base_parents.congr fun byte hbyte => h.parent byte ?_
    obtain ⟨offset, -, rfl⟩ := mem_map.mp hbyte
    intro heq
    have hge := hnew.value_ge
    rw [← heq] at hge
    simp [baseTimestamp, Lamport.new] at hge
  case edit_valid =>
    intro edit hedit
    rcases hcases hedit with hedit | heq
    · exact h.editValid hW hedit
    · exact hnew.edit_valid edit heq.symm
  case undo_valid =>
    intro undo hundo
    rcases hcases hundo with hundo | heq
    · obtain ⟨hnodup, hedits⟩ := hW.undo_valid undo hundo
      refine ⟨hnodup, fun editId hid => ?_⟩
      obtain ⟨hobserved, edit, hedit, htimestamp⟩ := hedits editId hid
      exact ⟨hobserved, edit, h.mem_operations.mpr (Or.inl hedit), htimestamp⟩
    · exact hnew.undo_valid undo heq.symm

end ExtendsBy

end ExtendsBy

end World

end XorEditor.Text
