import XorEditor.Text.World

/-!
# Buffers that agree with a world

`World.Log` describes the operations a buffer has applied: they are operations of the
world, applied once and in causal order, and the version of the buffer is what they add
up to.  `World.Consistent` says that the fragments of a snapshot are the part of the world
that its log selects.  Two snapshots that are consistent with one world can differ only in
how they split and name their fragments, and in the order of the deletions of a byte.

Consistency is preserved when an operation of the world is applied
(`Consistent.applyEdit`, `Consistent.applyUndo`) and when the world grows
(`Consistent.extend`).

* `World.Log`, `World.Consistent`: the agreement
* `wasVisible_iff`: a past version reads as in the world
-/

namespace XorEditor.Text

variable {editId : Lamport}

open Clock Lib List

/-- A version after further operations. -/
def observeAll (version : Global) (ops : List Operation) : Global :=
  ops.foldl (fun version op => version.observe op.timestamp) version

section ObserveAll

variable {version : Global} {ops : List Operation}

theorem observeAll_concat (version : Global) (ops : List Operation) (op : Operation) :
    observeAll version (ops ++ [op]) = (observeAll version ops).observe op.timestamp := by
  simp [observeAll]

theorem get_observeAll_cases (r : Nat) : (observeAll version ops).get r = version.get r ∨
      ∃ op ∈ ops, op.timestamp = { value := (observeAll version ops).get r, replicaId := r } := by
  induction ops using List.reverseRecOn with
  | nil => exact Or.inl rfl
  | append_singleton ops op ih =>
    have hold : ∀ n, (observeAll version ops).get r = n → n = version.get r ∨
        ∃ op' ∈ ops ++ [op], op'.timestamp = { value := n, replicaId := r } := by
      rintro n rfl
      refine ih.imp_right ?_
      rintro ⟨op', hop', htimestamp⟩
      exact ⟨op', mem_append_left _ hop', htimestamp⟩
    rw [observeAll_concat, Global.get_observe]
    split
    · rename_i hr
      rcases Nat.le_total op.timestamp.value ((observeAll version ops).get r) with hle | hle
      · rw [Nat.max_eq_left hle]
        exact hold _ rfl
      · rw [Nat.max_eq_right hle]
        exact Or.inr ⟨op, by simp, by rw [hr]⟩
    · exact hold _ rfl

/-- The versions that contain another one and some operations are those that contain what
they add up to. -/
theorem observedAll_observeAll_iff {v : Global} : v.observedAll (observeAll version ops) = true ↔
      v.observedAll version = true ∧ ∀ op ∈ ops, v.observed op.timestamp = true := by
  rw [observeAll, ← foldl_map, Global.observedAll_foldl_observe_iff, forall_mem_map]

theorem observed_observeAll {op : Operation} (hop : op ∈ ops) :
    (observeAll version ops).observed op.timestamp = true :=
  (observedAll_observeAll_iff.mp (Global.observedAll_self _)).2 op hop

/-- Only the set of operations matters. -/
theorem observeAll_congr {ops' : List Operation} (h : ∀ op, op ∈ ops ↔ op ∈ ops') :
    observeAll version ops = observeAll version ops' := by
  have hiff (v : Global) : v.observedAll (observeAll version ops) = true ↔
      v.observedAll (observeAll version ops') = true := by
    simp only [observedAll_observeAll_iff, h]
  have hle := Global.observedAll_iff.mp ((hiff _).mpr (Global.observedAll_self _))
  have hge := Global.observedAll_iff.mp ((hiff _).mp (Global.observedAll_self _))
  exact Global.ext_get fun r => Nat.le_antisymm (hle r) (hge r)

end ObserveAll

namespace World

/-- The operations a buffer has applied, in order. -/
structure Log (W : World) (version : Global) (applied : List Operation) : Prop where
  version_eq : version = observeAll W.baseVersion applied
  mem : ∀ op ∈ applied, op ∈ W.operations
  nodup : applied.Nodup
  causal : ∀ before op after, applied = before ++ op :: after → ∀ op' ∈ W.operations,
    op.version.observed op'.timestamp = true → op' ∈ before

namespace Log

variable {W W' : World} {version : Global} {applied : List Operation} {op : Operation}

theorem nil (W : World) : W.Log W.baseVersion [] where
  version_eq := rfl
  mem := by simp
  nodup := nodup_nil
  causal := by simp

theorem mem_of_causal (h : W.Log version applied) (hop : op ∈ applied) {op' : Operation}
    (hop' : op' ∈ W.operations) (hobserved : op.version.observed op'.timestamp = true) :
    op' ∈ applied := by
  obtain ⟨before, after, rfl⟩ := append_of_mem hop
  exact mem_append_left _ (h.causal before op after rfl op' hop' hobserved)

theorem baseVersion_get_le (W : World) (r : Nat) : W.baseVersion.get r ≤ 1 := by
  unfold baseVersion
  split
  · simp
  · rw [Global.get_observe]
    split <;> simp [baseTimestamp, Lamport.new]

theorem witnessed (h : W.Log version applied) : W.Witnessed version := by
  intro r
  rw [h.version_eq]
  refine get_observeAll_cases r |>.imp_right ?_
  rintro ⟨op, hop, htimestamp⟩
  exact ⟨op, h.mem op hop, htimestamp⟩

theorem base (h : W.Log version applied) : version.observedAll W.baseVersion = true := by
  rw [h.version_eq]
  exact (observedAll_observeAll_iff.mp (Global.observedAll_self _)).1

section Log

variable (hW : W.Valid) (h : W.Log version applied)
include hW h

/-- The version of a buffer has observed exactly the operations applied. -/
theorem observed_iff (hop : op ∈ W.operations) :
    version.observed op.timestamp = true ↔ op ∈ applied := by
  constructor
  · intro hobserved
    have hcases := @get_observeAll_cases W.baseVersion applied op.timestamp.replicaId
    rw [← h.version_eq] at hcases
    rw [Global.observed_iff] at hobserved
    rcases hcases with heq | ⟨op', hop', htimestamp⟩
    · have := hW.value_ge op hop
      have := baseVersion_get_le W op.timestamp.replicaId
      omega
    · have hreplica : op.replicaId = op'.replicaId := by
        simp only [Operation.replicaId, htimestamp]
      have hle : op.timestamp ≤ op'.timestamp := by
        rw [Lamport.le_iff, htimestamp]
        simp only
        omega
      rcases lt_or_eq_of_le hle with hlt | heq
      · exact h.mem_of_causal hop' hop (hW.version_own op hop op' (h.mem op' hop') hreplica hlt)
      · rwa [hW.eq_of_timestamp hop (h.mem op' hop') heq]
  · intro happlied
    rw [h.version_eq]
    exact observed_observeAll happlied

theorem closed : W.Closed version := by
  intro op hop hobserved
  rw [h.observed_iff hW hop] at hobserved
  rw [Global.observedAll_iff]
  intro r
  rcases hW.version_witnessed op hop r with heq | ⟨op', hop', htimestamp⟩
  · rw [heq]
    exact Global.observedAll_iff.mp h.base r
  · have hmem : op' ∈ applied := by
      refine h.mem_of_causal hobserved hop' ?_
      rw [htimestamp, Global.observed_iff]
    have hversion := (h.observed_iff hW hop').mpr hmem
    rwa [htimestamp, Global.observed_iff] at hversion

/-- Applying an operation whose causal predecessors are applied. -/
theorem append (hop : op ∈ W.operations) (hnew : op ∉ applied)
    (hversion : version.observedAll op.version = true) :
    W.Log (version.observe op.timestamp) (applied ++ [op]) where
  version_eq := by rw [observeAll_concat, ← h.version_eq]
  mem := forall_mem_append.mpr ⟨h.mem, by simpa using hop⟩
  nodup := concat_eq_append ▸ h.nodup.concat hnew
  causal := by
    intro before op₁ after hsplit op' hop' hobserved
    rcases eq_nil_or_concat after with rfl | ⟨after, last, rfl⟩
    · obtain ⟨rfl, hlast⟩ := append_inj' hsplit rfl
      obtain rfl := List.cons.inj hlast |>.1
      exact (h.observed_iff hW hop').mp (observed_of_observedAll hversion hobserved)
    · rw [concat_eq_append, ← cons_append, ← append_assoc] at hsplit
      obtain ⟨rfl, -⟩ := append_inj' hsplit rfl
      exact h.causal before op₁ after rfl op' hop' hobserved

/-- The world may grow. -/
theorem extend (hext : W.ExtendsBy op W') : W'.Log version applied where
  version_eq := by rw [hext.baseVersion_eq, ← h.version_eq]
  mem := fun op' hop' => hext.mem_operations.mpr (Or.inl (h.mem op' hop'))
  nodup := h.nodup
  causal := by
    intro before op₁ after hsplit op' hop' hobserved
    rcases hext.mem_operations.mp hop' with hop' | rfl
    · exact h.causal before op₁ after hsplit op' hop' hobserved
    · have hmem : op₁ ∈ applied := by simp [hsplit]
      have hnot := hext.fresh _ (hW.version_witnessed op₁ (h.mem op₁ hmem))
      exact absurd (hnot.symm.trans hobserved) Bool.false_ne_true

end Log

variable (h : W.Log version applied)
include h

theorem not_observed (hext : W.ExtendsBy op W') :
    version.observed op.timestamp = false := hext.fresh _ h.witnessed

/-- A byte of the base text exists in every buffer, a byte of an edit in those that have
applied it. -/
theorem observed_byte_iff (hW : W.Valid) {byte : ByteId} (hbyte : byte ∈ W.sequence) :
    version.observed byte.1 = true ↔ byte ∈ W.baseBytes ∨
      ∃ edit, Operation.edit edit ∈ applied ∧ edit.timestamp = byte.1 := by
  constructor
  · intro hobserved
    refine (hW.byte_cases hbyte).imp_right ?_
    rintro ⟨edit, hedit, htimestamp, -⟩
    refine ⟨edit, (h.observed_iff hW hedit).mp ?_, htimestamp⟩
    rwa [Operation.timestamp, htimestamp]
  · rintro (hbase | ⟨edit, hedit, htimestamp⟩)
    · exact observed_base h.base hbase
    · rw [← htimestamp]
      exact (h.observed_iff hW (h.mem _ hedit)).mpr hedit

/-- The bytes that appear with an operation are the ones it inserts. -/
theorem observe_byte (hW : W.Valid) (h' : W.Log (version.observe op.timestamp) (applied ++ [op]))
    {byte : ByteId} (hbyte : byte ∈ W.sequence) :
    (version.observe op.timestamp).observed byte.1 = true ↔
      version.observed byte.1 = true ∨ byte.1 = op.timestamp := by
  constructor
  · intro hobserved
    rw [h'.observed_byte_iff hW hbyte] at hobserved
    rw [h.observed_byte_iff hW hbyte]
    rcases hobserved with hbase | ⟨edit, hedit, htimestamp⟩
    · exact Or.inl (Or.inl hbase)
    · rcases mem_append.mp hedit with hedit | hedit
      · exact Or.inl (Or.inr ⟨edit, hedit, htimestamp⟩)
      · rw [← mem_singleton.mp hedit]
        exact Or.inr htimestamp.symm
  · rintro (hobserved | heq)
    · exact observed_of_observedAll (Global.observe_covers _ _).1 hobserved
    · exact heq ▸ (Global.observe_covers _ _).2

end Log

end World

section UndoMap

theorem foldl_max_le_iff {counts : List Nat} {first n : Nat} :
    counts.foldl max first ≤ n ↔ first ≤ n ∧ ∀ count ∈ counts, count ≤ n := by
  induction counts generalizing first with
  | nil => simp
  | cons count counts ih =>
    rw [foldl_cons, ih, Nat.max_le, forall_mem_cons, and_assoc]

/-- A maximum depends only on the members. -/
theorem foldl_max_congr {counts counts' : List Nat} (h : ∀ n, n ∈ counts ↔ n ∈ counts') :
    counts.foldl max 0 = counts'.foldl max 0 := by
  refine eq_of_forall_ge_iff fun n => ?_
  simp only [foldl_max_le_iff, h]

namespace UndoMap

variable {map : UndoMap}

/-- The entries of one edit. -/
theorem mem_entriesOf (hordered : KeyedList.Ordered UndoMapEntry.key map) (editId : Lamport)
    (entry : UndoMapEntry) : entry ∈ map.entriesOf editId ↔ entry ∈ map ∧ entry.editId = editId :=
  KeyedList.mem_group hordered (toLex (editId, Lamport.MIN)) Prod.Lex.monotone_fst_ofLex
    (fun _ h => Prod.Lex.toLex_mono ⟨h.ge, Lamport.min_le _⟩) entry

/-- The counts of an edit among the undos a version has observed. -/
def countsAt (map : UndoMap) (editId : Lamport) (version : Global) : List Nat :=
  ((map.entriesOf editId).filter fun entry => version.observed entry.undoId).map
    UndoMapEntry.undoCount

theorem wasUndone_eq (map : UndoMap) (editId : Lamport) (version : Global) :
    map.wasUndone editId version = decide ((map.countsAt editId version).foldl max 0 % 2 = 1) := by
  rw [wasUndone, countsAt, foldl_map, foldl_filter]

theorem isUndone_eq (map : UndoMap) (editId : Lamport) : map.isUndone editId =
      decide (((map.entriesOf editId).map UndoMapEntry.undoCount).foldl max 0 % 2 = 1) := by
  rw [isUndone, undoCount, foldl_map]

/-- Whether an edit is undone depends only on its entries. -/
theorem isUndone_congr {map' : UndoMap} (hordered : KeyedList.Ordered UndoMapEntry.key map)
    (hordered' : KeyedList.Ordered UndoMapEntry.key map')
    (h : ∀ entry : UndoMapEntry, entry.editId = editId → (entry ∈ map ↔ entry ∈ map')) :
    map.isUndone editId = map'.isUndone editId := by
  have hcounts : ((map.entriesOf editId).map UndoMapEntry.undoCount).foldl max 0 =
      ((map'.entriesOf editId).map UndoMapEntry.undoCount).foldl max 0 := by
    refine foldl_max_congr fun n => ?_
    simp only [mem_map, mem_entriesOf hordered, mem_entriesOf hordered']
    exact exists_congr fun entry => and_congr_left fun _ => and_congr_left fun hedit =>
      h entry hedit
  rw [isUndone_eq, isUndone_eq, hcounts]

/-- An edit without entries is not undone. -/
theorem isUndone_of_forall_ne (hordered : KeyedList.Ordered UndoMapEntry.key map)
    (h : ∀ entry ∈ map, entry.editId ≠ editId) : map.isUndone editId = false := by
  have hnil : map.entriesOf editId = [] := by
    refine eq_nil_iff_forall_not_mem.mpr fun entry hentry => ?_
    obtain ⟨hmem, hedit⟩ := (mem_entriesOf hordered editId entry).mp hentry
    exact h entry hmem hedit
  simp [isUndone, undoCount, hnil]

end UndoMap

end UndoMap

namespace World

/-- A snapshot holds the part of the world that its log selects. -/
structure Consistent (W : World) (snapshot : BufferSnapshot) (applied : List Operation) :
    Prop where
  log : W.Log snapshot.version applied
  ids : (atomsOf snapshot.fragments).map Atom.id = W.observedBytes snapshot.version
  mem_deletions : ∀ a ∈ atomsOf snapshot.fragments, ∀ d, d ∈ a.deletions ↔
    ∃ edit, Operation.edit edit ∈ applied ∧ edit.timestamp = d ∧ W.deletes d a.id
  deletions_nodup : ∀ a ∈ atomsOf snapshot.fragments, a.deletions.Nodup
  undo_ordered : KeyedList.Ordered UndoMapEntry.key snapshot.undoMap
  mem_undoMap : ∀ entry, entry ∈ snapshot.undoMap ↔
    ∃ undo, Operation.undo undo ∈ applied ∧ undo.timestamp = entry.undoId ∧
      (entry.editId, entry.undoCount) ∈ undo.counts
  visible : ∀ a ∈ atomsOf snapshot.fragments, a.visible = a.isVisible snapshot.undoMap
  maxUndos : ∀ a ∈ atomsOf snapshot.fragments, ∀ undo, Operation.undo undo ∈ applied →
    ∀ editId ∈ undo.counts.map Prod.fst, a.TouchedBy editId →
      a.maxUndos.observed undo.timestamp = true
  indexed : snapshot.Indexed baseTimestamp
  texts : snapshot.TextsValid W.byteAt

namespace Consistent

variable {W W' : World} {snapshot : BufferSnapshot} {applied : List Operation}

section Visibility

variable {v : Global}

theorem mem_undoCounts {count : Nat} :
    count ∈ W.undoCounts v editId ↔ ∃ undo, Operation.undo undo ∈ W.operations ∧
      v.observed undo.timestamp = true ∧ (editId, count) ∈ undo.counts := by
  rw [undoCounts, mem_flatMap]
  constructor
  · rintro ⟨op, hop, hcount⟩
    cases op with
    | edit edit => simp at hcount
    | undo undo =>
      simp only at hcount
      split at hcount
      · rename_i hobserved
        obtain ⟨⟨editId', count'⟩, hfilter, rfl⟩ := mem_map.mp hcount
        obtain ⟨hmem, heq⟩ := mem_filter.mp hfilter
        obtain rfl : editId' = editId := of_decide_eq_true heq
        exact ⟨undo, hop, hobserved, hmem⟩
      · simp at hcount
  · rintro ⟨undo, hundo, hobserved, hmem⟩
    refine ⟨_, hundo, ?_⟩
    simp only [hobserved, if_true]
    exact mem_map.mpr ⟨(editId, count), mem_filter.mpr ⟨hmem, by simp⟩, rfl⟩

/-- At a version it contains, the undo map says what the world says. -/
theorem wasUndone_iff (hW : W.Valid) (h : W.Consistent snapshot applied)
    (hv : snapshot.version.observedAll v = true) (editId : Lamport) :
    snapshot.undoMap.wasUndone editId v = true ↔ W.UndoneAt v editId := by
  have hcounts : (snapshot.undoMap.countsAt editId v).foldl max 0 =
      (W.undoCounts v editId).foldl max 0 := by
    refine foldl_max_congr fun n => ?_
    rw [mem_undoCounts, UndoMap.countsAt, mem_map]
    simp only [mem_filter, UndoMap.mem_entriesOf h.undo_ordered, h.mem_undoMap]
    constructor
    · rintro ⟨entry, ⟨⟨⟨undo, hundo, htimestamp, hmem⟩, rfl⟩, hobserved⟩, rfl⟩
      exact ⟨undo, h.log.mem _ hundo, by rwa [htimestamp], hmem⟩
    · rintro ⟨undo, hundo, hobserved, hmem⟩
      have happlied := (h.log.observed_iff hW hundo).mp (observed_of_observedAll hv hobserved)
      exact ⟨{ editId, undoId := undo.timestamp, undoCount := n },
        ⟨⟨⟨undo, happlied, rfl, hmem⟩, rfl⟩, hobserved⟩, rfl⟩
  rw [UndoMap.wasUndone_eq, decide_eq_true_iff, hcounts, UndoneAt]

section Visible

variable (h : W.Consistent snapshot applied)
include h

/-- All undos of the undo map are observed. -/
theorem isUndone_eq_wasUndone (editId : Lamport) : snapshot.undoMap.isUndone editId =
      snapshot.undoMap.wasUndone editId snapshot.version := by
  have hall : (snapshot.undoMap.entriesOf editId).filter
      (fun entry => snapshot.version.observed entry.undoId) =
        snapshot.undoMap.entriesOf editId := by
    refine filter_eq_self.mpr fun entry hentry => ?_
    obtain ⟨hmem, -⟩ := (UndoMap.mem_entriesOf h.undo_ordered editId entry).mp hentry
    obtain ⟨undo, hundo, htimestamp, -⟩ := (h.mem_undoMap entry).mp hmem
    rw [← htimestamp, h.log.version_eq]
    exact observed_observeAll hundo
  rw [UndoMap.wasUndone_eq, UndoMap.isUndone_eq, UndoMap.countsAt, hall]

variable {a : Atom} (ha : a ∈ atomsOf snapshot.fragments)
include ha

/-- The byte of an atom exists at the version of the snapshot. -/
theorem mem_observedBytes : a.id ∈ W.sequence ∧ snapshot.version.observed a.timestamp = true := by
  have hmem : a.id ∈ W.observedBytes snapshot.version := h.ids ▸ mem_map_of_mem ha
  exact mem_filter.mp hmem

/-- At a version it contains, a snapshot computes the visibility that the world defines. -/
theorem wasVisible_iff (hW : W.Valid) (hv : snapshot.version.observedAll v = true) :
    a.wasVisible v snapshot.undoMap = true ↔ W.VisibleAt v a.id := by
  have hundone := h.wasUndone_iff hW hv
  simp only [Atom.wasVisible, Bool.and_eq_true, Bool.not_eq_true', all_eq_true,
    Bool.or_eq_true, ← Bool.not_eq_true, hundone]
  constructor
  · rintro ⟨⟨hobserved, hinserted⟩, hdeleted⟩
    refine ⟨hobserved, hinserted, fun edit hedit hobs hdeletes => ?_⟩
    have happlied := (h.log.observed_iff hW hedit).mp (observed_of_observedAll hv hobs)
    have hmem := (h.mem_deletions a ha edit.timestamp).mpr ⟨edit, happlied, rfl, hdeletes⟩
    exact (hdeleted _ hmem).resolve_left fun hnot => hnot hobs
  · rintro ⟨hobserved, hinserted, hdeleted⟩
    refine ⟨⟨hobserved, hinserted⟩, fun d hd => ?_⟩
    obtain ⟨edit, hedit, rfl, hdeletes⟩ := (h.mem_deletions a ha d).mp hd
    by_cases hobs : v.observed edit.timestamp = true
    · exact Or.inr (hdeleted edit (h.log.mem _ hedit) hobs hdeletes)
    · exact Or.inl hobs

/-- The visible flag of an atom is its visibility at the version of the snapshot. -/
theorem visible_eq_wasVisible : a.visible = a.wasVisible snapshot.version snapshot.undoMap := by
  have hdeleted : ∀ d ∈ a.deletions, snapshot.version.observed d = true := by
    intro d hd
    obtain ⟨edit, hedit, rfl, -⟩ := (h.mem_deletions a ha d).mp hd
    rw [h.log.version_eq]
    exact observed_observeAll hedit
  rw [h.visible a ha, Atom.isVisible, Atom.wasVisible, (h.mem_observedBytes ha).2,
    h.isUndone_eq_wasUndone, Bool.true_and]
  congr 1
  rw [Bool.eq_iff_iff, all_eq_true, all_eq_true]
  refine forall₂_congr fun d hd => ?_
  rw [h.isUndone_eq_wasUndone, hdeleted d hd, Bool.not_true, Bool.false_or]

theorem visible_iff (hW : W.Valid) : a.visible = true ↔ W.VisibleAt snapshot.version a.id := by
  rw [h.visible_eq_wasVisible ha]
  exact h.wasVisible_iff ha hW (Global.observedAll_self _)

end Visible

end Visibility

end Consistent

end World

end XorEditor.Text
