import XorEditor.Text.Produce
import XorEditor.Text.ApplyOps

/-!
# Replicas

`World.Replica` is the invariant of a buffer that takes part in a world: its snapshot is
consistent with the world, its clock is ahead of everything it has seen, it has applied
all operations it produced itself, and its undo history names only edits it has applied.
Every function that a replica calls preserves the invariant; the local ones let the world
grow.

* `World.Replica`: the invariant
* `Replica.edit`, `Replica.undoOrRedo`, `Replica.applyOps`: it is preserved
-/

namespace XorEditor.Text

variable {now : Nat}

open Clock Lib List

/-- A timestamp is the one of an edit among some operations. -/
def EditAmong (ops : List Operation) (editId : Lamport) : Prop :=
  ∃ edit, Operation.edit edit ∈ ops ∧ edit.timestamp = editId

theorem EditAmong.append {ops : List Operation} {editId : Lamport} (h : EditAmong ops editId)
    (ops' : List Operation) : EditAmong (ops ++ ops') editId := by
  obtain ⟨edit, hedit, htimestamp⟩ := h
  exact ⟨edit, mem_append_left _ hedit, htimestamp⟩

namespace History

variable {self self' : History} {P : Lamport → Prop}

/-- All edits of the history satisfy a predicate. -/
def EditsIn (P : Lamport → Prop) (self : History) : Prop :=
  ∀ entry ∈ self.undoStack ++ self.redoStack, ∀ editId ∈ entry.transaction.editIds, P editId

/-- Nothing happened yet. -/
structure Idle (history : History) : Prop where
  undoStack : history.undoStack = []
  redoStack : history.redoStack = []
  transactionDepth : history.transactionDepth = 0

theorem EditsIn.imp {Q : Lamport → Prop} (h : self.EditsIn P) (hPQ : ∀ t, P t → Q t) :
    self.EditsIn Q :=
  fun entry hentry editId hmem => hPQ editId (h entry hentry editId hmem)

theorem EditsIn.push (h : self.EditsIn P) (op : Operation) : (self.push op).EditsIn P := h

theorem EditsIn.startTransaction (h : self.EditsIn P) {start : Global} {clock clock' : Lamport}
    {id : Option Lamport} (hsome : self.startTransaction start now clock =
      some (self', clock', id)) :
    self'.EditsIn P := by
  simp only [History.startTransaction] at hsome
  split at hsome
  · simp only [do_eq_some, pure_eq_some] at hsome
    obtain ⟨⟨first, next⟩, -, rfl, -⟩ := hsome
    obtain ⟨hundo, hredo⟩ := forall_mem_append.mp h
    exact forall_mem_append.mpr ⟨forall_mem_append.mpr ⟨hundo, by simp⟩, hredo⟩
  · obtain ⟨rfl, -⟩ := pure_eq_some.mp hsome
    exact h

theorem EditsIn.modifyLast {stack : List HistoryEntry} {f : HistoryEntry → HistoryEntry}
    (hstack : ∀ entry ∈ stack, ∀ editId ∈ entry.transaction.editIds, P editId)
    (hlast : ∀ entry ∈ stack, ∀ editId ∈ (f entry).transaction.editIds, P editId) :
    ∀ entry ∈ History.modifyLast stack f, ∀ editId ∈ entry.transaction.editIds, P editId := by
  intro entry hentry
  unfold History.modifyLast at hentry
  split at hentry
  · rename_i last hlast'
    rcases mem_append.mp hentry with hentry | hentry
    · exact hstack entry (dropLast_subset _ hentry)
    · rw [mem_singleton.mp hentry]
      exact hlast last (mem_of_getLast? hlast')
  · exact hstack entry hentry

theorem EditsIn.endTransaction (h : self.EditsIn P) {entry : Option HistoryEntry}
    (hsome : self.endTransaction now = some (self', entry)) : self'.EditsIn P := by
  simp only [History.endTransaction] at hsome
  split at hsome
  · simp at hsome
  · split at hsome
    · simp only [do_eq_some] at hsome
      obtain ⟨last, hlast, hsome⟩ := hsome
      obtain ⟨hundo, hredo⟩ := forall_mem_append.mp h
      have hdrop := fun e he => hundo e (dropLast_subset _ he)
      split at hsome
      · obtain ⟨rfl, -⟩ := pure_eq_some.mp hsome
        exact forall_mem_append.mpr ⟨hdrop, hredo⟩
      · obtain ⟨rfl, -⟩ := pure_eq_some.mp hsome
        refine forall_mem_append.mpr ⟨forall_mem_append.mpr ⟨hdrop, ?_⟩, by simp⟩
        exact forall_mem_singleton.mpr (hundo last (mem_of_getLast? hlast))
    · obtain ⟨rfl, -⟩ := pure_eq_some.mp hsome
      exact h

theorem EditsIn.groupTrailing (h : self.EditsIn P) (n : Nat) :
    (self.groupTrailing n).1.EditsIn P := by
  obtain ⟨hundo, hredo⟩ := forall_mem_append.mp h
  have htake := fun e he => hundo e (take_subset (self.undoStack.length - n) _ he)
  refine forall_mem_append.mpr ⟨EditsIn.modifyLast htake fun e he => ?_, hredo⟩
  refine forall_mem_append.mpr ⟨htake e he, fun editId hmem => ?_⟩
  obtain ⟨merged, hmerged, hmem⟩ := mem_flatMap.mp hmem
  exact hundo merged (drop_subset _ _ hmerged) editId hmem

theorem EditsIn.group (h : self.EditsIn P) : self.group.1.EditsIn P := by
  unfold History.group
  split
  · exact h.groupTrailing _
  · exact h.groupTrailing _

theorem EditsIn.pushUndo (h : self.EditsIn P) {opId : Lamport} (hop : P opId)
    (hsome : self.pushUndo opId = some self') : self'.EditsIn P := by
  simp only [History.pushUndo] at hsome
  split at hsome
  · simp at hsome
  · split at hsome
    · simp only [do_eq_some] at hsome
      obtain ⟨last, hlast, hsome⟩ := hsome
      obtain rfl := Option.some.inj hsome
      obtain ⟨hundo, hredo⟩ := forall_mem_append.mp h
      refine forall_mem_append.mpr ⟨forall_mem_append.mpr
        ⟨fun e he => hundo e (dropLast_subset _ he), forall_mem_singleton.mpr ?_⟩, hredo⟩
      exact forall_mem_append.mpr ⟨hundo last (mem_of_getLast? hlast), forall_mem_singleton.mpr hop⟩
    · obtain rfl := Option.some.inj hsome
      exact h

/-- Entries were moved between the stacks. -/
structure Moved (old new : History) (entries : List HistoryEntry) : Prop where
  stacked : ∀ entry ∈ new.undoStack ++ new.redoStack, entry ∈ old.undoStack ++ old.redoStack
  entries_mem : ∀ entry ∈ entries, entry ∈ old.undoStack ++ old.redoStack
  transactionDepth : new.transactionDepth = old.transactionDepth

variable {entry : Option HistoryEntry} {entries : List HistoryEntry} {transactionId : Lamport}
  {kept moved : List HistoryEntry}

theorem Moved.refl (self : History) : self.Moved self [] :=
  ⟨fun _ h => h, by simp, rfl⟩

theorem Moved.idle (h : self.Moved self' entries) (hidle : self.Idle) :
    self'.Idle ∧ entries = [] := by
  have hnil : self.undoStack ++ self.redoStack = [] := by
    rw [hidle.undoStack, hidle.redoStack]
    rfl
  have hstacks : self'.undoStack ++ self'.redoStack = [] :=
    eq_nil_iff_forall_not_mem.mpr fun e he => by simpa [hnil] using h.stacked e he
  have hentries : entries = [] :=
    eq_nil_iff_forall_not_mem.mpr fun e he => by simpa [hnil] using h.entries_mem e he
  obtain ⟨hundo, hredo⟩ := append_eq_nil_iff.mp hstacks
  exact ⟨⟨hundo, hredo, h.transactionDepth.trans hidle.transactionDepth⟩, hentries⟩

/-- Some entries of the undo stack go to the redo stack. -/
theorem moved_of_undo (hkept : ∀ e ∈ kept, e ∈ self.undoStack)
    (hmoved : ∀ e ∈ moved, e ∈ self.undoStack) :
    self.Moved { self with undoStack := kept, redoStack := self.redoStack ++ moved } moved := by
  refine ⟨fun e he => ?_, fun e he => mem_append_left _ (hmoved e he), rfl⟩
  simp only [mem_append] at he ⊢
  rcases he with he | he | he
  · exact Or.inl (hkept e he)
  · exact Or.inr he
  · exact Or.inl (hmoved e he)

/-- Some entries of the redo stack go to the undo stack. -/
theorem moved_of_redo (hkept : ∀ e ∈ kept, e ∈ self.redoStack)
    (hmoved : ∀ e ∈ moved, e ∈ self.redoStack) :
    self.Moved { self with undoStack := self.undoStack ++ moved, redoStack := kept } moved := by
  refine ⟨fun e he => ?_, fun e he => mem_append_right _ (hmoved e he), rfl⟩
  simp only [mem_append] at he ⊢
  rcases he with (he | he) | he
  · exact Or.inl he
  · exact Or.inr (hmoved e he)
  · exact Or.inr (hkept e he)

theorem moved_popUndo (h : self.popUndo = some (self', entry)) : self.Moved self' entry.toList := by
  simp only [popUndo] at h
  split at h
  · split at h
    · rename_i last hlast
      obtain ⟨rfl, rfl⟩ : _ ∧ _ := by simpa using h
      exact moved_of_undo (dropLast_subset _) (by simpa using mem_of_getLast? hlast)
    · obtain ⟨rfl, rfl⟩ : _ ∧ _ := by simpa using h
      exact Moved.refl _
  · simp at h

theorem moved_popRedo (h : self.popRedo = some (self', entry)) : self.Moved self' entry.toList := by
  simp only [popRedo] at h
  split at h
  · split at h
    · rename_i last hlast
      obtain ⟨rfl, rfl⟩ : _ ∧ _ := by simpa using h
      exact moved_of_redo (dropLast_subset _) (by simpa using mem_of_getLast? hlast)
    · obtain ⟨rfl, rfl⟩ : _ ∧ _ := by simpa using h
      exact Moved.refl _
  · simp at h

theorem moved_removeFromUndo (h : self.removeFromUndo transactionId = some (self', entry)) :
    self.Moved self' entry.toList := by
  simp only [removeFromUndo] at h
  split at h
  · split at h
    · simp only [do_eq_some, pure_eq_some] at h
      obtain ⟨found, hfound, rfl, rfl⟩ := h
      exact moved_of_undo (fun _ => mem_of_mem_eraseIdx) (by simpa using mem_of_getElem? hfound)
    · obtain ⟨rfl, rfl⟩ := pure_eq_some.mp h
      exact Moved.refl _
  · simp at h

theorem moved_removeFromUndoUntil
    (h : self.removeFromUndoUntil transactionId = some (self', entries)) :
    self.Moved self' entries := by
  simp only [removeFromUndoUntil] at h
  split at h
  · split at h
    · obtain ⟨rfl, rfl⟩ : _ ∧ _ := by simpa using h
      exact moved_of_undo (take_subset _ _) fun e he => drop_subset _ _ (mem_reverse.mp he)
    · obtain ⟨rfl, rfl⟩ : _ ∧ _ := by simpa using h
      exact Moved.refl _
  · simp at h

theorem moved_removeFromRedo (h : self.removeFromRedo transactionId = some (self', entries)) :
    self.Moved self' entries := by
  simp only [removeFromRedo] at h
  split at h
  · split at h
    · obtain ⟨rfl, rfl⟩ : _ ∧ _ := by simpa using h
      exact moved_of_redo (take_subset _ _) fun e he => drop_subset _ _ (mem_reverse.mp he)
    · obtain ⟨rfl, rfl⟩ : _ ∧ _ := by simpa using h
      exact Moved.refl _
  · simp at h

end History

/-- The edits that may be passed to `edit`: sorted, disjoint ranges between character
boundaries of the text.  Ranges may touch. -/
structure EditsValid (text : Rope) (edits : List (Range × List Char)) : Prop where
  sorted : edits.Pairwise fun x y => x.1.stop ≤ y.1.start
  start_le_stop : ∀ edit ∈ edits, edit.1.start ≤ edit.1.stop
  start_boundary : ∀ edit ∈ edits, Rope.isCharBoundary text edit.1.start = true
  stop_boundary : ∀ edit ∈ edits, Rope.isCharBoundary text edit.1.stop = true

instance (text : Rope) (edits : List (Range × List Char)) : Decidable (EditsValid text edits) :=
  decidable_of_iff ((edits.Pairwise fun x y => x.1.stop ≤ y.1.start) ∧
      (∀ edit ∈ edits, edit.1.start ≤ edit.1.stop) ∧
      (∀ edit ∈ edits, Rope.isCharBoundary text edit.1.start = true) ∧
      ∀ edit ∈ edits, Rope.isCharBoundary text edit.1.stop = true)
    ⟨fun ⟨hsorted, hle, hstart, hstop⟩ => ⟨hsorted, hle, hstart, hstop⟩,
      fun h => ⟨h.sorted, h.start_le_stop, h.start_boundary, h.stop_boundary⟩⟩

namespace EditsValid

variable {text : Rope} {edits : List (Range × List Char)}

theorem ranges_from (h : EditsValid text edits) {pos : Nat} (hpos : pos ≤ text.length)
    (hstart : ∀ edit ∈ edits, pos ≤ edit.1.start) :
    RangeEdit.Ranges text.length (visibleRanges edits) pos := by
  induction edits generalizing pos with
  | nil => exact hpos
  | cons edit edits ih =>
    obtain ⟨hhead, htail⟩ := pairwise_cons.mp h.sorted
    refine ⟨hstart edit (by simp), h.start_le_stop edit (by simp), ih ?_ ?_ hhead⟩
    · exact ⟨htail, fun e he => h.start_le_stop e (mem_cons_of_mem _ he),
        fun e he => h.start_boundary e (mem_cons_of_mem _ he),
        fun e he => h.stop_boundary e (mem_cons_of_mem _ he)⟩
    · exact Rope.le_length_of_isCharBoundary (h.stop_boundary edit (by simp))

theorem ranges (h : EditsValid text edits) : RangeEdit.Ranges text.length (visibleRanges edits) 0 :=
  h.ranges_from (Nat.zero_le _) fun _ _ => Nat.zero_le _

end EditsValid

namespace World

/-- The world grows by a list of operations. -/
inductive Grows : World → List Operation → World → Prop
  | refl (W : World) : Grows W [] W
  | step {W W' W'' : World} {op : Operation} {ops : List Operation}
      (hext : W.ExtendsBy op W') (hvalid : W'.Valid) (hgrows : Grows W' ops W'') :
      Grows W (op :: ops) W''

/-- A buffer that may produce operations of a world. -/
structure Producer (W : World) (replicaId : Nat) (b : Buffer) : Prop where
  consistent : W.Consistent b.snapshot b.applied
  clock : b.lamportClock.replicaId = replicaId
  version_lt : ∀ r, b.version.get r < b.lamportClock.value
  own : ∀ op ∈ W.operations, op.replicaId = replicaId → op ∈ b.applied
  history : b.history.EditsIn (EditAmong b.applied)
  started : b.history.Idle ∨ 2 ≤ b.lamportClock.value

/-- The invariant of a buffer that takes part in a world. -/
structure Replica (W : World) (replicaId : Nat) (b : Buffer) : Prop
    extends Producer W replicaId b where
  queue : Queue (· ∈ W.operations) b.deferredOps

section Growth

variable {W W' : World} {ops : List Operation} {snapshot : BufferSnapshot}
  {applied : List Operation}

theorem Grows.valid (h : W.Grows ops W') (hW : W.Valid) : W'.Valid := by
  induction h with
  | refl W => exact hW
  | step _ hvalid _ ih => exact ih hvalid

theorem Grows.operations_eq (h : W.Grows ops W') : W'.operations = W.operations ++ ops := by
  induction h with
  | refl W => simp
  | step hext _ _ ih =>
    rw [ih, hext.operations, append_assoc]
    rfl

theorem Grows.base_eq (h : W.Grows ops W') : W'.base = W.base := by
  induction h with
  | refl W => rfl
  | step hext _ _ ih => rw [ih, hext.base]

theorem Grows.consistent (h : W.Grows ops W') (hW : W.Valid)
    (hconsistent : W.Consistent snapshot applied) : W'.Consistent snapshot applied := by
  induction h with
  | refl W => exact hconsistent
  | step hext hvalid _ ih => exact ih hvalid (hconsistent.extend hW hext)

variable {replicaId : Nat} {b : Buffer}

/-- A replica is not affected by the operations of others. -/
theorem Replica.grow (h : W.Replica replicaId b) (hW : W.Valid) (hgrows : W.Grows ops W')
    (hops : ∀ op ∈ ops, op.replicaId ≠ replicaId) : W'.Replica replicaId b where
  consistent := hgrows.consistent hW h.consistent
  queue := by
    refine ⟨fun op hop => ?_, h.queue.ordered⟩
    rw [hgrows.operations_eq]
    exact mem_append_left _ (h.queue.mem op hop)
  clock := h.clock
  version_lt := h.version_lt
  own := by
    intro op hop hreplica
    rw [hgrows.operations_eq] at hop
    rcases mem_append.mp hop with hop | hop
    · exact h.own op hop hreplica
    · exact absurd hreplica (hops op hop)
  history := h.history
  started := h.started

end Growth

section Local

variable {W : World} {replicaId : Nat} {b b' : Buffer}

variable {history : History} {entries : List HistoryEntry} {op : Operation}
  {snapshot : BufferSnapshot} {ops : List Operation}

section Steps

variable (h : W.Replica replicaId b)
include h

/-- The clock of a replica is a fresh timestamp. -/
theorem Replica.fresh (hge : 2 ≤ b.lamportClock.value) (hlt : b.lamportClock.value + 1 < 2 ^ 32) :
    W.Fresh b.snapshot.version b.applied b.lamportClock where
  value_ge := hge
  value_lt := hlt
  version_lt := h.version_lt
  own := fun op hop hreplica => h.own op hop (hreplica.trans h.clock)

/-- The undo history may be changed, as long as it names applied edits. -/
theorem Replica.withHistory (hedits : history.EditsIn (EditAmong b.applied))
    (hstarted : history.Idle ∨ 2 ≤ b.lamportClock.value) : W.Replica replicaId { b with history } :=
  ⟨⟨h.consistent, h.clock, h.version_lt, h.own, hedits, hstarted⟩, h.queue⟩

theorem Replica.moved (hmoved : b.history.Moved history entries) :
    W.Replica replicaId { b with history } :=
  h.withHistory (fun entry hentry => h.history entry (hmoved.stacked entry hentry))
    (h.started.imp_left fun hidle => (hmoved.idle hidle).1)

theorem Replica.startTransactionAt {id : Option Lamport}
    (hsome : b.startTransactionAt now = some (b', id)) :
    W.Replica replicaId b' ∧ 2 ≤ b'.lamportClock.value ∧ b'.snapshot = b.snapshot := by
  simp only [Buffer.startTransactionAt, do_eq_some, pure_eq_some] at hsome
  obtain ⟨⟨history, clock, id'⟩, hstart, rfl, rfl⟩ := hsome
  have hedits := h.history.startTransaction hstart
  have hclock : clock.replicaId = b.lamportClock.replicaId ∧
      b.lamportClock.value ≤ clock.value ∧ 2 ≤ clock.value := by
    simp only [History.startTransaction] at hstart
    split at hstart
    · simp only [do_eq_some, pure_eq_some] at hstart
      obtain ⟨⟨first, next⟩, htick, -, heq⟩ := hstart
      obtain ⟨rfl, -⟩ := Prod.mk.inj heq
      obtain ⟨-, -, rfl⟩ := Lamport.tick_eq_some.mp htick
      have := h.version_lt 0
      exact ⟨rfl, Nat.le_succ _, by simp only; omega⟩
    · rename_i hdepth
      obtain ⟨rfl, -⟩ := Prod.mk.inj (pure_eq_some.mp hstart).2
      refine ⟨rfl, Nat.le_refl _, h.started.resolve_left fun hidle => hdepth ?_⟩
      simp only [hidle.transactionDepth]
  refine ⟨⟨⟨h.consistent, hclock.1.trans h.clock, ?_, h.own, hedits, Or.inr hclock.2.2⟩,
    h.queue⟩, hclock.2.2, rfl⟩
  exact fun r => Nat.lt_of_lt_of_le (h.version_lt r) hclock.2.1

theorem Replica.endTransactionAt {result : Option (Lamport × Global)}
    (hsome : b.endTransactionAt now = some (b', result)) : W.Replica replicaId b' := by
  simp only [Buffer.endTransactionAt, Option.bind_eq_bind, Option.bind_eq_some_iff] at hsome
  obtain ⟨⟨history, entry⟩, hend, hsome⟩ := hsome
  have hedits := h.history.endTransaction hend
  -- There is a transaction to end.
  have hge : 2 ≤ b.lamportClock.value := by
    refine h.started.resolve_left fun hidle => ?_
    simp [History.endTransaction, hidle.transactionDepth] at hend
  cases entry with
  | none =>
    obtain ⟨rfl, -⟩ := pure_eq_some.mp hsome
    exact h.withHistory hedits (Or.inr hge)
  | some entry =>
    simp only [Option.bind_eq_some_iff, pure_eq_some] at hsome
    obtain ⟨id, -, rfl, -⟩ := hsome
    exact h.withHistory hedits.group (Or.inr hge)

/-- A replica after it has produced an operation. -/
theorem Replica.produced {W' : World} (hext : W.ExtendsBy op W')
    (htimestamp : op.timestamp = b.lamportClock) (hge : 2 ≤ b.lamportClock.value)
    (hconsistent : W'.Consistent snapshot (b.applied ++ [op]))
    (hhistory : history.EditsIn (EditAmong (b.applied ++ [op]))) (published : List Patch) :
    W'.Replica replicaId
      { b with
        snapshot
        history
        published
        lamportClock := { b.lamportClock with value := b.lamportClock.value + 1 }
        applied := b.applied ++ [op] } where
  consistent := hconsistent
  queue := ⟨fun op' hop' => hext.mem_operations.mpr (Or.inl (h.queue.mem op' hop')),
    h.queue.ordered⟩
  clock := h.clock
  version_lt := by
    intro r
    have hversion : snapshot.version = b.version.observe op.timestamp := by
      rw [hconsistent.log.version_eq, observeAll_concat, hext.baseVersion_eq,
        ← h.consistent.log.version_eq]
      rfl
    have hr := h.version_lt r
    simp only [Buffer.version, hversion, Global.get_observe, htimestamp] at hr ⊢
    split <;> omega
  own := by
    intro op' hop' hreplica
    rcases hext.mem_operations.mp hop' with hop' | rfl
    · exact mem_append_left _ (h.own op' hop' hreplica)
    · simp
  history := hhistory
  started := Or.inr (Nat.le_succ_of_le hge)

end Steps

theorem length_visibleText {byteAt : ByteId → UInt8} (h : snapshot.TextsValid byteAt) :
    snapshot.visibleText.length = countedSum Fragment.visible snapshot.fragments := by
  rw [← text_visible, text_eq byteAt, h.visibleText]

/-- `edit` produces an operation of the world. -/
theorem Replica.edit (h : W.Replica replicaId b) (hW : W.Valid) {edits : List (Range × List Char)}
    (hedits : EditsValid b.snapshot.visibleText edits) {startedAt endedAt : Nat}
    (hsome : b.edit edits startedAt endedAt = some (b', op)) :
    ∃ W', W.Grows [op] W' ∧ W'.Replica replicaId b' ∧ op.replicaId = replicaId := by
  simp only [Buffer.edit, do_eq_some, pure_eq_some] at hsome
  obtain ⟨⟨b₁, id⟩, hstart, ⟨timestamp, clock⟩, htick, ⟨b₂, editOp'⟩, happly, history, hpush,
    ⟨b₃, result⟩, hend, rfl, rfl⟩ := hsome
  obtain ⟨hreplica, hge, hsnapshot⟩ := h.startTransactionAt hstart
  obtain ⟨hlt, rfl, rfl⟩ := Lamport.tick_eq_some.mp htick
  simp only [Buffer.applyLocalEdit, do_eq_some, pure_eq_some] at happly
  obtain ⟨⟨snapshot, editOp, patch⟩, hinternal, rfl, rfl⟩ := happly
  -- The offsets are character boundaries already.
  have hoffsets : (edits.map fun edit =>
      (({ start := Buffer.toOffset b₁.snapshot edit.1.start
          stop := Buffer.toOffset b₁.snapshot edit.1.stop } : Range), edit.2)) = edits := by
    rw [← hsnapshot] at hedits
    conv_rhs => rw [← map_id edits]
    refine map_congr_left fun edit hedit => ?_
    simp [Buffer.toOffset, hedits.start_boundary edit hedit, hedits.stop_boundary edit hedit]
  rw [hoffsets] at hinternal
  have hranges : RangeEdit.Ranges (countedSum Fragment.visible b₁.snapshot.fragments)
    (visibleRanges edits) 0 := by
    rw [← length_visibleText hreplica.consistent.texts, hsnapshot]
    exact hedits.ranges
  obtain ⟨W', hext, hvalid, htimestamp, hconsistent⟩ :=
    hreplica.consistent.localEdit hW (hreplica.fresh hge hlt) hranges hinternal
  refine ⟨W', Grows.step hext hvalid (Grows.refl W'), ?_, ?_⟩
  · have hold := (hreplica.history.imp fun t ht => ht.append [Operation.edit editOp]).push
      (Operation.edit editOp)
    have hhistory := hold.pushUndo ⟨editOp, by simp, rfl⟩ hpush
    rw [← htimestamp] at hconsistent
    have hproduced := hreplica.produced hext htimestamp hge hconsistent hhistory
      (b₁.published ++ [patch])
    exact hproduced.endTransactionAt hend
  · rw [Operation.replicaId, Operation.timestamp, htimestamp]
    exact hreplica.clock

theorem map_fst_nextCounts (undoMap : UndoMap) (editIds : List Lamport) :
    (Buffer.nextCounts undoMap editIds).map Prod.fst = editIds.dedup := by
  rw [Buffer.nextCounts, map_map]
  exact map_id _

/-- `undo_or_redo` produces an operation of the world. -/
theorem Replica.undoOrRedo (h : W.Replica replicaId b) (hW : W.Valid)
    (hge : 2 ≤ b.lamportClock.value) {transaction : Transaction}
    (hedits : ∀ editId ∈ transaction.editIds, EditAmong b.applied editId)
    (hsome : b.undoOrRedo transaction = some (b', op)) :
    ∃ W', W.Grows [op] W' ∧ W'.Replica replicaId b' ∧ op.replicaId = replicaId ∧
      2 ≤ b'.lamportClock.value ∧ b'.applied = b.applied ++ [op] := by
  simp only [Buffer.undoOrRedo, Buffer.undoOperations, do_eq_some, pure_eq_some] at hsome
  obtain ⟨⟨b₁, op'⟩, ⟨⟨timestamp, clock⟩, htick, ⟨snapshot, patch⟩, happly, rfl, rfl⟩, rfl, rfl⟩ :=
    hsome
  obtain ⟨hlt, rfl, rfl⟩ := Lamport.tick_eq_some.mp htick
  have hnew : W.NewOperation b.snapshot b.applied (.undo
      { timestamp := b.lamportClock
        version := b.snapshot.version
        counts := Buffer.nextCounts b.snapshot.undoMap transaction.editIds }) :=
    ⟨hW, h.consistent, h.fresh hge hlt, rfl⟩
  obtain ⟨W', snapshot', patch', hext, hvalid, happly', hconsistent⟩ := hnew.localUndo
    (by rw [map_fst_nextCounts]; exact nodup_dedup _)
    (by
      intro editId hmem
      rw [map_fst_nextCounts, mem_dedup] at hmem
      exact hedits editId hmem)
  obtain ⟨rfl, rfl⟩ := Prod.mk.inj (Option.some.inj (happly.symm.trans happly'))
  refine ⟨W', Grows.step hext hvalid (Grows.refl W'), ?_, h.clock, Nat.le_succ_of_le hge, rfl⟩
  exact h.produced hext rfl hge hconsistent
    ((h.history.imp fun t ht => ht.append _).push _) (b.published ++ [patch])

/-- `undo_or_redo` for several transactions. -/
theorem Replica.undoOrRedoAll (transactions : List Transaction) (h : W.Replica replicaId b)
    (hW : W.Valid) (hge : transactions = [] ∨ 2 ≤ b.lamportClock.value)
    (hedits : ∀ transaction ∈ transactions, ∀ editId ∈ transaction.editIds,
      EditAmong b.applied editId) (hsome : b.undoOrRedoAll transactions = some (b', ops)) :
    ∃ W', W.Grows ops W' ∧ W'.Replica replicaId b' ∧ ∀ op ∈ ops, op.replicaId = replicaId := by
  induction transactions generalizing W b ops with
  | nil =>
    obtain ⟨rfl, rfl⟩ : _ ∧ _ := by simpa [Buffer.undoOrRedoAll] using hsome
    exact ⟨W, Grows.refl W, h, by simp⟩
  | cons transaction transactions ih =>
    have hge := hge.resolve_left (by simp)
    simp only [Buffer.undoOrRedoAll, do_eq_some, pure_eq_some] at hsome
    obtain ⟨⟨b₁, op⟩, hfirst, ⟨b₂, ops₂⟩, hrest, rfl, rfl⟩ := hsome
    obtain ⟨W₁, hgrows₁, hreplica₁, hop, hge₁, happlied⟩ :=
      h.undoOrRedo hW hge (hedits transaction (by simp)) hfirst
    obtain ⟨W₂, hgrows₂, hreplica₂, hops⟩ := ih hreplica₁ (hgrows₁.valid hW) (Or.inr hge₁)
      (fun t ht editId hmem => happlied ▸
        (hedits t (mem_cons_of_mem _ ht) editId hmem).append [op]) hrest
    cases hgrows₁ with
    | step hext hvalid hnil =>
      cases hnil
      exact ⟨W₂, Grows.step hext hvalid hgrows₂, hreplica₂, forall_mem_cons.mpr ⟨hop, hops⟩⟩

/-- The undo family moves entries between the stacks and undoes their transactions. -/
theorem Replica.undoMoved (h : W.Replica replicaId b) (hW : W.Valid)
    (hmoved : b.history.Moved history entries)
    (hsome : Buffer.undoOrRedoAll { b with history } (entries.map HistoryEntry.transaction) =
      some (b', ops)) :
    ∃ W', W.Grows ops W' ∧ W'.Replica replicaId b' ∧ ∀ op ∈ ops, op.replicaId = replicaId := by
  refine (h.moved hmoved).undoOrRedoAll _ hW (h.started.imp_left fun hidle => ?_) ?_ hsome
  · rw [(hmoved.idle hidle).2]
    rfl
  · intro transaction htransaction
    obtain ⟨entry, hentry, rfl⟩ := mem_map.mp htransaction
    exact h.history entry (hmoved.entries_mem entry hentry)

/-- Applying operations of the world keeps a producer. -/
theorem invariant_producer (hW : W.Valid) :
    W.Invariant (· ∈ W.operations) (W.Producer replicaId) where
  valid := hW
  mem := fun hop => hop
  consistent := fun h => h.consistent
  apply := by
    intro b op b' h hop hversion hsome
    rcases applyOp_cases hW h.consistent hop hversion hsome with
      ⟨-, rfl⟩ | ⟨snapshot, patch, lamportClock, hconsistent, hclock, rfl⟩
    · exact h
    · obtain ⟨-, rfl⟩ := Lamport.observe_eq_some.mp hclock
      have hversion : snapshot.version = b.version.observe op.timestamp := by
        rw [hconsistent.log.version_eq, observeAll_concat, ← h.consistent.log.version_eq]
        rfl
      refine ⟨hconsistent, h.clock, fun r => ?_,
        fun op' hop' hreplica => mem_append_left _ (h.own op' hop' hreplica),
        h.history.imp fun t ht => ht.append _,
        h.started.imp_right fun hge => ?_⟩
      · have hr := h.version_lt r
        simp only [Buffer.version, hversion, Global.get_observe] at hr ⊢
        split <;> omega
      · simp only
        omega
  push := fun h _ => { h with started := h.started.imp_left fun hidle => { hidle with } }
  deferredReplicas := fun _ h => { h with }
  deferredOps := fun _ h => { h with }

/-- `apply_ops` of operations of the world keeps a replica. -/
theorem Replica.applyOps (h : W.Replica replicaId b) (hW : W.Valid) {ops : List Operation}
    (hops : ∀ op ∈ ops, op ∈ W.operations) (hsome : b.applyOps ops = some b') :
    W.Replica replicaId b' := by
  have happlied := applyOps_spec (invariant_producer hW) h.toProducer h.queue hops hsome
  exact ⟨happlied.invariant, happlied.queue⟩

end Local

end World

end XorEditor.Text
