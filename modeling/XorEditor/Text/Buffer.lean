import Mathlib.Data.List.Dedup
import XorEditor.Text.Undo

/-!
# Buffers

`Buffer` is a snapshot with the undo history, the queue of operations that wait for their
causal predecessors, and the Lamport clock of the replica.  The functions here are the
ones a replica calls: `edit`, `apply_ops`, the transaction brackets and the undo family.

Instants are natural numbers, passed to the functions that read the clock of the machine.
A failed `assert` or `unwrap` is `none`.

* `History`: the undo history
* `Buffer`: buffers
* `edit`, `applyOps`, `undo`, `redo`: calls on them
-/

namespace XorEditor.Text

open Clock Lib

/-- `Transaction`; its id is a timestamp. -/
structure Transaction where
  id : Lamport
  start : Global
  editIds : List Lamport

/-- `HistoryEntry`. -/
structure HistoryEntry where
  transaction : Transaction
  firstEditAt : Nat
  lastEditAt : Nat
  suppressGrouping : Bool

/-- `History`.  The stacks grow at the end. -/
structure History where
  baseText : Rope
  operations : List Operation
  undoStack : List HistoryEntry
  redoStack : List HistoryEntry
  transactionDepth : Nat
  groupInterval : Nat

namespace History

/-- `History::new`; the group interval is 300 milliseconds. -/
def new (baseText : Rope) : History where
  baseText
  operations := []
  undoStack := []
  redoStack := []
  transactionDepth := 0
  groupInterval := 300

variable (self : History)

/-- `History::push`. -/
def push (op : Operation) : History :=
  { self with operations := KeyedList.insertAll Operation.timestamp self.operations [op] }

/-- Replace the last entry of a stack. -/
def modifyLast (stack : List HistoryEntry) (f : HistoryEntry → HistoryEntry) : List HistoryEntry :=
  match stack.getLast? with
  | some entry => stack.dropLast ++ [f entry]
  | none => stack

/-- `History::start_transaction`. -/
def startTransaction (start : Global) (now : Nat) (clock : Lamport) :
    Option (History × Lamport × Option Lamport) :=
  let self := { self with transactionDepth := self.transactionDepth + 1 }
  if self.transactionDepth = 1 then do
    let (id, clock) ← clock.tick
    let entry : HistoryEntry :=
      { transaction := { id, start, editIds := [] }
        firstEditAt := now
        lastEditAt := now
        suppressGrouping := false }
    pure ({ self with undoStack := self.undoStack ++ [entry] }, clock, some id)
  else
    pure (self, clock, none)

/-- `History::end_transaction`. -/
def endTransaction (now : Nat) : Option (History × Option HistoryEntry) :=
  if self.transactionDepth = 0 then
    none
  else
    let self := { self with transactionDepth := self.transactionDepth - 1 }
    if self.transactionDepth = 0 then do
      let entry ← self.undoStack.getLast?
      if entry.transaction.editIds.isEmpty then
        pure ({ self with undoStack := self.undoStack.dropLast }, none)
      else
        let entry := { entry with lastEditAt := now }
        pure
          ({ self with redoStack := [], undoStack := self.undoStack.dropLast ++ [entry] },
            some entry)
    else
      pure (self, none)

/-- How many of the preceding entries, the most recent one first, are grouped with
`entry`. -/
def groupCount (groupInterval : Nat) (entry : HistoryEntry) : List HistoryEntry → Nat
  | [] => 0
  | prevEntry :: entries =>
    if !prevEntry.suppressGrouping
        && decide (entry.firstEditAt - prevEntry.lastEditAt < groupInterval) then
      groupCount groupInterval prevEntry entries + 1
    else
      0

/-- `History::group_trailing`. -/
def groupTrailing (n : Nat) : History × Option Lamport :=
  let newLen := self.undoStack.length - n
  let entriesToMerge := self.undoStack.drop newLen
  let undoStack := modifyLast (self.undoStack.take newLen) fun lastEntry =>
      { lastEntry with
        transaction :=
          { lastEntry.transaction with
            editIds := lastEntry.transaction.editIds ++
              entriesToMerge.flatMap fun entry => entry.transaction.editIds }
        lastEditAt :=
          match entriesToMerge.getLast? with
          | some entry => entry.lastEditAt
          | none => lastEntry.lastEditAt }
  ({ self with undoStack }, undoStack.getLast?.map fun entry => entry.transaction.id)

/-- `History::group`. -/
def group : History × Option Lamport :=
  match self.undoStack.reverse with
  | [] => self.groupTrailing 0
  | entry :: entries => self.groupTrailing (groupCount self.groupInterval entry entries)

/-- `History::push_undo`. -/
def pushUndo (opId : Lamport) : Option History :=
  if self.transactionDepth = 0 then
    none
  else
    match self.operations.find? fun op => op.timestamp = opId with
    | some (Operation.edit _) => do
      let entry ← self.undoStack.getLast?
      let entry :=
        { entry with
          transaction :=
            { entry.transaction with editIds := entry.transaction.editIds ++ [opId] } }
      pure { self with undoStack := self.undoStack.dropLast ++ [entry] }
    | _ => pure self

/-- `rposition`: the index of the last entry of a transaction. -/
def rposition (stack : List HistoryEntry) (transactionId : Lamport) : Option Nat :=
  (stack.reverse.findIdx? fun entry => decide (entry.transaction.id = transactionId)).map
    fun index => stack.length - 1 - index

/-- `History::pop_undo`. -/
def popUndo : Option (History × Option HistoryEntry) :=
  if self.transactionDepth = 0 then
    match self.undoStack.getLast? with
    | some entry =>
      some
        ({ self with
            undoStack := self.undoStack.dropLast
            redoStack := self.redoStack ++ [entry] },
          some entry)
    | none => some (self, none)
  else
    none

/-- `History::pop_redo`. -/
def popRedo : Option (History × Option HistoryEntry) :=
  if self.transactionDepth = 0 then
    match self.redoStack.getLast? with
    | some entry =>
      some
        ({ self with
            redoStack := self.redoStack.dropLast
            undoStack := self.undoStack ++ [entry] },
          some entry)
    | none => some (self, none)
  else
    none

/-- `History::remove_from_undo`. -/
def removeFromUndo (transactionId : Lamport) : Option (History × Option HistoryEntry) :=
  if self.transactionDepth = 0 then
    match rposition self.undoStack transactionId with
    | some entryIx => do
      let entry ← self.undoStack[entryIx]?
      pure
        ({ self with
            undoStack := self.undoStack.eraseIdx entryIx
            redoStack := self.redoStack ++ [entry] },
          some entry)
    | none => pure (self, none)
  else
    none

/-- `History::remove_from_undo_until`: the entries moved to the redo stack. -/
def removeFromUndoUntil (transactionId : Lamport) : Option (History × List HistoryEntry) :=
  if self.transactionDepth = 0 then
    match rposition self.undoStack transactionId with
    | some entryIx =>
      let entries := (self.undoStack.drop entryIx).reverse
      some
        ({ self with
            undoStack := self.undoStack.take entryIx
            redoStack := self.redoStack ++ entries },
          entries)
    | none => some (self, [])
  else
    none

/-- `History::remove_from_redo`: the entries moved to the undo stack. -/
def removeFromRedo (transactionId : Lamport) : Option (History × List HistoryEntry) :=
  if self.transactionDepth = 0 then
    match rposition self.redoStack transactionId with
    | some entryIx =>
      let entries := (self.redoStack.drop entryIx).reverse
      some
        ({ self with
            redoStack := self.redoStack.take entryIx
            undoStack := self.undoStack ++ entries },
          entries)
    | none => some (self, [])
  else
    none

end History

/-- `Buffer`.  `published` lists the patches sent to the subscriptions.  `applied` is not
a field of the source: it records the operations the buffer has performed, its own and
those of other replicas, in order, and no function reads it. -/
structure Buffer where
  snapshot : BufferSnapshot
  history : History
  deferredOps : OperationQueue
  deferredReplicas : List Nat
  lamportClock : Lamport
  published : List Patch
  applied : List Operation

namespace Buffer

/-- The version of the buffer. -/
def version (self : Buffer) : Global := self.snapshot.version

/-- Where the chunk of a base text that begins at `textOffset` ends. -/
def baseChunkEnd (baseText : Rope) (textOffset : Nat) : Nat :=
  let targetEnd := min baseText.length (textOffset + maxInsertionLen)
  if targetEnd = baseText.length then targetEnd
  else Rope.floorCharBoundary baseText targetEnd

/-- The fragments of a base text from `textOffset` on.  The overflow of
`insertion_offset` panics; the length of the text bounds the loop. -/
def baseFragments (baseText : Rope) (timestamp : Lamport) :
    Nat → Nat → Nat → Locator → Option (List Fragment)
  | 0, _, _, _ => some []
  | fuel + 1, textOffset, insertionOffset, prevLocator =>
    if textOffset < baseText.length then
      let chunkLen := baseChunkEnd baseText textOffset - textOffset
      let fragment : Fragment :=
        { id := Locator.between prevLocator Locator.max
          timestamp
          insertionOffset
          len := chunkLen
          visible := true
          deletions := []
          maxUndos := Global.new }
      if insertionOffset + chunkLen < 2 ^ 32 then do
        let fragments ←
          baseFragments baseText timestamp fuel (baseChunkEnd baseText textOffset)
            (insertionOffset + chunkLen) fragment.id
        pure (fragment :: fragments)
      else
        none
    else
      some []

/-- `Buffer::new_normalized`.  The insertion of the base text belongs to
`ReplicaId::LOCAL` and is not an operation. -/
def newNormalized (replicaId remoteId : Nat) (normalized : Rope) : Option Buffer := do
  let insertionTimestamp := Lamport.new replicaIdLocal
  let (lamportClock, version, fragments) ←
    if normalized.isEmpty then
      pure (Lamport.new replicaId, Global.new, [])
    else do
      let lamportClock ← (Lamport.new replicaId).observe insertionTimestamp
      let fragments ←
        baseFragments normalized insertionTimestamp normalized.length 0 0 Locator.min
      pure (lamportClock, Global.new.observe insertionTimestamp, fragments)
  pure
    { snapshot :=
        { visibleText := normalized
          deletedText := []
          fragments
          insertions := fragments.map InsertionFragment.new
          insertionSlices := []
          undoMap := []
          version
          remoteId
          replicaId }
      history := History.new normalized
      deferredOps := []
      deferredReplicas := []
      lamportClock
      published := []
      applied := [] }

/-- `Buffer::new`. -/
def new (replicaId remoteId : Nat) (baseText : List Char) : Option Buffer :=
  newNormalized replicaId remoteId (utf8 (LineEnding.normalize baseText))

/-- `Buffer::has_deferred_ops`. -/
def hasDeferredOps (self : Buffer) : Bool := !self.deferredOps.isEmpty

/-- `Buffer::start_transaction_at`. -/
def startTransactionAt (self : Buffer) (now : Nat) : Option (Buffer × Option Lamport) := do
  let (history, lamportClock, id) ←
    self.history.startTransaction self.version now self.lamportClock
  pure ({ self with history, lamportClock }, id)

/-- `Buffer::end_transaction_at`. -/
def endTransactionAt (self : Buffer) (now : Nat) :
    Option (Buffer × Option (Lamport × Global)) := do
  let (history, entry) ← self.history.endTransaction now
  match entry with
  | some entry => do
    let (history, id) := history.group
    let id ← id
    pure ({ self with history }, some (id, entry.transaction.start))
  | none => pure ({ self with history }, none)

/-- `ToOffset for usize`: an offset that is not a character boundary is rounded down. -/
def toOffset (self : BufferSnapshot) (offset : Nat) : Nat :=
  if Rope.isCharBoundary self.visibleText offset then offset
  else Rope.floorCharBoundary self.visibleText offset

/-- `Buffer::apply_local_edit`. -/
def applyLocalEdit (self : Buffer) (edits : List (Range × List Char)) (timestamp : Lamport) :
    Option (Buffer × EditOperation) := do
  let edits := edits.map fun (range, newText) =>
      ({ start := toOffset self.snapshot range.start
         stop := toOffset self.snapshot range.stop : Range }, newText)
  let (snapshot, editOp, editsPatch) ← self.snapshot.applyEditInternal edits timestamp
  pure ({ self with snapshot, published := self.published ++ [editsPatch] }, editOp)

/-- `Buffer::edit`, with the instants at which its transaction starts and ends. -/
def edit (self : Buffer) (edits : List (Range × List Char)) (startedAt endedAt : Nat) :
    Option (Buffer × Operation) := do
  let (self, _) ← self.startTransactionAt startedAt
  let (timestamp, lamportClock) ← self.lamportClock.tick
  let (self, editOp) ← { self with lamportClock }.applyLocalEdit edits timestamp
  let operation := Operation.edit editOp
  let history ← (self.history.push operation).pushUndo operation.timestamp
  let self :=
    { self with
      history
      snapshot :=
        { self.snapshot with version := self.snapshot.version.observe operation.timestamp }
      applied := self.applied ++ [operation] }
  let (self, _) ← self.endTransactionAt endedAt
  pure (self, operation)

/-- `Buffer::apply_op`. -/
def applyOp (self : Buffer) (op : Operation) : Option Buffer :=
  if self.version.observed op.timestamp then
    pure self
  else do
    let (snapshot, editsPatch) ←
      match op with
      | Operation.edit edit =>
        self.snapshot.applyRemoteEdit edit.version edit.ranges edit.newText edit.timestamp
      | Operation.undo undo => self.snapshot.applyUndo undo
    let lamportClock ← self.lamportClock.observe op.timestamp
    pure
      { self with
        snapshot := { snapshot with version := snapshot.version.observe op.timestamp }
        lamportClock
        published := self.published ++ [editsPatch]
        applied := self.applied ++ [op] }

/-- `Buffer::can_apply_op`. -/
def canApplyOp (self : Buffer) (op : Operation) : Bool :=
  if op.replicaId ∈ self.deferredReplicas then false
  else self.version.observedAll op.version

/-- Apply an operation, or collect it among the deferred ones: the body of the loops of
`apply_ops` and `flush_deferred_ops`. -/
def applyOrDefer (acc : Buffer × List Operation) (op : Operation) :
    Option (Buffer × List Operation) :=
  let (self, deferredOps) := acc
  if self.canApplyOp op then do
    let self ← self.applyOp op
    pure (self, deferredOps)
  else
    pure ({ self with deferredReplicas := op.replicaId :: self.deferredReplicas },
      deferredOps ++ [op])

/-- `Buffer::flush_deferred_ops`. -/
def flushDeferredOps (self : Buffer) : Option Buffer := do
  let (self, deferredOps) ←
    self.deferredOps.foldlM applyOrDefer
      ({ self with deferredReplicas := [], deferredOps := [] }, [])
  pure { self with deferredOps := OperationQueue.insert self.deferredOps deferredOps }

/-- The body of the loop of `apply_ops`. -/
def receiveOp (acc : Buffer × List Operation) (op : Operation) : Option (Buffer × List Operation) :=
  applyOrDefer ({ acc.1 with history := acc.1.history.push op }, acc.2) op

/-- `Buffer::apply_ops`. -/
def applyOps (self : Buffer) (ops : List Operation) : Option Buffer := do
  let (self, deferredOps) ← ops.foldlM receiveOp (self, [])
  { self with deferredOps := OperationQueue.insert self.deferredOps deferredOps }.flushDeferredOps

/-- `Buffer::undo_operations`. -/
def undoOperations (self : Buffer) (counts : List (Lamport × Nat)) :
    Option (Buffer × Operation) := do
  let (timestamp, lamportClock) ← self.lamportClock.tick
  let undo : UndoOperation := { timestamp, version := self.version, counts }
  let (snapshot, editsPatch) ←
    { self.snapshot with version := self.snapshot.version.observe timestamp }.applyUndo undo
  pure
    ({ self with
        snapshot
        lamportClock
        published := self.published ++ [editsPatch]
        applied := self.applied ++ [Operation.undo undo] },
      Operation.undo undo)

/-- The undo counts of `undo_or_redo`: each edit is undone once more.  The addition
saturates. -/
def nextCounts (undoMap : UndoMap) (editIds : List Lamport) : List (Lamport × Nat) :=
  editIds.dedup.map fun editId => (editId, min (undoMap.undoCount editId + 1) (2 ^ 32 - 1))

/-- `Buffer::undo_or_redo`. -/
def undoOrRedo (self : Buffer) (transaction : Transaction) : Option (Buffer × Operation) := do
  let (self, operation) ←
    self.undoOperations (nextCounts self.snapshot.undoMap transaction.editIds)
  pure ({ self with history := self.history.push operation }, operation)

/-- Undo or redo several transactions in order. -/
def undoOrRedoAll (self : Buffer) : List Transaction → Option (Buffer × List Operation)
  | [] => some (self, [])
  | transaction :: transactions => do
    let (self, operation) ← self.undoOrRedo transaction
    let (self, operations) ← self.undoOrRedoAll transactions
    pure (self, operation :: operations)

/-- `Buffer::undo`. -/
def undo (self : Buffer) : Option (Buffer × Option (Lamport × Operation)) := do
  let (history, entry) ← self.history.popUndo
  match entry with
  | some entry => do
    let (self, op) ← { self with history }.undoOrRedo entry.transaction
    pure (self, some (entry.transaction.id, op))
  | none => pure ({ self with history }, none)

/-- `Buffer::redo`. -/
def redo (self : Buffer) : Option (Buffer × Option (Lamport × Operation)) := do
  let (history, entry) ← self.history.popRedo
  match entry with
  | some entry => do
    let (self, op) ← { self with history }.undoOrRedo entry.transaction
    pure (self, some (entry.transaction.id, op))
  | none => pure ({ self with history }, none)

/-- `Buffer::undo_transaction`. -/
def undoTransaction (self : Buffer) (transactionId : Lamport) :
    Option (Buffer × Option Operation) := do
  let (history, entry) ← self.history.removeFromUndo transactionId
  match entry with
  | some entry => do
    let (self, op) ← { self with history }.undoOrRedo entry.transaction
    pure (self, some op)
  | none => pure ({ self with history }, none)

/-- `Buffer::undo_to_transaction`. -/
def undoToTransaction (self : Buffer) (transactionId : Lamport) :
    Option (Buffer × List Operation) := do
  let (history, entries) ← self.history.removeFromUndoUntil transactionId
  { self with history }.undoOrRedoAll (entries.map HistoryEntry.transaction)

/-- `Buffer::redo_to_transaction`. -/
def redoToTransaction (self : Buffer) (transactionId : Lamport) :
    Option (Buffer × List Operation) := do
  let (history, entries) ← self.history.removeFromRedo transactionId
  { self with history }.undoOrRedoAll (entries.map HistoryEntry.transaction)

end Buffer

end XorEditor.Text
