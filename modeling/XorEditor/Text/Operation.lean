import XorEditor.Clock
import XorEditor.Lib.KeyedList
import XorEditor.Text.Rope
import Mathlib.Data.Prod.Lex

/-!
# Operations, the undo map and the operation queue

The two kinds of operation that replicas exchange, the map that records how often each
edit was undone, and the queue that holds the operations waiting for their causal
predecessors.  The undo map and the queue are keyed sum trees in the source; here they
are lists ordered by key.

* `Operation`: operations
* `UndoMap`, `OperationQueue`: the two collections
-/

namespace XorEditor.Text

open Clock Lib

/-- `EditOperation`: the ranges are full offsets, counting deleted text, at `version`. -/
structure EditOperation where
  timestamp : Lamport
  version : Global
  ranges : List Range
  newText : List (List Char)
deriving DecidableEq

/-- `UndoOperation`: the new undo count of each affected edit. -/
structure UndoOperation where
  timestamp : Lamport
  version : Global
  counts : List (Lamport × Nat)
deriving DecidableEq

/-- `Operation`. -/
inductive Operation where
  | edit (edit : EditOperation)
  | undo (undo : UndoOperation)
deriving DecidableEq

namespace Operation

/-- `Operation::timestamp` and `lamport_timestamp`. -/
def timestamp : Operation → Lamport
  | edit op => op.timestamp
  | undo op => op.timestamp

/-- The version of the replica that produced the operation. -/
def version : Operation → Global
  | edit op => op.version
  | undo op => op.version

/-- `Operation::replica_id`. -/
def replicaId (op : Operation) : Nat := op.timestamp.replicaId

end Operation

/-- `UndoMapEntry`, with the fields of its `UndoMapKey` inlined. -/
structure UndoMapEntry where
  editId : Lamport
  undoId : Lamport
  undoCount : Nat
deriving DecidableEq

/-- `UndoMapKey`: ordered by the edit, then by the undo. -/
def UndoMapEntry.key (entry : UndoMapEntry) : Lamport ×ₗ Lamport :=
  toLex (entry.editId, entry.undoId)

/-- `UndoMap(SumTree<UndoMapEntry>)`. -/
abbrev UndoMap := List UndoMapEntry

namespace UndoMap

/-- `UndoMap::insert`: one entry per count of the operation. -/
def insert (map : UndoMap) (undo : UndoOperation) : UndoMap :=
  KeyedList.insertAll UndoMapEntry.key map
    (undo.counts.map fun (editId, count) =>
      { editId, undoId := undo.timestamp, undoCount := count })

/-- The entries of one edit: seek to its first key, then read while the edit is the
same. -/
def entriesOf (map : UndoMap) (editId : Lamport) : List UndoMapEntry :=
  (KeyedList.seekFrom UndoMapEntry.key (toLex (editId, Lamport.MIN)) map).takeWhile
    fun entry => decide (entry.editId = editId)

/-- `UndoMap::undo_count`: the largest count of any undo of the edit. -/
def undoCount (map : UndoMap) (editId : Lamport) : Nat :=
  (map.entriesOf editId).foldl (fun count entry => max count entry.undoCount) 0

/-- `UndoMap::is_undone`. -/
def isUndone (map : UndoMap) (editId : Lamport) : Bool :=
  decide (map.undoCount editId % 2 = 1)

/-- `UndoMap::was_undone`: as `is_undone`, counting only the undos observed by
`version`. -/
def wasUndone (map : UndoMap) (editId : Lamport) (version : Global) : Bool :=
  decide ((map.entriesOf editId).foldl
    (fun count entry =>
      if version.observed entry.undoId then max count entry.undoCount else count) 0 % 2 = 1)

end UndoMap

/-- `OperationQueue`: the operations in the order of their timestamps. -/
abbrev OperationQueue := List Operation

namespace OperationQueue

/-- `OperationQueue::insert`. -/
def insert (queue : OperationQueue) (ops : List Operation) : OperationQueue :=
  KeyedList.insertAll Operation.timestamp queue
    (KeyedList.sortDedup Operation.timestamp ops)

end OperationQueue

end XorEditor.Text
