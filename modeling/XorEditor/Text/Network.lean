import XorEditor.Text.NewBuffer

/-!
# Runs of several replicas

A network holds one buffer per replica id and the operations produced so far.  In a step
one replica edits, undoes or redoes, opens or closes a transaction, or receives any list
of operations that were produced before.  A run starts with new buffers over one base
text.

`Run.exists_world` gives the world of a run: every buffer, at every point of the run,
agrees with it.

* `Network`, `Action`, `Step`: the replicas and what they do
* `Run`: the runs
-/

namespace XorEditor.Text

open Clock Lib Option

/-- What a replica can do. -/
inductive Action where
  | startTransaction (now : Nat)
  | endTransaction (now : Nat)
  | edit (edits : List (Range × List Char)) (startedAt endedAt : Nat)
  | undo
  | redo
  | undoTransaction (transactionId : Lamport)
  | undoToTransaction (transactionId : Lamport)
  | redoToTransaction (transactionId : Lamport)
  | applyOps (ops : List Operation)

/-- Perform an action: the buffer afterwards, and the operations it returns. -/
def Buffer.perform (self : Buffer) : Action → Option (Buffer × List Operation)
  | Action.startTransaction now => do
    let (self, _) ← self.startTransactionAt now
    pure (self, [])
  | Action.endTransaction now => do
    let (self, _) ← self.endTransactionAt now
    pure (self, [])
  | Action.edit edits startedAt endedAt => do
    let (self, op) ← self.edit edits startedAt endedAt
    pure (self, [op])
  | Action.undo => do
    let (self, result) ← self.undo
    pure (self, (result.map Prod.snd).toList)
  | Action.redo => do
    let (self, result) ← self.redo
    pure (self, (result.map Prod.snd).toList)
  | Action.undoTransaction transactionId => do
    let (self, op) ← self.undoTransaction transactionId
    pure (self, op.toList)
  | Action.undoToTransaction transactionId => self.undoToTransaction transactionId
  | Action.redoToTransaction transactionId => self.redoToTransaction transactionId
  | Action.applyOps ops => do
    let self ← self.applyOps ops
    pure (self, [])

/-- The actions a replica may perform: edits are sorted and disjoint, and received
operations were produced before. -/
def Action.Allowed (b : Buffer) (operations : List Operation) : Action → Prop
  | Action.edit edits _ _ => EditsValid b.snapshot.visibleText edits
  | Action.applyOps ops => ∀ op ∈ ops, op ∈ operations
  | _ => True

instance (b : Buffer) (operations : List Operation) :
    DecidablePred (Action.Allowed b operations)
  | Action.startTransaction _ => isTrue trivial
  | Action.endTransaction _ => isTrue trivial
  | Action.edit edits _ _ => inferInstanceAs (Decidable (EditsValid b.snapshot.visibleText edits))
  | Action.undo => isTrue trivial
  | Action.redo => isTrue trivial
  | Action.undoTransaction _ => isTrue trivial
  | Action.undoToTransaction _ => isTrue trivial
  | Action.redoToTransaction _ => isTrue trivial
  | Action.applyOps ops => inferInstanceAs (Decidable (∀ op ∈ ops, op ∈ operations))

/-- The buffers by replica id, and all operations produced so far. -/
structure Network where
  buffers : Nat → Buffer
  operations : List Operation

namespace Network

/-- One replica performs an action. -/
def act (self : Network) (replica : Nat) (action : Action) : Option Network := do
  let (b, ops) ← (self.buffers replica).perform action
  pure
    { buffers := Function.update self.buffers replica b
      operations := self.operations ++ ops }

/-- All replicas start with the same base text. -/
structure Initial (remoteId : Nat) (baseText : List Char) (N : Network) : Prop where
  buffers : ∀ i, Buffer.new i remoteId baseText = some (N.buffers i)
  operations : N.operations = []

/-- A step of a network. -/
inductive Step (N N' : Network) : Prop
  | act (replica : Nat) (action : Action)
      (hallowed : action.Allowed (N.buffers replica) N.operations)
      (hact : N.act replica action = some N') : Step N N'

/-- The networks of a run, the current one first. -/
inductive Run (remoteId : Nat) (baseText : List Char) : List Network → Prop
  | initial {N : Network} (h : N.Initial remoteId baseText) : Run remoteId baseText [N]
  | step {N N' : Network} {past : List Network} (h : Run remoteId baseText (N :: past))
      (hstep : N.Step N') : Run remoteId baseText (N' :: N :: past)

/-- New buffers for all replicas. -/
def start (remoteId : Nat) (baseText : List Char)
    (h : ∀ i, (Buffer.new i remoteId baseText).isSome = true) : Network where
  buffers i := (Buffer.new i remoteId baseText).get (h i)
  operations := []

/-- Continue a run: each entry says who acts next, and how, given the current network. -/
def runScript : List (Nat × (Network → Action)) → List Network → Option (List Network)
  | [], trace => some trace
  | _ :: _, [] => none
  | (replica, action) :: script, N :: past =>
    if (action N).Allowed (N.buffers replica) N.operations then do
      let N' ← N.act replica (action N)
      runScript script (N' :: N :: past)
    else
      none

theorem Run.start {remoteId : Nat} {baseText : List Char}
    (h : ∀ i, (Buffer.new i remoteId baseText).isSome = true) :
    Run remoteId baseText [Network.start remoteId baseText h] :=
  Run.initial ⟨fun _ => (some_get _).symm, rfl⟩

/-- A script that is played to its end gives a run. -/
theorem Run.runScript {remoteId : Nat} {baseText : List Char} {trace trace' : List Network}
    (h : Run remoteId baseText trace) (script : List (Nat × (Network → Action)))
    (hsome : Network.runScript script trace = some trace') : Run remoteId baseText trace' := by
  induction script generalizing trace with
  | nil =>
    obtain rfl := Option.some.inj hsome
    exact h
  | cons entry script ih =>
    cases trace with
    | nil => simp [Network.runScript] at hsome
    | cons N past =>
      simp only [Network.runScript] at hsome
      split at hsome
      · rename_i hallowed
        simp only [do_eq_some] at hsome
        obtain ⟨N', hact, hrest⟩ := hsome
        exact ih (Run.step h (Step.act entry.1 (entry.2 N) hallowed hact)) hrest
      · simp at hsome

/-- What holds at the end of a script is reached by a run. -/
theorem exists_run_of_script (remoteId : Nat) (baseText : List Char)
    (h : ∀ i, (Buffer.new i remoteId baseText).isSome = true)
    (script : List (Nat × (Network → Action))) (P : Network → Prop)
    (hend : ∃ N past, Network.runScript script [Network.start remoteId baseText h] =
      some (N :: past) ∧ P N) : ∃ N past, Run remoteId baseText (N :: past) ∧ P N := by
  obtain ⟨N, past, hsome, hP⟩ := hend
  exact ⟨N, past, (Run.start h).runScript script hsome, hP⟩

/-- Replica 1 inserts a byte, replica 2 receives it and deletes it with its neighbour, and
replica 1 undoes its insertion. -/
def insertDeleteUndo : List (Nat × (Network → Action)) :=
  [(1, fun _ => Action.edit [({ start := 1, stop := 1 }, ['b'])] 0 0),
    (2, fun N => Action.applyOps N.operations),
    (2, fun _ => Action.edit [({ start := 0, stop := 2 }, [])] 0 0),
    (1, fun N => Action.applyOps N.operations),
    (1, fun _ => Action.undo)]

end Network

section Perform

variable {W : World} {replicaId : Nat} {b b' : Buffer} {ops : List Operation}

/-- The members of the undo family move an entry between the stacks and undo its
transaction. -/
theorem World.Replica.undoEntry {α : Type} {history : History} {entry : Option HistoryEntry}
    {result : Option α} (h : W.Replica replicaId b) (hW : W.Valid)
    (tag : HistoryEntry → Operation → α) (op : α → Operation)
    (hop : ∀ entry operation, op (tag entry operation) = operation) (hsome : (match entry with
      | some entry => do
        let (self, operation) ← Buffer.undoOrRedo { b with history } entry.transaction
        pure (self, some (tag entry operation))
      | none => pure ({ b with history }, none)) = some (b', result))
    (hmoved : b.history.Moved history entry.toList) :
    ∃ W', W.Grows (result.map op).toList W' ∧ W'.Replica replicaId b' ∧
      ∀ op' ∈ (result.map op).toList, op'.replicaId = replicaId := by
  refine h.undoMoved hW hmoved ?_
  cases entry with
  | none =>
    obtain ⟨rfl, rfl⟩ := pure_eq_some.mp hsome
    rfl
  | some entry =>
    simp only [do_eq_some, pure_eq_some] at hsome
    obtain ⟨⟨b₁, operation⟩, hundo, rfl, rfl⟩ := hsome
    simp [Buffer.undoOrRedoAll, hundo, hop]

/-- Every allowed action keeps a replica; the operations it returns are added to the
world. -/
theorem World.Replica.perform (h : W.Replica replicaId b) (hW : W.Valid) {action : Action}
    (hallowed : action.Allowed b W.operations) (hsome : b.perform action = some (b', ops)) :
    ∃ W', W.Grows ops W' ∧ W'.Replica replicaId b' ∧ ∀ op ∈ ops, op.replicaId = replicaId := by
  have hnone : W.Replica replicaId b' → ops = [] → ∃ W', W.Grows ops W' ∧ W'.Replica replicaId b' ∧
        ∀ op ∈ ops, op.replicaId = replicaId := by
    rintro hreplica rfl
    exact ⟨W, World.Grows.refl W, hreplica, by simp⟩
  cases action with
  | startTransaction now =>
    simp only [Buffer.perform, do_eq_some, pure_eq_some] at hsome
    obtain ⟨⟨b₁, id⟩, hstart, rfl, rfl⟩ := hsome
    exact hnone (h.startTransactionAt hstart).1 rfl
  | endTransaction now =>
    simp only [Buffer.perform, do_eq_some, pure_eq_some] at hsome
    obtain ⟨⟨b₁, result⟩, hend, rfl, rfl⟩ := hsome
    exact hnone (h.endTransactionAt hend) rfl
  | edit edits startedAt endedAt =>
    simp only [Buffer.perform, do_eq_some, pure_eq_some] at hsome
    obtain ⟨⟨b₁, op⟩, hedit, rfl, rfl⟩ := hsome
    obtain ⟨W', hgrows, hreplica, hop⟩ := h.edit hW hallowed hedit
    exact ⟨W', hgrows, hreplica, by simpa using hop⟩
  | undo =>
    simp only [Buffer.perform, Buffer.undo, do_eq_some, pure_eq_some] at hsome
    obtain ⟨⟨b₁, result⟩, ⟨⟨history, entry⟩, hpop, hentry⟩, rfl, rfl⟩ := hsome
    exact h.undoEntry hW (fun entry op => (entry.transaction.id, op)) Prod.snd (fun _ _ => rfl)
      hentry (History.moved_popUndo hpop)
  | redo =>
    simp only [Buffer.perform, Buffer.redo, do_eq_some, pure_eq_some] at hsome
    obtain ⟨⟨b₁, result⟩, ⟨⟨history, entry⟩, hpop, hentry⟩, rfl, rfl⟩ := hsome
    exact h.undoEntry hW (fun entry op => (entry.transaction.id, op)) Prod.snd (fun _ _ => rfl)
      hentry (History.moved_popRedo hpop)
  | undoTransaction transactionId =>
    simp only [Buffer.perform, Buffer.undoTransaction, do_eq_some, pure_eq_some] at hsome
    obtain ⟨⟨b₁, result⟩, ⟨⟨history, entry⟩, hpop, hentry⟩, rfl, rfl⟩ := hsome
    rw [← map_id' (x := result)]
    exact h.undoEntry hW (fun _ op => op) _ (fun _ _ => rfl) hentry
      (History.moved_removeFromUndo hpop)
  | undoToTransaction transactionId =>
    simp only [Buffer.perform, Buffer.undoToTransaction, do_eq_some] at hsome
    obtain ⟨⟨history, entries⟩, hremove, hall⟩ := hsome
    exact h.undoMoved hW (History.moved_removeFromUndoUntil hremove) hall
  | redoToTransaction transactionId =>
    simp only [Buffer.perform, Buffer.redoToTransaction, do_eq_some] at hsome
    obtain ⟨⟨history, entries⟩, hremove, hall⟩ := hsome
    exact h.undoMoved hW (History.moved_removeFromRedo hremove) hall
  | applyOps received =>
    simp only [Buffer.perform, do_eq_some, pure_eq_some] at hsome
    obtain ⟨b₁, happly, rfl, rfl⟩ := hsome
    exact hnone (h.applyOps hW hallowed happly) rfl

end Perform

namespace Network

variable {remoteId : Nat} {baseText : List Char}

/-- What a world and a run have in common. -/
structure Describes (W : World) (baseText : List Char) (N : Network) (past : List Network) :
    Prop where
  valid : W.Valid
  base : W.base = baseRope baseText
  operations : W.operations = N.operations
  replicas : ∀ i, W.Replica i (N.buffers i)
  consistent : ∀ N' ∈ N :: past, ∀ i, W.Consistent (N'.buffers i).snapshot (N'.buffers i).applied

theorem Describes.step {W : World} {N N' : Network} {past : List Network}
    (h : Describes W baseText N past) (hstep : N.Step N') :
    ∃ W', Describes W' baseText N' (N :: past) := by
  obtain ⟨replica, action, hallowed, hact⟩ := hstep
  simp only [act, do_eq_some] at hact
  obtain ⟨⟨b, ops⟩, hperform, heq⟩ := hact
  obtain rfl := Option.some.inj heq
  rw [← h.operations] at hallowed
  obtain ⟨W', hgrows, hreplica, hops⟩ := (h.replicas replica).perform h.valid hallowed hperform
  have hreplicas : ∀ i, W'.Replica i (Function.update N.buffers replica b i) := by
    intro i
    by_cases heq : i = replica
    · subst heq
      rw [Function.update_self]
      exact hreplica
    · rw [Function.update_of_ne heq]
      exact (h.replicas i).grow h.valid hgrows fun op hop hi => heq (hi.symm.trans (hops op hop))
  refine ⟨W', hgrows.valid h.valid, hgrows.base_eq.trans h.base, ?_, hreplicas, ?_⟩
  · rw [hgrows.operations_eq, h.operations]
  · intro N' hN' i
    rcases List.mem_cons.mp hN' with rfl | hN'
    · exact (hreplicas i).consistent
    · exact hgrows.consistent h.valid (h.consistent N' hN' i)

/-- All buffers of a run, at all times, agree with one world. -/
theorem Run.exists_world {N : Network} {past : List Network}
    (h : Run remoteId baseText (N :: past)) : ∃ W, Describes W baseText N past := by
  generalize hall : N :: past = trace at h
  induction h generalizing N past with
  | initial hinitial =>
    obtain ⟨rfl, rfl⟩ := List.cons.inj hall
    obtain ⟨W, hvalid, hoperations, hbase, hnew⟩ := exists_initial_world baseText
    have hreplica : ∀ i, W.Replica i (N.buffers i) :=
      fun i => hnew i remoteId _ (hinitial.buffers i)
    refine ⟨W, hvalid, hbase, by rw [hoperations, hinitial.operations], hreplica, ?_⟩
    intro N' hN' i
    rw [List.mem_singleton.mp hN']
    exact (hreplica i).consistent
  | step _ hstep ih =>
    obtain ⟨rfl, rfl⟩ := List.cons.inj hall
    obtain ⟨W, hW⟩ := ih rfl
    exact hW.step hstep

end Network

end XorEditor.Text
