import XorEditor.Text.ApplyOp

/-!
# Receiving operations

`apply_ops` applies the operations it can and puts the others into a queue; then
`flush_deferred_ops` goes once through the queue, in the order of the timestamps, and
skips every replica of which it has deferred an operation.  One pass is enough: what an
operation had observed comes before it in the order, so an operation deferred in the pass
waits for one that is not in the queue (`Blocked`).

* `Queue`, `Flushing`: the queue, and the pass through it
* `applyOps_spec`: what has been applied and what waits
-/

namespace XorEditor.Text

open Clock Lib List

namespace World

variable {W : World} {version : Global} {applied : List Operation} {op : Operation}

/-- An operation waits for another one that has not been applied. -/
def Blocked (W : World) (applied : List Operation) (op : Operation) : Prop :=
  ∃ op' ∈ W.operations, op'.timestamp < op.timestamp ∧
    op.version.observed op'.timestamp = true ∧ op' ∉ applied

theorem Log.blocked_of_not_observedAll (hW : W.Valid) (h : W.Log version applied)
    (hop : op ∈ W.operations) (hnot : version.observedAll op.version ≠ true) :
    W.Blocked applied op := by
  rw [Ne, Global.observedAll_iff, not_forall] at hnot
  obtain ⟨r, hr⟩ := hnot
  have hbase := Global.observedAll_iff.mp h.base r
  rcases hW.version_witnessed op hop r with heq | ⟨op', hop', htimestamp⟩
  · omega
  · have hobserved : op.version.observed op'.timestamp = true := by
      rw [htimestamp, Global.observed_iff]
    have hlt := hW.version_lt op hop r
    refine ⟨op', hop', ?_, hobserved, fun happlied => hr ?_⟩
    · rw [htimestamp, Lamport.lt_iff]
      exact Or.inl hlt
    have := (h.observed_iff hW hop').mpr happlied
    rwa [htimestamp, Global.observed_iff] at this

theorem Log.not_mem_of_blocked (h : W.Log version applied) (hblocked : W.Blocked applied op) :
    op ∉ applied := by
  obtain ⟨op', hop', -, hobserved, hnot⟩ := hblocked
  exact fun happlied => hnot (h.mem_of_causal happlied hop' hobserved)

/-- Later operations do not unblock an operation. -/
theorem Blocked.append {last : Operation} (h : W.Blocked applied op)
    (hlast : op.timestamp < last.timestamp) : W.Blocked (applied ++ [last]) op := by
  obtain ⟨op', hop', hlt, hobserved, hnot⟩ := h
  refine ⟨op', hop', hlt, hobserved, fun hmem => ?_⟩
  rcases mem_append.mp hmem with hmem | hmem
  · exact hnot hmem
  · rw [mem_singleton.mp hmem] at hlt
    exact lt_asymm hlt hlast

/-- What is preserved when operations of a set are received. -/
structure Invariant (W : World) (S : Operation → Prop) (I : Buffer → Prop) : Prop where
  valid : W.Valid
  mem : ∀ {op}, S op → op ∈ W.operations
  consistent : ∀ {b}, I b → W.Consistent b.snapshot b.applied
  apply : ∀ {b op b'}, I b → S op → b.version.observedAll op.version = true →
    b.applyOp op = some b' → I b'
  push : ∀ {b op}, I b → S op → I { b with history := b.history.push op }
  deferredReplicas : ∀ {b} replicas, I b → I { b with deferredReplicas := replicas }
  deferredOps : ∀ {b} ops, I b → I { b with deferredOps := ops }

section ApplyOp

variable {S : Operation → Prop} {I : Buffer → Prop} {b b' : Buffer}

theorem applyOp_of_mem (hW : W.Valid) (h : W.Consistent b.snapshot b.applied)
    (hop : op ∈ b.applied) : b.applyOp op = some b := by
  have hobserved : b.version.observed op.timestamp = true :=
    (h.log.observed_iff hW (h.log.mem op hop)).mpr hop
  rw [Buffer.applyOp, if_pos hobserved]
  rfl

/-- `apply_op` changes nothing, or it adds the operation to the applied ones. -/
theorem applyOp_cases (hW : W.Valid) (h : W.Consistent b.snapshot b.applied)
    (hop : op ∈ W.operations) (hversion : b.version.observedAll op.version = true)
    (hsome : b.applyOp op = some b') : (op ∈ b.applied ∧ b' = b) ∨
      (∃ snapshot patch lamportClock, W.Consistent snapshot (b.applied ++ [op]) ∧
        b.lamportClock.observe op.timestamp = some lamportClock ∧
        b' = { b with
          snapshot
          lamportClock
          published := b.published ++ [patch]
          applied := b.applied ++ [op] }) := by
  by_cases happlied : op ∈ b.applied
  · rw [applyOp_of_mem hW h happlied] at hsome
    exact Or.inl ⟨happlied, (Option.some.inj hsome).symm⟩
  · obtain ⟨snapshot, patch, hconsistent, heq⟩ :=
      Applicable.applyOp ⟨hW, h, hop, happlied, hversion⟩
    rw [heq, Option.map_eq_some_iff] at hsome
    obtain ⟨lamportClock, hclock, rfl⟩ := hsome
    exact Or.inr ⟨snapshot, patch, lamportClock, hconsistent, hclock, rfl⟩

end ApplyOp

/-- What can happen to a received operation. -/
inductive Outcome (I : Buffer → Prop) (acc : Buffer × List Operation) (op : Operation) :
    Buffer × List Operation → Prop
  | known (hmem : op ∈ acc.1.applied) : Outcome I acc op acc
  | applied {b : Buffer} (hinvariant : I b) (happlied : b.applied = acc.1.applied ++ [op])
      (hops : b.deferredOps = acc.1.deferredOps)
      (hreplicas : b.deferredReplicas = acc.1.deferredReplicas) : Outcome I acc op (b, acc.2)
  | deferred (hcan : acc.1.canApplyOp op = false) :
      Outcome I acc op
        ({ acc.1 with deferredReplicas := op.replicaId :: acc.1.deferredReplicas }, acc.2 ++ [op])

/-- The state of a loop over received operations: the buffer and the operations deferred
so far, when the operations `done` have been processed. -/
structure Received (I : Buffer → Prop) (start : Buffer) (done : List Operation)
    (acc : Buffer × List Operation) : Prop where
  invariant : I acc.1
  deferredOps : acc.1.deferredOps = start.deferredOps
  deferred_done : ∀ op ∈ acc.2, op ∈ done
  done_cases : ∀ op ∈ done, op ∈ acc.1.applied ∨ op ∈ acc.2
  applied_cases : ∀ op ∈ acc.1.applied, op ∈ start.applied ∨ op ∈ done
  applied_kept : ∀ op ∈ start.applied, op ∈ acc.1.applied

section Loop

variable {S : Operation → Prop} {I : Buffer → Prop} {start : Buffer} {done : List Operation}
  {acc acc' : Buffer × List Operation}

theorem outcome_applyOrDefer (hI : W.Invariant S I) (hinvariant : I acc.1) (hop : S op)
    (hsome : Buffer.applyOrDefer acc op = some acc') : Outcome I acc op acc' := by
  obtain ⟨b, deferred⟩ := acc
  simp only [Buffer.applyOrDefer] at hsome
  split at hsome
  · rename_i hcan
    rw [Buffer.canApplyOp] at hcan
    split at hcan
    · simp at hcan
    · rw [do_eq_some] at hsome
      obtain ⟨b', happly, heq⟩ := hsome
      obtain rfl := Option.some.inj heq
      rcases applyOp_cases hI.valid (hI.consistent hinvariant) (hI.mem hop) hcan happly with
        ⟨happlied, rfl⟩ | ⟨snapshot, patch, lamportClock, -, -, rfl⟩
      · exact Outcome.known happlied
      · exact Outcome.applied (hI.apply hinvariant hop hcan happly) rfl rfl rfl
  · rename_i hcan
    obtain rfl := Option.some.inj hsome
    exact Outcome.deferred (Bool.not_eq_true _ ▸ hcan)

theorem Received.init {b : Buffer} (h : I b) : Received I b [] (b, []) :=
  ⟨h, rfl, by simp, by simp, fun _ hop => Or.inl hop, fun _ hop => hop⟩

theorem Received.step (hI : W.Invariant S I) (h : Received I start done acc)
    (houtcome : Outcome I acc op acc') : Received I start (done ++ [op]) acc' := by
  have hdeferred : ∀ op' ∈ acc.2, op' ∈ done ++ [op] :=
    fun op' hop' => mem_append_left _ (h.deferred_done op' hop')
  have hcases : ∀ op' ∈ acc.1.applied, op' ∈ start.applied ∨ op' ∈ done ++ [op] :=
    fun op' hop' => (h.applied_cases op' hop').imp_right (mem_append_left _)
  have hsplit {P : Operation → Prop} (hold : ∀ op' ∈ done, P op') (hnew : P op) :
      ∀ op' ∈ done ++ [op], P op' :=
    forall_mem_append.mpr ⟨hold, forall_mem_singleton.mpr hnew⟩
  cases houtcome with
  | known hmem =>
    exact ⟨h.invariant, h.deferredOps, hdeferred, hsplit h.done_cases (Or.inl hmem), hcases,
      h.applied_kept⟩
  | applied hinvariant happlied hops _ =>
    refine ⟨hinvariant, hops.trans h.deferredOps, hdeferred, ?_, ?_, ?_⟩
    · rw [happlied]
      exact hsplit (fun op' hop' => (h.done_cases op' hop').imp_left (mem_append_left _))
        (Or.inl (by simp))
    · rw [happlied]
      exact forall_mem_append.mpr ⟨hcases, fun op' hop' => Or.inr (mem_append_right _ hop')⟩
    · rw [happlied]
      exact fun op' hop' => mem_append_left _ (h.applied_kept op' hop')
  | deferred _ =>
    refine ⟨hI.deferredReplicas _ h.invariant, h.deferredOps, ?_, ?_, hcases, h.applied_kept⟩
    · exact forall_mem_append.mpr ⟨hdeferred, fun _ => mem_append_right _⟩
    · exact hsplit (fun op' hop' => (h.done_cases op' hop').imp_right (mem_append_left _))
        (Or.inr (by simp))

/-- The state of the pass through the queue: everything deferred so far is blocked. -/
structure Flushing (W : World) (I : Buffer → Prop) (start : Buffer) (done : List Operation)
    (acc : Buffer × List Operation) : Prop extends Received I start done acc where
  replicas : ∀ r ∈ acc.1.deferredReplicas, ∃ op ∈ acc.2, op.replicaId = r
  blocked : ∀ op ∈ acc.2, W.Blocked acc.1.applied op

variable (hI : W.Invariant S I) (h : W.Flushing I start done acc) (hop : S op)
  (hdone : ∀ op' ∈ done, S op') (hlt : ∀ op' ∈ done, op'.timestamp < op.timestamp)
include hI h hop hdone hlt

/-- An operation that is deferred in the pass is blocked, by an operation it has observed
or by one of its own replica that was deferred before. -/
theorem Flushing.blocked_of_not_canApplyOp (hcan : acc.1.canApplyOp op = false) :
    W.Blocked acc.1.applied op := by
  have hlog := (hI.consistent h.invariant).log
  rw [Buffer.canApplyOp] at hcan
  split at hcan
  · rename_i hreplica
    obtain ⟨op', hop', hreplica⟩ := h.replicas _ hreplica
    have hmem := h.deferred_done op' hop'
    exact ⟨op', hI.mem (hdone op' hmem), hlt op' hmem,
      hI.valid.version_own op' (hI.mem (hdone op' hmem)) op (hI.mem hop) hreplica (hlt op' hmem),
      hlog.not_mem_of_blocked (h.blocked op' hop')⟩
  · exact hlog.blocked_of_not_observedAll hI.valid (hI.mem hop) (by
      rw [← Buffer.version, hcan]
      exact Bool.false_ne_true)

theorem Flushing.step (houtcome : Outcome I acc op acc') :
    W.Flushing I start (done ++ [op]) acc' := by
  have hreceived := h.toReceived.step hI houtcome
  cases houtcome with
  | known _ => exact ⟨hreceived, h.replicas, h.blocked⟩
  | applied _ happlied _ hreplicas =>
    refine ⟨hreceived, hreplicas ▸ h.replicas, ?_⟩
    rw [happlied]
    exact fun op' hop' => (h.blocked op' hop').append (hlt op' (h.deferred_done op' hop'))
  | deferred hcan =>
    have hblocked := h.blocked_of_not_canApplyOp hI hop hdone hlt hcan
    refine ⟨hreceived, ?_, ?_⟩
    · intro r hr
      rcases mem_cons.mp hr with rfl | hr
      · exact ⟨op, by simp, rfl⟩
      · obtain ⟨op', hop', hreplica⟩ := h.replicas r hr
        exact ⟨op', mem_append_left _ hop', hreplica⟩
    · exact forall_mem_append.mpr ⟨h.blocked, forall_mem_singleton.mpr hblocked⟩

end Loop

/-- The queue of deferred operations. -/
structure Queue (S : Operation → Prop) (queue : OperationQueue) : Prop where
  mem : ∀ op ∈ queue, S op
  ordered : KeyedList.Ordered Operation.timestamp queue

section Queue

variable {S : Operation → Prop} {I : Buffer → Prop} {queue : OperationQueue} {ops : List Operation}
  {b b' : Buffer} {acc : Buffer × List Operation}

theorem Invariant.eq_of_timestamp (hI : W.Invariant S I) {op op' : Operation} (hop : S op)
    (hop' : S op') (heq : op.timestamp = op'.timestamp) : op = op' :=
  hI.valid.eq_of_timestamp (hI.mem hop) (hI.mem hop') heq

theorem distinct_sortDedup (ops : List Operation) :
    (KeyedList.sortDedup Operation.timestamp ops).Pairwise fun x y => x.timestamp ≠ y.timestamp :=
  (KeyedList.ordered_sortDedup ops).imp ne_of_lt

theorem Queue.mem_insert (hI : W.Invariant S I) (h : Queue S queue) (hops : ∀ op ∈ ops, S op)
    (op : Operation) : op ∈ OperationQueue.insert queue ops ↔ op ∈ queue ∨ op ∈ ops := by
  have hsort : ∀ x, x ∈ KeyedList.sortDedup Operation.timestamp ops ↔ x ∈ ops :=
    KeyedList.mem_sortDedup fun x hx y hy heq => hI.eq_of_timestamp (hops x hx) (hops y hy) heq
  rw [OperationQueue.insert, KeyedList.mem_insertAll (distinct_sortDedup ops) h.ordered]
  simp only [hsort]
  rw [@or_comm (op ∈ queue)]
  refine or_congr_right' fun hmem => and_iff_left_of_imp fun hop new hnew heq => hmem ?_
  rwa [← hI.eq_of_timestamp (hops new hnew) (h.mem op hop) heq]

theorem Queue.insert (hI : W.Invariant S I) (h : Queue S queue) (hops : ∀ op ∈ ops, S op) :
    Queue S (OperationQueue.insert queue ops) where
  mem := fun op hop => ((h.mem_insert hI hops op).mp hop).elim (h.mem op) (hops op)
  ordered := h.ordered.insertAll (distinct_sortDedup ops)

theorem Queue.nil (S : Operation → Prop) : Queue S [] := ⟨by simp, List.Pairwise.nil⟩

theorem Queue.before (h : Queue S queue) {done after : List Operation} {op : Operation}
    (hsplit : queue = done ++ op :: after) :
    S op ∧ (∀ op' ∈ done, S op') ∧ ∀ op' ∈ done, op'.timestamp < op.timestamp := by
  subst hsplit
  refine ⟨h.mem op (by simp), fun op' hop' => h.mem op' (by simp [hop']), fun op' hop' => ?_⟩
  exact (pairwise_append.mp h.ordered).2.2 op' hop' op (by simp)

theorem Queue.flushing_step (hI : W.Invariant S I) (h : Queue S queue) {start : Buffer}
    (done : List Operation) (op : Operation) (after : List Operation)
    (acc acc' : Buffer × List Operation) (hsplit : queue = done ++ op :: after)
    (hacc : W.Flushing I start done acc) (hsome : Buffer.applyOrDefer acc op = some acc') :
    W.Flushing I start (done ++ [op]) acc' := by
  obtain ⟨hop, hdone, hlt⟩ := h.before hsplit
  exact hacc.step hI hop hdone hlt (outcome_applyOrDefer hI hacc.invariant hop hsome)

/-- The queue when the operations deferred by a loop are put back. -/
theorem Received.requeue (hI : W.Invariant S I) (h : Received I b ops acc)
    (hqueue : Queue S b.deferredOps) (hops : ∀ op ∈ ops, S op) :
    Queue S (OperationQueue.insert acc.1.deferredOps acc.2) ∧
      ∀ op, op ∈ OperationQueue.insert acc.1.deferredOps acc.2 ↔
        op ∈ b.deferredOps ∨ op ∈ acc.2 := by
  have hdeferred : ∀ op ∈ acc.2, S op := fun op hop => hops op (h.deferred_done op hop)
  rw [h.deferredOps]
  exact ⟨hqueue.insert hI hdeferred, hqueue.mem_insert hI hdeferred⟩

/-- The buffer at the start of the pass. -/
theorem flushing_init (hI : W.Invariant S I) (h : I b) :
    W.Flushing I { b with deferredReplicas := [], deferredOps := [] } []
      ({ b with deferredReplicas := [], deferredOps := [] }, []) :=
  ⟨Received.init (hI.deferredOps [] (hI.deferredReplicas [] h)), by simp, by simp⟩

/-- The pass through the queue leaves only blocked operations in it. -/
theorem flushDeferredOps_spec (hI : W.Invariant S I) (h : I b) (hqueue : Queue S b.deferredOps)
    (hsome : b.flushDeferredOps = some b') : I b' ∧ Queue S b'.deferredOps ∧
      (∀ op ∈ b'.deferredOps, op ∈ b.deferredOps ∧ W.Blocked b'.applied op) ∧
      (∀ op ∈ b.deferredOps, op ∈ b'.applied ∨ op ∈ b'.deferredOps) ∧
      (∀ op ∈ b'.applied, op ∈ b.applied ∨ op ∈ b.deferredOps) ∧
      ∀ op ∈ b.applied, op ∈ b'.applied := by
  simp only [Buffer.flushDeferredOps, do_eq_some] at hsome
  obtain ⟨⟨b₁, deferred⟩, hfold, heq⟩ := hsome
  obtain rfl := Option.some.inj heq
  have hflushed := Loop.foldlM_rule
    (P := W.Flushing I { b with deferredReplicas := [], deferredOps := [] })
    (hqueue.flushing_step hI) (flushing_init hI h) hfold
  obtain ⟨hqueue', hmem⟩ := hflushed.toReceived.requeue hI (Queue.nil S) hqueue.mem
  simp only [not_mem_nil, false_or] at hmem
  refine ⟨hI.deferredOps _ hflushed.invariant, hqueue', ?_, ?_, hflushed.applied_cases,
    hflushed.applied_kept⟩
  · intro op hop
    rw [hmem] at hop
    exact ⟨hflushed.deferred_done op hop, hflushed.blocked op hop⟩
  · intro op hop
    rw [hmem]
    exact hflushed.done_cases op hop

/-- What `apply_ops` has received when it starts to flush. -/
theorem Invariant.received_step (hI : W.Invariant S I) (hops : ∀ op ∈ ops, S op) {start : Buffer}
    (done : List Operation) (op : Operation) (after : List Operation)
    (acc acc' : Buffer × List Operation) (hsplit : ops = done ++ op :: after)
    (hacc : Received I start done acc) (hsome : Buffer.receiveOp acc op = some acc') :
    Received I start (done ++ [op]) acc' := by
  have hop : S op := hops op (by simp [hsplit])
  have hpush : Received I start done
      ({ acc.1 with history := acc.1.history.push op }, acc.2) :=
    { hacc with invariant := hI.push hacc.invariant hop }
  exact hpush.step hI (outcome_applyOrDefer hI hpush.invariant hop hsome)

/-- The outcome of `apply_ops`. -/
structure AppliedOps (W : World) (S : Operation → Prop) (I : Buffer → Prop) (b : Buffer)
    (ops : List Operation) (b' : Buffer) : Prop where
  invariant : I b'
  queue : Queue S b'.deferredOps
  blocked : ∀ op ∈ b'.deferredOps, W.Blocked b'.applied op
  deferred_cases : ∀ op ∈ b'.deferredOps, op ∈ b.deferredOps ∨ op ∈ ops
  received : ∀ op, op ∈ b.deferredOps ∨ op ∈ ops → op ∈ b'.applied ∨ op ∈ b'.deferredOps
  applied_cases : ∀ op ∈ b'.applied, op ∈ b.applied ∨ op ∈ b.deferredOps ∨ op ∈ ops
  applied_kept : ∀ op ∈ b.applied, op ∈ b'.applied

theorem applyOps_spec (hI : W.Invariant S I) (h : I b) (hqueue : Queue S b.deferredOps)
    (hops : ∀ op ∈ ops, S op) (hsome : b.applyOps ops = some b') : W.AppliedOps S I b ops b' := by
  simp only [Buffer.applyOps, do_eq_some] at hsome
  obtain ⟨⟨b₁, deferred⟩, hfold, hflush⟩ := hsome
  have hreceived := Loop.foldlM_rule (P := Received I b) (hI.received_step hops)
    (Received.init h) hfold
  obtain ⟨hqueue₁, hmem⟩ := hreceived.requeue hI hqueue hops
  obtain ⟨hinvariant, hqueue', hblocked, hcases, happlied, hkept⟩ :=
    flushDeferredOps_spec hI (hI.deferredOps _ hreceived.invariant) hqueue₁ hflush
  refine ⟨hinvariant, hqueue', fun op hop => (hblocked op hop).2, ?_, ?_, ?_, ?_⟩
  · intro op hop
    exact ((hmem op).mp (hblocked op hop).1).imp_right (hreceived.deferred_done op)
  · rintro op (hop | hop)
    · exact hcases op ((hmem op).mpr (Or.inl hop))
    · rcases hreceived.done_cases op hop with hop | hop
      · exact Or.inl (hkept op hop)
      · exact hcases op ((hmem op).mpr (Or.inr hop))
  · intro op hop
    rcases happlied op hop with hop | hop
    · exact (hreceived.applied_cases op hop).imp_right Or.inr
    · exact Or.inr (((hmem op).mp hop).imp_right (hreceived.deferred_done op))
  · exact fun op hop => hkept op (hreceived.applied_kept op hop)

/-- A received operation is applied or deferred, unless applying it fails. -/
theorem exists_applyOrDefer {op : Operation}
    (htotal : acc.1.version.observedAll op.version = true → ∃ b, acc.1.applyOp op = some b) :
    ∃ acc', Buffer.applyOrDefer acc op = some acc' := by
  obtain ⟨b, deferred⟩ := acc
  simp only [Buffer.applyOrDefer]
  split
  · rename_i hcan
    rw [Buffer.canApplyOp] at hcan
    split at hcan
    · simp at hcan
    · obtain ⟨b', happly⟩ := htotal hcan
      exact ⟨_, by rw [happly]; rfl⟩
  · exact ⟨_, rfl⟩

/-- `apply_ops` succeeds if applying an operation whose turn it is never fails. -/
theorem exists_applyOps (hI : W.Invariant S I) (h : I b) (hqueue : Queue S b.deferredOps)
    (hops : ∀ op ∈ ops, S op)
    (htotal : ∀ {b op}, I b → S op → b.version.observedAll op.version = true →
      ∃ b', b.applyOp op = some b') : ∃ b', b.applyOps ops = some b' := by
  obtain ⟨⟨b₁, deferred⟩, hfold⟩ := Loop.foldlM_total (P := Received I b) (hI.received_step hops)
    (fun done op after acc hsplit hacc => by
      have hop : S op := hops op (by simp [hsplit])
      exact exists_applyOrDefer (htotal (hI.push hacc.invariant hop) hop))
    (Received.init h)
  have hreceived := Loop.foldlM_rule (hI.received_step hops) (Received.init h) hfold
  obtain ⟨hqueue₁, -⟩ := hreceived.requeue hI hqueue hops
  obtain ⟨⟨b₂, deferred₂⟩, hflush⟩ := Loop.foldlM_total
    (P := W.Flushing I { b₁ with deferredReplicas := [], deferredOps := [] })
    (hqueue₁.flushing_step hI)
    (fun done op after acc hsplit hacc =>
      exists_applyOrDefer (htotal hacc.invariant (hqueue₁.before hsplit).1))
    (flushing_init hI hreceived.invariant)
  refine ⟨{ b₂ with deferredOps := OperationQueue.insert b₂.deferredOps deferred₂ }, ?_⟩
  simp only [Buffer.applyOps, Buffer.flushDeferredOps, hfold, some_do]
  rw [hflush]
  rfl

end Queue

end World

end XorEditor.Text
