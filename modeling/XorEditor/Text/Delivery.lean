import XorEditor.Text.Network

/-!
# Delivery

A new replica receives a causally closed set of operations in batches, in any order and
with duplicates.  In the end every operation has been applied, once and after its causal
predecessors, and none waits in the queue.  Nothing can go wrong before that, except that
the clock of the replica overflows: it moves with every operation applied.

* `Buffer.deliver`: the batches one after another
* `Run.delivery`: the result
-/

namespace XorEditor.Text

open Clock Lib List

/-- A sequence of `apply_ops` calls. -/
def Buffer.deliver (self : Buffer) (batches : List (List Operation)) : Option Buffer :=
  batches.foldlM Buffer.applyOps self

namespace World

variable {W : World} {ops : List Operation} {b b' : Buffer} {done : List (List Operation)}

/-- A replica that only receives operations of a set: its clock is bounded by their
timestamps and their number. -/
structure Receiver (W : World) (ops : List Operation) (b : Buffer) : Prop where
  consistent : W.Consistent b.snapshot b.applied
  applied_mem : ∀ op ∈ b.applied, op ∈ ops
  clock_le : ∀ n, 2 ≤ n → (∀ op ∈ ops, op.timestamp.value ≤ n) →
    b.lamportClock.value ≤ n + b.applied.length

theorem invariant_receiver (hW : W.Valid) (hops : ∀ op ∈ ops, op ∈ W.operations) :
    W.Invariant (· ∈ ops) (W.Receiver ops) where
  valid := hW
  mem := fun {op} hop => hops op hop
  consistent := fun h => h.consistent
  apply := by
    intro b op b' h hop hversion hsome
    rcases applyOp_cases hW h.consistent (hops op hop) hversion hsome with
      ⟨-, rfl⟩ | ⟨snapshot, patch, lamportClock, hconsistent, hclock, rfl⟩
    · exact h
    · obtain ⟨-, rfl⟩ := Lamport.observe_eq_some.mp hclock
      refine ⟨hconsistent, forall_mem_append.mpr ⟨h.applied_mem, forall_mem_singleton.mpr hop⟩,
        fun n hn hle => ?_⟩
      · have hclock := h.clock_le n hn hle
        have hvalue := hle op hop
        simp only [length_append, length_singleton]
        omega
  push := fun h _ => { h with }
  deferredReplicas := fun _ h => { h with }
  deferredOps := fun _ h => { h with }

/-- Applying an operation succeeds as long as the clock cannot overflow. -/
theorem Receiver.exists_applyOp (hW : W.Valid) (hops : ∀ op ∈ ops, op ∈ W.operations)
    (hbound : ∀ op ∈ ops, op.timestamp.value + ops.length < 2 ^ 32) (h : W.Receiver ops b)
    {op : Operation} (hop : op ∈ ops) (hversion : b.version.observedAll op.version = true) :
    ∃ b', b.applyOp op = some b' := by
  by_cases happlied : op ∈ b.applied
  · exact ⟨b, applyOp_of_mem hW h.consistent happlied⟩
  · have happlicable : W.Applicable b.snapshot b.applied op :=
      ⟨hW, h.consistent, hops op hop, happlied, hversion⟩
    obtain ⟨snapshot, patch, -, heq⟩ := happlicable.applyOp
    have hlength : (b.applied ++ [op]).length ≤ ops.length :=
      (subperm_of_subset happlicable.log.nodup
        (forall_mem_append.mpr ⟨h.applied_mem, forall_mem_singleton.mpr hop⟩)).length_le
    rw [length_append, length_singleton] at hlength
    have hvalue := hbound op hop
    have hge := hW.value_ge op (hops op hop)
    have hclock := h.clock_le (2 ^ 32 - 1 - ops.length) (by omega) fun op' hop' => by
      have := hbound op' hop'
      omega
    have hobserve : ∃ clock, b.lamportClock.observe op.timestamp = some clock :=
      ⟨_, Lamport.observe_eq_some.mpr ⟨by omega, rfl⟩⟩
    obtain ⟨clock, hclock⟩ := hobserve
    exact ⟨_, by rw [heq, hclock]; rfl⟩

/-- The state after some batches have been delivered. -/
structure Delivered (W : World) (ops : List Operation) (done : List (List Operation))
    (b : Buffer) : Prop where
  receiver : W.Receiver ops b
  queue : Queue (· ∈ ops) b.deferredOps
  blocked : ∀ op ∈ b.deferredOps, W.Blocked b.applied op
  received : ∀ op ∈ done.flatten, op ∈ b.applied ∨ op ∈ b.deferredOps

theorem Delivered.step (hI : W.Invariant (· ∈ ops) (W.Receiver ops)) (h : W.Delivered ops done b)
    {batch : List Operation} (hbatch : ∀ op ∈ batch, op ∈ ops)
    (hsome : b.applyOps batch = some b') :
    W.Delivered ops (done ++ [batch]) b' := by
  have happlied := applyOps_spec hI h.receiver h.queue hbatch hsome
  refine ⟨happlied.invariant, happlied.queue, happlied.blocked, fun op hop => ?_⟩
  rw [flatten_append, flatten_singleton, mem_append] at hop
  rcases hop with hop | hop
  · rcases h.received op hop with hop | hop
    · exact Or.inl (happlied.applied_kept op hop)
    · exact happlied.received op (Or.inl hop)
  · exact happlied.received op (Or.inr hop)

/-- When a causally closed set has been delivered, nothing is left in the queue: the first
operation there would wait for an earlier one. -/
theorem Delivered.deferredOps_eq_nil (h : W.Delivered ops done b)
    (hdone : ∀ op ∈ ops, op ∈ done.flatten)
    (hclosed : ∀ op ∈ ops, ∀ op' ∈ W.operations, op.version.observed op'.timestamp = true →
      op' ∈ ops) :
    b.deferredOps = [] := by
  cases hqueue : b.deferredOps with
  | nil => rfl
  | cons op rest =>
    have hop : op ∈ b.deferredOps := by simp [hqueue]
    obtain ⟨op', hop', hlt, hobserved, hnot⟩ := h.blocked op hop
    have hmem := hclosed op (h.queue.mem op hop) op' hop' hobserved
    have hdeferred := (h.received op' (hdone op' hmem)).resolve_left hnot
    have hordered := h.queue.ordered
    rw [hqueue] at hdeferred hordered
    rcases mem_cons.mp hdeferred with rfl | hrest
    · exact absurd hlt (lt_irrefl _)
    · exact absurd hlt (lt_asymm ((pairwise_cons.mp hordered).1 op' hrest))

end World

namespace Network

variable {remoteId : Nat} {baseText : List Char} {N : Network} {past : List Network}

/-- A run begins with new buffers. -/
theorem Run.exists_initial {trace : List Network} (h : Run remoteId baseText trace) :
    ∃ N₀ ∈ trace, N₀.Initial remoteId baseText := by
  induction h with
  | initial hinitial => exact ⟨_, mem_singleton_self _, hinitial⟩
  | step _ _ ih =>
    obtain ⟨N₀, hmem, hinitial⟩ := ih
    exact ⟨N₀, mem_cons_of_mem _ hmem, hinitial⟩

/-- A new buffer over the base text of a run agrees with the world of the run. -/
theorem Run.delivered {W : World} (h : Run remoteId baseText (N :: past))
    (hW : Describes W baseText N past) {replicaId : Nat} {b : Buffer}
    (hnew : Buffer.new replicaId remoteId baseText = some b) (ops : List Operation) :
    W.Delivered ops [] b := by
  obtain ⟨N₀, hmem, hinitial⟩ := h.exists_initial
  obtain rfl : N₀.buffers replicaId = b :=
    Option.some.inj ((hinitial.buffers replicaId).symm.trans hnew)
  have hspec := new_spec hnew
  refine ⟨⟨hW.consistent N₀ hmem replicaId, ?_, fun n hn _ => ?_⟩, ⟨?_, ?_⟩, ?_, by simp⟩
  · simp [hspec.applied]
  · rw [hspec.clock, hspec.applied]
    dsimp only
    split <;> omega
  all_goals simp [hspec.deferredOps, KeyedList.Ordered]

/-- A causally closed set of operations, delivered in any batches that contain all of it,
is applied completely, each operation once and after its causal predecessors.  Delivery
succeeds if the clock of the receiver cannot overflow. -/
theorem Run.delivery (h : Run remoteId baseText (N :: past)) {ops : List Operation}
    (hops : ∀ op ∈ ops, op ∈ N.operations) (hclosed : ∀ op ∈ ops, ∀ op' ∈ N.operations,
      op.version.observed op'.timestamp = true → op' ∈ ops)
    {batches : List (List Operation)} (hbatches : ∀ op, op ∈ batches.flatten ↔ op ∈ ops)
    {replicaId : Nat} {b : Buffer} (hnew : Buffer.new replicaId remoteId baseText = some b) :
    ((∀ op ∈ ops, op.timestamp.value + ops.length < 2 ^ 32) → ∃ b', b.deliver batches = some b') ∧
      (∀ b', b.deliver batches = some b' → b'.hasDeferredOps = false ∧ b'.applied.Nodup ∧
          (∀ op, op ∈ b'.applied ↔ op ∈ ops) ∧ b'.version = observeAll b.version ops) ∧
      ∀ delivered rest b', batches = delivered ++ rest → b.deliver delivered = some b' →
        ∀ before op after, b'.applied = before ++ op :: after →
          ∀ op' ∈ N.operations, op.version.observed op'.timestamp = true → op' ∈ before := by
  obtain ⟨W, hW⟩ := h.exists_world
  rw [← hW.operations] at hops hclosed ⊢
  have hI := World.invariant_receiver hW.valid hops
  have hstart := h.delivered hW hnew ops
  have hmem : ∀ {done batch after}, batches = done ++ batch :: after → ∀ op ∈ batch, op ∈ ops := by
    intro done batch after hsplit op hop
    exact (hbatches op).mp (mem_flatten.mpr ⟨batch, by simp [hsplit], hop⟩)
  -- What is delivered so far is either applied or waits for an earlier operation.
  have hdelivered : ∀ {delivered rest b'}, batches = delivered ++ rest →
      b.deliver delivered = some b' → W.Delivered ops delivered b' := by
    intro delivered rest b' hsplit hsome
    refine Loop.foldlM_rule (P := W.Delivered ops) ?_ hstart hsome
    intro done batch after t t' heq ht hstep
    exact ht.step hI (@hmem done batch (after ++ rest) (by simp [hsplit, heq])) hstep
  refine ⟨fun hbound => ?_, fun b' hsome => ?_, fun delivered rest b' hsplit hsome => ?_⟩
  · refine Loop.foldlM_total (P := W.Delivered ops) ?_ ?_ hstart
    · intro done batch after t t' heq ht hstep
      exact ht.step hI (hmem heq) hstep
    · intro done batch after t heq ht
      exact World.exists_applyOps hI ht.receiver ht.queue (hmem heq)
        fun hreceiver hop => hreceiver.exists_applyOp hW.valid hops hbound hop
  · have hend := hdelivered (append_nil batches).symm hsome
    have hnil := hend.deferredOps_eq_nil (fun op hop => (hbatches op).mpr hop) hclosed
    have hiff : ∀ op, op ∈ b'.applied ↔ op ∈ ops := by
      intro op
      refine ⟨hend.receiver.applied_mem op, fun hop => ?_⟩
      simpa [hnil] using hend.received op ((hbatches op).mpr hop)
    have hlog := hend.receiver.consistent.log
    refine ⟨by simp [Buffer.hasDeferredOps, hnil], hlog.nodup, hiff, ?_⟩
    have hbase : b.version = W.baseVersion := by
      have := hstart.receiver.consistent.log.version_eq
      rwa [(new_spec hnew).applied] at this
    rw [hbase, ← observeAll_congr hiff]
    exact hlog.version_eq
  · exact (hdelivered hsplit hsome).receiver.consistent.log.causal

/-- The operations of a run arrive one by one, the last one first and the first one
twice. -/
theorem reversed_delivery_complete :
    ∃ N past b b', Run 1 ['a'] (N :: past) ∧ N.operations.length = 3 ∧
      Buffer.new 3 1 ['a'] = some b ∧
      b.deliver (N.operations.reverse.map ([·]) ++ [N.operations.take 1]) = some b' ∧
      b'.hasDeferredOps = false ∧ b'.version = observeAll b.version N.operations := by
  obtain ⟨N, past, hrun, hlength, hbound⟩ := exists_run_of_script 1 ['a'] (fun _ => rfl)
    insertDeleteUndo
    (fun N => N.operations.length = 3 ∧ ∀ op ∈ N.operations, op.timestamp.value < 100)
    ⟨_, _, rfl, by decide +kernel⟩
  obtain ⟨b, hnew⟩ : ∃ b, Buffer.new 3 1 ['a'] = some b := ⟨_, rfl⟩
  have hbatches : ∀ op, op ∈ (N.operations.reverse.map ([·]) ++ [N.operations.take 1]).flatten ↔
      op ∈ N.operations := by
    intro op
    rw [flatten_append, flatten_singleton, mem_append]
    have hflatten : op ∈ (N.operations.reverse.map ([·])).flatten ↔ op ∈ N.operations := by
      simp
    rw [hflatten]
    exact ⟨fun hop => hop.elim id mem_of_mem_take, Or.inl⟩
  have hdelivery := hrun.delivery (fun _ hop => hop) (fun _ _ _ hop' _ => hop') hbatches hnew
  obtain ⟨b', hb'⟩ := hdelivery.1 fun op hop => by
    have := hbound op hop
    omega
  obtain ⟨hdeferred, -, -, hversion⟩ := hdelivery.2.1 b' hb'
  exact ⟨N, past, b, b', hrun, hlength, hnew, hb', hdeferred, hversion⟩

end Network

end XorEditor.Text
