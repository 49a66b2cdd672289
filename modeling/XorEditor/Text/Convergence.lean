import XorEditor.Text.Network

/-!
# Convergence

Two replicas that have applied the same operations hold the same bytes in the same order,
with the same visibility and the same deletions, and hence the same texts.  The deletions
of a byte stand in the order in which a replica has applied them, so replicas agree on
them only as sets.

* `SameByte`: equal up to the order of the deletions
* `Run.convergence`: equal logs give equal bytes
* `Run.sameBytes_of_version`: so do equal versions
-/

namespace XorEditor.Text

open Clock Lib List

/-- Two replicas agree on a byte. -/
structure SameByte (a a' : Atom) : Prop where
  timestamp : a.timestamp = a'.timestamp
  offset : a.offset = a'.offset
  visible : a.visible = a'.visible
  deletions : a.deletions.Perm a'.deletions

theorem SameByte.id {a a' : Atom} (h : SameByte a a') : a.id = a'.id :=
  Prod.ext h.timestamp h.offset

section Texts

variable {byteAt : ByteId → UInt8} {atoms atoms' : List Atom}

theorem bytes_of_sameBytes (p : Bool → Bool) (h : List.Forall₂ SameByte atoms atoms') :
    (atoms.filter fun a => p a.visible).map (fun a => byteAt a.id) =
      (atoms'.filter fun a => p a.visible).map fun a => byteAt a.id := by
  induction h with
  | nil => rfl
  | cons hbyte _ ih =>
    simp only [filter_cons, hbyte.visible] at ih ⊢
    split
    · rw [map_cons, map_cons, ih, hbyte.id]
    · exact ih

end Texts

namespace World.Consistent

variable {W : World} {snapshot snapshot' : BufferSnapshot} {applied applied' : List Operation}

/-- The edits that delete a byte of a buffer are determined by its version. -/
theorem mem_deletions_iff (hW : W.Valid) (h : W.Consistent snapshot applied) {a : Atom}
    (ha : a ∈ atomsOf snapshot.fragments) (d : Lamport) :
    d ∈ a.deletions ↔ ∃ edit, Operation.edit edit ∈ W.operations ∧
      snapshot.version.observed edit.timestamp = true ∧ edit.timestamp = d ∧
      W.deletes d a.id := by
  rw [h.mem_deletions a ha]
  constructor
  · rintro ⟨edit, hedit, rfl, hdeletes⟩
    have hmem := h.log.mem _ hedit
    exact ⟨edit, hmem, (h.log.observed_iff hW hmem).mpr hedit, rfl, hdeletes⟩
  · rintro ⟨edit, hedit, hobserved, rfl, hdeletes⟩
    exact ⟨edit, (h.log.observed_iff hW hedit).mp hobserved, rfl, hdeletes⟩

/-- Two consistent snapshots of one version hold the same bytes. -/
theorem sameBytes (hW : W.Valid) (h : W.Consistent snapshot applied)
    (h' : W.Consistent snapshot' applied') (hversion : snapshot.version = snapshot'.version) :
    List.Forall₂ SameByte (atomsOf snapshot.fragments) (atomsOf snapshot'.fragments) := by
  have hids : (atomsOf snapshot.fragments).map Atom.id =
      (atomsOf snapshot'.fragments).map Atom.id := by rw [h.ids, h'.ids, hversion]
  have hlength : (atomsOf snapshot.fragments).length = (atomsOf snapshot'.fragments).length := by
    simpa using congrArg List.length hids
  refine forall₂_iff_get.mpr ⟨hlength, fun i hi hi' => ?_⟩
  have hid : ((atomsOf snapshot.fragments).get ⟨i, hi⟩).id =
      ((atomsOf snapshot'.fragments).get ⟨i, hi'⟩).id := by
    have := congrArg (fun list => list[i]?) hids
    simpa [hi, hi'] using this
  have hmem := get_mem (atomsOf snapshot.fragments) ⟨i, hi⟩
  have hmem' := get_mem (atomsOf snapshot'.fragments) ⟨i, hi'⟩
  generalize (atomsOf snapshot.fragments).get ⟨i, hi⟩ = a at hid hmem
  generalize (atomsOf snapshot'.fragments).get ⟨i, hi'⟩ = a' at hid hmem'
  refine ⟨congrArg Prod.fst hid, congrArg Prod.snd hid, ?_, ?_⟩
  · rw [Bool.eq_iff_iff, h.visible_iff hmem hW, h'.visible_iff hmem' hW, hid, hversion]
  · rw [perm_ext_iff_of_nodup (h.deletions_nodup a hmem) (h'.deletions_nodup a' hmem')]
    intro d
    rw [h.mem_deletions_iff hW hmem, h'.mem_deletions_iff hW hmem', hid, hversion]

end World.Consistent

namespace Network

variable {remoteId : Nat} {baseText : List Char} {N : Network} {past : List Network}

/-- Replicas that have applied the same operations have converged. -/
theorem Run.convergence (h : Run remoteId baseText (N :: past)) (i j : Nat)
    (hsame : ∀ op, op ∈ (N.buffers i).applied ↔ op ∈ (N.buffers j).applied) :
    (N.buffers i).snapshot.visibleText = (N.buffers j).snapshot.visibleText ∧
      (N.buffers i).snapshot.deletedText = (N.buffers j).snapshot.deletedText ∧
      List.Forall₂ SameByte (atomsOf (N.buffers i).snapshot.fragments)
        (atomsOf (N.buffers j).snapshot.fragments) := by
  obtain ⟨W, hW⟩ := h.exists_world
  have hi := (hW.replicas i).consistent
  have hj := (hW.replicas j).consistent
  have hbytes := hi.sameBytes hW.valid hj
    (by rw [hi.log.version_eq, hj.log.version_eq, observeAll_congr hsame])
  refine ⟨?_, ?_, hbytes⟩
  · rw [hi.texts.visibleText, hj.texts.visibleText]
    exact bytes_of_sameBytes id hbytes
  · rw [hi.texts.deletedText, hj.texts.deletedText]
    exact bytes_of_sameBytes not hbytes

/-- Replicas 1 and 2 delete the only byte of the base text at the same time, and then
exchange their operations. -/
def concurrentDeletions : List (Nat × (Network → Action)) :=
  [(1, fun _ => Action.edit [({ start := 0, stop := 1 }, [])] 0 0),
    (2, fun _ => Action.edit [({ start := 0, stop := 1 }, [])] 0 0),
    (1, fun N => Action.applyOps N.operations),
    (2, fun N => Action.applyOps N.operations)]

theorem concurrent_deletions_converge : ∃ N past, Run 1 ['a'] (N :: past) ∧
      (N.buffers 1).applied.Perm (N.buffers 2).applied ∧ (N.buffers 1).applied.length = 2 ∧
      List.Forall₂ SameByte (atomsOf (N.buffers 1).snapshot.fragments)
        (atomsOf (N.buffers 2).snapshot.fragments) := by
  obtain ⟨N, past, hrun, hperm, hlength⟩ := exists_run_of_script 1 ['a'] (fun _ => rfl)
    concurrentDeletions
    (fun N => (N.buffers 1).applied.Perm (N.buffers 2).applied ∧ (N.buffers 1).applied.length = 2)
    ⟨_, _, rfl, by decide +kernel⟩
  exact ⟨N, past, hrun, hperm, hlength, (hrun.convergence 1 2 fun op => hperm.mem_iff).2.2⟩

/-- What a buffer knows of each byte, the deletions in the order of their application. -/
def byteHistory (b : Buffer) : List (Lamport × Nat × Bool × List Lamport) :=
  (atomsOf b.snapshot.fragments).map fun a => (a.timestamp, a.offset, a.visible, a.deletions)

/-- The order of the deletions is not the same at all replicas. -/
theorem not_convergence_of_byteHistory :
    ¬ ∀ (remoteId : Nat) (baseText : List Char) (N : Network) (past : List Network) (i j : Nat),
      Run remoteId baseText (N :: past) →
      (∀ op, op ∈ (N.buffers i).applied ↔ op ∈ (N.buffers j).applied) →
      (N.buffers i).snapshot.visibleText = (N.buffers j).snapshot.visibleText ∧
        (N.buffers i).snapshot.deletedText = (N.buffers j).snapshot.deletedText ∧
        byteHistory (N.buffers i) = byteHistory (N.buffers j) := by
  intro hall
  obtain ⟨N, past, hrun, hperm, hne⟩ := exists_run_of_script 1 ['a'] (fun _ => rfl)
    concurrentDeletions
    (fun N => (N.buffers 1).applied.Perm (N.buffers 2).applied ∧
      byteHistory (N.buffers 1) ≠ byteHistory (N.buffers 2))
    ⟨_, _, rfl, by decide +kernel⟩
  exact hne (hall 1 ['a'] N past 1 2 hrun fun op => hperm.mem_iff).2.2

section Times

variable {now : Network} (h : Run remoteId baseText (N :: past)) (hnow : now ∈ N :: past) {i : Nat}
include h hnow

/-- Buffers of one version hold the same bytes, at any two times of a run. -/
theorem Run.sameBytes_of_version {earlier : Network} (hearlier : earlier ∈ N :: past) {j : Nat}
    (hversion : (now.buffers i).version = (earlier.buffers j).version) :
    (now.buffers i).snapshot.visibleText = (earlier.buffers j).snapshot.visibleText ∧
      (now.buffers i).snapshot.deletedText = (earlier.buffers j).snapshot.deletedText ∧
      List.Forall₂ SameByte (atomsOf (now.buffers i).snapshot.fragments)
        (atomsOf (earlier.buffers j).snapshot.fragments) := by
  obtain ⟨W, hW⟩ := h.exists_world
  have hi := hW.consistent now hnow i
  have hj := hW.consistent earlier hearlier j
  have hbytes := hi.sameBytes hW.valid hj hversion
  refine ⟨?_, ?_, hbytes⟩
  · rw [hi.texts.visibleText, hj.texts.visibleText]
    exact bytes_of_sameBytes id hbytes
  · rw [hi.texts.deletedText, hj.texts.deletedText]
    exact bytes_of_sameBytes not hbytes

omit h hnow in
theorem sameBytes_concurrentDeletions : ∃ N past, Run 1 ['a'] (N :: past) ∧
    (N.buffers 1).applied ≠ (N.buffers 2).applied ∧
      (N.buffers 1).snapshot.deletedText = (N.buffers 2).snapshot.deletedText := by
  obtain ⟨N, past, hrun, hne, hversion⟩ := exists_run_of_script 1 ['a'] (fun _ => rfl)
    concurrentDeletions (fun N => (N.buffers 1).applied ≠ (N.buffers 2).applied ∧
      (N.buffers 1).version = (N.buffers 2).version) ⟨_, _, rfl, by decide +kernel⟩
  exact ⟨N, past, hrun, hne, (hrun.sameBytes_of_version mem_cons_self mem_cons_self hversion).2.1⟩

/-- A version has observed exactly the operations that its buffer has applied, each of them once
and behind all that it has observed. -/
theorem Run.applied_iff_observed : (N.operations.map Operation.timestamp).Nodup ∧
    (now.buffers i).applied.Nodup ∧ (∀ op ∈ N.operations,
      (now.buffers i).version.observed op.timestamp = true ↔ op ∈ (now.buffers i).applied) ∧
    ∀ before op after, (now.buffers i).applied = before ++ op :: after → ∀ op' ∈ N.operations,
      op.version.observed op'.timestamp = true → op' ∈ before := by
  obtain ⟨W, hW⟩ := h.exists_world
  have hlog := (hW.consistent now hnow i).log
  rw [← hW.operations]
  exact ⟨hW.valid.timestamps, hlog.nodup, fun _ => hlog.observed_iff hW.valid, hlog.causal⟩

end Times

theorem applied_iff_observed_insertDeleteUndo : ∃ N past, Run 1 ['a', 'c'] (N :: past) ∧
    N.operations.length = 3 ∧ (N.operations.map Operation.timestamp).Nodup := by
  obtain ⟨N, past, hrun, hlength⟩ := exists_run_of_script 1 ['a', 'c'] (fun _ => rfl)
    insertDeleteUndo (fun N => N.operations.length = 3) ⟨_, _, rfl, by decide +kernel⟩
  exact ⟨N, past, hrun, hlength, (hrun.applied_iff_observed (i := 1) mem_cons_self).1⟩

end Network

end XorEditor.Text
