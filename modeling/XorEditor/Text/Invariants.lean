import XorEditor.Text.Network

/-!
# The representation invariant of a buffer

What `check_invariants` tests, stated for every buffer of every run: the locators of the
fragments increase, the insertions tree lists exactly the fragments, the fragments of an
insertion tile its text, the visible flags agree with the undo map, and the two ropes are
the texts of the visible and of the other fragments.

The text of an insertion is read off the operations that the buffer has applied, so the
invariant speaks about one buffer alone.  It is derived from the agreement of the buffer
with the world of its run.

* `Tiles`: fragments that tile a text
* `Buffer.RepInvariant`: the invariant
* `Run.repInvariant`: it holds in every run
-/

namespace XorEditor.Text

open Clock Lib List

/-- The text that the applied operations, or the base text, inserted under a timestamp. -/
def insertionText (base : Rope) (applied : List Operation) (timestamp : Lamport) : Rope :=
  match applied.find? fun op => decide (op.timestamp = timestamp) with
  | some (Operation.edit edit) => edit.newText.flatMap utf8
  | some (Operation.undo _) => []
  | none => if timestamp = baseTimestamp then base else []

/-- The text of a fragment: a slice of the text of its insertion. -/
def Fragment.textIn (base : Rope) (applied : List Operation) (f : Fragment) : Rope :=
  ((insertionText base applied f.timestamp).drop f.insertionOffset).take f.len

/-- Each fragment begins where the one before it ends. -/
def Tiles (start stop : Nat) : List Fragment → Prop
  | [] => start = stop
  | f :: fs => f.insertionOffset = start ∧ Tiles (start + f.len) stop fs

/-- The representation invariant of a buffer that began with the text `base`. -/
structure Buffer.RepInvariant (base : Rope) (b : Buffer) : Prop where
  locators : b.snapshot.fragments.Pairwise fun f g => f.id < g.id
  len_pos : ∀ f ∈ b.snapshot.fragments, 0 < f.len
  insertions_ordered : b.snapshot.insertions.Pairwise fun x y => x.key < y.key
  insertions_perm : b.snapshot.insertions.Perm (b.snapshot.fragments.map InsertionFragment.new)
  tiles : ∀ timestamp, Tiles 0 (insertionText base b.applied timestamp).length
    (b.snapshot.fragments.filter fun f => decide (f.timestamp = timestamp))
  visible : ∀ f ∈ b.snapshot.fragments, f.visible = f.isVisible b.snapshot.undoMap
  visibleText : b.snapshot.visibleText =
    (b.snapshot.fragments.filter Fragment.visible).flatMap (Fragment.textIn base b.applied)
  deletedText : b.snapshot.deletedText =
    (b.snapshot.fragments.filter fun f => !f.visible).flatMap (Fragment.textIn base b.applied)

section Tiling

variable {fs : List Fragment} {timestamp : Lamport}

theorem map_id_atoms (f : Fragment) :
    f.atoms.map Atom.id = (List.range' f.insertionOffset f.len).map fun i => (f.timestamp, i) := by
  rw [Fragment.atoms, map_map, range'_eq_map_range, map_map]
  rfl

/-- Fragments whose bytes are consecutive tile them. -/
theorem tiles_of_ids (hpos : ∀ f ∈ fs, 0 < f.len) {start n : Nat}
    (hids : (atomsOf fs).map Atom.id = (List.range' start n).map fun i => (timestamp, i)) :
    Tiles start (start + n) fs := by
  induction fs generalizing start n with
  | nil =>
    have hn : 0 = n := by simpa using congrArg List.length hids
    simp [Tiles, ← hn]
  | cons f fs ih =>
    have hlen : f.len ≤ n := by
      have := congrArg List.length hids
      simp only [atomsOf_cons, map_append, length_append, length_map,
        Fragment.length_atoms, length_range'] at this
      omega
    obtain ⟨m, rfl⟩ := Nat.exists_eq_add_of_le hlen
    rw [atomsOf_cons, map_append, map_id_atoms, ← range'_append_1, map_append] at hids
    obtain ⟨hfirst, hrest⟩ := append_inj hids (by simp)
    obtain ⟨k, hk⟩ := Nat.exists_eq_add_of_lt (hpos f mem_cons_self)
    have hstart : f.insertionOffset = start := by
      rw [hk, Nat.zero_add, range'_succ, range'_succ, map_cons, map_cons, List.cons.injEq] at hfirst
      exact (Prod.mk.inj hfirst.1).2
    refine ⟨hstart, ?_⟩
    have := ih (fun g hg => hpos g (mem_cons_of_mem _ hg)) hrest
    rwa [Nat.add_assoc] at this

end Tiling

section FragmentTexts

variable (byteAt : ByteId → UInt8)

theorem visibleBytes_atomsOf (fs : List Fragment) : visibleBytes byteAt (atomsOf fs) =
      (fs.filter Fragment.visible).flatMap (Fragment.bytes byteAt) := by
  rw [visibleBytes, filter_atomsOf (q := Fragment.visible) fun _ _ _ _ => rfl, atomsOf, map_flatMap]
  rfl

theorem deletedBytes_atomsOf (fs : List Fragment) : deletedBytes byteAt (atomsOf fs) =
      (fs.filter fun f => !f.visible).flatMap (Fragment.bytes byteAt) := by
  rw [deletedBytes, filter_atomsOf (q := fun f => !f.visible) fun _ _ _ _ => rfl, atomsOf,
    map_flatMap]
  rfl

end FragmentTexts

namespace World

variable {W : World} {snapshot : BufferSnapshot} {applied : List Operation}

/-- The bytes of one insertion, in the order of their offsets. -/
theorem Valid.filter_sequence (hW : W.Valid) (timestamp : Lamport) :
    W.sequence.filter (fun byte => decide (byte.1 = timestamp)) =
      (List.range' 0 (W.insertedText timestamp).length).map fun i => (timestamp, i) := by
  refine @KeyedList.Ordered.eq_of_mem_iff _ _ _ Prod.snd _ _ ?_ ?_ fun byte => ?_
  · refine (hW.ordered.filter _).imp_of_mem fun hx hy hxy => hxy ?_
    simp only [mem_filter, decide_eq_true_eq] at hx hy
    rw [hx.2, hy.2]
  · rw [KeyedList.Ordered, pairwise_map]
    exact pairwise_lt_range'
  · simp only [mem_filter, decide_eq_true_eq, hW.mem_sequence, mem_map,
      mem_range'_1, Nat.zero_le, true_and, Nat.zero_add]
    constructor
    · rintro ⟨hlt, rfl⟩
      exact ⟨byte.2, hlt, rfl⟩
    · rintro ⟨i, hi, rfl⟩
      exact ⟨hi, rfl⟩

namespace Consistent

section Insertions

variable (h : W.Consistent snapshot applied)
include h

/-- Under an observed timestamp the applied operations inserted what the world says, and
under any other nothing. -/
theorem insertionText_eq (hW : W.Valid) (timestamp : Lamport) :
    insertionText W.base applied timestamp =
      if snapshot.version.observed timestamp then W.insertedText timestamp else [] := by
  cases hfind : applied.find? fun op => decide (op.timestamp = timestamp) with
  | some op =>
    have hop := mem_of_find?_eq_some hfind
    obtain rfl : op.timestamp = timestamp := by simpa using find?_some hfind
    have hobserved := (h.log.observed_iff hW (h.log.mem op hop)).mpr hop
    have hworld := hW.find_operation (h.log.mem op hop)
    rw [if_pos hobserved]
    cases op with
    | edit edit | undo undo => simp only [insertionText, insertedText, hfind, hworld]
  | none =>
    rw [find?_eq_none] at hfind
    have hnone : ∀ op ∈ W.operations, snapshot.version.observed op.timestamp = true →
        op.timestamp ≠ timestamp := fun op hop hobserved heq =>
      hfind op ((h.log.observed_iff hW hop).mp hobserved) (decide_eq_true heq)
    have happlied : insertionText W.base applied timestamp =
        if timestamp = baseTimestamp then W.base else [] := by
      rw [insertionText, find?_eq_none.mpr hfind]
    rw [happlied]
    by_cases hobserved : snapshot.version.observed timestamp = true
    · -- An observed timestamp of no applied operation is that of no operation at all.
      have hworld : (W.operations.find? fun op => decide (op.timestamp = timestamp)) = none := by
        refine find?_eq_none.mpr fun op hop heq => ?_
        have heq := of_decide_eq_true heq
        exact hnone op hop (heq ▸ hobserved) heq
      rw [if_pos hobserved, insertedText, hworld]
    · rw [if_neg hobserved]
      split
      · rename_i hbase
        -- The base text is not observed only if it is empty.
        cases hb : W.base with
        | nil => rfl
        | cons byte rest =>
          have hmem : (baseTimestamp, 0) ∈ W.baseBytes := by simp [baseBytes, hb]
          exact absurd (hbase ▸ observed_base h.log.base hmem) hobserved
      · rfl

theorem tiles (hW : W.Valid) (timestamp : Lamport) :
    Tiles 0 (insertionText W.base applied timestamp).length
      (snapshot.fragments.filter fun f => decide (f.timestamp = timestamp)) := by
  have hpos : ∀ f ∈ snapshot.fragments.filter (fun f => decide (f.timestamp = timestamp)),
      0 < f.len := fun f hf => (h.indexed.valid f (mem_filter.mp hf).1).len_pos
  have hids : (atomsOf (snapshot.fragments.filter
      fun f => decide (f.timestamp = timestamp))).map Atom.id =
      (List.range' 0 (insertionText W.base applied timestamp).length).map
        fun i => (timestamp, i) := by
    rw [← filter_atomsOf (p := fun a : Atom => decide (a.id.1 = timestamp)) fun _ _ _ _ => rfl,
      ← Function.comp_def (fun byte : ByteId => decide (byte.1 = timestamp)), ← filter_map, h.ids,
      observedBytes, filter_comm, hW.filter_sequence,
      h.insertionText_eq hW]
    split
    · rename_i hobserved
      refine filter_eq_self.mpr fun byte hbyte => ?_
      obtain ⟨i, -, rfl⟩ := mem_map.mp hbyte
      exact hobserved
    · rename_i hobserved
      refine filter_eq_nil_iff.mpr fun byte hbyte => ?_
      obtain ⟨i, -, rfl⟩ := mem_map.mp hbyte
      exact hobserved
  simpa using tiles_of_ids hpos hids

/-- The bytes of a fragment are its slice of the inserted text. -/
theorem bytes_eq_textIn (hW : W.Valid) {f : Fragment} (hf : f ∈ snapshot.fragments) :
    f.bytes W.byteAt = f.textIn W.base applied := by
  have hlt : ∀ i, i < f.len → f.insertionOffset + i < (W.insertedText f.timestamp).length :=
    fun i hi => (hW.mem_sequence _).mp (h.mem_observedBytes (atomAt_mem_atomsOf hf hi)).1
  have hpos := (h.indexed.valid f hf).len_pos
  have hobserved : snapshot.version.observed f.timestamp = true :=
    (h.mem_observedBytes (atomAt_mem_atomsOf hf hpos)).2
  rw [Fragment.textIn, h.insertionText_eq hW, if_pos hobserved]
  have hlast := hlt (f.len - 1) (by omega)
  refine ext_getElem (by simp; omega) fun i hi hi' => ?_
  have hi : i < f.len := by simpa using hi
  have hget := hlt i hi
  simp only [Fragment.bytes, Fragment.atoms, getElem_map, getElem_range, getElem_take, getElem_drop]
  change (W.insertedText f.timestamp).getD (f.insertionOffset + i) 0 = _
  rw [getD_eq_getElem?_getD, getElem?_eq_getElem hget, Option.getD_some]

theorem insertions_perm :
    snapshot.insertions.Perm (snapshot.fragments.map InsertionFragment.new) := by
  have hkeys : snapshot.insertions.Nodup :=
    h.indexed.insertions_ordered.imp fun hlt heq => absurd (heq ▸ hlt) (lt_irrefl _)
  have hfragments : (snapshot.fragments.map InsertionFragment.new).Nodup :=
    pairwise_map.mpr (h.indexed.ids.imp fun hlt heq =>
      absurd (congrArg InsertionFragment.fragmentId heq) (ne_of_lt hlt))
  rw [perm_ext_iff_of_nodup hkeys hfragments]
  intro entry
  rw [h.indexed.mem_insertions, mem_map]

end Insertions

end Consistent

end World

namespace Network

variable {remoteId : Nat} {baseText : List Char} {N : Network} {past : List Network}

/-- Every buffer of every run satisfies the representation invariant. -/
theorem Run.repInvariant (h : Run remoteId baseText (N :: past)) (i : Nat) :
    (N.buffers i).RepInvariant (baseRope baseText) := by
  obtain ⟨W, hdescribes⟩ := h.exists_world
  have hW := hdescribes.valid
  have hi := (hdescribes.replicas i).consistent
  rw [← hdescribes.base]
  refine ⟨hi.indexed.ids, fun f hf => (hi.indexed.valid f hf).len_pos,
    hi.indexed.insertions_ordered, hi.insertions_perm, hi.tiles hW, fun f hf => ?_, ?_, ?_⟩
  · exact hi.visible _ (atomAt_mem_atomsOf hf (hi.indexed.valid f hf).len_pos)
  · rw [hi.texts.visibleText, visibleBytes_atomsOf]
    exact flatMap_congr fun f hf => hi.bytes_eq_textIn hW (mem_filter.mp hf).1
  · rw [hi.texts.deletedText, deletedBytes_atomsOf]
    exact flatMap_congr fun f hf => hi.bytes_eq_textIn hW (mem_filter.mp hf).1

/-- A base text that was split by an insertion, deleted and restored. -/
theorem repInvariant_insertDeleteUndo :
    ∃ N past, Run 1 ['a', 'c'] (N :: past) ∧ 3 ≤ (N.buffers 1).snapshot.fragments.length ∧
      (N.buffers 1).RepInvariant (baseRope ['a', 'c']) := by
  obtain ⟨N, past, hrun, hlength⟩ := exists_run_of_script 1 ['a', 'c'] (fun _ => rfl)
    insertDeleteUndo (fun N => 3 ≤ (N.buffers 1).snapshot.fragments.length)
    ⟨_, _, rfl, by decide +kernel⟩
  exact ⟨N, past, hrun, hlength, hrun.repInvariant 1⟩

/-- The undo index is complete: for applied operations `fragment_ids_for_edits` returns, in
increasing order, the locators of exactly the fragments that they inserted or deleted. -/
theorem Run.fragmentIdsForEdits_complete (h : Run remoteId baseText (N :: past)) (i : Nat)
    {editIds : List Lamport}
    (happlied : ∀ editId ∈ editIds, ∃ op ∈ (N.buffers i).applied, op.timestamp = editId) :
    ((N.buffers i).snapshot.fragmentIdsForEdits editIds).Pairwise (· < ·) ∧
      ∀ id, id ∈ (N.buffers i).snapshot.fragmentIdsForEdits editIds ↔
        ∃ f ∈ (N.buffers i).snapshot.fragments, f.id = id ∧
          ∃ editId ∈ editIds, f.timestamp = editId ∨ editId ∈ f.deletions := by
  obtain ⟨W, hdescribes⟩ := h.exists_world
  have hi := (hdescribes.replicas i).consistent
  -- The base text, whose insertion no slice records, is inserted by no operation.
  have hbase : baseTimestamp ∉ editIds := by
    intro hmem
    obtain ⟨op, hop, heq⟩ := happlied baseTimestamp hmem
    exact hdescribes.valid.timestamp_ne_base (hi.log.mem op hop) heq
  exact fragmentIdsForEdits_spec hi.indexed hbase

/-- The two edits of a run that an undo follows, one an insertion and the other a deletion of
it and of its neighbour. -/
theorem fragmentIdsForEdits_insertDeleteUndo :
    ∃ N past editIds, Run 1 ['a', 'c'] (N :: past) ∧
      (∀ editId ∈ editIds, ∃ op ∈ (N.buffers 1).applied, op.timestamp = editId) ∧
      ((N.buffers 1).snapshot.fragmentIdsForEdits editIds).length = 2 ∧
      ((N.buffers 1).snapshot.fragmentIdsForEdits editIds).Pairwise (· < ·) := by
  obtain ⟨N, past, hrun, hids⟩ := exists_run_of_script 1 ['a', 'c'] (fun _ => rfl)
    insertDeleteUndo (fun N => ((N.buffers 1).snapshot.fragmentIdsForEdits
      ((N.buffers 1).applied.map Operation.timestamp)).length = 2)
    ⟨_, _, rfl, by decide +kernel⟩
  have happlied : ∀ editId ∈ (N.buffers 1).applied.map Operation.timestamp,
      ∃ op ∈ (N.buffers 1).applied, op.timestamp = editId := fun _ => mem_map.mp
  exact ⟨N, past, _, hrun, happlied, hids, (hrun.fragmentIdsForEdits_complete 1 happlied).1⟩

end Network

end XorEditor.Text
