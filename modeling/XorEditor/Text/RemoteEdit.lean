import XorEditor.Text.CountedEdit

/-!
# Remote edits, byte by byte

`apply_remote_edit` rewrites the fragments exactly as an edit by ranges of the bytes that
the version of the operation has observed: for each range it passes to the end of the
last observed byte in front of the range, gives way to concurrent insertions with a
higher timestamp, inserts the new text, and marks the observed bytes of the range that
were visible at the version.  In particular it never panics when the ranges lie within
the text of that version.

* `rangeInserts`: the bytes that go in
* `applyRemoteEdit_spec`: the effect
-/

namespace XorEditor.Text

open Clock Lib RangeEdit EditState List

/-- Whether a version has observed the insertion of a byte. -/
def Atom.observedBy (version : Global) (a : Atom) : Bool := version.observed a.timestamp

/-- Whether a remote edit gives way to a byte at the place of its insertion. -/
def Atom.winsAgainst (timestamp : Lamport) (a : Atom) : Bool := decide (timestamp < a.timestamp)

/-- A byte deleted by an edit. -/
def Atom.delete (timestamp : Lamport) (a : Atom) : Atom :=
  { a with deletions := a.deletions ++ [timestamp], visible := false }

/-- A remote edit deletes the bytes of its ranges that were visible at its version. -/
def Atom.markDeleted (version : Global) (undoMap : UndoMap) (timestamp : Lamport) (a : Atom) :
    Atom :=
  if a.wasVisible version undoMap then a.delete timestamp else a

/-- The ranges of an edit with the atoms inserted at each of them. -/
def rangeInserts (timestamp : Lamport) : Nat → List (Range × List Char) →
    List (RangeInsert Atom)
  | _, [] => []
  | offset, (range, text) :: edits =>
    { start := range.start
      stop := range.stop
      inserted := insertedAtoms timestamp offset (utf8 text).length } ::
      rangeInserts timestamp (offset + (utf8 text).length) edits

/-- The length of all texts of an edit. -/
def insertedLen (edits : List (Range × List Char)) : Nat :=
  (edits.map fun edit => (utf8 edit.2).length).sum

/-- The byte function agrees with the texts that an edit inserts from `offset` on. -/
def BytesMatch (byteAt : ByteId → UInt8) (timestamp : Lamport) (offset : Nat) (bytes : Rope) :
    Prop :=
  (List.range bytes.length).map (fun i => byteAt (timestamp, offset + i)) = bytes

variable {byteAt : ByteId → UInt8} {timestamp : Lamport}

theorem BytesMatch.of_append {offset : Nat} {xs ys : Rope}
    (h : BytesMatch byteAt timestamp offset (xs ++ ys)) : BytesMatch byteAt timestamp offset xs ∧
      BytesMatch byteAt timestamp (offset + xs.length) ys := by
  unfold BytesMatch at h ⊢
  rw [length_append, range_add, map_append, map_map] at h
  simpa only [Function.comp_def, Nat.add_assoc] using append_inj h (by simp)

/-- Whether a version has observed the insertion of a fragment. -/
def seenBy (version : Global) (f : Fragment) : Bool := version.observed f.timestamp

section Measure

variable (version : Global)

theorem observedBy_atomAt (f : Fragment) (i : Nat) :
    Atom.observedBy version (f.atomAt i) = seenBy version f := rfl

theorem observedAll_observe (timestamp : Lamport) :
    version.observedAll (Global.new.observe timestamp) = version.observed timestamp := by
  rw [Bool.eq_iff_iff, Global.observedAll_observe_iff, Global.observedAll_iff]
  simp

theorem observedAny_observe (timestamp : Lamport) (h : version.observed timestamp = false) :
    version.observedAny (Global.new.observe timestamp) = false := by
  rw [← Bool.not_eq_true] at h ⊢
  rw [Global.observed_iff] at h
  rw [Global.observedAny_iff, not_exists]
  rintro r ⟨hpos, hle⟩
  rw [Global.get_observe, Global.get_new] at hpos hle
  split at hpos
  · rename_i hr
    rw [if_pos hr, hr, Nat.zero_max] at hle
    exact h hle
  · exact absurd hpos (Nat.lt_irrefl 0)

/-- Full offsets never become invalid on single fragments. -/
theorem addSummary_fragment (position : Nat) (f : Fragment) :
    (VersionedFullOffset.offset position).addSummary version f.summary =
      .offset (position + countedLen (seenBy version) f) := by
  simp only [VersionedFullOffset.addSummary, Fragment.summary, observedAll_observe]
  cases hobs : version.observed f.timestamp with
  | true =>
    rw [countedLen_of_counts (show seenBy version f = true from hobs)]
    cases f.visible <;> simp
  | false =>
    rw [countedLen_of_not_counts (show seenBy version f = false from hobs)]
    simp [observedAny_observe version f.timestamp hobs]

theorem measureFrom_versioned (position visible : Nat) (fs : List Fragment) :
    (versionedDimension version).measureFrom Fragment.summary (.offset position, visible) fs =
      (.offset (position + countedSum (seenBy version) fs),
        visible + countedSum Fragment.visible fs) := by
  induction fs generalizing position visible with
  | nil => rfl
  | cons f fs ih =>
    have hstep : (versionedDimension version).addSummary (.offset position, visible) f.summary =
        (.offset (position + countedLen (seenBy version) f),
          visible + countedLen Fragment.visible f) :=
      congrArg₂ Prod.mk (addSummary_fragment version position f)
        (congrArg (visible + ·) (summary_visible f))
    rw [Dimension.measureFrom_cons, hstep, ih, countedSum_cons, countedSum_cons, Nat.add_assoc,
      Nat.add_assoc]

theorem measure_versioned (fs : List Fragment) :
    ((versionedDimension version).measure Fragment.summary fs).1 =
      VersionedFullOffset.offset (countedSum (seenBy version) fs) := by
  change ((versionedDimension version).measureFrom Fragment.summary (.offset 0, 0) fs).1 = _
  rw [measureFrom_versioned, Nat.zero_add]

end Measure

section Position

variable {version : Global} {state : EditState}

theorem versionedStart_eq :
    state.versionedStart version = some (state.countedStart (seenBy version)) := by
  simp only [EditState.versionedStart, ListCursor.start, measure_versioned]
  rfl

theorem versionedEnd_eq :
    state.versionedEnd version = some (state.countedEnd (seenBy version)) := by
  unfold EditState.versionedEnd
  cases hrest : state.oldFragments.rest with
  | nil =>
    simp only [ListCursor.endPosition, hrest, ListCursor.start, measure_versioned,
      countedEnd_of_nil hrest]
    rfl
  | cons item rest =>
    rw [ListCursor.endPosition_of_rest _ _ hrest, ListCursor.start,
      ← Dimension.measure_concat, measure_versioned, countedEnd_of_cons _ hrest]
    simp [VersionedFullOffset.fullOffset, EditState.countedStart]

theorem stepsOverOffset_iff (target : Nat) (fs : List Fragment) :
    stepsOverOffset target ((versionedDimension version).measure Fragment.summary fs) = true ↔
      countedSum (seenBy version) fs < target := by
  simp only [stepsOverOffset, measure_versioned, VersionedFullOffset.compareOffset]
  exact passes_left_iff target _

/-- The position of a remote edit, which never consumes a fragment to its end. -/
structure EditState.RemoteAt (version : Global) (state : EditState) (consumed : Nat) : Prop
    extends state.CountedAt (seenBy version) consumed where
  lt : ∀ item rest, state.oldFragments.rest = item :: rest → consumed < item.len

end Position

section Blocks

variable {old : List Fragment} {version : Global} {undoMap : UndoMap} {state : EditState}
  {consumed : Nat} {rangeStart rangeEnd : Nat} {item : Fragment} {rest : List Fragment}
  {snapshot : BufferSnapshot}

theorem EditState.RemoteAt.of_start (h : Good byteAt old timestamp state 0)
    (hstart : state.fragmentStart = state.countedStart (seenBy version)) :
    state.RemoteAt version 0 :=
  ⟨.of_start hstart, fun item rest hrest => (h.rest_valid item (by simp [hrest])).len_pos⟩

/-- Copying the current fragment without recording it. -/
theorem keepFragment_step (h : Good byteAt old timestamp state 0)
    (hrest : state.oldFragments.rest = item :: rest) :
    ∃ state', state.pushFragment item item.visible = some state' ∧
      EditStep byteAt old timestamp state 0
        { state' with oldFragments := state'.oldFragments.next } 0 item.atoms item.atoms 0 ∧
      state'.oldFragments = state.oldFragments ∧
      state'.fragmentStart = state.fragmentStart := by
  have htexts := h.texts
  rw [h.pending_zero, hrest] at htexts
  have hfront : item.FrontOf item :=
    ⟨rfl, rfl, (h.rest_valid item (by simp [hrest])).len_pos, Nat.le_refl _⟩
  obtain ⟨newRopes, hpush, htexts'⟩ := htexts.push hfront
  rw [cutFront, if_neg (Nat.lt_irrefl _)] at htexts'
  refine ⟨{ state with newRopes, newFragments := state.newFragments ++ [item] }, ?_, ?_, rfl, rfl⟩
  · simp only [pushFragment, hpush]
    rfl
  · have hsplit : state.oldFragments.rest = [item] ++ rest := hrest
    simpa using h.keep hsplit htexts' (ListCursor.next_of_rest hrest)

/-- The loop that gives way to concurrent insertions. -/
theorem skipConcurrent_loop (rest : List Fragment)
    (hobserved : ∀ f ∈ old, version.observed f.timestamp = true → ¬ timestamp < f.timestamp)
    (h : Good byteAt old timestamp state 0) (hat : state.RemoteAt version 0)
    (hrest : state.oldFragments.rest = rest) (hstart : state.fragmentStart = rangeStart) :
    ∃ state' skipped, skipConcurrent timestamp rangeStart rest state = some state' ∧
      EditStep byteAt old timestamp state 0 state' 0 skipped skipped 0 ∧
      state'.RemoteAt version 0 ∧ state'.fragmentStart = rangeStart ∧
      (∀ a ∈ skipped, Atom.winsAgainst timestamp a = true) ∧
      ∀ item tail, state'.oldFragments.rest = item :: tail → ¬ timestamp < item.timestamp := by
  induction rest generalizing state with
  | nil =>
    refine ⟨state, [], rfl, EditStep.refl h, hat, hstart, by simp, ?_⟩
    intro item tail hcons
    simp [hrest] at hcons
  | cons item rest ih =>
    simp only [skipConcurrent]
    split
    next hcond =>
      obtain ⟨state₁, hpush, hstep₁, hold₁, hstart₁⟩ := keepFragment_step h hrest
      have hunobserved : seenBy version item = false := by
        rw [Bool.eq_false_iff]
        exact fun hobs => hobserved item (h.mem_old (by rw [hrest]; simp)) hobs hcond.2
      have hposition : state.fragmentStart = EditState.countedStart (seenBy version)
          { state₁ with oldFragments := state₁.oldFragments.next } := by
        rw [countedStart_next _ (hold₁ ▸ rfl) hrest, countedLen_of_not_counts hunobserved]
        exact hat.start
      obtain ⟨state₂, skipped, hloop, hstep₂, hat₂, hstart₂, hskipped, hnext⟩ :=
        ih hstep₁.good (.of_start hstep₁.good (hstart₁.trans hposition))
          (by
            change state₁.oldFragments.next.rest = rest
            rw [hold₁, ListCursor.next_of_rest hrest])
          (hstart₁.trans hstart)
      refine ⟨state₂, item.atoms ++ skipped, ?_, hstep₁.trans hstep₂, hat₂, hstart₂, ?_, hnext⟩
      · rw [hpush]
        exact hloop
      · intro a ha
        rcases mem_append.mp ha with ha | ha
        · obtain ⟨i, -, rfl⟩ := Fragment.mem_atoms.mp ha
          exact decide_eq_true hcond.2
        · exact hskipped a ha
    next hcond =>
      refine ⟨state, [], rfl, EditStep.refl h, hat, hstart, by simp, ?_⟩
      intro item' tail hcons
      rw [hrest, List.cons.injEq] at hcons
      rw [← hcons.1]
      exact fun hlt => hcond ⟨hstart, hlt⟩

/-- The first pending byte belongs to the current fragment. -/
theorem head_pending (hat : state.RemoteAt version consumed) {a : Atom} {tail : List Atom}
    (hhead : atomsOf (state.pending consumed) = a :: tail) :
    ∃ item rest, state.oldFragments.rest = item :: rest ∧ a.timestamp = item.timestamp := by
  cases hrest : state.oldFragments.rest with
  | nil => simp [EditState.pending, hrest, cutFront] at hhead
  | cons item rest =>
    have hlt := hat.lt item rest hrest
    rw [EditState.atomsOf_pending hrest (Nat.le_of_lt hlt)] at hhead
    have hne : (item.dropFront consumed).atoms ≠ [] := by
      rw [← length_pos_iff, Fragment.length_atoms]
      exact Nat.sub_pos_of_lt hlt
    have ha : a ∈ (item.dropFront consumed).atoms := by
      obtain ⟨b, bs, hb⟩ := exists_cons_of_ne_nil hne
      rw [hb, cons_append, List.cons.injEq] at hhead
      simp [hb, hhead.1]
    obtain ⟨i, -, rfl⟩ := Fragment.mem_atoms.mp ha
    exact ⟨item, rest, rfl, rfl⟩

section Steps

variable (h : Good byteAt old timestamp state consumed) (hat : state.RemoteAt version consumed)
include h hat

/-- Jumping ahead to the fragment that contains the start of the range, or ends there. -/
theorem seekRemoteRange_step (hrange : state.fragmentStart ≤ rangeStart)
    (hroom : rangeStart ≤ countedSum (seenBy version) old) :
    ∃ state' consumed' moved, seekRemoteRange version rangeStart state = some state' ∧
      EditStep byteAt old timestamp state consumed state' consumed' moved moved 0 ∧
      state'.RemoteAt version consumed' ∧ state'.fragmentStart ≤ rangeStart ∧
      (moved = [] ∨ state'.fragmentStart < rangeStart) ∧
      rangeStart ≤ state'.countedEnd (seenBy version) := by
  simp only [seekRemoteRange, versionedEnd_eq, versionedStart_eq, Option.bind_eq_bind,
    Option.bind_some]
  split
  next hlt =>
    obtain ⟨state', moved, hseek, hstep, hmoved, hle, hend⟩ := seek_step
      (· < rangeStart) (stepsOverOffset_iff rangeStart) (observedBy_atomAt version)
      (fun _ => Nat.le_of_lt) (fun _ => Nat.le_of_not_lt) h hat.toCountedAt hlt hrange hroom
    refine ⟨_, 0, moved, ?_, hstep, .of_start hstep.good rfl, hle, hmoved, hend⟩
    rw [← Option.bind_assoc, hseek]
    rfl
  next hge =>
    exact ⟨state, consumed, [], rfl, EditStep.refl h, hat, hrange, Or.inl rfl, Nat.le_of_not_lt hge⟩

/-- Leaving an observed fragment that ends at the start of the range. -/
theorem leaveFragment_step (hrange : state.fragmentStart ≤ rangeStart)
    (hend : rangeStart ≤ state.countedEnd (seenBy version)) :
    ∃ state' consumed' moved, leaveFragment version rangeStart state = some state' ∧
      EditStep byteAt old timestamp state consumed state' consumed' moved moved 0 ∧
      state'.RemoteAt version consumed' ∧ state'.fragmentStart ≤ rangeStart ∧
      ((moved = [] ∧ state' = state ∧ consumed' = consumed ∧ (state.fragmentStart = rangeStart ∨
            rangeStart < state.countedEnd (seenBy version))) ∨
        (state'.fragmentStart = rangeStart ∧
          ∃ init a, moved = init ++ [a] ∧ Atom.observedBy version a = true)) := by
  simp only [leaveFragment, versionedEnd_eq, versionedStart_eq, Option.bind_eq_bind,
    Option.bind_some]
  split
  next hcond =>
    obtain ⟨hendEq, hlt⟩ := hcond
    obtain ⟨item, rest, hrest, hobs, -⟩ := hat.inside hlt le_rfl
    have hitem := ListCursor.item_eq_some_iff.mpr ⟨rest, hrest⟩
    have hpiece : ({ item with
        len := state.countedEnd (seenBy version) - state.fragmentStart
        insertionOffset :=
          item.insertionOffset + (state.fragmentStart - state.countedStart (seenBy version)) } :
        Fragment) = item.dropFront consumed := by
      rw [countedEnd_of_cons _ hrest, countedLen_of_counts hobs, hat.start,
        Nat.add_sub_cancel_left, Nat.add_sub_add_left]
      rfl
    obtain ⟨state', hpush, hstep, hold, -⟩ := pushRest_step h hrest (hat.lt item rest hrest)
      hpiece (state.countedEnd (seenBy version))
    have hposition : EditState.countedStart (seenBy version)
        { state' with oldFragments := state'.oldFragments.next } =
        state.countedEnd (seenBy version) := by
      rw [countedStart_next _ (hold ▸ rfl) hrest, countedEnd_of_cons _ hrest]
    have hat' := RemoteAt.of_start hstep.good hposition.symm
    refine ⟨_, 0, _, ?_, hstep, hat', Nat.le_of_eq hendEq, Or.inr ⟨hendEq, ?_⟩⟩
    · rw [hitem]
      simp only [Option.bind_some, hpiece] at hpush ⊢
      rw [hpush, Option.bind_some]
      simp only [hposition]
      rfl
    · refine exists_last_of_countP_pos (observedBy_atomAt version) ?_
      have hcount := hstep.counted (observedBy_atomAt version) h hat.toCountedAt hat'.toCountedAt
      change state.countedEnd (seenBy version) = _ at hcount
      omega
  next hcond =>
    refine ⟨state, consumed, [], rfl, EditStep.refl h, hat, hrange, Or.inl ⟨rfl, rfl, rfl, ?_⟩⟩
    omega

/-- Giving way to concurrent insertions at the start of the range. -/
theorem skipConcurrent_step
    (hobserved : ∀ f ∈ old, version.observed f.timestamp = true → ¬ timestamp < f.timestamp)
    (hstart : state.fragmentStart = rangeStart) : ∃ state' consumed' skipped,
      skipConcurrent timestamp rangeStart state.oldFragments.rest state = some state' ∧
      EditStep byteAt old timestamp state consumed state' consumed' skipped skipped 0 ∧
      state'.RemoteAt version consumed' ∧ state'.fragmentStart = rangeStart ∧
      (∀ a ∈ skipped, Atom.winsAgainst timestamp a = true) ∧
      ∀ a tail, atomsOf (state'.pending consumed') = a :: tail →
        Atom.winsAgainst timestamp a = false := by
  have hnext : ∀ (state : EditState) (consumed : Nat), state.RemoteAt version consumed →
      (∀ item tail, state.oldFragments.rest = item :: tail → ¬ timestamp < item.timestamp) →
      ∀ a tail, atomsOf (state.pending consumed) = a :: tail →
        Atom.winsAgainst timestamp a = false := by
    intro state consumed hat hitem a tail hhead
    obtain ⟨item, rest, hrest, ha⟩ := head_pending hat hhead
    rw [Atom.winsAgainst, ha]
    exact decide_eq_false (hitem item rest hrest)
  rcases Nat.eq_zero_or_pos consumed with rfl | hpos
  · obtain ⟨state', skipped, hloop, hstep, hat', hstart', hskipped, hitem⟩ :=
      skipConcurrent_loop state.oldFragments.rest hobserved h hat rfl hstart
    exact ⟨state', 0, skipped, hloop, hstep, hat', hstart', hskipped, hnext _ _ hat' hitem⟩
  · -- Inside an observed fragment there is nothing to give way to.
    have hitem : ∀ item tail, state.oldFragments.rest = item :: tail →
        ¬ timestamp < item.timestamp := by
      intro item tail hrest
      exact hobserved item (h.mem_old (by rw [hrest]; simp)) (hat.counted hpos item tail hrest)
    refine ⟨state, consumed, [], ?_, EditStep.refl h, hat, hstart, by simp, hnext _ _ hat hitem⟩
    cases hrest : state.oldFragments.rest with
    | nil => rfl
    | cons item rest =>
      simp only [skipConcurrent]
      rw [if_neg fun hcond => hitem item rest hrest hcond.2]

/-- Everything a remote range does in front of its insertion. -/
theorem remoteFront_step
    (hobserved : ∀ f ∈ old, version.observed f.timestamp = true → ¬ timestamp < f.timestamp)
    (hrange : state.fragmentStart ≤ rangeStart)
    (hroom : rangeStart ≤ countedSum (seenBy version) old) : ∃ state' consumed' front skipped, (do
        let state ← seekRemoteRange version rangeStart state
        let state ← leaveFragment version rangeStart state
        let state ← skipConcurrent timestamp rangeStart state.oldFragments.rest state
        let cursorStart ← state.versionedStart version
        state.pushPrefix cursorStart rangeStart) = some state' ∧
      EditStep byteAt old timestamp state consumed state' consumed' (front ++ skipped)
        (front ++ skipped) 0 ∧
      state'.RemoteAt version consumed' ∧ state'.fragmentStart = rangeStart ∧
      state.fragmentStart + front.countP (Atom.observedBy version) = rangeStart ∧
      EndsCounted (Atom.observedBy version) front ∧
      (∀ a ∈ skipped, Atom.winsAgainst timestamp a = true) ∧
      ∀ a tail, atomsOf (state'.pending consumed') = a :: tail →
        Atom.winsAgainst timestamp a = false := by
  obtain ⟨state₁, consumed₁, moved₁, hseek, hstep₁, hat₁, hle₁, hbehind₁, hend₁⟩ :=
    seekRemoteRange_step h hat hrange hroom
  obtain ⟨state₂, consumed₂, moved₂, hleave, hstep₂, hat₂, hle₂, hcases⟩ :=
    leaveFragment_step hstep₁.good hat₁ hle₁ hend₁
  simp only [hseek, hleave, some_do, versionedStart_eq]
  have hstep₁₂ := hstep₁.trans hstep₂
  by_cases hreached : state₂.fragmentStart = rangeStart
  · -- The range starts behind a fragment, or where the last range ended.
    obtain ⟨state₃, consumed₃, skipped, hskip, hstep₃, hat₃, hstart₃, hskipped, hnext⟩ :=
      skipConcurrent_step hstep₂.good hat₂ hobserved hreached
    refine ⟨state₃, consumed₃, moved₁ ++ moved₂, skipped, ?_, hstep₁₂.trans hstep₃, hat₃,
      hstart₃, ?_, ?_, hskipped, hnext⟩
    · simp [hskip, pushPrefix, hstart₃]
    · rw [← hreached]
      exact (hstep₁₂.counted (observedBy_atomAt version) h hat.toCountedAt hat₂.toCountedAt).symm
    · rcases hcases with ⟨rfl, rfl, -, -⟩ | ⟨-, init, a, rfl, ha⟩
      · rcases hbehind₁ with rfl | hlt
        · exact Or.inl rfl
        · omega
      · exact Or.inr ⟨moved₁ ++ init, a, by simp, ha⟩
  · -- The range starts inside an observed fragment.
    rcases hcases with ⟨rfl, rfl, rfl, hcases⟩ | ⟨heq, -⟩
    · have hlt := hcases.resolve_left hreached
      obtain ⟨item, rest, hrest, hobs, -⟩ := hat₂.inside (by omega) (Nat.le_of_lt hlt)
      obtain ⟨state₃, moved₃, hprefix, hstep₃, hat₃, hstart₃, hold₃, hlen₃, hcounted, -⟩ :=
        pushPrefix_at (observedBy_atomAt version) hstep₂.good hat₂.toCountedAt hle₂
          (Nat.le_of_lt hlt)
      have hhead : ∀ item' tail, state₃.oldFragments.rest = item' :: tail → item' = item :=
        fun item' tail hcons => (List.cons.inj (hcons.symm.trans (hold₃ ▸ hrest))).1
      have hat₃' : state₃.RemoteAt version (rangeStart - state₂.countedStart (seenBy version)) := by
        refine ⟨hat₃, fun item' tail hcons => ?_⟩
        rw [countedEnd_of_cons _ hrest, countedLen_of_counts hobs] at hlt
        have hstart₂ := hat₂.start
        rw [hhead item' tail hcons]
        omega
      refine ⟨state₃, _, moved₁ ++ moved₃, [], ?_, ?_, hat₃', hstart₃, ?_, Or.inr ?_, by simp, ?_⟩
      · rw [hrest, skipConcurrent, if_neg fun hcond => hreached hcond.1]
        exact hprefix
      · simpa using hstep₁.trans hstep₃
      · rw [← hstart₃]
        exact ((hstep₁.trans hstep₃).counted (observedBy_atomAt version) h hat.toCountedAt
          hat₃).symm
      · have hne : moved₃ ≠ [] := by
          rw [← length_pos_iff]
          omega
        obtain ⟨init, a, rfl, ha⟩ := exists_last_counted hne hcounted
        exact ⟨moved₁ ++ init, a, by simp, ha⟩
      · intro a tail hpending
        obtain ⟨item', rest', hrest', ha⟩ := head_pending hat₃' hpending
        rw [Atom.winsAgainst, ha, hhead item' rest' hrest']
        exact decide_eq_false (hobserved item (hstep₂.good.mem_old (by rw [hrest]; simp)) hobs)
    · exact absurd heq hreached

/-- Inserting the text of a remote range. -/
theorem insertRemoteText_step (newText : List Char)
    (hlen : state.insertionOffset + (utf8 newText).length < 2 ^ 32)
    (hbytes : BytesMatch byteAt timestamp state.insertionOffset (utf8 newText)) :
    ∃ state', insertRemoteText version state newText timestamp = some state' ∧
      EditStep byteAt old timestamp state consumed state' consumed []
        (insertedAtoms timestamp state.insertionOffset (utf8 newText).length)
        (utf8 newText).length ∧
      state'.RemoteAt version consumed ∧ state'.fragmentStart = state.fragmentStart := by
  unfold insertRemoteText
  split
  next hempty =>
    rw [isEmpty_iff.mp hempty]
    exact ⟨state, rfl, EditStep.refl h, hat, rfl⟩
  next =>
    obtain ⟨state', hpush, hstep, hold, hstart, -⟩ :=
      insertion_step h (h.lt_nextFragmentId hat.lt) hlen hbytes
    simp only [versionedStart_eq, some_do, hpush]
    exact ⟨_, rfl, hstep.congr _ _, ⟨hat.toCountedAt.congr hold hstart, hold ▸ hat.lt⟩, hstart⟩

variable (undoMap) in
/-- The piece of the current fragment that a range deletes, and the slice it records. -/
theorem observedIntersection_spec (hrest : state.oldFragments.rest = item :: rest)
    (hlt : state.fragmentStart < rangeEnd) : ∃ piece newSlices,
      observedIntersection version undoMap timestamp (state.countedStart (seenBy version))
          (min rangeEnd (state.countedEnd (seenBy version))) item state =
        some (piece, newSlices) ∧
      Taken (seenBy version) timestamp state consumed rangeEnd
        (Atom.markDeleted version undoMap timestamp) item piece newSlices := by
  have hconsumed := hat.lt item rest hrest
  unfold observedIntersection
  cases hobs : version.observed item.timestamp with
  | true =>
    simp only [if_true]
    split
    next hvisible =>
      obtain ⟨htaken, hstop⟩ := Taken.new
        { item with
          len := _
          insertionOffset := _
          id := Locator.between (FragmentBuilder.maxId state.newFragments) item.id
          deletions := item.deletions ++ [timestamp]
          visible := false }
        (Atom.markDeleted version undoMap timestamp) h hat.toCountedAt hrest hlt hconsumed hobs
        rfl rfl rfl rfl (PushSlices.deleted rfl) fun i => (if_pos hvisible).symm
      rw [fromFragment_eq _ hstop]
      exact ⟨_, _, rfl, htaken⟩
    next hvisible =>
      exact ⟨_, _, rfl, And.left (Taken.new _ _ h hat.toCountedAt hrest hlt hconsumed hobs
        rfl rfl rfl rfl (PushSlices.kept rfl) fun i => (if_neg hvisible).symm)⟩
  | false =>
    refine ⟨item, [], rfl, .whole h hat.toCountedAt hrest hlt hconsumed hobs fun i => ?_⟩
    rw [Atom.markDeleted, if_neg]
    simp [Atom.wasVisible, Fragment.atomAt, hobs]

variable (undoMap) in
/-- The deletion of one fragment. -/
theorem deletes_observed (hrest : state.oldFragments.rest = item :: rest)
    (hlt : state.fragmentStart < rangeEnd) : Deletes (seenBy version) timestamp state consumed
      rangeEnd (Atom.markDeleted version undoMap timestamp) item
      (deleteObservedFragment version undoMap timestamp rangeEnd
        (state.countedStart (seenBy version)) (state.countedEnd (seenBy version)) item state) := by
  obtain ⟨piece, newSlices, hpiece, htaken⟩ := observedIntersection_spec undoMap h hat hrest hlt
  simp only [deleteObservedFragment, hpiece, some_do, if_pos htaken.front.len_pos]
  generalize (if (item.visible && !piece.visible) = true then _ else _ : Patch) = editsPatch
  refine ⟨piece, newSlices, editsPatch, htaken, ?_⟩
  cases EditState.pushPiece
    { state with editsPatch, insertionSlices := state.insertionSlices ++ newSlices }
    piece item.visible with
  | none => rfl
  | some next =>
    simp only [Option.map_some, afterDeletion]
    split <;> rfl

variable (undoMap) in
/-- The loop that deletes the observed bytes of a range. -/
theorem deleteObserved_step (rangeEnd : Nat) (rest : List Fragment)
    (hrest : state.oldFragments.rest = rest) (hrange : state.fragmentStart ≤ rangeEnd)
    (hroom : rangeEnd ≤ countedSum (seenBy version) old) : ∃ state' consumed' deleted,
      deleteObserved version undoMap timestamp rangeEnd rest state = some state' ∧
      EditStep byteAt old timestamp state consumed state' consumed' deleted
        (deleted.map (Atom.markDeleted version undoMap timestamp)) 0 ∧
      state'.RemoteAt version consumed' ∧ state'.fragmentStart = rangeEnd ∧
      EndsCounted (Atom.observedBy version) deleted := by
  induction rest generalizing state consumed with
  | nil =>
    have hstart := hat.start
    have hc := h.consumed_end hrest
    have htotal := countedStart_add_rest (seenBy version) h
    rw [hrest, countedSum_nil] at htotal
    have heq : state.fragmentStart = rangeEnd := by omega
    refine ⟨state, consumed, [], ?_, EditStep.refl h, hat, heq, Or.inl rfl⟩
    simp [deleteObserved, heq]
  | cons item rest ih =>
    simp only [deleteObserved]
    split
    next hlt =>
      obtain ⟨state₁, consumed₁, taken, hdelete, hstep₁, hcounted₁, hlt₁, hmin₁, hnext₁⟩ :=
        deletePiece_step h hat.toCountedAt hrest hlt (hat.lt item rest hrest)
          (deletes_observed undoMap h hat hrest hlt)
      have hat₁ : state₁.RemoteAt version consumed₁ := ⟨hcounted₁, hlt₁⟩
      have hends₁ : 0 < taken.atoms.countP (Atom.observedBy version) → _ :=
        exists_last_of_countP_pos (observedBy_atomAt version)
      have hcount₁ := hstep₁.counted (observedBy_atomAt version) h hat.toCountedAt hat₁.toCountedAt
      simp only [versionedStart_eq, versionedEnd_eq, some_do, hdelete]
      split
      next hle =>
        obtain ⟨state₂, consumed₂, deleted₂, hloop, hstep₂, hat₂, hstart₂, hends₂⟩ :=
          ih hstep₁.good hat₁ (hnext₁ hle) (by omega)
        refine ⟨state₂, consumed₂, taken.atoms ++ deleted₂, hloop, ?_, hat₂, hstart₂, ?_⟩
        · rw [map_append]
          exact hstep₁.trans hstep₂
        · rcases hends₂ with rfl | ⟨init, a, rfl, ha⟩
          · have hcount₂ := hstep₂.counted (observedBy_atomAt version) hstep₁.good
              hat₁.toCountedAt hat₂.toCountedAt
            rw [countP_nil] at hcount₂
            rw [append_nil]
            exact Or.inr (hends₁ (by omega))
          · exact Or.inr ⟨taken.atoms ++ init, a, by simp, ha⟩
      next hgt =>
        exact ⟨state₁, consumed₁, _, rfl, hstep₁, hat₁, by omega, Or.inr (hends₁ (by omega))⟩
    next hge => exact ⟨state, consumed, [], rfl, EditStep.refl h, hat, by omega, Or.inl rfl⟩

end Steps

section Ranges

variable (hobserved : ∀ f ∈ old, version.observed f.timestamp = true → ¬ timestamp < f.timestamp)
  (h : Good byteAt old timestamp state consumed) (hat : state.RemoteAt version consumed)
include hobserved h hat

variable (undoMap) in
/-- One range of a remote edit. -/
theorem applyRemoteRange_step {range : Range} (newText : List Char)
    (hstart : state.fragmentStart ≤ range.start) (hstop : range.start ≤ range.stop)
    (hroom : range.stop ≤ countedSum (seenBy version) old)
    (hlen : state.insertionOffset + (utf8 newText).length < 2 ^ 32)
    (hbytes : BytesMatch byteAt timestamp state.insertionOffset (utf8 newText)) :
    ∃ state' consumed' front skipped deleted,
      applyRemoteRange version undoMap timestamp state (range, newText) = some state' ∧
      EditStep byteAt old timestamp state consumed state' consumed'
        (front ++ (skipped ++ deleted))
        (front ++ skipped ++ insertedAtoms timestamp state.insertionOffset (utf8 newText).length ++
          deleted.map (Atom.markDeleted version undoMap timestamp))
        (utf8 newText).length ∧
      state'.RemoteAt version consumed' ∧ state'.fragmentStart = range.stop ∧
      Segments (Atom.observedBy version) (Atom.winsAgainst timestamp)
        { start := range.start
          stop := range.stop
          inserted := insertedAtoms timestamp state.insertionOffset (utf8 newText).length }
        state.fragmentStart front skipped deleted (atomsOf (state'.pending consumed')) := by
  obtain ⟨state₁, consumed₁, front, skipped, hfront, hstep₁, hat₁, hstart₁, hcount, hends,
    hskipped, hnext⟩ := remoteFront_step h hat hobserved hstart (hstop.trans hroom)
  have hoffset₁ : state₁.insertionOffset = state.insertionOffset := hstep₁.insertionOffset
  obtain ⟨state₂, hinsert, hstep₂, hat₂, hstart₂⟩ :=
    insertRemoteText_step hstep₁.good hat₁ newText (by rw [hoffset₁]; exact hlen)
      (by rw [hoffset₁]; exact hbytes)
  obtain ⟨state₃, consumed₃, deleted, hdelete, hstep₃, hat₃, hstart₃, hends₃⟩ :=
    deleteObserved_step undoMap hstep₂.good hat₂ range.stop state₂.oldFragments.rest rfl
      (by omega) hroom
  have hcount₃ :=
    hstep₃.counted (observedBy_atomAt version) hstep₂.good hat₂.toCountedAt hat₃.toCountedAt
  have hpending₁ : atomsOf (state₁.pending consumed₁) =
      deleted ++ atomsOf (state₃.pending consumed₃) := by
    rw [hstep₂.taken, hstep₃.taken, nil_append]
  rw [hoffset₁] at hstep₂
  have hstep := (hstep₁.trans hstep₂).trans hstep₃
  refine ⟨state₃, consumed₃, front, skipped, deleted, ?_, ?_, hat₃, hstart₃,
    ⟨hcount, hends, hskipped, ?_, by simp only; omega, hends₃⟩⟩
  · simp only [applyRemoteRange, Option.bind_eq_bind] at hfront ⊢
    simp only [← Option.bind_assoc] at hfront ⊢
    rw [hfront, Option.bind_some, hinsert, Option.bind_some]
    exact hdelete
  · simpa [append_assoc] using hstep
  · intro a tail hcons
    exact hnext a tail (hpending₁.trans hcons)

variable (undoMap) in
/-- All ranges of a remote edit. -/
theorem foldlM_applyRemoteRange (edits : List (Range × List Char))
    (hranges : Ranges (countedSum (seenBy version) old)
      (rangeInserts timestamp state.insertionOffset edits) state.fragmentStart)
    (hlen : state.insertionOffset + insertedLen edits < 2 ^ 32)
    (hbytes : BytesMatch byteAt timestamp state.insertionOffset
      (edits.flatMap fun edit => utf8 edit.2)) : ∃ state' consumed',
      edits.foldlM (applyRemoteRange version undoMap timestamp) state = some state' ∧
      Good byteAt old timestamp state' consumed' ∧ state'.RemoteAt version consumed' ∧
      atomsOf state'.newFragments ++ atomsOf (state'.pending consumed') =
        atomsOf state.newFragments ++
          editRanges (Atom.observedBy version) (Atom.winsAgainst timestamp)
            (Atom.markDeleted version undoMap timestamp)
            (rangeInserts timestamp state.insertionOffset edits) state.fragmentStart
            (atomsOf (state.pending consumed)) := by
  induction edits generalizing state consumed with
  | nil => exact ⟨state, consumed, rfl, h, hat, by simp [rangeInserts, editRanges]⟩
  | cons edit edits ih =>
    obtain ⟨range, newText⟩ := edit
    obtain ⟨hstart, hstop, hrest⟩ := hranges
    have hle := hrest.pos_le
    simp only at hstart hstop hle
    have hsum : insertedLen ((range, newText) :: edits) =
        (utf8 newText).length + insertedLen edits := by simp [insertedLen]
    rw [hsum] at hlen
    rw [flatMap_cons] at hbytes
    obtain ⟨state₁, consumed₁, front, skipped, deleted, happly, hstep, hat₁, hstart₁, hseg⟩ :=
      applyRemoteRange_step undoMap hobserved h hat newText hstart hstop hle (by omega)
        hbytes.of_append.1
    have hoffset₁ := hstep.insertionOffset
    obtain ⟨state₂, consumed₂, hfold, hgood₂, hat₂, hatoms⟩ := ih hstep.good hat₁
      (by
        rw [hoffset₁, hstart₁]
        exact hrest)
      (by omega)
      (by
        rw [hoffset₁]
        exact hbytes.of_append.2)
    refine ⟨state₂, consumed₂, ?_, hgood₂, hat₂, ?_⟩
    · rw [foldlM_cons, happly]
      exact hfold
    · have hcons := fun edits =>
        editRanges_cons (Atom.markDeleted version undoMap timestamp) edits hseg
      rw [hatoms, hstep.pushed, hstep.taken, hoffset₁, hstart₁, rangeInserts]
      simp only [append_assoc] at hcons ⊢
      rw [hcons]

end Ranges

/-- `apply_remote_edit` succeeds, and edits the observed bytes by ranges. -/
theorem applyRemoteEdit_spec {ranges : List Range} {newText : List (List Char)}
    (h : snapshot.TextsValid byteAt)
    (hobserved : ∀ f ∈ snapshot.fragments, version.observed f.timestamp = true →
      ¬ timestamp < f.timestamp)
    (hranges : Ranges ((atomsOf snapshot.fragments).countP (Atom.observedBy version))
      (rangeInserts timestamp 0 (ranges.zip newText)) 0)
    (hlength : ranges.length = newText.length) (hlen : insertedLen (ranges.zip newText) < 2 ^ 32)
    (hbytes : BytesMatch byteAt timestamp 0
      ((ranges.zip newText).flatMap fun edit => utf8 edit.2)) : ∃ snapshot' patch,
      snapshot.applyRemoteEdit version ranges newText timestamp = some (snapshot', patch) ∧
      Rewritten byteAt timestamp snapshot snapshot'
        (editRanges (Atom.observedBy version) (Atom.winsAgainst timestamp)
          (Atom.markDeleted version snapshot.undoMap timestamp)
          (rangeInserts timestamp 0 (ranges.zip newText)) 0 (atomsOf snapshot.fragments)) := by
  cases ranges with
  | nil => exact ⟨snapshot, [], rfl, Rewritten.refl h⟩
  | cons first ranges =>
    cases newText with
    | nil => simp at hlength
    | cons text newText =>
      obtain ⟨state, front, hslice, hgood, hoffset, hnew, -, hold, hposition, hfront⟩ :=
        start_step timestamp (· < first.start) (stepsOverOffset_iff first.start)
          (observedBy_atomAt version) h
      have hstart : state.countedStart (seenBy version) ≤ first.start := by
        rcases hfront with rfl | hlt
        · simp [hposition]
        · exact Nat.le_of_lt hlt
      rw [countP_atomsOf (observedBy_atomAt version), zip_cons_cons, rangeInserts] at hranges
      obtain ⟨state', consumed', hfold, hgood', hat', hatoms⟩ :=
        foldlM_applyRemoteRange snapshot.undoMap hobserved hgood (.of_start hgood rfl)
          ((first :: ranges).zip (text :: newText))
          (by
            rw [zip_cons_cons, rangeInserts]
            simp only [hoffset]
            exact ⟨hstart, hranges.2⟩)
          (by simpa only [hoffset, Nat.zero_add] using hlen)
          (by simpa only [hoffset] using hbytes)
      obtain ⟨state'', hfinish, hrewritten⟩ := finish_spec (state'.countedStart (seenBy version))
        (state'.countedEnd (seenBy version)) hgood' hat'.start
        fun item rest hrest hpos => hat'.end_eq hrest hpos
      refine ⟨state''.store snapshot, state''.editsPatch, ?_, ?_⟩
      · simp only [BufferSnapshot.applyRemoteEdit, Option.bind_eq_bind, hslice,
          Option.bind_some, versionedStart_eq, hfold, versionedEnd_eq]
        rw [← Option.bind_assoc, hfinish]
        rfl
      · rw [hatoms, zip_cons_cons, rangeInserts] at hrewritten
        rw [hold, zip_cons_cons, rangeInserts,
          editRanges_append (by rwa [Nat.zero_add, ← hposition])
            (hfront.imp Or.inl fun hlt => by rwa [Nat.zero_add, ← hposition]), ← hposition]
        simp only [hoffset, Nat.zero_add, hnew] at hrewritten ⊢
        exact hrewritten

end Blocks

end XorEditor.Text
