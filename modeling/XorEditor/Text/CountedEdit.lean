import XorEditor.Text.EditSteps

/-!
# Edits that count part of the bytes

Both edit functions keep their position as a count of bytes: a remote edit counts those that
its version has observed, a local edit those that are visible.  Both count whole fragments, so
that the blocks of code they share are described once for any way of counting.

* `CountedAt`: the position of an edit
* `seek_step`, `deletePiece_step`: blocks of code
-/

namespace XorEditor.Text

open Clock Lib EditState List

variable (counts : Fragment → Bool)

/-- The counted length of a fragment. -/
def countedLen (f : Fragment) : Nat := if counts f then f.len else 0

/-- The counted length of a list of fragments. -/
def countedSum (fs : List Fragment) : Nat :=
  (fs.map (countedLen counts)).sum

/-- The count in front of the cursor. -/
def EditState.countedStart (state : EditState) : Nat :=
  countedSum counts state.oldFragments.before

/-- The count behind the current fragment. -/
def EditState.countedEnd (state : EditState) : Nat :=
  state.countedStart counts + countedSum counts (state.oldFragments.rest.take 1)

/-- The position of an edit: `consumed` bytes into the current fragment, which is then a
counted one. -/
structure EditState.CountedAt (counts : Fragment → Bool) (state : EditState) (consumed : Nat) :
    Prop where
  start : state.fragmentStart = state.countedStart counts + consumed
  counted : 0 < consumed → ∀ item rest, state.oldFragments.rest = item :: rest → counts item = true

/-- Where a deletion leaves the cursor: behind the fragment if the range covers it. -/
def afterDeletion (intersectionEnd fragmentEnd rangeEnd : Nat) (state : EditState) : EditState :=
  if fragmentEnd ≤ rangeEnd then
    { state with fragmentStart := intersectionEnd, oldFragments := state.oldFragments.next }
  else
    { state with fragmentStart := intersectionEnd }

variable {counts : Fragment → Bool} {p : Atom → Bool} {f item piece : Fragment}
  {fs rest : List Fragment}

theorem countedLen_of_counts (h : counts f = true) : countedLen counts f = f.len := if_pos h

theorem countedLen_of_not_counts (h : counts f = false) : countedLen counts f = 0 := by
  simp [countedLen, h]

theorem summary_visible (f : Fragment) :
    f.summary.text.visible = countedLen Fragment.visible f := by
  simp only [Fragment.summary, countedLen]
  split <;> rfl

@[simp] theorem countedSum_nil : countedSum counts [] = 0 := rfl

@[simp] theorem countedSum_cons :
    countedSum counts (f :: fs) = countedLen counts f + countedSum counts fs := by
  simp [countedSum]

@[simp] theorem countedSum_append (fs gs : List Fragment) :
    countedSum counts (fs ++ gs) = countedSum counts fs + countedSum counts gs := by
  simp [countedSum]

/-- A nonempty list of counted atoms ends with one. -/
theorem exists_last_counted {atoms : List Atom} (hne : atoms ≠ [])
    (hall : ∀ a ∈ atoms, p a = true) : ∃ init a, atoms = init ++ [a] ∧ p a = true :=
  ⟨_, _, (dropLast_append_getLast hne).symm, hall _ (getLast_mem hne)⟩

section Atoms

variable (hp : ∀ (f : Fragment) i, p (f.atomAt i) = counts f)
include hp

theorem counts_of_mem_atoms {a : Atom} (ha : a ∈ f.atoms) : p a = counts f := by
  obtain ⟨i, -, rfl⟩ := Fragment.mem_atoms.mp ha
  exact hp f i

theorem countP_atoms (f : Fragment) : f.atoms.countP p = countedLen counts f := by
  rw [countP_eq_length_filter, Fragment.filter_atoms fun i _ => hp f i, countedLen]
  split <;> simp

theorem countP_atomsOf (fs : List Fragment) : (atomsOf fs).countP p = countedSum counts fs := by
  induction fs with
  | nil => rfl
  | cons f fs ih => rw [atomsOf_cons, countP_append, ih, countP_atoms hp, countedSum_cons]

theorem counts_dropFront (f : Fragment) (n : Nat) : counts (f.dropFront n) = counts f := by
  rw [← hp _ 0, ← hp f n]
  rfl

/-- A fragment with counted atoms ends with one. -/
theorem exists_last_of_countP_pos (hpos : 0 < f.atoms.countP p) :
    ∃ init a, f.atoms = init ++ [a] ∧ p a = true := by
  obtain ⟨b, hb, hcounted⟩ := countP_pos_iff.mp hpos
  refine exists_last_counted (ne_nil_of_mem hb) fun a ha => ?_
  rw [counts_of_mem_atoms hp ha, ← counts_of_mem_atoms hp hb, hcounted]

end Atoms

section Position

variable {byteAt : ByteId → UInt8} {old : List Fragment} {timestamp : Lamport}
  {state state' : EditState} {consumed target : Nat}

theorem countedEnd_of_nil (hrest : state.oldFragments.rest = []) :
    state.countedEnd counts = state.countedStart counts := by
  simp [EditState.countedEnd, hrest]

variable (counts) in
theorem countedEnd_of_cons (hrest : state.oldFragments.rest = item :: rest) :
    state.countedEnd counts = state.countedStart counts + countedLen counts item := by
  simp [EditState.countedEnd, hrest]

variable (counts) in
theorem countedStart_next (hold : state'.oldFragments = state.oldFragments.next)
    (hrest : state.oldFragments.rest = item :: rest) :
    state'.countedStart counts = state.countedStart counts + countedLen counts item := by
  rw [EditState.countedStart, hold, ListCursor.next_of_rest hrest]
  simp [EditState.countedStart]

variable (counts) in
/-- The fragments on both sides of the cursor make up the whole count. -/
theorem countedStart_add_rest (h : Good byteAt old timestamp state consumed) :
    state.countedStart counts + countedSum counts state.oldFragments.rest =
      countedSum counts old := by
  rw [← h.items, ListCursor.items, countedSum_append, EditState.countedStart]

namespace EditState.CountedAt

theorem of_start (hstart : state.fragmentStart = state.countedStart counts) :
    state.CountedAt counts 0 :=
  ⟨hstart, fun hpos => absurd hpos (Nat.lt_irrefl 0)⟩

variable (hat : state.CountedAt counts consumed)
include hat

theorem congr (hold : state'.oldFragments = state.oldFragments)
    (hstart : state'.fragmentStart = state.fragmentStart) : state'.CountedAt counts consumed := by
  refine ⟨?_, hold ▸ hat.counted⟩
  rw [hstart, hat.start, EditState.countedStart, EditState.countedStart, hold]

theorem end_eq (hrest : state.oldFragments.rest = item :: rest) (hpos : 0 < consumed) :
    state.countedEnd counts = state.countedStart counts + item.len := by
  rw [countedEnd_of_cons counts hrest, countedLen_of_counts (hat.counted hpos item rest hrest)]

theorem consumed_eq_zero (hrest : state.oldFragments.rest = item :: rest)
    (hcounts : counts item = false) : consumed = 0 := by
  by_contra hne
  simp [hat.counted (Nat.pos_of_ne_zero hne) item rest hrest] at hcounts

/-- A target that the current fragment reaches lies inside it. -/
theorem inside (hlt : state.fragmentStart < target) (hle : target ≤ state.countedEnd counts) :
    ∃ item rest, state.oldFragments.rest = item :: rest ∧ counts item = true ∧
      target ≤ state.countedStart counts + item.len := by
  have hstart := hat.start
  cases hrest : state.oldFragments.rest with
  | nil =>
    rw [countedEnd_of_nil hrest] at hle
    omega
  | cons item rest =>
    rw [countedEnd_of_cons counts hrest] at hle
    cases hcounts : counts item with
    | true => exact ⟨item, rest, rfl, hcounts, countedLen_of_counts hcounts ▸ hle⟩
    | false =>
      rw [countedLen_of_not_counts hcounts] at hle
      omega

end EditState.CountedAt

section Count

variable (hp : ∀ (f : Fragment) i, p (f.atomAt i) = counts f)
include hp

variable (h : Good byteAt old timestamp state consumed)
include h

/-- What is behind the position and what is pending make up the whole count. -/
theorem counted_pending (hcounted : 0 < consumed → ∀ item rest,
      state.oldFragments.rest = item :: rest → counts item = true) :
    state.countedStart counts + consumed + (atomsOf (state.pending consumed)).countP p =
      countedSum counts old := by
  rw [← countedStart_add_rest counts h]
  cases hrest : state.oldFragments.rest with
  | nil => simp [EditState.pending, hrest, cutFront, h.consumed_end hrest]
  | cons item rest =>
    have hle := h.consumed_le item rest hrest
    rw [EditState.atomsOf_pending hrest hle, countP_append, countP_atoms hp,
      countP_atomsOf hp, countedSum_cons]
    rcases Nat.eq_zero_or_pos consumed with rfl | hpos
    · simp
    · have hcounts := hcounted hpos item rest hrest
      rw [countedLen_of_counts ((counts_dropFront hp item consumed).trans hcounts),
        countedLen_of_counts hcounts, Fragment.dropFront_len]
      omega

/-- A block moves the position by the counted bytes that it takes. -/
theorem EditState.EditStep.counted (hat : state.CountedAt counts consumed)
    {consumed' inserted : Nat} {taken pushed : List Atom}
    (hstep : EditStep byteAt old timestamp state consumed state' consumed' taken pushed inserted)
    (hat' : state'.CountedAt counts consumed') :
    state'.fragmentStart = state.fragmentStart + taken.countP p := by
  have hbefore := counted_pending hp h hat.counted
  have hafter := counted_pending hp hstep.good hat'.counted
  rw [hstep.taken, countP_append] at hbefore
  rw [hat.start, hat'.start]
  omega

end Count

section Seek

variable {D : Type} {dim : Dimension FragmentSummary D} {stepsOver : D → Bool} (passed : Nat → Prop)
  (hpassed : ∀ fs, stepsOver (dim.measure Fragment.summary fs) = true ↔
    passed (countedSum counts fs))
include hpassed

/-- Copying the fragments that end at a count that is passed. -/
theorem slice_step (h : Good byteAt old timestamp state 0) :
    ∃ state' slice, state.appendSlice dim stepsOver = some state' ∧
      EditStep byteAt old timestamp state 0 state' 0 (atomsOf slice) (atomsOf slice) 0 ∧
      state'.oldFragments.before = state.oldFragments.before ++ slice ∧
      (slice = [] ∨ passed (state'.countedStart counts)) ∧
      (state'.oldFragments.rest = [] ∨ ¬ passed (state'.countedEnd counts)) := by
  obtain ⟨state', hslice, hstep, hold⟩ := appendSlice_step h dim stepsOver
  refine ⟨state', _, hslice, hstep, by rw [hold]; rfl, ?_, ?_⟩
  · rw [EditState.countedStart, ← hpassed, hold]
    exact ListCursor.slice_start dim Fragment.summary stepsOver state.oldFragments
  · cases hrest : state'.oldFragments.rest with
    | nil => exact Or.inl rfl
    | cons item rest =>
      right
      have hend := ListCursor.slice_endPosition dim Fragment.summary stepsOver
        state.oldFragments (hold ▸ hrest)
      rw [← hold, ListCursor.endPosition_of_rest _ _ hrest, ListCursor.start,
        ← Dimension.measure_concat, ← Bool.not_eq_true, hpassed, countedSum_append,
        countedSum_cons, countedSum_nil, Nat.add_zero] at hend
      rwa [countedEnd_of_cons counts hrest]

variable (timestamp) in
/-- Copying the fragments in front of the first range of an edit. -/
theorem start_step {snapshot : BufferSnapshot} (hp : ∀ (f : Fragment) i, p (f.atomAt i) = counts f)
    (h : snapshot.TextsValid byteAt) :
    ∃ state front, (EditState.new snapshot).appendSlice dim stepsOver = some state ∧
      Good byteAt snapshot.fragments timestamp
        { state with fragmentStart := state.countedStart counts } 0 ∧
      state.insertionOffset = 0 ∧ atomsOf state.newFragments = front ∧
      atomsOf state.oldFragments.before = front ∧
      atomsOf snapshot.fragments = front ++ atomsOf (state.pending 0) ∧
      state.countedStart counts = front.countP p ∧
      (front = [] ∨ passed (state.countedStart counts)) := by
  obtain ⟨state, slice, hslice, hstep, hbefore, hover, -⟩ := slice_step passed hpassed
    (Good.init timestamp h)
  refine ⟨state, atomsOf slice, hslice, hstep.good.congr _ _, hstep.insertionOffset, hstep.pushed,
    congrArg atomsOf hbefore, ?_, ?_, hover.imp_left fun hnil => by simp [hnil]⟩
  · rw [← hstep.taken, EditState.pending, EditState.new, ListCursor.ofList_rest,
      cutFront_zero h.valid]
  · rw [EditState.countedStart, hbefore, countP_atomsOf hp]
    rfl

/-- Finishing the current fragment and copying those up to a target. -/
theorem seek_step (hp : ∀ (f : Fragment) i, p (f.atomAt i) = counts f)
    (hbefore : ∀ n, passed n → n ≤ target) (hbehind : ∀ n, ¬ passed n → target ≤ n)
    (h : Good byteAt old timestamp state consumed) (hat : state.CountedAt counts consumed)
    (hend : passed (state.countedEnd counts)) (hrange : state.fragmentStart ≤ target)
    (hroom : target ≤ countedSum counts old) : ∃ state' moved,
      ((state.finishFragment (state.countedStart counts) (state.countedEnd counts)).bind
        fun state => state.appendSlice dim stepsOver) = some state' ∧
      EditStep byteAt old timestamp state consumed
        { state' with fragmentStart := state'.countedStart counts } 0 moved moved 0 ∧
      (moved = [] ∨ passed (state'.countedStart counts)) ∧
      state'.countedStart counts ≤ target ∧ target ≤ state'.countedEnd counts := by
  obtain ⟨state₁, moved, hfinish, hstep₁, hcases⟩ := finishFragment_step
    (state.countedEnd counts) h hat.start fun item rest hrest hpos => hat.end_eq hrest hpos
  obtain ⟨state₂, slice, hslice, hstep₂, hold₂, hover, hstop⟩ :=
    slice_step passed hpassed hstep₁.good
  have hmoved : moved ++ atomsOf slice = [] ∨ passed (state₂.countedStart counts) := by
    rcases hover with rfl | hover
    · rcases hcases with rfl | ⟨item, rest, hrest, hold⟩
      · exact Or.inl rfl
      · right
        rwa [EditState.countedStart, hold₂, append_nil, ← EditState.countedStart,
          countedStart_next counts hold hrest, ← countedEnd_of_cons counts hrest]
    · exact Or.inr hover
  have hstep := (hstep₁.trans hstep₂).congr state₂.editsPatch (state₂.countedStart counts)
  refine ⟨state₂, _, by rw [hfinish, Option.bind_some, hslice], hstep, hmoved, ?_, ?_⟩
  · rcases hmoved with hnil | hover
    · have hcount := hstep.counted hp h hat (.of_start rfl)
      rw [hnil] at hcount
      exact hcount.le.trans hrange
    · exact hbefore _ hover
  · rcases hstop with hnil | hstop
    · have htotal := countedStart_add_rest counts hstep₂.good
      rw [hnil, countedSum_nil] at htotal
      rw [countedEnd_of_nil hnil]
      omega
    · exact hbehind _ hstop

end Seek

/-- Keeping the part of the current fragment in front of a target. -/
theorem pushPrefix_at (hp : ∀ (f : Fragment) i, p (f.atomAt i) = counts f)
    (h : Good byteAt old timestamp state consumed) (hat : state.CountedAt counts consumed)
    (hrange : state.fragmentStart ≤ target) (hend : target ≤ state.countedEnd counts) :
    ∃ state' moved, state.pushPrefix (state.countedStart counts) target = some state' ∧
      EditStep byteAt old timestamp state consumed state' (target - state.countedStart counts)
        moved moved 0 ∧
      state'.CountedAt counts (target - state.countedStart counts) ∧
      state'.fragmentStart = target ∧ state'.oldFragments = state.oldFragments ∧
      moved.length = target - state.fragmentStart ∧ (∀ a ∈ moved, p a = true) ∧
      ((∀ f ∈ state.newFragments, f.id < state.nextFragmentId) →
        ∀ f ∈ state'.newFragments, f.id < state'.nextFragmentId) := by
  have hstart := hat.start
  obtain ⟨state', moved, hpush, hstep, hold, hfs, hlen, hmem, hbelow⟩ :=
    pushPrefix_step h hstart hrange fun hlt => by
      obtain ⟨item, rest, hrest, -, hle⟩ := hat.inside hlt hend
      exact ⟨item, rest, hrest, hle⟩
  refine ⟨state', moved, hpush, hstep, ⟨?_, ?_⟩, hfs, hold, hlen, ?_, hbelow⟩
  · rw [hfs, EditState.countedStart, hold]
    change target = state.countedStart counts + _
    omega
  · intro hpos item rest hrest
    rw [hold] at hrest
    rcases Nat.lt_or_ge state.fragmentStart target with hlt | hge
    · obtain ⟨item', rest', hrest', hcounts, -⟩ := hat.inside hlt hend
      obtain ⟨rfl, -⟩ := List.cons.inj (hrest.symm.trans hrest')
      exact hcounts
    · exact hat.counted (by omega) item rest hrest
  · intro a ha
    obtain ⟨item, rest, hrest, ha'⟩ := hmem a ha
    have hlt : state.fragmentStart < target := by
      have := length_pos_of_mem ha
      omega
    obtain ⟨item', rest', hrest', hcounts, -⟩ := hat.inside hlt hend
    obtain ⟨rfl, -⟩ := List.cons.inj (hrest.symm.trans hrest')
    exact (counts_of_mem_atoms hp ha').trans hcounts

/-- What a range takes of the current fragment: a piece with the slices that it records, and
with its atoms marked. -/
structure Taken (counts : Fragment → Bool) (timestamp : Lamport) (state : EditState)
    (consumed rangeEnd : Nat) (mark : Atom → Atom) (item piece : Fragment)
    (newSlices : List InsertionSlice) : Prop where
  front : piece.FrontOf (item.dropFront consumed)
  id : PushId state.newFragments (item.dropFront consumed) piece
  slices : PushSlices timestamp (item.dropFront consumed) piece newSlices
  atoms : piece.atoms =
    ({ item.dropFront consumed with len := piece.len } : Fragment).atoms.map mark
  cover : state.countedEnd counts ≤ rangeEnd → consumed + piece.len = item.len
  inside : rangeEnd < state.countedEnd counts → state.fragmentStart + piece.len = rangeEnd

/-- A fragment of a range is deleted by taking a piece of it, and pushing the piece. -/
def Deletes (counts : Fragment → Bool) (timestamp : Lamport) (state : EditState)
    (consumed rangeEnd : Nat) (mark : Atom → Atom) (item : Fragment)
    (result : Option EditState) : Prop :=
  ∃ piece newSlices editsPatch,
    Taken counts timestamp state consumed rangeEnd mark item piece newSlices ∧
      result = (EditState.pushPiece
        { state with editsPatch, insertionSlices := state.insertionSlices ++ newSlices }
        piece item.visible).map (afterDeletion (min rangeEnd (state.countedEnd counts))
          (state.countedEnd counts) rangeEnd)

section Taken

variable {rangeEnd : Nat} {mark : Atom → Atom} {newSlices : List InsertionSlice}
  (h : Good byteAt old timestamp state consumed) (hat : state.CountedAt counts consumed)
  (hrest : state.oldFragments.rest = item :: rest) (hlt : state.fragmentStart < rangeEnd)
  (hconsumed : consumed < item.len)

theorem atoms_eq_map {whole : Fragment} (hatoms : ∀ i, piece.atomAt i = mark (whole.atomAt i)) :
    piece.atoms = ({ whole with len := piece.len } : Fragment).atoms.map mark := by
  simp only [Fragment.atoms, map_map]
  exact map_congr_left fun i _ => hatoms i

include h hat hrest hlt hconsumed

/-- A fragment that is not counted is taken as it is. -/
theorem Taken.whole (hcounts : counts item = false)
    (hatoms : ∀ i, item.atomAt i = mark (item.atomAt i)) :
    Taken counts timestamp state consumed rangeEnd mark item item [] := by
  have hend := countedEnd_of_cons counts hrest
  rw [countedLen_of_not_counts hcounts] at hend
  have hstart := hat.start
  obtain rfl := hat.consumed_eq_zero hrest hcounts
  have hwalk := h.walk
  rw [EditState.pending, hrest, cutFront_of_lt hconsumed] at hwalk
  exact ⟨⟨rfl, rfl, hconsumed, Nat.le_refl _⟩, pushId_same hwalk rfl rfl, PushSlices.kept rfl,
    atoms_eq_map hatoms, fun _ => Nat.zero_add _, fun hgt => by omega⟩

variable (piece mark) in
/-- Of a counted fragment a new piece is taken. -/
theorem Taken.new (hcounts : counts item = true)
    (hlen : piece.len = min rangeEnd (state.countedEnd counts) - state.fragmentStart)
    (htimestamp : piece.timestamp = item.timestamp) (hoffset : piece.insertionOffset =
      item.insertionOffset + (state.fragmentStart - state.countedStart counts))
    (hid : piece.id = Locator.between (FragmentBuilder.maxId state.newFragments) item.id)
    (hslices : PushSlices timestamp (item.dropFront consumed) piece newSlices)
    (hatoms : ∀ i, { piece with insertionOffset := item.insertionOffset + consumed }.atomAt i =
      mark ((item.dropFront consumed).atomAt i)) :
    Taken counts timestamp state consumed rangeEnd mark item piece newSlices ∧
      piece.insertionOffset + piece.len < 2 ^ 32 := by
  have hend := countedEnd_of_cons counts hrest
  rw [countedLen_of_counts hcounts] at hend
  have hstart := hat.start
  obtain ⟨hfront, hid, hstop⟩ := newPiece_spec h hrest hstart (by omega) (by omega) hlen
    htimestamp hoffset hid
  rw [hstart, Nat.add_sub_cancel_left] at hoffset
  rw [← hoffset] at hatoms
  exact ⟨⟨hfront, hid, hslices, atoms_eq_map hatoms, fun hle => by omega, fun hgt => by omega⟩,
    hstop⟩

/-- Deleting a piece of the current fragment, up to the end of the range or of the fragment. -/
theorem deletePiece_step {result : Option EditState}
    (hdeletes : Deletes counts timestamp state consumed rangeEnd mark item result) :
    ∃ state' consumed', ∃ taken : Fragment, result = some state' ∧
      EditStep byteAt old timestamp state consumed state' consumed' taken.atoms
        (taken.atoms.map mark) 0 ∧
      state'.CountedAt counts consumed' ∧
      (∀ item rest, state'.oldFragments.rest = item :: rest → consumed' < item.len) ∧
      state'.fragmentStart = min rangeEnd (state.countedEnd counts) ∧
      (state.countedEnd counts ≤ rangeEnd → state'.oldFragments.rest = rest) := by
  obtain ⟨piece, newSlices, editsPatch, htaken, rfl⟩ := hdeletes
  have hstart := hat.start
  have hend := countedEnd_of_cons counts hrest
  obtain ⟨state', hpush, hstep, hold, -, -⟩ :=
    pushPiece_step h hrest hconsumed htaken.front htaken.id htaken.slices editsPatch
  rw [htaken.atoms] at hstep
  have hrest' : state'.oldFragments.rest = item :: rest := hold ▸ hrest
  rw [hpush, Option.map_some, afterDeletion]
  split
  next hle =>
    -- The range covers the rest of the fragment.
    have hnext : state'.oldFragments.next.rest = rest := by
      rw [ListCursor.next_of_rest hrest']
    have hstep' := (hstep.next hrest' (htaken.cover hle)).congr state'.editsPatch
      (min rangeEnd (state.countedEnd counts))
    refine ⟨_, 0, _, rfl, hstep', .of_start ?_, ?_, rfl, fun _ => hnext⟩
    · rw [countedStart_next counts (hold ▸ rfl) hrest, ← hend]
      exact Nat.min_eq_right hle
    · exact fun f tail hcons => (hstep'.good.rest_valid f (by rw [hcons]; simp)).len_pos
  next hgt =>
    -- The range ends inside the fragment, which is then a counted one.
    have hlen := htaken.inside (Nat.lt_of_not_le hgt)
    have hcounts : counts item = true := by
      by_contra hnot
      rw [hend, countedLen_of_not_counts (Bool.eq_false_of_not_eq_true hnot)] at hgt
      omega
    rw [countedLen_of_counts hcounts] at hend
    have hhead : ∀ f tail, state'.oldFragments.rest = f :: tail → f = item :=
      fun f tail hcons => (List.cons.inj (hcons.symm.trans hrest')).1
    refine ⟨_, consumed + piece.len, _, rfl, hstep.congr _ _, ⟨?_, ?_⟩, ?_, rfl,
      fun hle => absurd hle hgt⟩
    · change min rangeEnd _ = countedSum counts state'.oldFragments.before + _
      rw [hold]
      change _ = state.countedStart counts + _
      omega
    · intro _ f tail hcons
      rw [hhead f tail hcons]
      exact hcounts
    · intro f tail hcons
      rw [hhead f tail hcons]
      omega

end Taken

end Position

end XorEditor.Text
