import XorEditor.Text.Rewrite

/-!
# The steps of an edit

The blocks of code shared by the two edit functions, as steps of a rewrite.  `Good` is
the invariant between the blocks: the old fragments are the ones behind and in front of
the cursor, `consumed` bytes of the current one are already pushed, and the invariants of
the rewrite hold.  `EditStep` describes what a block does to the bytes: which it takes
from the pending fragments, and which it pushes.

A block that can panic is shown to succeed.

* `Good`, `EditStep`: the invariant and the steps
* `insertion_step`: the text of a range
* `finish_spec`: the end of an edit
-/

namespace XorEditor.Text

open Clock Lib List FragmentBuilder

/-- The atoms of a newly inserted text. -/
def insertedAtoms (timestamp : Lamport) (offset len : Nat) : List Atom :=
  (List.range len).map fun i =>
    { timestamp, offset := offset + i, visible := true, deletions := [], maxUndos := Global.new }

theorem insertedAtoms_add (timestamp : Lamport) (offset m n : Nat) :
    insertedAtoms timestamp offset (m + n) =
      insertedAtoms timestamp offset m ++ insertedAtoms timestamp (offset + m) n := by
  simp [insertedAtoms, range_add, Function.comp_def, Nat.add_assoc]

variable {rest : List Fragment} {f : Fragment}

theorem cutFront_zero (h : ∀ f ∈ rest, f.Valid) : cutFront 0 rest = rest := by
  cases rest with
  | nil => rfl
  | cons f rest => simp [cutFront, (h f (by simp)).len_pos]

theorem cutFront_cutFront (m n : Nat) (f : Fragment) (rest : List Fragment) :
    cutFront n (f.dropFront m :: rest) = cutFront (m + n) (f :: rest) := by
  simp only [cutFront, Fragment.dropFront_dropFront, Fragment.dropFront_len]
  by_cases h : m + n < f.len
  · rw [if_pos h, if_pos (by omega)]
  · rw [if_neg h, if_neg (by omega)]

theorem cutFront_of_lt {n : Nat} (h : n < f.len) (rest : List Fragment) :
    cutFront n (f :: rest) = f.dropFront n :: rest := by
  simp [cutFront, h]

/-- What every snapshot satisfies before it is edited. -/
structure BufferSnapshot.TextsValid (byteAt : ByteId → UInt8) (snapshot : BufferSnapshot) :
    Prop where
  valid : ∀ f ∈ snapshot.fragments, f.Valid
  ids : snapshot.fragments.Pairwise fun f g => f.id < g.id
  visibleText : snapshot.visibleText = visibleBytes byteAt (atomsOf snapshot.fragments)
  deletedText : snapshot.deletedText = deletedBytes byteAt (atomsOf snapshot.fragments)

namespace EditState

/-- The old fragments that are not pushed yet. -/
def pending (state : EditState) (consumed : Nat) : List Fragment :=
  cutFront consumed state.oldFragments.rest

/-- The invariant between the blocks of an edit. -/
structure Good (byteAt : ByteId → UInt8) (old : List Fragment) (timestamp : Lamport)
    (state : EditState) (consumed : Nat) : Prop where
  valid : ∀ f ∈ old, f.Valid
  ids : old.Pairwise fun f g => f.id < g.id
  items : state.oldFragments.items = old
  consumed_le : ∀ f rest, state.oldFragments.rest = f :: rest → consumed ≤ f.len
  consumed_end : state.oldFragments.rest = [] → consumed = 0
  walk : Walk old timestamp state.newFragments (state.pending consumed)
    state.newInsertions state.insertionSlices
  texts : TextsMatch byteAt state.newRopes state.newFragments (state.pending consumed)

/-- A block takes atoms from the pending fragments, pushes atoms, and uses up part of the
text of the edit. -/
structure EditStep (byteAt : ByteId → UInt8) (old : List Fragment) (timestamp : Lamport)
    (state : EditState) (consumed : Nat) (state' : EditState) (consumed' : Nat)
    (taken pushed : List Atom) (inserted : Nat) : Prop where
  good : Good byteAt old timestamp state' consumed'
  pushed : atomsOf state'.newFragments = atomsOf state.newFragments ++ pushed
  taken : atomsOf (state.pending consumed) = taken ++ atomsOf (state'.pending consumed')
  insertionOffset : state'.insertionOffset = state.insertionOffset + inserted

variable {byteAt : ByteId → UInt8} {old : List Fragment} {timestamp : Lamport}
  {state state' state'' : EditState} {consumed consumed' consumed'' : Nat}

theorem EditStep.refl (h : Good byteAt old timestamp state consumed) :
    EditStep byteAt old timestamp state consumed state consumed [] [] 0 where
  good := h
  pushed := by simp
  taken := by simp
  insertionOffset := rfl

theorem EditStep.trans {taken pushed taken' pushed' : List Atom} {inserted inserted' : Nat}
    (h : EditStep byteAt old timestamp state consumed state' consumed' taken pushed inserted)
    (h' : EditStep byteAt old timestamp state' consumed' state'' consumed'' taken' pushed'
      inserted') : EditStep byteAt old timestamp state consumed state'' consumed'' (taken ++ taken')
      (pushed ++ pushed') (inserted + inserted') where
  good := h'.good
  pushed := by rw [h'.pushed, h.pushed, append_assoc]
  taken := by rw [h.taken, h'.taken, append_assoc]
  insertionOffset := by rw [h'.insertionOffset, h.insertionOffset, Nat.add_assoc]

/-- The position and the patch are not part of the invariant. -/
theorem Good.congr (h : Good byteAt old timestamp state consumed) (editsPatch : Patch)
    (fragmentStart : Nat) :
    Good byteAt old timestamp { state with editsPatch, fragmentStart } consumed :=
  ⟨h.valid, h.ids, h.items, h.consumed_le, h.consumed_end, h.walk, h.texts⟩

theorem EditStep.congr {taken pushed : List Atom} {inserted : Nat}
    (h : EditStep byteAt old timestamp state consumed state' consumed' taken pushed inserted)
    (editsPatch : Patch) (fragmentStart : Nat) :
    EditStep byteAt old timestamp state consumed { state' with editsPatch, fragmentStart }
      consumed' taken pushed inserted :=
  ⟨h.good.congr editsPatch fragmentStart, h.pushed, h.taken, h.insertionOffset⟩

theorem Good.rest_valid (h : Good byteAt old timestamp state consumed) :
    ∀ f ∈ state.oldFragments.rest, f.Valid := by
  intro f hf
  exact h.valid f (h.items ▸ mem_append_right _ hf)

theorem Good.mem_old (h : Good byteAt old timestamp state consumed)
    (hf : f ∈ state.oldFragments.rest) : f ∈ old :=
  h.items ▸ mem_append_right _ hf

variable (timestamp) in
theorem Good.init {snapshot : BufferSnapshot} (h : snapshot.TextsValid byteAt) :
    Good byteAt snapshot.fragments timestamp (EditState.new snapshot) 0 where
  valid := h.valid
  ids := h.ids
  items := rfl
  consumed_le := by simp
  consumed_end := by simp
  walk := by
    rw [pending, EditState.new, ListCursor.ofList_rest, cutFront_zero h.valid]
    exact Walk.init timestamp h.valid h.ids
  texts := by
    rw [pending, EditState.new, ListCursor.ofList_rest, cutFront_zero h.valid]
    exact ⟨rfl, rfl, h.visibleText, h.deletedText⟩

section Locators

variable {new pending : List Fragment} {entries : List InsertionFragment}
  {slices : List InsertionSlice}

theorem maxId_cases (new : List Fragment) : new = [] ∧ maxId new = .min ∨
    ∃ init last, new = init ++ [last] ∧ maxId new = last.id := by
  obtain rfl | ⟨init, last, rfl⟩ := eq_nil_or_concat' new
  · exact Or.inl ⟨rfl, rfl⟩
  · exact Or.inr ⟨init, last, rfl, by simp [maxId]⟩

theorem id_le_maxId (hids : new.Pairwise fun f g => f.id < g.id) (hf : f ∈ new) :
    f.id ≤ maxId new := by
  obtain ⟨rfl, -⟩ | ⟨init, last, rfl, hlast⟩ := maxId_cases new
  · cases hf
  · rw [hlast]
    rcases mem_append.mp hf with hf | hf
    · exact le_of_lt ((pairwise_append.mp hids).2.2 f hf last (by simp))
    · rw [mem_singleton.mp hf]

theorem min_le_maxId (new : List Fragment) (hvalid : ∀ f ∈ new, f.Valid) :
    Locator.min ≤ maxId new := by
  obtain ⟨-, hmin⟩ | ⟨init, last, rfl, hlast⟩ := maxId_cases new
  · exact hmin.ge
  · exact hlast ▸ (hvalid last (by simp)).min_lt.le

theorem maxId_lt {bound : Locator} (hmin : Locator.min < bound) (h : ∀ f ∈ new, f.id < bound) :
    maxId new < bound := by
  obtain ⟨-, hnil⟩ | ⟨init, last, rfl, hlast⟩ := maxId_cases new
  · exact hnil ▸ hmin
  · exact hlast ▸ h last (by simp)

/-- The locator chosen for a piece of the current fragment. -/
theorem pushId_between {whole : Fragment} (piece : Fragment)
    (h : Walk old timestamp new (whole :: pending) entries slices)
    (hpiece : piece.id = Locator.between (maxId new) whole.id) : PushId new whole piece := by
  have hids := pairwise_append.mp h.ids
  have hwhole := h.valid whole (by simp)
  have hmin := min_le_maxId new fun f hf => h.valid f (by simp [hf])
  have hlt := Locator.lt_between (maxId new) whole.id
  refine ⟨?_, Or.inl ?_, ?_, ?_⟩
  · intro f hf
    rw [hpiece]
    exact lt_of_le_of_lt (id_le_maxId hids.1 hf) hlt
  · rw [hpiece]
    refine Locator.between_lt (maxId_lt hwhole.min_lt ?_) hwhole.endsNonzero
    exact fun f hf => hids.2.2 f hf whole (by simp)
  · rw [hpiece]
    exact lt_of_le_of_lt hmin hlt
  · rw [hpiece]
    exact Locator.between_endsNonzero _ _

/-- A piece that keeps the locator must be all that is left of the current fragment. -/
theorem pushId_same {whole piece : Fragment}
    (h : Walk old timestamp new (whole :: pending) entries slices) (hid : piece.id = whole.id)
    (hlen : piece.len = whole.len) : PushId new whole piece := by
  have hwhole := h.valid whole (by simp)
  refine ⟨?_, Or.inr ⟨hid, hlen⟩, hid ▸ hwhole.min_lt, hid ▸ hwhole.endsNonzero⟩
  intro f hf
  rw [hid]
  exact (pairwise_append.mp h.ids).2.2 f hf whole (by simp)

end Locators

section Push

variable {item piece : Fragment} {rest : List Fragment}

/-- The atoms still pending when a piece of the current fragment has been pushed. -/
theorem atomsOf_pending (hrest : state.oldFragments.rest = item :: rest)
    (hconsumed : consumed ≤ item.len) :
    atomsOf (state.pending consumed) = (item.dropFront consumed).atoms ++ atomsOf rest := by
  rw [pending, hrest, atomsOf_cutFront hconsumed]

/-- The part of the current fragment that a piece replaces. -/
theorem atomsOf_pending_split (hrest : state.oldFragments.rest = item :: rest)
    (hpiece : piece.FrontOf (item.dropFront consumed)) (hconsumed : consumed < item.len) :
    atomsOf (state.pending consumed) = { item.dropFront consumed with len := piece.len }.atoms ++
        atomsOf (cutFront (consumed + piece.len) (item :: rest)) := by
  have hlen : consumed + piece.len ≤ item.len := by
    have := hpiece.len_le
    rw [Fragment.dropFront_len] at this
    omega
  rw [atomsOf_pending hrest (Nat.le_of_lt hconsumed),
    (item.dropFront consumed).atoms_split hpiece.len_le, Fragment.dropFront_dropFront,
    append_assoc, atomsOf_cutFront hlen]

/-- Pushing a piece of the current fragment, recorded among the insertions. -/
theorem pushPiece_step (h : Good byteAt old timestamp state consumed)
    (hrest : state.oldFragments.rest = item :: rest) (hconsumed : consumed < item.len)
    (hpiece : piece.FrontOf (item.dropFront consumed))
    (hid : PushId state.newFragments (item.dropFront consumed) piece)
    {newSlices : List InsertionSlice}
    (hslices : PushSlices timestamp (item.dropFront consumed) piece newSlices)
    (editsPatch : Patch) : ∃ state', EditState.pushPiece
        { state with editsPatch, insertionSlices := state.insertionSlices ++ newSlices }
          piece item.visible = some state' ∧
      EditStep byteAt old timestamp state consumed state' (consumed + piece.len)
        { item.dropFront consumed with len := piece.len }.atoms piece.atoms 0 ∧
      state'.oldFragments = state.oldFragments ∧
      state'.fragmentStart = state.fragmentStart ∧
      state'.newFragments = state.newFragments ++ [piece] := by
  have hpending : state.pending consumed = item.dropFront consumed :: rest := by
    rw [pending, hrest, cutFront_of_lt hconsumed]
  have hwalk := h.walk
  have htexts := h.texts
  rw [hpending] at hwalk htexts
  obtain ⟨newRopes, hpush, htexts'⟩ := htexts.push hpiece
  have hwalk' := hwalk.push hpiece hid PushEntries.recorded hslices
  rw [cutFront_cutFront, ← hrest] at hwalk' htexts'
  rw [Fragment.dropFront_visible] at hpush
  refine ⟨{ state with
      editsPatch
      newInsertions := state.newInsertions ++ [InsertionFragment.new piece]
      insertionSlices := state.insertionSlices ++ newSlices
      newRopes
      newFragments := state.newFragments ++ [piece] }, ?_,
    ⟨⟨h.valid, h.ids, h.items, ?_, ?_, hwalk', htexts'⟩, by simp, ?_, rfl⟩, rfl, rfl, rfl⟩
  · simp only [pushPiece, pushFragment, hpush]
    rfl
  · intro f tail hf
    rw [hrest, List.cons.injEq] at hf
    have hle := hpiece.len_le
    rw [Fragment.dropFront_len] at hle
    rw [← hf.1]
    omega
  · intro hnil
    simp [hrest] at hnil
  · rw [atomsOf_pending_split hrest hpiece hconsumed, pending, hrest]

/-- Moving the cursor past a fragment that is consumed to its end. -/
theorem EditStep.next {taken pushed : List Atom} {inserted : Nat}
    (h : EditStep byteAt old timestamp state consumed state' consumed' taken pushed inserted)
    (hrest : state'.oldFragments.rest = item :: rest) (hconsumed : consumed' = item.len) :
    EditStep byteAt old timestamp state consumed
      { state' with oldFragments := state'.oldFragments.next } 0 taken pushed inserted := by
  have hvalid : ∀ f ∈ rest, f.Valid := fun f hf => h.good.rest_valid f (by simp [hrest, hf])
  have hpending : EditState.pending { state' with oldFragments := state'.oldFragments.next } 0 =
      state'.pending consumed' := by
    rw [pending, pending, ListCursor.next_of_rest hrest, cutFront_zero hvalid, hrest, hconsumed]
    simp [cutFront]
  refine ⟨⟨h.good.valid, h.good.ids, (ListCursor.items_next _).trans h.good.items, ?_, ?_, ?_,
    ?_⟩, h.pushed, ?_, h.insertionOffset⟩
  · intro f tail _
    exact Nat.zero_le _
  · exact fun _ => rfl
  · rw [hpending]
    exact h.good.walk
  · rw [hpending]
    exact h.good.texts
  · rw [hpending]
    exact h.taken

end Push

section Blocks

/-- Pushing all that is left of the current fragment, unchanged, and moving on. -/
theorem pushRest_step {item piece : Fragment} (h : Good byteAt old timestamp state consumed)
    (hrest : state.oldFragments.rest = item :: rest) (hconsumed : consumed < item.len)
    (hpiece : piece = item.dropFront consumed) (fragmentStart : Nat) :
    ∃ state', state.pushPiece piece piece.visible = some state' ∧
      EditStep byteAt old timestamp state consumed
        { state' with oldFragments := state'.oldFragments.next, fragmentStart } 0
        (item.dropFront consumed).atoms (item.dropFront consumed).atoms 0 ∧
      state'.oldFragments = state.oldFragments ∧
      state'.fragmentStart = state.fragmentStart := by
  have hwalk := h.walk
  rw [pending, hrest, cutFront_of_lt hconsumed] at hwalk
  subst hpiece
  have hfront : (item.dropFront consumed).FrontOf (item.dropFront consumed) :=
    ⟨rfl, rfl, Nat.sub_pos_of_lt hconsumed, Nat.le_refl _⟩
  obtain ⟨state', hpush, hstep, hold, hstart, -⟩ := pushPiece_step h hrest hconsumed hfront
    (pushId_same hwalk rfl rfl) (PushSlices.kept rfl) state.editsPatch
  have hlen : consumed + (item.dropFront consumed).len = item.len := by
    rw [Fragment.dropFront_len]
    omega
  rw [append_nil] at hpush
  exact ⟨state', hpush, (hstep.next (hold ▸ hrest) hlen).congr _ _, hold, hstart⟩

/-- Finishing a partially consumed fragment. -/
theorem finishFragment_step {cursorStart : Nat} (fragmentEnd : Nat)
    (h : Good byteAt old timestamp state consumed)
    (hstart : state.fragmentStart = cursorStart + consumed)
    (hend : ∀ item rest, state.oldFragments.rest = item :: rest → 0 < consumed →
      fragmentEnd = cursorStart + item.len) :
    ∃ state' moved, state.finishFragment cursorStart fragmentEnd = some state' ∧
      EditStep byteAt old timestamp state consumed state' 0 moved moved 0 ∧
      (moved = [] ∨ ∃ item rest, state.oldFragments.rest = item :: rest ∧
        state'.oldFragments = state.oldFragments.next) := by
  rcases Nat.eq_zero_or_pos consumed with rfl | hpos
  · refine ⟨state, [], ?_, EditStep.refl h, Or.inl rfl⟩
    simp [finishFragment, hstart]
  · cases hrest : state.oldFragments.rest with
    | nil =>
      have := h.consumed_end hrest
      omega
    | cons item rest =>
      have hle := h.consumed_le item rest hrest
      have hfragmentEnd := hend item rest hrest hpos
      have hitem := ListCursor.item_eq_some_iff.mpr ⟨rest, hrest⟩
      rcases Nat.lt_or_ge consumed item.len with hlt | hge
      · have hpiece : ({ item with
            len := fragmentEnd - state.fragmentStart
            insertionOffset :=
              item.insertionOffset + (state.fragmentStart - cursorStart) } : Fragment) =
            item.dropFront consumed := by
          rw [hfragmentEnd, hstart, Nat.add_sub_cancel_left, Nat.add_sub_add_left]
          rfl
        obtain ⟨state', hpush, hstep, hold, hfs⟩ :=
          pushRest_step h hrest hlt hpiece state.fragmentStart
        refine ⟨{ state' with oldFragments := state'.oldFragments.next },
          (item.dropFront consumed).atoms, ?_, ?_, Or.inr ⟨item, rest, rfl, by rw [← hold]⟩⟩
        · simp only [finishFragment]
          rw [if_pos (by omega), if_pos (by omega), hitem]
          simp only [some_do, hpush]
          rfl
        · rw [← hfs] at hstep
          exact hstep
      · have hlen : consumed = item.len := by omega
        refine ⟨{ state with oldFragments := state.oldFragments.next }, [], ?_,
          (EditStep.refl h).next hrest hlen, Or.inr ⟨item, rest, rfl, rfl⟩⟩
        simp only [finishFragment]
        rw [if_pos (by omega), if_neg (by omega)]
        rfl

section

variable (h : Good byteAt old timestamp state 0)
include h

/-- At the start of a fragment the pending fragments are those behind the cursor. -/
theorem Good.pending_zero : state.pending 0 = state.oldFragments.rest := cutFront_zero h.rest_valid

/-- Copying fragments behind the cursor, which moves past them. -/
theorem Good.keep {kept tail : List Fragment} {newRopes : RopeBuilder}
    {cursor : ListCursor Fragment} (hkept : state.oldFragments.rest = kept ++ tail)
    (htexts : TextsMatch byteAt newRopes (state.newFragments ++ kept) tail)
    (hcursor : cursor = ⟨state.oldFragments.before ++ kept, tail⟩) :
    EditStep byteAt old timestamp state 0
      { state with newRopes, oldFragments := cursor, newFragments := state.newFragments ++ kept }
      0 (atomsOf kept) (atomsOf kept) 0 := by
  have hvalid := h.rest_valid
  have hwalk := h.walk
  rw [h.pending_zero, hkept] at hwalk
  rw [hkept, forall_mem_append] at hvalid
  have hpending : cutFront 0 tail = tail := cutFront_zero hvalid.2
  subst hcursor
  refine ⟨⟨h.valid, h.ids, ?_, fun _ _ _ => Nat.zero_le _, fun _ => rfl, ?_, ?_⟩, by simp, ?_, rfl⟩
  · rw [← h.items, ListCursor.items, ListCursor.items, hkept, append_assoc]
  · rw [pending, hpending]
    exact hwalk.keep _ fun f hf => h.mem_old (hkept ▸ mem_append_left _ hf)
  · rw [pending, hpending]
    exact htexts
  · rw [h.pending_zero, hkept, pending, hpending, atomsOf_append]

/-- Copying the fragments that a seek passes over. -/
theorem appendSlice_step {D : Type} (dim : Dimension FragmentSummary D) (stepsOver : D → Bool) :
    ∃ state', state.appendSlice dim stepsOver = some state' ∧
      EditStep byteAt old timestamp state 0 state' 0
        (atomsOf (state.oldFragments.slice dim Fragment.summary stepsOver).1)
        (atomsOf (state.oldFragments.slice dim Fragment.summary stepsOver).1) 0 ∧
      state'.oldFragments = (state.oldFragments.slice dim Fragment.summary stepsOver).2 := by
  have hsplit := ListCursor.slice_rest dim Fragment.summary stepsOver state.oldFragments
  have htexts := h.texts
  rw [h.pending_zero, ← hsplit] at htexts
  obtain ⟨newRopes, happend, htexts'⟩ := htexts.keep
  refine ⟨_, ?_, h.keep hsplit.symm htexts' rfl, rfl⟩
  simp only [appendSlice, happend]
  rfl

/-- Copying everything behind the cursor. -/
theorem appendSuffix_step : ∃ state', state.appendSuffix = some state' ∧
      EditStep byteAt old timestamp state 0 state' 0 (atomsOf (state.pending 0))
        (atomsOf (state.pending 0)) 0 ∧
      state'.oldFragments.rest = [] := by
  have htexts := h.texts
  rw [h.pending_zero, ← append_nil state.oldFragments.rest] at htexts
  obtain ⟨newRopes, happend, htexts'⟩ := htexts.keep
  rw [h.pending_zero]
  refine ⟨_, ?_, h.keep (append_nil _).symm htexts' rfl, rfl⟩
  simp only [appendSuffix, ListCursor.suffix, happend]
  rfl

end

section Good

variable (h : Good byteAt old timestamp state consumed)
include h

/-- A piece at the front of what is left of the current fragment, under a new locator. -/
theorem newPiece_spec {item piece : Fragment} {cursorStart stop : Nat}
    (hrest : state.oldFragments.rest = item :: rest)
    (hstart : state.fragmentStart = cursorStart + consumed) (hlt : state.fragmentStart < stop)
    (hle : stop ≤ cursorStart + item.len) (hlen : piece.len = stop - state.fragmentStart)
    (htimestamp : piece.timestamp = item.timestamp)
    (hoffset : piece.insertionOffset = item.insertionOffset + (state.fragmentStart - cursorStart))
    (hid : piece.id = Locator.between (maxId state.newFragments) item.id) :
    piece.FrontOf (item.dropFront consumed) ∧
      PushId state.newFragments (item.dropFront consumed) piece ∧
      piece.insertionOffset + piece.len < 2 ^ 32 := by
  have hwalk := h.walk
  rw [pending, hrest, cutFront_of_lt (by omega)] at hwalk
  have hfront : piece.FrontOf (item.dropFront consumed) := by
    refine ⟨htimestamp, ?_, by omega, ?_⟩
    · rw [hoffset, hstart, Nat.add_sub_cancel_left]
      rfl
    · rw [hlen, Fragment.dropFront_len]
      omega
  refine ⟨hfront, pushId_between piece hwalk hid, ?_⟩
  have hvalid := (hwalk.valid (item.dropFront consumed) (by simp)).stop_lt
  have hle := hfront.len_le
  rw [hfront.insertionOffset]
  omega

/-- Pushing the part of the current fragment in front of a range. -/
theorem pushPrefix_step {cursorStart rangeStart : Nat}
    (hstart : state.fragmentStart = cursorStart + consumed)
    (hrange : state.fragmentStart ≤ rangeStart)
    (hroom : state.fragmentStart < rangeStart → ∃ item rest,
      state.oldFragments.rest = item :: rest ∧ rangeStart ≤ cursorStart + item.len) :
    ∃ state' moved, state.pushPrefix cursorStart rangeStart = some state' ∧
      EditStep byteAt old timestamp state consumed state' (rangeStart - cursorStart) moved moved 0 ∧
      state'.oldFragments = state.oldFragments ∧ state'.fragmentStart = rangeStart ∧
      moved.length = rangeStart - state.fragmentStart ∧
      (∀ a ∈ moved, ∃ item rest, state.oldFragments.rest = item :: rest ∧ a ∈ item.atoms) ∧
      ((∀ f ∈ state.newFragments, f.id < state.nextFragmentId) →
        ∀ f ∈ state'.newFragments, f.id < state'.nextFragmentId) := by
  rcases Nat.lt_or_ge state.fragmentStart rangeStart with hlt | hge
  · obtain ⟨item, rest, hrest, hroom⟩ := hroom hlt
    have hconsumed : consumed < item.len := by omega
    have hitem := ListCursor.item_eq_some_iff.mpr ⟨rest, hrest⟩
    generalize hpiece : ({ item with
      len := rangeStart - state.fragmentStart
      insertionOffset := item.insertionOffset + (state.fragmentStart - cursorStart)
      id := Locator.between (maxId state.newFragments) item.id } :
        Fragment) = piece
    have hlen : piece.len = rangeStart - state.fragmentStart := by rw [← hpiece]
    obtain ⟨hfront, hpushId, -⟩ := newPiece_spec h hrest hstart hlt hroom hlen
      (by rw [← hpiece]) (by rw [← hpiece]) (by rw [← hpiece])
    obtain ⟨state', hpush, hstep, hold, -, hnew⟩ := pushPiece_step h hrest hconsumed hfront
      hpushId (PushSlices.kept (by rw [← hpiece]; rfl)) state.editsPatch
    have hconsumed' : consumed + piece.len = rangeStart - cursorStart := by omega
    have hatoms : ({ item.dropFront consumed with len := piece.len } : Fragment).atoms =
        piece.atoms := by
      rw [← hpiece, hstart, Nat.add_sub_cancel_left]
      rfl
    rw [hconsumed', hatoms] at hstep
    rw [append_nil] at hpush
    refine ⟨{ state' with fragmentStart := rangeStart }, piece.atoms, ?_, hstep.congr _ _, hold,
      rfl, by simp [hlen], ?_, ?_⟩
    · simp only [pushPrefix]
      rw [if_pos hlt, hitem]
      simp only [some_do, hpiece, hpush]
      rfl
    · intro a ha
      refine ⟨item, rest, hrest, ?_⟩
      rw [← hatoms] at ha
      obtain ⟨i, hi, rfl⟩ := Fragment.mem_atoms.mp ha
      refine Fragment.mem_atoms.mpr ⟨consumed + i, ?_, ?_⟩
      · simp only at hi
        omega
      · simp [Fragment.atomAt, Fragment.dropFront, Nat.add_assoc]
    · intro hbelow f hf
      have hitem' := hold ▸ hitem
      have hvalid := h.rest_valid item (by simp [hrest])
      simp only [nextFragmentId, hitem, hitem'] at hbelow ⊢
      rw [show _ = state.newFragments ++ [piece] from hnew] at hf
      rcases mem_append.mp hf with hf | hf
      · exact hbelow f hf
      · rw [mem_singleton.mp hf, ← hpiece]
        exact Locator.between_lt (maxId_lt hvalid.min_lt hbelow) hvalid.endsNonzero
  · have heq : state.fragmentStart = rangeStart := by omega
    refine ⟨state, [], ?_, ?_, rfl, heq, by simp [heq], by simp, id⟩
    · simp [pushPrefix, heq]
    · have hconsumed : rangeStart - cursorStart = consumed := by omega
      rw [hconsumed]
      exact EditStep.refl h

/-- Unless the current fragment is consumed to its end, the next locator lies behind the
new fragments. -/
theorem Good.lt_nextFragmentId
    (hlt : ∀ item rest, state.oldFragments.rest = item :: rest → consumed < item.len) :
    ∀ f ∈ state.newFragments, f.id < state.nextFragmentId := by
  intro f hf
  have hwalk := h.walk
  cases hrest : state.oldFragments.rest with
  | nil =>
    have hitem : state.oldFragments.item = none := by simp [ListCursor.item, hrest]
    simp only [nextFragmentId, hitem]
    exact (hwalk.valid f (by simp [hf])).lt_max
  | cons item rest =>
    have hitem := ListCursor.item_eq_some_iff.mpr ⟨rest, hrest⟩
    rw [pending, hrest, cutFront_of_lt (hlt item rest hrest)] at hwalk
    simp only [nextFragmentId, hitem]
    exact (pairwise_append.mp hwalk.ids).2.2 f hf (item.dropFront consumed) (by simp)

/-- The next locator is a proper bound for new locators. -/
theorem Good.nextFragmentId_spec :
    Locator.min < state.nextFragmentId ∧ state.nextFragmentId ≤ Locator.max ∧
      Locator.EndsNonzero state.nextFragmentId ∧
      ∀ g ∈ state.pending consumed, state.nextFragmentId ≤ g.id := by
  cases hrest : state.oldFragments.rest with
  | nil =>
    have hitem : state.oldFragments.item = none := by simp [ListCursor.item, hrest]
    simp only [nextFragmentId, hitem, pending, hrest, cutFront]
    exact ⟨Locator.min_lt_max, le_refl _, Locator.max_endsNonzero, by simp⟩
  | cons item rest =>
    have hitem := ListCursor.item_eq_some_iff.mpr ⟨rest, hrest⟩
    have hvalid := h.rest_valid item (by simp [hrest])
    have hids := h.ids
    rw [← h.items, ListCursor.items, hrest] at hids
    have hlater := (pairwise_cons.mp (pairwise_append.mp hids).2.1).1
    simp only [nextFragmentId, hitem]
    refine ⟨hvalid.min_lt, le_of_lt hvalid.lt_max, hvalid.endsNonzero, ?_⟩
    intro g hg
    rw [pending, hrest] at hg
    rcases mem_cutFront hg with ⟨-, rfl⟩ | hg
    · exact le_refl _
    · exact le_of_lt (hlater g hg)

end Good

end Blocks

section Insertion

theorem lt_chunkEnd {text : List Char} {textOffset : Nat} (h : textOffset < (utf8 text).length) :
    textOffset < chunkEnd text textOffset ∧ chunkEnd text textOffset ≤ (utf8 text).length := by
  have hmax : 3 < maxInsertionLen := by decide
  unfold chunkEnd
  simp only
  split
  · omega
  · rename_i hne
    have hle := floorCharBoundary_le text (min (utf8 text).length (textOffset + maxInsertionLen))
    have hge := le_floorCharBoundary_add text
      (min (utf8 text).length (textOffset + maxInsertionLen)) (by omega)
    omega

/-- The chunks of an inserted text are nonempty and make up the text. -/
theorem chunkLens_spec (text : List Char) (fuel textOffset : Nat)
    (hfuel : (utf8 text).length ≤ textOffset + fuel) (hoffset : textOffset ≤ (utf8 text).length) :
    textOffset + (chunkLens text fuel textOffset).sum = (utf8 text).length ∧
      ∀ chunkLen ∈ chunkLens text fuel textOffset, 0 < chunkLen := by
  induction fuel generalizing textOffset with
  | zero =>
    simp only [chunkLens, sum_nil, not_mem_nil, false_implies, implies_true, and_true]
    omega
  | succ fuel ih =>
    simp only [chunkLens]
    split
    · rename_i hlt
      obtain ⟨hgt, hle⟩ := lt_chunkEnd hlt
      rw [if_neg (by omega)]
      obtain ⟨hsum, hpos⟩ := ih (chunkEnd text textOffset) (by omega) hle
      constructor
      · rw [sum_cons]
        omega
      · intro chunkLen hmem
        rcases mem_cons.mp hmem with rfl | hmem
        · omega
        · exact hpos chunkLen hmem
    · simp only [sum_nil, not_mem_nil, false_implies, implies_true, and_true]
      omega

theorem sum_insertionChunkLens (text : List Char) :
    (insertionChunkLens text).sum = (utf8 text).length := by
  have := (chunkLens_spec text (utf8 text).length 0 (by omega) (by omega)).1
  simpa [insertionChunkLens] using this

variable {bound : Locator} {pendingFragments : List Fragment}

/-- What has been inserted since `start`.  Only the fragments have changed; the text is pushed
at the end. -/
structure Inserted (old pendingFragments : List Fragment) (timestamp : Lamport) (bound : Locator)
    (start state : EditState) (len : Nat) : Prop where
  walk : Walk old timestamp state.newFragments pendingFragments state.newInsertions
    state.insertionSlices
  below : ∀ f ∈ state.newFragments, f.id < bound
  atoms : atomsOf state.newFragments =
    atomsOf start.newFragments ++ insertedAtoms timestamp start.insertionOffset len
  offset : state.insertionOffset = start.insertionOffset + len
  newRopes : state.newRopes = start.newRopes
  oldFragments : state.oldFragments = start.oldFragments
  fragmentStart : state.fragmentStart = start.fragmentStart

/-- The fragment that the next chunk of an insertion becomes. -/
def chunkFragment (timestamp : Lamport) (bound : Locator) (state : EditState) (chunkLen : Nat) :
    Fragment where
  id := Locator.between (maxId state.newFragments) bound
  timestamp
  insertionOffset := state.insertionOffset
  len := chunkLen
  visible := true
  deletions := []
  maxUndos := Global.new

/-- A chunk becomes a fragment if its end is a `u32` value. -/
theorem pushInsertionChunk_eq (chunkLen : Nat) :
    pushInsertionChunk timestamp bound state chunkLen =
      let fragment := chunkFragment timestamp bound state chunkLen
      if state.insertionOffset + chunkLen < 2 ^ 32 then
        some { state with
          insertionSlices := state.insertionSlices ++ [sliceOf timestamp fragment]
          newInsertions := state.newInsertions ++ [InsertionFragment.new fragment]
          newFragments := state.newFragments ++ [fragment]
          insertionOffset := state.insertionOffset + chunkLen }
      else none := by
  simp only [pushInsertionChunk, InsertionSlice.fromFragment]
  split <;> rfl

section Chunks

variable {start : EditState} {len : Nat}
  (h : Inserted old pendingFragments timestamp bound start state len) (hmin : Locator.min < bound)
  (hmax : bound ≤ Locator.max) (hends : Locator.EndsNonzero bound)
  (hpending : ∀ g ∈ pendingFragments, bound ≤ g.id)
include h hmin hmax hends hpending

/-- One chunk of an insertion. -/
theorem Inserted.push {chunkLen : Nat} (hpos : 0 < chunkLen)
    (hlen : state.insertionOffset + chunkLen < 2 ^ 32) :
    ∃ state', pushInsertionChunk timestamp bound state chunkLen = some state' ∧
      Inserted old pendingFragments timestamp bound start state' (len + chunkLen) := by
  have hvalidNew : ∀ f ∈ state.newFragments, f.Valid := fun f hf => h.walk.valid f (by simp [hf])
  have hids := (pairwise_append.mp h.walk.ids).1
  have hlt := Locator.lt_between (maxId state.newFragments) bound
  have hbelow := Locator.between_lt (maxId_lt hmin h.below) hends
  have hvalid : (chunkFragment timestamp bound state chunkLen).Valid :=
    ⟨hpos, hlen, lt_of_le_of_lt (min_le_maxId _ hvalidNew) hlt, lt_of_lt_of_le hbelow hmax,
      Locator.between_endsNonzero _ _⟩
  have hinsert := h.walk.insert hvalid rfl rfl
    (fun g hg => lt_of_le_of_lt (id_le_maxId hids hg) hlt)
    (fun g hg => lt_of_lt_of_le hbelow (hpending g hg))
  refine ⟨_, (pushInsertionChunk_eq chunkLen).trans (if_pos hlen), hinsert, ?_, ?_, ?_,
    h.newRopes, h.oldFragments, h.fragmentStart⟩
  · exact forall_mem_append.mpr ⟨h.below, forall_mem_singleton.mpr hbelow⟩
  · rw [atomsOf_append, atomsOf_cons, atomsOf_nil, append_nil, h.atoms, insertedAtoms_add,
      append_assoc, ← h.offset]
    rfl
  · rw [h.offset, Nat.add_assoc]

/-- All chunks of an insertion. -/
theorem Inserted.pushAll (chunkLens : List Nat) (hpos : ∀ n ∈ chunkLens, 0 < n)
    (hlen : state.insertionOffset + chunkLens.sum < 2 ^ 32) :
    ∃ state', chunkLens.foldlM (pushInsertionChunk timestamp bound) state = some state' ∧
      Inserted old pendingFragments timestamp bound start state' (len + chunkLens.sum) := by
  induction chunkLens generalizing state len with
  | nil => exact ⟨state, rfl, h⟩
  | cons n chunkLens ih =>
    rw [sum_cons] at hlen ⊢
    obtain ⟨state₁, hpush, h₁⟩ := h.push hmin hmax hends hpending (hpos n (by simp)) (by omega)
    have hoffset : state₁.insertionOffset = state.insertionOffset + n := by
      rw [h₁.offset, h.offset, Nat.add_assoc]
    obtain ⟨state₂, hfold, h₂⟩ := ih h₁ (fun m hm => hpos m (mem_cons_of_mem n hm)) (by omega)
    rw [Nat.add_assoc] at h₂
    exact ⟨state₂, by rw [foldlM_cons, hpush]; exact hfold, h₂⟩

end Chunks

theorem visibleBytes_insertedAtoms (timestamp : Lamport) (offset len : Nat) :
    visibleBytes byteAt (insertedAtoms timestamp offset len) =
      (List.range len).map fun i => byteAt (timestamp, offset + i) := by
  unfold visibleBytes insertedAtoms
  rw [filter_eq_self.mpr (by simp), map_map]
  rfl

theorem deletedBytes_insertedAtoms (timestamp : Lamport) (offset len : Nat) :
    deletedBytes byteAt (insertedAtoms timestamp offset len) = [] := by
  unfold deletedBytes insertedAtoms
  rw [filter_eq_nil_iff.mpr (by simp)]
  rfl

/-- Inserting a text in front of the cursor. -/
theorem insertion_step {newText : List Char} (h : Good byteAt old timestamp state consumed)
    (hnext : ∀ f ∈ state.newFragments, f.id < state.nextFragmentId)
    (hlen : state.insertionOffset + (utf8 newText).length < 2 ^ 32)
    (hbytes : (List.range (utf8 newText).length).map
      (fun i => byteAt (timestamp, state.insertionOffset + i)) = utf8 newText) :
    ∃ state', state.pushFragmentsForInsertion newText timestamp state.nextFragmentId = some state' ∧
      EditStep byteAt old timestamp state consumed state' consumed []
        (insertedAtoms timestamp state.insertionOffset (utf8 newText).length)
        (utf8 newText).length ∧
      state'.oldFragments = state.oldFragments ∧
      state'.fragmentStart = state.fragmentStart ∧
      ∀ f ∈ state'.newFragments, f.id < state'.nextFragmentId := by
  obtain ⟨hmin, hmax, hends, hpending⟩ := h.nextFragmentId_spec
  have hnone : Inserted old (state.pending consumed) timestamp state.nextFragmentId state state 0 :=
    ⟨h.walk, hnext, by simp [insertedAtoms], rfl, rfl, rfl, rfl⟩
  obtain ⟨state', hfold, hwalk, hbelow, hatoms, hoffset, hropes, hold, hstart⟩ :=
    hnone.pushAll hmin hmax hends hpending (insertionChunkLens newText)
      (chunkLens_spec newText (utf8 newText).length 0 (by omega) (by omega)).2
      (by rw [sum_insertionChunkLens]; exact hlen)
  rw [sum_insertionChunkLens, Nat.zero_add] at hatoms hoffset
  have hpendingEq : ∀ c, state'.pending c = state.pending c := by
    intro c
    rw [pending, pending, hold]
  refine ⟨{ state' with newRopes := state'.newRopes.pushStr newText }, ?_,
    ⟨⟨h.valid, h.ids, ?_, ?_, ?_, ?_, ?_⟩, hatoms, ?_, hoffset⟩, hold, hstart, ?_⟩
  · simp only [pushFragmentsForInsertion, hfold]
    rfl
  · rw [← h.items]
    exact congrArg ListCursor.items hold
  · intro f rest hrest
    exact h.consumed_le f rest (hold ▸ hrest)
  · intro hrest
    exact h.consumed_end (hold ▸ hrest)
  · exact (hpendingEq consumed).symm ▸ hwalk
  · have htexts := h.texts
    change TextsMatch byteAt (state'.newRopes.pushStr newText) state'.newFragments
      (state'.pending consumed)
    rw [hpendingEq, hropes]
    constructor
    · rw [RopeBuilder.pushStr, htexts.newVisible, hatoms, visibleBytes_append,
        visibleBytes_insertedAtoms, hbytes]
    · rw [RopeBuilder.pushStr, htexts.newDeleted, hatoms, deletedBytes_append,
        deletedBytes_insertedAtoms, append_nil]
    · exact htexts.oldVisible
    · exact htexts.oldDeleted
  · change _ = [] ++ atomsOf (state'.pending consumed)
    rw [hpendingEq]
    rfl
  · simpa only [nextFragmentId, hold] using hbelow

/-- An insertion that succeeds does not overflow the insertion offset. -/
theorem insertionOffset_of_foldlM {chunkLens : List Nat}
    (hsome : chunkLens.foldlM (pushInsertionChunk timestamp bound) state = some state')
    (hoffset : state.insertionOffset < 2 ^ 32) :
    state'.insertionOffset = state.insertionOffset + chunkLens.sum ∧
      state'.insertionOffset < 2 ^ 32 := by
  induction chunkLens generalizing state with
  | nil =>
    obtain rfl : state = state' := by simpa using hsome
    exact ⟨by simp, hoffset⟩
  | cons n chunkLens ih =>
    rw [foldlM_cons, do_eq_some] at hsome
    obtain ⟨state₁, hpush, hrest⟩ := hsome
    simp only [pushInsertionChunk_eq] at hpush
    split at hpush
    · rename_i hlt
      obtain rfl := Option.some.inj hpush
      obtain ⟨h₁, h₂⟩ := ih hrest hlt
      refine ⟨?_, h₂⟩
      rw [h₁, sum_cons, Nat.add_assoc]
    · simp at hpush

end Insertion

end EditState

section Result

/-- The result of an edit: the fragments were rewritten into the given atoms, and the
texts and the two indices were updated to match. -/
structure Rewritten (byteAt : ByteId → UInt8) (timestamp : Lamport)
    (snapshot snapshot' : BufferSnapshot) (result : List Atom) : Prop where
  atoms : atomsOf snapshot'.fragments = result
  visibleText : snapshot'.visibleText = visibleBytes byteAt result
  deletedText : snapshot'.deletedText = deletedBytes byteAt result
  walk : ∃ entries slices, Walk snapshot.fragments timestamp snapshot'.fragments [] entries slices ∧
    snapshot'.insertions = KeyedList.insertAll InsertionFragment.key snapshot.insertions entries ∧
    snapshot'.insertionSlices =
      KeyedList.insertAll InsertionSlice.key snapshot.insertionSlices slices
  undoMap : snapshot'.undoMap = snapshot.undoMap
  version : snapshot'.version = snapshot.version
  remoteId : snapshot'.remoteId = snapshot.remoteId
  replicaId : snapshot'.replicaId = snapshot.replicaId

variable {byteAt : ByteId → UInt8} {timestamp : Lamport} {snapshot : BufferSnapshot}
  {state : EditState} {consumed : Nat}

theorem BufferSnapshot.TextsValid.withVersion (h : snapshot.TextsValid byteAt)
    (version : Global) : BufferSnapshot.TextsValid byteAt { snapshot with version } :=
  ⟨h.valid, h.ids, h.visibleText, h.deletedText⟩

/-- Only the bytes of the atoms matter. -/
theorem BufferSnapshot.TextsValid.congr {byteAt' : ByteId → UInt8} (h : snapshot.TextsValid byteAt)
    (heq : ∀ a ∈ atomsOf snapshot.fragments, byteAt a.id = byteAt' a.id) :
    snapshot.TextsValid byteAt' where
  valid := h.valid
  ids := h.ids
  visibleText := by rw [h.visibleText, visibleBytes_congr heq]
  deletedText := by rw [h.deletedText, deletedBytes_congr heq]

/-- An edit without ranges changes nothing. -/
theorem Rewritten.refl (h : snapshot.TextsValid byteAt) :
    Rewritten byteAt timestamp snapshot snapshot (atomsOf snapshot.fragments) where
  atoms := rfl
  visibleText := h.visibleText
  deletedText := h.deletedText
  walk := by
    have hwalk := Walk.init timestamp h.valid h.ids
    rw [← append_nil snapshot.fragments] at hwalk
    have hkeep := hwalk.keep snapshot.fragments (fun f hf => by simpa using hf)
    exact ⟨[], [], by simpa using hkeep, rfl, rfl⟩
  undoMap := rfl
  version := rfl
  remoteId := rfl
  replicaId := rfl

/-- Finishing an edit: the current fragment is completed, everything behind it is copied,
and the result is stored. -/
theorem finish_spec (cursorStart fragmentEnd : Nat)
    (h : EditState.Good byteAt snapshot.fragments timestamp state consumed)
    (hstart : state.fragmentStart = cursorStart + consumed)
    (hend : ∀ item rest, state.oldFragments.rest = item :: rest → 0 < consumed →
      fragmentEnd = cursorStart + item.len) :
    ∃ state', (state.finishFragment cursorStart fragmentEnd).bind EditState.appendSuffix =
        some state' ∧
      Rewritten byteAt timestamp snapshot (state'.store snapshot)
        (atomsOf state.newFragments ++ atomsOf (state.pending consumed)) := by
  obtain ⟨state₁, moved, hfinish, hstep₁, -⟩ :=
    EditState.finishFragment_step fragmentEnd h hstart hend
  obtain ⟨state₂, happend, hstep₂, hrest₂⟩ := EditState.appendSuffix_step hstep₁.good
  have hpending : state₂.pending 0 = [] := by
    rw [EditState.pending, hrest₂]
    rfl
  have hatoms : atomsOf state₂.newFragments =
      atomsOf state.newFragments ++ atomsOf (state.pending consumed) := by
    rw [hstep₂.pushed, hstep₁.pushed, hstep₁.taken, append_assoc]
  have hwalk := hstep₂.good.walk
  have htexts := hstep₂.good.texts
  rw [hpending] at hwalk htexts
  refine ⟨state₂, by rw [hfinish, Option.bind_some, happend], ?_⟩
  constructor
  · exact hatoms
  · simp only [EditState.store, RopeBuilder.finish]
    rw [htexts.newVisible, htexts.oldVisible, hatoms]
    simp
  · simp only [EditState.store, RopeBuilder.finish]
    rw [htexts.newDeleted, htexts.oldDeleted, hatoms]
    simp
  · exact ⟨_, _, hwalk, rfl, rfl⟩
  · rfl
  · rfl
  · rfl
  · rfl

end Result

end XorEditor.Text
