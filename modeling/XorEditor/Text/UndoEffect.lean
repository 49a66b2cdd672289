import XorEditor.Text.Indexes
import XorEditor.Text.Undo

/-!
# The effect of an undo operation

`fragment_ids_for_edits` finds exactly the fragments that the given edits touched,
although it only walks once through the insertions tree.  The reason is the order of the
slices: a slice that comes later never begins before an earlier one, so an entry that was
passed without being collected lies in front of all slices to come.

`apply_undo` then recomputes the visibility of these fragments under the new undo counts,
records its timestamp in them, and leaves everything else as it is.

* `Collected`: the invariant of the lookup
* `applyUndo_spec`: the effect
-/

namespace XorEditor.Text

open Clock Lib KeyedList List

section Slices

theorem Lamport.min_le (t : Lamport) : Lamport.MIN ≤ t := by
  rw [Lamport.le_iff]
  simp only [Lamport.MIN]
  omega

/-- The slices of one edit. -/
theorem mem_slicesForEdit {slices : List InsertionSlice}
    (hordered : Ordered InsertionSlice.key slices) (editId : Lamport) (s : InsertionSlice) :
    s ∈ slicesForEdit slices editId ↔ s ∈ slices ∧ s.editId = editId := by
  refine mem_group hordered
    (InsertionSlice.key { editId, insertionId := Lamport.MIN, rangeStart := 0, rangeEnd := 0 })
    Prod.Lex.monotone_fst_ofLex (fun s hs => ?_) s
  have hrange : toLex (0, 0) ≤ toLex (s.rangeStart, s.rangeEnd) :=
    Prod.Lex.toLex_mono ⟨Nat.zero_le _, Nat.zero_le _⟩
  exact Prod.Lex.toLex_mono ⟨hs.ge, Prod.Lex.toLex_mono ⟨Lamport.min_le s.insertionId, hrange⟩⟩

end Slices

section Collect

/-- An entry of the insertions tree begins inside a slice. -/
def InsertionSlice.Holds (s : InsertionSlice) (entry : InsertionFragment) : Prop :=
  entry.timestamp = s.insertionId ∧ s.rangeStart ≤ entry.splitOffset ∧
    entry.splitOffset < s.rangeEnd

/-- Where the entries of a slice begin. -/
def InsertionSlice.first (s : InsertionSlice) : Lamport ×ₗ Nat :=
  toLex (s.insertionId, s.rangeStart)

variable {s slice : InsertionSlice} {found : List InsertionFragment}
  {acc : ListCursor InsertionFragment × List Locator}

theorem InsertionSlice.first_le {t : InsertionSlice} (h : s.lookupKey ≤ t.lookupKey) :
    s.first ≤ t.first := by
  rw [InsertionSlice.lookupKey, InsertionSlice.lookupKey, Prod.Lex.toLex_le_toLex'] at h
  rw [InsertionSlice.first, InsertionSlice.first, Prod.Lex.toLex_le_toLex']
  exact ⟨h.1, fun hid => Prod.Lex.monotone_fst _ _ (h.2 hid)⟩

theorem InsertionSlice.Holds.first_le {entry : InsertionFragment} (h : s.Holds entry) :
    s.first ≤ entry.key :=
  Prod.Lex.toLex_mono ⟨h.1.ge, h.2.1⟩

variable {insertions : List InsertionFragment}

/-- The state of the lookup after the slices `done`: what is in front of the cursor was
found, or lies in front of one of the slices and hence of all later ones. -/
structure Collected (insertions : List InsertionFragment) (done : List InsertionSlice)
    (acc : ListCursor InsertionFragment × List Locator) (found : List InsertionFragment) :
    Prop where
  items : acc.1.items = insertions
  ids : acc.2 = found.map InsertionFragment.fragmentId
  sublist : found.Sublist acc.1.before
  sound : ∀ entry ∈ found, ∃ s ∈ done, s.Holds entry
  passed : ∀ entry ∈ acc.1.before, entry ∈ found ∨ ∃ s ∈ done, entry.key < s.first
  complete : ∀ s ∈ done, ∀ entry ∈ insertions, s.Holds entry → entry ∈ found

/-- The cursor from which the entries of a slice are read. -/
def seekSlice (cursor : ListCursor InsertionFragment) (slice : InsertionSlice) :
    ListCursor InsertionFragment :=
  let start := ofLex (cursor.start InsertionFragment.keyDimension InsertionFragment.key)
  if slice.insertionId ≠ start.1 ∨ start.2 < slice.rangeStart then
    (cursor.slice InsertionFragment.keyDimension InsertionFragment.key
      (stepsOverInsertion slice.first)).2
  else
    cursor

/-- Seeking passes only entries in front of the slice, and stops at the first one that is
not, even where the seek is skipped. -/
theorem seekSlice_spec {cursor : ListCursor InsertionFragment}
    (hordered : Ordered InsertionFragment.key cursor.items) (slice : InsertionSlice) :
    ∃ passed, (seekSlice cursor slice).before = cursor.before ++ passed ∧
      cursor.rest = passed ++ (seekSlice cursor slice).rest ∧
      (∀ entry ∈ passed, entry.key < slice.first) ∧
      ∀ entry ∈ (seekSlice cursor slice).rest, slice.first ≤ entry.key := by
  have hrest : Ordered InsertionFragment.key cursor.rest :=
    hordered.sublist (sublist_append_right _ _)
  simp only [seekSlice]
  split
  · rw [slice_eq_seekFrom InsertionFragment.keyDimension InsertionFragment.key
      (fun _ entry => passes_left_iff slice.first entry.key) cursor]
    refine ⟨_, rfl, (takeBelow_append_seekFrom _ _).symm, ?_, ?_⟩
    · exact fun entry hentry => ((mem_takeBelow hrest _ _).mp hentry).2
    · exact fun entry hentry => ((mem_seekFrom hrest _ _).mp hentry).2
  · rename_i hstart
    rw [not_or, not_not, Nat.not_lt] at hstart
    refine ⟨[], by simp, by simp, by simp, ?_⟩
    intro entry hentry
    rcases eq_nil_or_concat cursor.before with hnil | ⟨init, last, hlast⟩
    · -- Nothing was passed, so the slice begins with the smallest possible key.
      have hzero : cursor.start InsertionFragment.keyDimension InsertionFragment.key =
          toLex (Lamport.MIN, 0) := by
        rw [ListCursor.start, hnil]
        rfl
      rw [hzero] at hstart
      exact Prod.Lex.toLex_mono ⟨hstart.1.le.trans (Lamport.min_le _),
        hstart.2.trans (Nat.zero_le _)⟩
    · -- The entry passed last belongs to the slice's insertion, behind its start.
      have hkey : cursor.start InsertionFragment.keyDimension InsertionFragment.key = last.key := by
        rw [ListCursor.start, hlast, concat_eq_append, Dimension.measure_concat]
        rfl
      rw [hkey] at hstart
      have hlt : last.key < entry.key := by
        refine (pairwise_append.mp hordered).2.2 last ?_ entry hentry
        simp [hlast]
      exact le_of_lt (lt_of_le_of_lt (Prod.Lex.toLex_mono ⟨hstart.1.le, hstart.2⟩) hlt)

/-- The condition under which the lookup goes on reading entries for a slice. -/
def InsertionSlice.reads (slice : InsertionSlice) (item : InsertionFragment) : Bool :=
  !(decide (item.timestamp ≠ slice.insertionId) || decide (slice.rangeEnd ≤ item.splitOffset))

theorem InsertionSlice.reads_iff {item : InsertionFragment} : slice.reads item = true ↔
      item.timestamp = slice.insertionId ∧ item.splitOffset < slice.rangeEnd := by
  simp [InsertionSlice.reads]

/-- From the start of a slice on, exactly the entries that begin inside it are read. -/
theorem mem_takeWhile_reads {rest : List InsertionFragment}
    (hordered : Ordered InsertionFragment.key rest)
    (hahead : ∀ entry ∈ rest, slice.first ≤ entry.key) (entry : InsertionFragment) :
    entry ∈ rest.takeWhile slice.reads ↔ entry ∈ rest ∧ slice.Holds entry := by
  have hle : ∀ entry ∈ rest, entry.timestamp = slice.insertionId →
      slice.rangeStart ≤ entry.splitOffset := by
    intro entry hentry htimestamp
    exact (Prod.Lex.toLex_le_toLex'.mp (hahead entry hentry)).2 htimestamp.symm
  rw [mem_takeWhile_iff hordered]
  · constructor
    · rintro ⟨hentry, hreads⟩
      obtain ⟨htimestamp, hlt⟩ := InsertionSlice.reads_iff.mp hreads
      exact ⟨hentry, htimestamp, hle entry hentry htimestamp, hlt⟩
    · rintro ⟨hentry, hholds⟩
      exact ⟨hentry, InsertionSlice.reads_iff.mpr ⟨hholds.1, hholds.2.2⟩⟩
  · intro x hx y hy hkey hreads
    obtain ⟨htimestamp, hlt⟩ := InsertionSlice.reads_iff.mp hreads
    obtain ⟨hbelow, hoffset⟩ := Prod.Lex.toLex_le_toLex'.mp hkey
    have hsame : y.timestamp = slice.insertionId :=
      le_antisymm (hbelow.trans htimestamp.le) (Prod.Lex.monotone_fst _ _ (hahead y hy))
    exact InsertionSlice.reads_iff.mpr ⟨hsame, (hoffset (hsame.trans htimestamp.symm)).trans_lt hlt⟩

/-- One slice of the lookup. -/
theorem Collected.step {done : List InsertionSlice}
    (hordered : Ordered InsertionFragment.key insertions) (h : Collected insertions done acc found)
    (hdone : ∀ s ∈ done, s.lookupKey ≤ slice.lookupKey) :
    ∃ found', Collected insertions (done ++ [slice]) (collectFragmentIds acc slice) found' := by
  obtain ⟨cursor, ids⟩ := acc
  have hitems := h.items
  simp only at hitems
  obtain ⟨passed, hbefore, hrest, hpassed, hahead⟩ := seekSlice_spec (hitems ▸ hordered) slice
  have hseek : collectFragmentIds (cursor, ids) slice =
      ({ before := (seekSlice cursor slice).before ++
          (seekSlice cursor slice).rest.takeWhile slice.reads
         rest := (seekSlice cursor slice).rest.dropWhile slice.reads },
        ids ++ ((seekSlice cursor slice).rest.takeWhile slice.reads).map
          InsertionFragment.fragmentId) := rfl
  have hinsertions : insertions = cursor.before ++ (passed ++ (seekSlice cursor slice).rest) := by
    rw [← hrest]
    exact hitems.symm
  have haheadOrdered : Ordered InsertionFragment.key (seekSlice cursor slice).rest := by
    rw [hinsertions] at hordered
    exact hordered.sublist ((sublist_append_right _ _).trans (sublist_append_right _ _))
  rw [hseek]
  generalize seekSlice cursor slice = ahead at *
  have hread := mem_takeWhile_reads haheadOrdered hahead
  have hsplit : ahead.rest.takeWhile slice.reads ++ ahead.rest.dropWhile slice.reads =
      ahead.rest := takeWhile_append_dropWhile
  generalize ahead.rest.takeWhile slice.reads = read at hread hsplit ⊢
  refine ⟨found ++ read, ⟨?_, ?_, ?_, ?_, ?_, ?_⟩⟩
  · simp only [ListCursor.items, hbefore, append_assoc]
    rw [hsplit]
    exact hinsertions.symm
  · simp only [map_append]
    rw [← h.ids]
  · simp only [hbefore]
    exact (h.sublist.trans (sublist_append_left _ _)).append (List.Sublist.refl _)
  · intro entry hentry
    rcases mem_append.mp hentry with hfound | hnew
    · obtain ⟨s, hs, hholds⟩ := h.sound entry hfound
      exact ⟨s, by simp [hs], hholds⟩
    · exact ⟨slice, by simp, ((hread entry).mp hnew).2⟩
  · intro entry hentry
    simp only [hbefore, mem_append] at hentry
    rcases hentry with (hold | hskipped) | hnew
    · rcases h.passed entry hold with hfound | ⟨s, hs, hlt⟩
      · exact Or.inl (by simp [hfound])
      · exact Or.inr ⟨s, by simp [hs], hlt⟩
    · exact Or.inr ⟨slice, by simp, hpassed entry hskipped⟩
    · exact Or.inl (by simp [hnew])
  · intro s hs entry hentry hholds
    rcases mem_append.mp hs with hs | hs
    · exact mem_append_left _ (h.complete s hs entry hentry hholds)
    · rw [mem_singleton.mp hs] at hholds
      rw [hinsertions, mem_append, mem_append] at hentry
      rcases hentry with hold | hskipped | hrestMem
      · -- An entry passed earlier without being found lies in front of the slice.
        rcases h.passed entry hold with hfound | ⟨d, hd, hlt⟩
        · exact mem_append_left _ hfound
        · exact absurd (lt_of_lt_of_le hlt (InsertionSlice.first_le (hdone d hd)))
            (not_lt.mpr hholds.first_le)
      · exact absurd (hpassed entry hskipped) (not_lt.mpr hholds.first_le)
      · exact mem_append_right _ ((hread entry).mpr ⟨hrestMem, hholds⟩)

/-- The whole lookup. -/
theorem Collected.fold {done slices : List InsertionSlice}
    (hordered : Ordered InsertionFragment.key insertions) (h : Collected insertions done acc found)
    (hsorted : (done ++ slices).Pairwise fun s t => s.lookupKey ≤ t.lookupKey) :
    ∃ found', Collected insertions (done ++ slices) (slices.foldl collectFragmentIds acc)
      found' := by
  induction slices generalizing done acc found with
  | nil => exact ⟨found, by simpa using h⟩
  | cons slice slices ih =>
    obtain ⟨found₁, h₁⟩ := h.step hordered fun s hs =>
      (pairwise_append.mp hsorted).2.2 s hs slice (by simp)
    obtain ⟨found₂, h₂⟩ := ih h₁ (by simpa using hsorted)
    exact ⟨found₂, by simpa using h₂⟩

end Collect

section FragmentIds

variable {base : Lamport} {snapshot : BufferSnapshot}

variable (h : snapshot.Indexed base) {editIds : List Lamport} (hbase : base ∉ editIds)
include h hbase

/-- A fragment begins inside a slice of an edit exactly if the edit touched it. -/
theorem exists_holds_iff {f : Fragment} (hf : f ∈ snapshot.fragments) :
    (∃ s ∈ editIds.flatMap (slicesForEdit snapshot.insertionSlices),
      s.Holds (InsertionFragment.new f)) ↔ ∃ editId ∈ editIds, f.TouchedBy editId := by
  have hlen := (h.valid f hf).len_pos
  simp only [mem_flatMap, mem_slicesForEdit h.slices_ordered]
  constructor
  · rintro ⟨s, ⟨editId, hedit, hs, rfl⟩, htimestamp, hstart, hend⟩
    simp only [InsertionFragment.new] at htimestamp hstart hend
    exact ⟨s.editId, hedit, (h.slice_sound s hs f hf ⟨htimestamp, hend, by omega⟩).2⟩
  · rintro ⟨editId, hedit, htouched⟩
    obtain ⟨s, hs, rfl, hcovers⟩ := h.slice_complete f hf editId htouched
      fun heq => hbase (heq ▸ hedit)
    refine ⟨s, ⟨s.editId, hedit, hs, rfl⟩, hcovers.1, hcovers.2.1, ?_⟩
    have := hcovers.2.2
    simp only [InsertionFragment.new]
    omega

/-- `fragment_ids_for_edits` finds exactly the fragments touched by the edits, each once
and in the order of the fragments. -/
theorem fragmentIdsForEdits_spec : (snapshot.fragmentIdsForEdits editIds).Pairwise (· < ·) ∧
      ∀ id, id ∈ snapshot.fragmentIdsForEdits editIds ↔
        ∃ f ∈ snapshot.fragments, f.id = id ∧ ∃ editId ∈ editIds, f.TouchedBy editId := by
  have hperm := perm_insertionSort (fun x y : InsertionSlice => x.lookupKey ≤ y.lookupKey)
    (editIds.flatMap (slicesForEdit snapshot.insertionSlices))
  have hsorted := pairwise_insertionSort
    (fun x y : InsertionSlice => x.lookupKey ≤ y.lookupKey)
    (editIds.flatMap (slicesForEdit snapshot.insertionSlices))
  have hinit : Collected snapshot.insertions [] (ListCursor.ofList snapshot.insertions, []) [] :=
    ⟨rfl, rfl, by simp, by simp, by simp, by simp⟩
  obtain ⟨found, hfound⟩ := hinit.fold h.insertions_ordered (by simpa using hsorted)
  rw [nil_append] at hfound
  have hids : snapshot.fragmentIdsForEdits editIds =
      (found.map InsertionFragment.fragmentId).insertionSort (· ≤ ·) := by
    rw [← hfound.ids]
    rfl
  have hsublist : found.Sublist snapshot.insertions := by
    rw [← hfound.items]
    exact hfound.sublist.trans (sublist_append_left _ _)
  have hmem : ∀ f ∈ snapshot.fragments, InsertionFragment.new f ∈ found ↔
      ∃ editId ∈ editIds, f.TouchedBy editId := by
    intro f hf
    rw [← exists_holds_iff h hbase hf]
    constructor
    · intro hentry
      obtain ⟨s, hs, hholds⟩ := hfound.sound _ hentry
      exact ⟨s, hperm.mem_iff.mp hs, hholds⟩
    · rintro ⟨s, hs, hholds⟩
      exact hfound.complete s (hperm.mem_iff.mpr hs) _
        ((h.mem_insertions _).mpr ⟨f, hf, rfl⟩) hholds
  constructor
  · -- The ids are sorted and, since entries and fragments correspond, distinct.
    have hnodup : (found.map InsertionFragment.fragmentId).Nodup := by
      have hfoundOrdered := h.insertions_ordered.sublist hsublist
      refine pairwise_map.mpr (hfoundOrdered.imp_of_mem ?_)
      intro x y hx hy hlt heq
      obtain ⟨f, hf, rfl⟩ := (h.mem_insertions x).mp (hsublist.subset hx)
      obtain ⟨g, hg, rfl⟩ := (h.mem_insertions y).mp (hsublist.subset hy)
      have hsame : f = g := Ordered.eq_of_key h.ids hf hg heq
      rw [hsame] at hlt
      exact lt_irrefl _ hlt
    have hle := pairwise_insertionSort (fun x y : Locator => x ≤ y)
      (found.map InsertionFragment.fragmentId)
    have hsortedNodup := (perm_insertionSort (fun x y : Locator => x ≤ y)
      (found.map InsertionFragment.fragmentId)).nodup_iff.mpr hnodup
    rw [hids]
    exact hle.imp₂ (fun _ _ hle hne => lt_of_le_of_ne hle hne) hsortedNodup
  · intro id
    rw [hids, (perm_insertionSort _ _).mem_iff, mem_map]
    constructor
    · rintro ⟨entry, hentry, rfl⟩
      obtain ⟨f, hf, rfl⟩ := (h.mem_insertions entry).mp (hsublist.subset hentry)
      exact ⟨f, hf, rfl, (hmem f hf).mp hentry⟩
    · rintro ⟨f, hf, rfl, htouched⟩
      exact ⟨_, (hmem f hf).mpr htouched, rfl⟩

end FragmentIds

section Apply

variable {byteAt : ByteId → UInt8} {old : List Fragment} {undoMap : UndoMap} {timestamp : Lamport}

/-- A fragment whose visibility is recomputed. -/
def Fragment.undone (undoMap : UndoMap) (timestamp : Lamport) (f : Fragment) : Fragment :=
  { f with visible := f.isVisible undoMap, maxUndos := f.maxUndos.observe timestamp }

/-- A fragment after an undo that affects the given locators. -/
def Fragment.undoneIn (ids : List Locator) (undoMap : UndoMap) (timestamp : Lamport)
    (f : Fragment) : Fragment :=
  if f.id ∈ ids then f.undone undoMap timestamp else f

/-- The state of `apply_undo` while the locators `remaining` are still to come. -/
structure UndoAt (byteAt : ByteId → UInt8) (old : List Fragment) (ids : List Locator)
    (undoMap : UndoMap) (timestamp : Lamport) (remaining : List Locator) (state : EditState) :
    Prop where
  items : state.oldFragments.items = old
  new : state.newFragments = state.oldFragments.before.map (Fragment.undoneIn ids undoMap timestamp)
  texts : TextsMatch byteAt state.newRopes state.newFragments state.oldFragments.rest
  ahead : ∀ f ∈ state.oldFragments.rest, f.id ∈ ids ↔ f.id ∈ remaining
  exist : ∀ id ∈ remaining, ∃ f ∈ state.oldFragments.rest, f.id = id

variable {ids remaining : List Locator} {state : EditState}

/-- Fragments in front of all locators to come are copied. -/
theorem UndoAt.keep (h : UndoAt byteAt old ids undoMap timestamp remaining state)
    {passed rest : List Fragment} (hrest : state.oldFragments.rest = passed ++ rest)
    (hpassed : ∀ f ∈ passed, f.id ∉ remaining) :
    ∃ newRopes, state.newRopes.append (FragmentBuilder.text passed).visible
        (FragmentBuilder.text passed).deleted = some newRopes ∧
      UndoAt byteAt old ids undoMap timestamp remaining
        { state with
          newRopes
          oldFragments := { before := state.oldFragments.before ++ passed, rest }
          newFragments := state.newFragments ++ passed } := by
  have htexts := h.texts
  rw [hrest] at htexts
  obtain ⟨newRopes, happend, htexts'⟩ := htexts.keep
  have hids : ∀ f ∈ passed, f.id ∉ ids := fun f hf hmem =>
    hpassed f hf ((h.ahead f (by simp [hrest, hf])).mp hmem)
  refine ⟨newRopes, happend, ⟨?_, ?_, htexts', ?_, ?_⟩⟩
  · rw [← h.items]
    simp [ListCursor.items, hrest]
  · simp only [map_append, h.new]
    congr 1
    have hsame : ∀ f ∈ passed, f.undoneIn ids undoMap timestamp = f :=
      fun f hf => if_neg (hids f hf)
    rw [map_congr_left hsame, map_id']
  · exact fun f hf => h.ahead f (by simp [hrest, hf])
  · intro id hid
    obtain ⟨f, hf, rfl⟩ := h.exist id hid
    rw [hrest, mem_append] at hf
    exact ⟨f, hf.resolve_left fun hf => hpassed f hf hid, rfl⟩

/-- Seeking to a locator passes the fragments in front of it. -/
theorem slice_locator (cursor : ListCursor Fragment) (id : Locator) :
    cursor.slice locatorDimension Fragment.summary (stepsOverLocator id) =
      (takeBelow Fragment.id id cursor.rest,
        { before := cursor.before ++ takeBelow Fragment.id id cursor.rest
          rest := seekFrom Fragment.id id cursor.rest }) :=
  slice_eq_seekFrom locatorDimension Fragment.summary
    (fun _ f => passes_left_iff id f.id) cursor

section Ordered

variable (hordered : Ordered Fragment.id old) (hvalid : ∀ f ∈ old, f.Valid)
include hordered hvalid

/-- The fragment with the next locator is pushed with its new visibility. -/
theorem UndoAt.undo {item : Fragment} {rest : List Fragment}
    (h : UndoAt byteAt old ids undoMap timestamp (item.id :: remaining) state)
    (hsorted : (item.id :: remaining).Pairwise (· < ·))
    (hrest : state.oldFragments.rest = item :: rest) (editsPatch : Patch) :
    ∃ newRopes, state.newRopes.push item.len item.visible (item.isVisible undoMap) = some newRopes ∧
      UndoAt byteAt old ids undoMap timestamp remaining
        { state with
          editsPatch
          newRopes
          oldFragments := { before := state.oldFragments.before ++ [item], rest }
          newFragments := state.newFragments ++ [item.undone undoMap timestamp] } := by
  have hitem : item ∈ old := by
    rw [← h.items, ListCursor.items, hrest]
    simp
  have htail : ∀ f ∈ rest, item.id < f.id := by
    rw [← h.items, ListCursor.items, hrest] at hordered
    exact (pairwise_cons.mp (pairwise_append.mp hordered).2.1).1
  have htexts := h.texts
  rw [hrest] at htexts
  have hfront : (item.undone undoMap timestamp).FrontOf item :=
    ⟨rfl, rfl, (hvalid item hitem).len_pos, Nat.le_refl _⟩
  obtain ⟨newRopes, hpush, htexts'⟩ := htexts.push hfront
  have hcut : cutFront (item.undone undoMap timestamp).len (item :: rest) = rest := by
    simp [cutFront, Fragment.undone]
  rw [hcut] at htexts'
  refine ⟨newRopes, hpush, ⟨?_, ?_, htexts', ?_, ?_⟩⟩
  · rw [← h.items]
    simp [ListCursor.items, hrest]
  · have hmem : item.id ∈ ids := (h.ahead item (by simp [hrest])).mpr (by simp)
    simp only [map_append, map_cons, map_nil, h.new]
    rw [Fragment.undoneIn, if_pos hmem]
  · intro f hf
    rw [h.ahead f (by simp [hrest, hf]), mem_cons]
    exact or_iff_right fun heq => ne_of_gt (htail f hf) heq
  · intro id' hid'
    obtain ⟨f, hf, rfl⟩ := h.exist id' (mem_cons_of_mem _ hid')
    rw [hrest] at hf
    rcases mem_cons.mp hf with rfl | hf
    · exact absurd ((pairwise_cons.mp hsorted).1 f.id hid') (lt_irrefl _)
    · exact ⟨f, hf, rfl⟩

/-- One fragment of `apply_undo`. -/
theorem UndoAt.step {id : Locator}
    (h : UndoAt byteAt old ids undoMap timestamp (id :: remaining) state)
    (hsorted : (id :: remaining).Pairwise (· < ·)) :
    ∃ state', undoFragment undoMap timestamp state id = some state' ∧
      UndoAt byteAt old ids undoMap timestamp remaining state' := by
  have hrestOrdered : Ordered Fragment.id state.oldFragments.rest :=
    hordered.sublist (h.items ▸ sublist_append_right _ _)
  obtain ⟨f, hf, rfl⟩ := h.exist id (by simp)
  -- The first fragment that is not passed is the one with the locator.
  obtain ⟨passed, rest, hsplit, hpassed, -, htake, hseek⟩ := hrestOrdered.exists_seek hf
  obtain ⟨newRopes, happend, hkeep⟩ := h.keep hsplit fun g hg hmem => by
    have hlt := hpassed g hg
    rcases mem_cons.mp hmem with heq | hmem
    · exact ne_of_lt hlt heq
    · exact lt_asymm hlt ((pairwise_cons.mp hsorted).1 _ hmem)
  have hslice := slice_locator state.oldFragments f.id
  rw [htake, hseek] at hslice
  simp only [undoFragment, EditState.appendSlice, hslice, happend, some_do, pure, ListCursor.item,
    head?_cons]
  generalize (if (f.visible && !f.isVisible undoMap) = true then _ else _ : Patch) = editsPatch
  obtain ⟨newRopes', hpush, hundo⟩ := hkeep.undo hordered hvalid hsorted rfl editsPatch
  simp only at hpush
  simp only [EditState.pushFragment, hpush, some_do, pure]
  exact ⟨_, rfl, hundo⟩

/-- All fragments of `apply_undo`. -/
theorem UndoAt.fold (h : UndoAt byteAt old ids undoMap timestamp remaining state)
    (hsorted : remaining.Pairwise (· < ·)) :
    ∃ state', remaining.foldlM (undoFragment undoMap timestamp) state = some state' ∧
      UndoAt byteAt old ids undoMap timestamp [] state' := by
  induction remaining generalizing state with
  | nil => exact ⟨state, rfl, h⟩
  | cons id remaining ih =>
    obtain ⟨state₁, hstep, h₁⟩ := h.step hordered hvalid hsorted
    obtain ⟨state₂, hfold, h₂⟩ := ih h₁ (pairwise_cons.mp hsorted).2
    refine ⟨state₂, ?_, h₂⟩
    rw [foldlM_cons, hstep]
    exact hfold

end Ordered

/-- Whether an undo operation affects a fragment. -/
def Fragment.affectedBy (undo : UndoOperation) (f : Fragment) : Bool :=
  (undo.counts.map Prod.fst).any fun editId => decide (f.TouchedBy editId)

/-- A fragment after an undo operation. -/
def Fragment.applyUndo (undoMap : UndoMap) (undo : UndoOperation) (f : Fragment) : Fragment :=
  if f.affectedBy undo then f.undone undoMap undo.timestamp else f

section Fields

variable (undoMap) (undo : UndoOperation) (f : Fragment)

theorem Fragment.applyUndo_eq : f.applyUndo undoMap undo =
      { f with
        visible := (f.applyUndo undoMap undo).visible
        maxUndos := (f.applyUndo undoMap undo).maxUndos } := by
  unfold Fragment.applyUndo
  split <;> rfl

@[simp] theorem Fragment.applyUndo_id : (f.applyUndo undoMap undo).id = f.id := by
  rw [applyUndo_eq]

@[simp] theorem Fragment.applyUndo_timestamp :
    (f.applyUndo undoMap undo).timestamp = f.timestamp := by rw [applyUndo_eq]

@[simp] theorem Fragment.applyUndo_insertionOffset :
    (f.applyUndo undoMap undo).insertionOffset = f.insertionOffset := by rw [applyUndo_eq]

@[simp] theorem Fragment.applyUndo_len : (f.applyUndo undoMap undo).len = f.len := by
  rw [applyUndo_eq]

@[simp] theorem Fragment.applyUndo_deletions :
    (f.applyUndo undoMap undo).deletions = f.deletions := by rw [applyUndo_eq]

end Fields

variable {base : Lamport} {snapshot : BufferSnapshot} {undo : UndoOperation}

/-- `apply_undo` succeeds; it stores the counts and recomputes the visibility of exactly
the fragments that the edits it names have touched. -/
theorem applyUndo_spec (hindexed : snapshot.Indexed base) (htexts : snapshot.TextsValid byteAt)
    (hbase : base ∉ undo.counts.map Prod.fst) : ∃ visibleText deletedText patch,
      snapshot.applyUndo undo = some
        ({ snapshot with
            undoMap := snapshot.undoMap.insert undo
            fragments := snapshot.fragments.map
              (Fragment.applyUndo (snapshot.undoMap.insert undo) undo)
            visibleText
            deletedText }, patch) ∧
      visibleText = visibleBytes byteAt (atomsOf (snapshot.fragments.map
        (Fragment.applyUndo (snapshot.undoMap.insert undo) undo))) ∧
      deletedText = deletedBytes byteAt (atomsOf (snapshot.fragments.map
        (Fragment.applyUndo (snapshot.undoMap.insert undo) undo))) := by
  obtain ⟨hsorted, hmem⟩ := fragmentIdsForEdits_spec hindexed hbase
  have hidsEq : BufferSnapshot.fragmentIdsForEdits
      { snapshot with undoMap := snapshot.undoMap.insert undo } (undo.counts.map Prod.fst) =
      snapshot.fragmentIdsForEdits (undo.counts.map Prod.fst) := rfl
  generalize snapshot.fragmentIdsForEdits (undo.counts.map Prod.fst) = ids
    at hsorted hmem hidsEq
  have hinit : UndoAt byteAt snapshot.fragments ids (snapshot.undoMap.insert undo)
      undo.timestamp ids
      (EditState.new { snapshot with undoMap := snapshot.undoMap.insert undo }) := by
    refine ⟨rfl, rfl, ⟨rfl, rfl, htexts.visibleText, htexts.deletedText⟩, fun _ _ => Iff.rfl, ?_⟩
    intro id hid
    obtain ⟨f, hf, hfid, -⟩ := (hmem id).mp hid
    exact ⟨f, hf, hfid⟩
  obtain ⟨state, hfold, hstate⟩ := hinit.fold hindexed.ids hindexed.valid hsorted
  obtain ⟨newRopes, happend, hlast⟩ := hstate.keep (append_nil _).symm (by simp)
  have hnew : state.newFragments ++ state.oldFragments.rest =
      snapshot.fragments.map (Fragment.applyUndo (snapshot.undoMap.insert undo) undo) := by
    refine hlast.new.trans ?_
    change (state.oldFragments.before ++ state.oldFragments.rest).map _ = _
    have hitems : state.oldFragments.before ++ state.oldFragments.rest = snapshot.fragments :=
      hstate.items
    rw [hitems]
    refine map_congr_left fun f hf => ?_
    have haffected : f.affectedBy undo = true ↔ f.id ∈ ids := by
      rw [hmem, Fragment.affectedBy, any_eq_true]
      simp only [decide_eq_true_iff]
      constructor
      · exact fun h => ⟨f, hf, rfl, h⟩
      · rintro ⟨g, hg, hid, htouched⟩
        rwa [← Ordered.eq_of_key hindexed.ids hg hf hid]
    unfold Fragment.undoneIn Fragment.applyUndo
    by_cases hid : f.id ∈ ids
    · rw [if_pos hid, if_pos (haffected.mpr hid)]
    · rw [if_neg hid, if_neg fun h => hid (haffected.mp h)]
  have htexts' := hlast.texts
  simp only [hnew] at htexts'
  refine ⟨newRopes.finish.1, newRopes.finish.2, state.editsPatch, ?_, ?_, ?_⟩
  · simp only [BufferSnapshot.applyUndo, hidsEq, hfold, EditState.appendSuffix,
      ListCursor.suffix, happend, hnew, some_do, pure]
  · rw [RopeBuilder.finish, htexts'.newVisible, htexts'.oldVisible]
    simp
  · rw [RopeBuilder.finish, htexts'.newDeleted, htexts'.oldDeleted]
    simp

/-- An edit inserted the byte, or deleted it. -/
def Atom.TouchedBy (self : Atom) (editId : Lamport) : Prop :=
  self.timestamp = editId ∨ editId ∈ self.deletions

instance (a : Atom) (editId : Lamport) : Decidable (a.TouchedBy editId) :=
  inferInstanceAs (Decidable (_ ∨ _))

/-- Whether an undo operation affects a byte. -/
def Atom.affectedBy (undo : UndoOperation) (a : Atom) : Bool :=
  (undo.counts.map Prod.fst).any fun editId => decide (a.TouchedBy editId)

/-- A byte after an undo operation. -/
def Atom.applyUndo (undoMap : UndoMap) (undo : UndoOperation) (a : Atom) : Atom :=
  if a.affectedBy undo then
    { a with visible := a.isVisible undoMap, maxUndos := a.maxUndos.observe undo.timestamp }
  else
    a

section Undo

variable (undoMap : UndoMap) (undo : UndoOperation)

theorem Fragment.atoms_applyUndo (f : Fragment) :
    (f.applyUndo undoMap undo).atoms = f.atoms.map (Atom.applyUndo undoMap undo) := by
  rw [Fragment.atoms, Fragment.atoms, map_map, Fragment.applyUndo_len]
  refine map_congr_left fun i _ => ?_
  unfold Fragment.applyUndo
  have haffected : (f.atomAt i).affectedBy undo = f.affectedBy undo := rfl
  rw [Function.comp_apply, Atom.applyUndo, haffected]
  split <;> rfl

theorem atomsOf_map_applyUndo (fs : List Fragment) :
    atomsOf (fs.map (Fragment.applyUndo undoMap undo)) =
      (atomsOf fs).map (Atom.applyUndo undoMap undo) := by
  induction fs with
  | nil => rfl
  | cons f fs ih =>
    rw [map_cons, atomsOf_cons, atomsOf_cons, map_append, ih, Fragment.atoms_applyUndo]

/-- A byte keeps its identity and its deletions. -/
theorem Atom.applyUndo_eq (a : Atom) : a.applyUndo undoMap undo =
      { a with
        visible := (a.applyUndo undoMap undo).visible
        maxUndos := (a.applyUndo undoMap undo).maxUndos } := by
  unfold Atom.applyUndo
  split <;> rfl

@[simp] theorem Atom.applyUndo_id (a : Atom) : (a.applyUndo undoMap undo).id = a.id := by
  rw [applyUndo_eq]
  rfl

@[simp] theorem Atom.applyUndo_deletions (a : Atom) :
    (a.applyUndo undoMap undo).deletions = a.deletions := by rw [applyUndo_eq]

end Undo

theorem Atom.applyUndo_touchedBy {undoMap : UndoMap} {undo : UndoOperation} {a : Atom}
    {editId : Lamport} : (a.applyUndo undoMap undo).TouchedBy editId ↔ a.TouchedBy editId := by
  rw [applyUndo_eq]
  rfl

variable (undo) in
theorem atomsOf_map_applyUndo_ids (undoMap : UndoMap) (fs : List Fragment) :
    (atomsOf (fs.map (Fragment.applyUndo undoMap undo))).map Atom.id =
      (atomsOf fs).map Atom.id := by
  rw [atomsOf_map_applyUndo, map_map]
  exact map_congr_left fun a _ => Atom.applyUndo_id undoMap undo a

variable (undo) in
/-- An undo keeps the indices in order. -/
theorem BufferSnapshot.Indexed.applyUndo (h : snapshot.Indexed base) (undoMap : UndoMap)
    (visibleText deletedText : Rope) : BufferSnapshot.Indexed base
      { snapshot with
        undoMap
        fragments := snapshot.fragments.map (Fragment.applyUndo undoMap undo)
        visibleText
        deletedText } where
  valid := by
    intro g hg
    obtain ⟨f, hf, rfl⟩ := mem_map.mp hg
    obtain ⟨hlen, hstop, hmin, hmax, hends⟩ := h.valid f hf
    exact ⟨by simpa using hlen, by simpa using hstop, by simpa using hmin, by simpa using hmax,
      by simpa using hends⟩
  ids := by
    refine pairwise_map.mpr (h.ids.imp fun {f g} hlt => ?_)
    simpa using hlt
  distinct := by
    rw [DistinctBytes, atomsOf_map_applyUndo_ids]
    exact h.distinct
  insertions_ordered := h.insertions_ordered
  mem_insertions := by
    intro entry
    rw [h.mem_insertions]
    simp [InsertionFragment.new]
  slices_ordered := h.slices_ordered
  slice_known := by
    intro s hs
    obtain ⟨f, hf, htimestamp⟩ := h.slice_known s hs
    exact ⟨_, mem_map_of_mem hf, by simpa using htimestamp⟩
  slice_sound := by
    intro s hs g hg hoverlaps
    obtain ⟨f, hf, rfl⟩ := mem_map.mp hg
    simp only [InsertionSlice.Overlaps, InsertionSlice.Covers, Fragment.TouchedBy,
      Fragment.applyUndo_timestamp, Fragment.applyUndo_insertionOffset, Fragment.applyUndo_len,
      Fragment.applyUndo_deletions] at hoverlaps ⊢
    exact h.slice_sound s hs f hf hoverlaps
  slice_complete := by
    intro g hg editId htouched hne
    obtain ⟨f, hf, rfl⟩ := mem_map.mp hg
    simp only [InsertionSlice.Covers, Fragment.TouchedBy, Fragment.applyUndo_timestamp,
      Fragment.applyUndo_insertionOffset, Fragment.applyUndo_len,
      Fragment.applyUndo_deletions] at htouched ⊢
    exact h.slice_complete f hf editId htouched hne

end Apply

end XorEditor.Text
