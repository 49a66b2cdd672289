import XorEditor.Text.Atom

/-!
# Rewriting the fragments of a snapshot

Both edit functions rebuild the fragment list from left to right.  At any moment there are
the new fragments, pushed so far, and the pending ones: the old fragments not yet
consumed, the first of which may have lost its front.  Every push either takes a piece
off the front of the pending fragments, or inserts a new fragment.

* `Walk` is the invariant of that process: locators increase, every new fragment is a
  piece of an old one or belongs to the edit, and the entries for the insertions tree and
  the slices of the edit record what was pushed.
* `TextsMatch` relates the rope builder to the new and the pending fragments.

The lemmas `Walk.push`, `Walk.keep` and `Walk.insert` say what each kind of push does;
everything about the two edit functions is derived from them.
-/

namespace XorEditor.Text

open Clock Lib List

variable {f : Fragment} {n : Nat} {whole piece : Fragment}
/-- What every fragment satisfies on its own. -/
structure Fragment.Valid (f : Fragment) : Prop where
  len_pos : 0 < f.len
  stop_lt : f.insertionOffset + f.len < 2 ^ 32
  min_lt : Locator.min < f.id
  lt_max : f.id < Locator.max
  endsNonzero : Locator.EndsNonzero f.id

theorem Fragment.Valid.dropFront (h : f.Valid) (hn : n < f.len) : (f.dropFront n).Valid where
  len_pos := Nat.sub_pos_of_lt hn
  stop_lt := by
    have := h.stop_lt
    simp only [Fragment.dropFront]
    omega
  min_lt := h.min_lt
  lt_max := h.lt_max
  endsNonzero := h.endsNonzero

/-- A fragment lies within another fragment of the same insertion. -/
structure Fragment.PieceOf (f whole : Fragment) : Prop where
  timestamp : f.timestamp = whole.timestamp
  start : whole.insertionOffset ≤ f.insertionOffset
  stop : f.insertionOffset + f.len ≤ whole.insertionOffset + whole.len

/-- The slice of a fragment that an edit inserted or deleted. -/
def sliceOf (editId : Lamport) (fragment : Fragment) : InsertionSlice where
  editId
  insertionId := fragment.timestamp
  rangeStart := fragment.insertionOffset
  rangeEnd := fragment.insertionOffset + fragment.len

theorem fromFragment_eq {editId : Lamport} (fragment : Fragment)
    (h : fragment.insertionOffset + fragment.len < 2 ^ 32) :
    InsertionSlice.fromFragment editId fragment = some (sliceOf editId fragment) := by
  rw [InsertionSlice.fromFragment, if_pos h]
  rfl

/-- An edit inserted the fragment, or deleted it. -/
def Fragment.TouchedBy (self : Fragment) (editId : Lamport) : Prop :=
  self.timestamp = editId ∨ editId ∈ self.deletions

instance (f : Fragment) (editId : Lamport) : Decidable (f.TouchedBy editId) :=
  inferInstanceAs (Decidable (_ ∨ _))

section Walk

/-- Where a new fragment comes from: it was inserted by the edit, or it is a piece of an
old fragment that the edit may have deleted. -/
inductive Origin (old : List Fragment) (timestamp : Lamport) (slices : List InsertionSlice)
    (f : Fragment) : Prop
  | inserted (htimestamp : f.timestamp = timestamp) (hdeletions : f.deletions = [])
      (hslice : sliceOf timestamp f ∈ slices)
  | kept (whole : Fragment) (hwhole : whole ∈ old) (hpiece : f.PieceOf whole)
      (hdeletions : f.deletions = whole.deletions)
  | deleted (whole : Fragment) (hwhole : whole ∈ old) (hpiece : f.PieceOf whole)
      (hdeletions : f.deletions = whole.deletions ++ [timestamp])
      (hslice : sliceOf timestamp f ∈ slices)

theorem Origin.mono {old : List Fragment} {timestamp : Lamport}
    {slices slices' : List InsertionSlice} (h : Origin old timestamp slices f)
    (hsub : ∀ s ∈ slices, s ∈ slices') : Origin old timestamp slices' f := by
  cases h with
  | inserted htimestamp hdeletions hslice =>
    exact Origin.inserted htimestamp hdeletions (hsub _ hslice)
  | kept whole hwhole hpiece hdeletions => exact Origin.kept whole hwhole hpiece hdeletions
  | deleted whole hwhole hpiece hdeletions hslice =>
    exact Origin.deleted whole hwhole hpiece hdeletions (hsub _ hslice)

/-- The invariant of a rewrite by the edit `timestamp` of the fragments `old`: the new
and the pending fragments, the entries and the slices recorded so far. -/
structure Walk (old : List Fragment) (timestamp : Lamport) (new pending : List Fragment)
    (entries : List InsertionFragment) (slices : List InsertionSlice) : Prop where
  valid : ∀ f ∈ new ++ pending, f.Valid
  ids : (new ++ pending).Pairwise fun f g => f.id < g.id
  pendingOrigin : ∀ g ∈ pending, ∃ whole ∈ old, ∃ n < whole.len, g = whole.dropFront n
  origin : ∀ f ∈ new, Origin old timestamp slices f
  recorded : ∀ f ∈ new, f ∈ old ∨ InsertionFragment.new f ∈ entries
  entries_sublist : entries.Sublist (new.map InsertionFragment.new)
  slices_sublist :
    slices.Sublist ((new.filter fun f => f.TouchedBy timestamp).map (sliceOf timestamp))

variable {old : List Fragment} {timestamp : Lamport} {new pending : List Fragment}
  {entries : List InsertionFragment} {slices : List InsertionSlice}
  {newEntries : List InsertionFragment} {newSlices : List InsertionSlice}

variable (timestamp) in
theorem Walk.init (hvalid : ∀ f ∈ old, f.Valid)
    (hids : old.Pairwise fun f g => f.id < g.id) : Walk old timestamp [] old [] [] where
  valid := by simpa using hvalid
  ids := by simpa using hids
  pendingOrigin := by
    intro g hg
    exact ⟨g, hg, 0, (hvalid g hg).len_pos, rfl⟩
  origin := by simp
  recorded := by simp
  entries_sublist := by simp
  slices_sublist := by simp

/-- The entries of a pushed piece: it is recorded, or it is an old fragment. -/
inductive PushEntries (old : List Fragment) (piece : Fragment) : List InsertionFragment → Prop
  | recorded : PushEntries old piece [InsertionFragment.new piece]
  | unchanged (h : piece ∈ old) : PushEntries old piece []

/-- The slices of a pushed piece of `whole`: none if its deletions are unchanged. -/
inductive PushSlices (timestamp : Lamport) (whole piece : Fragment) :
    List InsertionSlice → Prop
  | kept (h : piece.deletions = whole.deletions) : PushSlices timestamp whole piece []
  | deleted (h : piece.deletions = whole.deletions ++ [timestamp]) :
      PushSlices timestamp whole piece [sliceOf timestamp piece]

/-- What is left of the pending fragments when `n` bytes of the first one are taken. -/
def cutFront (n : Nat) : List Fragment → List Fragment
  | [] => []
  | f :: rest => if n < f.len then f.dropFront n :: rest else rest

/-- The piece is taken from the front of a fragment: it has the same bytes. -/
structure Fragment.FrontOf (f whole : Fragment) : Prop where
  timestamp : f.timestamp = whole.timestamp
  insertionOffset : f.insertionOffset = whole.insertionOffset
  len_pos : 0 < f.len
  len_le : f.len ≤ whole.len

/-- The locator of a pushed piece lies behind the new fragments and in front of what is
left of the pending ones. -/
structure PushId (new : List Fragment) (whole piece : Fragment) : Prop where
  above : ∀ f ∈ new, f.id < piece.id
  below : piece.id < whole.id ∨ (piece.id = whole.id ∧ piece.len = whole.len)
  min_lt : Locator.min < piece.id
  endsNonzero : Locator.EndsNonzero piece.id

theorem mem_cutFront {rest : List Fragment} {g : Fragment} (h : g ∈ cutFront n (f :: rest)) :
    (n < f.len ∧ g = f.dropFront n) ∨ g ∈ rest := by
  simp only [cutFront] at h
  split at h
  · rename_i hn
    rcases mem_cons.mp h with rfl | h
    · exact Or.inl ⟨hn, rfl⟩
    · exact Or.inr h
  · exact Or.inr h

/-- Pushing fragments, which are recorded, and dropping what they came from. -/
theorem Walk.append {pushed pending' : List Fragment}
    (h : Walk old timestamp new pending entries slices) (hvalid : ∀ f ∈ pushed ++ pending', f.Valid)
    (hids : (pushed ++ pending').Pairwise fun f g => f.id < g.id)
    (habove : ∀ f ∈ new, ∀ g ∈ pushed ++ pending', f.id < g.id)
    (hpending : ∀ g ∈ pending', ∃ whole ∈ old, ∃ n < whole.len, g = whole.dropFront n)
    (horigin : ∀ f ∈ pushed, Origin old timestamp (slices ++ newSlices) f)
    (hrecorded : ∀ f ∈ pushed, f ∈ old ∨ InsertionFragment.new f ∈ newEntries)
    (hentries : newEntries.Sublist (pushed.map InsertionFragment.new))
    (hslices : newSlices.Sublist ((pushed.filter fun f => f.TouchedBy timestamp).map
      (sliceOf timestamp))) :
    Walk old timestamp (new ++ pushed) pending' (entries ++ newEntries) (slices ++ newSlices) := by
  refine ⟨?_, ?_, hpending, ?_, ?_, ?_, ?_⟩
  · rw [append_assoc, forall_mem_append]
    exact ⟨fun f hf => h.valid f (mem_append_left _ hf), hvalid⟩
  · rw [append_assoc, pairwise_append]
    exact ⟨(pairwise_append.mp h.ids).1, hids, habove⟩
  · rw [forall_mem_append]
    exact ⟨fun f hf => (h.origin f hf).mono fun s hs => mem_append_left _ hs, horigin⟩
  · rw [forall_mem_append]
    exact ⟨fun f hf => (h.recorded f hf).imp_right (mem_append_left _),
      fun f hf => (hrecorded f hf).imp_right (mem_append_right _)⟩
  · rw [map_append]
    exact h.entries_sublist.append hentries
  · rw [filter_append, map_append]
    exact h.slices_sublist.append hslices

/-- Taking a piece off the front of the pending fragments. -/
theorem Walk.push (h : Walk old timestamp new (whole :: pending) entries slices)
    (hpiece : piece.FrontOf whole) (hid : PushId new whole piece)
    (hentries : PushEntries old piece newEntries)
    (hslices : PushSlices timestamp whole piece newSlices) :
    Walk old timestamp (new ++ [piece]) (cutFront piece.len (whole :: pending))
      (entries ++ newEntries) (slices ++ newSlices) := by
  have hwhole := h.valid whole (by simp)
  have hids := pairwise_append.mp h.ids
  have hpendingIds := pairwise_cons.mp hids.2.1
  obtain ⟨origin, horigin, n, hn, hwholeEq⟩ := h.pendingOrigin whole (by simp)
  have hpieceOf : piece.PieceOf origin := by
    refine ⟨by simp [hpiece.timestamp, hwholeEq], ?_, ?_⟩
    · rw [hpiece.insertionOffset, hwholeEq]
      exact Nat.le_add_right _ _
    · have hlen := hpiece.len_le
      rw [hpiece.insertionOffset, hwholeEq]
      rw [hwholeEq] at hlen
      simp only [Fragment.dropFront] at hlen ⊢
      omega
  have horiginDeletions : whole.deletions = origin.deletions := by rw [hwholeEq]; rfl
  refine h.append ?_ ?_ ?_ ?_ (forall_mem_singleton.mpr ?_) (forall_mem_singleton.mpr ?_) ?_ ?_
  · refine forall_mem_cons.mpr ⟨⟨hpiece.len_pos, ?_, hid.min_lt, ?_, hid.endsNonzero⟩, ?_⟩
    · have := hwhole.stop_lt
      have := hpiece.len_le
      rw [hpiece.insertionOffset]
      omega
    · rcases hid.below with hlt | ⟨heq, -⟩
      · exact lt_trans hlt hwhole.lt_max
      · rw [heq]
        exact hwhole.lt_max
    · intro f hf
      rcases mem_cutFront hf with ⟨hlt, rfl⟩ | hf
      · exact hwhole.dropFront hlt
      · exact h.valid f (by simp [hf])
  · rw [singleton_append, pairwise_cons]
    constructor
    · intro g hg
      rcases mem_cutFront hg with ⟨hlt, rfl⟩ | hg
      · rcases hid.below with hbelow | ⟨-, hlen⟩
        · exact hbelow
        · omega
      · have hlt := hpendingIds.1 g hg
        rcases hid.below with hbelow | ⟨heq, -⟩
        · exact lt_trans hbelow hlt
        · rw [heq]
          exact hlt
    · simp only [cutFront]
      split
      · exact pairwise_cons.mpr ⟨hpendingIds.1, hpendingIds.2⟩
      · exact hpendingIds.2
  · refine fun f hf => forall_mem_cons.mpr ⟨hid.above f hf, fun g hg => ?_⟩
    rcases mem_cutFront hg with ⟨-, rfl⟩ | hg
    · exact hids.2.2 f hf whole (by simp)
    · exact hids.2.2 f hf g (by simp [hg])
  · intro g hg
    rcases mem_cutFront hg with ⟨hlt, rfl⟩ | hg
    · refine ⟨origin, horigin, n + piece.len, ?_, ?_⟩
      · rw [hwholeEq] at hlt
        simp only [Fragment.dropFront] at hlt
        omega
      · rw [hwholeEq, Fragment.dropFront_dropFront]
    · exact h.pendingOrigin g (by simp [hg])
  · cases hslices with
    | kept hdel => exact Origin.kept origin horigin hpieceOf (hdel.trans horiginDeletions)
    | deleted hdel =>
      exact Origin.deleted origin horigin hpieceOf (by rw [hdel, horiginDeletions]) (by simp)
  · cases hentries with
    | recorded => exact Or.inr (by simp)
    | unchanged hold => exact Or.inl hold
  · cases hentries with
    | recorded => exact List.Sublist.refl _
    | unchanged _ => exact nil_sublist _
  · cases hslices with
    | kept _ => exact nil_sublist _
    | deleted hdel =>
      have htouched : piece.TouchedBy timestamp := Or.inr (by simp [hdel])
      simp [htouched]

/-- Copying old fragments. -/
theorem Walk.keep (kept : List Fragment)
    (h : Walk old timestamp new (kept ++ pending) entries slices) (hold : ∀ f ∈ kept, f ∈ old) :
    Walk old timestamp (new ++ kept) pending entries slices := by
  have hids := pairwise_append.mp h.ids
  simpa using h.append
    (fun f hf => h.valid f (mem_append_right _ hf)) hids.2.1 hids.2.2
    (fun g hg => h.pendingOrigin g (mem_append_right _ hg))
    (fun f hf => .kept f (hold f hf) ⟨rfl, Nat.le_refl _, Nat.le_refl _⟩ rfl)
    (fun f hf => Or.inl (hold f hf)) (nil_sublist _) (nil_sublist _)

/-- Inserting a fragment of the edit. -/
theorem Walk.insert (h : Walk old timestamp new pending entries slices) (hvalid : f.Valid)
    (htimestamp : f.timestamp = timestamp) (hdeletions : f.deletions = [])
    (habove : ∀ g ∈ new, g.id < f.id) (hbelow : ∀ g ∈ pending, f.id < g.id) :
    Walk old timestamp (new ++ [f]) pending (entries ++ [InsertionFragment.new f])
      (slices ++ [sliceOf timestamp f]) := by
  have hids := pairwise_append.mp h.ids
  have htouched : f.TouchedBy timestamp := Or.inl htimestamp
  refine h.append ?_ ?_ ?_ h.pendingOrigin (forall_mem_singleton.mpr ?_)
    (forall_mem_singleton.mpr ?_) (List.Sublist.refl _) (by simp [htouched])
  · exact forall_mem_cons.mpr ⟨hvalid, fun g hg => h.valid g (mem_append_right _ hg)⟩
  · exact pairwise_cons.mpr ⟨hbelow, hids.2.1⟩
  · exact fun g hg => forall_mem_cons.mpr ⟨habove g hg, hids.2.2 g hg⟩
  · exact Origin.inserted htimestamp hdeletions (by simp)
  · exact Or.inr (by simp)

end Walk

section Texts

variable {byteAt : ByteId → UInt8} {new pending : List Fragment} {ropes : RopeBuilder}

/-- The rope builder has emitted the texts of the new fragments, and has yet to read the
texts of the pending ones. -/
structure TextsMatch (byteAt : ByteId → UInt8) (ropes : RopeBuilder)
    (new pending : List Fragment) : Prop where
  newVisible : ropes.newVisible = visibleBytes byteAt (atomsOf new)
  newDeleted : ropes.newDeleted = deletedBytes byteAt (atomsOf new)
  oldVisible : ropes.oldVisibleCursor = visibleBytes byteAt (atomsOf pending)
  oldDeleted : ropes.oldDeletedCursor = deletedBytes byteAt (atomsOf pending)

/-- The atoms of what is left when a piece is taken off the front. -/
theorem atomsOf_cutFront (hn : n ≤ f.len) (rest : List Fragment) :
    atomsOf (cutFront n (f :: rest)) = (f.dropFront n).atoms ++ atomsOf rest := by
  simp only [cutFront]
  split
  · rfl
  · have : f.len - n = 0 := by omega
    simp [Fragment.atoms, Fragment.dropFront, this]

/-- Bytes at the front of one of the old texts are moved behind one of the new texts. -/
theorem push_ropes {bytes visible deleted : Rope} (wasVisible isVisible : Bool)
    (hvisible : ropes.oldVisibleCursor = (if wasVisible then bytes else []) ++ visible)
    (hdeleted : ropes.oldDeletedCursor = (if wasVisible then [] else bytes) ++ deleted) :
    ropes.push bytes.length wasVisible isVisible = some
      { oldVisibleCursor := visible
        oldDeletedCursor := deleted
        newVisible := ropes.newVisible ++ if isVisible then bytes else []
        newDeleted := ropes.newDeleted ++ if isVisible then [] else bytes } := by
  cases wasVisible <;> cases isVisible <;> simp_all [RopeBuilder.push, RopeBuilder.emit]

theorem TextsMatch.push (h : TextsMatch byteAt ropes new (whole :: pending))
    (hpiece : piece.FrontOf whole) :
    ∃ ropes', ropes.push piece.len whole.visible piece.visible = some ropes' ∧
      TextsMatch byteAt ropes' (new ++ [piece]) (cutFront piece.len (whole :: pending)) := by
  have hsplit := whole.atoms_split hpiece.len_le
  set front : Fragment := { whole with len := piece.len } with hfront
  have hbytes : front.bytes byteAt = piece.bytes byteAt := by
    simp only [Fragment.bytes, Fragment.atoms, map_map]
    apply map_congr_left
    intro i _
    simp [Atom.id, Fragment.atomAt, hpiece.timestamp, hpiece.insertionOffset, hfront]
  have hvisible := h.oldVisible
  have hdeleted := h.oldDeleted
  rw [atomsOf_cons, hsplit, append_assoc, visibleBytes_append, visibleBytes_atoms,
    hbytes] at hvisible
  rw [atomsOf_cons, hsplit, append_assoc, deletedBytes_append, deletedBytes_atoms,
    hbytes] at hdeleted
  refine ⟨_, piece.length_bytes byteAt ▸ push_ropes whole.visible piece.visible hvisible hdeleted,
    ?_⟩
  constructor <;> simp [h.newVisible, h.newDeleted, visibleBytes_atoms, deletedBytes_atoms,
    atomsOf_cutFront hpiece.len_le]

theorem TextsMatch.keep {kept : List Fragment} (h : TextsMatch byteAt ropes new (kept ++ pending)) :
    ∃ ropes', ropes.append (FragmentBuilder.text kept).visible
        (FragmentBuilder.text kept).deleted = some ropes' ∧
      TextsMatch byteAt ropes' (new ++ kept) pending := by
  have hvisible := h.oldVisible
  have hdeleted := h.oldDeleted
  rw [atomsOf_append, visibleBytes_append] at hvisible
  rw [atomsOf_append, deletedBytes_append] at hdeleted
  rw [text_eq byteAt kept]
  refine ⟨_, do_eq_some.mpr ⟨_, push_ropes true true hvisible rfl,
    push_ropes false false rfl hdeleted⟩, ?_, ?_, rfl, rfl⟩
  · simp [h.newVisible]
  · simp [h.newDeleted]

end Texts

end XorEditor.Text
