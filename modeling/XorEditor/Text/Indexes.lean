import XorEditor.Text.EditSteps

/-!
# The two indices of a snapshot

The insertions tree has exactly one entry for every fragment.  The insertion slices say
which parts of which insertions an edit inserted or deleted: a slice never ends inside a
fragment, every fragment inside a slice was touched by the edit of the slice, and every
fragment that an edit touched lies inside one of its slices.  Only the base text, which no
operation inserted, has no slices.

Both facts survive every edit, since an edit only splits fragments, marks pieces of them
and inserts new ones, and records all of that on the way.

* `BufferSnapshot.Indexed`: both facts
* `BufferSnapshot.Indexed.rewritten`: an edit keeps them
-/

namespace XorEditor.Text

open Clock Lib List

variable {f : Fragment} {offset : Nat} {timestamp : Lamport}
section Disjoint

variable {fs : List Fragment}

/-- No byte belongs to two fragments. -/
def DistinctBytes (fs : List Fragment) : Prop := ((atomsOf fs).map Atom.id).Nodup

/-- The fragment contains the byte at an offset of its insertion. -/
def Fragment.Contains (f : Fragment) (timestamp : Lamport) (offset : Nat) : Prop :=
  f.timestamp = timestamp ∧ f.insertionOffset ≤ offset ∧ offset < f.insertionOffset + f.len

theorem mem_ids_atoms : (timestamp, offset)
    ∈ f.atoms.map Atom.id ↔ f.Contains timestamp offset := by
  constructor
  · intro h
    obtain ⟨a, ha, hid⟩ := mem_map.mp h
    obtain ⟨i, hi, rfl⟩ := Fragment.mem_atoms.mp ha
    obtain ⟨rfl, rfl⟩ := Prod.mk.inj hid
    exact ⟨rfl, Nat.le_add_right _ _, Nat.add_lt_add_left hi _⟩
  · rintro ⟨rfl, hle, hlt⟩
    refine mem_map.mpr ⟨f.atomAt (offset - f.insertionOffset),
      Fragment.mem_atoms.mpr ⟨_, by omega, rfl⟩, ?_⟩
    refine Prod.ext rfl ?_
    change f.insertionOffset + (offset - f.insertionOffset) = offset
    omega

theorem mem_ids_atomsOf : (timestamp, offset) ∈ (atomsOf fs).map Atom.id ↔
      ∃ f ∈ fs, f.Contains timestamp offset := by
  simp only [atomsOf, map_flatMap, mem_flatMap, mem_ids_atoms]

/-- Fragments that share a byte are the same. -/
theorem DistinctBytes.eq_of_contains (h : DistinctBytes fs) {g : Fragment} (hf : f ∈ fs)
    (hg : g ∈ fs) (hcf : f.Contains timestamp offset) (hcg : g.Contains timestamp offset) :
    f = g := by
  by_contra hne
  rw [DistinctBytes, atomsOf, map_flatMap, nodup_flatMap] at h
  have hsymm : Std.Symm (Function.onFun List.Disjoint fun f : Fragment => f.atoms.map Atom.id) :=
    ⟨fun _ _ hdisjoint _ hx hy => hdisjoint hy hx⟩
  exact h.2.forall hf hg hne (mem_ids_atoms.mpr hcf) (mem_ids_atoms.mpr hcg)

theorem Fragment.contains_start (h : f.Valid) : f.Contains f.timestamp f.insertionOffset :=
  ⟨rfl, Nat.le_refl _, Nat.lt_add_of_pos_right h.len_pos⟩

theorem DistinctBytes.eq_of_start (h : DistinctBytes fs) (hvalid : ∀ f ∈ fs, f.Valid) {g : Fragment}
    (hf : f ∈ fs) (hg : g ∈ fs) (htimestamp : f.timestamp = g.timestamp)
    (hoffset : f.insertionOffset = g.insertionOffset) : f = g :=
  h.eq_of_contains hf hg (Fragment.contains_start (hvalid f hf))
    (htimestamp ▸ hoffset ▸ Fragment.contains_start (hvalid g hg))

end Disjoint

/-- A fragment and a slice of the same insertion have a byte in common. -/
def InsertionSlice.Overlaps (s : InsertionSlice) (f : Fragment) : Prop :=
  f.timestamp = s.insertionId ∧ f.insertionOffset < s.rangeEnd ∧
    s.rangeStart < f.insertionOffset + f.len

/-- A fragment lies inside a slice. -/
def InsertionSlice.Covers (s : InsertionSlice) (f : Fragment) : Prop :=
  f.timestamp = s.insertionId ∧ s.rangeStart ≤ f.insertionOffset ∧
    f.insertionOffset + f.len ≤ s.rangeEnd

/-- The indices describe the fragments. -/
structure BufferSnapshot.Indexed (base : Lamport) (snapshot : BufferSnapshot) : Prop where
  valid : ∀ f ∈ snapshot.fragments, f.Valid
  ids : snapshot.fragments.Pairwise fun f g => f.id < g.id
  distinct : DistinctBytes snapshot.fragments
  insertions_ordered : KeyedList.Ordered InsertionFragment.key snapshot.insertions
  mem_insertions : ∀ entry, entry ∈ snapshot.insertions ↔
    ∃ f ∈ snapshot.fragments, InsertionFragment.new f = entry
  slices_ordered : KeyedList.Ordered InsertionSlice.key snapshot.insertionSlices
  slice_known : ∀ s ∈ snapshot.insertionSlices, ∃ f ∈ snapshot.fragments,
    f.timestamp = s.insertionId
  slice_sound : ∀ s ∈ snapshot.insertionSlices, ∀ f ∈ snapshot.fragments, s.Overlaps f →
    s.Covers f ∧ f.TouchedBy s.editId
  slice_complete : ∀ f ∈ snapshot.fragments, ∀ editId, f.TouchedBy editId → editId ≠ base →
    ∃ s ∈ snapshot.insertionSlices, s.editId = editId ∧ s.Covers f

theorem BufferSnapshot.Indexed.withVersion {base : Lamport} {snapshot : BufferSnapshot}
    (h : snapshot.Indexed base) (version : Global) :
    BufferSnapshot.Indexed base { snapshot with version } :=
  { h with }

theorem InsertionSlice.key_injective : Function.Injective InsertionSlice.key := by
  intro x y h
  cases x
  cases y
  simpa [InsertionSlice.key] using h

section Preservation

variable {base : Lamport} {old new : List Fragment} {entries : List InsertionFragment}
  {slices : List InsertionSlice}

section Complete

variable (h : Walk old timestamp new [] entries slices)
include h

/-- A new fragment that was not inserted lies in an old one, which may have lost a
deletion mark. -/
theorem Walk.exists_whole (hf : f ∈ new) (hne : f.timestamp ≠ timestamp) :
    ∃ whole ∈ old, f.PieceOf whole ∧ ∀ d ∈ whole.deletions, d ∈ f.deletions := by
  cases h.origin f hf with
  | inserted htimestamp _ _ => exact absurd htimestamp hne
  | kept whole hwhole hpiece hdeletions =>
    exact ⟨whole, hwhole, hpiece, by simp [hdeletions]⟩
  | deleted whole hwhole hpiece hdeletions _ =>
    exact ⟨whole, hwhole, hpiece, fun d hd => by simp [hdeletions, hd]⟩

theorem Walk.new_valid : ∀ f ∈ new, f.Valid := by
  simpa using h.valid

/-- Two new fragments do not start with the same byte. -/
theorem Walk.starts_distinct (hdistinct : DistinctBytes new) : new.Pairwise fun f g =>
      f.timestamp = g.timestamp → f.insertionOffset ≠ g.insertionOffset := by
  have hids := h.ids
  rw [append_nil] at hids
  refine hids.imp_of_mem fun hf hg hlt htimestamp hoffset => hlt.ne ?_
  rw [hdistinct.eq_of_start h.new_valid hf hg htimestamp hoffset]

/-- The entries that an edit records have distinct keys. -/
theorem Walk.entries_distinct (hdistinct : DistinctBytes new) :
    entries.Pairwise fun x y => x.key ≠ y.key := by
  refine List.Pairwise.sublist h.entries_sublist (pairwise_map.mpr ?_)
  refine (h.starts_distinct hdistinct).imp fun hne hkey => ?_
  simp only [InsertionFragment.key, InsertionFragment.new, toLex_inj, Prod.mk.injEq] at hkey
  exact hne hkey.1 hkey.2

/-- The slices that an edit records have distinct keys. -/
theorem Walk.slices_distinct (hdistinct : DistinctBytes new) :
    slices.Pairwise fun x y => x.key ≠ y.key := by
  refine List.Pairwise.sublist h.slices_sublist (pairwise_map.mpr ?_)
  refine ((h.starts_distinct hdistinct).sublist filter_sublist).imp fun hne hkey => ?_
  have hslice := InsertionSlice.key_injective hkey
  simp only [sliceOf, InsertionSlice.mk.injEq, true_and] at hslice
  exact hne hslice.1 hslice.2.1

variable (hfresh : ∀ f ∈ old, f.timestamp ≠ timestamp) (holdDistinct : DistinctBytes old)
  (hkept : ∀ id ∈ (atomsOf old).map Atom.id, id ∈ (atomsOf new).map Atom.id)
include hfresh holdDistinct hkept

/-- An old byte is still in a piece of its old fragment. -/
theorem Walk.exists_piece (hf : f ∈ old) (hcontains : f.Contains f.timestamp offset) :
    ∃ g ∈ new, g.Contains f.timestamp offset ∧ g.PieceOf f := by
  obtain ⟨g, hg, hgContains⟩ := mem_ids_atomsOf.mp
    (hkept _ (mem_ids_atomsOf.mpr ⟨f, hf, hcontains⟩))
  obtain ⟨whole, hwhole, hpiece, -⟩ := h.exists_whole hg (hgContains.1 ▸ hfresh f hf)
  have hwholeContains : whole.Contains f.timestamp offset :=
    ⟨hpiece.timestamp.symm.trans hgContains.1, Nat.le_trans hpiece.start hgContains.2.1,
      Nat.lt_of_lt_of_le hgContains.2.2 hpiece.stop⟩
  obtain rfl := holdDistinct.eq_of_contains hf hwhole hcontains hwholeContains
  exact ⟨g, hg, hgContains, hpiece⟩

/-- The insertions tree after an edit. -/
theorem Walk.mem_insertions (hvalid : ∀ f ∈ old, f.Valid) (hdistinct : DistinctBytes new)
    {insertions : List InsertionFragment}
    (hordered : KeyedList.Ordered InsertionFragment.key insertions)
    (hinsertions : ∀ entry, entry ∈ insertions ↔ ∃ f ∈ old, InsertionFragment.new f = entry)
    (entry : InsertionFragment) :
    entry ∈ KeyedList.insertAll InsertionFragment.key insertions entries ↔
      ∃ f ∈ new, InsertionFragment.new f = entry := by
  rw [KeyedList.mem_insertAll (h.entries_distinct hdistinct) hordered, hinsertions]
  constructor
  · rintro (hentry | ⟨⟨f, hf, rfl⟩, hkeys⟩)
    · obtain ⟨f, hf, rfl⟩ := mem_map.mp (h.entries_sublist.subset hentry)
      exact ⟨f, hf, rfl⟩
    · -- The piece with the first byte of the fragment has the fragment's key.
      obtain ⟨g, hg, hcontains, hpiece⟩ := h.exists_piece hfresh holdDistinct hkept hf
        (Fragment.contains_start (hvalid f hf))
      have hoffset : g.insertionOffset = f.insertionOffset :=
        Nat.le_antisymm hcontains.2.1 hpiece.start
      rcases h.recorded g hg with hold | hentry
      · have heq := holdDistinct.eq_of_start hvalid hold hf hcontains.1 hoffset
        exact ⟨g, hg, by rw [heq]⟩
      · refine absurd ?_ (hkeys _ hentry)
        simp [InsertionFragment.key, InsertionFragment.new, hcontains.1, hoffset]
  · rintro ⟨f, hf, rfl⟩
    by_cases hentry : InsertionFragment.new f ∈ entries
    · exact Or.inl hentry
    · refine Or.inr ⟨⟨f, (h.recorded f hf).resolve_right hentry, rfl⟩, ?_⟩
      intro other hother hkey
      obtain ⟨g, hg, rfl⟩ := mem_map.mp (h.entries_sublist.subset hother)
      simp only [InsertionFragment.key, InsertionFragment.new, toLex_inj, Prod.mk.injEq] at hkey
      rw [hdistinct.eq_of_start h.new_valid hg hf hkey.1 hkey.2] at hother
      exact hentry hother

end Complete

/-- A slice that covers a fragment covers its pieces. -/
theorem InsertionSlice.Covers.piece {s : InsertionSlice} {whole : Fragment} (h : s.Covers whole)
    (hpiece : f.PieceOf whole) : s.Covers f :=
  ⟨hpiece.timestamp.trans h.1, Nat.le_trans h.2.1 hpiece.start, Nat.le_trans hpiece.stop h.2.2⟩

theorem InsertionSlice.Overlaps.whole {s : InsertionSlice} {whole : Fragment} (h : s.Overlaps f)
    (hpiece : f.PieceOf whole) : s.Overlaps whole :=
  ⟨hpiece.timestamp.symm.trans h.1, Nat.lt_of_le_of_lt hpiece.start h.2.1,
    Nat.lt_of_lt_of_le h.2.2 hpiece.stop⟩

theorem sliceOf_covers (editId : Lamport) (f : Fragment) : (sliceOf editId f).Covers f :=
  ⟨rfl, Nat.le_refl _, Nat.le_refl _⟩

variable {byteAt : ByteId → UInt8} {snapshot snapshot' : BufferSnapshot} {result : List Atom}

/-- An edit keeps the indices in order. -/
theorem BufferSnapshot.Indexed.rewritten (h : snapshot.Indexed base)
    (hrewritten : Rewritten byteAt timestamp snapshot snapshot' result)
    (hfresh : ∀ f ∈ snapshot.fragments, f.timestamp ≠ timestamp)
    (hnodup : (result.map Atom.id).Nodup)
    (hkept : ∀ id ∈ (atomsOf snapshot.fragments).map Atom.id, id ∈ result.map Atom.id) :
    snapshot'.Indexed base := by
  obtain ⟨entries, slices, hwalk, hinsertions, hslices⟩ := hrewritten.walk
  rw [← hrewritten.atoms] at hnodup hkept
  have hdistinct : DistinctBytes snapshot'.fragments := hnodup
  have hmemSlices (s : InsertionSlice) :
      s ∈ KeyedList.insertAll InsertionSlice.key snapshot.insertionSlices slices ↔
        s ∈ slices ∨ s ∈ snapshot.insertionSlices := by
    rw [KeyedList.mem_insertAll (hwalk.slices_distinct hdistinct) h.slices_ordered]
    refine or_congr_right' fun hmem => and_iff_left fun other hother hkey => hmem ?_
    rwa [← InsertionSlice.key_injective hkey]
  have hvalid := hwalk.new_valid
  have hnewSlice : ∀ s ∈ slices, ∃ f ∈ snapshot'.fragments, f.TouchedBy timestamp ∧
      sliceOf timestamp f = s := by
    intro s hs
    obtain ⟨f, hf, rfl⟩ := mem_map.mp (hwalk.slices_sublist.subset hs)
    have := mem_filter.mp hf
    exact ⟨f, this.1, of_decide_eq_true this.2, rfl⟩
  have hknown : ∀ f ∈ snapshot.fragments, ∃ g ∈ snapshot'.fragments, g.timestamp = f.timestamp := by
    intro f hf
    obtain ⟨g, hg, hcontains, -⟩ := hwalk.exists_piece hfresh h.distinct hkept hf
      (Fragment.contains_start (h.valid f hf))
    exact ⟨g, hg, hcontains.1⟩
  rw [← hslices] at hmemSlices
  constructor
  · exact hvalid
  · simpa using hwalk.ids
  · exact hdistinct
  · rw [hinsertions]
    exact h.insertions_ordered.insertAll (hwalk.entries_distinct hdistinct)
  · rw [hinsertions]
    exact hwalk.mem_insertions hfresh h.distinct hkept h.valid hdistinct h.insertions_ordered
      h.mem_insertions
  · rw [hslices]
    exact h.slices_ordered.insertAll (hwalk.slices_distinct hdistinct)
  · -- Every slice belongs to a known insertion.
    intro s hs
    rcases (hmemSlices s).mp hs with hs | hs
    · obtain ⟨f, hf, -, rfl⟩ := hnewSlice s hs
      exact ⟨f, hf, rfl⟩
    · obtain ⟨f, hf, htimestamp⟩ := h.slice_known s hs
      obtain ⟨g, hg, hgf⟩ := hknown f hf
      exact ⟨g, hg, hgf.trans htimestamp⟩
  · -- A new slice is one new fragment; an old one covered what its fragments came from.
    intro s hs f hf hoverlaps
    rcases (hmemSlices s).mp hs with hs | hs
    · obtain ⟨g, hg, htouched, rfl⟩ := hnewSlice s hs
      obtain ⟨htimestamp, hlt, hgt⟩ := hoverlaps
      have hlen := (hvalid f hf).len_pos
      have hglen := (hvalid g hg).len_pos
      simp only [sliceOf] at htimestamp hlt hgt
      have hf' : f.Contains g.timestamp (max f.insertionOffset g.insertionOffset) :=
        ⟨htimestamp, by omega, by omega⟩
      have heq : f = g := hdistinct.eq_of_contains hf hg hf' ⟨rfl, by omega, by omega⟩
      subst heq
      exact ⟨sliceOf_covers timestamp f, htouched⟩
    · have hne : f.timestamp ≠ timestamp := by
        obtain ⟨g, hg, htimestamp⟩ := h.slice_known s hs
        rw [hoverlaps.1, ← htimestamp]
        exact hfresh g hg
      obtain ⟨whole, hwhole, hpiece, hdeletions⟩ := hwalk.exists_whole hf hne
      obtain ⟨hcovers, htouched⟩ := h.slice_sound s hs whole hwhole (hoverlaps.whole hpiece)
      exact ⟨hcovers.piece hpiece, htouched.imp (hpiece.timestamp.trans ·) (hdeletions _)⟩
  · -- A fragment touched by an edit is a piece of one that was, unless the edit is new.
    intro f hf editId htouched hne
    have hold : ∀ whole ∈ snapshot.fragments, f.PieceOf whole → whole.TouchedBy editId →
        ∃ s ∈ snapshot'.insertionSlices, s.editId = editId ∧ s.Covers f := by
      intro whole hwhole hpiece hwholeTouched
      obtain ⟨s, hs, hedit, hcovers⟩ := h.slice_complete whole hwhole editId hwholeTouched hne
      exact ⟨s, (hmemSlices s).mpr (Or.inr hs), hedit, hcovers.piece hpiece⟩
    have hnew : sliceOf timestamp f ∈ slices → editId = timestamp →
        ∃ s ∈ snapshot'.insertionSlices, s.editId = editId ∧ s.Covers f := by
      intro hslice hedit
      exact ⟨_, (hmemSlices _).mpr (Or.inl hslice), hedit.symm, sliceOf_covers timestamp f⟩
    cases hwalk.origin f hf with
    | inserted htimestamp hdeletions hslice =>
      refine hnew hslice ?_
      rcases htouched with heq | hmem
      · exact heq.symm.trans htimestamp
      · simp [hdeletions] at hmem
    | kept whole hwhole hpiece hdeletions =>
      refine hold whole hwhole hpiece ?_
      rwa [Fragment.TouchedBy, hpiece.timestamp, hdeletions] at htouched
    | deleted whole hwhole hpiece hdeletions hslice =>
      rw [Fragment.TouchedBy, hpiece.timestamp, hdeletions, mem_append, mem_singleton] at htouched
      rcases htouched with heq | hmem | heq
      · exact hold whole hwhole hpiece (Or.inl heq)
      · exact hold whole hwhole hpiece (Or.inr hmem)
      · exact hnew hslice heq

end Preservation

end XorEditor.Text
