import XorEditor.SumTree.CursorList
import XorEditor.SumTree.Keyed
import XorEditor.Text.AnchorOrder

/-!
# The trees of a buffer

A buffer keeps its fragments and its insertions in sum trees, and moves cursors over them.  The
models of the edits and of the anchors move list cursors instead; here the cursors of the trees
are shown to make the same motions.

A seek skips a subtree by its summary alone.  The insertion versions of a subtree are the join
and the meet of those of its fragments.  An offset at a version is invalid on a subtree that the
version has only partly observed, and no seek skips such a subtree.

* `Summarizes`: what the summary of a subtree says about its fragments
* `version_lattice`: the lattice of version vectors, and the offset of a subtree at a version
* `slicesTo_visible`, `slicesTo_versioned`, `slicesTo_locator`: the slices of local edits, remote
  edits and undo operations
* `find_visible`, `find_locator`: the searches behind the anchors
* `BufferSnapshot.tryFindFragment_tree`: the search in the tree of the insertions
-/

namespace XorEditor.Text

open Clock Lib List SumTree

/-- `Summary for FragmentSummary`. -/
instance : Zero FragmentSummary where
  zero :=
    { text := { visible := 0, deleted := 0 }
      maxId := Locator.min
      maxVersion := Global.new
      minInsertionVersion := Global.new
      maxInsertionVersion := Global.new }

instance : Add FragmentSummary where
  add self other :=
    { text :=
        { visible := self.text.visible + other.text.visible
          deleted := self.text.deleted + other.text.deleted }
      maxId := other.maxId
      maxVersion := self.maxVersion.join other.maxVersion
      minInsertionVersion := self.minInsertionVersion.meet other.minInsertionVersion
      maxInsertionVersion := self.maxInsertionVersion.join other.maxInsertionVersion }

instance : Summary FragmentSummary where
  add_assoc a b c := by
    refine FragmentSummary.mk.injEq .. ▸ ⟨?_, rfl, Global.join_assoc .., Global.meet_assoc ..,
      Global.join_assoc ..⟩
    exact FragmentTextSummary.mk.injEq .. ▸ ⟨Nat.add_assoc .., Nat.add_assoc ..⟩
  zero_add a := by
    refine FragmentSummary.mk.injEq .. ▸ ⟨?_, rfl, Global.new_join _, Global.new_meet _,
      Global.new_join _⟩
    exact FragmentTextSummary.mk.injEq .. ▸ ⟨Nat.zero_add _, Nat.zero_add _⟩

instance : Item Fragment FragmentSummary where
  summary := Fragment.summary

/-! ## Subtrees -/

section Subtrees

variable {version : Global} {fs : List Fragment}

/-- What the summary of a subtree says about its fragments. -/
structure Summarizes (version : Global) (fs : List Fragment) (summary : FragmentSummary) :
    Prop where
  all : version.observedAll summary.maxInsertionVersion = true ↔ ∀ f ∈ fs, seenBy version f = true
  any : version.observedAny summary.minInsertionVersion = true ↔ ∃ f ∈ fs, seenBy version f = true
  visible : summary.text.visible = countedSum Fragment.visible fs
  len : summary.text.visible + summary.text.deleted = (fs.map Fragment.len).sum

theorem Summarizes.concat {summary : FragmentSummary} {f : Fragment}
    (h : Summarizes version fs summary) (hf : 0 < f.timestamp.value) :
    Summarizes version (fs ++ [f]) (summary + f.summary) := by
  constructor
  · change version.observedAll (summary.maxInsertionVersion.join _) = true ↔ _
    rw [Global.observedAll_join_iff, h.all, forall_mem_append, forall_mem_singleton, seenBy,
      ← observedAll_observe]
    rfl
  · change version.observedAny (summary.minInsertionVersion.meet _) = true ↔ _
    rw [Global.observedAny_meet_iff, h.any]
    simp [Fragment.summary, seenBy, Global.observedAny_observe_new hf, or_and_right, exists_or]
  · change summary.text.visible + f.summary.text.visible = _
    rw [h.visible, summary_visible, countedSum_append, countedSum_cons, countedSum_nil,
      Nat.add_zero]
  · change summary.text.visible + f.summary.text.visible +
      (summary.text.deleted + f.summary.text.deleted) = _
    have hlen : f.summary.text.visible + f.summary.text.deleted = f.len := by
      simp only [Fragment.summary]
      split <;> simp
    rw [map_append, List.sum_append, ← h.len]
    simp
    omega

theorem summarizes_sum (version : Global) (hfs : ∀ f ∈ fs, 0 < f.timestamp.value) :
    Summarizes version fs (SumTree.sum (fs.map Item.summary)) := by
  induction fs using reverseRecOn with
  | nil =>
    have hall : version.observedAll Global.new = true := Global.observedAll_iff.mpr (by simp)
    have hany : ¬version.observedAny Global.new = true := by simp [Global.observedAny_iff]
    exact ⟨iff_of_true hall (by simp), iff_of_false hany (by simp), rfl, rfl⟩
  | append_singleton fs f ih =>
    rw [forall_mem_append, forall_mem_singleton] at hfs
    rw [map_append, SumTree.sum, foldl_append]
    exact (ih hfs.1).concat hfs.2

/-- The versioned offset of a subtree is the length of its fragments that the version has
observed, or invalid if only some of them are. -/
theorem Summarizes.addSummary {summary : FragmentSummary} (h : Summarizes version fs summary)
    (position : Nat) :
    (VersionedFullOffset.offset position).addSummary version summary =
        .offset (position + countedSum (seenBy version) fs) ∨
      (VersionedFullOffset.offset position).addSummary version summary = .invalid ∧
        (∃ f ∈ fs, seenBy version f = true) ∧ ∃ f ∈ fs, seenBy version f = false := by
  simp only [VersionedFullOffset.addSummary]
  split
  · rename_i hall
    have hcounted : fs.map (countedLen (seenBy version)) = fs.map Fragment.len :=
      map_congr_left fun f hf => countedLen_of_counts (h.all.mp hall f hf)
    rw [h.len, countedSum, hcounted]
    exact Or.inl rfl
  · rename_i hall
    split
    · rename_i hany
      refine Or.inr ⟨rfl, h.any.mp hany, ?_⟩
      simpa [h.all] using hall
    · rename_i hany
      -- No fragment is seen, and `add_summary` adds nothing.
      have hnone : countedSum (seenBy version) fs = 0 := by
        refine sum_eq_zero fun len hlen => ?_
        obtain ⟨f, hf, rfl⟩ := mem_map.mp hlen
        exact countedLen_of_not_counts (by simpa using fun hseen => hany (h.any.mpr ⟨f, hf, hseen⟩))
      rw [hnone]
      exact Or.inl rfl

end Subtrees

/-- The timestamps of a buffer are those of its base text and of the operations. -/
theorem World.Consistent.timestamp_pos {W : World} {snapshot : BufferSnapshot}
    {applied : List Operation} (h : W.Consistent snapshot applied) (hW : W.Valid)
    {f : Fragment} (hf : f ∈ snapshot.fragments) : 0 < f.timestamp.value := by
  have hatom := atomAt_mem_atomsOf hf (h.indexed.valid f hf).len_pos
  have hbyte : (f.atomAt 0).id ∈ W.sequence :=
    (mem_filter.mp (h.ids ▸ mem_map_of_mem hatom)).1
  rcases hW.byte_cases hbyte with hbase | ⟨edit, hedit, htimestamp, -⟩
  · obtain ⟨offset, -, heq⟩ := mem_map.mp hbase
    rw [show f.timestamp = baseTimestamp from congrArg Prod.fst heq.symm]
    decide
  · have hvalue := hW.value_ge _ hedit
    rw [show f.timestamp = edit.timestamp from htimestamp.symm]
    exact Nat.lt_of_lt_of_le Nat.two_pos hvalue

/-- Version vectors form the intended lattice, and a subtree of fragments is skipped by its
summary as if its fragments were looked at one by one. -/
theorem version_lattice :
    (∀ self other : Global, self.observedAll other = true ↔ ∀ r, other.get r ≤ self.get r) ∧
    (∀ self other : Global,
      self.observedAll other = true → other.observedAll self = true → self = other) ∧
    (∀ self other version : Global, version.observedAll (self.join other) = true ↔
      version.observedAll self = true ∧ version.observedAll other = true) ∧
    (∀ self other : Global, self.changedSince other = true ↔ other.observedAll self = false) ∧
    (∀ (self other : Global) r, (self.meet other).get r = if self.get r = 0 then other.get r
      else if other.get r = 0 then self.get r else min (self.get r) (other.get r)) ∧
    (∀ self : Global, self.values.getLast? ≠ some 0) ∧
    (∀ (version : Global) (depth : Nat) (node : Node Fragment FragmentSummary),
      node.Exact depth → (∀ f ∈ node.items, 0 < f.timestamp.value) → ∀ position,
      (VersionedFullOffset.offset position).addSummary version node.summary =
          .offset (position + countedSum (fun f => version.observed f.timestamp) node.items) ∨
        (VersionedFullOffset.offset position).addSummary version node.summary = .invalid ∧
          (∃ f ∈ node.items, version.observed f.timestamp = true) ∧
          ∃ f ∈ node.items, version.observed f.timestamp = false) ∧
    ∀ remoteId baseText N past, Network.Run remoteId baseText (N :: past) →
      ∀ i, ∀ f ∈ (N.buffers i).snapshot.fragments, 0 < f.timestamp.value := by
  refine ⟨fun _ _ => Global.observedAll_iff, fun _ _ => Global.observedAll_antisymm,
    fun _ _ _ => Global.observedAll_join_iff, fun _ _ => Global.changedSince_iff,
    fun _ _ _ => Global.get_meet .., fun self hlast => ?_, fun version depth node hexact hfs => ?_,
    fun remoteId baseText N past hrun i f hf => ?_⟩
  · obtain ⟨front, heq⟩ := getLast?_eq_some_iff.mp hlast
    have htrimmed := self.trimmed
    simp [heq] at htrimmed
  · have hsum := summarizes_sum version hfs
    rw [← hexact.summary_eq] at hsum
    exact hsum.addSummary
  · obtain ⟨W, hW⟩ := hrun.exists_world
    exact (hW.consistent N mem_cons_self i).timestamp_pos hW.valid hf

/-! ## Cursors over the fragments -/

instance : LawfulDimension FragmentTextSummary FragmentSummary where
  toDimension := .ofList textDimension
  addSummary_add _ _ _ :=
    FragmentTextSummary.mk.injEq .. ▸ ⟨(Nat.add_assoc ..).symm, (Nat.add_assoc ..).symm⟩
  addSummary_zero := rfl

instance : LawfulDimension Nat FragmentSummary where
  toDimension := .ofList visibleDimension
  addSummary_add _ _ _ := (Nat.add_assoc ..).symm
  addSummary_zero := rfl

instance : AddingDimension (Option Locator × Nat) FragmentSummary where
  toDimension := .ofList locatorDimension
  addSummary_add _ _ _ := Prod.ext rfl (Nat.add_assoc ..).symm

section Cursors

variable {list : ListCursor Fragment} {fs : List Fragment}

/-- A slice of a local edit. -/
theorem slicesTo_visible {cursor : Cursor Fragment FragmentSummary FragmentTextSummary}
    (h : cursor.Mirrors list) (hseekable : cursor.tree.Seekable fs) {offset : Nat}
    (hle : cursor.start.visible ≤ offset) :
    cursor.SlicesTo (fun position => compare offset position.visible) .right
      (list.slice textDimension Fragment.summary (stepsOverVisible offset)) :=
  h.slice hseekable (isGE_compare hle) (Walk.adds ..)
    (ahead_key FragmentTextSummary.visible (fun _ _ => Nat.le_add_right ..) offset .right _ _)

/-- The positions of the cursor of a remote edit, at a version. -/
def VersionedPosition (_ : Global) : Type := VersionedFullOffset × Nat

instance (version : Global) : SumTree.Dimension (VersionedPosition version) FragmentSummary :=
  .ofList (versionedDimension version)

section Versioned

variable {version : Global}

variable (version) in
theorem addItems_versioned (position visible : Nat) (fs : List Fragment) :
    addItems (D := VersionedPosition version) (.offset position, visible) fs =
      (.offset (position + countedSum (seenBy version) fs),
        visible + countedSum Fragment.visible fs) :=
  measureFrom_versioned version position visible fs

/-- A seek does not skip a subtree where the offset becomes invalid. -/
theorem adds_versioned (hpos : ∀ f ∈ fs, 0 < f.timestamp.value) (offset : Nat) :
    (Walk.seek (fun position : VersionedPosition version =>
      VersionedFullOffset.compareOffset offset position.1) .left).Adds fs := by
  rintro depth node hfilled hsubset ⟨start, visible⟩ hskip
  have hsum : Summarizes version node.items node.summary :=
    hfilled.exact.summary_eq ▸ summarizes_sum version fun f hf => hpos f (hsubset hf)
  cases start with
  -- An invalid offset is beyond every target, so that nothing is skipped from there.
  | invalid => cases hskip
  | offset position =>
    rw [addItems_versioned, ← hsum.visible]
    rcases hsum.addSummary position with hoffset | ⟨hinvalid, -⟩
    · exact Prod.ext hoffset rfl
    · change goesPast .left (VersionedFullOffset.compareOffset offset
        ((VersionedFullOffset.offset position).addSummary version node.summary)) = true at hskip
      rw [hinvalid] at hskip
      cases hskip

/-- A slice of a remote edit. -/
theorem slicesTo_versioned {cursor : Cursor Fragment FragmentSummary (VersionedPosition version)}
    (h : cursor.Mirrors list) (hseekable : cursor.tree.Seekable fs)
    (hpos : ∀ f ∈ fs, 0 < f.timestamp.value) {offset : Nat}
    (hle : countedSum (seenBy version) list.before ≤ offset) :
    cursor.SlicesTo (fun position => VersionedFullOffset.compareOffset offset position.1) .left
      (list.slice (versionedDimension version) Fragment.summary (stepsOverOffset offset)) := by
  have hstart : cursor.start = (.offset (countedSum (seenBy version) list.before),
      countedSum Fragment.visible list.before) := by
    have hmeasure := addItems_versioned version 0 0 list.before
    rw [Nat.zero_add, Nat.zero_add] at hmeasure
    exact h.start.trans hmeasure
  refine h.slice hseekable ?_ (adds_versioned hpos offset) ?_
  · rw [hstart]
    exact isGE_compare hle
  · rw [hstart]
    -- The offset is never invalid between two fragments, and it only grows.
    refine ahead_of_le (fun front => countedSum (seenBy version) list.before +
      countedSum (seenBy version) front) offset (fun front _ _ => ?_) (fun front middle _ _ => ?_) _
    · rw [addItems_versioned]
      rfl
    · rw [countedSum_append]
      omega

end Versioned

theorem maxId_concat (fs : List Fragment) (f : Fragment) :
    FragmentBuilder.maxId (fs ++ [f]) = f.id := by
  rw [FragmentBuilder.maxId, getLast?_concat]

/-- The locator in a position is that of the last fragment. -/
theorem ahead_locator (hids : fs.Pairwise fun f g => f.id < g.id) (id : Locator)
    (position : Option Locator × Nat) :
    Ahead (fun position => compareLocator id position.1) .left position fs := by
  -- A summary keeps the locator added last, which is the largest one.
  refine ahead_of_le FragmentBuilder.maxId id (fun front hne _ => ?_)
    (fun front middle hne hfront => ?_) _
  · obtain ⟨init, last, rfl⟩ := (eq_nil_or_concat' front).resolve_left hne
    rw [addItems_append, maxId_concat]
    rfl
  · obtain ⟨init, last, rfl⟩ := (eq_nil_or_concat' front).resolve_left hne
    rcases eq_nil_or_concat' middle with rfl | ⟨init', last', rfl⟩
    · rw [append_nil]
    · have hlt := (pairwise_append.mp (hids.sublist hfront.sublist)).2.2
        last (by simp) last' (by simp)
      rw [← append_assoc, maxId_concat, maxId_concat]
      exact hlt.le

/-- A slice of an undo operation. -/
theorem slicesTo_locator {cursor : Cursor Fragment FragmentSummary (Option Locator × Nat)}
    (h : cursor.Mirrors list) (hseekable : cursor.tree.Seekable fs)
    (hids : fs.Pairwise fun f g => f.id < g.id) {id : Locator}
    (hge : (compareLocator id cursor.start.1).isGE) :
    cursor.SlicesTo (fun position => compareLocator id position.1) .left
      (list.slice locatorDimension Fragment.summary (stepsOverLocator id)) := by
  have hrest : list.rest <:+ fs := by
    obtain ⟨pieces, hfaces, hrest⟩ := h
    rw [← hseekable.holds.2, hfaces.items_eq, hrest]
    exact suffix_append ..
  exact h.slice hseekable hge (Walk.adds ..) (ahead_locator (hids.sublist hrest.sublist) id _)

variable {tree : Node Fragment FragmentSummary} (hholds : tree.Holds fs)
include hholds

/-- The search of `anchor_at_offset`. -/
theorem find_visible {offset : Nat} {bias : Bias}
    (hlist : ((ListCursor.ofList fs).slice visibleDimension Fragment.summary fun position =>
      passes (compare offset position) bias).2 = list) :
    tree.find (compare offset) bias = some (list.start visibleDimension Fragment.summary,
      list.endPosition visibleDimension Fragment.summary, list.item) :=
  (find_eq_slice hholds (emptyAdds Nat fs)
    (ahead_key id (fun _ _ => Nat.le_add_right ..) offset bias _ _) hlist).1

/-- The search of `offset_for_anchor`. -/
theorem find_locator (hne : fs ≠ []) (hids : fs.Pairwise fun f g => f.id < g.id) {id : Locator}
    (hlist : ((ListCursor.ofList fs).slice locatorDimension Fragment.summary
      (stepsOverLocator id)).2 = list) :
    tree.find (fun position : Option Locator × Nat => compareLocator id position.1) .left =
      some (list.start locatorDimension Fragment.summary,
        list.endPosition locatorDimension Fragment.summary, list.item) :=
  (find_eq_slice hholds (fun hnil => absurd hnil hne) (ahead_locator hids id _) hlist).1

end Cursors

/-! ## Cursors over the insertions -/

/-- `Summary for InsertionFragmentKey`. -/
instance : Zero (Lamport ×ₗ Nat) where
  zero := toLex (Lamport.MIN, 0)

instance : Add (Lamport ×ₗ Nat) where
  add _ other := other

instance : Summary (Lamport ×ₗ Nat) where
  add_assoc _ _ _ := rfl
  zero_add _ := rfl

instance : Item InsertionFragment (Lamport ×ₗ Nat) where
  summary := InsertionFragment.key

instance : KeyedItem InsertionFragment (Lamport ×ₗ Nat) (Lamport ×ₗ Nat) where
  key := InsertionFragment.key
  zero_le k := by
    have hmin : Lamport.MIN ≤ (ofLex k).1 := by
      simp only [Lamport.le_iff, Lamport.MIN]
      omega
    exact Prod.Lex.toLex_mono ⟨hmin, Nat.zero_le _⟩
  addItems_key xs x _ := by rw [addItems_append]; rfl

section Insertions

variable {list : ListCursor InsertionFragment} {xs : List InsertionFragment}
  (hordered : KeyedList.Ordered InsertionFragment.key xs)
include hordered

/-- A seek of `fragment_ids_for_edits`. -/
theorem seekForward_insertion {cursor : Cursor InsertionFragment (Lamport ×ₗ Nat) (Lamport ×ₗ Nat)}
    (h : cursor.Mirrors list) (hseekable : cursor.tree.Seekable xs) {target : Lamport ×ₗ Nat}
    (hge : (compare target cursor.start).isGE) {moved : ListCursor InsertionFragment}
    (hmoved : (list.slice InsertionFragment.keyDimension InsertionFragment.key
      (stepsOverInsertion target)).2 = moved) :
    ∃ found cursor', cursor.seekForward (compare target) .left = some (found, cursor') ∧
      cursor'.tree = cursor.tree ∧ cursor'.Splits moved.before moved.rest := by
  have hsorted : SortedKeys (list.before ++ list.rest) := by
    obtain ⟨pieces, hfaces, hrest⟩ := h
    rw [← hrest, ← hfaces.items_eq, hseekable.holds.2]
    exact hordered
  have hahead : Ahead (compare target) .left cursor.start list.rest := by
    rw [h.start]
    exact hsorted.ahead
  exact hmoved ▸ h.seekForward hseekable hge (Walk.adds ..) hahead

end Insertions

/-- The search of `try_find_fragment`. -/
theorem BufferSnapshot.tryFindFragment_tree {snapshot : BufferSnapshot}
    (hordered : KeyedList.Ordered InsertionFragment.key snapshot.insertions)
    {tree : Node InsertionFragment (Lamport ×ₗ Nat)} (hholds : tree.Holds snapshot.insertions)
    (anchor : Anchor) :
    ∃ start finish found last,
      tree.findWithPrev (compare anchor.key) anchor.bias = some (start, finish, found) ∧
      tree.last = some last ∧
      snapshot.tryFindFragment anchor =
        match found with
        | some (previous, insertion) =>
          let comparison := compare insertion.key anchor.key
          if comparison == Ordering.gt
              || (anchor.bias == Bias.left && comparison == Ordering.eq
                && decide (0 < anchor.offset)) then
            previous
          else
            some insertion
        | none => last := by
  have hsorted : SortedKeys ([] ++ snapshot.insertions) := hordered
  rw [BufferSnapshot.tryFindFragment]
  generalize hlist : ((ListCursor.ofList snapshot.insertions).slice InsertionFragment.keyDimension
    InsertionFragment.key fun position => passes (compare anchor.key position) anchor.bias).2 = list
  obtain ⟨-, hfind⟩ :=
    find_eq_slice hholds (emptyAdds (Lamport ×ₗ Nat) _) hsorted.ahead hlist
  refine ⟨_, _, _, _, hfind, hholds.last, ?_⟩
  cases list.item <;> rfl

end XorEditor.Text
