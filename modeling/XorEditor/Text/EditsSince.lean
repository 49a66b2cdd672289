import XorEditor.Text.PatchSemantics
import XorEditor.Text.TimeTravel

/-!
# The edits since a version

`edits_since` walks the fragments that changed after a version and collects what became
visible and what disappeared.  Neighbouring changes are joined into one edit; an edit is
returned as soon as unchanged text follows it.  The edits it yields are a patch from the
text at the version to the present text.

The invariant of the walk says how far the iterator is behind: the edits so far describe
the texts in front of the visible cursor, and the visible text between that cursor and the
current fragment has not changed.

* `Reading`, `CaughtUp`: the invariant
* `Run.editsSince_turns`: the patch
-/

namespace XorEditor.Text

open Clock Lib List FragmentBuilder

namespace Edits

variable {byteAt : ByteId → UInt8} {cx : EditsContext} {before rest : List Fragment} {f : Fragment}
  {edits : List AnchoredEdit} {pending : Option AnchoredEdit} {iter : Edits}

/-- The state of the iterator in front of the fragments behind `before`, when it has
yielded `edits`. -/
structure Reading (byteAt : ByteId → UInt8) (cx : EditsContext) (before : List Fragment)
    (edits : List AnchoredEdit) (pending : Option AnchoredEdit) (iter : Edits) : Prop where
  start : iter.start = text before
  newEnd : iter.newEnd = iter.visibleOffset
  visible_le : iter.visibleOffset ≤ (text before).visible
  deleted_le : iter.deletedOffset ≤ (text before).deleted
  turns : ∃ old, old.length = iter.oldEnd ∧
    old ++ (visibleBytes byteAt (atomsOf before)).drop iter.visibleOffset =
      oldBytes byteAt (cx.snapshot.wasVisibleAt cx.since) before ∧
    Patch.Turns 0 0 ((edits ++ pending.toList).map Prod.fst) old
      ((visibleBytes byteAt (atomsOf before)).take iter.visibleOffset)
  pending_end : ∀ edit ∈ pending, edit.1.oldEnd = iter.oldEnd ∧ edit.1.newEnd = iter.newEnd
  separated : Patch.Separated ((edits ++ pending.toList).map Prod.fst)
  yielded_lt : pending = none → ∀ edit ∈ edits,
    edit.1.oldEnd < iter.oldEnd ∧ edit.1.newEnd < iter.newEnd
  nil_iff : edits ++ pending.toList = [] ↔
    ∀ f ∈ before, cx.snapshot.wasVisibleAt cx.since f = f.visible

/-- A fragment whose visibility did not change may be passed over. -/
theorem Reading.skip (h : Reading byteAt cx before edits pending iter)
    (hsame : cx.snapshot.wasVisibleAt cx.since f = f.visible) :
    Reading byteAt cx (before ++ [f]) edits pending
      { iter with start := textDimension.addSummary iter.start f.summary } := by
  obtain ⟨hvisible, hdeleted⟩ := text_le_concat before f
  obtain ⟨old, hlength, hold, hturns⟩ := h.turns
  have hle : iter.visibleOffset ≤ (visibleBytes byteAt (atomsOf before)).length :=
    visible_text_eq byteAt before ▸ h.visible_le
  refine ⟨?_, h.newEnd, h.visible_le.trans hvisible, h.deleted_le.trans hdeleted,
    ⟨old, hlength, ?_, ?_⟩, h.pending_end, h.separated, h.yielded_lt, ?_⟩
  · rw [h.start, text_concat]
  · rw [visibleBytes_concat, drop_append_of_le_length hle, ← append_assoc, hold,
      oldBytes_append, oldBytes_singleton, hsame]
  · rwa [visibleBytes_concat, take_append_of_le_length hle]
  · rw [h.nil_iff, forall_mem_append, forall_mem_singleton, and_iff_left hsame]

/-- The state once the visible cursor has caught up with the current fragment. -/
structure CaughtUp (byteAt : ByteId → UInt8) (cx : EditsContext) (before : List Fragment)
    (edits : List AnchoredEdit) (pending : Option AnchoredEdit) (iter : Edits) : Prop where
  reading : Reading byteAt cx before edits pending iter
  visibleOffset : iter.visibleOffset = (text before).visible

/-- The unchanged text in front of the current fragment separates a pending edit from what
follows, if there is any. -/
theorem Reading.catchUp (h : Reading byteAt cx before edits pending iter)
    (htexts : cx.snapshot.TextsValid byteAt) (hsplit : cx.snapshot.fragments = before ++ rest) :
    ∃ iter', Edits.catchUp cx iter = some iter' ∧
      if pending.any fun change => decide (change.1.newEnd < iter'.newEnd) then
        CaughtUp byteAt cx before (edits ++ pending.toList) none iter'
      else
        CaughtUp byteAt cx before edits pending iter' := by
  obtain ⟨old, hlength, hold, hturns⟩ := h.turns
  unfold Edits.catchUp
  split
  · rename_i hlt
    rw [h.start] at hlt ⊢
    have hslice := slice_visibleText htexts hsplit h.visible_le
    simp only [hslice, some_do]
    refine ⟨_, rfl, ?_⟩
    generalize hunread : (visibleBytes byteAt (atomsOf before)).drop iter.visibleOffset = unread
      at hold hslice
    have hpositive : 0 < unread.length := by
      rw [← hunread, length_drop, ← visible_text_eq]
      omega
    have hoffset : iter.visibleOffset + unread.length = (text before).visible := by
      rw [← hunread, length_drop, ← visible_text_eq]
      omega
    have htake : (visibleBytes byteAt (atomsOf before)).take iter.visibleOffset ++ unread =
        visibleBytes byteAt (atomsOf before) := by
      rw [← hunread, take_append_drop]
    -- Both texts now reach the current fragment.
    have hcaught : ∀ (edits' : List AnchoredEdit) (pending' : Option AnchoredEdit),
        edits' ++ pending'.toList = edits ++ pending.toList →
        (∀ edit ∈ pending', edit.1.oldEnd = iter.oldEnd + unread.length ∧
          edit.1.newEnd = iter.newEnd + unread.length) →
        (pending' = none → ∀ edit ∈ edits', edit.1.oldEnd < iter.oldEnd + unread.length ∧
          edit.1.newEnd < iter.newEnd + unread.length) →
        CaughtUp byteAt cx before edits' pending'
          { iter with
            visibleOffset := (text before).visible
            oldEnd := iter.oldEnd + unread.length
            newEnd := iter.newEnd + unread.length
            start := text before } := by
      intro edits' pending' heq hpending' hyielded'
      refine ⟨⟨rfl, ?_, Nat.le_refl _, h.deleted_le, ⟨old ++ unread, ?_, ?_, ?_⟩, hpending', ?_,
        hyielded', ?_⟩, rfl⟩
      · rw [h.newEnd, hoffset]
      · rw [length_append, hlength]
      · rw [visible_text_eq byteAt, drop_length, append_nil, hold]
      · rw [visible_text_eq byteAt, take_length, heq, ← htake]
        exact hturns.same unread
      · rw [heq]
        exact h.separated
      · rw [heq]
        exact h.nil_iff
    cases hp : pending with
    | none =>
      subst hp
      rw [if_neg (by simp)]
      refine hcaught edits none rfl (by simp) fun _ edit hedit => ?_
      have := h.yielded_lt rfl edit hedit
      omega
    | some change =>
      subst hp
      obtain ⟨hoe, hne⟩ := h.pending_end change rfl
      rw [if_pos (by simp only [Option.any_some, decide_eq_true_eq]; omega)]
      have hbounds := hturns.le_length (mem_map_of_mem
        (mem_append_right edits (Option.mem_toList.mpr rfl)))
      refine hcaught (edits ++ [change]) none (by simp) (by simp) fun _ edit hedit => ?_
      rcases mem_append.mp hedit with hedit | hedit
      · have hsep := h.separated
        simp only [Patch.Separated, Option.toList_some, map_append, map_cons,
          map_nil, pairwise_append] at hsep
        have := hsep.2.2 edit.1 (mem_map_of_mem hedit) change.1 (by simp)
        omega
      · rw [mem_singleton.mp hedit]
        omega
  · rename_i hge
    have hoffset : iter.visibleOffset = (text before).visible := by
      have := h.visible_le
      rw [h.start] at hge
      omega
    refine ⟨iter, rfl, ?_⟩
    rw [if_neg ?_]
    · exact ⟨h, hoffset⟩
    · cases hp : pending with
      | none => simp
      | some change =>
        have := h.pending_end change (by simp [hp])
        simp only [Option.any_some, decide_eq_true_eq]
        omega

/-- The pending edit after one more change. -/
def extend (pending : Option AnchoredEdit) (iter : Edits) (oldEnd newEnd : Nat) : Edit :=
  match pending with
  | some change => { change.1 with oldEnd, newEnd }
  | none => { oldStart := iter.oldEnd, oldEnd, newStart := iter.newEnd, newEnd }

/-- A fragment that appeared or disappeared extends the pending edit or begins one. -/
theorem CaughtUp.change (h : CaughtUp byteAt cx before edits pending iter) {deleted inserted : Rope}
    {iter' : Edits} {pending' : AnchoredEdit}
    (hold : oldBytes byteAt (cx.snapshot.wasVisibleAt cx.since) (before ++ [f]) =
      oldBytes byteAt (cx.snapshot.wasVisibleAt cx.since) before ++ deleted)
    (hnew : visibleBytes byteAt (atomsOf (before ++ [f])) =
      visibleBytes byteAt (atomsOf before) ++ inserted)
    (hchanged : cx.snapshot.wasVisibleAt cx.since f ≠ f.visible)
    (hstart : iter'.start = text (before ++ [f]))
    (hoffset : iter'.visibleOffset = (text (before ++ [f])).visible)
    (hdeleted : iter'.deletedOffset ≤ (text (before ++ [f])).deleted)
    (holdEnd : iter'.oldEnd = iter.oldEnd + deleted.length)
    (hnewEnd : iter'.newEnd = iter.newEnd + inserted.length)
    (hpending : pending'.1 = extend pending iter iter'.oldEnd iter'.newEnd) :
    Reading byteAt cx (before ++ [f]) edits (some pending') iter' := by
  obtain ⟨old, hlength, holdBytes, hturns⟩ := h.reading.turns
  have hvisible := h.visibleOffset
  rw [hvisible, visible_text_eq byteAt, drop_length, append_nil] at holdBytes
  rw [hvisible, visible_text_eq byteAt, take_length] at hturns
  have hlength' : (visibleBytes byteAt (atomsOf before)).length = iter.newEnd := by
    rw [h.reading.newEnd, hvisible, visible_text_eq byteAt]
  have hboth : Patch.Turns 0 0 ((edits.map Prod.fst) ++ [pending'.1]) (old ++ deleted)
        (visibleBytes byteAt (atomsOf before) ++ inserted) ∧
      Patch.Separated ((edits.map Prod.fst) ++ [pending'.1]) := by
    rw [hpending, holdEnd, hnewEnd]
    cases pending with
    | none =>
      have hconcat := hturns.concat deleted inserted
      simp only [Nat.zero_add, hlength, hlength', Option.toList_none, append_nil]
        at hconcat
      refine ⟨hconcat, pairwise_append.mpr ⟨?_, pairwise_singleton _ _, ?_⟩⟩
      · simpa [Patch.Separated] using h.reading.separated
      · intro edit hedit edit' hedit'
        obtain ⟨change, hchange, rfl⟩ := mem_map.mp hedit
        rw [mem_singleton.mp hedit']
        exact h.reading.yielded_lt rfl change hchange
    | some change =>
      obtain ⟨hoe, -⟩ := h.reading.pending_end change rfl
      simp only [Option.toList_some, map_append, map_cons, map_nil] at hturns
      have hextend := (hturns.extendLast (by rw [Nat.zero_add, hlength, hoe]) deleted inserted).2
      simp only [Nat.zero_add, hlength, hlength'] at hextend
      refine ⟨hextend, ?_⟩
      have hsep := h.reading.separated
      simp only [Patch.Separated, Option.toList_some, map_append, map_cons,
        map_nil, pairwise_append] at hsep ⊢
      refine ⟨hsep.1, pairwise_singleton _ _, fun edit hedit edit' hedit' => ?_⟩
      rw [mem_singleton.mp hedit']
      exact hsep.2.2 edit hedit change.1 mem_cons_self
  refine ⟨hstart, ?_, Nat.le_of_eq hoffset, hdeleted, ⟨old ++ deleted, ?_, ?_, ?_⟩, ?_, ?_,
    by simp, ?_⟩
  · rw [hnewEnd, hoffset, visible_text_eq byteAt, hnew, length_append, hlength']
  · rw [length_append, hlength, holdEnd]
  · rw [hoffset, visible_text_eq byteAt, drop_length, append_nil, hold, holdBytes]
  · rw [hoffset, visible_text_eq byteAt, take_length, hnew]
    simpa using hboth.1
  · intro edit hedit
    obtain rfl : pending' = edit := by simpa using hedit
    rw [hpending]
    cases pending <;> exact ⟨rfl, rfl⟩
  · simpa using hboth.2
  · simp only [Option.toList_some, append_eq_nil_iff, cons_ne_nil, and_false, false_iff]
    exact fun hall => hchanged (hall f (by simp))

/-- The range of the iterator contains all fragments. -/
structure FullRange (cx : EditsContext) : Prop where
  rangeStart : cx.rangeStart.fragmentId = Locator.min
  rangeEnd : cx.rangeEnd.fragmentId = Locator.max

theorem clipEnd_eq (hrange : FullRange cx) (hvalid : f.Valid) (start stop : Nat) :
    clipEnd cx f start stop = some stop := by
  rw [clipEnd, if_neg]
  · rfl
  · rw [hrange.rangeEnd]
    exact ne_of_lt hvalid.lt_max

section Visit

variable (h : CaughtUp byteAt cx before edits pending iter) (htexts : cx.snapshot.TextsValid byteAt)
include h htexts

variable (hrange : FullRange cx) (hsplit : cx.snapshot.fragments = before ++ f :: rest)
include hrange hsplit

/-- The deleted cursor is moved to a fragment before its text is read. -/
theorem CaughtUp.visitDeleted (hvisible : f.visible = false) :
    ∃ pending', Edits.visitDeleted cx f (text (before ++ [f])).deleted pending
        iter = some (some pending',
          { iter with
            deletedOffset := (text (before ++ [f])).deleted
            oldEnd := iter.oldEnd + (f.bytes byteAt).length }) ∧
      pending'.1 = extend pending iter (iter.oldEnd + (f.bytes byteAt).length) iter.newEnd := by
  have hvalid : f.Valid := htexts.valid f (by simp [hsplit])
  have hle := h.reading.deleted_le
  have hskipped := slice_deletedText htexts hsplit hle
  have hslice := slice_deleted_fragment htexts hsplit hvisible
  rw [Edits.visitDeleted, clipEnd_eq hrange hvalid, h.reading.start]
  by_cases hlt : iter.deletedOffset < (text before).deleted
  · simp only [hlt, if_true, hskipped, hslice, some_do, pure]
    refine ⟨_, rfl, ?_⟩
    cases pending with
    | none => rfl
    | some change => simp only [extend, ← (h.reading.pending_end change rfl).2]
  · have heq : iter.deletedOffset = (text before).deleted := by omega
    simp only [heq, lt_irrefl, if_false, hslice, some_do, pure]
    refine ⟨_, rfl, ?_⟩
    cases pending with
    | none => rfl
    | some change => simp only [extend, ← (h.reading.pending_end change rfl).2]

theorem CaughtUp.visitInserted (hvisible : f.visible = true) :
    ∃ pending', Edits.visitInserted cx f (text (before ++ [f])).visible pending
        iter = some (some pending',
          { iter with
            visibleOffset := (text (before ++ [f])).visible
            newEnd := iter.newEnd + (f.bytes byteAt).length }) ∧
      pending'.1 = extend pending iter iter.oldEnd (iter.newEnd + (f.bytes byteAt).length) := by
  have hvalid : f.Valid := htexts.valid f (by simp [hsplit])
  have hslice := slice_visible_fragment htexts hsplit hvisible
  rw [Edits.visitInserted, clipEnd_eq hrange hvalid, h.visibleOffset]
  simp only [hslice, some_do, pure]
  refine ⟨_, rfl, ?_⟩
  cases pending with
  | none => rfl
  | some change => simp only [extend, ← (h.reading.pending_end change rfl).1]

/-- Visiting a changed fragment keeps the invariant. -/
theorem CaughtUp.visit : ∃ pending' iter', Edits.visit cx f (text (before ++ [f])) pending iter =
        some (pending', iter') ∧
      Reading byteAt cx (before ++ [f]) edits pending'
        { iter' with start := text (before ++ [f]) } := by
  have hstart := h.reading.start
  obtain ⟨-, hdeleted_le⟩ := text_le_concat before f
  unfold Edits.visit
  cases hwas : f.wasVisible cx.since cx.snapshot.undoMap with
  | false =>
    have hold : oldBytes byteAt (cx.snapshot.wasVisibleAt cx.since) (before ++ [f]) =
        oldBytes byteAt (cx.snapshot.wasVisibleAt cx.since) before ++ [] := by
      rw [oldBytes_append, oldBytes_singleton, if_neg (by simp [hwas])]
    cases hvisible : f.visible with
    | true =>
      have hnew := @visibleBytes_concat byteAt before f
      rw [if_pos hvisible] at hnew
      obtain ⟨pending', heq, hpending'⟩ := h.visitInserted htexts hrange hsplit hvisible
      simp only [Bool.not_false, Bool.and_self, if_true, heq]
      exact ⟨_, _, rfl, h.change hold hnew (by simp [hwas, hvisible]) rfl rfl
        (h.reading.deleted_le.trans hdeleted_le) rfl rfl hpending'⟩
    | false =>
      refine ⟨pending, iter, by simp [pure], ?_⟩
      have := h.reading.skip (f := f) (by simp [hwas, hvisible])
      rwa [hstart, text_concat] at this
  | true =>
    have hold : oldBytes byteAt (cx.snapshot.wasVisibleAt cx.since) (before ++ [f]) =
        oldBytes byteAt (cx.snapshot.wasVisibleAt cx.since) before ++ f.bytes byteAt := by
      rw [oldBytes_append, oldBytes_singleton, if_pos hwas]
    cases hvisible : f.visible with
    | true =>
      refine ⟨pending, iter, by simp [pure], ?_⟩
      have := h.reading.skip (f := f) (by simp [hwas, hvisible])
      rwa [hstart, text_concat] at this
    | false =>
      have hnew := @visibleBytes_concat byteAt before f
      rw [if_neg (by simp [hvisible])] at hnew
      obtain ⟨pending', heq, hpending'⟩ := h.visitDeleted htexts hrange hsplit hvisible
      simp only [Bool.not_true, Bool.false_and, Bool.false_eq_true, if_false, Bool.true_and,
        Bool.not_false, if_true, heq]
      exact ⟨_, _, rfl, h.change hold hnew (by simp [hwas, hvisible]) rfl
        (h.visibleOffset.trans (visible_text_concat hvisible).symm) (Nat.le_refl _) rfl rfl
        hpending'⟩

end Visit

/-- What all yielded edits together say. -/
structure Collected (byteAt : ByteId → UInt8) (cx : EditsContext) (edits : List AnchoredEdit) :
    Prop where
  turns : Patch.Turns 0 0 (edits.map Prod.fst)
    (oldBytes byteAt (cx.snapshot.wasVisibleAt cx.since) cx.snapshot.fragments)
    cx.snapshot.visibleText
  separated : Patch.Separated (edits.map Prod.fst)
  nil_iff : edits = [] ↔
    ∀ f ∈ cx.snapshot.fragments, cx.snapshot.wasVisibleAt cx.since f = f.visible

/-- At the end the text that was not visited is the same in both texts. -/
theorem Reading.collected (h : Reading byteAt cx cx.snapshot.fragments edits pending iter)
    (htexts : cx.snapshot.TextsValid byteAt) : Collected byteAt cx (edits ++ pending.toList) := by
  obtain ⟨old, -, hold, hturns⟩ := h.turns
  refine ⟨?_, h.separated, h.nil_iff⟩
  have hsame := hturns.same
    ((visibleBytes byteAt (atomsOf cx.snapshot.fragments)).drop iter.visibleOffset)
  rwa [hold, take_append_drop, ← htexts.visibleText] at hsame

section Loop

variable (htexts : cx.snapshot.TextsValid byteAt) (hrange : FullRange cx)
  (hsame : ∀ f ∈ cx.snapshot.fragments, f.changedAfter cx.since = false →
    cx.snapshot.wasVisibleAt cx.since f = f.visible)
include htexts hrange hsame

/-- The loop of `Edits::next` ends behind the last fragment, or in front of a fragment with
unchanged text before it.  In the second case it has consumed a fragment since the edit it
yields was begun. -/
theorem Reading.nextFrom (h : Reading byteAt cx before edits pending iter)
    (hsplit : cx.snapshot.fragments = before ++ rest) :
    ∃ pending' iter', Edits.nextFrom cx rest pending iter = some (pending', iter') ∧
      ((iter'.fragments = [] ∧ Reading byteAt cx cx.snapshot.fragments edits pending' iter') ∨
        ∃ change before' rest', pending' = some change ∧ iter'.fragments = rest' ∧
          cx.snapshot.fragments = before' ++ rest' ∧
          rest'.length + (if pending.isNone then 1 else 0) ≤ rest.length ∧
          Reading byteAt cx before' (edits ++ [change]) none iter') := by
  induction rest generalizing before pending iter with
  | nil =>
    rw [append_nil] at hsplit
    refine ⟨pending, { iter with fragments := [] }, rfl, Or.inl ⟨rfl, ?_⟩⟩
    rw [hsplit]
    exact { h with }
  | cons f rest ih =>
    have hsplit' : cx.snapshot.fragments = (before ++ [f]) ++ rest := by simp [hsplit]
    have hmem : f ∈ cx.snapshot.fragments := by simp [hsplit]
    have hvalid := htexts.valid f hmem
    have hafter : ¬ f.id < cx.rangeStart.fragmentId := by
      rw [hrange.rangeStart]
      exact lt_asymm hvalid.min_lt
    have hbefore : ¬ cx.rangeEnd.fragmentId < f.id := by
      rw [hrange.rangeEnd]
      exact lt_asymm hvalid.lt_max
    rw [Edits.nextFrom]
    simp only [hafter, decide_false, Bool.or_false, hbefore, if_false, Bool.not_eq_true']
    by_cases hchanged : f.changedAfter cx.since = false
    · rw [if_pos hchanged]
      obtain ⟨pending', iter', heq, hcases⟩ := ih (h.skip (hsame f hmem hchanged)) hsplit'
      refine ⟨pending', iter', heq, hcases.imp_right ?_⟩
      rintro ⟨change, before', rest', hpending, hfragments, hsplit, hlength, hreading⟩
      exact ⟨change, before', rest', hpending, hfragments, hsplit,
        hlength.trans (Nat.le_succ _), hreading⟩
    · rw [if_neg hchanged]
      obtain ⟨caught, hcatchUp, hcaught⟩ := h.catchUp htexts hsplit
      simp only [hcatchUp, some_do]
      split at hcaught
      · -- Unchanged text was passed: the pending edit is complete.
        rename_i hany
        rw [if_pos hany]
        obtain ⟨change, rfl⟩ : ∃ change, pending = some change := by
          cases pending with
          | none => simp at hany
          | some change => exact ⟨change, rfl⟩
        refine ⟨_, _, rfl, Or.inr ⟨change, before, f :: rest, rfl, rfl, hsplit, by simp, ?_⟩⟩
        exact { hcaught.reading with }
      · rename_i hany
        rw [if_neg hany]
        have hstop : textDimension.addSummary iter.start f.summary =
            text (before ++ [f]) := by rw [h.start, text_concat]
        obtain ⟨pending₁, iter₁, hvisit, hreading⟩ := hcaught.visit htexts hrange hsplit
        simp only [hstop, hvisit]
        obtain ⟨pending', iter', heq, hcases⟩ := ih hreading hsplit'
        refine ⟨pending', iter', heq, hcases.imp_right ?_⟩
        rintro ⟨change, before', rest', hpending, hfragments, hsplit, hlength, hreading⟩
        refine ⟨change, before', rest', hpending, hfragments, hsplit, ?_, hreading⟩
        rw [length_cons]
        split <;> omega

/-- The iterator yields all edits, whatever it has yielded before. -/
theorem Reading.collect {fuel : Nat} (h : Reading byteAt cx before edits none iter)
    (hfragments : iter.fragments = rest) (hsplit : cx.snapshot.fragments = before ++ rest)
    (hfuel : rest.length < fuel) : ∃ result, Edits.collect cx fuel iter = some result ∧
      Collected byteAt cx (edits ++ result) := by
  induction fuel generalizing before rest edits iter with
  | zero => omega
  | succ fuel ih =>
    obtain ⟨pending', iter', hnext, hcases⟩ := h.nextFrom htexts hrange hsame hsplit
    have hnext' : Edits.next cx iter = some (pending', iter') := by
      rw [Edits.next, hfragments, hnext]
    rw [Edits.collect, hnext']
    rcases hcases with ⟨hend, hreading⟩ | ⟨change, before', rest', rfl, hrest, hsplit',
      hlength, hreading⟩
    · cases pending' with
      | none => exact ⟨[], rfl, hreading.collected htexts⟩
      | some change =>
        -- The next call finds no fragments.
        have hlast : Edits.collect cx fuel iter' = some [] := by
          cases fuel with
          | zero => rfl
          | succ fuel => simp [Edits.collect, Edits.next, hend, Edits.nextFrom, pure]
        refine ⟨[change], ?_, hreading.collected htexts⟩
        simp [hlast, pure]
    · simp only [Option.isNone_none, if_true] at hlength
      obtain ⟨result, hresult, hcollected⟩ := ih hreading hrest hsplit' (by omega)
      refine ⟨change :: result, ?_, ?_⟩
      · simp [hresult, pure]
      · simpa using hcollected

end Loop

/-- The iterator over all edits since a version. -/
def fullContext (snapshot : BufferSnapshot) (since : Global) : EditsContext where
  snapshot
  since
  rangeStart := { fragmentId := Locator.min, offset := 0 }
  rangeEnd := { fragmentId := Locator.max, offset := 2 ^ 32 - 1 }

/-- The iterator before the first call. -/
def atStart (snapshot : BufferSnapshot) : Edits where
  visibleOffset := 0
  deletedOffset := 0
  start := textDimension.zero
  fragments := snapshot.fragments
  oldEnd := 0
  newEnd := 0

theorem reading_atStart (byteAt : ByteId → UInt8) (snapshot : BufferSnapshot) (since : Global) :
    Reading byteAt (fullContext snapshot since) [] [] none (atStart snapshot) where
  start := rfl
  newEnd := rfl
  visible_le := Nat.le_refl _
  deleted_le := Nat.le_refl _
  turns := ⟨[], rfl, rfl, rfl⟩
  pending_end := by simp
  separated := List.Pairwise.nil
  yielded_lt := by simp
  nil_iff := by simp

end Edits

namespace World.Consistent

variable {W : World} {snapshot : BufferSnapshot} {applied : List Operation} {v : Global}

variable (h : W.Consistent snapshot applied)
include h

/-- The text of an insertion begins with its first byte, so the first fragment of a
snapshot begins its insertion. -/
theorem insertionOffset_first (hW : W.Valid) {f : Fragment} {rest : List Fragment}
    (hfragments : snapshot.fragments = f :: rest) : f.insertionOffset = 0 := by
  have htiles := h.tiles hW f.timestamp
  rw [hfragments, filter_cons, if_pos (by simp)] at htiles
  exact htiles.1

theorem findFragment_min :
    snapshot.findFragment Locator.min = ListCursor.ofList snapshot.fragments := by
  have hnone : KeyedList.takeBelow Fragment.id Locator.min snapshot.fragments = [] ∧
      KeyedList.seekFrom Fragment.id Locator.min snapshot.fragments = snapshot.fragments :=
    @KeyedList.span_append _ [] _ _ (by simp) fun f hf =>
      decide_eq_false_iff_not.mpr (lt_asymm (h.indexed.valid f hf).min_lt)
  rw [BufferSnapshot.findFragment, slice_locator]
  exact congrArg₂ ListCursor.mk hnone.1 hnone.2

theorem anchoredEditsSinceInRange_eq (hW : W.Valid) (hne : v ≠ snapshot.version) :
    snapshot.anchoredEditsSinceInRange v (Anchor.minForBuffer snapshot.remoteId)
        (Anchor.maxForBuffer snapshot.remoteId) =
      Edits.collect (Edits.fullContext snapshot v) (snapshot.fragments.length + 1)
        (Edits.atStart snapshot) := by
  have hmin : snapshot.fragmentIdForAnchor (Anchor.minForBuffer snapshot.remoteId) =
      some Locator.min := rfl
  have hmax : snapshot.fragmentIdForAnchor (Anchor.maxForBuffer snapshot.remoteId) =
      some Locator.max := rfl
  rw [BufferSnapshot.anchoredEditsSinceInRange, if_neg hne, hmin, hmax, Edits.atStart]
  simp only [some_do, h.findFragment_min]
  cases hfragments : snapshot.fragments with
  | nil => rfl
  | cons f rest =>
    have hfirst := h.insertionOffset_first hW hfragments
    have hovershoot : checkedSub (Anchor.minForBuffer snapshot.remoteId).offset
        f.insertionOffset = some 0 := by
      rw [hfirst]
      rfl
    simp only [ListCursor.ofList, ListCursor.item, head?_cons, hovershoot]
    cases f.visible <;> rfl

/-- The edits since a version that the snapshot has observed. -/
theorem exists_editsSince (hW : W.Valid) (hv : snapshot.version.observedAll v = true) :
    ∃ edits, snapshot.editsSince v = some edits ∧ Patch.Separated edits ∧
      Patch.Turns 0 0 edits ((W.visibleAt v).map W.byteAt) snapshot.visibleText ∧
      (edits = [] ↔ snapshot.hasEditsSince v = false) := by
  by_cases hversion : v = snapshot.version
  · refine ⟨[], ?_, List.Pairwise.nil, ?_, ?_⟩
    · simp [BufferSnapshot.editsSince, BufferSnapshot.anchoredEditsSinceInRange, hversion, pure]
    · rw [hversion]
      exact (h.visibleText_eq hW).symm
    · simp [BufferSnapshot.hasEditsSince, hversion]
  · have hsame : ∀ f ∈ snapshot.fragments, f.changedAfter v = false →
        snapshot.wasVisibleAt v f = f.visible := fun f hf => h.wasVisible_eq_visible hf
    obtain ⟨result, hresult, hcollected⟩ :=
      (Edits.reading_atStart W.byteAt snapshot v).collect h.texts ⟨rfl, rfl⟩ hsame rfl
        (nil_append _).symm (Nat.lt_succ_self _)
    replace hresult := (h.anchoredEditsSinceInRange_eq hW hversion).trans hresult
    refine ⟨result.map Prod.fst, ?_, hcollected.separated, ?_, ?_⟩
    · rw [BufferSnapshot.editsSince, hresult]
      rfl
    · rw [← h.oldBytes_eq hW hv]
      exact hcollected.turns
    · rw [map_eq_nil_iff]
      refine hcollected.nil_iff.trans ?_
      simp only [BufferSnapshot.hasEditsSince, hversion, if_false, any_eq_false,
        Bool.and_eq_true, bne_iff_ne, ne_eq, not_and, not_not]
      refine forall₂_congr fun f hf => ⟨fun heq _ => heq, fun heq => ?_⟩
      cases hchanged : f.changedAfter v with
      | false => exact hsame f hf hchanged
      | true => exact heq hchanged

end World.Consistent

namespace Network

variable {remoteId : Nat} {baseText : List Char} {N : Network} {past : List Network}

/-- The edits since a version that some replica had are a patch from its text to the
present one. -/
theorem Run.editsSince_turns (h : Run remoteId baseText (N :: past)) {now earlier : Network}
    (hnow : now ∈ N :: past) (hearlier : earlier ∈ N :: past) (i j : Nat)
    (hobserved : (now.buffers i).version.observedAll (earlier.buffers j).version = true) :
    ∃ edits, (now.buffers i).snapshot.editsSince (earlier.buffers j).version = some edits ∧
      (∀ edit ∈ edits, edit.oldStart ≤ edit.oldEnd ∧ edit.newStart ≤ edit.newEnd) ∧
      Patch.Separated edits ∧
      Patch.substitute (earlier.buffers j).snapshot.visibleText
        (now.buffers i).snapshot.visibleText 0 edits = (now.buffers i).snapshot.visibleText ∧
      (edits = [] ↔
        (now.buffers i).snapshot.hasEditsSince (earlier.buffers j).version = false) := by
  obtain ⟨W, hW⟩ := h.exists_world
  have hi := hW.consistent now hnow i
  have hj := hW.consistent earlier hearlier j
  obtain ⟨edits, hedits, hseparated, hturns, hnil⟩ := hi.exists_editsSince hW.valid hobserved
  have hold := hj.visibleText_eq hW.valid
  change _ = (W.visibleAt (earlier.buffers j).version).map W.byteAt at hold
  rw [← hold] at hturns
  refine ⟨edits, hedits, fun edit hedit => ?_, hseparated, ?_, hnil⟩
  · have := hturns.le_length hedit
    exact ⟨this.2.1, this.2.2.2.2.1⟩
  · exact @Patch.Turns.substitute_eq edits _ _ [] [] hturns

/-- The edits since the base text, in which a byte of the base text was deleted. -/
theorem editsSince_insertDeleteUndo : ∃ N past edits, Run 1 ['a', 'c'] (N :: past) ∧
      (N.buffers 1).snapshot.editsSince (N.buffers 3).version = some edits ∧ edits ≠ [] ∧
      Patch.substitute (N.buffers 3).snapshot.visibleText (N.buffers 1).snapshot.visibleText 0
        edits = (N.buffers 1).snapshot.visibleText := by
  obtain ⟨N, past, hrun, hhas, hobserved⟩ := exists_run_of_script 1 ['a', 'c'] (fun _ => rfl)
    insertDeleteUndo
    (fun N => (N.buffers 1).snapshot.hasEditsSince (N.buffers 3).version = true ∧
      (N.buffers 1).version.observedAll (N.buffers 3).version = true)
    ⟨_, _, rfl, by decide +kernel⟩
  obtain ⟨edits, hedits, -, -, hsubstitute, hnil⟩ := hrun.editsSince_turns mem_cons_self
    mem_cons_self 1 3 hobserved
  refine ⟨N, past, edits, hrun, hedits, fun heq => ?_, hsubstitute⟩
  rw [hnil.mp heq] at hhas
  exact Bool.false_ne_true hhas

end Network

end XorEditor.Text
