import XorEditor.Text.Replica

/-!
# New buffers

`Buffer::new` cuts the base text into fragments of an insertion that belongs to no
operation.  All replicas that start from one base text agree with the world that consists
of that text only.

* `initial`: the world of a base text
* `exists_initial_world`: every new replica agrees with it
-/

namespace XorEditor.Text

open Clock Lib List

section BaseFragments

theorem lt_baseChunkEnd (text : List Char) {textOffset : Nat}
    (h : textOffset < (utf8 text).length) :
    textOffset < Buffer.baseChunkEnd (utf8 text) textOffset ∧
      Buffer.baseChunkEnd (utf8 text) textOffset ≤ (utf8 text).length := by
  have hmax : 3 < maxInsertionLen := by decide
  unfold Buffer.baseChunkEnd
  simp only
  split
  · omega
  · have hle := Rope.floorCharBoundary_le (utf8 text)
      (min (utf8 text).length (textOffset + maxInsertionLen))
    have hge := Rope.le_floorCharBoundary_add text
      (min (utf8 text).length (textOffset + maxInsertionLen)) (by omega)
    omega

/-- The fragments of a base text from an offset on. -/
structure BaseFragments (timestamp : Lamport) (textOffset len : Nat) (prevLocator : Locator)
    (fragments : List Fragment) : Prop where
  atoms : atomsOf fragments = insertedAtoms timestamp textOffset len
  valid : ∀ f ∈ fragments, f.Valid
  locators : fragments.Pairwise fun f g => f.id < g.id
  prev_lt : ∀ f ∈ fragments, prevLocator < f.id
  offsets : fragments.Pairwise fun f g => f.insertionOffset < g.insertionOffset
  offset_le : ∀ f ∈ fragments, textOffset ≤ f.insertionOffset
  fresh : ∀ f ∈ fragments, f.timestamp = timestamp ∧ f.deletions = []

theorem BaseFragments.nil (timestamp : Lamport) (textOffset : Nat) (prevLocator : Locator) :
    BaseFragments timestamp textOffset 0 prevLocator [] :=
  ⟨rfl, by simp, List.Pairwise.nil, by simp, List.Pairwise.nil, by simp, by simp⟩

theorem BaseFragments.cons {timestamp : Lamport} {textOffset chunkLen len : Nat}
    {prevLocator id : Locator} {rest : List Fragment}
    (h : BaseFragments timestamp (textOffset + chunkLen) len id rest) (hprev : prevLocator < id)
    (hvalid : Fragment.Valid
      { id, timestamp, insertionOffset := textOffset, len := chunkLen, visible := true,
        deletions := [], maxUndos := Global.new }) :
    BaseFragments timestamp textOffset (chunkLen + len) prevLocator
      ({ id, timestamp, insertionOffset := textOffset, len := chunkLen, visible := true,
         deletions := [], maxUndos := Global.new } :: rest) where
  atoms := by
    rw [atomsOf_cons, h.atoms, insertedAtoms_add]
    rfl
  valid := forall_mem_cons.mpr ⟨hvalid, h.valid⟩
  locators := pairwise_cons.mpr ⟨h.prev_lt, h.locators⟩
  prev_lt := forall_mem_cons.mpr ⟨hprev, fun f hf => lt_trans hprev (h.prev_lt f hf)⟩
  offsets := by
    refine pairwise_cons.mpr ⟨fun f hf => ?_, h.offsets⟩
    have hle := h.offset_le f hf
    have hpos := hvalid.len_pos
    simp only at hpos ⊢
    omega
  offset_le := forall_mem_cons.mpr
    ⟨Nat.le_refl _, fun f hf => Nat.le_trans (Nat.le_add_right _ _) (h.offset_le f hf)⟩
  fresh := forall_mem_cons.mpr ⟨⟨rfl, rfl⟩, h.fresh⟩

theorem baseFragments_spec (text : List Char) (timestamp : Lamport) {fuel textOffset : Nat}
    {prevLocator : Locator} {fragments : List Fragment}
    (hfuel : (utf8 text).length ≤ textOffset + fuel) (hprev : Locator.min ≤ prevLocator)
    (hmax : prevLocator < Locator.max)
    (hsome : Buffer.baseFragments (utf8 text) timestamp fuel textOffset textOffset prevLocator =
      some fragments) :
    BaseFragments timestamp textOffset ((utf8 text).length - textOffset) prevLocator
      fragments := by
  induction fuel generalizing textOffset prevLocator fragments with
  | zero =>
    obtain rfl : fragments = [] := by simpa [Buffer.baseFragments] using hsome.symm
    rw [Nat.sub_eq_zero_of_le (show (utf8 text).length ≤ textOffset from hfuel)]
    exact BaseFragments.nil _ _ _
  | succ fuel ih =>
    simp only [Buffer.baseFragments] at hsome
    split at hsome
    · rename_i hlt
      obtain ⟨hstart, hstop⟩ := lt_baseChunkEnd text hlt
      generalize Buffer.baseChunkEnd (utf8 text) textOffset = stop at hsome hstart hstop
      obtain ⟨chunkLen, rfl⟩ := Nat.exists_eq_add_of_lt hstart
      have hid := Locator.lt_between prevLocator Locator.max
      have hidMax := Locator.between_lt hmax Locator.max_endsNonzero
      have hchunk : textOffset + chunkLen + 1 - textOffset = chunkLen + 1 := by omega
      rw [hchunk] at hsome
      split at hsome
      · rename_i hoffset
        simp only [do_eq_some] at hsome
        obtain ⟨rest, hrest, heq⟩ := hsome
        obtain rfl := Option.some.inj heq
        have hspec := ih (by omega) (le_of_lt (lt_of_le_of_lt hprev hid)) hidMax hrest
        have hlen : (utf8 text).length - textOffset =
            chunkLen + 1 + ((utf8 text).length - (textOffset + chunkLen + 1)) := by omega
        rw [hlen]
        exact BaseFragments.cons hspec hid ⟨Nat.succ_pos _, hoffset, lt_of_le_of_lt hprev hid,
          hidMax, Locator.between_endsNonzero _ _⟩
      · simp at hsome
    · rename_i hge
      obtain rfl : fragments = [] := by simpa using hsome.symm
      rw [Nat.sub_eq_zero_of_le (Nat.le_of_not_lt hge)]
      exact BaseFragments.nil _ _ _

end BaseFragments

variable {base : Rope} {parent : ByteId → Option ByteId}

namespace World

/-- The world that consists of a base text. -/
def initial (base : Rope) (parent : ByteId → Option ByteId) : World where
  base := base
  operations := []
  sequence := (List.range base.length).map fun offset => (baseTimestamp, offset)
  parent := parent
  deletes := fun _ _ => False

theorem insertedText_initial (t : Lamport) :
    (initial base parent).insertedText t = if t = baseTimestamp then base else [] := rfl

theorem valid_initial
    (hparents : RangeEdit.RunParents parent none (initial base parent).baseBytes) :
    (initial base parent).Valid where
  timestamps := nodup_nil
  value_ge := by simp [initial]
  value_lt := by simp [initial]
  version_lt := by simp [initial]
  version_base := by simp [initial]
  version_closed := by simp [initial]
  version_witnessed := by simp [initial]
  version_own := by simp [initial]
  mem_sequence := by
    rintro ⟨t, offset⟩
    rw [insertedText_initial]
    simp only [initial, mem_map, mem_range, Prod.mk.injEq]
    constructor
    · rintro ⟨offset', hlt, rfl, rfl⟩
      simpa using hlt
    · intro hlt
      split at hlt
      · rename_i heq
        exact ⟨offset, hlt, heq.symm, rfl⟩
      · simp at hlt
  ordered := by
    simp only [initial, pairwise_map]
    exact pairwise_lt_range.imp fun hlt _ => hlt
  wf := hparents.wf ByteId.priority (nodup_bytes _ _)
  base_parents := hparents
  edit_valid := by simp [initial]
  undo_valid := by simp [initial]

end World

section New

variable {replicaId remoteId : Nat} {baseText : List Char} {b : Buffer}

/-- The base text as it is stored. -/
def baseRope (baseText : List Char) : Rope := utf8 (LineEnding.normalize baseText)

/-- What `Buffer::new` returns. -/
structure NewBuffer (replicaId : Nat) (base : Rope) (b : Buffer) : Prop where
  fragments : BaseFragments baseTimestamp 0 base.length Locator.min b.snapshot.fragments
  visibleText : b.snapshot.visibleText = base
  deletedText : b.snapshot.deletedText = []
  insertions : b.snapshot.insertions = b.snapshot.fragments.map InsertionFragment.new
  insertionSlices : b.snapshot.insertionSlices = []
  undoMap : b.snapshot.undoMap = []
  version : b.snapshot.version =
    if base.isEmpty then Global.new else Global.new.observe baseTimestamp
  history : b.history = History.new base
  deferredOps : b.deferredOps = []
  clock : b.lamportClock = { value := if base.isEmpty then 1 else 2, replicaId }
  applied : b.applied = []

theorem newNormalized_spec {text : List Char}
    (hnew : Buffer.newNormalized replicaId remoteId (utf8 text) = some b) :
    NewBuffer replicaId (utf8 text) b := by
  unfold Buffer.newNormalized at hnew
  simp only at hnew
  split at hnew
  · rename_i hempty
    obtain rfl := Option.some.inj hnew
    have hnil : utf8 text = [] := isEmpty_iff.mp hempty
    rw [hnil]
    exact ⟨BaseFragments.nil _ _ _, rfl, rfl, rfl, rfl, rfl, rfl, rfl, rfl, rfl, rfl⟩
  · rename_i hempty
    simp only [do_eq_some] at hnew
    obtain ⟨clock, hclock, fragments, hfragments, _, heq, hb⟩ := hnew
    obtain rfl := Option.some.inj heq
    obtain rfl := Option.some.inj hb
    obtain ⟨-, rfl⟩ := Lamport.observe_eq_some.mp hclock
    have hspec := baseFragments_spec text _ (by omega) (le_refl _) Locator.min_lt_max hfragments
    have hfalse : (utf8 text).isEmpty = false := Bool.not_eq_true _ ▸ hempty
    exact ⟨hspec, rfl, rfl, rfl, rfl, rfl, by rw [hfalse]; rfl, rfl, rfl, by rw [hfalse]; rfl, rfl⟩

theorem new_spec (hnew : Buffer.new replicaId remoteId baseText = some b) :
    NewBuffer replicaId (baseRope baseText) b := newNormalized_spec hnew

namespace NewBuffer

section Opened

variable (h : NewBuffer replicaId base b)
include h

theorem mem_atoms {a : Atom} (ha : a ∈ atomsOf b.snapshot.fragments) :
    a.visible = true ∧ a.deletions = [] := by
  rw [h.fragments.atoms] at ha
  obtain ⟨i, -, rfl⟩ := mem_map.mp ha
  exact ⟨rfl, rfl⟩

theorem ids : (atomsOf b.snapshot.fragments).map Atom.id =
      (List.range base.length).map fun offset => (baseTimestamp, offset) := by
  rw [h.fragments.atoms, World.map_id_insertedAtoms]
  simp

theorem indexed : b.snapshot.Indexed baseTimestamp where
  valid := h.fragments.valid
  ids := h.fragments.locators
  distinct := by
    rw [DistinctBytes, h.ids]
    exact World.nodup_bytes _ _
  insertions_ordered := by
    rw [h.insertions, KeyedList.Ordered, pairwise_map]
    refine h.fragments.offsets.imp_of_mem fun {f g} hf hg hlt => ?_
    rw [InsertionFragment.key, InsertionFragment.key, Prod.Lex.toLex_lt_toLex]
    exact Or.inr ⟨by
      simp only [InsertionFragment.new, (h.fragments.fresh f hf).1, (h.fragments.fresh g hg).1],
      hlt⟩
  mem_insertions := by
    intro entry
    rw [h.insertions, mem_map]
  slices_ordered := by
    rw [h.insertionSlices]
    exact List.Pairwise.nil
  slice_known := by simp [h.insertionSlices]
  slice_sound := by simp [h.insertionSlices]
  slice_complete := by
    intro f hf editId htouched hne
    obtain ⟨htimestamp, hdeletions⟩ := h.fragments.fresh f hf
    rw [Fragment.TouchedBy, htimestamp, hdeletions] at htouched
    exact absurd (htouched.resolve_right (by simp)).symm hne

theorem texts : b.snapshot.TextsValid (World.initial base parent).byteAt where
  valid := h.fragments.valid
  ids := h.fragments.locators
  visibleText := by
    rw [h.visibleText, h.fragments.atoms, EditState.visibleBytes_insertedAtoms]
    exact (bytesMatch_getD base baseTimestamp fun i => rfl).symm
  deletedText := by
    rw [h.deletedText, h.fragments.atoms, EditState.deletedBytes_insertedAtoms]

/-- A new buffer agrees with the world of its base text. -/
theorem consistent : (World.initial base parent).Consistent b.snapshot b.applied where
  log := by
    have hversion : b.snapshot.version = (World.initial base parent).baseVersion := h.version
    rw [hversion, h.applied]
    exact World.Log.nil _
  ids := by
    rw [h.ids, World.observedBytes, filter_eq_self.mpr]
    · rfl
    · intro byte hbyte
      have hversion : b.snapshot.version = (World.initial base parent).baseVersion := h.version
      rw [hversion]
      exact World.observed_base (Global.observedAll_self _) hbyte
  mem_deletions := by
    intro a ha d
    rw [(h.mem_atoms ha).2, h.applied]
    simp
  deletions_nodup := by
    intro a ha
    rw [(h.mem_atoms ha).2]
    exact nodup_nil
  undo_ordered := by
    rw [h.undoMap]
    exact List.Pairwise.nil
  mem_undoMap := by simp [h.undoMap, h.applied]
  visible := by
    intro a ha
    obtain ⟨hvisible, hdeletions⟩ := h.mem_atoms ha
    rw [hvisible, Atom.isVisible, hdeletions, h.undoMap]
    rfl
  maxUndos := by simp [h.applied]
  indexed := h.indexed
  texts := h.texts

/-- A new buffer is a replica of the world of its base text. -/
theorem replica : (World.initial base parent).Replica replicaId b where
  consistent := h.consistent
  clock := by rw [h.clock]
  version_lt := by
    intro r
    rw [Buffer.version, h.version, h.clock]
    split
    · simp
    · rw [Global.get_observe]
      split <;> simp [baseTimestamp, Lamport.new]
  own := by simp [World.initial]
  history := by
    rw [h.history]
    simp [History.EditsIn, History.new]
  started := by
    rw [h.history]
    exact Or.inl ⟨rfl, rfl, rfl⟩
  queue := by
    rw [h.deferredOps]
    exact World.Queue.nil _

end Opened

end NewBuffer

/-- All buffers made from one base text are replicas of one valid world. -/
theorem exists_initial_world (baseText : List Char) :
    ∃ W : World, W.Valid ∧ W.operations = [] ∧ W.base = baseRope baseText ∧
      ∀ replicaId remoteId b, Buffer.new replicaId remoteId baseText = some b →
        W.Replica replicaId b := by
  obtain ⟨parent, hparents, -⟩ := RangeEdit.exists_runParents_run (fun _ => none) none
    (World.nodup_bytes baseTimestamp (baseRope baseText).length)
  exact ⟨World.initial (baseRope baseText) parent, World.valid_initial hparents, rfl, rfl,
    fun replicaId remoteId b hnew => (new_spec hnew).replica⟩

end New

end XorEditor.Text
