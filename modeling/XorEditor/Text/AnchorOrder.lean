import XorEditor.Text.EditsSince

/-!
# The order of anchors

An anchor belongs to one byte: an anchor with a right bias to the byte behind it, one with
a left bias to the byte in front of it.  `try_find_fragment` finds the fragment that holds
this byte, however the insertion happens to be split.  Fragments are ordered like their
bytes in the sequence of the world, so `Anchor::cmp` compares the places of the bytes in
that sequence, then the offsets and then the biases: a key that no snapshot has a say in.

`offset_for_anchor` counts the visible bytes in front of the gap that the anchor points
to, and the order of the anchors is compatible with the order of the gaps.

* `anchorRank`, `anchorGap`: the byte and the gap of an anchor
* `Run.anchors_ordered`: all snapshots order anchors alike
-/

namespace XorEditor.Text

open Clock Lib List FragmentBuilder

variable {W : World} {snapshot : BufferSnapshot} {applied : List Operation} {a b : Anchor}
  {f g : Fragment} {gap : Nat}

/-- The byte that an anchor belongs to.  A left anchor at the very beginning of an
insertion belongs to the first byte. -/
def Anchor.byte (self : Anchor) : ByteId :=
  match self.bias with
  | Bias.left => (self.timestamp, self.offset - 1)
  | Bias.right => (self.timestamp, self.offset)

@[simp] theorem Anchor.byte_fst (self : Anchor) : self.byte.1 = self.timestamp := by
  unfold Anchor.byte
  split <;> rfl

theorem Fragment.contains_of_mem_atoms {a : Atom} (ha : a ∈ f.atoms) : f.Contains a.id.1 a.id.2 :=
  mem_ids_atoms.mp (mem_map.mpr ⟨a, ha, rfl⟩)

namespace World

/-- The place of a byte in the sequence. -/
def rank (W : World) (byte : ByteId) : Nat := W.sequence.idxOf byte

/-- The place of the byte of an anchor. -/
def anchorRank (W : World) (a : Anchor) : Nat :=
  if a.isMin then 0 else if a.isMax then W.sequence.length + 1 else W.rank a.byte + 1

/-- The number of bytes of the sequence in front of an anchor. -/
def anchorGap (W : World) (a : Anchor) : Nat :=
  if a.isMin then 0
  else if a.isMax then W.sequence.length
  else if a.bias = Bias.left ∧ 0 < a.offset then W.rank a.byte + 1
  else W.rank a.byte

/-- An anchor at the beginning or the end of the buffer, or next to an existing byte. -/
def Anchored (W : World) (a : Anchor) : Prop :=
  a.isMin = true ∨ a.isMax = true ∨ a.byte ∈ W.sequence

/-- Ranks increase along the sequence, and so do the offsets inside an insertion. -/
theorem Valid.pairwise_rank (hW : W.Valid) :
    W.sequence.Pairwise fun x y => W.rank x < W.rank y ∧ (x.1 = y.1 → x.2 < y.2) := by
  refine List.Pairwise.and ?_ hW.ordered
  rw [pairwise_iff_getElem]
  intro i j hi hj hij
  rw [rank, rank, hW.wf.nodup.idxOf_getElem, hW.wf.nodup.idxOf_getElem]
  exact hij

variable {byte : ByteId}

theorem Valid.rank_lt_length (hbyte : byte ∈ W.sequence) :
    W.rank byte < W.sequence.length := idxOf_lt_length_of_mem hbyte

theorem rank_injective {x y : ByteId} (hx : x ∈ W.sequence) (h : W.rank x = W.rank y) : x = y :=
  (idxOf_inj hx).mp h

/-- Within an insertion the ranks are ordered like the offsets. -/
theorem Valid.rank_lt_iff (hW : W.Valid) {t : Lamport} {o o' : Nat} (hx : (t, o) ∈ W.sequence)
    (hy : (t, o') ∈ W.sequence) : W.rank (t, o) < W.rank (t, o') ↔ o < o' := by
  by_cases heq : o = o'
  · simp [heq]
  · rcases KeyedList.rel_or_rel hW.pairwise_rank hx hy fun h => heq (Prod.mk.inj h).2 with
      ⟨hrank, hoffset⟩ | ⟨hrank, hoffset⟩
    · exact iff_of_true hrank (hoffset rfl)
    · exact iff_of_false (lt_asymm hrank) (lt_asymm (hoffset rfl))

/-- The timestamps of insertions are not the ones of the two extreme anchors. -/
theorem Valid.timestamp_bounds (hW : W.Valid) (hbyte : byte ∈ W.sequence) :
    byte.1 ≠ Lamport.MIN ∧ byte.1 ≠ Lamport.MAX := by
  rcases hW.byte_cases hbyte with hbase | ⟨edit, hedit, htimestamp, -⟩
  · obtain ⟨offset, -, rfl⟩ := mem_map.mp hbase
    exact (by decide : baseTimestamp ≠ Lamport.MIN ∧ baseTimestamp ≠ Lamport.MAX)
  · have hge := hW.value_ge _ hedit
    have hlt := hW.value_lt _ hedit
    change 2 ≤ edit.timestamp.value at hge
    change edit.timestamp.value + 1 < 2 ^ 32 at hlt
    rw [← htimestamp]
    constructor
    · intro heq
      rw [heq] at hge
      exact absurd hge (by decide)
    · intro heq
      rw [heq] at hlt
      exact absurd hlt (by decide)

theorem Valid.isMin_eq_false (hW : W.Valid) {a : Anchor} (ha : a.byte ∈ W.sequence) :
    a.isMin = false ∧ a.isMax = false := by
  obtain ⟨hmin, hmax⟩ := hW.timestamp_bounds ha
  rw [Anchor.byte_fst] at hmin hmax
  simp [Anchor.isMin, Anchor.isMax, hmin, hmax]

namespace Consistent

/-- The bytes of a fragment come before the bytes of the fragments behind it. -/
theorem rank_lt_of_id_lt (hW : W.Valid) (h : W.Consistent snapshot applied)
    (hf : f ∈ snapshot.fragments) (hg : g ∈ snapshot.fragments) (hlt : f.id < g.id) {x y : ByteId}
    (hx : f.Contains x.1 x.2) (hy : g.Contains y.1 y.2) : W.rank x < W.rank y := by
  have hpairwise : ((atomsOf snapshot.fragments).map Atom.id).Pairwise
      fun x y => W.rank x < W.rank y := by
    rw [h.ids]
    exact (hW.pairwise_rank.imp And.left).filter _
  rw [atomsOf, map_flatMap, pairwise_flatMap] at hpairwise
  have hboth := hpairwise.2.and h.indexed.ids
  have hne : f ≠ g := fun heq => absurd hlt (by simp [heq])
  rcases KeyedList.rel_or_rel hboth hf hg hne with ⟨hrank, -⟩ | ⟨-, hgt⟩
  · exact hrank x (mem_ids_atoms.mpr hx) y (mem_ids_atoms.mpr hy)
  · exact absurd hgt (lt_asymm hlt)

end Consistent

end World

section Find

variable {base : Lamport}

/-- Where the seek of `try_find_fragment` stops, for an anchor with a byte in front of it or
a right bias: it passes the entries up to the one of the byte. -/
theorem passes_iff_le_byte (hside : a.bias = Bias.right ∨ 0 < a.offset)
    (entry : InsertionFragment) : passes (compare a.key entry.key) a.bias = true ↔
      entry.key ≤ toLex (a.timestamp, a.byte.2) := by
  cases hbias : a.bias with
  | right =>
    rw [passes_right_iff, Anchor.key, Anchor.byte, hbias]
  | left =>
    have hpos : 0 < a.offset := hside.resolve_left (by simp [hbias])
    rw [passes_left_iff, Anchor.key, Anchor.byte, hbias, InsertionFragment.key,
      Prod.Lex.toLex_lt_toLex, Prod.Lex.toLex_le_toLex]
    simp only
    refine or_congr_right (and_congr_right fun _ => ?_)
    omega

/-- `try_find_fragment` finds the fragment that holds the byte of an anchor. -/
theorem BufferSnapshot.Indexed.tryFindFragment_eq (h : snapshot.Indexed base)
    (hf : f ∈ snapshot.fragments) (hcontains : f.Contains a.timestamp a.byte.2) :
    snapshot.tryFindFragment a = some (InsertionFragment.new f) := by
  obtain ⟨htimestamp, hle, hlt⟩ := hcontains
  obtain ⟨before, after, hsplit, hbefore, hafter, -, hseek⟩ :=
    h.insertions_ordered.exists_seek ((h.mem_insertions _).mpr ⟨f, hf, rfl⟩)
  have hkey : (InsertionFragment.new f).key = toLex (a.timestamp, f.insertionOffset) := by
    rw [← htimestamp]
    rfl
  by_cases hside : a.bias = Bias.right ∨ 0 < a.offset
  · -- The entries behind the one of `f` begin behind the byte, or belong to a later insertion.
    have hafter' : ∀ entry ∈ after, passes (compare a.key entry.key) a.bias = false := by
      intro entry hentry
      rw [← Bool.not_eq_true, passes_iff_le_byte hside]
      intro hentry_le
      obtain ⟨g, hg, rfl⟩ := (h.mem_insertions entry).mp (by simp [hsplit, hentry])
      have hgt := hafter _ hentry
      rw [hkey] at hgt
      have heq : g.timestamp = a.timestamp :=
        le_antisymm (Prod.Lex.monotone_fst _ _ hentry_le) (Prod.Lex.monotone_fst _ _ hgt.le)
      rw [InsertionFragment.key, Prod.Lex.toLex_lt_toLex] at hgt
      have hoffsets : f.insertionOffset < g.insertionOffset ∧ g.insertionOffset ≤ a.byte.2 :=
        ⟨(hgt.resolve_left heq.le.not_gt).2, (Prod.Lex.toLex_le_toLex'.mp hentry_le).2 heq⟩
      have hshared : f.Contains g.timestamp g.insertionOffset :=
        ⟨htimestamp.trans heq.symm, by omega, by omega⟩
      have hsame : f = g := h.distinct.eq_of_contains hf hg hshared
        (Fragment.contains_start (h.valid g hg))
      rw [hsame] at hoffsets
      exact absurd hoffsets.1 (lt_irrefl _)
    have hbefore' : ∀ entry ∈ before ++ [InsertionFragment.new f],
        passes (compare a.key entry.key) a.bias = true := by
      have hbyte : (InsertionFragment.new f).key ≤ toLex (a.timestamp, a.byte.2) := by
        rw [hkey]
        exact Prod.Lex.toLex_mono ⟨le_rfl, hle⟩
      intro entry hentry
      rw [passes_iff_le_byte hside]
      rcases mem_append.mp hentry with hentry | hentry
      · exact (le_of_lt (hbefore entry hentry)).trans hbyte
      · rwa [mem_singleton.mp hentry]
    obtain ⟨hpassed, hrest⟩ := KeyedList.span_append hbefore' hafter'
    have hinsertions : snapshot.insertions = before ++ [InsertionFragment.new f] ++ after := by
      simp [hsplit]
    rw [BufferSnapshot.tryFindFragment, ListCursor.slice_eq_span _ _ _
      (fun entry => passes (compare a.key entry.key) a.bias) fun _ _ => rfl]
    simp only [ListCursor.ofList, ListCursor.item, hinsertions, hpassed, hrest, nil_append]
    cases after with
    | nil => simp
    | cons entry after =>
      have hcond : (compare entry.key a.key == Ordering.gt ||
          (a.bias == Bias.left && compare entry.key a.key == Ordering.eq &&
            decide (0 < a.offset))) = true := by
        have hentry := hafter' entry mem_cons_self
        cases hbias : a.bias with
        | right =>
          rw [← Bool.not_eq_true, hbias, passes_right_iff, not_le] at hentry
          simp [compare_gt_iff_gt.mpr hentry]
        | left =>
          rw [← Bool.not_eq_true, hbias, passes_left_iff, not_lt] at hentry
          have hpos : 0 < a.offset := hside.resolve_left (by simp [hbias])
          rcases lt_or_eq_of_le hentry with hlt' | heq
          · simp [compare_gt_iff_gt.mpr hlt']
          · simp [compare_eq_iff_eq.mpr heq.symm, hpos]
      simp only [head?_cons, hcond, if_true]
      simp
  · -- A left anchor at offset zero names the entry itself.
    obtain ⟨hbias, hzero⟩ : a.bias = Bias.left ∧ a.offset = 0 := by
      rw [not_or] at hside
      exact ⟨by cases hb : a.bias <;> simp_all, by omega⟩
    have hbyte : a.byte.2 = 0 := by rw [Anchor.byte, hbias, hzero]
    have hkey' : (InsertionFragment.new f).key = a.key := by
      rw [hkey, Anchor.key, hzero]
      congr 2
      omega
    rw [BufferSnapshot.tryFindFragment, hbias, KeyedList.slice_eq_seekFrom _ _ fun _ entry =>
      passes_left_iff a.key entry.key, ← hkey']
    simp only [ListCursor.ofList, ListCursor.item, hseek, head?_cons]
    rw [if_neg]
    simp [hzero]

/-- The fragment with a given locator. -/
theorem BufferSnapshot.Indexed.findFragment_eq (h : snapshot.Indexed base)
    (hf : f ∈ snapshot.fragments) : ∃ before after, snapshot.fragments = before ++ f :: after ∧
      (∀ g ∈ before, g.id < f.id) ∧ (∀ g ∈ after, f.id < g.id) ∧
      snapshot.findFragment f.id = { before, rest := f :: after } := by
  obtain ⟨before, after, hsplit, hbefore, hafter, htake, hseek⟩ :=
    KeyedList.Ordered.exists_seek h.ids hf
  refine ⟨before, after, hsplit, hbefore, hafter, ?_⟩
  rw [BufferSnapshot.findFragment, slice_locator]
  exact congrArg₂ ListCursor.mk htake hseek

end Find

namespace World.Consistent

/-- The fragment that holds the byte of an anchor. -/
theorem exists_found (h : W.Consistent snapshot applied) (ha : a.byte ∈ W.sequence)
    (hobserved : snapshot.version.observed a.timestamp = true) :
    ∃ f ∈ snapshot.fragments, f.Contains a.timestamp a.byte.2 ∧
      snapshot.tryFindFragment a = some (InsertionFragment.new f) := by
  have hmem : (a.timestamp, a.byte.2) ∈ W.observedBytes snapshot.version := by
    rw [← a.byte_fst] at hobserved ⊢
    exact mem_filter.mpr ⟨ha, hobserved⟩
  rw [← h.ids] at hmem
  obtain ⟨f, hf, hcontains⟩ := mem_ids_atomsOf.mp hmem
  exact ⟨f, hf, hcontains, h.indexed.tryFindFragment_eq hf hcontains⟩

end World.Consistent

/-- The snapshot has observed the insertion that an anchor belongs to. -/
def Anchor.ObservedBy (version : Global) (a : Anchor) : Prop :=
  a.isMin = true ∨ a.isMax = true ∨ version.observed a.timestamp = true

/-- The order of `Bias`, as a number. -/
def biasRank : Bias → Nat
  | Bias.left => 0
  | Bias.right => 1

namespace World

/-- What anchors are compared by. -/
def anchorKey (W : World) (a : Anchor) : Nat ×ₗ (Nat ×ₗ Nat) :=
  toLex (W.anchorRank a, toLex (a.offset, biasRank a.bias))

/-- What the anchors of one insertion are compared by. -/
def anchorSide (a : Anchor) : Nat ×ₗ Nat := toLex (a.offset, biasRank a.bias)

theorem compare_anchorSide (a b : Anchor) : compare (anchorSide a) (anchorSide b) =
    (compare a.offset b.offset).then (compareBias a.bias b.bias) := by
  have hbias : compareBias a.bias b.bias = compare (biasRank a.bias) (biasRank b.bias) := by
    cases a.bias <;> cases b.bias <;> rfl
  rw [hbias]
  simp only [anchorSide, Prod.Lex.compare_def, compareLex, compareOn, ofLex_toLex]

theorem compare_anchorKey (W : World) (a b : Anchor) : compare (W.anchorKey a) (W.anchorKey b) =
      (compare (W.anchorRank a) (W.anchorRank b)).then
        (compare (anchorSide a) (anchorSide b)) := by
  simp only [anchorKey, Prod.Lex.compare_def, compareLex, compareOn, ofLex_toLex, anchorSide]

theorem anchorRank_of_isMin (hmin : a.isMin = true) : W.anchorRank a = 0 := by
  rw [anchorRank, if_pos hmin]

theorem timestamp_of_isMin (hmin : a.isMin = true) : a.timestamp = Lamport.MIN := by
  simp only [Anchor.isMin, Bool.and_eq_true, decide_eq_true_eq] at hmin
  exact hmin.1.1

theorem timestamp_of_isMax (hmax : a.isMax = true) : a.timestamp = Lamport.MAX := by
  simp only [Anchor.isMax, Bool.and_eq_true, decide_eq_true_eq] at hmax
  exact hmax.1.1

theorem isMin_eq_false_of_isMax (hmax : a.isMax = true) : a.isMin = false := by
  have htimestamp := timestamp_of_isMax hmax
  have hne : Lamport.MAX ≠ Lamport.MIN := by decide
  simp [Anchor.isMin, htimestamp, hne]

theorem anchorRank_of_isMax (hmax : a.isMax = true) : W.anchorRank a = W.sequence.length + 1 := by
  rw [anchorRank, isMin_eq_false_of_isMax hmax, hmax]
  rfl

theorem Valid.anchorRank_eq (hW : W.Valid) (ha : a.byte ∈ W.sequence) :
    W.anchorRank a = W.rank a.byte + 1 := by
  obtain ⟨hmin, hmax⟩ := hW.isMin_eq_false ha
  rw [anchorRank, hmin, hmax]
  rfl

theorem Valid.anchorGap_eq (hW : W.Valid) (ha : a.byte ∈ W.sequence) : W.anchorGap a =
      if a.bias = Bias.left ∧ 0 < a.offset then W.rank a.byte + 1 else W.rank a.byte := by
  obtain ⟨hmin, hmax⟩ := hW.isMin_eq_false ha
  rw [anchorGap, hmin, hmax]
  rfl

/-- The timestamps and the ranks tell the extreme anchors from the others. -/
theorem Valid.anchored_cases (hW : W.Valid) (ha : W.Anchored a) :
    (a.isMin = true ∧ a.timestamp = Lamport.MIN ∧ W.anchorRank a = 0) ∨
      (a.isMax = true ∧ a.timestamp = Lamport.MAX ∧ W.anchorRank a = W.sequence.length + 1) ∨
      (a.byte ∈ W.sequence ∧ (a.timestamp ≠ Lamport.MIN ∧ a.timestamp ≠ Lamport.MAX) ∧
        W.anchorRank a = W.rank a.byte + 1 ∧ W.rank a.byte < W.sequence.length) := by
  rcases ha with hmin | hmax | hbyte
  · exact Or.inl ⟨hmin, timestamp_of_isMin hmin, anchorRank_of_isMin hmin⟩
  · exact Or.inr (Or.inl ⟨hmax, timestamp_of_isMax hmax, anchorRank_of_isMax hmax⟩)
  · exact Or.inr (Or.inr ⟨hbyte, a.byte_fst ▸ hW.timestamp_bounds hbyte, hW.anchorRank_eq hbyte,
      Valid.rank_lt_length hbyte⟩)

/-- Anchors with the same timestamp or the same rank are both extreme or both next to a
byte. -/
theorem Valid.same_kind (hW : W.Valid) (ha : W.Anchored a) (hb : W.Anchored b)
    (h : a.timestamp = b.timestamp ∨ W.anchorRank a = W.anchorRank b) :
    (a.isMin = true ∧ b.isMin = true) ∨ (a.isMax = true ∧ b.isMax = true) ∨
      (a.byte ∈ W.sequence ∧ b.byte ∈ W.sequence) := by
  have hextremes : Lamport.MIN ≠ Lamport.MAX := by decide
  rcases hW.anchored_cases ha with ha | ha | ha <;>
    rcases hW.anchored_cases hb with hb | hb | hb <;> grind

theorem Valid.byte_eq_of_anchorRank (hW : W.Valid) (ha : a.byte ∈ W.sequence)
    (hb : b.byte ∈ W.sequence) (h : W.anchorRank a = W.anchorRank b) : a.byte = b.byte := by
  rw [hW.anchorRank_eq ha, hW.anchorRank_eq hb] at h
  exact rank_injective ha (Nat.succ.inj h)

theorem Valid.timestamp_eq_of_anchorRank (hW : W.Valid) (ha : W.Anchored a) (hb : W.Anchored b)
    (h : W.anchorRank a = W.anchorRank b) : a.timestamp = b.timestamp := by
  rcases hW.same_kind ha hb (Or.inr h) with ⟨hmina, hminb⟩ | ⟨hmaxa, hmaxb⟩ | ⟨hbytea, hbyteb⟩
  · rw [timestamp_of_isMin hmina, timestamp_of_isMin hminb]
  · rw [timestamp_of_isMax hmaxa, timestamp_of_isMax hmaxb]
  · rw [← Anchor.byte_fst, hW.byte_eq_of_anchorRank hbytea hbyteb h, Anchor.byte_fst]

section SameInsertion

variable (hW : W.Valid) (ha : W.Anchored a) (hb : W.Anchored b) (heq : a.timestamp = b.timestamp)
include hW ha hb heq

/-- The anchors of one insertion are ordered like their bytes. -/
theorem Valid.anchorRank_le (hle : anchorSide a ≤ anchorSide b) :
    W.anchorRank a ≤ W.anchorRank b := by
  rcases hW.same_kind ha hb (Or.inl heq) with ⟨hmina, hminb⟩ | ⟨hmaxa, hmaxb⟩ | ⟨hbytea, hbyteb⟩
  · rw [anchorRank_of_isMin hmina, anchorRank_of_isMin hminb]
  · rw [anchorRank_of_isMax hmaxa, anchorRank_of_isMax hmaxb]
  · have hbytes : a.byte.2 ≤ b.byte.2 := by
      rw [anchorSide, anchorSide, Prod.Lex.toLex_le_toLex] at hle
      unfold Anchor.byte
      cases ha : a.bias <;> cases hb : b.bias <;> simp only [ha, hb, biasRank] at hle ⊢ <;> omega
    have ha' : a.byte = (a.timestamp, a.byte.2) := Prod.ext a.byte_fst rfl
    have hb' : b.byte = (a.timestamp, b.byte.2) := Prod.ext (b.byte_fst.trans heq.symm) rfl
    have hiff := hW.rank_lt_iff (hb' ▸ hbyteb) (ha' ▸ hbytea)
    rw [← ha', ← hb'] at hiff
    rw [hW.anchorRank_eq hbytea, hW.anchorRank_eq hbyteb]
    omega

theorem Valid.anchorKey_lt (hlt : anchorSide a < anchorSide b) : W.anchorKey a < W.anchorKey b :=
  Prod.Lex.toLex_lt_toLex'.mpr ⟨hW.anchorRank_le ha hb heq hlt.le, fun _ => hlt⟩

/-- For anchors of one insertion the offsets and biases decide. -/
theorem compare_anchorKey_of_timestamp :
    compare (W.anchorKey a) (W.anchorKey b) = compare (anchorSide a) (anchorSide b) := by
  rcases lt_trichotomy (anchorSide a) (anchorSide b) with hlt | hsame | hgt
  · rw [compare_lt_iff_lt.mpr hlt, compare_lt_iff_lt.mpr (hW.anchorKey_lt ha hb heq hlt)]
  · have hrank := (hW.anchorRank_le ha hb heq hsame.le).antisymm
      (hW.anchorRank_le hb ha heq.symm hsame.ge)
    rw [compare_anchorKey, compare_eq_iff_eq.mpr hrank]
    rfl
  · rw [compare_gt_iff_gt.mpr hgt, compare_gt_iff_gt.mpr (hW.anchorKey_lt hb ha heq.symm hgt)]

end SameInsertion

namespace Consistent

variable (hW : W.Valid) (h : W.Consistent snapshot applied) (ha : W.Anchored a)
  (hoa : a.ObservedBy snapshot.version)
include hW h ha hoa

/-- The locator of an anchor lies between those of the two extreme anchors. -/
theorem fragmentIdForAnchor_cases :
    ∃ id, snapshot.fragmentIdForAnchor a = some id ∧ ((W.anchorRank a = 0 ∧ id = Locator.min) ∨
        (W.anchorRank a = W.sequence.length + 1 ∧ id = Locator.max) ∨
        (W.anchorRank a = W.rank a.byte + 1 ∧ W.rank a.byte < W.sequence.length ∧
          Locator.min < id ∧ id < Locator.max ∧
          ∃ f ∈ snapshot.fragments, f.Contains a.byte.1 a.byte.2 ∧ f.id = id)) := by
  by_cases hmin : a.isMin = true
  · exact ⟨_, by rw [BufferSnapshot.fragmentIdForAnchor, if_pos hmin],
      Or.inl ⟨anchorRank_of_isMin hmin, rfl⟩⟩
  by_cases hmax : a.isMax = true
  · exact ⟨_, by rw [BufferSnapshot.fragmentIdForAnchor, if_neg hmin, if_pos hmax],
      Or.inr (Or.inl ⟨anchorRank_of_isMax hmax, rfl⟩)⟩
  have hbyte := (ha.resolve_left hmin).resolve_left hmax
  obtain ⟨f, hf, hcontains, hfound⟩ := h.exists_found hbyte
    ((hoa.resolve_left hmin).resolve_left hmax)
  have hvalid := h.indexed.valid f hf
  refine ⟨f.id, ?_, Or.inr (Or.inr ⟨hW.anchorRank_eq hbyte, Valid.rank_lt_length hbyte,
    hvalid.min_lt, hvalid.lt_max, f, hf, by rwa [Anchor.byte_fst], rfl⟩)⟩
  rw [BufferSnapshot.fragmentIdForAnchor, if_neg hmin, if_neg hmax, hfound]
  simp [InsertionFragment.new, hcontains.1]

variable (hb : W.Anchored b) (hob : b.ObservedBy snapshot.version)
include hb hob

/-- For anchors of different insertions the locators decide, and they agree with the
places of the bytes. -/
theorem fragmentId_lt (hne : a.timestamp ≠ b.timestamp) (hrank : W.anchorRank a < W.anchorRank b)
    {ida idb : Locator} (hida : snapshot.fragmentIdForAnchor a = some ida)
    (hidb : snapshot.fragmentIdForAnchor b = some idb) : ida < idb := by
  obtain ⟨_, hida', hcasesa⟩ := h.fragmentIdForAnchor_cases hW ha hoa
  obtain ⟨_, hidb', hcasesb⟩ := h.fragmentIdForAnchor_cases hW hb hob
  cases hida.symm.trans hida'
  cases hidb.symm.trans hidb'
  rcases hcasesa with ⟨hra, rfl⟩ | ⟨hra, rfl⟩ | ⟨hra, -, -, hlta, f, hf, hcf, rfl⟩
  · rcases hcasesb with ⟨hrb, rfl⟩ | ⟨hrb, rfl⟩ | ⟨-, -, hgtb, -⟩
    · omega
    · decide
    · exact hgtb
  · rcases hcasesb with ⟨hrb, rfl⟩ | ⟨hrb, rfl⟩ | ⟨hrb, hltb, -⟩ <;> omega
  · rcases hcasesb with ⟨hrb, rfl⟩ | ⟨hrb, rfl⟩ | ⟨hrb, -, -, -, g, hg, hcg, rfl⟩
    · omega
    · exact hlta
    · rcases lt_trichotomy f.id g.id with hlt | heq | hgt
      · exact hlt
      · have hfg : f = g := KeyedList.Ordered.eq_of_key h.indexed.ids hf hg heq
        have htimestamp := hcf.1.symm.trans (hfg ▸ hcg.1)
        rw [Anchor.byte_fst, Anchor.byte_fst] at htimestamp
        exact absurd htimestamp hne
      · have := h.rank_lt_of_id_lt hW hg hf hgt hcg hcf
        omega

/-- `Anchor::cmp` compares keys that do not depend on the snapshot. -/
theorem cmp_eq : a.cmp b snapshot = some (compare (W.anchorKey a) (W.anchorKey b)) := by
  rw [Anchor.cmp]
  by_cases heq : a.timestamp = b.timestamp
  · rw [if_pos heq, compare_anchorKey_of_timestamp hW ha hb heq, compare_anchorSide]
    rfl
  · obtain ⟨ida, hida, -⟩ := h.fragmentIdForAnchor_cases hW ha hoa
    obtain ⟨idb, hidb, -⟩ := h.fragmentIdForAnchor_cases hW hb hob
    have hcompare : compare ida idb = compare (W.anchorRank a) (W.anchorRank b) := by
      rcases lt_or_gt_of_ne (mt (hW.timestamp_eq_of_anchorRank ha hb) heq) with hrank | hrank
      · have hid := h.fragmentId_lt hW ha hoa hb hob heq hrank hida hidb
        rw [compare_lt_iff_lt.mpr hid, compare_lt_iff_lt.mpr hrank]
      · have hid := h.fragmentId_lt hW hb hob ha hoa (Ne.symm heq) hrank hidb hida
        rw [compare_gt_iff_gt.mpr hid, compare_gt_iff_gt.mpr hrank]
    rw [if_neg heq, compare_anchorKey, ← hcompare, compare_anchorSide, ← Ordering.then_assoc,
      hida, hidb]
    rfl

end Consistent

/-- Anchors with the same key have the same place. -/
theorem anchorKey_eq_iff (hW : W.Valid) (ha : W.Anchored a) (hb : W.Anchored b) :
    W.anchorKey a = W.anchorKey b ↔
      a.timestamp = b.timestamp ∧ a.offset = b.offset ∧ a.bias = b.bias := by
  constructor
  · intro hkey
    have hrank : W.anchorRank a = W.anchorRank b := congrArg (fun k => (ofLex k).1) hkey
    have hoffset : a.offset = b.offset := congrArg (fun k => (ofLex (ofLex k).2).1) hkey
    have hbias : biasRank a.bias = biasRank b.bias := congrArg (fun k => (ofLex (ofLex k).2).2) hkey
    have hbias' : a.bias = b.bias := by
      cases ha : a.bias <;> cases hb : b.bias <;> simp [ha, hb, biasRank] at hbias ⊢
    exact ⟨hW.timestamp_eq_of_anchorRank ha hb hrank, hoffset, hbias'⟩
  · rintro ⟨htimestamp, hoffset, hbias⟩
    have hmin : a.isMin = b.isMin := by simp [Anchor.isMin, htimestamp, hoffset, hbias]
    have hmax : a.isMax = b.isMax := by simp [Anchor.isMax, htimestamp, hoffset, hbias]
    have hbyte : a.byte = b.byte := by simp [Anchor.byte, htimestamp, hoffset, hbias]
    rw [anchorKey, anchorKey, anchorRank, anchorRank, hmin, hmax, hbyte, hoffset, hbias]

/-- The gaps of anchors are ordered like the anchors. -/
theorem anchorGap_le (hW : W.Valid) (ha : W.Anchored a) (hb : W.Anchored b)
    (hle : W.anchorKey a ≤ W.anchorKey b) : W.anchorGap a ≤ W.anchorGap b := by
  have hgap : ∀ {a : Anchor}, W.Anchored a → W.anchorGap a ≤ W.anchorRank a ∧
      W.anchorRank a ≤ W.anchorGap a + 1 ∧ W.anchorGap a ≤ W.sequence.length := by
    intro a ha
    rcases ha with hmin | hmax | hbyte
    · rw [anchorRank_of_isMin hmin, anchorGap, if_pos hmin]
      omega
    · rw [anchorRank_of_isMax hmax, anchorGap, isMin_eq_false_of_isMax hmax, hmax]
      simp
    · have := Valid.rank_lt_length hbyte
      rw [hW.anchorRank_eq hbyte, hW.anchorGap_eq hbyte]
      split <;> omega
  rw [anchorKey, anchorKey, Prod.Lex.toLex_le_toLex] at hle
  rcases hle with hlt | ⟨heq, hle⟩
  · have hgapa := hgap ha
    have hgapb := hgap hb
    simp only at hlt
    omega
  · simp only at heq hle
    rw [Prod.Lex.toLex_le_toLex] at hle
    rcases hW.same_kind ha hb (Or.inr heq) with
      ⟨hmina, hminb⟩ | ⟨hmaxa, hmaxb⟩ | ⟨hbytea, hbyteb⟩
    · rw [anchorGap, anchorGap, if_pos hmina, if_pos hminb]
    · simp [anchorGap, isMin_eq_false_of_isMax hmaxa, isMin_eq_false_of_isMax hmaxb, hmaxa, hmaxb]
    · have hbyte := hW.byte_eq_of_anchorRank hbytea hbyteb heq
      rw [hW.anchorGap_eq hbytea, hW.anchorGap_eq hbyteb, ← hbyte]
      -- A right anchor of the byte comes before a left one, whose offset is larger.
      have hoffset : a.offset ≤ b.offset := hle.elim le_of_lt fun h => le_of_eq h.1
      have hsecond : a.byte.2 = b.byte.2 := by rw [hbyte]
      split
      · rename_i hleft
        have hleft' : b.bias = Bias.left ∧ 0 < b.offset := by
          unfold Anchor.byte at hsecond
          cases hb : b.bias <;> simp only [hleft.1, hb] at hsecond <;> simp <;> omega
        rw [if_pos hleft']
      · split <;> omega

section Offsets

/-- The visible bytes in front of a gap. -/
def visibleBefore (W : World) (fs : List Fragment) (gap : Nat) : Nat :=
  (atomsOf fs).countP fun a => a.visible && decide (W.rank a.id < gap)

theorem visibleBefore_mono (W : World) (fs : List Fragment) {gap' : Nat} (h : gap ≤ gap') :
    W.visibleBefore fs gap ≤ W.visibleBefore fs gap' := by
  refine countP_mono_left fun a _ => ?_
  simp only [Bool.and_eq_true, decide_eq_true_eq]
  exact fun ⟨hvisible, hlt⟩ => ⟨hvisible, Nat.lt_of_lt_of_le hlt h⟩

theorem visibleBefore_append (W : World) (fs gs : List Fragment) (gap : Nat) :
    W.visibleBefore (fs ++ gs) gap = W.visibleBefore fs gap + W.visibleBefore gs gap := by
  rw [visibleBefore, atomsOf_append, countP_append]
  rfl

theorem length_visibleBytes (byteAt : ByteId → UInt8) (atoms : List Atom) :
    (visibleBytes byteAt atoms).length = atoms.countP Atom.visible := by
  rw [visibleBytes, length_map, countP_eq_length_filter]

/-- In front of a gap behind all of them, all visible bytes are counted. -/
theorem visibleBefore_eq_visible {fs : List Fragment} (h : ∀ a ∈ atomsOf fs, W.rank a.id < gap) :
    W.visibleBefore fs gap = (text fs).visible := by
  rw [visible_text_eq W.byteAt, length_visibleBytes, visibleBefore]
  refine countP_congr fun a ha => ?_
  simp [h a ha]

theorem visibleBefore_eq_zero {fs : List Fragment} (h : ∀ a ∈ atomsOf fs, gap ≤ W.rank a.id) :
    W.visibleBefore fs gap = 0 := by
  rw [visibleBefore, countP_eq_zero]
  intro a ha
  have := h a ha
  simp
  omega

theorem countP_lt_range (n k : Nat) :
    (List.range n).countP (fun i => decide (i < k)) = min n k := by
  induction n with
  | zero => simp
  | succ n ih =>
    rw [range_succ, countP_append, ih, countP_singleton]
    simp only [decide_eq_true_eq]
    split <;> omega

theorem locatorDimension_visible (fs : List Fragment) :
    (locatorDimension.measure Fragment.summary fs).2 = (text fs).visible := by
  induction fs using List.reverseRecOn with
  | nil => rfl
  | append_singleton fs f ih =>
    rw [text, Dimension.measure_concat, Dimension.measure_concat]
    change (locatorDimension.measure Fragment.summary fs).2 + _ = (text fs).visible + _
    rw [ih]

end Offsets

namespace Consistent

variable (h : W.Consistent snapshot applied)
include h

/-- The visible bytes of a fragment in front of the gap of an anchor inside it. -/
theorem visibleBefore_fragment (hW : W.Valid) (ha : a.byte ∈ W.sequence)
    (hf : f ∈ snapshot.fragments) (hcontains : f.Contains a.timestamp a.byte.2) :
    f.insertionOffset ≤ a.offset ∧ W.visibleBefore [f] (W.anchorGap a) =
      if f.visible then a.offset - f.insertionOffset else 0 := by
  obtain ⟨htimestamp, hle, hlt⟩ := hcontains
  -- The offset lies in the fragment, and an atom lies before the gap if it lies before it.
  have hoffset : f.insertionOffset ≤ a.offset ∧ a.offset ≤ f.insertionOffset + f.len := by
    unfold Anchor.byte at hle hlt
    cases hb : a.bias <;> simp only [hb] at hle hlt <;> omega
  have hbyte : a.byte = (f.timestamp, a.byte.2) := Prod.ext (a.byte_fst.trans htimestamp.symm) rfl
  have hmem : ∀ i < f.len, (f.timestamp, f.insertionOffset + i) ∈ W.sequence := fun i hi =>
    (h.mem_observedBytes (atomAt_mem_atomsOf hf hi)).1
  have hrank : ∀ i < f.len, W.rank (f.timestamp, f.insertionOffset + i) < W.anchorGap a ↔
      i < a.offset - f.insertionOffset := by
    intro i hi
    have hiff := hW.rank_lt_iff (hmem i hi) (hbyte ▸ ha)
    have hiff' := hW.rank_lt_iff (hbyte ▸ ha) (hmem i hi)
    rw [← hbyte] at hiff hiff'
    rw [hW.anchorGap_eq ha]
    cases hb : a.bias with
    | left =>
      have hsecond : a.byte.2 = a.offset - 1 := by rw [Anchor.byte, hb]
      split
      · omega
      · rename_i hzero
        have : a.offset = 0 := by
          by_contra hne
          exact hzero ⟨rfl, Nat.pos_of_ne_zero hne⟩
        omega
    | right =>
      have hsecond : a.byte.2 = a.offset := by rw [Anchor.byte, hb]
      rw [if_neg (by simp)]
      omega
  refine ⟨hoffset.1, ?_⟩
  rw [visibleBefore, atomsOf_cons, atomsOf_nil, append_nil, Fragment.atoms, countP_map]
  cases hvisible : f.visible with
  | false =>
    rw [if_neg (by simp), countP_eq_zero]
    intro i _
    simp [Fragment.atomAt, hvisible]
  | true =>
    rw [if_pos rfl]
    have hcount : (List.range f.len).countP
        ((fun x : Atom => x.visible && decide (W.rank x.id < W.anchorGap a)) ∘ f.atomAt) =
        (List.range f.len).countP fun i => decide (i < a.offset - f.insertionOffset) := by
      refine countP_congr fun i hi => ?_
      have := hrank i (mem_range.mp hi)
      simp only [Function.comp_apply, Bool.and_eq_true, decide_eq_true_eq]
      exact ⟨fun hi => this.mp hi.2, fun hi => ⟨hvisible, this.mpr hi⟩⟩
    rw [hcount, countP_lt_range, Nat.min_eq_right (by omega)]

/-- `offset_for_anchor` counts the visible bytes in front of the gap of the anchor. -/
theorem offsetForAnchor_eq (hW : W.Valid) (ha : W.Anchored a)
    (hoa : a.ObservedBy snapshot.version) :
    snapshot.offsetForAnchor a = some (W.visibleBefore snapshot.fragments (W.anchorGap a)) := by
  have hrank : ∀ x ∈ atomsOf snapshot.fragments, W.rank x.id < W.sequence.length :=
    fun x hx => Valid.rank_lt_length (h.mem_observedBytes hx).1
  by_cases hmin : a.isMin = true
  · rw [BufferSnapshot.offsetForAnchor, if_pos hmin, anchorGap, if_pos hmin,
      visibleBefore_eq_zero fun _ _ => Nat.zero_le _]
  by_cases hmax : a.isMax = true
  · rw [BufferSnapshot.offsetForAnchor, if_neg hmin, if_pos hmax, anchorGap, if_neg hmin,
      if_pos hmax, visibleBefore_eq_visible hrank, visible_text_eq W.byteAt, ← h.texts.visibleText]
  have hbyte := (ha.resolve_left hmin).resolve_left hmax
  obtain ⟨f, hf, hcontains, hfound⟩ := h.exists_found hbyte
    ((hoa.resolve_left hmin).resolve_left hmax)
  obtain ⟨before, after, hsplit, hbefore, hafter, hfind⟩ := h.indexed.findFragment_eq hf
  obtain ⟨hle, hinside⟩ := h.visibleBefore_fragment hW hbyte hf hcontains
  have hgap : W.rank a.byte ≤ W.anchorGap a ∧ W.anchorGap a ≤ W.rank a.byte + 1 := by
    rw [hW.anchorGap_eq hbyte]
    split <;> omega
  have hcf : f.Contains a.byte.1 a.byte.2 := by rwa [Anchor.byte_fst]
  have hcount : W.visibleBefore snapshot.fragments (W.anchorGap a) = (text before).visible +
        if f.visible then a.offset - f.insertionOffset else 0 := by
    rw [hsplit, visibleBefore_append, ← singleton_append, visibleBefore_append, hinside,
      visibleBefore_eq_visible, visibleBefore_eq_zero, Nat.add_zero]
    · intro x hx
      obtain ⟨g, hg, hxg⟩ := mem_atomsOf.mp hx
      have := h.rank_lt_of_id_lt hW hf (by simp [hsplit, hg]) (hafter g hg) hcf
        (Fragment.contains_of_mem_atoms hxg)
      change W.rank a.byte < W.rank x.id at this
      omega
    · intro x hx
      obtain ⟨g, hg, hxg⟩ := mem_atomsOf.mp hx
      have := h.rank_lt_of_id_lt hW (by simp [hsplit, hg]) hf (hbefore g hg)
        (Fragment.contains_of_mem_atoms hxg) hcf
      change W.rank x.id < W.rank a.byte at this
      omega
  rw [hcount, BufferSnapshot.offsetForAnchor, if_neg hmin, if_neg hmax, hfound]
  have hsplitOffset : (InsertionFragment.new f).splitOffset ≤ a.offset := hle
  have htimestamp : (InsertionFragment.new f).timestamp = a.timestamp := hcontains.1
  have hid : snapshot.findFragment (InsertionFragment.new f).fragmentId =
      { before, rest := f :: after } := hfind
  simp only [some_do, htimestamp, if_true, hid, ListCursor.item,
    head?_cons, ListCursor.start, locatorDimension_visible, hsplitOffset]
  cases f.visible <;> rfl

/-- An anchor found in a fragment belongs to a byte of that fragment. -/
theorem anchored_of_contains (hf : f ∈ snapshot.fragments)
    (hcontains : f.Contains a.timestamp a.byte.2) :
    W.Anchored a ∧ a.ObservedBy snapshot.version := by
  have hmem : a.byte ∈ W.observedBytes snapshot.version := by
    have hbyte : a.byte = (a.timestamp, a.byte.2) := Prod.ext a.byte_fst rfl
    rw [← h.ids, hbyte]
    exact mem_ids_atomsOf.mpr ⟨f, hf, hcontains⟩
  obtain ⟨hsequence, hobserved⟩ := mem_filter.mp hmem
  rw [Anchor.byte_fst] at hobserved
  exact ⟨Or.inr (Or.inr hsequence), Or.inr (Or.inr hobserved)⟩

/-- The fragment at which the seek of `anchor_at_offset` stops holds the byte of the
anchor. -/
theorem anchored_of_seek (hW : W.Valid) {o : Nat} {bias : Bias} {cursor : ListCursor Fragment}
    (hcursor : ((ListCursor.ofList snapshot.fragments).slice visibleDimension Fragment.summary
      fun position => passes (compare o position) bias).2 = cursor)
    (hitem : cursor.item = some f) (htimestamp : a.timestamp = f.timestamp) (hbias : a.bias = bias)
    (hoffset : a.offset = f.insertionOffset +
      (o - cursor.start visibleDimension Fragment.summary)) :
    W.Anchored a ∧ a.ObservedBy snapshot.version := by
  obtain ⟨rest, hrest⟩ := ListCursor.item_eq_some_iff.mp hitem
  obtain ⟨hsplit, hstart, hend⟩ := ListCursor.slice_ofList_spec hcursor
  replace hend := hend f rest hrest
  rw [hrest] at hsplit
  have hf : f ∈ snapshot.fragments := by simp [hsplit]
  have hpos := (h.indexed.valid f hf).len_pos
  have hzero : cursor.before = [] → cursor.start visibleDimension Fragment.summary = 0 := by
    intro hnil
    rw [ListCursor.start, hnil]
    rfl
  have hfirst : cursor.before = [] → f.insertionOffset = 0 := by
    intro hnil
    rw [hnil] at hsplit
    exact h.insertionOffset_first hW hsplit
  have hvisible : visibleDimension.addSummary
      (cursor.start visibleDimension Fragment.summary) f.summary ≤
        cursor.start visibleDimension Fragment.summary + f.len := by
    change _ + f.summary.text.visible ≤ _
    have hle : f.summary.text.visible ≤ f.len := by
      simp only [Fragment.summary]
      split <;> simp
    omega
  generalize visibleDimension.addSummary (cursor.start visibleDimension Fragment.summary)
    f.summary = stop at hend hvisible
  generalize cursor.start visibleDimension Fragment.summary = start at *
  refine h.anchored_of_contains hf ⟨htimestamp.symm, ?_⟩
  rw [Anchor.byte, hbias]
  cases bias with
  | left =>
    rw [passes_left_compare, decide_eq_false_iff_not] at hend
    rw [passes_left_compare, decide_eq_true_eq] at hstart
    simp only
    rcases hstart with hnil | hlt
    · have := hzero hnil
      have := hfirst hnil
      omega
    · omega
  | right =>
    rw [passes_right_compare, decide_eq_false_iff_not] at hend
    rw [passes_right_compare, decide_eq_true_eq] at hstart
    simp only
    have : start ≤ o := by
      rcases hstart with hnil | hle
      · have := hzero hnil
        omega
      · exact hle
    omega

/-- Every anchor that a snapshot creates is the beginning, the end, or next to one of its
bytes. -/
theorem anchored_anchorAtOffset (hW : W.Valid) (offset : Nat) (bias : Bias) :
    W.Anchored (snapshot.anchorAtOffset offset bias) ∧
      (snapshot.anchorAtOffset offset bias).ObservedBy snapshot.version := by
  have hmin : ∀ id, (Anchor.minForBuffer id).isMin = true := fun _ => rfl
  have hmax : ∀ id, (Anchor.maxForBuffer id).isMax = true := fun _ => rfl
  unfold BufferSnapshot.anchorAtOffset
  split
  · exact ⟨Or.inl (hmin _), Or.inl (hmin _)⟩
  split
  · exact ⟨Or.inr (Or.inl (hmax _)), Or.inr (Or.inl (hmax _))⟩
  dsimp only
  split
  · rename_i f hitem
    exact h.anchored_of_seek hW rfl hitem rfl rfl rfl
  · exact ⟨Or.inr (Or.inl (hmax _)), Or.inr (Or.inl (hmax _))⟩

end Consistent

end World

namespace Network

variable {remoteId : Nat} {baseText : List Char} {N : Network} {past : List Network}

/-- The anchor was created by some replica at some point of a run.  `anchor_at` calls
`anchor_at_offset` with the offset of its position. -/
def CreatedIn (trace : List Network) (a : Anchor) : Prop :=
  ∃ net ∈ trace, ∃ i offset bias, a = (net.buffers i).snapshot.anchorAtOffset offset bias

/-- An anchor is observed by every buffer that has observed the version it was created
at. -/
theorem Run.observedBy_anchorAtOffset (h : Run remoteId baseText (N :: past)) {net : Network}
    (hnet : net ∈ N :: past) (i offset : Nat) (bias : Bias) {version : Global}
    (hversion : version.observedAll (net.buffers i).version = true) :
    ((net.buffers i).snapshot.anchorAtOffset offset bias).ObservedBy version := by
  obtain ⟨W, hW⟩ := h.exists_world
  have hi := hW.consistent net hnet i
  exact (hi.anchored_anchorAtOffset hW.valid offset bias).2.imp_right
    fun hobserved => hobserved.imp_right (World.observed_of_observedAll hversion)

/-- Anchors keep a stable total order, which the offsets they resolve to agree with. -/
theorem Run.anchors_ordered (h : Run remoteId baseText (N :: past)) {now : Network}
    (hnow : now ∈ N :: past) (i : Nat) {a b c : Anchor} (ha : CreatedIn (N :: past) a)
    (hb : CreatedIn (N :: past) b) (hc : CreatedIn (N :: past) c)
    (hoa : a.ObservedBy (now.buffers i).version) (hob : b.ObservedBy (now.buffers i).version)
    (hoc : c.ObservedBy (now.buffers i).version) :
    (∃ order, a.cmp b (now.buffers i).snapshot = some order ∧
        b.cmp a (now.buffers i).snapshot = some order.swap) ∧
      (a.cmp b (now.buffers i).snapshot = some Ordering.eq ↔
        a.timestamp = b.timestamp ∧ a.offset = b.offset ∧ a.bias = b.bias) ∧
      (a.cmp b (now.buffers i).snapshot ≠ some Ordering.gt →
        b.cmp c (now.buffers i).snapshot ≠ some Ordering.gt →
          a.cmp c (now.buffers i).snapshot ≠ some Ordering.gt) ∧
      (a.cmp b (now.buffers i).snapshot ≠ some Ordering.gt →
        ∃ x y, (now.buffers i).snapshot.offsetForAnchor a = some x ∧
          (now.buffers i).snapshot.offsetForAnchor b = some y ∧ x ≤ y) ∧
      ∀ other ∈ N :: past, ∀ j, a.ObservedBy (other.buffers j).version →
        b.ObservedBy (other.buffers j).version →
          a.cmp b (other.buffers j).snapshot = a.cmp b (now.buffers i).snapshot := by
  obtain ⟨W, hW⟩ := h.exists_world
  have hanchored : ∀ {a : Anchor}, CreatedIn (N :: past) a → W.Anchored a := by
    rintro a ⟨net, hnet, j, offset, bias, rfl⟩
    exact ((hW.consistent net hnet j).anchored_anchorAtOffset hW.valid offset bias).1
  have hcmp : ∀ {net : Network} (_ : net ∈ N :: past) (j : Nat) {a b : Anchor},
      CreatedIn (N :: past) a → CreatedIn (N :: past) b →
      a.ObservedBy (net.buffers j).version → b.ObservedBy (net.buffers j).version →
      a.cmp b (net.buffers j).snapshot = some (compare (W.anchorKey a) (W.anchorKey b)) :=
    fun hnet j _ _ ha hb hoa hob =>
      (hW.consistent _ hnet j).cmp_eq hW.valid (hanchored ha) hoa (hanchored hb) hob
  have hle : ∀ {a b : Anchor}, some (compare (W.anchorKey a) (W.anchorKey b)) ≠
      some Ordering.gt ↔ W.anchorKey a ≤ W.anchorKey b := by
    intro a b
    rw [ne_eq, Option.some.injEq, compare_gt_iff_gt, not_lt]
  rw [hcmp hnow i ha hb hoa hob, hcmp hnow i hb ha hob hoa, hcmp hnow i hb hc hob hoc,
    hcmp hnow i ha hc hoa hoc]
  refine ⟨⟨_, rfl, ?_⟩, ?_, ?_, ?_, ?_⟩
  · rw [Std.OrientedOrd.eq_swap (a := W.anchorKey b)]
  · rw [Option.some.injEq, compare_eq_iff_eq]
    exact World.anchorKey_eq_iff hW.valid (hanchored ha) (hanchored hb)
  · rw [hle, hle, hle]
    exact le_trans
  · rw [hle]
    intro hkey
    have hi := hW.consistent now hnow i
    exact ⟨_, _, hi.offsetForAnchor_eq hW.valid (hanchored ha) hoa,
      hi.offsetForAnchor_eq hW.valid (hanchored hb) hob, World.visibleBefore_mono _ _
        (World.anchorGap_le hW.valid (hanchored ha) (hanchored hb) hkey)⟩
  · intro other hother j hoa' hob'
    exact hcmp hother j ha hb hoa' hob'

/-- Two anchors at one place between two bytes, of which the first was deleted since. -/
theorem anchors_ordered_insertDeleteUndo : ∃ N past a b, Run 1 ['a', 'c'] (N :: past) ∧
      a = (N.buffers 3).snapshot.anchorAtOffset 1 Bias.left ∧
      b = (N.buffers 3).snapshot.anchorAtOffset 1 Bias.right ∧
      a.cmp b (N.buffers 1).snapshot = some Ordering.lt ∧
      ∃ x y, (N.buffers 1).snapshot.offsetForAnchor a = some x ∧
        (N.buffers 1).snapshot.offsetForAnchor b = some y ∧ x ≤ y := by
  obtain ⟨N, past, hrun, hcmp, hobserved⟩ := exists_run_of_script 1 ['a', 'c'] (fun _ => rfl)
    insertDeleteUndo
    (fun N => ((N.buffers 3).snapshot.anchorAtOffset 1 Bias.left).cmp
        ((N.buffers 3).snapshot.anchorAtOffset 1 Bias.right) (N.buffers 1).snapshot =
          some Ordering.lt ∧
      (N.buffers 1).version.observedAll (N.buffers 3).version = true)
    ⟨_, _, rfl, by decide +kernel⟩
  have hcreated : ∀ bias, CreatedIn (N :: past) ((N.buffers 3).snapshot.anchorAtOffset 1 bias) :=
    fun bias => ⟨N, mem_cons_self, 3, 1, bias, rfl⟩
  have hanchor := fun bias => hrun.observedBy_anchorAtOffset mem_cons_self 3 1 bias hobserved
  have hordered := hrun.anchors_ordered mem_cons_self 1 (hcreated Bias.left)
    (hcreated Bias.right) (hcreated Bias.right) (hanchor Bias.left) (hanchor Bias.right)
    (hanchor Bias.right)
  exact ⟨N, past, _, _, hrun, rfl, rfl, hcmp, hordered.2.2.2.1 (by rw [hcmp]; decide)⟩

end Network

end XorEditor.Text
