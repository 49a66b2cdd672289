import XorEditor.Text.Snapshot
import XorEditor.Lib.RangeEdit

/-!
# Inserted bytes

A fragment is a run of bytes of one insertion that share their history.  An `Atom` is one
such byte; the atoms of a snapshot are what its fragments denote, independently of how the
insertions happen to be split.  The bytes themselves are given by a function of the
insertion and the offset, since an operation carries its text and never changes it.

* `ByteId`, `Atom`: bytes
* `atomsOf`: those of a list of fragments
* `visibleBytes`, `deletedBytes`: the texts
-/

namespace XorEditor.Text

variable {p : Atom → Bool}

open Clock Lib List

/-- The identity of an inserted byte: the insertion and the offset in its text. -/
abbrev ByteId := Lamport × Nat

/-- The priority of a byte among the ones inserted at one place: a later timestamp wins,
and within an insertion the bytes keep their order. -/
def ByteId.priority (byte : ByteId) : Lamport ×ₗ Natᵒᵈ :=
  toLex (byte.1, OrderDual.toDual byte.2)

theorem ByteId.priority_injective : Function.Injective ByteId.priority := by
  rintro ⟨t, o⟩ ⟨t', o'⟩ h
  simpa [ByteId.priority] using h

theorem ByteId.priority_lt_iff {a b : ByteId} :
    a.priority < b.priority ↔ a.1 < b.1 ∨ (a.1 = b.1 ∧ b.2 < a.2) := by
  simp [ByteId.priority, Prod.Lex.toLex_lt_toLex]

/-- One inserted byte with its history. -/
structure Atom where
  timestamp : Lamport
  offset : Nat
  visible : Bool
  deletions : List Lamport
  maxUndos : Global

namespace Atom

/-- The identity of the byte. -/
def id (self : Atom) : ByteId := (self.timestamp, self.offset)

/-- `Fragment::is_visible` for a single byte. -/
def isVisible (self : Atom) (undos : UndoMap) : Bool :=
  !undos.isUndone self.timestamp && self.deletions.all fun d => undos.isUndone d

/-- `Fragment::was_visible` for a single byte. -/
def wasVisible (self : Atom) (version : Global) (undos : UndoMap) : Bool :=
  (version.observed self.timestamp && !undos.wasUndone self.timestamp version) &&
    self.deletions.all fun d => !version.observed d || undos.wasUndone d version

end Atom

namespace Fragment

/-- The atom of a fragment at an offset from its start. -/
def atomAt (self : Fragment) (index : Nat) : Atom where
  timestamp := self.timestamp
  offset := self.insertionOffset + index
  visible := self.visible
  deletions := self.deletions
  maxUndos := self.maxUndos

/-- The bytes of a fragment. -/
def atoms (self : Fragment) : List Atom := (List.range self.len).map self.atomAt

/-- What remains of a fragment behind its first `n` bytes. -/
def dropFront (self : Fragment) (n : Nat) : Fragment :=
  { self with len := self.len - n, insertionOffset := self.insertionOffset + n }

@[simp] theorem length_atoms (self : Fragment) : self.atoms.length = self.len := by
  simp [atoms]

theorem mem_atoms {self : Fragment} {a : Atom} :
    a ∈ self.atoms ↔ ∃ i < self.len, self.atomAt i = a := by
  simp [atoms]

/-- A condition that does not depend on the offset holds for all atoms of a fragment. -/
theorem filter_atoms {self : Fragment} {b : Bool} (h : ∀ i < self.len, p (self.atomAt i) = b) :
    self.atoms.filter p = if b then self.atoms else [] := by
  rw [atoms, filter_map, filter_congr (q := fun _ => b) (by simpa using h)]
  cases b <;> simp

section Split

variable (self : Fragment)
include self

@[simp] theorem dropFront_zero : self.dropFront 0 = self := rfl

@[simp] theorem dropFront_id (n : Nat) : (self.dropFront n).id = self.id := rfl

@[simp] theorem dropFront_timestamp (n : Nat) : (self.dropFront n).timestamp = self.timestamp := rfl

@[simp] theorem dropFront_visible (n : Nat) : (self.dropFront n).visible = self.visible := rfl

@[simp] theorem dropFront_deletions (n : Nat) : (self.dropFront n).deletions = self.deletions := rfl

@[simp] theorem dropFront_len (n : Nat) : (self.dropFront n).len = self.len - n := rfl

theorem dropFront_dropFront (m n : Nat) :
    (self.dropFront m).dropFront n = self.dropFront (m + n) := by
  simp [dropFront, Nat.sub_sub, Nat.add_assoc]

/-- The atoms of a fragment are those of its first part and those of the rest. -/
theorem atoms_split {n : Nat} (h : n ≤ self.len) :
    self.atoms = { self with len := n }.atoms ++ (self.dropFront n).atoms := by
  have hlen : self.len = n + (self.len - n) := by omega
  simp only [atoms, dropFront]
  conv_lhs => rw [hlen, range_add, map_append, map_map]
  congr 1
  apply map_congr_left
  intro i _
  simp [atomAt, Nat.add_assoc]

end Split

end Fragment

/-- The bytes of a list of fragments. -/
def atomsOf (fragments : List Fragment) : List Atom := fragments.flatMap Fragment.atoms

@[simp] theorem atomsOf_nil : atomsOf [] = [] := rfl

@[simp] theorem atomsOf_cons (f : Fragment) (fs : List Fragment) :
    atomsOf (f :: fs) = f.atoms ++ atomsOf fs := rfl

@[simp] theorem atomsOf_append (fs gs : List Fragment) :
    atomsOf (fs ++ gs) = atomsOf fs ++ atomsOf gs := by
  simp [atomsOf]

variable {fs : List Fragment}

theorem mem_atomsOf {a : Atom} : a ∈ atomsOf fs ↔ ∃ f ∈ fs, a ∈ f.atoms := by
  simp [atomsOf]

theorem atomAt_mem_atomsOf {f : Fragment} (hf : f ∈ fs) {i : Nat} (hi : i < f.len) :
    f.atomAt i ∈ atomsOf fs :=
  mem_atomsOf.mpr ⟨f, hf, Fragment.mem_atoms.mpr ⟨i, hi, rfl⟩⟩

theorem filter_atomsOf {q : Fragment → Bool} (h : ∀ f ∈ fs, ∀ i < f.len, p (f.atomAt i) = q f) :
    (atomsOf fs).filter p = atomsOf (fs.filter q) := by
  induction fs with
  | nil => rfl
  | cons f fs ih =>
    obtain ⟨hf, hfs⟩ := forall_mem_cons.mp h
    rw [atomsOf_cons, filter_append, ih hfs, Fragment.filter_atoms hf, filter_cons]
    split <;> rfl

section Texts

variable (byteAt : ByteId → UInt8) {byteAt' : ByteId → UInt8} {atoms : List Atom}

/-- The text of the visible atoms. -/
def visibleBytes (atoms : List Atom) : Rope :=
  (atoms.filter Atom.visible).map fun a => byteAt a.id

/-- The text of the atoms that are not visible. -/
def deletedBytes (atoms : List Atom) : Rope :=
  (atoms.filter fun a => !a.visible).map fun a => byteAt a.id

@[simp] theorem visibleBytes_nil : visibleBytes byteAt [] = [] := rfl

@[simp] theorem deletedBytes_nil : deletedBytes byteAt [] = [] := rfl

@[simp] theorem visibleBytes_append (xs ys : List Atom) :
    visibleBytes byteAt (xs ++ ys) = visibleBytes byteAt xs ++ visibleBytes byteAt ys := by
  simp [visibleBytes]

@[simp] theorem deletedBytes_append (xs ys : List Atom) :
    deletedBytes byteAt (xs ++ ys) = deletedBytes byteAt xs ++ deletedBytes byteAt ys := by
  simp [deletedBytes]

variable {byteAt} in
theorem visibleBytes_congr (h : ∀ a ∈ atoms, byteAt a.id = byteAt' a.id) :
    visibleBytes byteAt atoms = visibleBytes byteAt' atoms :=
  map_congr_left fun a ha => h a (mem_filter.mp ha).1

variable {byteAt} in
theorem deletedBytes_congr (h : ∀ a ∈ atoms, byteAt a.id = byteAt' a.id) :
    deletedBytes byteAt atoms = deletedBytes byteAt' atoms :=
  map_congr_left fun a ha => h a (mem_filter.mp ha).1

/-- The bytes of a fragment, visible or not. -/
def Fragment.bytes (self : Fragment) : Rope := self.atoms.map fun a => byteAt a.id

theorem visibleBytes_atoms (f : Fragment) :
    visibleBytes byteAt f.atoms = if f.visible then f.bytes byteAt else [] := by
  rw [visibleBytes, Fragment.filter_atoms (b := f.visible) fun _ _ => rfl]
  cases f.visible <;> rfl

theorem deletedBytes_atoms (f : Fragment) :
    deletedBytes byteAt f.atoms = if f.visible then [] else f.bytes byteAt := by
  rw [deletedBytes, Fragment.filter_atoms (b := !f.visible) fun _ _ => rfl]
  cases f.visible <;> rfl

@[simp] theorem Fragment.length_bytes (f : Fragment) : (f.bytes byteAt).length = f.len := by
  simp [Fragment.bytes]

end Texts

/-- The visible and deleted lengths of a list of fragments, as the source sums them. -/
theorem text_eq (byteAt : ByteId → UInt8) (fs : List Fragment) : FragmentBuilder.text fs =
      { visible := (visibleBytes byteAt (atomsOf fs)).length
        deleted := (deletedBytes byteAt (atomsOf fs)).length } := by
  induction fs using List.reverseRecOn with
  | nil => rfl
  | append_singleton fs f ih =>
    simp only [FragmentBuilder.text] at ih ⊢
    rw [Dimension.measure_concat, ih]
    simp only [textDimension, Fragment.summary, atomsOf_append, atomsOf_cons, atomsOf_nil,
      append_nil, visibleBytes_append, deletedBytes_append, visibleBytes_atoms,
      deletedBytes_atoms, length_append]
    split <;> simp

end XorEditor.Text
