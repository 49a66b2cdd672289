import XorEditor.Lib.Loop

/-!
# Texts, ropes and patches

A `str` is modelled by its characters and a `Rope` by its UTF-8 bytes; all offsets are
byte offsets.  A rope cursor is represented by the bytes from its offset on, and slicing
past the end of the rope panics.  `RopeBuilder` rebuilds the visible and the deleted text
of a buffer from the old ones while its fragments are being rewritten.

* `Rope`, `RopeBuilder`: texts
* `Edit`, `Patch`: patches
* `ceilCharBoundary`, `floorCharBoundary`: the ends of characters
-/

namespace XorEditor.Text

/-- `Range<usize>` and `Range<FullOffset>`. -/
structure Range where
  start : Nat
  stop : Nat
deriving DecidableEq, Repr

/-- The bytes of a rope. -/
abbrev Rope := List UInt8

variable (text : List Char)

/-- The UTF-8 bytes of a string. -/
def utf8 : Rope := text.flatMap String.utf8EncodeChar

@[simp] theorem utf8_nil : utf8 [] = [] := rfl

@[simp] theorem utf8_cons (c : Char) (text : List Char) :
    utf8 (c :: text) = String.utf8EncodeChar c ++ utf8 text := rfl

/-- `str::floor_char_boundary`: the greatest character boundary at or below `index`. -/
def floorCharBoundary : List Char → Nat → Nat
  | [], _ => 0
  | c :: text, index =>
    if c.utf8Size ≤ index then c.utf8Size + floorCharBoundary text (index - c.utf8Size)
    else 0

theorem floorCharBoundary_le (index : Nat) : floorCharBoundary text index ≤ index := by
  induction text generalizing index with
  | nil => simp [floorCharBoundary]
  | cons c text ih =>
    simp only [floorCharBoundary]
    split
    · have := ih (index - c.utf8Size)
      omega
    · omega

/-- A boundary is at most three bytes below any index inside the text. -/
theorem le_floorCharBoundary_add (index : Nat) (h : index ≤ (utf8 text).length) :
    index ≤ floorCharBoundary text index + 3 := by
  induction text generalizing index with
  | nil => simp at h; omega
  | cons c text ih =>
    have hsize := c.utf8Size_le_four
    simp only [utf8_cons, List.length_append, String.length_utf8EncodeChar] at h
    simp only [floorCharBoundary]
    split
    · have := ih (index - c.utf8Size) (by omega)
      omega
    · omega

theorem utf8Size_eq (c : Char) : c.utf8Size =
    if c.val.toNat ≤ 127 then 1 else if c.val.toNat ≤ 2047 then 2
    else if c.val.toNat ≤ 65535 then 3 else 4 := by
  rw [Char.utf8Size]
  simp only [UInt32.le_iff_toNat_le]
  rfl

/-- The first byte of an encoding tells its length, and the others are continuation bytes. -/
theorem utf8EncodeChar_shape (c : Char) :
    ∃ first rest, String.utf8EncodeChar c = first :: rest ∧ rest.length + 1 = c.utf8Size ∧
      (∀ byte ∈ rest, 128 ≤ byte.toNat ∧ byte.toNat < 192) ∧
      (first.toNat < 128 ∧ first.toNat = c.val.toNat ∨ 192 ≤ first.toNat ∧ 127 < c.val.toNat) ∧
      (240 ≤ first.toNat ↔ c.utf8Size = 4) := by
  rw [utf8Size_eq]
  simp only [String.utf8EncodeChar]
  -- in each of the four lengths the bytes are sums of a tag and some bits of the code point
  split_ifs <;> refine ⟨_, _, rfl, rfl, ?_, ?_, ?_⟩
  all_goals
    simp only [List.mem_cons, List.not_mem_nil, false_implies, implies_true, or_false,
      forall_eq_or_imp, forall_eq, UInt8.toNat_ofNat', iff_true] <;> omega

namespace Rope

/-- `util::is_utf8_char_boundary`: the byte is not a continuation byte. -/
def startsChar (byte : UInt8) : Bool := decide (byte.toNat < 128 ∨ 192 ≤ byte.toNat)

/-- `Rope::is_char_boundary`. -/
def isCharBoundary (rope : Rope) (offset : Nat) : Bool :=
  match rope[offset]? with
  | some byte => offset == 0 || startsChar byte
  | none => offset == rope.length

/-- The greatest character boundary at or below an index inside the rope. -/
def floorFrom (rope : Rope) : Nat → Nat
  | 0 => 0
  | index + 1 =>
    if isCharBoundary rope (index + 1) then index + 1 else floorFrom rope index

/-- `Rope::floor_char_boundary`. -/
def floorCharBoundary (rope : Rope) (index : Nat) : Nat :=
  if rope.length ≤ index then rope.length else floorFrom rope index

/-- The smallest character boundary at or above `index`, looking `steps` bytes ahead. -/
def ceilFrom (rope : Rope) : Nat → Nat → Nat
  | 0, index => index
  | steps + 1, index =>
    if isCharBoundary rope index then index else ceilFrom rope steps (index + 1)

/-- `Rope::ceil_char_boundary`. -/
def ceilCharBoundary (rope : Rope) (index : Nat) : Nat :=
  if rope.length < index then rope.length
  else ceilFrom rope (rope.length - index) index

/-- `rope::Cursor::slice`, `summary` and `seek_forward` from `start` to `stop`: the bytes
passed.  Going backward or past the end panics. -/
def slice (rope : Rope) (start stop : Nat) : Option Rope :=
  if start ≤ stop ∧ stop ≤ rope.length then some ((rope.take stop).drop start) else none

theorem floorFrom_le (rope : Rope) (index : Nat) : floorFrom rope index ≤ index := by
  induction index with
  | zero => simp [floorFrom]
  | succ index ih =>
    simp only [floorFrom]
    split <;> omega

/-- The encoding of a character begins with a byte that is not a continuation byte. -/
theorem startsChar_head (c : Char) :
    ∃ byte rest, String.utf8EncodeChar c = byte :: rest ∧ startsChar byte = true := by
  obtain ⟨first, rest, hencode, -, -, hfirst, -⟩ := utf8EncodeChar_shape c
  refine ⟨first, rest, hencode, decide_eq_true ?_⟩
  omega

/-- A boundary between the characters is a boundary of the rope. -/
theorem isCharBoundary_floorCharBoundary (text : List Char) (index : Nat) :
    isCharBoundary (utf8 text) (Text.floorCharBoundary text index) = true := by
  induction text generalizing index with
  | nil => rfl
  | cons c text ih =>
    have hlen : (String.utf8EncodeChar c).length = c.utf8Size := by simp
    simp only [Text.floorCharBoundary]
    split
    · have hrest := ih (index - c.utf8Size)
      generalize Text.floorCharBoundary text (index - c.utf8Size) = offset at hrest ⊢
      rw [isCharBoundary] at hrest ⊢
      rw [utf8_cons, List.getElem?_append_right (by omega), hlen, Nat.add_sub_cancel_left]
      cases hbyte : (utf8 text)[offset]? with
      | none =>
        simp only [hbyte, beq_iff_eq] at hrest
        simp [hrest]
      | some byte =>
        simp only [hbyte, Bool.or_eq_true, beq_iff_eq] at hrest ⊢
        refine Or.inr (hrest.elim (fun hzero => ?_) id)
        cases text with
        | nil => simp at hbyte
        | cons d text =>
          obtain ⟨first, rest, hencode, hstarts⟩ := startsChar_head d
          simp only [hzero, utf8_cons, hencode, List.cons_append, List.getElem?_cons_zero,
            Option.some.injEq] at hbyte
          rwa [← hbyte]
    · rw [isCharBoundary]
      split <;> simp_all

theorem le_floorFrom {rope : Rope} {offset index : Nat} (h : isCharBoundary rope offset = true)
    (hle : offset ≤ index) : offset ≤ floorFrom rope index := by
  induction index with
  | zero => simpa [floorFrom] using hle
  | succ index ih =>
    simp only [floorFrom]
    split
    · exact hle
    · rename_i hnot
      refine ih (Nat.lt_succ_iff.mp (Nat.lt_of_le_of_ne hle ?_))
      rintro rfl
      exact hnot h

/-- In a text a boundary is at most three bytes below any index. -/
theorem le_floorCharBoundary_add (index : Nat) (h : index ≤ (utf8 text).length) :
    index ≤ floorCharBoundary (utf8 text) index + 3 := by
  unfold floorCharBoundary
  split
  · omega
  · have hnear := Text.le_floorCharBoundary_add text index h
    have hfloor := le_floorFrom (isCharBoundary_floorCharBoundary text index)
      (Text.floorCharBoundary_le text index)
    omega

theorem floorCharBoundary_le (rope : Rope) (index : Nat) :
    floorCharBoundary rope index ≤ index := by
  unfold floorCharBoundary
  split
  · omega
  · exact floorFrom_le rope index

theorem le_length_of_isCharBoundary {rope : Rope} {offset : Nat}
    (h : isCharBoundary rope offset = true) : offset ≤ rope.length := by
  by_contra hgt
  simp only [isCharBoundary, List.getElem?_eq_none (show rope.length ≤ offset by omega),
    beq_iff_eq] at h
  omega

end Rope

namespace LineEnding

/-- `LineEnding::normalize` and `normalize_arc`: every match of `\r\n|\r` becomes `\n`. -/
def normalize : List Char → List Char
  | '\r' :: '\n' :: text => '\n' :: normalize text
  | '\r' :: text => '\n' :: normalize text
  | c :: text => c :: normalize text
  | [] => []

end LineEnding

/-- `Edit<usize>`: a range of the old text and the range of the new text replacing it. -/
structure Edit where
  oldStart : Nat
  oldEnd : Nat
  newStart : Nat
  newEnd : Nat
deriving DecidableEq, Repr

/-- `Edit::is_empty`. -/
def Edit.isEmpty (edit : Edit) : Bool :=
  edit.oldStart == edit.oldEnd && edit.newStart == edit.newEnd

/-- `Patch<usize>`: the edits in increasing order. -/
abbrev Patch := List Edit

namespace Patch

/-- `Patch::push_maybe_empty`: an edit that touches the last one extends it. -/
def pushMaybeEmpty (patch : Patch) (edit : Edit) : Patch :=
  match patch.getLast? with
  | some last =>
    if edit.oldStart ≤ last.oldEnd then
      patch.dropLast ++ [{ last with oldEnd := edit.oldEnd, newEnd := edit.newEnd }]
    else
      patch ++ [edit]
  | none => [edit]

/-- `Patch::push`. -/
def push (patch : Patch) (edit : Edit) : Patch :=
  if edit.isEmpty then patch else pushMaybeEmpty patch edit

end Patch

/-- `RopeBuilder`: the unread parts of the old texts, and the new texts so far. -/
structure RopeBuilder where
  oldVisibleCursor : Rope
  oldDeletedCursor : Rope
  newVisible : Rope
  newDeleted : Rope

namespace RopeBuilder

/-- `RopeBuilder::new`. -/
def new (oldVisible oldDeleted : Rope) : RopeBuilder where
  oldVisibleCursor := oldVisible
  oldDeletedCursor := oldDeleted
  newVisible := []
  newDeleted := []

variable (self : RopeBuilder)

/-- Append a text to the new visible or the new deleted text. -/
def emit (text : Rope) (isVisible : Bool) : RopeBuilder :=
  if isVisible then { self with newVisible := self.newVisible ++ text }
  else { self with newDeleted := self.newDeleted ++ text }

/-- `RopeBuilder::push`: move `len` bytes of one old text to one new text.  Slicing past
the end of a rope panics. -/
def push (len : Nat) (wasVisible isVisible : Bool) : Option RopeBuilder :=
  if wasVisible then
    if len ≤ self.oldVisibleCursor.length then
      some ({ self with oldVisibleCursor := self.oldVisibleCursor.drop len }.emit
        (self.oldVisibleCursor.take len) isVisible)
    else none
  else
    if len ≤ self.oldDeletedCursor.length then
      some ({ self with oldDeletedCursor := self.oldDeletedCursor.drop len }.emit
        (self.oldDeletedCursor.take len) isVisible)
    else none

/-- `RopeBuilder::append`: copy unchanged fragments of the given total lengths. -/
def append (visible deleted : Nat) : Option RopeBuilder := do
  let self ← self.push visible true true
  self.push deleted false false

/-- `RopeBuilder::push_str`. -/
def pushStr (text : List Char) : RopeBuilder :=
  { self with newVisible := self.newVisible ++ utf8 text }

/-- `RopeBuilder::finish`: what was not read is copied unchanged. -/
def finish : Rope × Rope :=
  (self.newVisible ++ self.oldVisibleCursor, self.newDeleted ++ self.oldDeletedCursor)

end RopeBuilder

end XorEditor.Text
