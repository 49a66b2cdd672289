import XorEditor.Lib.Bitmap
import XorEditor.Rope.TextSummary

/-!
# Chunks

A chunk is a text of at most `MAX_BASE` bytes with four bitmaps: where its characters begin, where
its UTF-16 code units are, and where its newlines and tabs are.  The bitmaps of a chunk are those
of its text by construction; every operation computes them from the bitmaps that it is given.

* `Chunk`: a chunk with its text, and that its bitmaps are those of the text.
* `Bitmaps.ofBytes_utf8`: the loop of `Chunk::new` computes the bitmaps of the text.
* `Chunk.append`, `Chunk.prepend`, `Chunk.splitAt`, `Chunk.slice`: the operations on bitmaps.
* `Chunk.bitmaps_agree_with_text`: each of them is the same operation on texts.
-/

namespace XorEditor.Rope

open Lib Lib.Bitmap List

/-- `MAX_BASE`, the bits of a bitmap. -/
def maxBase : Nat := 128

/-- `Bitmap`. -/
abbrev Bitmap := BitVec maxBase

/-! ## The bytes of a character -/

variable (c : Char) {bytes : List UInt8} {p : UInt8 → Bool}

/-- The byte where a character begins, among the bytes of its encoding. -/
def charMarks : List Bool := true :: List.replicate (c.utf8Size - 1) false

/-- The bytes that stand for the code units of a character. -/
def unitMarks : List Bool :=
  if c.utf8Size = 4 then [true, true, false, false] else charMarks c

/-- The bytes that are a given ASCII character. -/
def asciiMarks (d c : Char) : List Bool :=
  if c = d then [true] else List.replicate c.utf8Size false

@[simp] theorem length_charMarks : (charMarks c).length = c.utf8Size := by
  have hpos := c.utf8Size_pos
  simp only [charMarks, length_cons, length_replicate]
  omega

@[simp] theorem length_unitMarks : (unitMarks c).length = c.utf8Size := by
  rw [unitMarks]
  split
  next h => rw [h]; rfl
  next => exact length_charMarks c

theorem length_asciiMarks {d : Char} (hd : d.utf8Size = 1) (c : Char) :
    (asciiMarks d c).length = c.utf8Size := by
  rw [asciiMarks]
  split
  next h => rw [h, hd]; rfl
  next => exact length_replicate

/-- A test that no continuation byte passes is a test of the first byte. -/
theorem map_encode (hp : ∀ byte : UInt8, 128 ≤ byte.toNat ∧ byte.toNat < 192 → p byte = false) :
    ∃ first : UInt8, (String.utf8EncodeChar c).map p =
        p first :: List.replicate (c.utf8Size - 1) false ∧
      (first.toNat < 128 ∧ first.toNat = c.val.toNat ∨ 192 ≤ first.toNat ∧ 127 < c.val.toNat) ∧
      (240 ≤ first.toNat ↔ c.utf8Size = 4) := by
  obtain ⟨first, rest, hencode, hlength, hrest, hfirst⟩ := Text.utf8EncodeChar_shape c
  refine ⟨first, ?_, hfirst⟩
  rw [hencode, map_cons, map_eq_replicate_iff.mpr fun byte hbyte => hp byte (hrest byte hbyte),
    ← hlength, Nat.add_sub_cancel]

theorem map_startsChar : (String.utf8EncodeChar c).map Text.Rope.startsChar = charMarks c := by
  obtain ⟨first, hmap, hfirst, -⟩ := map_encode (p := Text.Rope.startsChar) c fun byte h =>
    decide_eq_false (by omega)
  rw [hmap, Text.Rope.startsChar, decide_eq_true (by omega), charMarks]

/-- The first byte of an encoding that has four. -/
theorem map_wide : (String.utf8EncodeChar c).map (fun byte => decide (240 ≤ byte.toNat)) =
      decide (c.utf8Size = 4) :: List.replicate (c.utf8Size - 1) false := by
  obtain ⟨first, hmap, -, hwide⟩ := map_encode (p := fun byte => decide (240 ≤ byte.toNat)) c
    fun byte h => decide_eq_false (by omega)
  rw [hmap, decide_eq_decide.2 hwide]

theorem map_ascii {d : Char} (hd : d.val.toNat < 128) (c : Char) :
    (String.utf8EncodeChar c).map (fun byte => decide (byte.toNat = d.val.toNat)) =
      asciiMarks d c := by
  obtain ⟨first, hmap, hfirst, -⟩ := map_encode
    (p := fun byte => decide (byte.toNat = d.val.toNat)) c fun byte h => decide_eq_false (by omega)
  rw [hmap, asciiMarks]
  split
  next h =>
    subst h
    have hsize : c.utf8Size = 1 := by rw [Text.utf8Size_eq, if_pos (by omega)]
    rw [hsize, decide_eq_true (by omega)]
    rfl
  next h =>
    have hne : ¬ first.toNat = d.val.toNat := by
      intro hsame
      refine h (Char.ext (UInt32.toNat_inj.1 ?_))
      omega
    rw [decide_eq_false hne, ← replicate_succ, Nat.sub_add_cancel c.utf8Size_pos]

variable (text : List Char)

theorem length_utf8 : (Text.utf8 text).length = strLen text := by
  simp only [Text.utf8, length_flatMap, String.length_utf8EncodeChar]
  rfl

/-! ## Bitmaps -/

/-- The bitmaps of a chunk. -/
structure Bitmaps where
  chars : Bitmap
  charsUtf16 : Bitmap
  newlines : Bitmap
  tabs : Bitmap
  deriving DecidableEq

namespace Bitmaps

/-- The same operation on every bitmap. -/
def map (f : Bitmap → Bitmap) (self : Bitmaps) : Bitmaps :=
  ⟨f self.chars, f self.charsUtf16, f self.newlines, f self.tabs⟩

/-- The bits of both. -/
def or (self other : Bitmaps) : Bitmaps :=
  ⟨self.chars ||| other.chars, self.charsUtf16 ||| other.charsUtf16,
    self.newlines ||| other.newlines, self.tabs ||| other.tabs⟩

/-- The bitmaps of a text. -/
def ofText (text : List Char) : Bitmaps where
  chars := ofBits maxBase (text.flatMap charMarks)
  charsUtf16 := ofBits maxBase (text.flatMap unitMarks)
  newlines := ofBits maxBase (text.flatMap (asciiMarks '\n'))
  tabs := ofBits maxBase (text.flatMap (asciiMarks '\t'))

/-- The bytes of a bitmap in the loop of `Chunk::new`: one bit for each byte of a block of
eight. -/
def blockMarks (p : UInt8 → Bool) (block : List UInt8) : BitVec 8 :=
  orShifted 1 (block.map fun byte => ofBits 8 [p byte])

/-- `Bitmap::from_le_bytes` of the marks of all blocks. -/
def ofBlocks (p : UInt8 → Bool) (bytes : List UInt8) : Bitmap :=
  orShifted 8 ((List.range (maxBase / 8)).map fun k =>
    (blockMarks p ((bytes.drop (8 * k)).take 8)).setWidth maxBase)

/-- The bitmaps that `Chunk::new` computes. -/
def ofBytes (bytes : List UInt8) : Bitmaps where
  chars := ofBlocks Text.Rope.startsChar bytes
  charsUtf16 := ofBlocks (fun byte => decide (240 ≤ byte.toNat)) bytes <<< 1 |||
      ofBlocks Text.Rope.startsChar bytes
  newlines := ofBlocks (fun byte => decide (byte.toNat = '\n'.val.toNat)) bytes
  tabs := ofBlocks (fun byte => decide (byte.toNat = '\t'.val.toNat)) bytes

theorem ofBlocks_eq (p : UInt8 → Bool) (h : bytes.length ≤ maxBase) :
    ofBlocks p bytes = ofBits maxBase (bytes.map p) := by
  have hblock : ∀ k, (blockMarks p ((bytes.drop (8 * k)).take 8)).setWidth maxBase =
      ofBits maxBase (((bytes.map p).drop (8 * k)).take 8) := by
    intro k
    rw [blockMarks, ← map_drop, ← map_take, ← setWidth_ofBits (v := 8) (by simp),
      ← orShifted_singletons, map_map]
    rfl
  rw [ofBlocks]
  simp only [hblock]
  rw [orShifted_pieces, take_of_length_le (by simpa [maxBase] using h)]

variable {marks : Char → List Bool}

theorem map_utf8 (h : ∀ c, (String.utf8EncodeChar c).map p = marks c) (text : List Char) :
    (Text.utf8 text).map p = text.flatMap marks := by
  rw [Text.utf8, map_flatMap]
  simp only [h]

/-- The second code unit of a character is marked by shifting the mark of its first byte. -/
theorem ofBits_unitMarks :
    ofBits maxBase (decide (c.utf8Size = 4) :: List.replicate (c.utf8Size - 1) false) <<< 1 |||
      ofBits maxBase (charMarks c) = ofBits maxBase (unitMarks c) := by
  rw [unitMarks, charMarks]
  split
  next hsize =>
    rw [hsize]
    decide
  next hsize =>
    rw [decide_eq_false hsize, ← replicate_succ, ofBits_zeros, BitVec.zero_shiftLeft,
      BitVec.zero_or]

theorem ofBits_units (text : List Char) :
    ofBits maxBase ((Text.utf8 text).map fun byte => decide (240 ≤ byte.toNat)) <<< 1 |||
      ofBits maxBase (text.flatMap charMarks) = ofBits maxBase (text.flatMap unitMarks) := by
  induction text with
  | nil => rfl
  | cons c text ih =>
    rw [Text.utf8_cons, map_append, map_wide, flatMap_cons, flatMap_cons,
      ofBits_append, ofBits_append (charMarks c), ofBits_append (unitMarks c), ← ih,
      ← ofBits_unitMarks c]
    rw [length_cons, length_replicate, Nat.sub_add_cancel c.utf8Size_pos, length_charMarks,
      length_unitMarks, BitVec.shiftLeft_or_distrib, BitVec.shiftLeft_or_distrib,
      ← BitVec.shiftLeft_add, ← BitVec.shiftLeft_add, Nat.add_comm 1]
    ac_rfl

theorem ofBytes_utf8 {text : List Char} (h : strLen text ≤ maxBase) :
    ofBytes (Text.utf8 text) = ofText text := by
  have hlength : (Text.utf8 text).length ≤ maxBase := by rwa [length_utf8]
  simp only [ofBytes, ofText, ofBlocks_eq _ hlength, map_utf8 map_startsChar, ofBits_units,
    map_utf8 (map_ascii (d := '\n') (by decide)), map_utf8 (map_ascii (d := '\t') (by decide))]

/-- Marks that are as long as the encodings. -/
def Fit (marks : Char → List Bool) : Prop := ∀ c, (marks c).length = c.utf8Size

theorem fit_charMarks : Fit charMarks := length_charMarks

theorem fit_unitMarks : Fit unitMarks := length_unitMarks

theorem fit_newlines : Fit (asciiMarks '\n') := length_asciiMarks rfl

theorem fit_tabs : Fit (asciiMarks '\t') := length_asciiMarks rfl

theorem Fit.length (h : Fit marks) (text : List Char) :
    (text.flatMap marks).length = strLen text := by
  induction text with
  | nil => rfl
  | cons c text ih => rw [flatMap_cons, length_append, h c, ih, strLen_cons]

section Parts

variable (text other : List Char)

theorem ofText_append :
    ofText (text ++ other) = (ofText text).or ((ofText other).map (· <<< strLen text)) := by
  have hjoin : ∀ {marks : Char → List Bool}, Fit marks →
      ofBits maxBase ((text ++ other).flatMap marks) =
        ofBits maxBase (text.flatMap marks) |||
          ofBits maxBase (other.flatMap marks) <<< strLen text := by
    intro marks h
    rw [flatMap_append, ofBits_append, h.length]
  rw [map, ofText, ofText, ofText]
  simp only [or, hjoin fit_charMarks, hjoin fit_unitMarks, hjoin fit_newlines, hjoin fit_tabs]

theorem ofText_left :
    (ofText (text ++ other)).map (· &&& lowMask maxBase (strLen text)) = ofText text := by
  have hpart : ∀ {marks : Char → List Bool}, Fit marks →
      ofBits maxBase ((text ++ other).flatMap marks) &&& lowMask maxBase (strLen text) =
        ofBits maxBase (text.flatMap marks) := by
    intro marks h
    rw [flatMap_append, ← h.length text, ofBits_append_and_lowMask]
  rw [map, ofText, ofText]
  simp only [hpart fit_charMarks, hpart fit_unitMarks, hpart fit_newlines, hpart fit_tabs]

variable {text other} in
theorem ofText_right (hfits : strLen (text ++ other) ≤ maxBase) :
    (ofText (text ++ other)).map (· >>> strLen text) = ofText other := by
  have hpart : ∀ {marks : Char → List Bool}, Fit marks →
      ofBits maxBase ((text ++ other).flatMap marks) >>> strLen text =
        ofBits maxBase (other.flatMap marks) := by
    intro marks h
    have hlength : (text.flatMap marks ++ other.flatMap marks).length ≤ maxBase := by
      rwa [← flatMap_append, h.length]
    rw [flatMap_append, ← h.length text, ofBits_append_ushiftRight hlength]
  rw [map, ofText, ofText]
  simp only [hpart fit_charMarks, hpart fit_unitMarks, hpart fit_newlines, hpart fit_tabs]

end Parts

end Bitmaps

/-! ## Strings -/

/-- `str::split_at`, which panics inside a character and behind the end. -/
def splitAt : List Char → Nat → Option (List Char × List Char)
  | text, 0 => some ([], text)
  | [], _ + 1 => none
  | c :: text, mid + 1 =>
    if c.utf8Size ≤ mid + 1 then do
      let (left, right) ← splitAt text (mid + 1 - c.utf8Size)
      return (c :: left, right)
    else none

/-- `str::is_char_boundary`. -/
def isCharBoundary (offset : Nat) : Bool := (splitAt text offset).isSome

/-- `str::ceil_char_boundary`. -/
def ceilCharBoundary : List Char → Nat → Nat
  | _, 0 => 0
  | [], _ + 1 => 0
  | c :: text, index + 1 => c.utf8Size + ceilCharBoundary text (index + 1 - c.utf8Size)

@[simp] theorem splitAt_append (left right : List Char) :
    splitAt (left ++ right) (strLen left) = some (left, right) := by
  induction left with
  | nil => cases right <;> rfl
  | cons c left ih =>
    obtain ⟨mid, hmid⟩ := Nat.exists_eq_add_one.2 (Nat.add_pos_left c.utf8Size_pos (strLen left))
    rw [cons_append, strLen_cons, hmid, splitAt, if_pos (by omega), ← hmid,
      Nat.add_sub_cancel_left, ih]
    rfl

variable {text : List Char}

theorem splitAt_eq_some {left right : List Char} {mid : Nat} :
    splitAt text mid = some (left, right) ↔ text = left ++ right ∧ strLen left = mid := by
  constructor
  · intro h
    fun_induction splitAt text mid generalizing left right with
    | case1 text =>
      cases h
      exact ⟨rfl, rfl⟩
    | case2 mid => cases h
    | case3 c text mid hle ih =>
      simp only [do_eq_some, pure_eq_some] at h
      obtain ⟨⟨left', right'⟩, hsplit, rfl, rfl⟩ := h
      obtain ⟨rfl, hlen⟩ := ih hsplit
      refine ⟨rfl, ?_⟩
      rw [strLen_cons, hlen]
      omega
    | case4 c text mid hgt => cases h
  · rintro ⟨rfl, rfl⟩
    exact splitAt_append left right

/-- The marks of the characters are at the boundaries. -/
theorem isCharBoundary_eq_charMarks (text : List Char) (offset : Nat) : isCharBoundary text offset =
    ((text.flatMap charMarks)[offset]?.getD false || offset == strLen text) := by
  rw [isCharBoundary]
  fun_induction splitAt text offset with
  | case1 text => cases text <;> rfl
  | case2 => rfl
  | case3 c text mid hle ih =>
    have hend : (mid + 1 == c.utf8Size + strLen text) = (mid + 1 - c.utf8Size == strLen text) := by
      grind
    rw [flatMap_cons, getElem?_append_right (by rwa [length_charMarks]), length_charMarks,
      strLen_cons, hend, ← ih]
    cases splitAt text (mid + 1 - c.utf8Size) <;> rfl
  | case4 c text mid hgt =>
    rw [flatMap_cons, getElem?_append_left (by rw [length_charMarks]; omega), charMarks,
      getElem?_cons_succ, getElem?_replicate_of_lt (by omega), strLen_cons,
      beq_false_of_ne (by omega)]
    rfl

/-! ## Chunks -/

/-- `Chunk`, and `ChunkSlice`, which has the same fields. -/
structure Chunk where
  bitmaps : Bitmaps
  text : List Char
  fits : strLen text ≤ maxBase
  exact : bitmaps = Bitmaps.ofText text

namespace Chunk

/-- `Chunk::default`. -/
def empty : Chunk := ⟨⟨0, 0, 0, 0⟩, [], Nat.zero_le _, by decide⟩

/-- `Chunk::new`. -/
def new (text : List Char) : Option Chunk :=
  if h : strLen text ≤ maxBase then
    some ⟨Bitmaps.ofBytes (Text.utf8 text), text, h, Bitmaps.ofBytes_utf8 h⟩
  else none

variable (self : Chunk)

/-- `ChunkSlice::len`. -/
def len : Nat := strLen self.text

/-- `ChunkSlice::is_empty`. -/
def isEmpty : Bool := self.text.isEmpty

/-- `Chunk::is_char_boundary` and `ChunkSlice::is_char_boundary`.  The offset is cast to `u32` for
the shift. -/
def isCharBoundary (offset : Nat) : Bool :=
  (BitVec.ofNat maxBase 1 <<< (offset % UInt32.size)) &&& self.bitmaps.chars != 0 ||
    offset == self.len

/-- A chunk with the text of another one behind its own. -/
def join (other : Chunk) (h : self.len + other.len ≤ maxBase) : Chunk where
  bitmaps := self.bitmaps.or (other.bitmaps.map (· <<< self.len))
  text := self.text ++ other.text
  fits := by rwa [strLen_append]
  exact := by rw [Bitmaps.ofText_append, self.exact, other.exact]; rfl

/-- `Chunk::append`, which panics if the texts do not fit. -/
def append (slice : Chunk) : Option Chunk :=
  if slice.isEmpty then some self
  else if h : self.len + slice.len ≤ maxBase then some (self.join slice h)
  else none

/-- `Chunk::prepend`. -/
def prepend (slice : Chunk) : Option Chunk :=
  if slice.isEmpty then some self
  else if self.isEmpty then new slice.text
  else if h : slice.len + self.len ≤ maxBase then some (slice.join self h)
  else none

/-- `Chunk::push_str`. -/
def pushStr (text : List Char) : Option Chunk := do self.append (← new text)

/-- `Chunk::prepend_str`. -/
def prependStr (text : List Char) : Option Chunk := do self.prepend (← new text)

/-- The front part of a chunk. -/
def front {left right : List Char} (h : self.text = left ++ right) : Chunk where
  bitmaps := self.bitmaps.map (· &&& lowMask maxBase (strLen left))
  text := left
  fits := le_trans (by rw [h, strLen_append]; omega) self.fits
  exact := by rw [self.exact, h, Bitmaps.ofText_left]

/-- The part of a chunk behind its front. -/
def back {left right : List Char} (h : self.text = left ++ right) : Chunk where
  bitmaps := self.bitmaps.map (· >>> strLen left)
  text := right
  fits := le_trans (by rw [h, strLen_append]; omega) self.fits
  exact := by rw [self.exact, h, Bitmaps.ofText_right (by rw [← h]; exact self.fits)]

/-- The two parts of a chunk at a boundary of its text. -/
def parts (mid : Nat) : Option (Chunk × Chunk) :=
  match h : Rope.splitAt self.text mid with
  | some (_, _) =>
    have hsplit := (splitAt_eq_some.1 h).1
    some (self.front hsplit, self.back hsplit)
  | none => none

/-- `ChunkSlice::split_at`. -/
def splitAt (mid : Nat) : Option (Chunk × Chunk) :=
  if mid = maxBase then some (self, empty) else self.parts mid

/-- `ChunkSlice::slice`: a range that ends inside characters is made smaller. -/
def slice (start stop : Nat) : Option Chunk :=
  if start = maxBase then some empty
  else do
    let start :=
      if self.isCharBoundary start then start else ceilCharBoundary self.text start
    let stop :=
      if self.isCharBoundary stop then stop
      else if stop < start then start
      else Text.floorCharBoundary self.text stop
    let (part, _) ← self.parts stop
    let (_, part) ← part.parts start
    return part

section Specs

variable {self other : Chunk} {text left middle right : List Char}

theorem new_text (self : Chunk) : new self.text = some self := by
  obtain ⟨bitmaps, text, fits, rfl⟩ := self
  rw [new, dif_pos fits]
  simp only [Bitmaps.ofBytes_utf8 fits]

theorem new_eq_none (h : maxBase < strLen text) : new text = none := dif_neg (by omega)

theorem text_of_new (h : new text = some self) : self.text = text := by
  rw [new] at h
  split at h
  · cases h
    rfl
  · cases h

/-- Two chunks are joined, or their texts are too long for one. -/
theorem join_eq_new (self other : Chunk) :
    (if h : self.len + other.len ≤ maxBase then some (self.join other h) else none) =
      new (self.text ++ other.text) := by
  split
  next h => exact (new_text (self.join other h)).symm
  next h =>
    rw [len, len, ← strLen_append] at h
    exact (new_eq_none (by omega)).symm

theorem append_eq_new (self other : Chunk) : self.append other = new (self.text ++ other.text) := by
  rw [append]
  split
  next hempty => rw [isEmpty_iff.1 hempty, append_nil, new_text]
  next => exact join_eq_new self other

theorem prepend_eq_new (self other : Chunk) :
    self.prepend other = new (other.text ++ self.text) := by
  rw [prepend]
  split
  next hempty => rw [isEmpty_iff.1 hempty, nil_append, new_text]
  next =>
    split
    next hempty => rw [isEmpty_iff.1 hempty, append_nil]
    next => exact join_eq_new other self

/-- A text that does not fit into a chunk does not fit with another one either. -/
theorem bind_new (left right : List Char) {f : Chunk → Option Chunk}
    (hf : ∀ chunk, f chunk = new (left ++ chunk.text ++ right)) (text : List Char) :
    (new text).bind f = new (left ++ text ++ right) := by
  cases hnew : new text with
  | some chunk =>
    rw [← text_of_new hnew]
    exact hf chunk
  | none =>
    refine (new_eq_none ?_).symm
    rw [new, dite_eq_right_iff] at hnew
    by_contra hfits
    rw [strLen_append, strLen_append] at hfits
    cases hnew (by omega)

theorem pushStr_eq_new (self : Chunk) (text : List Char) :
    self.pushStr text = new (self.text ++ text) := by
  have hbind := bind_new self.text [] (f := self.append) (by simp [append_eq_new]) text
  rwa [append_nil] at hbind

theorem prependStr_eq_new (self : Chunk) (text : List Char) :
    self.prependStr text = new (text ++ self.text) :=
  bind_new [] self.text (prepend_eq_new self) text

theorem parts_eq (h : self.text = left ++ right) :
    ∃ a b, self.parts (strLen left) = some (a, b) ∧ new left = some a ∧ new right = some b := by
  have hsplit : Rope.splitAt self.text (strLen left) = some (left, right) := by
    rw [h, Rope.splitAt_append]
  rw [parts]
  split
  next hsome =>
    cases hsplit.symm.trans hsome
    exact ⟨_, _, rfl, new_text (self.front h), new_text (self.back h)⟩
  next hnone => cases hsplit.symm.trans hnone

theorem eq_nil_of_fits (hfits : strLen (left ++ right) ≤ maxBase) (h : strLen left = maxBase) :
    right = [] := by
  have hlength := length_le_strLen right
  rw [strLen_append] at hfits
  exact eq_nil_of_length_eq_zero (by omega)

theorem splitAt_eq (h : self.text = left ++ right) : ∃ a b,
    self.splitAt (strLen left) = some (a, b) ∧ new left = some a ∧ new right = some b := by
  rw [splitAt]
  split
  next hmax =>
    have hfits := self.fits
    rw [h] at hfits
    obtain rfl := eq_nil_of_fits hfits hmax
    rw [append_nil] at h
    exact ⟨self, empty, rfl, by rw [← h, new_text], new_text empty⟩
  next => exact parts_eq h

/-- The bitmap tells the boundaries of the text. -/
theorem isCharBoundary_eq {offset : Nat} (h : offset < UInt32.size) :
    self.isCharBoundary offset = Rope.isCharBoundary self.text offset := by
  rw [isCharBoundary, Nat.mod_eq_of_lt h, bit_and_ne_zero, self.exact, Bitmaps.ofText,
    getLsbD_ofBits, len, isCharBoundary_eq_charMarks]
  by_cases hlt : offset < maxBase
  · rw [decide_eq_true hlt, Bool.true_and]
  · have hfits := self.fits
    rw [decide_eq_false hlt, getElem?_eq_none (by rw [Bitmaps.fit_charMarks.length]; omega)]
    rfl

theorem isCharBoundary_of_split (h : self.text = left ++ right) :
    self.isCharBoundary (strLen left) = true := by
  have hfits := self.fits
  have hsize : maxBase < UInt32.size := by decide
  rw [h, strLen_append] at hfits
  rw [isCharBoundary_eq (by omega), h, Rope.isCharBoundary, Rope.splitAt_append]
  rfl

theorem slice_eq_new (h : self.text = left ++ middle ++ right) :
    self.slice (strLen left) (strLen (left ++ middle)) = new middle := by
  rw [slice]
  split
  next hmax =>
    have hfits := self.fits
    rw [h, append_assoc] at hfits
    obtain ⟨rfl, -⟩ := append_eq_nil_iff.1 (eq_nil_of_fits hfits hmax)
    exact (new_text empty).symm
  next =>
    obtain ⟨part, _, hpart, hnew, _⟩ := parts_eq h
    obtain ⟨_, chunk, hchunk, _, hmiddle⟩ := parts_eq (text_of_new hnew)
    have hstart := isCharBoundary_of_split (h.trans (append_assoc ..))
    simp only [hstart, isCharBoundary_of_split h, if_true, hpart, some_do, hchunk, hmiddle]
    rfl

/-- Working on the bitmaps agrees with working on the text.  They tell the boundaries of the text,
as far as offsets are `u32`.  Texts that are put together, and the parts of a text, give the chunks
that `Chunk::new` makes of the same texts; it panics if they do not fit. -/
theorem bitmaps_agree_with_text (self : Chunk) :
    (∀ offset < UInt32.size, self.isCharBoundary offset = Rope.isCharBoundary self.text offset) ∧
    (∀ other : Chunk, self.append other = new (self.text ++ other.text) ∧
      self.prepend other = new (other.text ++ self.text)) ∧
    (∀ text, self.pushStr text = new (self.text ++ text) ∧
      self.prependStr text = new (text ++ self.text)) ∧
    (∀ left right, self.text = left ++ right → ∃ a b,
      self.splitAt (strLen left) = some (a, b) ∧ new left = some a ∧ new right = some b) ∧
    ∀ left middle right, self.text = left ++ middle ++ right →
      self.slice (strLen left) (strLen (left ++ middle)) = new middle :=
  ⟨fun _ => isCharBoundary_eq, fun other => ⟨append_eq_new self other, prepend_eq_new self other⟩,
    fun text => ⟨pushStr_eq_new self text, prependStr_eq_new self text⟩,
    fun _ _ => splitAt_eq, fun _ _ _ => slice_eq_new⟩

end Specs

end Chunk

end XorEditor.Rope
