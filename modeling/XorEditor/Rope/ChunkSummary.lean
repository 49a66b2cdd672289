import XorEditor.Rope.Chunk

/-!
# The summary of a chunk

`text_summary` reads the summary of a chunk off its bitmaps, and finds the longest row by shifting
the rows out of the bitmaps one by one.  It is the summary of the text of the chunk.

* `RowScan.run`: the loop of `longest_row`, and `RowScan.Scanned`, what it knows.
* `Chunk.textSummary`, `Chunk.textSummary_eq`: the summary off the bitmaps is that of the text.
* `summary_homomorphism`: summaries of texts of fewer than `2 ^ 32` bytes add up.
* `Sample.long_rows`: summaries of longer texts do not.
-/

namespace XorEditor.Rope

open Lib Lib.Bitmap List

/-! ## Counts in the bitmaps -/

theorem count_charMarks (text : List Char) : (text.flatMap charMarks).count true = text.length := by
  induction text with
  | nil => rfl
  | cons c text ih =>
    rw [flatMap_cons, count_append, ih, charMarks, count_cons_self,
      count_replicate, length_cons, Nat.add_comm]
    rfl

theorem count_unitMarks (text : List Char) :
    (text.flatMap unitMarks).count true = lenIn .utf16 text := by
  induction text with
  | nil => rfl
  | cons c text ih =>
    have hsize : (unitMarks c).count true = TextUnit.utf16.size c := by
      have hwide : c.utf8Size = 4 ↔ ¬ c.val.toNat < 65536 := by
        rw [Text.utf8Size_eq]
        split_ifs <;> omega
      rw [unitMarks, TextUnit.size]
      by_cases hsize : c.utf8Size = 4
      · rw [if_pos hsize, if_neg (hwide.1 hsize)]
        rfl
      · rw [if_neg hsize, if_pos (by omega), charMarks, count_cons_self, count_replicate]
        rfl
    rw [flatMap_cons, count_append, ih, hsize, lenIn_cons]

theorem count_newlines (unit : TextUnit) (text : List Char) :
    (text.flatMap (asciiMarks '\n')).count true = (pointIn unit text).row := by
  induction text with
  | nil => rfl
  | cons c text ih =>
    rw [flatMap_cons, count_append, ih, pointIn_cons, PointIn.add_row, asciiMarks, charPoint]
    split
    · rfl
    · rw [count_replicate]
      rfl

/-- A row has no newline in it. -/
theorem newlines_line {line : List Char} (h : '\n' ∉ line) :
    line.flatMap (asciiMarks '\n') = List.replicate (strLen line) false := by
  induction line with
  | nil => rfl
  | cons c line ih =>
    rw [mem_cons, not_or] at h
    rw [flatMap_cons, ih h.2, asciiMarks, if_neg (Ne.symm h.1), ← replicate_add, strLen_cons]

theorem newlines_row {line : List Char} (h : '\n' ∉ line) (rest : List Char) :
    (line ++ '\n' :: rest).flatMap (asciiMarks '\n') =
      List.replicate (strLen line) false ++ true :: rest.flatMap (asciiMarks '\n') := by
  rw [flatMap_append, newlines_line h, flatMap_cons]
  rfl

section Bits

variable {text done line rest : List Char}

theorem countOnes_chars (h : strLen text ≤ maxBase) :
    countOnes (Bitmaps.ofText text).chars = text.length := by
  rw [Bitmaps.ofText, countOnes_ofBits (by rwa [Bitmaps.fit_charMarks.length]), count_charMarks]

theorem countOnes_charsUtf16 (h : strLen text ≤ maxBase) :
    countOnes (Bitmaps.ofText text).charsUtf16 = lenIn .utf16 text := by
  rw [Bitmaps.ofText, countOnes_ofBits (by rwa [Bitmaps.fit_unitMarks.length]), count_unitMarks]

theorem countOnes_newlines (unit : TextUnit) (h : strLen text ≤ maxBase) :
    countOnes (Bitmaps.ofText text).newlines = (pointIn unit text).row := by
  rw [Bitmaps.ofText, countOnes_ofBits (by rwa [Bitmaps.fit_newlines.length]), count_newlines unit]

/-- The first newline ends the first row. -/
theorem trailingZeros_newlines (hline : '\n' ∉ line) (h : strLen (line ++ '\n' :: rest) ≤ maxBase) :
    trailingZeros (Bitmaps.ofText (line ++ '\n' :: rest)).newlines = strLen line := by
  rw [← Bitmaps.fit_newlines.length, newlines_row hline] at h
  simp only [Bitmaps.ofText]
  rw [newlines_row hline, trailingZeros_ofBits h]

theorem newlines_ne_zero (hline : '\n' ∉ line) (h : strLen (line ++ '\n' :: rest) ≤ maxBase) :
    (Bitmaps.ofText (line ++ '\n' :: rest)).newlines ≠ 0 := by
  intro hzero
  have hix := trailingZeros_newlines hline h
  have hall := trailingZeros_ofBits_zeros (Nat.zero_le maxBase)
  rw [replicate_zero, ofBits_nil] at hall
  rw [hzero] at hix
  rw [strLen_append, strLen_cons, ← hall.symm.trans hix] at h
  have hpos := Char.utf8Size_pos '\n'
  omega

/-- The last newline ends the rows before the last one. -/
theorem leadingZeros_newlines (hdone : EndsRow done) (hline : '\n' ∉ line)
    (h : strLen (done ++ line) ≤ maxBase) :
    leadingZeros (Bitmaps.ofText (done ++ line)).newlines = maxBase - strLen done := by
  rw [← Bitmaps.fit_newlines.length] at h
  simp only [Bitmaps.ofText]
  obtain rfl | ⟨front, rfl⟩ := hdone
  · rw [nil_append, newlines_line hline] at h ⊢
    rw [leadingZeros_ofBits_zeros (by simpa using h)]
    rfl
  · have hmarks : (front ++ ['\n'] ++ line).flatMap (asciiMarks '\n') =
        front.flatMap (asciiMarks '\n') ++ true :: List.replicate (strLen line) false := by
      rw [append_assoc, flatMap_append, singleton_append, flatMap_cons, newlines_line hline]
      rfl
    rw [hmarks] at h ⊢
    rw [leadingZeros_ofBits h, Bitmaps.fit_newlines.length, strLen_append]
    rfl

/-- The bits of a part of a text at its end. -/
theorem countOnes_and_highMask {marks : Char → List Bool} (hmarks : Bitmaps.Fit marks)
    (h : strLen (done ++ line) ≤ maxBase) :
    countOnes (ofBits maxBase ((done ++ line).flatMap marks) &&&
      highMask maxBase (maxBase - strLen done)) = (line.flatMap marks).count true := by
  have hlength := hmarks.length (done ++ line)
  rw [flatMap_append, length_append] at hlength
  rw [← hmarks.length done, flatMap_append, ofBits_append_and_highMask (by omega),
    countOnes_ofBits (by rw [length_append, length_replicate]; omega),
    count_append, count_replicate]
  simp

end Bits

/-! ## Summaries -/

/-- The state of the loop in `ChunkSlice::longest_row`. -/
structure RowScan where
  chars : Bitmap
  newlines : Bitmap
  totalChars : Nat
  row : Nat
  longestRow : Nat
  longestRowChars : Nat

namespace RowScan

/-- The body of the loop. -/
def nextRow (self : RowScan) : RowScan :=
  let newlineIx := trailingZeros self.newlines
  let rowChars := countOnes (self.chars &&& lowMask maxBase newlineIx)
  { chars := self.chars >>> newlineIx >>> 1
    newlines := self.newlines >>> newlineIx >>> 1
    totalChars := self.totalChars + rowChars + 1
    row := self.row + 1
    longestRow := if self.longestRowChars < rowChars then self.row else self.longestRow
    longestRowChars :=
      if self.longestRowChars < rowChars then rowChars else self.longestRowChars }

/-- The loop, which runs as long as there are newlines. -/
def run : Nat → RowScan → RowScan
  | 0, self => self
  | fuel + 1, self => if self.newlines = 0 then self else run fuel self.nextRow

end RowScan

variable (self : Chunk)

namespace Chunk

/-- `ChunkSlice::len_utf16`. -/
def lenUtf16 : Nat := countOnes self.bitmaps.charsUtf16

/-- `ChunkSlice::lines`. -/
def lines : ExactPoint :=
  ⟨countOnes self.bitmaps.newlines, leadingZeros self.bitmaps.newlines - (maxBase - self.len)⟩

/-- `ChunkSlice::first_line_chars`. -/
def firstLineChars : Nat :=
  countOnes (self.bitmaps.chars &&& lowMask maxBase (trailingZeros self.bitmaps.newlines))

/-- `ChunkSlice::last_line_chars`. -/
def lastLineChars : Nat :=
  countOnes (self.bitmaps.chars &&& highMask maxBase (leadingZeros self.bitmaps.newlines))

/-- `ChunkSlice::last_line_len_utf16`. -/
def lastLineLenUtf16 : Nat :=
  countOnes (self.bitmaps.charsUtf16 &&& highMask maxBase (leadingZeros self.bitmaps.newlines))

/-- `ChunkSlice::longest_row`: all characters, and the longest row with its characters.  Every
iteration shifts out a newline, so there are at most as many as there are bits. -/
def longestRow : Nat × Nat × Nat :=
  let scan := RowScan.run maxBase ⟨self.bitmaps.chars, self.bitmaps.newlines, 0, 0, 0, 0⟩
  let rowChars := countOnes scan.chars
  (scan.totalChars + rowChars,
    if scan.longestRowChars < rowChars then (scan.row, rowChars)
    else (scan.longestRow, scan.longestRowChars))

/-- `ChunkSlice::text_summary`. -/
def textSummary : TextSummary :=
  let (chars, longestRow, longestRowChars) := self.longestRow
  { len := self.len
    chars
    lenUtf16 := self.lenUtf16
    lines := self.lines.cast
    firstLineChars := .ofNat self.firstLineChars
    lastLineChars := .ofNat self.lastLineChars
    lastLineLenUtf16 := .ofNat self.lastLineLenUtf16
    longestRow := .ofNat longestRow
    longestRowChars := .ofNat longestRowChars }

end Chunk

/-! ## The longest row -/

/-- What the loop knows when it has shifted out `done` and has `rest` in front of it. -/
structure RowScan.Scanned (scan : RowScan) (done rest : List Char) : Prop where
  fits : strLen rest ≤ maxBase
  row : EndsRow done
  chars : scan.chars = (Bitmaps.ofText rest).chars
  newlines : scan.newlines = (Bitmaps.ofText rest).newlines
  totalChars : scan.totalChars = done.length
  rows : scan.row = (pointIn .utf8 done).row
  longestRow : scan.longestRow = (SummaryIn.ofText done : ExactSummary).longestRow
  longestRowChars : scan.longestRowChars = (SummaryIn.ofText done : ExactSummary).longestRowChars

theorem EndsRow.lastLineChars_eq_zero {done : List Char} (h : EndsRow done) :
    (SummaryIn.ofText done).lastLineChars = 0 := by
  obtain rfl | ⟨front, rfl⟩ := h
  · rfl
  · rw [SummaryIn.ofText_snoc, SummaryIn.step_newline]

/-- The bits behind a row. -/
theorem ofText_behind_row {line rest : List Char} (h : strLen (line ++ '\n' :: rest) ≤ maxBase) :
    (Bitmaps.ofText (line ++ '\n' :: rest)).map (· >>> strLen line >>> 1) =
      Bitmaps.ofText rest := by
  have hsplit : line ++ '\n' :: rest = (line ++ ['\n']) ++ rest := by simp
  have hlen : strLen line + 1 = strLen (line ++ ['\n']) := by
    rw [strLen_append]
    rfl
  rw [hsplit] at h ⊢
  simp only [← BitVec.shiftRight_add, hlen]
  exact Bitmaps.ofText_right h

namespace RowScan

variable {self : RowScan} {done line rest : List Char}

theorem Scanned.nextRow (h : self.Scanned done (line ++ '\n' :: rest)) (hline : '\n' ∉ line) :
    self.nextRow.Scanned (done ++ (line ++ ['\n'])) rest := by
  have hbehind := ofText_behind_row h.fits
  have hix : trailingZeros self.newlines = strLen line := by
    rw [h.newlines, trailingZeros_newlines hline h.fits]
  have hfits : strLen line ≤ maxBase := by
    have := h.fits
    rw [strLen_append] at this
    omega
  have hrow : countOnes (self.chars &&& lowMask maxBase (strLen line)) = line.length := by
    rw [h.chars, ← countOnes_chars hfits, ← Bitmaps.ofText_left line ('\n' :: rest)]
    rfl
  have hlast := h.row.lastLineChars_eq_zero
  have hsummary := SummaryIn.ofText_append done (line ++ ['\n'])
  simp only [SummaryIn.ofText_row hline, SummaryIn.add_def, SummaryIn.addAssign,
    SummaryIn.addCounts, SummaryIn.noteLongest_eq, hlast] at hsummary
  have hrestFits : strLen rest ≤ maxBase := by
    have := h.fits
    rw [strLen_append, strLen_cons] at this
    omega
  refine ⟨hrestFits, Or.inr ⟨done ++ line, (append_assoc _ _ _).symm⟩, ?_, ?_, ?_, ?_, ?_, ?_⟩
  · simp only [RowScan.nextRow, hix, h.chars, ← hbehind]
    rfl
  · simp only [RowScan.nextRow, hix]
    rw [← hbehind, h.newlines]
    rfl
  · simp [RowScan.nextRow, hix, hrow, h.totalChars, Nat.add_assoc]
  · simp [RowScan.nextRow, h.rows, pointIn_line _ hline, charPoint]
  · have hlines := (SummaryIn.ofText_counts done).2.2.2.1
    simp only [RowScan.nextRow, hix, hrow, hsummary, h.longestRow, h.longestRowChars, h.rows,
      hlines, Nat.zero_add]
    rw [if_neg (Nat.not_lt.2 (le_max_right _ _))]
  · simp only [RowScan.nextRow, hix, hrow, hsummary, h.longestRowChars]
    split_ifs <;> omega

/-- The loop ends in front of the last row. -/
theorem Scanned.run {fuel : Nat} (h : self.Scanned done rest) (hfuel : rest.count '\n' ≤ fuel) :
    ∃ done' line, done ++ rest = done' ++ line ∧ '\n' ∉ line ∧
      (RowScan.run fuel self).Scanned done' line := by
  induction fuel generalizing self done rest with
  | zero =>
    have hrest : '\n' ∉ rest := count_eq_zero.1 (by omega)
    exact ⟨done, rest, rfl, hrest, h⟩
  | succ fuel ih =>
    rw [RowScan.run]
    by_cases hrest : '\n' ∈ rest
    · obtain ⟨line, rest, rfl, hline⟩ := eq_append_cons_of_mem hrest
      rw [if_neg (h.newlines ▸ newlines_ne_zero hline h.fits)]
      rw [count_append, count_cons_self] at hfuel
      obtain ⟨done', last, hsplit, hlast, hscan⟩ := ih (h.nextRow hline) (by omega)
      refine ⟨done', last, ?_, hlast, hscan⟩
      rw [← hsplit]
      simp
    · have hzero : self.newlines = 0 := by
        rw [h.newlines, Bitmaps.ofText, newlines_line hrest, ofBits_zeros]
        rfl
      rw [if_pos hzero]
      exact ⟨done, rest, rfl, hrest, h⟩

end RowScan

namespace Chunk

/-- The loop counts all characters and finds the longest row. -/
theorem longestRow_eq :
    self.longestRow = (self.text.length, (SummaryIn.ofText self.text).longestRow,
      (SummaryIn.ofText self.text).longestRowChars) := by
  have hstart : (RowScan.mk self.bitmaps.chars self.bitmaps.newlines 0 0 0 0).Scanned []
      self.text := by
    refine ⟨self.fits, Or.inl rfl, ?_, ?_, rfl, rfl, rfl, rfl⟩
    · rw [self.exact]
    · rw [self.exact]
  have hfuel : self.text.count '\n' ≤ maxBase :=
    (count_le_length.trans (length_le_strLen _)).trans self.fits
  obtain ⟨done, line, hsplit, hline, hscan⟩ := hstart.run hfuel
  have hchars := countOnes_chars hscan.fits
  have hlines := (SummaryIn.ofText_counts done).2.2.2.1
  have hsummary := SummaryIn.ofText_append done line
  simp only [SummaryIn.ofText_line hline, SummaryIn.add_def, SummaryIn.addAssign,
    SummaryIn.addCounts, SummaryIn.noteLongest_eq, hscan.row.lastLineChars_eq_zero] at hsummary
  rw [nil_append] at hsplit
  rw [longestRow, hsplit, hsummary]
  simp only [hscan.chars, hchars, hscan.totalChars, hscan.rows, hscan.longestRow,
    hscan.longestRowChars, length_append, Nat.zero_add, hlines]
  rw [if_neg (Nat.not_lt.2 (le_max_right _ _)), max_assoc, max_self]
  split
  next hlonger => rw [max_eq_right (Nat.le_of_lt hlonger)]
  next hshorter => rw [max_eq_left (Nat.not_lt.1 hshorter)]

/-- The counts in front of the first newline. -/
theorem firstLineChars_eq :
    self.firstLineChars = (SummaryIn.ofText self.text).firstLineChars := by
  have hfits := self.fits
  rw [firstLineChars, self.exact]
  by_cases hnewline : '\n' ∈ self.text
  · obtain ⟨line, rest, hsplit, hline⟩ := eq_append_cons_of_mem hnewline
    rw [hsplit] at hfits ⊢
    have hlineFits : strLen line ≤ maxBase := by
      rw [strLen_append] at hfits
      omega
    have hleft := congrArg Bitmaps.chars (Bitmaps.ofText_left line ('\n' :: rest))
    have hrows : line ++ '\n' :: rest = (line ++ ['\n']) ++ rest := by simp
    rw [trailingZeros_newlines hline hfits]
    refine ((congrArg countOnes hleft).trans (countOnes_chars hlineFits)).trans ?_
    rw [hrows, SummaryIn.ofText_append, SummaryIn.ofText_row hline, SummaryIn.add_def,
      SummaryIn.addAssign, SummaryIn.noteLongest_eq, SummaryIn.noteLongest_eq]
    rfl
  · have hzeros : trailingZeros (Bitmaps.ofText self.text).newlines = maxBase := by
      simp only [Bitmaps.ofText]
      rw [newlines_line hnewline, trailingZeros_ofBits_zeros hfits]
    rw [hzeros, and_lowMask_self, countOnes_chars hfits, SummaryIn.ofText_line hnewline]

/-- The counts behind the last newline. -/
theorem lastLine_eq : self.lines = pointIn .utf8 self.text ∧
      self.lastLineChars = (SummaryIn.ofText self.text).lastLineChars ∧
      self.lastLineLenUtf16 = (SummaryIn.ofText self.text).lastLineLenUtf16 := by
  have hfits := self.fits
  rw [lines, lastLineChars, lastLineLenUtf16, self.exact, len]
  obtain ⟨done, line, hsplit, hdone, hline⟩ := exists_lastRow self.text
  rw [hsplit] at hfits ⊢
  have hlastUtf16 : (SummaryIn.ofText (done ++ line)).lastLineLenUtf16 =
      (pointIn .utf16 (done ++ line)).column := by
    rw [← (SummaryIn.ofText_counts _).2.2.2.2]
    rfl
  rw [countOnes_newlines .utf8 hfits, leadingZeros_newlines hdone hline hfits, hlastUtf16,
    pointIn_lastRow hdone hline, pointIn_lastRow hdone hline]
  refine ⟨?_, ?_, ?_⟩
  · rw [strLen_append] at hfits ⊢
    congr 1
    change _ = strLen line
    omega
  · refine (countOnes_and_highMask Bitmaps.fit_charMarks hfits).trans ?_
    rw [count_charMarks, SummaryIn.ofText_append, SummaryIn.ofText_line hline,
      SummaryIn.add_def, SummaryIn.addAssign, SummaryIn.addCounts]
    simp [SummaryIn.noteLongest_eq, hdone.lastLineChars_eq_zero]
  · exact (countOnes_and_highMask Bitmaps.fit_unitMarks hfits).trans (count_unitMarks line)

/-- The summary that is read off the bitmaps is that of the text. -/
theorem textSummary_eq : self.textSummary = SummaryIn.ofText self.text := by
  obtain ⟨hlen, hchars, hlenUtf16, hlines, -⟩ := SummaryIn.ofText_counts self.text
  obtain ⟨hlast, hlastChars, hlastUtf16⟩ := self.lastLine_eq
  have hunits : self.lenUtf16 = lenIn .utf16 self.text := by
    rw [lenUtf16, self.exact, countOnes_charsUtf16 self.fits]
  have hfew : self.text.length < UInt32.size :=
    ((length_le_strLen _).trans self.fits).trans_lt (by decide)
  rw [textSummary, self.longestRow_eq, ← hchars, hunits, ← hlenUtf16, hlast, ← hlines,
    self.firstLineChars_eq, hlastChars, hlastUtf16, len, ← hlen, TextSummary.ofText_eq_cast hfew]
  rfl

end Chunk

/-- Summaries add up along the texts if the whole has fewer bytes than `u32` counts.  The longest
row in such a summary is the first one of several.  The summary of a chunk is that of its text. -/
theorem summary_homomorphism :
    (∀ text other : List Char, strLen (text ++ other) < UInt32.size →
      (SummaryIn.ofText text + SummaryIn.ofText other : TextSummary) =
        SummaryIn.ofText (text ++ other)) ∧
    (∀ text : List Char, strLen text < UInt32.size →
      SummaryIn.FirstLargest ((rows text).map List.length)
        (SummaryIn.ofText text : TextSummary).longestRow.toNat
        (SummaryIn.ofText text : TextSummary).longestRowChars.toNat) ∧
    ∀ chunk : Chunk, chunk.textSummary = SummaryIn.ofText chunk.text := by
  refine ⟨fun text other hfew => ?_, fun text hfew => ?_, Chunk.textSummary_eq⟩
  · have hlength := (length_le_strLen _).trans_lt hfew
    rw [TextSummary.add_eq_cast hlength, TextSummary.ofText_eq_cast hlength]
  · have hlength := (length_le_strLen _).trans_lt hfew
    obtain ⟨-, hchars, hrow⟩ := SummaryIn.ofText_le_length text
    rw [TextSummary.ofText_eq_cast hlength, SummaryIn.cast,
      UInt32.toNat_ofNat_of_lt' (by omega), UInt32.toNat_ofNat_of_lt' (by omega)]
    exact (SummaryIn.ofText_longestRow text).2

namespace Sample

/-- The rows `ab`, `cde` and `fg`, with the seam in the second one. -/
theorem seam_adds_up :
    (SummaryIn.ofText ['a', 'b', '\n', 'c'] + SummaryIn.ofText ['d', 'e', '\n', 'f', 'g'] :
      TextSummary) = ⟨9, 9, 9, ⟨2, 2⟩, 2, 2, 2, 1, 3⟩ := by
  rw [summary_homomorphism.1 _ _ (by decide)]
  rfl

/-- Two rows of `2 ^ 31` characters each: the length of the joined row wraps around to zero in the
sum, so that the longest row stays half as long. -/
theorem long_rows :
    (SummaryIn.ofText (List.replicate (2 ^ 31) 'x') +
        SummaryIn.ofText (List.replicate (2 ^ 31) 'x') : TextSummary) ≠
      SummaryIn.ofText (List.replicate (2 ^ 31) 'x' ++ List.replicate (2 ^ 31) 'x') := by
  have hline : ∀ n, '\n' ∉ List.replicate n 'x' := by simp [mem_replicate]
  have hrow : ∀ n < UInt32.size, (SummaryIn.ofText (List.replicate n 'x') : TextSummary) =
      ⟨n, n, n, ⟨0, .ofNat n⟩, .ofNat n, .ofNat n, .ofNat n, 0, .ofNat n⟩ := by
    intro n hn
    have hsize : 'x'.utf8Size = 1 := rfl
    have hlen : ∀ unit : TextUnit, lenIn unit (List.replicate n 'x') = n := by
      intro unit
      cases unit <;> simp [lenIn, TextUnit.size, hsize]
    rw [TextSummary.ofText_eq_cast (by simpa using hn), SummaryIn.ofText_line (hline n)]
    simp only [strLen, hlen, length_replicate]
    rfl
  -- the whole has one character more than `u32` counts
  have hcount : 2 ^ 31 + 2 ^ 31 = UInt32.size - 1 + 1 := by decide
  have hwhole : List.replicate (2 ^ 31) 'x' ++ List.replicate (2 ^ 31) 'x' =
      List.replicate (UInt32.size - 1) 'x' ++ ['x'] := by
    rw [replicate_append_replicate, hcount, replicate_succ']
  rw [hwhole, SummaryIn.ofText_snoc, hrow _ (by decide), hrow _ (by decide)]
  intro hsame
  have hlongest := congrArg SummaryIn.longestRowChars hsame
  revert hlongest
  decide

end Sample

end XorEditor.Rope
