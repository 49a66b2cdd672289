import Mathlib.Algebra.GroupWithZero.Nat
import Mathlib.Data.List.Induction
import Mathlib.Data.Prod.Lex
import XorEditor.Text.Rope

/-!
# Text summaries

A `str` is modelled by its characters, and its length is that of its UTF-8 encoding.  A
`TextSummary` counts what the position queries of a rope need: bytes, characters, UTF-16 code
units and rows, and the first, the last and the longest row.

Rows, columns and the lengths of rows are counted in `u32`, whose additions wrap around in a
release build.  The functions are defined for any type of counts, and proved about at `Nat`,
where nothing wraps around; `cast` takes the results back to `u32`.

* `PointIn`, `SummaryIn`: points and summaries with their counts; `Point`, `PointUtf16` and
  `TextSummary` are those of the source.
* `SummaryIn.ofText`, `SummaryIn.addAssign`: `TextSummary::from` and `TextSummary::add_assign`.
* `SummaryIn.ofText_append`: exact summaries add up along the texts.
* `TextSummary.ofText_eq_cast`, `TextSummary.add_eq_cast`: of fewer characters than `u32` counts,
  the summaries are exact.
-/

namespace XorEditor.Rope

open List

/-- The units that positions in a text are counted in. -/
inductive TextUnit where
  | utf8
  | utf16
  deriving DecidableEq, Repr

/-- `char::len_utf8` and `char::len_utf16`. -/
def TextUnit.size : TextUnit → Char → Nat
  | utf8, c => c.utf8Size
  | utf16, c => if c.val.toNat < 65536 then 1 else 2

@[simp] theorem TextUnit.size_utf8 (c : Char) : TextUnit.utf8.size c = c.utf8Size := rfl

/-- The length of a text in a unit. -/
def lenIn (unit : TextUnit) (text : List Char) : Nat := (text.map unit.size).sum

variable (text : List Char)

/-- `str::len`. -/
abbrev strLen : Nat := lenIn .utf8 text

section LenIn

variable (unit : TextUnit)

@[simp] theorem lenIn_nil : lenIn unit [] = 0 := rfl

@[simp] theorem lenIn_cons (c : Char) (text : List Char) :
    lenIn unit (c :: text) = unit.size c + lenIn unit text := by
  simp [lenIn]

@[simp] theorem lenIn_append (text other : List Char) :
    lenIn unit (text ++ other) = lenIn unit text + lenIn unit other := by
  simp [lenIn]

theorem strLen_cons (c : Char) (text : List Char) :
    strLen (c :: text) = c.utf8Size + strLen text := lenIn_cons .utf8 c text

theorem strLen_append (text other : List Char) :
    strLen (text ++ other) = strLen text + strLen other := lenIn_append .utf8 text other

theorem length_le_strLen : text.length ≤ strLen text := by
  induction text with
  | nil => exact Nat.le_refl _
  | cons c text ih =>
    have hpos := c.utf8Size_pos
    rw [length_cons, strLen_cons]
    omega

end LenIn

/-- A row, and a column in bytes or code units. -/
@[ext]
structure PointIn (N : Type) (unit : TextUnit) where
  row : N
  column : N
  deriving DecidableEq, Repr, Inhabited

/-- `Point`. -/
abbrev Point := PointIn UInt32 .utf8

/-- `PointUtf16`. -/
abbrev PointUtf16 := PointIn UInt32 .utf16

/-- A point whose row and column do not wrap around. -/
abbrev ExactPoint := PointIn Nat .utf8

namespace PointIn

/-- `Point::zero`. -/
def zero {N : Type} [OfNat N 0] {unit : TextUnit} : PointIn N unit := ⟨0, 0⟩

/-- `Point::add` and `Point::add_assign`. -/
instance {N : Type} [OfNat N 0] [DecidableEq N] [Add N] {unit : TextUnit} :
    Add (PointIn N unit) where
  add self other :=
    if other.row = 0 then ⟨self.row, self.column + other.column⟩
    else ⟨self.row + other.row, other.column⟩

/-- `Point::sub`. -/
instance {N : Type} [OfNat N 0] [DecidableEq N] [Sub N] {unit : TextUnit} :
    Sub (PointIn N unit) where
  sub self other :=
    if self.row = other.row then ⟨0, self.column - other.column⟩
    else ⟨self.row - other.row, self.column⟩

variable {unit : TextUnit} {a b : PointIn Nat unit}

theorem add_def (a b : PointIn Nat unit) :
    a + b = if b.row = 0 then ⟨a.row, a.column + b.column⟩ else ⟨a.row + b.row, b.column⟩ := rfl

/-- `Point::cmp`: by row, and then by column. -/
instance : LinearOrder (PointIn Nat unit) :=
  LinearOrder.lift' (fun p => toLex (p.row, p.column)) fun a b h => by
    have hpair : (a.row, a.column) = (b.row, b.column) := toLex.injective h
    exact PointIn.ext (congrArg Prod.fst hpair) (congrArg Prod.snd hpair)

theorem lt_iff :
    a < b ↔ a.row < b.row ∨ a.row = b.row ∧ a.column < b.column := Prod.Lex.toLex_lt_toLex

theorem le_iff :
    a ≤ b ↔ a.row < b.row ∨ a.row = b.row ∧ a.column ≤ b.column := Prod.Lex.toLex_le_toLex

@[simp] theorem zero_row : (zero : PointIn Nat unit).row = 0 := rfl

@[simp] theorem zero_column : (zero : PointIn Nat unit).column = 0 := rfl

@[simp] theorem add_row (a b : PointIn Nat unit) : (a + b).row = a.row + b.row := by
  rw [add_def]
  split
  · simp_all
  · rfl

theorem add_column (a b : PointIn Nat unit) :
    (a + b).column = if b.row = 0 then a.column + b.column else b.column := by
  rw [add_def]
  split <;> rfl

theorem zero_add (a : PointIn Nat unit) : zero + a = a := by
  apply PointIn.ext
  · simp
  · simp [add_column]

theorem add_zero (a : PointIn Nat unit) : a + zero = a := by
  apply PointIn.ext
  · simp
  · simp [add_column]

theorem add_assoc (a b c : PointIn Nat unit) : a + b + c = a + (b + c) := by
  apply PointIn.ext
  · simp [Nat.add_assoc]
  · simp only [add_column, add_row]
    split_ifs <;> omega

end PointIn

/-- The position behind a character. -/
def charPoint (unit : TextUnit) (c : Char) : PointIn Nat unit :=
  if c = '\n' then ⟨1, 0⟩ else ⟨0, unit.size c⟩

/-- The position behind a text. -/
def pointIn (unit : TextUnit) : List Char → PointIn Nat unit
  | [] => .zero
  | c :: text => charPoint unit c + pointIn unit text

section PointOf

variable (unit : TextUnit)

@[simp] theorem pointIn_nil : pointIn unit [] = .zero := rfl

@[simp] theorem pointIn_cons (c : Char) (text : List Char) :
    pointIn unit (c :: text) = charPoint unit c + pointIn unit text := rfl

@[simp] theorem pointIn_append (text other : List Char) :
    pointIn unit (text ++ other) = pointIn unit text + pointIn unit other := by
  induction text with
  | nil => rw [nil_append, pointIn_nil, PointIn.zero_add]
  | cons c text ih => rw [cons_append, pointIn_cons, ih, pointIn_cons, PointIn.add_assoc]

/-- A text without newlines stays in its row. -/
theorem pointIn_line {line : List Char} (h : '\n' ∉ line) :
    pointIn unit line = ⟨0, lenIn unit line⟩ := by
  induction line with
  | nil => rfl
  | cons c line ih =>
    rw [mem_cons, not_or] at h
    rw [pointIn_cons, ih h.2, charPoint, if_neg (Ne.symm h.1), lenIn_cons]
    rfl

theorem pointIn_newline : pointIn unit ['\n'] = ⟨1, 0⟩ := rfl

end PointOf

/-- A text behind which a row begins. -/
def EndsRow : Prop := text = [] ∨ ∃ front, text = front ++ ['\n']

/-- The last row of a text. -/
theorem exists_lastRow : ∃ done line, text = done ++ line ∧ EndsRow done ∧ '\n' ∉ line := by
  induction text using List.reverseRecOn with
  | nil => exact ⟨[], [], rfl, Or.inl rfl, not_mem_nil⟩
  | append_singleton text c ih =>
    by_cases hc : c = '\n'
    · subst hc
      exact ⟨text ++ ['\n'], [], (append_nil _).symm, Or.inr ⟨text, rfl⟩, not_mem_nil⟩
    · obtain ⟨done, line, rfl, hdone, hline⟩ := ih
      refine ⟨done, line ++ [c], append_assoc _ _ _, hdone, ?_⟩
      simp [hline, Ne.symm hc]

theorem EndsRow.column_eq_zero {done : List Char} (h : EndsRow done) (unit : TextUnit) :
    (pointIn unit done).column = 0 := by
  obtain rfl | ⟨front, rfl⟩ := h
  · rfl
  · rw [pointIn_append, pointIn_newline]
    rfl

/-- The column behind a text is the length of its last row. -/
theorem pointIn_lastRow {done line : List Char} (hdone : EndsRow done) (hline : '\n' ∉ line)
    (unit : TextUnit) :
    pointIn unit (done ++ line) = ⟨(pointIn unit done).row, lenIn unit line⟩ := by
  rw [pointIn_append, pointIn_line unit hline, PointIn.add_def, if_pos rfl,
    hdone.column_eq_zero, Nat.zero_add]

/-- A summary with its counts. -/
@[ext]
structure SummaryIn (N : Type) where
  len : Nat
  chars : Nat
  lenUtf16 : Nat
  lines : PointIn N .utf8
  firstLineChars : N
  lastLineChars : N
  lastLineLenUtf16 : N
  longestRow : N
  longestRowChars : N
  deriving DecidableEq, Repr

/-- `TextSummary`. -/
abbrev TextSummary := SummaryIn UInt32

/-- A summary whose counts do not wrap around. -/
abbrev ExactSummary := SummaryIn Nat

/-- The rows of a text, without their newlines. -/
def rows : List (List Char) := text.splitOn '\n'

@[simp] theorem rows_nil : rows [] = [[]] := rfl

theorem rows_newline : rows ('\n' :: text) = [] :: rows text := by
  rw [rows, List.splitOn, splitOnP_cons_eq_if_modifyHead]
  rfl

theorem rows_cons {c : Char} (hc : c ≠ '\n') (text : List Char) :
    rows (c :: text) = (rows text).modifyHead (List.cons c) := by
  have hnot : ¬ (c == '\n') = true := by simpa using hc
  rw [rows, List.splitOn, splitOnP_cons_eq_if_modifyHead, if_neg hnot]
  rfl

/-- The numbers that a size can be cast to. -/
class AsCount (N : Type) where
  asCount : Nat → N

/-- `as u32`. -/
instance : AsCount UInt32 := ⟨UInt32.ofNat⟩

instance : AsCount Nat := ⟨id⟩

open AsCount (asCount)

namespace SummaryIn

section Defs

variable {N : Type} [OfNat N 0] [OfNat N 1] [Add N] [LT N] [DecidableEq N] [DecidableLT N]
  [AsCount N]

/-- `TextSummary::default`. -/
def zero : SummaryIn N := ⟨0, 0, 0, .zero, 0, 0, 0, 0, 0⟩

/-- `TextSummary::lines_utf16`. -/
def linesUtf16 (self : SummaryIn N) : PointIn N .utf16 := ⟨self.lines.row, self.lastLineLenUtf16⟩

/-- A row that is longer than all before becomes the longest one. -/
def noteLongest (self : SummaryIn N) (row chars : N) : SummaryIn N :=
  if self.longestRowChars < chars then
    { self with longestRow := row, longestRowChars := chars }
  else self

/-- The last row is the first one as long as there is no other. -/
def noteFirst (self : SummaryIn N) : SummaryIn N :=
  if self.lines.row = 0 then { self with firstLineChars := self.lastLineChars } else self

/-- A character is counted. -/
def count (self : SummaryIn N) (c : Char) : SummaryIn N :=
  let self := { self with
    len := self.len + c.utf8Size
    chars := self.chars + 1
    lenUtf16 := self.lenUtf16 + TextUnit.utf16.size c }
  if c = '\n' then
    { self with lines := self.lines + ⟨1, 0⟩, lastLineLenUtf16 := 0, lastLineChars := 0 }
  else
    { self with
      lines := ⟨self.lines.row, self.lines.column + asCount c.utf8Size⟩
      lastLineLenUtf16 := self.lastLineLenUtf16 + asCount (TextUnit.utf16.size c)
      lastLineChars := self.lastLineChars + 1 }

/-- One character of the loop in `TextSummary::from`. -/
def step (self : SummaryIn N) (c : Char) : SummaryIn N :=
  let self := self.count c
  self.noteFirst.noteLongest self.lines.row self.lastLineChars

/-- `TextSummary::from`. -/
def ofText (text : List Char) : SummaryIn N := text.foldl step zero

theorem ofText_snoc (c : Char) : (ofText (text ++ [c]) : SummaryIn N) = (ofText text).step c := by
  rw [ofText, foldl_append]
  rfl

/-- The counts in `TextSummary::add_assign`. -/
def addCounts (self other : SummaryIn N) : SummaryIn N :=
  { self with
    firstLineChars :=
      if self.lines.row = 0 then self.firstLineChars + other.firstLineChars
      else self.firstLineChars
    lastLineChars :=
      if other.lines.row = 0 then self.lastLineChars + other.firstLineChars
      else other.lastLineChars
    lastLineLenUtf16 :=
      if other.lines.row = 0 then self.lastLineLenUtf16 + other.lastLineLenUtf16
      else other.lastLineLenUtf16
    chars := self.chars + other.chars
    len := self.len + other.len
    lenUtf16 := self.lenUtf16 + other.lenUtf16
    lines := self.lines + other.lines }

/-- `TextSummary::add_assign`. -/
def addAssign (self other : SummaryIn N) : SummaryIn N :=
  let self := self.noteLongest self.lines.row (self.lastLineChars + other.firstLineChars)
  let self := self.noteLongest (self.lines.row + other.longestRow) other.longestRowChars
  self.addCounts other

instance : Add (SummaryIn N) := ⟨addAssign⟩

omit [OfNat N 0] [OfNat N 1] [Add N] [DecidableEq N] [AsCount N] in
theorem lines_noteLongest (self : SummaryIn N) (row chars : N) :
    (self.noteLongest row chars).lines = self.lines := by
  rw [noteLongest]
  split <;> rfl

end Defs

section Fields

variable (self other : ExactSummary)

theorem noteLongest_eq (row chars : Nat) : self.noteLongest row chars =
    { self with
      longestRow := if self.longestRowChars < chars then row else self.longestRow
      longestRowChars := max self.longestRowChars chars } := by
  rw [noteLongest]
  split
  · rw [max_eq_right (by omega)]
  · rw [max_eq_left (by omega)]

/-- A newline begins a row. -/
theorem step_newline : self.step '\n' =
    { self with
      len := self.len + 1
      chars := self.chars + 1
      lenUtf16 := self.lenUtf16 + 1
      lines := self.lines + ⟨1, 0⟩
      lastLineChars := 0
      lastLineLenUtf16 := 0 } := by
  simp only [step, count, if_true]
  rw [noteFirst, if_neg (by simp), noteLongest, if_neg (Nat.not_lt_zero _)]
  rfl

/-- Any other character lengthens the last row. -/
theorem step_char {c : Char} (hc : c ≠ '\n') : self.step c =
    { len := self.len + c.utf8Size
      chars := self.chars + 1
      lenUtf16 := self.lenUtf16 + TextUnit.utf16.size c
      lines := self.lines + ⟨0, c.utf8Size⟩
      firstLineChars :=
        if self.lines.row = 0 then self.lastLineChars + 1 else self.firstLineChars
      lastLineChars := self.lastLineChars + 1
      lastLineLenUtf16 := self.lastLineLenUtf16 + TextUnit.utf16.size c
      longestRow :=
        if self.longestRowChars < self.lastLineChars + 1 then self.lines.row
        else self.longestRow
      longestRowChars := max self.longestRowChars (self.lastLineChars + 1) } := by
  simp only [step, count, if_neg hc, noteLongest_eq]
  rw [noteFirst]
  split <;> rfl

theorem add_def : self + other = self.addAssign other := rfl

end Fields

/-- What a summary of a text satisfies: the first and the last row are no longer than the longest
one, and a single row is all three. -/
structure Consistent (summary : ExactSummary) : Prop where
  first : summary.firstLineChars ≤ summary.longestRowChars
  last : summary.lastLineChars ≤ summary.longestRowChars
  single : summary.lines.row = 0 → summary.firstLineChars = summary.lastLineChars ∧
    summary.longestRowChars = summary.lastLineChars ∧ summary.longestRow = 0

theorem consistent_zero : (zero : ExactSummary).Consistent :=
  ⟨Nat.le_refl _, Nat.le_refl _, fun _ => ⟨rfl, rfl, rfl⟩⟩

variable {self : ExactSummary} {line : List Char} {first index largest : Nat} {rest : List Nat}

theorem Consistent.step (h : self.Consistent) (c : Char) : (self.step c).Consistent := by
  obtain ⟨hfirst, hlast, hsingle⟩ := h
  by_cases hc : c = '\n'
  · subst hc
    rw [step_newline]
    exact ⟨hfirst, Nat.zero_le _, fun hrow => absurd hrow (by simp)⟩
  · rw [step_char _ hc]
    refine ⟨?_, le_max_right _ _, fun hrow => ?_⟩
    · dsimp only
      split <;> omega
    · simp only [PointIn.add_row, Nat.add_zero] at hrow
      obtain ⟨-, hlongest, hlongestRow⟩ := hsingle hrow
      simp [hrow, hlongest]

theorem consistent_ofText : (ofText text : ExactSummary).Consistent := by
  induction text using List.reverseRecOn with
  | nil => exact consistent_zero
  | append_singleton text c ih =>
    rw [ofText, foldl_append]
    exact ih.step c

/-- Adding one more character to the second summary.  The cases are whether the character ends
the row, and whether the second summary has more than one row. -/
theorem add_step {other : ExactSummary} (h : self.Consistent) (h' : other.Consistent) (c : Char) :
    self + other.step c = (self + other).step c := by
  have hlast := h.last
  have hlast' := h'.last
  by_cases hc : c = '\n'
  · subst hc
    simp only [step_newline, add_def, addAssign, addCounts, noteLongest_eq]
    apply SummaryIn.ext <;> simp [Nat.add_assoc, PointIn.add_assoc]
  · simp only [step_char _ hc, add_def, addAssign, addCounts, noteLongest_eq]
    rcases Nat.eq_zero_or_pos other.lines.row with hrow | hrow
    · obtain ⟨hsame, hlongest, -⟩ := h'.single hrow
      apply SummaryIn.ext <;>
        simp [hrow, hsame, hlongest, Nat.add_assoc, PointIn.add_assoc]
      · split_ifs with hself
        · rw [(h.single hself).1]
        · rfl
      · split_ifs <;> omega
    · have hne : other.lines.row ≠ 0 := by omega
      apply SummaryIn.ext <;> simp [hne, Nat.add_assoc, PointIn.add_assoc]
      · split_ifs <;> omega

theorem Consistent.add_zero (h : self.Consistent) : self + zero = self := by
  have hlast := h.last
  rw [add_def, addAssign, addCounts, noteLongest_eq, noteLongest_eq]
  apply SummaryIn.ext <;> simp [zero, PointIn.add_zero, hlast, Nat.not_lt.2 hlast]

@[simp] theorem ofText_nil : (ofText [] : ExactSummary) = zero := rfl

/-- Summaries of texts add up along the texts. -/
theorem ofText_append (text other : List Char) :
    (ofText (text ++ other) : ExactSummary) = ofText text + ofText other := by
  induction other using List.reverseRecOn with
  | nil => rw [append_nil, ofText_nil, (consistent_ofText text).add_zero]
  | append_singleton other c ih =>
    rw [← append_assoc, ofText_snoc, ofText_snoc, ih,
      add_step (consistent_ofText text) (consistent_ofText other)]

/-- What the summary of a text counts. -/
theorem ofText_counts : (ofText text : ExactSummary).len = strLen text ∧
      (ofText text : ExactSummary).chars = text.length ∧
      (ofText text : ExactSummary).lenUtf16 = lenIn .utf16 text ∧
      (ofText text : ExactSummary).lines = pointIn .utf8 text ∧
      (ofText text : ExactSummary).linesUtf16 = pointIn .utf16 text := by
  induction text using List.reverseRecOn with
  | nil => exact ⟨rfl, rfl, rfl, rfl, rfl⟩
  | append_singleton text c ih =>
    obtain ⟨hlen, hchars, hlenUtf16, hlines, hlinesUtf16⟩ := ih
    simp only [lenIn_append, pointIn_append, length_append, ← hlen, ← hchars, ← hlenUtf16,
      ← hlines, ← hlinesUtf16, ofText_snoc]
    by_cases hc : c = '\n'
    · subst hc
      rw [step_newline]
      exact ⟨rfl, rfl, rfl, rfl, rfl⟩
    · have hpoint : ∀ unit, pointIn unit [c] = ⟨0, unit.size c⟩ := by
        intro unit
        rw [pointIn_cons, charPoint, if_neg hc]
        rfl
      rw [step_char _ hc, hpoint, hpoint]
      exact ⟨rfl, rfl, rfl, rfl, rfl⟩

/-- The summary of one row. -/
theorem ofText_line (h : '\n' ∉ line) :
    (ofText line : ExactSummary) = ⟨strLen line, line.length, lenIn .utf16 line,
      ⟨0, strLen line⟩, line.length, line.length, lenIn .utf16 line, 0, line.length⟩ := by
  induction line using List.reverseRecOn with
  | nil => rfl
  | append_singleton line c ih =>
    simp only [mem_append, mem_singleton, not_or] at h
    rw [ofText_snoc, ih h.1, step_char _ (Ne.symm h.2)]
    apply SummaryIn.ext <;> simp [PointIn.add_def]

/-- The summary of a row with its newline. -/
theorem ofText_row (h : '\n' ∉ line) :
    (ofText (line ++ ['\n']) : ExactSummary) = ⟨strLen line + 1, line.length + 1,
      lenIn .utf16 line + 1, ⟨1, 0⟩, line.length, 0, 0, 0, line.length⟩ := by
  rw [ofText_snoc, ofText_line h, step_newline]
  rfl

/-- A number is the largest one of a list, and an index is its first place. -/
structure FirstLargest (list : List Nat) (index largest : Nat) : Prop where
  at_index : list[index]? = some largest
  le : ∀ n ∈ list, n ≤ largest
  lt : ∀ j < index, ∀ n, list[j]? = some n → n < largest

theorem FirstLargest.zero_cons (h : FirstLargest (first :: rest) index largest) :
    FirstLargest (0 :: first :: rest)
      (if first < largest then 1 + index else if 0 < first then 1 else 0) largest := by
  have hle := h.le first mem_cons_self
  refine ⟨?_, ?_, ?_⟩
  · split_ifs with hlater hpos
    · rw [Nat.add_comm, getElem?_cons_succ, h.at_index]
    · rw [getElem?_cons_succ, getElem?_cons_zero]
      congr 1
      omega
    · rw [getElem?_cons_zero]
      congr 1
      omega
  · rintro n (_ | ⟨_, hn⟩)
    · exact Nat.zero_le _
    · exact h.le n hn
  · intro j hj n hn
    cases j with
    | zero =>
      cases hn
      split_ifs at hj <;> omega
    | succ j =>
      split_ifs at hj
      · exact h.lt j (by omega) n hn
      · omega
      · omega

theorem FirstLargest.succ_head (h : FirstLargest (first :: rest) index largest) :
    FirstLargest ((first + 1) :: rest) (if first + 1 < largest then index else 0)
      (max (first + 1) largest) := by
  refine ⟨?_, ?_, ?_⟩
  · split_ifs with hlater
    · rw [max_eq_right (Nat.le_of_lt hlater)]
      obtain _ | index := index
      · have hfirst := h.at_index
        simp only [getElem?_cons_zero, Option.some.injEq] at hfirst
        omega
      · exact h.at_index
    · rw [max_eq_left (Nat.not_lt.1 hlater), getElem?_cons_zero]
  · rintro n (_ | ⟨_, hn⟩)
    · exact le_max_left _ _
    · exact (h.le n (mem_cons_of_mem _ hn)).trans (le_max_right _ _)
  · intro j hj n hn
    split_ifs at hj with hlater
    · rw [max_eq_right (Nat.le_of_lt hlater)]
      obtain _ | j := j
      · cases hn
        exact hlater
      · exact h.lt _ hj n hn
    · omega

/-- The first row of a text, and its longest one: of several the first. -/
theorem ofText_longestRow :
    ((rows text).map List.length).head? = some (ofText text : ExactSummary).firstLineChars ∧
      FirstLargest ((rows text).map List.length) (ofText text : ExactSummary).longestRow
        (ofText text : ExactSummary).longestRowChars := by
  induction text with
  | nil => exact ⟨rfl, rfl, by simp [ofText, zero], by simp [ofText, zero]⟩
  | cons c text ih =>
    obtain ⟨hfirst, hlargest⟩ := ih
    obtain ⟨rest, hrest⟩ := head?_eq_some_iff.1 hfirst
    rw [hrest] at hlargest
    have hle := hlargest.le _ mem_cons_self
    have hsummary := ofText_append [c] text
    rw [singleton_append] at hsummary
    rw [hsummary]
    by_cases hc : c = '\n'
    · subst hc
      have hnewline : ofText ['\n'] = ⟨1, 1, 1, ⟨1, 0⟩, 0, 0, 0, 0, 0⟩ := rfl
      rw [rows_newline, map_cons, hrest, hnewline, add_def]
      simpa [addAssign, addCounts, noteLongest_eq, hle] using hlargest.zero_cons
    · have hline : '\n' ∉ [c] := by simpa using Ne.symm hc
      have hrows : (rows (c :: text)).map List.length =
          ((ofText text).firstLineChars + 1) :: rest := by
        rw [rows_cons hc]
        cases htext : rows text with
        | nil => simp [htext] at hrest
        | cons row more => simpa [htext] using hrest
      rw [hrows, ofText_line hline, add_def]
      simpa [addAssign, addCounts, noteLongest_eq, Nat.add_comm] using hlargest.succ_head

end SummaryIn

/-! ## Counts in `u32` -/

theorem ofNat_eq_zero {n : Nat} (h : n < UInt32.size) : UInt32.ofNat n = 0 ↔ n = 0 := by
  rw [← UInt32.toNat_inj, UInt32.toNat_ofNat_of_lt' h]
  rfl

namespace PointIn

variable {unit : TextUnit} {a b : PointIn Nat unit}

/-- The point in `u32`. -/
def cast (self : PointIn Nat unit) : PointIn UInt32 unit := ⟨.ofNat self.row, .ofNat self.column⟩

theorem cast_add (h : b.row < UInt32.size) : (a + b).cast = a.cast + b.cast := by
  have hsum : a.cast + b.cast = if UInt32.ofNat b.row = 0 then
      ⟨.ofNat a.row, .ofNat a.column + .ofNat b.column⟩
    else ⟨.ofNat a.row + .ofNat b.row, .ofNat b.column⟩ := rfl
  rw [hsum, add_def]
  simp only [ofNat_eq_zero h, cast]
  split
  · rw [UInt32.ofNat_add]
  · rw [UInt32.ofNat_add]

end PointIn

namespace SummaryIn

variable {self other : ExactSummary} {text : List Char}

/-- The summary in `u32`. -/
def cast (self : ExactSummary) : TextSummary where
  len := self.len
  chars := self.chars
  lenUtf16 := self.lenUtf16
  lines := self.lines.cast
  firstLineChars := .ofNat self.firstLineChars
  lastLineChars := .ofNat self.lastLineChars
  lastLineLenUtf16 := .ofNat self.lastLineLenUtf16
  longestRow := .ofNat self.longestRow
  longestRowChars := .ofNat self.longestRowChars

theorem cast_noteLongest {row chars : Nat} (hself : self.longestRowChars < UInt32.size)
    (hchars : chars < UInt32.size) :
    (self.noteLongest row chars).cast = self.cast.noteLongest (.ofNat row) (.ofNat chars) := by
  have hlt : self.cast.longestRowChars < UInt32.ofNat chars ↔ self.longestRowChars < chars :=
    UInt32.ofNat_lt_iff_lt hself hchars
  rw [noteLongest, noteLongest]
  simp only [hlt]
  split <;> rfl

theorem cast_noteFirst (hrow : self.lines.row < UInt32.size) :
    self.noteFirst.cast = self.cast.noteFirst := by
  have hzero : self.cast.lines.row = 0 ↔ self.lines.row = 0 := ofNat_eq_zero hrow
  rw [noteFirst, noteFirst]
  simp only [hzero]
  split <;> rfl

theorem longestRowChars_noteFirst (self : ExactSummary) :
    self.noteFirst.longestRowChars = self.longestRowChars := by
  rw [noteFirst]
  split <;> rfl

theorem count_le (self : ExactSummary) (c : Char) :
    (self.count c).lines.row ≤ self.lines.row + 1 ∧
      (self.count c).lastLineChars ≤ self.lastLineChars + 1 ∧
      (self.count c).longestRowChars = self.longestRowChars := by
  rw [count]
  split
  · simp
  · simp

theorem cast_count (c : Char) : (self.count c).cast = self.cast.count c := by
  have hlines : (self.lines + ⟨1, 0⟩).cast = self.lines.cast + ⟨1, 0⟩ :=
    PointIn.cast_add (show 1 < UInt32.size by decide)
  rw [count, count]
  split
  · simp only [cast, hlines]
    rfl
  · simp only [cast, PointIn.cast, UInt32.ofNat_add]
    rfl

/-- A step does not wrap around while the rows are short and few. -/
theorem cast_step {c : Char} (hrow : (self.count c).lines.row < UInt32.size)
    (hlast : (self.count c).lastLineChars < UInt32.size)
    (hlongest : (self.count c).longestRowChars < UInt32.size) :
    (self.step c).cast = self.cast.step c := by
  rw [step, cast_noteLongest (by rwa [longestRowChars_noteFirst]) hlast, cast_noteFirst hrow,
    cast_count]
  rw [step, ← cast_count]
  rfl

theorem cast_addCounts (hrow : self.lines.row < UInt32.size)
    (hrow' : other.lines.row < UInt32.size) :
    (self.addCounts other).cast = self.cast.addCounts other.cast := by
  have hzero : self.cast.lines.row = 0 ↔ self.lines.row = 0 := ofNat_eq_zero hrow
  have hzero' : other.cast.lines.row = 0 ↔ other.lines.row = 0 := ofNat_eq_zero hrow'
  rw [addCounts, addCounts]
  simp only [hzero, hzero']
  apply SummaryIn.ext
  case lines => exact PointIn.cast_add hrow'
  all_goals simp only [cast, apply_ite UInt32.ofNat, UInt32.ofNat_add]

/-- Nor does a sum. -/
theorem cast_add (hrow : self.lines.row < UInt32.size) (hrow' : other.lines.row < UInt32.size)
    (hjoined : self.lastLineChars + other.firstLineChars < UInt32.size)
    (hlongest : self.longestRowChars < UInt32.size)
    (hlongest' : other.longestRowChars < UInt32.size) :
    (self + other).cast = self.cast + other.cast := by
  have hnoted : (self.noteLongest self.lines.row
      (self.lastLineChars + other.firstLineChars)).longestRowChars < UInt32.size := by
    rw [noteLongest_eq]
    exact max_lt hlongest hjoined
  rw [add_def, addAssign, cast_addCounts (by rwa [noteLongest_eq, noteLongest_eq]) hrow',
    cast_noteLongest hnoted hlongest', cast_noteLongest hlongest hjoined]
  rw [lines_noteLongest, UInt32.ofNat_add, UInt32.ofNat_add]
  change _ = (_ : TextSummary).addCounts other.cast
  rw [lines_noteLongest]
  rfl

/-- Rows are as short and as few as the characters. -/
theorem ofText_le_length (text : List Char) : (ofText text : ExactSummary).lines.row ≤ text.length ∧
    (ofText text : ExactSummary).longestRowChars ≤ text.length ∧
    (ofText text : ExactSummary).longestRow ≤ text.length := by
  induction text using List.reverseRecOn with
  | nil => exact ⟨Nat.le_refl _, Nat.le_refl _, Nat.le_refl _⟩
  | append_singleton text c ih =>
    have hlast := (consistent_ofText text).last
    rw [ofText_snoc, length_append, length_singleton]
    by_cases hc : c = '\n'
    · subst hc
      rw [step_newline]
      simp only [PointIn.add_row]
      omega
    · rw [step_char _ hc]
      simp only [PointIn.add_row]
      split <;> omega

end SummaryIn

namespace TextSummary

variable {text other : List Char}

/-- Fewer characters than `u32` counts are summarized exactly. -/
theorem ofText_eq_cast (h : text.length < UInt32.size) :
    (SummaryIn.ofText text : TextSummary) = (SummaryIn.ofText text : ExactSummary).cast := by
  induction text using List.reverseRecOn with
  | nil => rfl
  | append_singleton text c ih =>
    rw [length_append, length_singleton] at h
    obtain ⟨hrow, hlongest, -⟩ := SummaryIn.ofText_le_length text
    have hlast := (SummaryIn.consistent_ofText text).last
    obtain ⟨hrow', hlast', hlongest'⟩ := SummaryIn.count_le (SummaryIn.ofText text) c
    rw [SummaryIn.ofText_snoc, SummaryIn.ofText_snoc, ih (by omega),
      SummaryIn.cast_step (by omega) (by omega) (by omega)]

/-- Sums of such summaries are exact as well. -/
theorem add_eq_cast (h : (text ++ other).length < UInt32.size) :
    (SummaryIn.ofText text + SummaryIn.ofText other : TextSummary) =
      (SummaryIn.ofText (text ++ other) : ExactSummary).cast := by
  rw [length_append] at h
  obtain ⟨hrow, hlongest, -⟩ := SummaryIn.ofText_le_length text
  obtain ⟨hrow', hlongest', -⟩ := SummaryIn.ofText_le_length other
  have hlast := (SummaryIn.consistent_ofText text).last
  have hfirst := (SummaryIn.consistent_ofText other).first
  have hfew : text.length < UInt32.size := by omega
  have hfew' : other.length < UInt32.size := by omega
  rw [ofText_eq_cast hfew, ofText_eq_cast hfew',
    SummaryIn.ofText_append, SummaryIn.cast_add (by omega) (by omega) (by omega) (by omega)
      (by omega)]

end TextSummary

end XorEditor.Rope
