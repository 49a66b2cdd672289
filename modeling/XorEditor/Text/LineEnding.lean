import XorEditor.Rope.Chunk
import XorEditor.SumTree.Node

/-!
# Line endings

A buffer keeps its lines separated by newlines alone: carriage returns are removed when a text
comes in.  When it is saved with another line ending, the endings are put back chunk by chunk
of the rope, whose chunks may begin, end or break a line anywhere.

* `ChunkRope`: a rope of chunks
* `chunksWithLineEnding`: what is saved
* `saved_text_normalizes`: it reads back as the text of the buffer
-/

namespace XorEditor.Text

open List

/-- `ChunkSummary`. -/
structure ChunkSummary where
  text : Rope.TextSummary

/-- `Rope`: a sum tree of chunks. -/
structure ChunkRope where
  chunks : SumTree.Node Rope.Chunk ChunkSummary

/-- `Rope::chunks` over the whole rope: the texts of the chunks in order. -/
def ChunkRope.chunkTexts (self : ChunkRope) : List (List Char) :=
  self.chunks.items.map Rope.Chunk.text

/-- The text of a rope. -/
def ChunkRope.text (self : ChunkRope) : List Char := self.chunkTexts.flatten

inductive LineEnding where
  | unix
  | windows
  deriving DecidableEq, Repr

/-- `LineEnding::as_str`. -/
def LineEnding.asStr : LineEnding → List Char
  | .unix => ['\n']
  | .windows => ['\r', '\n']

/-- `str::split_inclusive('\n')`. -/
def splitInclusive : List Char → List (List Char)
  | [] => []
  | c :: text =>
    if c = '\n' then [c] :: splitInclusive text
    else match splitInclusive text with
      | [] => [[c]]
      | line :: lines => (c :: line) :: lines

/-- What `str::lines` takes off the end of a line. -/
def stripLineEnding (line : List Char) : List Char :=
  if line.getLast? = some '\n' then
    if line.dropLast.getLast? = some '\r' then line.dropLast.dropLast else line.dropLast
  else line

/-- `str::lines`. -/
def lines (text : List Char) : List (List Char) := (splitInclusive text).map stripLineEnding

/-- The closure over the lines of a chunk: an ending goes before every line but the first. -/
def linesWithEnding (ending : LineEnding) : Bool → List (List Char) → List (List Char)
  | _, [] => []
  | newline, line :: lines =>
    (if newline then [ending.asStr] else []) ++ [line] ++ linesWithEnding ending true lines

/-- The pieces that a chunk becomes. -/
def chunkWithLineEnding (ending : LineEnding) (chunk : List Char) : List (List Char) :=
  linesWithEnding ending false (lines chunk) ++
    if chunk.getLast? = some '\n' then [ending.asStr] else []

/-- `chunks_with_line_ending`. -/
def chunksWithLineEnding (rope : ChunkRope) (ending : LineEnding) : List (List Char) :=
  rope.chunkTexts.flatMap (chunkWithLineEnding ending)

/-- A text with another line ending. -/
def replaceNewlines (ending : LineEnding) (text : List Char) : List Char :=
  text.flatMap fun c => if c = '\n' then ending.asStr else [c]

variable {ending : LineEnding} {text line rest : List Char}

/-! ## The lines of a text without carriage returns -/

theorem splitInclusive_line (hline : '\n' ∉ line) (hne : line ≠ []) :
    splitInclusive line = [line] := by
  induction line with
  | nil => exact absurd rfl hne
  | cons c line ih =>
    rw [mem_cons, not_or] at hline
    rw [splitInclusive, if_neg (Ne.symm hline.1)]
    cases line with
    | nil => rfl
    | cons d line => rw [ih hline.2 (by simp)]

theorem splitInclusive_row (hline : '\n' ∉ line) :
    splitInclusive (line ++ '\n' :: rest) = (line ++ ['\n']) :: splitInclusive rest := by
  induction line with
  | nil => rfl
  | cons c line ih =>
    rw [mem_cons, not_or] at hline
    rw [cons_append, splitInclusive, if_neg (Ne.symm hline.1), ih hline.2]
    rfl

theorem lines_line (hline : '\n' ∉ line) (hne : line ≠ []) : lines line = [line] := by
  have hlast : line.getLast? ≠ some '\n' := fun h => hline (mem_of_getLast? h)
  rw [lines, splitInclusive_line hline hne, map_singleton, stripLineEnding, if_neg hlast]

theorem lines_row (hline : '\n' ∉ line) (hcr : '\r' ∉ line) :
    lines (line ++ '\n' :: rest) = line :: lines rest := by
  have hlast : line.getLast? ≠ some '\r' := fun h => hcr (mem_of_getLast? h)
  rw [lines, splitInclusive_row hline, map_cons, stripLineEnding, getLast?_concat,
    if_pos rfl, dropLast_concat, if_neg hlast, lines]

/-! ## What the endings come to -/

theorem replaceNewlines_cons (c : Char) (text : List Char) : replaceNewlines ending (c :: text) =
      (if c = '\n' then ending.asStr else [c]) ++ replaceNewlines ending text :=
  flatMap_cons

theorem replaceNewlines_append (text other : List Char) : replaceNewlines ending (text ++ other) =
      replaceNewlines ending text ++ replaceNewlines ending other :=
  flatMap_append

theorem replaceNewlines_line (hline : '\n' ∉ line) : replaceNewlines ending line = line := by
  induction line with
  | nil => rfl
  | cons c line ih =>
    rw [mem_cons, not_or] at hline
    rw [replaceNewlines_cons, if_neg (Ne.symm hline.1), ih hline.2]
    rfl

theorem flatten_linesWithEnding_cons (newline : Bool) (line : List Char) (rest : List (List Char)) :
    (linesWithEnding ending newline (line :: rest)).flatten =
      (if newline then ending.asStr else []) ++ (line ++
        (linesWithEnding ending true rest).flatten) := by
  cases newline <;> simp [linesWithEnding]

/-- The pieces of a text make it up with the other line ending.  The text is taken line by line:
an ending stands before the line, and the last one is what `str::lines` does not show. -/
theorem linesWithEnding_eq {text : List Char} (hcr : '\r' ∉ text) (htext : text ≠ [])
    (newline : Bool) : (linesWithEnding ending newline (lines text)).flatten ++
        (if text.getLast? = some '\n' then ending.asStr else []) =
      (if newline then ending.asStr else []) ++ replaceNewlines ending text := by
  by_cases hnewline : '\n' ∈ text
  · obtain ⟨line, rest, rfl, hline⟩ := eq_append_cons_of_mem hnewline
    simp only [mem_append, mem_cons, not_or] at hcr
    rw [lines_row hline hcr.1, flatten_linesWithEnding_cons, replaceNewlines_append,
      replaceNewlines_line hline, replaceNewlines_cons, if_pos rfl, append_assoc,
      append_assoc]
    by_cases hrest : rest = []
    · subst hrest
      rw [getLast?_concat, if_pos rfl]
      simp [lines, splitInclusive, linesWithEnding, replaceNewlines]
    · have hlast : (line ++ '\n' :: rest).getLast? = rest.getLast? := by
        rw [append_cons, getLast?_append_of_ne_nil _ hrest]
      have ih := linesWithEnding_eq hcr.2.2 hrest true
      rw [if_pos rfl] at ih
      rw [hlast, ih]
  · have hlast : text.getLast? ≠ some '\n' := fun h => hnewline (mem_of_getLast? h)
    rw [lines_line hnewline htext, flatten_linesWithEnding_cons, if_neg hlast,
      replaceNewlines_line hnewline]
    simp [linesWithEnding]
termination_by text.length

theorem chunkWithLineEnding_eq (hcr : '\r' ∉ text) :
    (chunkWithLineEnding ending text).flatten = replaceNewlines ending text := by
  by_cases hnil : text = []
  · subst hnil
    rfl
  · have hlines := @linesWithEnding_eq ending text hcr hnil false
    rw [if_neg Bool.false_ne_true, nil_append] at hlines
    rw [chunkWithLineEnding, flatten_append, ← hlines]
    split <;> simp

/-- Whatever the chunks are, the pieces make up the text with the line ending. -/
theorem chunksWithLineEnding_eq {rope : ChunkRope} (hcr : '\r' ∉ rope.text) :
    (chunksWithLineEnding rope ending).flatten = replaceNewlines ending rope.text := by
  rw [ChunkRope.text] at hcr ⊢
  rw [chunksWithLineEnding]
  generalize rope.chunkTexts = chunks at hcr ⊢
  induction chunks with
  | nil => rfl
  | cons chunk chunks ih =>
    rw [flatten_cons, mem_append, not_or] at hcr
    rw [flatMap_cons, flatten_append, chunkWithLineEnding_eq hcr.1, ih hcr.2,
      flatten_cons, replaceNewlines_append]

/-! ## Saving and loading -/

theorem replaceNewlines_unix (text : List Char) : replaceNewlines .unix text = text := by
  induction text with
  | nil => rfl
  | cons c text ih =>
    rw [replaceNewlines_cons, ih]
    split
    next hc => rw [hc]; rfl
    next => rfl

theorem normalize_replaceNewlines (hcr : '\r' ∉ text) :
    LineEnding.normalize (replaceNewlines ending text) = text := by
  induction text with
  | nil => rfl
  | cons c text ih =>
    rw [mem_cons, not_or] at hcr
    rw [replaceNewlines_cons]
    by_cases hnewline : c = '\n'
    · subst hnewline
      cases ending <;> simp [LineEnding.asStr, LineEnding.normalize, ih hcr.2]
    · rw [if_neg hnewline, singleton_append, LineEnding.normalize, ih hcr.2]
      · rintro text rfl
        exact absurd rfl hcr.1
      · rintro rfl
        exact absurd rfl hcr.1

/-- Saving a text with a line ending is lossless: the saved text has the ending in the place of
every newline, and it is normalized to the text. -/
theorem saved_text_normalizes (rope : ChunkRope) (hcr : '\r' ∉ rope.text) :
    (chunksWithLineEnding rope .windows).flatten =
        rope.text.flatMap (fun c => if c = '\n' then ['\r', '\n'] else [c]) ∧
      (chunksWithLineEnding rope .unix).flatten = rope.text ∧
      LineEnding.normalize (chunksWithLineEnding rope .windows).flatten = rope.text ∧
      LineEnding.normalize (chunksWithLineEnding rope .unix).flatten = rope.text := by
  rw [chunksWithLineEnding_eq hcr, chunksWithLineEnding_eq hcr]
  exact ⟨rfl, replaceNewlines_unix rope.text, normalize_replaceNewlines hcr,
    normalize_replaceNewlines hcr⟩

/-- A rope whose chunks break in the middle of a run of newlines. -/
def twoChunks : ChunkRope :=
  let chunk (text : List Char) (h : Rope.strLen text ≤ Rope.maxBase) : Rope.Chunk :=
    ⟨Rope.Bitmaps.ofText text, text, h, rfl⟩
  ⟨.leaf ⟨.zero⟩ [chunk "one\n".toList (by decide), chunk "\ntwo\n".toList (by decide)] []⟩

theorem two_chunks_normalize :
    (chunksWithLineEnding twoChunks .windows).flatten = "one\r\n\r\ntwo\r\n".toList ∧
      LineEnding.normalize (chunksWithLineEnding twoChunks .windows).flatten =
        "one\n\ntwo\n".toList := by
  have h := saved_text_normalizes twoChunks (by decide)
  exact ⟨h.1.trans (by decide), h.2.2.1.trans (by decide)⟩

end XorEditor.Text
