
/-!
# Re-indentation of streamed text

The text of an edit arrives in chunks, and every line of it gets the indentation of the place
that it goes to.  A chunk may end anywhere in a line, so the indentation of an unfinished line
is held back until its first other character has come.

* `Reindenter`: the state between two chunks
* `stream_withDeltas`: the chunks give the text with every line re-indented
-/

namespace XorEditor.EditSession

open List

/-- How many indentation characters a line gains, or loses. -/
inductive IndentDelta where
  | spaces (count : Int)
  | tabs (count : Int)
  deriving DecidableEq, Repr

namespace IndentDelta

def character : IndentDelta → Char
  | spaces _ => ' '
  | tabs _ => '\t'

def len : IndentDelta → Int
  | spaces count | tabs count => count

/-- The line with its new indentation, or none if it has nothing but indentation. -/
def indent (delta : IndentDelta) (line : List Char) : Option (List Char) :=
  (line.findIdx? (· != delta.character)).map fun (index : Nat) =>
    replicate (max 0 ((index : Int) + delta.len)).toNat delta.character ++ line.drop index

end IndentDelta

/-- Buffers incomplete lines and applies an indent delta to each line. -/
structure Reindenter where
  firstLineDelta : IndentDelta
  restDelta : IndentDelta
  buffer : List Char := []
  inLeadingWhitespace : Bool := true
  onFirstLine : Bool := true

namespace Reindenter

def withDeltas (firstLineDelta restDelta : IndentDelta) : Reindenter :=
  { firstLineDelta, restDelta }

/-- The delta of the line that the buffer starts in. -/
def delta (r : Reindenter) : IndentDelta :=
  if r.onFirstLine then r.firstLineDelta else r.restDelta

/-- The text of a line, or none while it may still be in its indentation. -/
def indented (r : Reindenter) (line : List Char) : Option (List Char) :=
  if r.inLeadingWhitespace then r.delta.indent line else some line

/-- The loop of `drain` over the lines of the buffer, the last of which is pending: what it
emits, and the reindenter with what stays in the buffer. -/
def drainLines (isFinal : Bool) : List (List Char) → Reindenter → List Char × Reindenter
  | [], r => ([], r)
  | line :: rest, r =>
    if rest = [] then
      -- A pending line that is still in its indentation waits for more input.
      if r.indented line = none ∧ !isFinal then ([], { r with buffer := line })
      else
        ((r.indented line).getD line, { r with
          buffer := [], inLeadingWhitespace := (r.indented line).isNone })
    else
      let (text, final) :=
        drainLines isFinal rest { r with inLeadingWhitespace := true, onFirstLine := false }
      ((r.indented line).getD line ++ '\n' :: text, final)

def drain (isFinal : Bool) (r : Reindenter) : List Char × Reindenter :=
  let (text, r) := r.drainLines isFinal (r.buffer.splitOn '\n')
  if isFinal then (text ++ r.buffer, { r with buffer := [] }) else (text, r)

def push (r : Reindenter) (chunk : List Char) : List Char × Reindenter :=
  drain false { r with buffer := r.buffer ++ chunk }

def finish (r : Reindenter) : List Char × Reindenter := r.drain true

/-- Everything that is emitted for the chunks and at the end of the stream. -/
def stream (r : Reindenter) : List (List Char) → List Char
  | [] => r.finish.1
  | chunk :: chunks => (r.push chunk).1 ++ stream (r.push chunk).2 chunks

end Reindenter

/-! ## Line by line -/

/-- A line on its own: nothing but indentation is copied, and otherwise the run of indentation
in front becomes as much longer or shorter as the delta says. -/
def reindentLine (delta : IndentDelta) (line : List Char) : List Char :=
  let count := (line.takeWhile (· == delta.character)).length
  if count = line.length then line
  else
    replicate (max 0 ((count : Int) + delta.len)).toNat delta.character ++ line.drop count

/-- The text with one function applied to its first line and one to every later line. -/
def mapLines (first rest : List Char → List Char) (text : List Char) : List Char :=
  ['\n'].intercalate (match text.splitOn '\n' with
    | [] => []
    | line :: lines => first line :: lines.map rest)

def reindentText (firstLineDelta restDelta : IndentDelta) : List Char → List Char :=
  mapLines (reindentLine firstLineDelta) (reindentLine restDelta)

/-- What the loop finds is the end of the line's indentation. -/
theorem getD_indent (delta : IndentDelta) (line : List Char) :
    (delta.indent line).getD line = reindentLine delta line := by
  have hcount : (line.takeWhile (· == delta.character)).length =
      line.findIdx (· != delta.character) := by
    rw [takeWhile_eq_take_findIdx_not]
    exact length_take_of_le findIdx_le_length
  rw [IndentDelta.indent, findIdx?_eq_guard_findIdx_lt, reindentLine, hcount]
  by_cases hend : line.findIdx (· != delta.character) = line.length
  · simp [Option.guard, hend]
  · simp [Option.guard, hend, Nat.lt_of_le_of_ne findIdx_le_length hend]

/-- What comes after the indentation of a line is copied. -/
theorem indent_append {delta : IndentDelta} {line text : List Char}
    (h : delta.indent line = some text) (later : List Char) :
    delta.indent (line ++ later) = some (text ++ later) := by
  obtain ⟨index, hfind, rfl⟩ := Option.map_eq_some_iff.1 h
  have hlt := (findIdx?_eq_some_iff_findIdx_eq.1 hfind).1
  rw [IndentDelta.indent, findIdx?_append, hfind, Option.some_or, Option.map_some,
    drop_append_of_le_length (Nat.le_of_lt hlt), append_assoc]

section Lines

variable {first rest : List Char → List Char} {line : List Char}

theorem mapLines_single (hline : '\n' ∉ line) : mapLines first rest line = first line := by
  rw [mapLines, splitOn_eq_singleton hline]
  exact append_nil _

theorem mapLines_newline (hline : '\n' ∉ line) (later : List Char) :
    mapLines first rest (line ++ '\n' :: later) =
      first line ++ '\n' :: mapLines rest rest later := by
  rw [mapLines, splitOn_append_cons_self_of_not_mem hline, mapLines]
  cases hsplit : later.splitOn '\n' with
  | nil => exact absurd hsplit (splitOn_ne_nil _ _)
  | cons next lines => simp [intercalate_cons_cons]

/-- The start of a line whose effect is known. -/
theorem mapLines_append {text : List Char} (hline : '\n' ∉ line)
    (hfirst : ∀ later, first (line ++ later) = text ++ later) (later : List Char) :
    mapLines first rest (line ++ later) = text ++ mapLines id rest later := by
  by_cases hlater : '\n' ∈ later
  · obtain ⟨next, further, rfl, hnext⟩ := eq_append_cons_of_mem hlater
    rw [mapLines_newline hnext, ← append_assoc, mapLines_newline (by simp [hline, hnext]), hfirst,
      append_assoc]
    rfl
  · rw [mapLines_single hlater, mapLines_single (by simp [hline, hlater]), hfirst]
    rfl

end Lines

namespace Reindenter

/-- What is still to be emitted when the text has not been read yet. -/
def remaining (r : Reindenter) : List Char → List Char :=
  mapLines (fun line => (r.indented line).getD line) (reindentLine r.restDelta)

theorem remaining_nil (r : Reindenter) : r.remaining [] = [] := by
  rw [remaining, mapLines_single not_mem_nil, indented]
  cases r.inLeadingWhitespace <;> rfl

/-- The text of a line that has left its indentation is followed by the rest of the line. -/
theorem remaining_indented {r : Reindenter} {line text : List Char} (hline : '\n' ∉ line)
    (h : r.indented line = some text) (later : List Char) :
    r.remaining (line ++ later) = text ++ mapLines id (reindentLine r.restDelta) later := by
  refine mapLines_append hline (fun later => ?_) later
  unfold indented at h ⊢
  cases hleading : r.inLeadingWhitespace with
  | false =>
    rw [hleading] at h
    cases h
    rfl
  | true =>
    rw [hleading] at h
    rw [if_pos rfl, indent_append h later, Option.getD_some]

/-- The loop emits what is due for the lines, up to what it leaves in the buffer. -/
theorem remaining_drainLines {isFinal : Bool} {later : List Char}
    (hlater : isFinal = true → later = []) {lines : List (List Char)} (r : Reindenter)
    {text : List Char} (hlines : text.splitOn '\n' = lines) {out : List Char} {r' : Reindenter}
    (h : r.drainLines isFinal lines = (out, r')) :
    r.remaining (text ++ later) = out ++ r'.remaining (r'.buffer ++ later) ∧
      (isFinal = true → r'.buffer = []) := by
  induction lines generalizing r text out with
  | nil => exact absurd hlines (splitOn_ne_nil _ _)
  | cons line rest ih =>
    rw [drainLines] at h
    by_cases htext : '\n' ∈ text
    · obtain ⟨front, further, rfl, hfront⟩ := eq_append_cons_of_mem htext
      rw [splitOn_append_cons_self_of_not_mem hfront] at hlines
      obtain ⟨rfl, hrest⟩ := cons.inj hlines
      rw [if_neg (hrest ▸ splitOn_ne_nil _ _)] at h
      cases hloop : drainLines isFinal rest
          { r with inLeadingWhitespace := true, onFirstLine := false } with | mk text final
      rw [hloop] at h
      cases h
      obtain ⟨hremaining, hbuffer⟩ := ih _ hrest hloop
      refine ⟨?_, hbuffer⟩
      rw [append_assoc, cons_append, remaining, mapLines_newline hfront, append_assoc, cons_append,
        ← hremaining]
      exact congrArg (_ ++ '\n' :: mapLines · _ _) (funext fun line => (getD_indent _ line).symm)
    · rw [splitOn_eq_singleton htext] at hlines
      cases hlines
      rw [if_pos rfl] at h
      cases hindented : r.indented line with
      | none =>
        cases isFinal with
        | false =>
          rw [if_pos ⟨hindented, rfl⟩] at h
          cases h
          exact ⟨rfl, nofun⟩
        | true =>
          rw [if_neg (by simp)] at h
          cases h
          refine ⟨?_, fun _ => rfl⟩
          rw [hlater rfl, append_nil, append_nil, remaining_nil, append_nil]
          exact mapLines_single htext
      | some emitted =>
        rw [if_neg (by simp [hindented]), hindented] at h
        cases h
        exact ⟨remaining_indented htext hindented later, fun _ => rfl⟩

/-- What the chunks make the reindenter emit is what is due for the buffer and for them. -/
theorem stream_eq (r : Reindenter) (chunks : List (List Char)) :
    r.stream chunks = r.remaining (r.buffer ++ chunks.flatten) := by
  induction chunks generalizing r with
  | nil =>
    cases hloop : r.drainLines true (r.buffer.splitOn '\n') with | mk out final
    obtain ⟨hremaining, hbuffer⟩ := remaining_drainLines (fun _ => rfl) r rfl hloop
    rw [hbuffer rfl, append_nil, append_nil, remaining_nil] at hremaining
    rw [flatten_nil, append_nil, stream, finish, drain, hloop, hremaining]
    exact congrArg (out ++ ·) (hbuffer rfl)
  | cons chunk chunks ih =>
    cases hloop : drainLines false ((r.buffer ++ chunk).splitOn '\n')
        { r with buffer := r.buffer ++ chunk } with | mk out next
    have hremaining := fun later => (@remaining_drainLines false later nofun _ _ _ rfl _ _ hloop).1
    have hpush : r.push chunk = (out, next) := by
      rw [push, drain, hloop]
      rfl
    rw [stream, hpush, ih, flatten_cons, ← append_assoc]
    exact (hremaining chunks.flatten).symm

/-- However a text is cut into chunks, it is re-indented line by line. -/
theorem stream_withDeltas (firstLineDelta restDelta : IndentDelta) (chunks : List (List Char)) :
    (withDeltas firstLineDelta restDelta).stream chunks =
      reindentText firstLineDelta restDelta chunks.flatten := by
  rw [stream_eq]
  exact congrArg (mapLines · _ _) (funext (getD_indent firstLineDelta))

end Reindenter

end XorEditor.EditSession
