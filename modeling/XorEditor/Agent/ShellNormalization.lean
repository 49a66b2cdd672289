import XorEditor.Agent.ShellCommandParser

/-!
# What can be normalized

The extraction gives up where a word, an assignment or a redirection cannot be normalized, and
where a redirection has no command to go with.  Here this is said of the tree.

* `Part.recorded`: the text that the extraction records of a part.
* `Word.Readable`, `CommandPrefixOrSuffixItem.Readable`: what has a normalized text.
* `Part.Walkable`: the part is no reason to give up.
* `exists_normalizeSimpleCommand`: such a simple command has a normalized form.
-/

namespace XorEditor.Agent

open List

/-- The text that the extraction records of a part. -/
def Part.recorded (parser : ShellParser) : Part → Option String
  | .simpleCommand command =>
    ((normalizeSimpleCommand parser command).map (·.text)).filter (· ≠ "")
  | .redirect target => (normalizeIoRedirect parser target).bind (·.text?)
  | _ => none

mutual

/-- The source of a piece, if its normalized text needs it, is a range of the word. -/
def WordPieceWithSource.inRange (rawValue : String) : WordPieceWithSource → Bool
  | .mk (.text _) _ _ | .mk (.singleQuotedText _) _ _ | .mk (.ansiCQuotedText _) _ _
  | .mk (.escapeSequence _) _ _ | .mk (.tildePrefix _) _ _ => true
  | .mk (.doubleQuotedSequence pieces) _ _ | .mk (.gettextDoubleQuotedSequence pieces) _ _ =>
    piecesInRange rawValue pieces
  | .mk (.parameterExpansion _ _) startIndex endIndex
  | .mk (.commandSubstitution _) startIndex endIndex
  | .mk (.backquotedCommandSubstitution _) startIndex endIndex
  | .mk (.arithmeticExpression _) startIndex endIndex =>
    (byteRange rawValue startIndex endIndex).isSome

def piecesInRange (rawValue : String) : List WordPieceWithSource → Bool
  | [] => true
  | piece :: rest => piece.inRange rawValue && piecesInRange rawValue rest

end

/-- The word parses, into pieces that lie in it. -/
def Word.Readable (parser : ShellParser) (word : Word) : Prop :=
  ∃ pieces, parser.parseWord word.value = some pieces ∧ piecesInRange word.value pieces = true

namespace IoRedirect

/-- The name of the file that a redirection opens. -/
def file? : IoRedirect → Option Word
  | .file _ _ (.filename word) | .outputAndError word _ => some word
  | _ => none

def Readable (parser : ShellParser) (redirect : IoRedirect) : Prop :=
  ∀ word ∈ redirect.file?, word.Readable parser

/-- The redirection opens a file other than `/dev/null`. -/
def OpensFile (parser : ShellParser) (redirect : IoRedirect) : Prop :=
  ∃ word ∈ redirect.file?, normalizeWord parser word ≠ some "/dev/null"

end IoRedirect

namespace CommandPrefixOrSuffixItem

/-- The item can be normalized: its words are readable, and the text of an assignment starts with
its name. -/
def Readable (parser : ShellParser) : CommandPrefixOrSuffixItem → Prop
  | .ioRedirect redirect => redirect.Readable parser
  | .word w => w.Readable parser
  | .assignmentWord ⟨name, .scalar value, append⟩ w => value.Readable parser ∧
    startsWith w.value (name.text ++ if append then "+=" else "=") = true
  | .assignmentWord ⟨_, .array _, _⟩ _ | .processSubstitution _ => True

/-- The item is in the text of its command. -/
def hasText : CommandPrefixOrSuffixItem → Bool
  | .word _ | .assignmentWord ⟨_, .scalar _, _⟩ _ => true
  | _ => false

def isProcessSubstitution : CommandPrefixOrSuffixItem → Bool
  | .processSubstitution _ => true
  | _ => false

end CommandPrefixOrSuffixItem

/-- The extraction does not give up at the part.  A simple command can be normalized, has no
process substitution before its name, and has a word if a redirection opens a file.  A compound
command with such a redirection has a command in its body. -/
def Part.Walkable (parser : ShellParser) : Part → Prop
  | .simpleCommand (.mk front name back) =>
    (∀ item ∈ front ++ back, item.Readable parser) ∧ (∀ word ∈ name, word.Readable parser) ∧
    (∀ item ∈ front, item.isProcessSubstitution = false) ∧
    (name.isSome = true ∨ (∃ item ∈ front ++ back, item.hasText = true) ∨
      ∀ redirect ∈ (front ++ back).filterMap (·.redirect?), ¬ redirect.OpensFile parser)
  | .compoundCommand command redirects =>
    (∀ redirect ∈ redirects, redirect.Readable parser) ∧
    ((∃ redirect ∈ redirects, redirect.OpensFile parser) →
      ∃ part ∈ command.bodyParts, (part.recorded parser).isSome = true)
  | _ => True

/-! All of this can be decided. -/

instance (parser : ShellParser) (word : Word) : Decidable (word.Readable parser) :=
  decidable_of_iff ((parser.parseWord word.value).any (piecesInRange word.value) = true)
    (Option.any_eq_true ..)

instance (parser : ShellParser) (redirect : IoRedirect) : Decidable (redirect.Readable parser) :=
  inferInstanceAs (Decidable (∀ word ∈ redirect.file?, word.Readable parser))

instance (parser : ShellParser) (redirect : IoRedirect) : Decidable (redirect.OpensFile parser) :=
  inferInstanceAs
    (Decidable (∃ word ∈ redirect.file?, normalizeWord parser word ≠ some "/dev/null"))

instance (parser : ShellParser) (item : CommandPrefixOrSuffixItem) :
    Decidable (item.Readable parser) :=
  match item with
  | .ioRedirect redirect => inferInstanceAs (Decidable (redirect.Readable parser))
  | .word w => inferInstanceAs (Decidable (w.Readable parser))
  | .assignmentWord ⟨name, .scalar value, append⟩ w => inferInstanceAs (Decidable
    (value.Readable parser ∧
      startsWith w.value (name.text ++ if append then "+=" else "=") = true))
  | .assignmentWord ⟨_, .array _, _⟩ _ | .processSubstitution _ => inferInstanceAs (Decidable True)

instance (parser : ShellParser) (part : Part) : Decidable (part.Walkable parser) :=
  match part with
  | .simpleCommand (.mk front name back) => inferInstanceAs (Decidable
    ((∀ item ∈ front ++ back, item.Readable parser) ∧ (∀ word ∈ name, word.Readable parser) ∧
      (∀ item ∈ front, item.isProcessSubstitution = false) ∧
      (name.isSome = true ∨ (∃ item ∈ front ++ back, item.hasText = true) ∨
        ∀ redirect ∈ (front ++ back).filterMap (·.redirect?), ¬ redirect.OpensFile parser)))
  | .compoundCommand command redirects => inferInstanceAs (Decidable
    ((∀ redirect ∈ redirects, redirect.Readable parser) ∧
      ((∃ redirect ∈ redirects, redirect.OpensFile parser) →
        ∃ part ∈ command.bodyParts, (part.recorded parser).isSome = true)))
  | .word _ _ | .redirect _ | .processSubstitution | .arithmetic _ =>
    inferInstanceAs (Decidable True)

section Normalization

variable {parser : ShellParser}

mutual

theorem exists_normalizeWordPiece {rawValue : String} : ∀ {piece : WordPieceWithSource},
    piece.inRange rawValue = true → ∃ text, normalizeWordPiece rawValue piece = some text
  | .mk (.text _) _ _, _ | .mk (.singleQuotedText _) _ _, _ | .mk (.ansiCQuotedText _) _ _, _
  | .mk (.escapeSequence _) _ _, _ | .mk (.tildePrefix _) _ _, _ => by
    rw [normalizeWordPiece]
    exact ⟨_, rfl⟩
  | .mk (.doubleQuotedSequence pieces) _ _, h
  | .mk (.gettextDoubleQuotedSequence pieces) _ _, h => by
    rw [WordPieceWithSource.inRange] at h
    rw [normalizeWordPiece]
    exact exists_normalizeWordPieces h
  | .mk (.parameterExpansion _ _) _ _, h | .mk (.commandSubstitution _) _ _, h
  | .mk (.backquotedCommandSubstitution _) _ _, h | .mk (.arithmeticExpression _) _ _, h => by
    rw [WordPieceWithSource.inRange] at h
    rw [normalizeWordPiece]
    exact Option.isSome_iff_exists.1 h

theorem exists_normalizeWordPieces {rawValue : String} : ∀ {pieces : List WordPieceWithSource},
    piecesInRange rawValue pieces = true → ∃ text, normalizeWordPieces rawValue pieces = some text
  | [], _ => by
    rw [normalizeWordPieces]
    exact ⟨_, rfl⟩
  | piece :: rest, h => by
    rw [piecesInRange, Bool.and_eq_true] at h
    obtain ⟨text, htext⟩ := exists_normalizeWordPiece h.1
    obtain ⟨others, hothers⟩ := exists_normalizeWordPieces h.2
    rw [normalizeWordPieces, htext, hothers]
    exact ⟨_, rfl⟩

end

theorem Word.Readable.normalizeWord {word : Word} (h : word.Readable parser) :
    ∃ text, normalizeWord parser word = some text := by
  obtain ⟨pieces, hparse, hrange⟩ := h
  rw [Agent.normalizeWord, hparse]
  exact exists_normalizeWordPieces hrange

theorem IoRedirect.Readable.normalizeIoRedirect {redirect : IoRedirect}
    (h : redirect.Readable parser) : ∃ normalization,
      normalizeIoRedirect parser redirect = some normalization := by
  cases redirect with
  | file fd kind target =>
    cases target with
    | filename word =>
      obtain ⟨text, htext⟩ := (h word rfl).normalizeWord
      rw [Agent.normalizeIoRedirect, htext]
      by_cases hnull : isKnownSafeRedirectTarget text = true <;> simp [hnull]
    | fd | processSubstitution | duplicate => exact ⟨_, rfl⟩
  | outputAndError word append =>
    obtain ⟨text, htext⟩ := (h word rfl).normalizeWord
    rw [Agent.normalizeIoRedirect, htext]
    by_cases hnull : isKnownSafeRedirectTarget text = true <;> simp [hnull]
  | hereDocument | hereString => exact ⟨_, rfl⟩

/-- A redirection that opens no file has no text. -/
theorem recorded_redirect_eq_none {redirect : IoRedirect} (h : ¬ redirect.OpensFile parser) :
    (Part.redirect redirect).recorded parser = none := by
  have hnull : ∀ word ∈ redirect.file?, normalizeWord parser word = some "/dev/null" := by
    intro word hword
    by_contra hother
    exact h ⟨word, hword, hother⟩
  cases redirect with
  | file fd kind target =>
    cases target with
    | filename word =>
      rw [Part.recorded, normalizeIoRedirect, hnull word rfl]
      rfl
    | fd | processSubstitution | duplicate => rfl
  | outputAndError word append =>
    rw [Part.recorded, normalizeIoRedirect, hnull word rfl]
    rfl
  | hereDocument | hereString => rfl

theorem exists_normalizeItem {inSuffix : Bool} {item : CommandPrefixOrSuffixItem}
    (command : NormalizedCommand) (h : item.Readable parser)
    (hsubstitution : inSuffix = true ∨ item.isProcessSubstitution = false) :
    ∃ next, normalizeItem parser inSuffix command item = some next ∧
      (next.words = [] → command.words = [] ∧ item.hasText = false) := by
  cases item with
  | ioRedirect redirect =>
    obtain ⟨normalization, hnormalization⟩ := IoRedirect.Readable.normalizeIoRedirect h
    rw [normalizeItem, hnormalization]
    cases normalization with
    | normalized text => exact ⟨_, rfl, fun hwords => ⟨hwords, rfl⟩⟩
    | skip => exact ⟨_, rfl, fun hwords => ⟨hwords, rfl⟩⟩
  | word word =>
    obtain ⟨text, htext⟩ := Word.Readable.normalizeWord h
    rw [normalizeItem, htext]
    exact ⟨_, rfl, fun hwords => by simp [NormalizedCommand.pushWord] at hwords⟩
  | assignmentWord assignment word =>
    obtain ⟨name, value, append⟩ := assignment
    cases value with
    | scalar value =>
      obtain ⟨text, htext⟩ := h.1.normalizeWord
      have hstrip : stripStart word.value (name.text ++ if append then "+=" else "=") =
          some _ := if_pos h.2
      have hincluded : ∃ included, normalizeAssignmentForCommandPrefix parser
          ⟨name, .scalar value, append⟩ word = some (.included included) := by
        simp only [normalizeAssignmentForCommandPrefix, htext, hstrip]
        exact ⟨_, rfl⟩
      obtain ⟨included, hincluded⟩ := hincluded
      rw [normalizeItem, hincluded]
      exact ⟨_, rfl, fun hwords => by simp [NormalizedCommand.pushWord] at hwords⟩
    | array words => exact ⟨command, rfl, fun hwords => ⟨hwords, rfl⟩⟩
  | processSubstitution list =>
    obtain rfl : inSuffix = true := hsubstitution.resolve_right (by simp [
      CommandPrefixOrSuffixItem.isProcessSubstitution])
    exact ⟨command, rfl, fun hwords => ⟨hwords, rfl⟩⟩

theorem exists_foldlM_normalizeItem (inSuffix : Bool) (command : NormalizedCommand)
    {items : List CommandPrefixOrSuffixItem} (h : ∀ item ∈ items, item.Readable parser)
    (hsubstitution : inSuffix = true ∨ ∀ item ∈ items, item.isProcessSubstitution = false) :
    ∃ result, items.foldlM (normalizeItem parser inSuffix) command = some result ∧
      (result.words = [] → command.words = [] ∧ ∀ item ∈ items, item.hasText = false) := by
  induction items generalizing command with
  | nil => exact ⟨command, rfl, fun hwords => ⟨hwords, by simp⟩⟩
  | cons item rest ih =>
    rw [forall_mem_cons] at h
    rw [forall_mem_cons, or_and_left] at hsubstitution
    obtain ⟨next, hnext, hfirst⟩ := exists_normalizeItem command h.1 hsubstitution.1
    obtain ⟨result, hresult, hrest⟩ := ih next h.2 hsubstitution.2
    refine ⟨result, ?_, fun hwords => ?_⟩
    · rw [foldlM_cons, hnext]
      exact hresult
    · obtain ⟨hnextWords, hothers⟩ := hrest hwords
      obtain ⟨hcommand, hitem⟩ := hfirst hnextWords
      exact ⟨hcommand, forall_mem_cons.2 ⟨hitem, hothers⟩⟩

/-! ## The texts of redirections -/

/-- What the extraction records of the parts of a tree. -/
def recordedTexts (parser : ShellParser) (parts : List Part) : List String :=
  parts.filterMap (Part.recorded parser)

@[simp] theorem recordedTexts_nil : recordedTexts parser [] = [] := rfl

@[simp] theorem recordedTexts_append (parts others : List Part) :
    recordedTexts parser (parts ++ others) =
      recordedTexts parser parts ++ recordedTexts parser others := by
  simp [recordedTexts]

theorem recordedTexts_cons (part : Part) (parts : List Part) :
    recordedTexts parser (part :: parts) =
      (part.recorded parser).toList ++ recordedTexts parser parts := by
  rw [recordedTexts, filterMap_cons]
  cases part.recorded parser <;> rfl

theorem recordedTexts_redirect_cons (redirect : IoRedirect) (parts : List Part) :
    recordedTexts parser (Part.redirect redirect :: parts) =
      ((normalizeIoRedirect parser redirect).bind (·.text?)).toList ++ recordedTexts parser parts :=
  recordedTexts_cons _ _

/-- The texts of redirections, when each of them can be normalized. -/
theorem normalizeRedirects_eq_some {redirects : List IoRedirect} {texts : List String}
    (h : normalizeRedirects parser redirects = some texts) :
    recordedTexts parser (redirects.map Part.redirect) = texts := by
  induction redirects generalizing texts with
  | nil =>
    cases h
    rfl
  | cons redirect rest ih =>
    simp only [normalizeRedirects, mapM_cons, Option.bind_eq_bind,
      Option.bind_eq_some_iff, Option.pure_def, Option.some.injEq] at h ih
    obtain ⟨_, ⟨normalization, hfirst, normalizations, hrest, rfl⟩, rfl⟩ := h
    rw [map_cons, recordedTexts_redirect_cons, ih ⟨normalizations, hrest, rfl⟩, hfirst,
      Option.bind_some, filterMap_cons]
    cases normalization <;> rfl

theorem exists_normalizeRedirects {redirects : List IoRedirect}
    (h : ∀ redirect ∈ redirects, redirect.Readable parser) :
    ∃ texts, normalizeRedirects parser redirects = some texts := by
  have hall : ∃ normalizations, redirects.mapM (normalizeIoRedirect parser) =
      some normalizations := by
    induction redirects with
    | nil => exact ⟨[], rfl⟩
    | cons redirect rest ih =>
      rw [forall_mem_cons] at h
      obtain ⟨normalization, hfirst⟩ := h.1.normalizeIoRedirect
      obtain ⟨normalizations, hrest⟩ := ih h.2
      exact ⟨normalization :: normalizations, by simp [hfirst, hrest]⟩
  obtain ⟨normalizations, hnormalizations⟩ := hall
  exact ⟨_, by rw [normalizeRedirects, hnormalizations]; rfl⟩

/-- Redirections with texts open a file. -/
theorem exists_opensFile {redirects : List IoRedirect}
    (h : recordedTexts parser (redirects.map Part.redirect) ≠ []) :
    ∃ redirect ∈ redirects, redirect.OpensFile parser := by
  by_contra hnone
  refine h (filterMap_eq_nil_iff.2 (forall_mem_map.2 fun redirect hredirect => ?_))
  exact recorded_redirect_eq_none fun hopens => hnone ⟨redirect, hredirect, hopens⟩

/-- The texts of a simple command's items: those that were there stay, and those of its
redirections are added. -/
theorem foldlM_normalizeItem {inSuffix : Bool} (items : List CommandPrefixOrSuffixItem)
    {command result : NormalizedCommand}
    (h : items.foldlM (normalizeItem parser inSuffix) command = some result) :
    result.redirects = command.redirects ++
      recordedTexts parser ((items.filterMap (·.redirect?)).map Part.redirect) := by
  induction items generalizing command with
  | nil =>
    cases h
    simp
  | cons item rest ih =>
    rw [foldlM_cons, Option.bind_eq_bind, Option.bind_eq_some_iff] at h
    obtain ⟨next, hitem, hrest⟩ := h
    rw [ih hrest, filterMap_cons]
    cases item with
    | ioRedirect redirect =>
      simp only [normalizeItem, Option.bind_eq_bind, Option.bind_eq_some_iff] at hitem
      obtain ⟨normalization, hredirect, hnext⟩ := hitem
      simp only [CommandPrefixOrSuffixItem.redirect?, map_cons,
        recordedTexts_redirect_cons, hredirect, Option.bind_some]
      cases normalization <;> cases hnext <;> simp [RedirectNormalization.text?]
    | word word =>
      simp only [normalizeItem, Option.bind_eq_bind, Option.bind_eq_some_iff] at hitem
      obtain ⟨text, -, hnext⟩ := hitem
      cases hnext
      rfl
    | assignmentWord assignment word =>
      simp only [normalizeItem, Option.bind_eq_bind, Option.bind_eq_some_iff] at hitem
      obtain ⟨normalized, -, hnext⟩ := hitem
      cases normalized <;> cases hnext <;> rfl
    | processSubstitution list =>
      cases inSuffix <;> cases hitem
      rfl

/-- The redirections that a normalized simple command has are its own. -/
theorem normalizeSimpleCommand_redirects
    {commandPrefix commandSuffix : List CommandPrefixOrSuffixItem} {wordOrName : Option Word}
    {command : NormalizedCommand}
    (h : normalizeSimpleCommand parser (.mk commandPrefix wordOrName commandSuffix) =
      some command) :
    command.redirects = recordedTexts parser
      (((commandPrefix ++ commandSuffix).filterMap (·.redirect?)).map Part.redirect) := by
  simp only [normalizeSimpleCommand, Option.bind_eq_bind, Option.bind_eq_some_iff] at h
  obtain ⟨first, hfront, second, hname, hsuffix⟩ := h
  have hsame : second.redirects = first.redirects := by
    cases wordOrName with
    | none =>
      cases hname
      rfl
    | some word =>
      simp only [Option.toList_some, foldlM_cons, foldlM_nil, Option.bind_eq_bind,
        Option.bind_eq_some_iff, Option.map_eq_some_iff] at hname
      obtain ⟨-, ⟨text, -, rfl⟩, hsecond⟩ := hname
      cases hsecond
      rfl
  rw [foldlM_normalizeItem _ hsuffix, hsame, foldlM_normalizeItem _ hfront]
  simp

/-- A simple command that is no reason to give up has a normalized form, with a word if it has
redirections. -/
theorem exists_normalizeSimpleCommand {front back : List CommandPrefixOrSuffixItem}
    {name : Option Word}
    (h : (Part.simpleCommand (.mk front name back)).Walkable parser) :
    ∃ normalized, normalizeSimpleCommand parser (.mk front name back) = some normalized ∧
      (normalized.words = [] → normalized.redirects = []) := by
  obtain ⟨hitems, hname, hsubstitution, hword⟩ := h
  rw [forall_mem_append] at hitems
  obtain ⟨first, hfirst, hfirstWords⟩ :=
    exists_foldlM_normalizeItem false {} hitems.1 (.inr hsubstitution)
  have hsecond : ∃ second, name.toList.foldlM
      (fun command word => (normalizeWord parser word).map command.pushWord) first = some second ∧
        (second.words = [] → first.words = [] ∧ name = none) := by
    cases name with
    | none => exact ⟨first, rfl, fun hwords => ⟨hwords, rfl⟩⟩
    | some word =>
      obtain ⟨text, htext⟩ := (hname word rfl).normalizeWord
      refine ⟨first.pushWord text, ?_, fun hwords => ?_⟩
      · rw [Option.toList_some, foldlM_cons, htext]
        rfl
      · simp [NormalizedCommand.pushWord] at hwords
  obtain ⟨second, hsecond, hsecondWords⟩ := hsecond
  obtain ⟨normalized, hnormalized, hwords⟩ :=
    exists_foldlM_normalizeItem true second hitems.2 (.inl rfl)
  have hall : normalizeSimpleCommand parser (.mk front name back) = some normalized := by
    simp only [normalizeSimpleCommand, hfirst, hsecond, Option.bind_eq_bind, Option.bind_some,
      hnormalized]
  refine ⟨normalized, hall, fun hnone => ?_⟩
  -- without words, no redirection opens a file
  obtain ⟨hsecondNone, hback⟩ := hwords hnone
  obtain ⟨hfirstNone, hnoName⟩ := hsecondWords hsecondNone
  obtain ⟨-, hfront⟩ := hfirstWords hfirstNone
  rw [normalizeSimpleCommand_redirects hall, recordedTexts, filterMap_eq_nil_iff, forall_mem_map]
  rcases hword with hsome | ⟨item, hitem, htext⟩ | hclosed
  · rw [hnoName] at hsome
    cases hsome
  · rcases mem_append.1 hitem with hitem | hitem
    · rw [hfront item hitem] at htext
      cases htext
    · rw [hback item hitem] at htext
      cases htext
  · exact fun redirect hredirect => recorded_redirect_eq_none (hclosed redirect hredirect)

end Normalization

end XorEditor.Agent
