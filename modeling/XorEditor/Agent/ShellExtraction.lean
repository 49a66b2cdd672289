import Mathlib.Data.Set.Basic
import XorEditor.Agent.ShellNormalization
import XorEditor.Agent.ShellValidation

/-!
# What the extraction records

The extraction records the text of every simple command and of every redirection to a file, and
those of the commands in its words.  It passes over the words of `>&` and `<&`, patterns,
arithmetic and subscripts.

* `Records`: a walk adds some texts, and under some condition it does not give up.
* `Nested.Meets`: what the walks of the texts inside words record.
* `records_program`: by recursion on the tree, what the walk of a program records.
* `recordedTexts_subset`, `extractCommands_ne_none`: the same of the extraction as a whole.
-/

namespace XorEditor.Agent

open Lib List

/-! ## Walks that add texts -/

/-- A walk adds texts behind those that are there, the given ones among them.  It gives up only if
it is not fine. -/
def Records {α : Type} (walk : Extraction α) (fine : Prop) (texts : Set String) : Prop :=
  ∀ known, Method.Ends walk known
    (fun _ commands => ∃ added, commands = known ++ added ∧ ∀ text ∈ texts, text ∈ added)
    (fun _ => ¬ fine)

/-- A walk that is fine if it is fine with every item, and adds the texts of all items. -/
def RecordsAll {ι α : Type} (Fine : ι → Prop) (texts : ι → Set String) (walk : Extraction α)
    (items : List ι) : Prop :=
  Records walk (∀ item ∈ items, Fine item) {text | ∃ item ∈ items, text ∈ texts item}

section Records

variable {α β : Type} {walk : Extraction α} {next : α → Extraction β} {fine fine' : Prop}
  {texts others : Set String}

theorem Records.mono (h : Records walk fine texts) (hfine : fine' → fine)
    (htexts : others ⊆ texts) :
    Records walk fine' others := by
  intro known
  refine (h known).imp ?_ fun _ hgiveUp hfine' => hgiveUp (hfine hfine')
  rintro _ commands ⟨added, hadded, hall⟩
  exact ⟨added, hadded, fun text htext => hall text (htexts htext)⟩

theorem records_pure {a : α} : Records (pure a) True ∅ :=
  fun known => Method.ends_pure ⟨[], (append_nil known).symm, fun _ htext => htext.elim⟩

theorem Records.bind (h : Records walk fine texts) (hnext : ∀ a, Records (next a) fine' others) :
    Records (walk >>= next) (fine ∧ fine') (texts ∪ others) := by
  intro known
  refine Method.Ends.bind ((h known).imp (fun _ _ hadded => hadded) fun _ hgiveUp hboth =>
    hgiveUp hboth.1) ?_
  rintro a commands ⟨added, rfl, hall⟩
  refine (hnext a (known ++ added)).imp ?_ fun _ hgiveUp hboth => hgiveUp hboth.2
  rintro _ commands ⟨more, rfl, hmore⟩
  refine ⟨added ++ more, append_assoc .., ?_⟩
  rintro text (htext | htext)
  · exact mem_append_left _ (hall text htext)
  · exact mem_append_right _ (hmore text htext)

/-- A step whose value is looked at by the next ones. -/
theorem records_require {value : Option α} (hvalue : fine → value ≠ none)
    (h : ∀ a, value = some a → Records (next a) fine texts) :
    Records (require value >>= next) fine texts := by
  cases value with
  | none => exact fun _ hfine => hvalue hfine rfl
  | some a => exact h a rfl

theorem records_extend (added : List String) : Records (extend added) True {text | text ∈ added} :=
  fun _ => Method.ends_modify ⟨added, rfl, fun _ htext => htext⟩

variable {ι γ : Type} {Fine : ι → Prop} {textsOf : ι → Set String} {items more : List ι} {item : ι}

theorem recordsAll_pure {a : α} : RecordsAll Fine textsOf (pure a) [] :=
  records_pure.mono (fun _ => trivial) (by simp)

theorem RecordsAll.append (h : RecordsAll Fine textsOf walk items)
    (hnext : ∀ a, RecordsAll Fine textsOf (next a) more) :
    RecordsAll Fine textsOf (walk >>= next) (items ++ more) := by
  refine (h.bind hnext).mono forall_mem_append.1 ?_
  rintro text ⟨item, hitem, htext⟩
  rcases mem_append.1 hitem with hitem | hitem
  · exact .inl ⟨item, hitem, htext⟩
  · exact .inr ⟨item, hitem, htext⟩

/-- Items that have no texts may be passed over. -/
theorem RecordsAll.skip (h : RecordsAll Fine textsOf walk more)
    (hskip : ∀ item ∈ items, textsOf item = ∅) :
    RecordsAll Fine textsOf walk (items ++ more) := by
  refine h.mono (fun hfine => (forall_mem_append.1 hfine).2) ?_
  rintro text ⟨item, hitem, htext⟩
  rcases mem_append.1 hitem with hitem | hitem
  · rw [hskip item hitem] at htext
    exact htext.elim
  · exact ⟨item, hitem, htext⟩

theorem RecordsAll.skip_one (h : RecordsAll Fine textsOf walk items) (hskip : textsOf item = ∅) :
    RecordsAll Fine textsOf walk (item :: items) := by
  have hone : ∀ other ∈ [item], textsOf other = ∅ := by
    intro other hother
    rwa [mem_singleton.1 hother]
  exact h.skip hone

theorem recordsAll_singleton (h : Records walk fine texts) (hfine : Fine item → fine)
    (htexts : textsOf item ⊆ texts) : RecordsAll Fine textsOf walk [item] := by
  refine h.mono (fun hall => hfine (hall item (mem_singleton_self _))) ?_
  rintro text ⟨other, hother, htext⟩
  rw [mem_singleton.1 hother] at htext
  exact htexts htext

theorem recordsAll_forM {round : γ → Extraction PUnit} {part : γ → List ι}
    (h : ∀ c, RecordsAll Fine textsOf (round c) (part c)) (cs : List γ) :
    RecordsAll Fine textsOf (cs.forM round) (cs.flatMap part) := by
  induction cs with
  | nil => exact recordsAll_pure
  | cons c rest ih => exact (h c).append fun _ => ih

end Records

/-! ## The texts inside words -/

/-- What the walks of the texts inside words record: fine texts do not make them give up, and they
record the given texts. -/
structure Nested.Meets (nested : Nested) (Fine : Nesting → Prop) (texts : Nesting → Set String) :
    Prop where
  command_fine : ∀ command, Fine (.command command) → nested.extractCommands command ≠ none
  command_texts : ∀ command commands, nested.extractCommands command = some commands →
    ∀ text ∈ texts (.command command), text ∈ commands
  word : ∀ word, Records (nested.extractCommandsFromWordString word) (Fine (.word word))
    (texts (.word word))
  passedOver : ∀ word, texts (.passedOver word) = ∅

/-- The same one level higher: a word parses and what is in it is fine. -/
def Nesting.FineIn (parser : ShellParser) (Fine : Nesting → Prop) : Nesting → Prop
  | .word w => ∃ pieces, parser.parseWord w = some pieces ∧
    ∀ nesting ∈ piecesNestings pieces, Fine nesting
  | _ => True

/-- The texts that are in a word. -/
def Nesting.textsIn (parser : ShellParser) (texts : Nesting → Set String) : Nesting → Set String
  | .word w => {text | ∃ pieces, parser.parseWord w = some pieces ∧
    ∃ nesting ∈ piecesNestings pieces, text ∈ texts nesting}
  | _ => ∅

/-- The part is no reason to give up, and neither are its words. -/
def Part.Fine (parser : ShellParser) (Fine : Nesting → Prop) (part : Part) : Prop :=
  part.Walkable parser ∧ ∀ nesting ∈ part.nestings, nesting.FineIn parser Fine

/-- The texts that are recorded of a part and of its words. -/
def Part.seen (parser : ShellParser) (texts : Nesting → Set String) (part : Part) : Set String :=
  {text | part.recorded parser = some text ∨
    ∃ nesting ∈ part.nestings, text ∈ nesting.textsIn parser texts}

section Walk

variable {parser : ShellParser} {nested : Nested} {Fine : Nesting → Prop}
  {texts : Nesting → Set String}

theorem records_parameterExpr (hnested : nested.Meets Fine texts) (expr : ParameterExpr) :
    RecordsAll Fine texts (extractCommandsFromParameterExpr nested expr)
      (expr.operands.map .word) := by
  have hword : ∀ word, RecordsAll Fine texts (nested.extractCommandsFromWordString word)
      [.word word] :=
    fun word => recordsAll_singleton (hnested.word word) (fun hfine => hfine) fun _ htext => htext
  have hoption : ∀ text : Option String, RecordsAll Fine texts
      (text.toList.forM nested.extractCommandsFromWordString) (text.toList.map .word) := by
    intro text
    rw [map_eq_flatMap]
    exact recordsAll_forM hword text.toList
  cases expr with
  | parameter | parameterLength | transform | variableNames | memberKeys => exact recordsAll_pure
  | substring text further | replaceSubstring text further =>
    exact (hword text).append fun _ => hoption further
  | _ => exact hoption _

mutual

theorem records_wordPiece (hnested : nested.Meets Fine texts) : ∀ (piece : WordPiece),
    RecordsAll Fine texts (extractCommandsFromWordPiece nested piece) piece.nestings
  | .commandSubstitution command | .backquotedCommandSubstitution command => by
    rw [extractCommandsFromWordPiece, WordPiece.nestings]
    refine recordsAll_singleton (records_require (hnested.command_fine command)
      fun commands hcommands => ?_) (fun hfine => hfine) (fun _ htext => htext)
    exact (records_extend commands).mono (fun _ => trivial)
      (hnested.command_texts command commands hcommands)
  | .doubleQuotedSequence pieces | .gettextDoubleQuotedSequence pieces => by
    rw [extractCommandsFromWordPiece, WordPiece.nestings]
    exact records_wordPieces hnested pieces
  | .arithmeticExpression expr => by
    rw [extractCommandsFromWordPiece, WordPiece.nestings]
    exact recordsAll_singleton (hnested.word expr) (fun hfine => hfine) fun _ htext => htext
  | .parameterExpansion index expr => by
    rw [extractCommandsFromWordPiece, WordPiece.nestings]
    refine (records_parameterExpr hnested expr).skip ?_
    rw [forall_mem_map]
    exact fun word _ => hnested.passedOver word
  | .escapeSequence _ | .singleQuotedText _ | .text _ | .ansiCQuotedText _ | .tildePrefix _ => by
    rw [extractCommandsFromWordPiece, WordPiece.nestings]
    exact recordsAll_pure

theorem records_wordPieces (hnested : nested.Meets Fine texts) :
    ∀ (pieces : List WordPieceWithSource),
      RecordsAll Fine texts (extractCommandsFromWordPieces nested pieces) (piecesNestings pieces)
  | [] => by
    rw [extractCommandsFromWordPieces, piecesNestings]
    exact recordsAll_pure
  | .mk piece _ _ :: rest => by
    rw [extractCommandsFromWordPieces, piecesNestings]
    exact (records_wordPiece hnested piece).append fun _ => records_wordPieces hnested rest

end

theorem records_wordString (hnested : nested.Meets Fine texts) (text : String) :
    Records (extractCommandsFromWordString parser nested text)
      (Nesting.FineIn parser Fine (.word text)) (Nesting.textsIn parser texts (.word text)) := by
  refine records_require ?_ fun pieces hparse => (records_wordPieces hnested pieces).mono ?_ ?_
  · rintro ⟨pieces, hparse, -⟩
    rw [hparse]
    nofun
  · rintro ⟨pieces', hparse', hfine⟩
    cases hparse.symm.trans hparse'
    exact hfine
  · rintro text ⟨pieces', hparse', htext⟩
    cases hparse.symm.trans hparse'
    exact htext

end Walk

/-! ## The tree -/

/-- The walk of a tree with these parts. -/
abbrev WalksParts {α : Type} (parser : ShellParser) (Fine : Nesting → Prop)
    (texts : Nesting → Set String) (walk : Extraction α) (parts : List Part) : Prop :=
  RecordsAll (Part.Fine parser Fine) (Part.seen parser texts) walk parts

/-- The walk of a compound command.  If a text is recorded in its body, there are more texts
behind it than it returns. -/
def WalksBody (parser : ShellParser) (Fine : Nesting → Prop) (texts : Nesting → Set String)
    (walk : Extraction Nat) (parts body : List Part) : Prop :=
  ∀ known, Method.Ends walk known
    (fun start commands => (∃ added, commands = known ++ added ∧
        ∀ part ∈ parts, ∀ text ∈ part.seen parser texts, text ∈ added) ∧
      ((∃ part ∈ body, (part.recorded parser).isSome = true) → start < commands.length))
    (fun _ => ¬ ∀ part ∈ parts, part.Fine parser Fine)

section Tree

variable {α β : Type} {parser : ShellParser} {nested : Nested} {Fine : Nesting → Prop}
  {texts : Nesting → Set String} {parts more body : List Part} {walk : Extraction Nat}

/-- Parts that the walk passes over. -/
theorem seen_eq_empty {part : Part} (hrecorded : part.recorded parser = none)
    (hnestings : ∀ nesting ∈ part.nestings, ∃ text, nesting = .passedOver text) :
    part.seen parser texts = ∅ := by
  refine Set.eq_empty_of_forall_notMem ?_
  rintro text (hsome | ⟨nesting, hnesting, htext⟩)
  · rw [hrecorded] at hsome
    cases hsome
  · obtain ⟨passed, rfl⟩ := hnestings nesting hnesting
    exact htext.elim

theorem seen_word_eq_empty {place : WordPlace} (hplace : place ≠ .plain) (word : Word) :
    (Part.word place word).seen parser texts = ∅ := by
  refine seen_eq_empty rfl fun nesting hnesting => ?_
  cases place with
  | plain => exact absurd rfl hplace
  | duplicate | casePattern => exact ⟨word.value, mem_singleton.1 hnesting⟩
  | assignment => cases hnesting

theorem seen_processSubstitution : Part.processSubstitution.seen parser texts = ∅ :=
  seen_eq_empty rfl fun _ hnesting => absurd hnesting not_mem_nil

theorem seen_arithmetic (exprs : List String) :
    (Part.arithmetic exprs).seen parser texts = ∅ := by
  refine seen_eq_empty rfl fun nesting hnesting => ?_
  obtain ⟨expr, -, rfl⟩ := mem_map.1 hnesting
  exact ⟨expr, rfl⟩

theorem walksBody_get {walk : Extraction PUnit} (h : WalksParts parser Fine texts walk parts) :
    WalksBody parser Fine texts (do
      let commands ← get
      walk
      return commands.length) parts parts := by
  intro known
  refine Method.ends_get_bind (Method.Ends.bind (h known) ?_)
  rintro _ commands ⟨added, rfl, hall⟩
  refine Method.ends_pure ⟨⟨added, rfl, fun part hpart text htext =>
    hall text ⟨part, hpart, htext⟩⟩, ?_⟩
  rintro ⟨part, hpart, hrecorded⟩
  obtain ⟨text, htext⟩ := Option.isSome_iff_exists.1 hrecorded
  have hpos := length_pos_of_mem (hall text ⟨part, hpart, .inl htext⟩)
  rw [length_append]
  omega

theorem RecordsAll.then_body {before : Extraction PUnit}
    (h : WalksParts parser Fine texts before parts)
    (hbody : WalksBody parser Fine texts walk more body) :
    WalksBody parser Fine texts (before >>= fun _ => walk) (parts ++ more) body := by
  intro known
  refine Method.Ends.bind ((h known).imp (fun _ _ hadded => hadded) fun _ hgiveUp hboth =>
    hgiveUp (forall_mem_append.1 hboth).1) ?_
  rintro _ commands ⟨added, rfl, hall⟩
  refine (hbody (known ++ added)).imp ?_ fun _ hgiveUp hboth =>
    hgiveUp (forall_mem_append.1 hboth).2
  rintro start commands ⟨⟨others, rfl, hothers⟩, hstart⟩
  refine ⟨⟨added ++ others, append_assoc .., ?_⟩, hstart⟩
  rw [forall_mem_append]
  exact ⟨fun part hpart text htext => mem_append_left _ (hall text ⟨part, hpart, htext⟩),
    fun part hpart text htext => mem_append_right _ (hothers part hpart text htext)⟩

theorem WalksBody.skip_arithmetic (h : WalksBody parser Fine texts walk parts body)
    (exprs : List String) :
    WalksBody parser Fine texts walk (.arithmetic exprs :: parts) body := by
  have hskip : WalksParts parser Fine texts (pure PUnit.unit) [.arithmetic exprs] :=
    recordsAll_pure.skip_one (seen_arithmetic exprs)
  exact hskip.then_body h

theorem records_word (hnested : nested.Meets Fine texts) (word : Word) :
    WalksParts parser Fine texts (extractCommandsFromWord parser nested word)
      [.word .plain word] := by
  refine recordsAll_singleton (records_wordString hnested word.value)
    (fun hfine => hfine.2 _ (mem_singleton_self _)) ?_
  rintro text (hrecorded | ⟨nesting, hnesting, htext⟩)
  · cases hrecorded
  · rwa [mem_singleton.1 hnesting] at htext

theorem records_words (hnested : nested.Meets Fine texts) (words : List Word) :
    WalksParts parser Fine texts (words.forM (extractCommandsFromWord parser nested))
      (words.map (.word .plain)) := by
  rw [map_eq_flatMap]
  exact recordsAll_forM (records_word hnested) words

theorem records_assignment (hnested : nested.Meets Fine texts) (assignment : Assignment) :
    WalksParts parser Fine texts (extractCommandsFromAssignment parser nested assignment)
      (assignment.words.map (.word .plain)) := by
  unfold extractCommandsFromAssignment Assignment.words
  cases assignment.value with
  | scalar word => exact records_word hnested word
  | array words =>
    rw [map_flatMap]
    refine recordsAll_forM (fun element => ?_) words
    rw [map_append]
    exact (records_words hnested element.1.toList).append fun _ => records_word hnested element.2

theorem records_extendedTestExpr (hnested : nested.Meets Fine texts) (expr : ExtendedTestExpr) :
    WalksParts parser Fine texts (extractCommandsFromExtendedTestExpr parser nested expr)
      (expr.words.map (.word .plain)) := by
  induction expr with
  | and left right ihleft ihright | or left right ihleft ihright =>
    rw [ExtendedTestExpr.words, map_append]
    exact ihleft.append fun _ => ihright
  | not inner ih | parenthesized inner ih => exact ih
  | unaryTest word => exact records_word hnested word
  | binaryTest left right =>
    exact (records_word hnested left).append fun _ => records_word hnested right

/-! ### Simple commands and redirections -/

theorem records_recordSimpleCommand (command : NormalizedCommand) :
    Records (recordSimpleCommand command) (command.words = [] → command.redirects = [])
      {text | text = command.text ∧ text ≠ "" ∨ text ∈ command.redirects} := by
  intro known
  unfold recordSimpleCommand
  by_cases hguard : command.words = [] ∧ command.redirects ≠ []
  · rw [if_pos hguard]
    exact Method.ends_throw_bind fun hfine => hguard.2 (hfine hguard.1)
  · rw [if_neg hguard]
    by_cases htext : command.text = ""
    · rw [if_neg (by simpa using htext)]
      refine Method.ends_modify ⟨command.redirects, rfl, ?_⟩
      rintro text (⟨rfl, hne⟩ | hmem)
      · exact absurd htext hne
      · exact hmem
    · rw [if_pos htext]
      refine Method.ends_modify_bind
        (Method.ends_modify ⟨command.text :: command.redirects, ?_, ?_⟩)
      · simp
      · rintro text (⟨rfl, -⟩ | hmem)
        · exact mem_cons_self
        · exact mem_cons_of_mem _ hmem

/-- The head of a simple command, before the walk of its items. -/
theorem records_simpleCommand {front back : List CommandPrefixOrSuffixItem} {name : Option Word}
    {rest : Extraction β} (hrest : WalksParts parser Fine texts rest parts) :
    WalksParts parser Fine texts (do
      let command ← require (normalizeSimpleCommand parser (.mk front name back))
      recordSimpleCommand command
      rest) (.simpleCommand (.mk front name back) ::
        (((front ++ back).filterMap (·.redirect?)).map .redirect ++ parts)) := by
  refine records_require (fun hfine => ?_) fun command hcommand =>
    ((records_recordSimpleCommand command).bind fun _ => hrest).mono (fun hfine => ?_) ?_
  · obtain ⟨command, hcommand, -⟩ := exists_normalizeSimpleCommand (hfine _ mem_cons_self).1
    rw [hcommand]
    nofun
  · rw [forall_mem_cons, forall_mem_append] at hfine
    obtain ⟨command', hcommand', hwords⟩ := exists_normalizeSimpleCommand hfine.1.1
    cases hcommand.symm.trans hcommand'
    exact ⟨hwords, hfine.2.2⟩
  · rintro text ⟨part, hpart, htext⟩
    rw [mem_cons, mem_append] at hpart
    rcases hpart with rfl | hpart | hpart
    · rcases htext with hrecorded | ⟨nesting, hnesting, htext⟩
      · rw [Part.recorded, hcommand, Option.map_some, Option.filter_eq_some_iff] at hrecorded
        obtain ⟨hsame, hne⟩ := hrecorded
        exact .inl (.inl ⟨(Option.some.inj hsame).symm, by simpa using hne⟩)
      · obtain ⟨passed, -, rfl⟩ := mem_map.1 hnesting
        exact htext.elim
    · obtain ⟨redirect, hredirect, rfl⟩ := mem_map.1 hpart
      rcases htext with hrecorded | ⟨nesting, hnesting, -⟩
      · refine .inl (.inr ?_)
        rw [normalizeSimpleCommand_redirects hcommand]
        exact mem_filterMap.2 ⟨_, hpart, hrecorded⟩
      · cases hnesting
    · exact .inr ⟨part, hpart, htext⟩

theorem ends_recordRedirects (bodyStart : Nat) (redirects : List IoRedirect)
    (known : List String) :
    Method.Ends (recordRedirects parser bodyStart redirects) known
      (fun _ commands => ∃ added, commands = known ++ added ∧
        ∀ text ∈ recordedTexts parser (redirects.map Part.redirect), text ∈ added)
      (fun _ => ¬ ((∀ redirect ∈ redirects, redirect.Readable parser) ∧
        ((∃ redirect ∈ redirects, redirect.OpensFile parser) → bodyStart < known.length))) := by
  unfold recordRedirects
  cases htexts : normalizeRedirects parser redirects with
  | none =>
    rintro ⟨hreadable, -⟩
    obtain ⟨added, hadded⟩ := exists_normalizeRedirects hreadable
    rw [htexts] at hadded
    cases hadded
  | some added =>
    rw [normalizeRedirects_eq_some htexts]
    refine Method.ends_pure_bind ?_
    by_cases hempty : added = []
    · rw [if_neg (by simpa using hempty), hempty]
      exact Method.ends_pure ⟨[], (append_nil known).symm, fun _ htext => htext⟩
    · rw [if_pos hempty]
      refine Method.ends_get_bind ?_
      by_cases hlength : known.length ≤ bodyStart
      · rw [if_pos hlength]
        rintro ⟨-, hopens⟩
        rw [← normalizeRedirects_eq_some htexts] at hempty
        exact absurd (hopens (exists_opensFile hempty)) (by omega)
      · rw [if_neg hlength]
        exact Method.ends_modify ⟨added, rfl, fun _ htext => htext⟩

/-- A compound command with its redirections. -/
theorem records_compound {command : CompoundCommand} {redirects : List IoRedirect}
    {rest : Extraction β} (h : WalksBody parser Fine texts walk parts command.bodyParts)
    (hrest : WalksParts parser Fine texts rest more) :
    WalksParts parser Fine texts (do
      let bodyStart ← walk
      recordRedirects parser bodyStart redirects
      rest) (.compoundCommand command redirects :: (parts ++ redirects.map .redirect ++ more)) := by
  intro known
  refine Method.Ends.bind ((h known).imp (fun _ _ hadded => hadded) fun _ hgiveUp hfine => ?_) ?_
  · rw [forall_mem_cons, forall_mem_append, forall_mem_append] at hfine
    exact hgiveUp hfine.2.1.1
  rintro bodyStart commands ⟨⟨added, rfl, hadded⟩, hbody⟩
  refine Method.Ends.bind ((ends_recordRedirects bodyStart redirects _).imp
    (fun _ _ hadded => hadded) fun _ hgiveUp hfine => ?_) ?_
  · obtain ⟨hreadable, hopens⟩ := (hfine _ mem_cons_self).1
    exact hgiveUp ⟨hreadable, fun hfile => hbody (hopens hfile)⟩
  rintro _ commands ⟨recorded, rfl, hrecorded⟩
  refine (hrest _).imp ?_ fun _ hgiveUp hfine => ?_
  · rintro _ commands ⟨others, rfl, hothers⟩
    refine ⟨added ++ recorded ++ others, by simp only [append_assoc], ?_⟩
    rintro text ⟨part, hpart, htext⟩
    simp only [mem_cons, mem_append] at hpart ⊢
    rcases hpart with rfl | (hpart | hpart) | hpart
    · rw [seen_eq_empty rfl (by simp [Part.nestings])] at htext
      exact htext.elim
    · exact .inl (.inl (hadded part hpart text htext))
    · obtain ⟨redirect, -, rfl⟩ := mem_map.1 hpart
      rcases htext with htext | ⟨nesting, hnesting, -⟩
      · exact .inl (.inr (hrecorded text (mem_filterMap.2 ⟨_, hpart, htext⟩)))
      · cases hnesting
    · exact .inr (hothers text ⟨part, hpart, htext⟩)
  · rw [forall_mem_cons, forall_mem_append] at hfine
    exact hgiveUp hfine.2.2

/-! ### The walk -/

-- By recursion on the tree.
mutual

theorem records_compoundList (hnested : nested.Meets Fine texts) : ∀ (list : List AndOrList),
    WalksParts parser Fine texts (extractCommandsFromCompoundList parser nested list)
      (compoundListParts list)
  | [] => by
    rw [extractCommandsFromCompoundList, compoundListParts]
    exact recordsAll_pure
  | .mk first additional :: rest => by
    rw [extractCommandsFromCompoundList, compoundListParts, append_assoc]
    exact (records_pipeline hnested first).append fun _ =>
      (records_andOrs hnested additional).append fun _ => records_compoundList hnested rest

theorem records_andOrs (hnested : nested.Meets Fine texts) : ∀ (additional : List AndOr),
    WalksParts parser Fine texts (extractCommandsFromAndOrs parser nested additional)
      (andOrParts additional)
  | [] => by
    rw [extractCommandsFromAndOrs, andOrParts]
    exact recordsAll_pure
  | .and pipeline :: rest | .or pipeline :: rest => by
    rw [extractCommandsFromAndOrs, andOrParts]
    exact (records_pipeline hnested pipeline).append fun _ => records_andOrs hnested rest

theorem records_pipeline (hnested : nested.Meets Fine texts) : ∀ (pipeline : List Command),
    WalksParts parser Fine texts (extractCommandsFromPipeline parser nested pipeline)
      (pipelineParts pipeline)
  | [] => by
    rw [extractCommandsFromPipeline, pipelineParts]
    exact recordsAll_pure
  | command :: rest => by
    rw [extractCommandsFromPipeline, pipelineParts]
    exact (records_command hnested command).append fun _ => records_pipeline hnested rest

theorem records_command (hnested : nested.Meets Fine texts) : ∀ (command : Command),
    WalksParts parser Fine texts (extractCommandsFromCommand parser nested command)
      (commandParts command)
  | .simple (.mk commandPrefix wordOrName commandSuffix) => by
    rw [extractCommandsFromCommand, commandParts]
    simp only [cons_append, append_assoc]
    exact records_simpleCommand ((records_items hnested commandPrefix).append fun _ =>
      (records_words hnested wordOrName.toList).append fun _ =>
        records_items hnested commandSuffix)
  | .compound command redirects | .function (.mk command redirects) => by
    rw [extractCommandsFromCommand, commandParts, cons_append, cons_append]
    exact records_compound (records_compoundCommand hnested command)
      (records_ioRedirects hnested redirects)
  | .extendedTest expr => by
    rw [extractCommandsFromCommand, commandParts]
    exact records_extendedTestExpr hnested expr

theorem records_items (hnested : nested.Meets Fine texts) :
    ∀ (items : List CommandPrefixOrSuffixItem),
      WalksParts parser Fine texts (extractCommandsFromItems parser nested items) (itemParts items)
  | [] => by
    rw [extractCommandsFromItems, itemParts]
    exact recordsAll_pure
  | .ioRedirect redirect :: rest => by
    rw [extractCommandsFromItems, itemParts]
    exact (records_ioRedirect hnested redirect).append fun _ => records_items hnested rest
  | .word word :: rest => by
    rw [extractCommandsFromItems, itemParts]
    exact (records_word hnested word).append fun _ => records_items hnested rest
  | .assignmentWord assignment word :: rest => by
    rw [extractCommandsFromItems, itemParts]
    exact (records_assignment hnested assignment).append fun _ =>
      (records_items hnested rest).skip_one (seen_word_eq_empty (by decide) word)
  | .processSubstitution list :: rest => by
    rw [extractCommandsFromItems, itemParts]
    exact ((records_compoundList hnested list).append fun _ =>
      records_items hnested rest).skip_one seen_processSubstitution

theorem records_ioRedirects (hnested : nested.Meets Fine texts) : ∀ (redirects : List IoRedirect),
    WalksParts parser Fine texts (extractCommandsFromIoRedirects parser nested redirects)
      (redirectParts redirects)
  | [] => by
    rw [extractCommandsFromIoRedirects, redirectParts]
    exact recordsAll_pure
  | redirect :: rest => by
    rw [extractCommandsFromIoRedirects, redirectParts]
    exact (records_ioRedirect hnested redirect).append fun _ => records_ioRedirects hnested rest

theorem records_ioRedirect (hnested : nested.Meets Fine texts) : ∀ (redirect : IoRedirect),
    WalksParts parser Fine texts (extractCommandsFromIoRedirect parser nested redirect)
      (ioRedirectParts redirect)
  | .file _ _ (.processSubstitution list) => by
    rw [extractCommandsFromIoRedirect, ioRedirectParts]
    exact (records_compoundList hnested list).skip_one seen_processSubstitution
  | .file _ _ (.filename word) | .hereString word | .outputAndError word _ => by
    rw [extractCommandsFromIoRedirect, ioRedirectParts]
    exact records_word hnested word
  | .file _ _ (.fd _) => by
    rw [extractCommandsFromIoRedirect, ioRedirectParts]
    · exact recordsAll_pure
    all_goals simp
  | .file _ _ (.duplicate word) => by
    rw [extractCommandsFromIoRedirect, ioRedirectParts]
    · exact recordsAll_pure.skip_one (seen_word_eq_empty (by decide) word)
    all_goals simp
  | .hereDocument requiresExpansion doc => by
    rw [extractCommandsFromIoRedirect, ioRedirectParts]
    cases requiresExpansion with
    | false => exact recordsAll_pure
    | true => exact records_word hnested doc

theorem records_compoundCommand (hnested : nested.Meets Fine texts) :
    ∀ (command : CompoundCommand),
      WalksBody parser Fine texts (extractCommandsFromCompoundCommand parser nested command)
        (compoundCommandParts command) command.bodyParts
  | .arithmetic expr => by
    rw [extractCommandsFromCompoundCommand, compoundCommandParts, CompoundCommand.bodyParts]
    exact (walksBody_get (recordsAll_pure (a := PUnit.unit))).skip_arithmetic [expr]
  | .arithmeticForClause header list => by
    rw [extractCommandsFromCompoundCommand, compoundCommandParts, CompoundCommand.bodyParts]
    exact (walksBody_get (records_compoundList hnested list)).skip_arithmetic header
  | .braceGroup list | .subshell list => by
    rw [extractCommandsFromCompoundCommand, compoundCommandParts, CompoundCommand.bodyParts]
    exact walksBody_get (records_compoundList hnested list)
  | .forClause values list => by
    rw [extractCommandsFromCompoundCommand, compoundCommandParts, CompoundCommand.bodyParts]
    exact (records_words hnested values).then_body
      (walksBody_get (records_compoundList hnested list))
  | .caseClause value cases => by
    rw [extractCommandsFromCompoundCommand, compoundCommandParts, CompoundCommand.bodyParts]
    exact (records_word hnested value).then_body (walksBody_get (records_cases hnested cases))
  | .ifClause condition thenBranch elses => by
    rw [extractCommandsFromCompoundCommand, compoundCommandParts, CompoundCommand.bodyParts,
      append_assoc]
    refine (records_compoundList hnested condition).then_body ?_
    have hbody := walksBody_get ((records_compoundList hnested thenBranch).append fun _ =>
      records_elses hnested elses)
    simpa only [bind_assoc] using hbody
  | .whileClause condition list | .untilClause condition list => by
    rw [extractCommandsFromCompoundCommand, compoundCommandParts, CompoundCommand.bodyParts]
    exact (records_compoundList hnested condition).then_body
      (walksBody_get (records_compoundList hnested list))

theorem records_cases (hnested : nested.Meets Fine texts) : ∀ (cases : List CaseItem),
    WalksParts parser Fine texts (extractCommandsFromCases parser nested cases) (caseParts cases)
  | [] => by
    rw [extractCommandsFromCases, caseParts]
    exact recordsAll_pure
  | .mk patterns cmd :: rest => by
    rw [extractCommandsFromCases, caseParts, append_assoc]
    refine ((records_compoundList hnested cmd).append
      fun _ => records_cases hnested rest).skip fun _ hword => ?_
    obtain ⟨word, -, rfl⟩ := mem_map.1 hword
    exact seen_word_eq_empty (by decide) word

theorem records_elses (hnested : nested.Meets Fine texts) : ∀ (elses : List ElseClause),
    WalksParts parser Fine texts (extractCommandsFromElses parser nested elses) (elseParts elses)
  | [] => by
    rw [extractCommandsFromElses, elseParts]
    exact recordsAll_pure
  | .mk condition body :: rest => by
    rw [extractCommandsFromElses, elseParts, append_assoc]
    exact (records_compoundList hnested condition).append fun _ =>
      (records_compoundList hnested body).append fun _ => records_elses hnested rest

end

theorem records_program (hnested : nested.Meets Fine texts) (program : Program) :
    WalksParts parser Fine texts (extractCommandsFromProgram parser nested program)
      program.parts :=
  recordsAll_forM (records_compoundList hnested) program.completeCommands

/-- The extraction of a program whose parts are fine does not give up. -/
theorem extractCommandsWith_ne_none (hnested : nested.Meets Fine texts) {input : String}
    {program : Program} (hparse : parser.parseProgram input = some program)
    (h : ∀ part ∈ program.parts, part.Fine parser Fine) :
    extractCommandsWith parser nested input ≠ none := by
  intro hnone
  have hwalk : WalksParts parser Fine texts _ _ := records_program hnested program
  simp only [extractCommandsWith, hparse] at hnone
  split at hnone
  · cases hnone
  · next hresult => exact (hwalk []).of_error hresult h

/-- It returns what is seen of the parts. -/
theorem mem_of_extractCommandsWith (hnested : nested.Meets Fine texts) {input text : String}
    {program : Program} {commands : List String} {part : Part}
    (hparse : parser.parseProgram input = some program)
    (h : extractCommandsWith parser nested input = some commands) (hpart : part ∈ program.parts)
    (htext : text ∈ part.seen parser texts) : text ∈ commands := by
  have hwalk : WalksParts parser Fine texts _ _ := records_program hnested program
  simp only [extractCommandsWith, hparse] at h
  split at h
  · next hresult =>
    obtain ⟨added, hadded, hall⟩ := (hwalk []).of_ok hresult
    cases h
    rw [hadded]
    exact hall text ⟨part, hpart, htext⟩
  · cases h

/-- Whatever is nested, the walks only add texts. -/
theorem nestedTo_meets (depth : Nat) :
    (nestedTo parser depth).Meets (fun _ => False) fun _ => ∅ := by
  induction depth with
  | zero =>
    exact ⟨fun _ hfine => hfine.elim, fun _ _ _ _ htext => htext.elim, fun _ _ hfine => hfine,
      fun _ => rfl⟩
  | succ depth ih =>
    exact ⟨fun _ hfine => hfine.elim, fun _ _ _ _ htext => htext.elim,
      fun word => (records_wordString ih word).mono (fun hfine => hfine.elim)
        (Set.empty_subset _), fun _ => rfl⟩

/-- An extraction that does not give up returns the recorded text of every part. -/
theorem recordedTexts_subset {depth : Nat} {input : String} {program : Program}
    {commands : List String} (hparse : parser.parseProgram input = some program)
    (h : extractCommands parser depth input = some commands) :
    recordedTexts parser program.parts ⊆ commands := by
  intro text htext
  obtain ⟨part, hpart, hrecorded⟩ := mem_filterMap.1 htext
  exact mem_of_extractCommandsWith (nestedTo_meets depth) hparse h hpart (.inl hrecorded)

mutual

theorem WordPiece.nestings_eq_nil : ∀ {piece : WordPiece}, piece.expands = false →
    piece.nestings = []
  | .text _, _ | .singleQuotedText _, _ | .ansiCQuotedText _, _ | .escapeSequence _, _
  | .tildePrefix _, _ => by rw [WordPiece.nestings]
  | .doubleQuotedSequence pieces, h | .gettextDoubleQuotedSequence pieces, h => by
    rw [WordPiece.expands] at h
    rw [WordPiece.nestings]
    exact piecesNestings_eq_nil h
  | .parameterExpansion _ _, h | .arithmeticExpression _, h | .commandSubstitution _, h
  | .backquotedCommandSubstitution _, h => by
    rw [WordPiece.expands] at h
    cases h

theorem piecesNestings_eq_nil : ∀ {pieces : List WordPieceWithSource},
    piecesExpand pieces = false → piecesNestings pieces = []
  | [], _ => by rw [piecesNestings]
  | .mk piece _ _ :: rest, h => by
    rw [piecesExpand, Bool.or_eq_false_iff] at h
    rw [piecesNestings, WordPiece.nestings_eq_nil h.1, piecesNestings_eq_nil h.2, append_nil]

end

/-- The extraction of a program with literal words gives up only at one of its parts. -/
theorem extractCommands_ne_none {depth : Nat} {input : String} {program : Program}
    (hparse : parser.parseProgram input = some program)
    (hliteral : ∀ part ∈ program.parts, part.Literal parser)
    (hwalkable : ∀ part ∈ program.parts, part.Walkable parser) :
    extractCommands parser depth input ≠ none := by
  refine extractCommandsWith_ne_none (nestedTo_meets depth) hparse fun part hpart =>
    ⟨hwalkable part hpart, fun nesting hnesting => ?_⟩
  cases nesting with
  | command | passedOver => trivial
  | word w =>
    obtain ⟨word, rfl, rfl⟩ := Part.eq_word_of_mem_nestings hnesting
    obtain ⟨pieces, hpieces, hexpand⟩ := hliteral _ hpart
    refine ⟨pieces, hpieces, fun nesting hmem => ?_⟩
    rw [piecesNestings_eq_nil hexpand] at hmem
    exact absurd hmem not_mem_nil

end Tree

end XorEditor.Agent
