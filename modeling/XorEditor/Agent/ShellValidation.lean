import XorEditor.Agent.ShellCommandParser

/-!
# What the validation sees

The validation sees every word of a program except those of `>&` and `<&`.

* `Word.Literal`, `Part.Literal`: no expansion and no process substitution.
* `Part.DuplicateLiteral`: the same of the words of `>&` and `<&` only.
* `literal_parts`: if these are literal and the program passes the validation, all parts are.
-/

namespace XorEditor.Agent

open Lib List

/-! ## Words without expansions -/

mutual

/-- Whether the shell expands a piece of a word to something that is not written there. -/
def WordPiece.expands : WordPiece → Bool
  | .text _ | .singleQuotedText _ | .ansiCQuotedText _ | .escapeSequence _ | .tildePrefix _ =>
    false
  | .doubleQuotedSequence pieces => piecesExpand pieces
  | .gettextDoubleQuotedSequence pieces => piecesExpand pieces
  | .parameterExpansion _ _ | .arithmeticExpression _ | .commandSubstitution _
  | .backquotedCommandSubstitution _ => true

/-- Whether one of the pieces is expanded. -/
def piecesExpand : List WordPieceWithSource → Bool
  | [] => false
  | .mk piece _ _ :: rest => piece.expands || piecesExpand rest

end

/-- The word has no parameter, command or arithmetic expansion. -/
def Word.Literal (parser : ShellParser) (word : Word) : Prop :=
  ∃ pieces, parser.parseWord word.value = some pieces ∧ piecesExpand pieces = false

instance (parser : ShellParser) (word : Word) : Decidable (word.Literal parser) :=
  decidable_of_iff ((parser.parseWord word.value).any (!piecesExpand ·) = true)
    (by simp only [Word.Literal, Option.any_eq_true, Bool.not_eq_true'])

namespace Part

/-- The part has no expansion and no process substitution. -/
def Literal (parser : ShellParser) : Part → Prop
  | .word _ w => w.Literal parser
  | .simpleCommand _ | .compoundCommand _ _ | .redirect _ => True
  | .processSubstitution | .arithmetic _ => False

/-- The part is not a `>&` or `<&` whose word the shell expands. -/
def DuplicateLiteral (parser : ShellParser) : Part → Prop
  | .redirect (.file _ _ (.duplicate w)) => w.Literal parser
  | _ => True

end Part

section Validation

variable {parser : ShellParser}

mutual

theorem expands_eq_false {piece : WordPiece} (h : wordPieceValidation parser piece = .safe) :
    piece.expands = false := by
  cases piece with
  | text | singleQuotedText | ansiCQuotedText | escapeSequence | tildePrefix =>
    rw [WordPiece.expands]
  | doubleQuotedSequence pieces | gettextDoubleQuotedSequence pieces =>
    rw [wordPieceValidation, combineValidations_eq_safe] at h
    rw [WordPiece.expands]
    exact piecesExpand_eq_false h
  | parameterExpansion | arithmeticExpression =>
    rw [wordPieceValidation] at h
    cases h
  | commandSubstitution command | backquotedCommandSubstitution command =>
    rw [wordPieceValidation] at h
    cases hparse : parser.parseProgram command <;> rw [hparse] at h <;> cases h

theorem piecesExpand_eq_false {pieces : List WordPieceWithSource}
    (h : ∀ validation ∈ wordPieceValidations parser pieces, validation = .safe) :
    piecesExpand pieces = false := by
  cases pieces with
  | nil => rw [piecesExpand]
  | cons piece rest =>
    obtain ⟨piece, startIndex, endIndex⟩ := piece
    rw [wordPieceValidations, forall_mem_cons] at h
    rw [piecesExpand, expands_eq_false h.1, piecesExpand_eq_false h.2, Bool.false_or]

end

theorem Word.literal_of_safe {word : Word} (h : wordValidation parser word = .safe) :
    word.Literal parser := by
  unfold wordValidation at h
  cases hparse : parser.parseWord word.value with
  | none =>
    rw [hparse] at h
    cases h
  | some pieces =>
    rw [hparse, combineValidations_eq_safe] at h
    exact ⟨pieces, hparse, piecesExpand_eq_false h⟩

variable {words : List Word} {redirects : List IoRedirect} {place : WordPlace}

/-- Words that pass the validation are literal parts. -/
theorem literal_of_words (h : ∀ word ∈ words, wordValidation parser word = .safe) :
    ∀ part ∈ words.map (Part.word place), part.Literal parser := by
  simp only [forall_mem_map]
  exact fun word hmem => Word.literal_of_safe (h word hmem)

theorem assignmentValidation_eq_safe {assignment : Assignment}
    (h : assignmentValidation parser assignment = .safe) :
    ∀ word ∈ assignment.words, wordValidation parser word = .safe := by
  unfold assignmentValidation at h
  unfold Assignment.words
  cases hvalue : assignment.value with
  | scalar word =>
    rw [hvalue] at h
    simpa using h
  | array words =>
    simp only [hvalue, combineValidations_eq_safe, mem_flatMap, mem_append,
      mem_map, Option.mem_toList, mem_singleton] at h ⊢
    rintro word ⟨element, helement, hkey | rfl⟩
    · exact h _ ⟨element, helement, Or.inl ⟨word, hkey, rfl⟩⟩
    · exact h _ ⟨element, helement, Or.inr rfl⟩

theorem extendedTestExprValidation_eq_safe {expr : ExtendedTestExpr}
    (h : extendedTestExprValidation parser expr = .safe) :
    ∀ word ∈ expr.words, wordValidation parser word = .safe := by
  induction expr with
  | and left right ihleft ihright | or left right ihleft ihright =>
    simp only [extendedTestExprValidation, combineValidations_eq_safe, mem_cons,
      not_mem_nil, or_false, forall_eq_or_imp, forall_eq] at h
    simp only [ExtendedTestExpr.words, mem_append]
    rintro word (hword | hword)
    · exact ihleft h.1 word hword
    · exact ihright h.2 word hword
  | not inner ih | parenthesized inner ih => exact ih h
  | unaryTest word | binaryTest left right =>
    simpa [ExtendedTestExpr.words, extendedTestExprValidation] using h

/-- A redirection that passes the validation contains literal words only, if it is not a `>&`
or `<&` whose word is expanded. -/
theorem literal_ioRedirectParts {redirect : IoRedirect}
    (h : ioRedirectValidation parser redirect = .safe)
    (hduplicate : (Part.redirect redirect).DuplicateLiteral parser) :
    ∀ part ∈ ioRedirectParts redirect, part.Literal parser := by
  cases redirect with
  | file fd kind target =>
    cases target with
    | filename word =>
      simpa [ioRedirectParts, Part.Literal] using Word.literal_of_safe h
    | fd => simp [ioRedirectParts]
    | processSubstitution => cases h
    | duplicate word =>
      simpa [ioRedirectParts, Part.Literal, Part.DuplicateLiteral] using hduplicate
  | hereDocument requiresExpansion doc =>
    cases requiresExpansion with
    | false => simp [ioRedirectParts]
    | true => simpa [ioRedirectParts, Part.Literal] using Word.literal_of_safe h
  | hereString word | outputAndError word =>
    simpa [ioRedirectParts, Part.Literal] using Word.literal_of_safe h

theorem literal_redirectParts (h : redirectListValidation parser redirects = .safe)
    (hduplicate : ∀ redirect ∈ redirects, (Part.redirect redirect).DuplicateLiteral parser) :
    ∀ part ∈ redirectParts redirects, part.Literal parser := by
  induction redirects with
  | nil => simp [redirectParts]
  | cons redirect rest ih =>
    simp only [redirectListValidation, map_cons, combineValidations_eq_safe,
      forall_mem_cons] at h hduplicate ih
    rw [redirectParts, forall_mem_append]
    exact ⟨literal_ioRedirectParts h.1 hduplicate.1, ih h.2 hduplicate.2⟩

theorem literal_itemParts {items : List CommandPrefixOrSuffixItem}
    (h : ∀ item ∈ items, prefixOrSuffixItemValidation parser item = .safe)
    (hduplicate : ∀ redirect ∈ items.filterMap (·.redirect?),
      (Part.redirect redirect).DuplicateLiteral parser) :
    ∀ part ∈ itemParts items, part.Literal parser := by
  induction items with
  | nil => simp [itemParts]
  | cons item rest ih =>
    rw [forall_mem_cons] at h
    have hrest := ih h.2 fun redirect hmem => hduplicate redirect (by
      obtain ⟨item', hitem', hredirect⟩ := mem_filterMap.1 hmem
      exact mem_filterMap.2 ⟨item', mem_cons_of_mem _ hitem', hredirect⟩)
    cases item with
    | ioRedirect redirect =>
      rw [itemParts, forall_mem_append]
      refine ⟨literal_ioRedirectParts h.1 (hduplicate redirect ?_), hrest⟩
      simp [CommandPrefixOrSuffixItem.redirect?]
    | word word =>
      rw [itemParts, forall_mem_cons]
      exact ⟨Word.literal_of_safe h.1, hrest⟩
    | assignmentWord assignment word =>
      have hitem := h.1
      simp only [prefixOrSuffixItemValidation, combineValidations_eq_safe, mem_cons,
        not_mem_nil, or_false, forall_eq_or_imp, forall_eq] at hitem
      rw [itemParts, forall_mem_append, forall_mem_cons]
      exact ⟨literal_of_words (assignmentValidation_eq_safe hitem.1),
        Word.literal_of_safe hitem.2, hrest⟩
    | processSubstitution list => cases h.1

/-- The parts are literal, words of `>&` and `<&` being literal by assumption. -/
def Checked (parser : ShellParser) (parts : List Part) : Prop :=
  (∀ part ∈ parts, part.DuplicateLiteral parser) → ∀ part ∈ parts, part.Literal parser

theorem checked_nil : Checked parser [] := fun _ _ hmem => absurd hmem not_mem_nil

theorem Checked.append {parts others : List Part} (h : Checked parser parts)
    (hothers : Checked parser others) : Checked parser (parts ++ others) := by
  intro hduplicate
  rw [forall_mem_append] at hduplicate ⊢
  exact ⟨h hduplicate.1, hothers hduplicate.2⟩

theorem Checked.cons {part : Part} {parts : List Part} (h : Checked parser parts)
    (hpart : part.Literal parser) : Checked parser (part :: parts) := by
  intro hduplicate
  rw [forall_mem_cons] at hduplicate ⊢
  exact ⟨hpart, h hduplicate.2⟩

theorem checked_words (h : ∀ word ∈ words, wordValidation parser word = .safe) :
    Checked parser (words.map (Part.word place)) :=
  fun _ => literal_of_words h

/-- A simple command that passes the validation consists of literal words. -/
theorem checked_simple {commandPrefix commandSuffix : List CommandPrefixOrSuffixItem}
    {wordOrName : Option Word}
    (h : simpleCommandValidation parser (.mk commandPrefix wordOrName commandSuffix) = .safe) :
    Checked parser (commandParts (.simple (.mk commandPrefix wordOrName commandSuffix))) := by
  intro hduplicate
  simp only [simpleCommandValidation, combineValidations_eq_safe, cons_append,
    forall_mem_cons, forall_mem_append, forall_mem_map, mem_singleton,
    forall_eq] at h
  obtain ⟨hfront, hname, hsuffix⟩ := h
  simp only [commandParts, cons_append, forall_mem_cons, forall_mem_append,
    filterMap_append, map_append] at hduplicate ⊢
  obtain ⟨-, ⟨⟨⟨hfrontHeads, hsuffixHeads⟩, -⟩, -⟩, -⟩ := hduplicate
  rw [forall_mem_map] at hfrontHeads hsuffixHeads
  refine ⟨trivial, ⟨⟨⟨?_, ?_⟩, literal_itemParts hfront hfrontHeads⟩, literal_of_words hname⟩,
    literal_itemParts hsuffix hsuffixHeads⟩
  · rw [forall_mem_map]
    exact fun _ _ => trivial
  · rw [forall_mem_map]
    exact fun _ _ => trivial

theorem checked_redirects (h : redirectListValidation parser redirects = .safe) :
    Checked parser (redirects.map Part.redirect ++ redirectParts redirects) := by
  intro hduplicate
  rw [forall_mem_append, forall_mem_map] at hduplicate ⊢
  exact ⟨fun _ _ => trivial, literal_redirectParts h hduplicate.1⟩

-- The walk of the validation, by recursion on the tree.
mutual

theorem checked_compoundListParts : ∀ {list : List AndOrList},
    (∀ validation ∈ andOrListValidations parser list, validation = .safe) →
    Checked parser (compoundListParts list)
  | [], _ => by
    rw [compoundListParts]
    exact checked_nil
  | .mk first additional :: rest, h => by
    simp only [andOrListValidations, forall_mem_cons, combineValidations_eq_safe] at h
    rw [compoundListParts]
    exact ((checked_pipelineParts h.1.1).append (checked_andOrParts h.1.2)).append
      (checked_compoundListParts h.2)

theorem checked_andOrParts : ∀ {additional : List AndOr},
    (∀ validation ∈ andOrValidations parser additional, validation = .safe) →
    Checked parser (andOrParts additional)
  | [], _ => by
    rw [andOrParts]
    exact checked_nil
  | .and pipeline :: rest, h | .or pipeline :: rest, h => by
    simp only [andOrValidations, forall_mem_cons, combineValidations_eq_safe] at h
    rw [andOrParts]
    exact (checked_pipelineParts h.1).append (checked_andOrParts h.2)

theorem checked_pipelineParts : ∀ {pipeline : List Command},
    (∀ validation ∈ commandValidations parser pipeline, validation = .safe) →
    Checked parser (pipelineParts pipeline)
  | [], _ => by
    rw [pipelineParts]
    exact checked_nil
  | command :: rest, h => by
    rw [commandValidations, forall_mem_cons] at h
    rw [pipelineParts]
    exact (checked_commandParts h.1).append (checked_pipelineParts h.2)

theorem checked_commandParts : ∀ {command : Command},
    commandValidation parser command = .safe → Checked parser (commandParts command)
  | .simple (.mk _ _ _), h => checked_simple h
  | .compound command redirects, h | .function (.mk command redirects), h => by
    simp only [commandValidation, combineValidations_eq_safe, forall_mem_cons] at h
    rw [commandParts, cons_append, cons_append, append_assoc]
    exact ((checked_compoundCommandParts h.1).append (checked_redirects h.2.1)).cons trivial
  | .extendedTest expr, h => checked_words (extendedTestExprValidation_eq_safe h)

theorem checked_compoundCommandParts : ∀ {command : CompoundCommand},
    compoundCommandValidation parser command = .safe →
    Checked parser (compoundCommandParts command)
  | .arithmetic _, h | .arithmeticForClause _ _, h => by simp [compoundCommandValidation] at h
  | .braceGroup list, h | .subshell list, h => by
    rw [compoundCommandValidation, combineValidations_eq_safe] at h
    rw [compoundCommandParts]
    exact checked_compoundListParts h
  | .forClause values body, h => by
    simp only [compoundCommandValidation, combineValidations_eq_safe, forall_mem_append,
      forall_mem_map, mem_singleton, forall_eq] at h
    rw [compoundCommandParts]
    exact (checked_words h.1).append (checked_compoundListParts h.2)
  | .caseClause value cases, h => by
    simp only [compoundCommandValidation, combineValidations_eq_safe, forall_mem_append,
      cons_append, forall_mem_cons] at h
    rw [compoundCommandParts]
    exact (checked_caseParts h.2.1 h.2.2).cons (Word.literal_of_safe h.1)
  | .ifClause condition thenBranch elses, h => by
    simp only [compoundCommandValidation, combineValidations_eq_safe, forall_mem_cons] at h
    rw [compoundCommandParts]
    exact ((checked_compoundListParts h.1).append (checked_compoundListParts h.2.1)).append
      (checked_elseParts h.2.2)
  | .whileClause condition body, h | .untilClause condition body, h => by
    simp only [compoundCommandValidation, combineValidations_eq_safe, forall_mem_cons] at h
    rw [compoundCommandParts]
    exact (checked_compoundListParts h.1).append (checked_compoundListParts h.2.1)

theorem checked_caseParts : ∀ {cases : List CaseItem},
    (∀ validation ∈ caseBodyValidations parser cases, validation = .safe) →
    (∀ validation ∈ casePatternValidations parser cases, validation = .safe) →
    Checked parser (caseParts cases)
  | [], _, _ => by
    rw [caseParts]
    exact checked_nil
  | .mk patterns cmd :: rest, hbody, hpattern => by
    simp only [caseBodyValidations, combineValidations_eq_safe, forall_mem_cons] at hbody
    simp only [casePatternValidations, forall_mem_append, forall_mem_map] at hpattern
    rw [caseParts]
    exact ((checked_words hpattern.1).append (checked_compoundListParts hbody.1)).append
      (checked_caseParts hbody.2 hpattern.2)

theorem checked_elseParts : ∀ {elses : List ElseClause},
    (∀ validation ∈ elseValidations parser elses, validation = .safe) →
    Checked parser (elseParts elses)
  | [], _ => by
    rw [elseParts]
    exact checked_nil
  | .mk condition body :: rest, h => by
    simp only [elseValidations, combineValidations_eq_safe, forall_mem_cons] at h
    rw [elseParts]
    exact ((checked_compoundListParts h.1).append (checked_compoundListParts h.2.1)).append
      (checked_elseParts h.2.2)

end

/-- A program that passes the validation has no expansion and no process substitution, unless
in the word of a `>&` or `<&`. -/
theorem literal_parts {program : Program} (h : programValidation parser program = .safe)
    (hduplicate : ∀ part ∈ program.parts, part.DuplicateLiteral parser) :
    ∀ part ∈ program.parts, part.Literal parser := by
  simp only [programValidation, combineValidations_eq_safe, forall_mem_map,
    compoundListValidation] at h
  simp only [Program.parts, mem_flatMap, forall_exists_index, and_imp] at hduplicate ⊢
  intro part list hlist hpart
  exact checked_compoundListParts (h list hlist)
    (fun other hother => hduplicate other list hlist hother) part hpart

end Validation

end XorEditor.Agent
