import XorEditor.Agent.ShellSyntax
import XorEditor.Lib.Method

/-!
# Validation and extraction of terminal commands

Two walks over the syntax tree of a terminal command.  The first decides whether the command
uses a substitution or an interpolation anywhere; the second collects the texts of its
simple commands and redirections, for the permission patterns to be matched against.

* `validateTerminalCommand`: the first walk
* `extractCommands`: the second one
-/

namespace XorEditor.Agent

open Lib

/-! ## Validation -/

/-- The verdict of the first walk. -/
inductive TerminalProgramValidation where
  | safe
  | unsafeSyntax
  | unsupported
  deriving DecidableEq, Repr

/-- The verdict on a tree from the verdicts on its parts. -/
def combineValidations (validations : List TerminalProgramValidation) : TerminalProgramValidation :=
  if validations.any (· == .unsafeSyntax) then .unsafeSyntax
  else if validations.any (· == .unsupported) then .unsupported
  else .safe

@[simp] theorem combineValidations_eq_safe {validations : List TerminalProgramValidation} :
    combineValidations validations = .safe ↔ ∀ validation ∈ validations, validation = .safe := by
  unfold combineValidations
  constructor
  · intro h validation hmem
    split_ifs at h with hrejected hunsupported
    simp only [List.any_eq_true, beq_iff_eq, not_exists, not_and] at hrejected hunsupported
    cases validation with
    | safe => rfl
    | unsafeSyntax => exact absurd rfl (hrejected _ hmem)
    | unsupported => exact absurd rfl (hunsupported _ hmem)
  · intro h
    have hnone : ∀ verdict, verdict ≠ .safe → validations.any (· == verdict) = false := by
      intro verdict hverdict
      simp only [List.any_eq_false, beq_iff_eq]
      intro validation hmem heq
      exact hverdict (heq ▸ h validation hmem)
    simp [hnone]

section Validation

variable (parser : ShellParser)

mutual

def wordPieceValidation : WordPiece → TerminalProgramValidation
  | .text _ | .singleQuotedText _ | .ansiCQuotedText _ | .escapeSequence _ | .tildePrefix _ =>
    .safe
  | .doubleQuotedSequence pieces | .gettextDoubleQuotedSequence pieces =>
    combineValidations (wordPieceValidations pieces)
  | .parameterExpansion _ _ | .arithmeticExpression _ => .unsafeSyntax
  | .commandSubstitution command | .backquotedCommandSubstitution command =>
    match parser.parseProgram command with
    | some _ => .unsafeSyntax
    | none => .unsupported

def wordPieceValidations : List WordPieceWithSource → List TerminalProgramValidation
  | [] => []
  | .mk piece _ _ :: rest => wordPieceValidation piece :: wordPieceValidations rest

end

def wordValidation (word : Word) : TerminalProgramValidation :=
  match parser.parseWord word.value with
  | some pieces => combineValidations (wordPieceValidations parser pieces)
  | none => .unsupported

def assignmentValidation (assignment : Assignment) : TerminalProgramValidation :=
  match assignment.value with
  | .scalar word => wordValidation parser word
  | .array words =>
    combineValidations (words.flatMap fun element =>
      element.1.toList.map (wordValidation parser) ++ [wordValidation parser element.2])

def ioRedirectValidation : IoRedirect → TerminalProgramValidation
  | .file _ _ (.filename word) => wordValidation parser word
  | .file _ _ (.processSubstitution _) => .unsafeSyntax
  | .file _ _ _ => .safe
  | .hereDocument requiresExpansion doc =>
    if requiresExpansion then wordValidation parser doc else .safe
  | .hereString word => wordValidation parser word
  | .outputAndError word _ => wordValidation parser word

def redirectListValidation (redirects : List IoRedirect) : TerminalProgramValidation :=
  combineValidations (redirects.map (ioRedirectValidation parser))

def prefixOrSuffixItemValidation : CommandPrefixOrSuffixItem → TerminalProgramValidation
  | .ioRedirect redirect => ioRedirectValidation parser redirect
  | .word word => wordValidation parser word
  | .assignmentWord assignment word =>
    combineValidations [assignmentValidation parser assignment, wordValidation parser word]
  | .processSubstitution _ => .unsafeSyntax

def simpleCommandValidation : SimpleCommand → TerminalProgramValidation
  | .mk commandPrefix wordOrName commandSuffix =>
    combineValidations
      (combineValidations (commandPrefix.map (prefixOrSuffixItemValidation parser)) ::
        wordOrName.toList.map (wordValidation parser) ++
        [combineValidations (commandSuffix.map (prefixOrSuffixItemValidation parser))])

def extendedTestExprValidation : ExtendedTestExpr → TerminalProgramValidation
  | .not inner | .parenthesized inner => extendedTestExprValidation inner
  | .and left right | .or left right =>
    combineValidations [extendedTestExprValidation left, extendedTestExprValidation right]
  | .unaryTest word => wordValidation parser word
  | .binaryTest left right =>
    combineValidations [wordValidation parser left, wordValidation parser right]

mutual

def andOrListValidations : List AndOrList → List TerminalProgramValidation
  | [] => []
  | .mk first additional :: rest =>
    combineValidations
      (combineValidations (commandValidations first) :: andOrValidations additional) ::
      andOrListValidations rest

def andOrValidations : List AndOr → List TerminalProgramValidation
  | [] => []
  | .and pipeline :: rest | .or pipeline :: rest =>
    combineValidations (commandValidations pipeline) :: andOrValidations rest

def commandValidations : List Command → List TerminalProgramValidation
  | [] => []
  | command :: rest => commandValidation command :: commandValidations rest

def commandValidation : Command → TerminalProgramValidation
  | .simple command => simpleCommandValidation parser command
  | .compound command redirects | .function (.mk command redirects) =>
    combineValidations
      [compoundCommandValidation command, redirectListValidation parser redirects]
  | .extendedTest expr => extendedTestExprValidation parser expr

def compoundCommandValidation : CompoundCommand → TerminalProgramValidation
  | .braceGroup list | .subshell list => combineValidations (andOrListValidations list)
  | .forClause values body =>
    combineValidations
      (values.map (wordValidation parser) ++ [combineValidations (andOrListValidations body)])
  | .caseClause value cases =>
    combineValidations
      (wordValidation parser value :: caseBodyValidations cases ++
        casePatternValidations cases)
  | .ifClause condition thenBranch elses =>
    combineValidations
      (combineValidations (andOrListValidations condition) ::
        combineValidations (andOrListValidations thenBranch) :: elseValidations elses)
  | .whileClause condition body | .untilClause condition body =>
    combineValidations [combineValidations (andOrListValidations condition),
      combineValidations (andOrListValidations body)]
  | .arithmeticForClause _ _ => .unsafeSyntax
  | .arithmetic _ => .unsafeSyntax

def caseBodyValidations : List CaseItem → List TerminalProgramValidation
  | [] => []
  | .mk _ cmd :: rest =>
    combineValidations (andOrListValidations cmd) :: caseBodyValidations rest

def casePatternValidations : List CaseItem → List TerminalProgramValidation
  | [] => []
  | .mk patterns _ :: rest =>
    patterns.map (wordValidation parser) ++ casePatternValidations rest

def elseValidations : List ElseClause → List TerminalProgramValidation
  | [] => []
  | .mk condition body :: rest =>
    combineValidations (andOrListValidations condition) ::
      combineValidations (andOrListValidations body) :: elseValidations rest

end

def compoundListValidation (list : List AndOrList) : TerminalProgramValidation :=
  combineValidations (andOrListValidations parser list)

def programValidation (program : Program) : TerminalProgramValidation :=
  combineValidations (program.completeCommands.map (compoundListValidation parser))

def validateTerminalCommand (command : String) : TerminalProgramValidation :=
  match parser.parseProgram command with
  | some program => programValidation parser program
  | none => .unsupported

end Validation

/-! ## Normalization -/

/-- Whether a text starts with another. -/
def startsWith (text start : String) : Bool := start.toList.isPrefixOf text.toList

/-- What follows `start` in a text that starts with it. -/
def stripStart (text start : String) : Option String :=
  if startsWith text start then some (String.ofList (text.toList.drop start.length)) else none

/-- The text in a byte range, if the range ends on characters. -/
def byteRange (text : String) (startIndex endIndex : Nat) : Option String :=
  if startIndex ≤ endIndex ∧ (String.Pos.Raw.mk startIndex).isValid text ∧
      (String.Pos.Raw.mk endIndex).isValid text then
    some (String.Pos.Raw.extract text ⟨startIndex⟩ ⟨endIndex⟩)
  else none

mutual

/-- The text of a piece without its quotes; an expansion keeps its source text. -/
def normalizeWordPiece (rawValue : String) : WordPieceWithSource → Option String
  | .mk (.text text) _ _ | .mk (.singleQuotedText text) _ _ | .mk (.ansiCQuotedText text) _ _ =>
    some text
  | .mk (.escapeSequence text) _ _ => some ((stripStart text "\\").getD text)
  | .mk (.doubleQuotedSequence pieces) _ _ | .mk (.gettextDoubleQuotedSequence pieces) _ _ =>
    normalizeWordPieces rawValue pieces
  | .mk (.tildePrefix user) _ _ => some ("~" ++ user)
  | .mk (.parameterExpansion _ _) startIndex endIndex
  | .mk (.commandSubstitution _) startIndex endIndex
  | .mk (.backquotedCommandSubstitution _) startIndex endIndex
  | .mk (.arithmeticExpression _) startIndex endIndex => byteRange rawValue startIndex endIndex

def normalizeWordPieces (rawValue : String) : List WordPieceWithSource → Option String
  | [] => some ""
  | piece :: rest => do
    let text ← normalizeWordPiece rawValue piece
    let others ← normalizeWordPieces rawValue rest
    return text ++ others

end

section Normalization

variable (parser : ShellParser)

def normalizeWord (word : Word) : Option String := do
  let pieces ← parser.parseWord word.value
  normalizeWordPieces word.value pieces

/-- White space as Unicode has it. -/
def isWhitespace (character : Char) : Bool :=
  let code := character.toNat
  (9 ≤ code && code ≤ 13) || code == 0x20 || code == 0x85 || code == 0xa0 || code == 0x1680 ||
    (0x2000 ≤ code && code ≤ 0x200a) || code == 0x2028 || code == 0x2029 || code == 0x202f ||
    code == 0x205f || code == 0x3000

def shellValueRequiresQuoting (value : String) : Bool :=
  value.toList.any fun character =>
    isWhitespace character ||
      !(character.isAlphanum || "_@%+=:,./-".toList.contains character)

/-- An assignment in the text of a command; an assignment of an array is not part of it. -/
inductive NormalizedAssignment where
  | included (text : String)
  | skipped
  deriving DecidableEq, Repr

def normalizeAssignmentForCommandPrefix (assignment : Assignment) (word : Word) :
    Option NormalizedAssignment :=
  let operator := if assignment.append then "+=" else "="
  let assignmentPrefix := assignment.name.text ++ operator
  match assignment.value with
  | .scalar value => do
    let normalizedValue ← normalizeWord parser value
    let rawValue ← stripStart word.value assignmentPrefix
    let renderedValue :=
      if shellValueRequiresQuoting normalizedValue then rawValue else normalizedValue
    return .included (assignmentPrefix ++ renderedValue)
  | .array _ => some .skipped

def isKnownSafeRedirectTarget (normalizedTarget : String) : Bool :=
  normalizedTarget == "/dev/null"

/-- The text of a redirection, or that it needs none. -/
inductive RedirectNormalization where
  | normalized (text : String)
  | skip
  deriving DecidableEq, Repr

/-- The text of a redirection that needs one. -/
def RedirectNormalization.text? : RedirectNormalization → Option String
  | .normalized text => some text
  | .skip => none

/-- The operator of a redirection as it is written. -/
def IoFileRedirectKind.operator : IoFileRedirectKind → String
  | .read => "<"
  | .write => ">"
  | .append => ">>"
  | .readAndWrite => "<>"
  | .clobber => ">|"
  | .duplicateInput => "<&"
  | .duplicateOutput => ">&"

/-- The descriptor in front of a redirection's operator. -/
def fdText (fd : Option Nat) : String := (fd.map toString).getD ""

def normalizeIoRedirect : IoRedirect → Option RedirectNormalization
  | .file fd kind (.filename word) => do
    let normalized ← normalizeWord parser word
    if isKnownSafeRedirectTarget normalized then return .skip
    return .normalized (fdText fd ++ kind.operator ++ " " ++ normalized)
  | .file _ _ _ => some .skip
  | .outputAndError word append => do
    let operator := if append then "&>>" else "&>"
    let normalized ← normalizeWord parser word
    if isKnownSafeRedirectTarget normalized then return .skip
    return .normalized (operator ++ " " ++ normalized)
  | .hereDocument _ _ | .hereString _ => some .skip

/-- The words and redirections of a simple command, without quotes. -/
structure NormalizedCommand where
  words : List String := []
  redirects : List String := []
  deriving DecidableEq, Repr

/-- The text that the patterns are matched against. -/
def NormalizedCommand.text (command : NormalizedCommand) : String :=
  String.intercalate " " command.words

def NormalizedCommand.pushWord (command : NormalizedCommand) (word : String) : NormalizedCommand :=
  { command with words := command.words ++ [word] }

/-- Add an item before or after the name of a simple command to its text. -/
def normalizeItem (inSuffix : Bool) (command : NormalizedCommand) :
    CommandPrefixOrSuffixItem → Option NormalizedCommand
  | .ioRedirect redirect => do
    match ← normalizeIoRedirect parser redirect with
    | .normalized text => return { command with redirects := command.redirects ++ [text] }
    | .skip => return command
  | .assignmentWord assignment word => do
    match ← normalizeAssignmentForCommandPrefix parser assignment word with
    | .included text => return command.pushWord text
    | .skipped => return command
  | .word word => do
    let text ← normalizeWord parser word
    return command.pushWord text
  | .processSubstitution _ => if inSuffix then some command else none

def normalizeSimpleCommand : SimpleCommand → Option NormalizedCommand
  | .mk commandPrefix wordOrName commandSuffix => do
    let command ← commandPrefix.foldlM (normalizeItem parser false) {}
    let command ← wordOrName.toList.foldlM
      (fun command word => (normalizeWord parser word).map command.pushWord) command
    commandSuffix.foldlM (normalizeItem parser true) command

def normalizeRedirects (redirects : List IoRedirect) : Option (List String) := do
  let normalizations ← redirects.mapM (normalizeIoRedirect parser)
  return normalizations.filterMap (·.text?)

end Normalization

/-! ## Extraction -/

/-- A step of the second walk: it adds to the texts collected so far, or gives up. -/
abbrev Extraction := EStateM Unit (List String)

/-- Go on with the value, or give up. -/
def require {α : Type} : Option α → Extraction α
  | some a => pure a
  | none => throw ()

/-- Add texts to the ones collected. -/
def extend (texts : List String) : Extraction Unit := modify (· ++ texts)

/-- The walks of the texts that occur in words: those of substitutions, which are programs,
and those of expansions, which are words. -/
structure Nested where
  extractCommands : String → Option (List String)
  extractCommandsFromWordString : String → Extraction Unit

section Extraction

variable (parser : ShellParser) (nested : Nested)

def extractCommandsFromParameterExpr (expr : ParameterExpr) : Extraction Unit :=
  match expr with
  | .parameter | .parameterLength | .transform | .variableNames | .memberKeys => pure ()
  | .useDefaultValues text | .assignDefaultValues text | .indicateErrorIfNullOrUnset text
  | .useAlternativeValue text | .removeSmallestSuffixPattern text
  | .removeLargestSuffixPattern text | .removeSmallestPrefixPattern text
  | .removeLargestPrefixPattern text | .uppercaseFirstChar text | .uppercasePattern text
  | .lowercaseFirstChar text | .lowercasePattern text =>
    text.toList.forM nested.extractCommandsFromWordString
  | .substring text further | .replaceSubstring text further => do
    nested.extractCommandsFromWordString text
    further.toList.forM nested.extractCommandsFromWordString

mutual

def extractCommandsFromWordPiece : WordPiece → Extraction Unit
  | .commandSubstitution command | .backquotedCommandSubstitution command => do
    let commands ← require (nested.extractCommands command)
    extend commands
  | .doubleQuotedSequence pieces | .gettextDoubleQuotedSequence pieces =>
    extractCommandsFromWordPieces pieces
  | .arithmeticExpression expr => nested.extractCommandsFromWordString expr
  | .parameterExpansion _ expr => extractCommandsFromParameterExpr nested expr
  | .escapeSequence _ | .singleQuotedText _ | .text _ | .ansiCQuotedText _ | .tildePrefix _ =>
    pure ()

def extractCommandsFromWordPieces : List WordPieceWithSource → Extraction Unit
  | [] => pure ()
  | .mk piece _ _ :: rest => do
    extractCommandsFromWordPiece piece
    extractCommandsFromWordPieces rest

end

def extractCommandsFromWordString (text : String) : Extraction Unit := do
  let pieces ← require (parser.parseWord text)
  extractCommandsFromWordPieces nested pieces

def extractCommandsFromWord (word : Word) : Extraction Unit :=
  extractCommandsFromWordString parser nested word.value

def extractCommandsFromAssignment (assignment : Assignment) : Extraction Unit :=
  match assignment.value with
  | .scalar word => extractCommandsFromWord parser nested word
  | .array words => words.forM fun element => do
    element.1.toList.forM (extractCommandsFromWord parser nested)
    extractCommandsFromWord parser nested element.2

def extractCommandsFromExtendedTestExpr : ExtendedTestExpr → Extraction Unit
  | .not inner | .parenthesized inner => extractCommandsFromExtendedTestExpr inner
  | .and left right | .or left right => do
    extractCommandsFromExtendedTestExpr left
    extractCommandsFromExtendedTestExpr right
  | .unaryTest word => extractCommandsFromWord parser nested word
  | .binaryTest left right => do
    extractCommandsFromWord parser nested left
    extractCommandsFromWord parser nested right

/-- Add the text of a simple command and those of its redirections; a command that is nothing
but redirections is given up. -/
def recordSimpleCommand (command : NormalizedCommand) : Extraction Unit := do
  if command.words = [] ∧ command.redirects ≠ [] then throw ()
  if command.text ≠ "" then extend [command.text]
  extend command.redirects

/-- Add the texts of the redirections of a compound command; if its body has added none, the
walk is given up. -/
def recordRedirects (bodyStart : Nat) (redirects : List IoRedirect) : Extraction Unit := do
  let normalizedRedirects ← require (normalizeRedirects parser redirects)
  if normalizedRedirects ≠ [] then
    let commands ← get
    if commands.length ≤ bodyStart then throw ()
    extend normalizedRedirects

mutual

def extractCommandsFromCompoundList : List AndOrList → Extraction Unit
  | [] => pure ()
  | .mk first additional :: rest => do
    extractCommandsFromPipeline first
    extractCommandsFromAndOrs additional
    extractCommandsFromCompoundList rest

def extractCommandsFromAndOrs : List AndOr → Extraction Unit
  | [] => pure ()
  | .and pipeline :: rest | .or pipeline :: rest => do
    extractCommandsFromPipeline pipeline
    extractCommandsFromAndOrs rest

def extractCommandsFromPipeline : List Command → Extraction Unit
  | [] => pure ()
  | command :: rest => do
    extractCommandsFromCommand command
    extractCommandsFromPipeline rest

def extractCommandsFromCommand : Command → Extraction Unit
  | .simple (.mk commandPrefix wordOrName commandSuffix) => do
    let command ← require
      (normalizeSimpleCommand parser (.mk commandPrefix wordOrName commandSuffix))
    recordSimpleCommand command
    extractCommandsFromItems commandPrefix
    wordOrName.toList.forM (extractCommandsFromWord parser nested)
    extractCommandsFromItems commandSuffix
  | .compound command redirects | .function (.mk command redirects) => do
    let bodyStart ← extractCommandsFromCompoundCommand command
    recordRedirects parser bodyStart redirects
    extractCommandsFromIoRedirects redirects
  | .extendedTest expr => extractCommandsFromExtendedTestExpr parser nested expr

/-- The walk of a command's prefix, and of its suffix. -/
def extractCommandsFromItems : List CommandPrefixOrSuffixItem → Extraction Unit
  | [] => pure ()
  | .ioRedirect redirect :: rest => do
    extractCommandsFromIoRedirect redirect
    extractCommandsFromItems rest
  | .assignmentWord assignment _ :: rest => do
    extractCommandsFromAssignment parser nested assignment
    extractCommandsFromItems rest
  | .word word :: rest => do
    extractCommandsFromWord parser nested word
    extractCommandsFromItems rest
  | .processSubstitution list :: rest => do
    extractCommandsFromCompoundList list
    extractCommandsFromItems rest

def extractCommandsFromIoRedirects : List IoRedirect → Extraction Unit
  | [] => pure ()
  | redirect :: rest => do
    extractCommandsFromIoRedirect redirect
    extractCommandsFromIoRedirects rest

def extractCommandsFromIoRedirect : IoRedirect → Extraction Unit
  | .file _ _ (.processSubstitution list) => extractCommandsFromCompoundList list
  | .file _ _ (.filename word) => extractCommandsFromWord parser nested word
  | .file _ _ _ => pure ()
  | .hereDocument requiresExpansion doc =>
    if requiresExpansion then extractCommandsFromWord parser nested doc else pure ()
  | .hereString word => extractCommandsFromWord parser nested word
  | .outputAndError word _ => extractCommandsFromWord parser nested word

/-- The walk of a compound command.  It returns how many texts there were before its body. -/
def extractCommandsFromCompoundCommand : CompoundCommand → Extraction Nat
  | .braceGroup list | .subshell list => do
    let commands ← get
    extractCommandsFromCompoundList list
    return commands.length
  | .forClause values body => do
    values.forM (extractCommandsFromWord parser nested)
    let commands ← get
    extractCommandsFromCompoundList body
    return commands.length
  | .caseClause value cases => do
    extractCommandsFromWord parser nested value
    let commands ← get
    extractCommandsFromCases cases
    return commands.length
  | .ifClause condition thenBranch elses => do
    extractCommandsFromCompoundList condition
    let commands ← get
    extractCommandsFromCompoundList thenBranch
    extractCommandsFromElses elses
    return commands.length
  | .whileClause condition body | .untilClause condition body => do
    extractCommandsFromCompoundList condition
    let commands ← get
    extractCommandsFromCompoundList body
    return commands.length
  | .arithmeticForClause _ body => do
    let commands ← get
    extractCommandsFromCompoundList body
    return commands.length
  | .arithmetic _ => do
    let commands ← get
    return commands.length

def extractCommandsFromCases : List CaseItem → Extraction Unit
  | [] => pure ()
  | .mk _ cmd :: rest => do
    extractCommandsFromCompoundList cmd
    extractCommandsFromCases rest

def extractCommandsFromElses : List ElseClause → Extraction Unit
  | [] => pure ()
  | .mk condition body :: rest => do
    extractCommandsFromCompoundList condition
    extractCommandsFromCompoundList body
    extractCommandsFromElses rest

end

def extractCommandsFromProgram (program : Program) : Extraction Unit :=
  program.completeCommands.forM (extractCommandsFromCompoundList parser nested)

/-- `extract_commands`, given the walks of the texts inside words. -/
def extractCommandsWith (command : String) : Option (List String) :=
  match parser.parseProgram command with
  | none => none
  | some program =>
    match extractCommandsFromProgram parser nested program [] with
    | .ok _ commands => some commands
    | .error _ _ => none

end Extraction

/-- The walks of the texts inside words, to a depth of substitutions. -/
def nestedTo (parser : ShellParser) : Nat → Nested
  | 0 => ⟨fun _ => none, fun _ => throw ()⟩
  | depth + 1 =>
    ⟨extractCommandsWith parser (nestedTo parser depth),
      extractCommandsFromWordString parser (nestedTo parser depth)⟩

/-- The texts of the simple commands and redirections of a command, or none if the walk gives
up.  `depth` bounds the nesting of substitutions, which in the source ends with the text. -/
def extractCommands (parser : ShellParser) (depth : Nat) (command : String) :
    Option (List String) :=
  extractCommandsWith parser (nestedTo parser depth) command

end XorEditor.Agent
