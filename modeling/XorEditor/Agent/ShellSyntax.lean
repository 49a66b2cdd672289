
/-!
# Shell syntax trees

The syntax trees that the shell parser hands to the permission checks: programs, commands,
redirections and the pieces of a word.  The two parsers are not part of the source; they are
a parameter, and every result holds for each of them.

A field that no check reads (separators, `!`, `time`, names of functions, variables and loop
variables) is left out.  An optional list is a list: the checks treat an absent one as an empty
one.

* `Program`, `Command`, `SimpleCommand`, `IoRedirect`, `WordPiece`: the trees.
* `ShellParser`: the two parsers.
* `Program.parts`: everything that occurs in a program, with the place of each word.
* `Part.nestings`, `WordPiece.nestings`: what the shell finds in a part or in a word, and expands
  or runs in turn.
-/

namespace XorEditor.Agent

/-- A word as it stands in the source of a command, quotes included. -/
structure Word where
  value : String
  deriving DecidableEq, Repr

/-- What a parameter expansion does with its parameter, with the texts that the shell expands in
turn. -/
inductive ParameterExpr where
  | parameter
  | parameterLength
  | transform
  | variableNames
  | memberKeys
  | useDefaultValues (defaultValue : Option String)
  | assignDefaultValues (defaultValue : Option String)
  | indicateErrorIfNullOrUnset (errorMessage : Option String)
  | useAlternativeValue (alternativeValue : Option String)
  | removeSmallestSuffixPattern (pattern : Option String)
  | removeLargestSuffixPattern (pattern : Option String)
  | removeSmallestPrefixPattern (pattern : Option String)
  | removeLargestPrefixPattern (pattern : Option String)
  | uppercaseFirstChar (pattern : Option String)
  | uppercasePattern (pattern : Option String)
  | lowercaseFirstChar (pattern : Option String)
  | lowercasePattern (pattern : Option String)
  | substring (offset : String) (length : Option String)
  | replaceSubstring (pattern : String) (replacement : Option String)
  deriving DecidableEq, Repr

mutual

/-- A piece of a word. -/
inductive WordPiece where
  | text (text : String)
  | singleQuotedText (text : String)
  | ansiCQuotedText (text : String)
  | doubleQuotedSequence (pieces : List WordPieceWithSource)
  | gettextDoubleQuotedSequence (pieces : List WordPieceWithSource)
  | tildePrefix (user : String)
  /-- A parameter expansion; the parameter may be an element of an array, with a subscript. -/
  | parameterExpansion (index : Option String) (expr : ParameterExpr)
  | commandSubstitution (command : String)
  | backquotedCommandSubstitution (command : String)
  | escapeSequence (text : String)
  | arithmeticExpression (expr : String)

/-- A piece with the byte range of the word that it was read from. -/
inductive WordPieceWithSource where
  | mk (piece : WordPiece) (startIndex endIndex : Nat)

end

/-- The name on the left of an assignment. -/
inductive AssignmentName where
  | variableName (name : String)
  | arrayElementName (name index : String)
  deriving DecidableEq, Repr

/-- The text of an assignment's name. -/
def AssignmentName.text : AssignmentName → String
  | variableName name => name
  | arrayElementName name index => name ++ "[" ++ index ++ "]"

/-- The right side of an assignment. -/
inductive AssignmentValue where
  | scalar (word : Word)
  | array (words : List (Option Word × Word))
  deriving DecidableEq, Repr

/-- An assignment; `append` tells `+=` from `=`. -/
structure Assignment where
  name : AssignmentName
  value : AssignmentValue
  append : Bool
  deriving DecidableEq, Repr

/-- The operator of a redirection. -/
inductive IoFileRedirectKind where
  | read
  | write
  | append
  | readAndWrite
  | clobber
  | duplicateInput
  | duplicateOutput
  deriving DecidableEq, Repr

/-- The expression of a `[[ … ]]` test. -/
inductive ExtendedTestExpr where
  | and (left right : ExtendedTestExpr)
  | or (left right : ExtendedTestExpr)
  | not (inner : ExtendedTestExpr)
  | parenthesized (inner : ExtendedTestExpr)
  | unaryTest (word : Word)
  | binaryTest (left right : Word)
  deriving DecidableEq, Repr

mutual

/-- A command. -/
inductive Command where
  | simple (command : SimpleCommand)
  | compound (command : CompoundCommand) (redirects : List IoRedirect)
  | function (body : FunctionBody)
  | extendedTest (expr : ExtendedTestExpr)

/-- A simple command: what stands before its name, its name and its arguments. -/
inductive SimpleCommand where
  | mk (commandPrefix : List CommandPrefixOrSuffixItem) (wordOrName : Option Word)
      (commandSuffix : List CommandPrefixOrSuffixItem)

/-- An item before or after the name of a simple command. -/
inductive CommandPrefixOrSuffixItem where
  | ioRedirect (redirect : IoRedirect)
  | word (word : Word)
  | assignmentWord (assignment : Assignment) (word : Word)
  | processSubstitution (list : List AndOrList)

/-- A redirection. -/
inductive IoRedirect where
  | file (fd : Option Nat) (kind : IoFileRedirectKind) (target : IoFileRedirectTarget)
  | hereDocument (requiresExpansion : Bool) (doc : Word)
  | hereString (word : Word)
  | outputAndError (word : Word) (append : Bool)

/-- What a redirection redirects to.  `duplicate` is the word of `>&` or `<&`. -/
inductive IoFileRedirectTarget where
  | filename (word : Word)
  | fd (fd : Nat)
  | processSubstitution (list : List AndOrList)
  | duplicate (word : Word)

/-- Pipelines joined by `&&` and `||`; a pipeline is the list of its commands. -/
inductive AndOrList where
  | mk (first : List Command) (additional : List AndOr)

/-- A pipeline with the operator in front of it. -/
inductive AndOr where
  | and (pipeline : List Command)
  | or (pipeline : List Command)

/-- A compound command; a compound list is the list of its and-or lists. -/
inductive CompoundCommand where
  | arithmetic (expr : String)
  | arithmeticForClause (header : List String) (body : List AndOrList)
  | braceGroup (list : List AndOrList)
  | subshell (list : List AndOrList)
  | forClause (values : List Word) (body : List AndOrList)
  | caseClause (value : Word) (cases : List CaseItem)
  | ifClause (condition thenBranch : List AndOrList) (elses : List ElseClause)
  | whileClause (condition body : List AndOrList)
  | untilClause (condition body : List AndOrList)

/-- A branch of a `case` command. -/
inductive CaseItem where
  | mk (patterns : List Word) (cmd : List AndOrList)

/-- An `elif` branch, or an `else` branch with an empty condition. -/
inductive ElseClause where
  | mk (condition body : List AndOrList)

/-- The body of a function, with its redirections. -/
inductive FunctionBody where
  | mk (command : CompoundCommand) (redirects : List IoRedirect)

end

/-- A program: its complete commands. -/
structure Program where
  completeCommands : List (List AndOrList)

/-- The parser of programs and the parser of words. -/
structure ShellParser where
  parseProgram : String → Option Program
  parseWord : String → Option (List WordPieceWithSource)

/-! ## The parts of a program -/

/-- Where a word stands. -/
inductive WordPlace where
  /-- In a command, a value, a file name, a loop or a test. -/
  | plain
  /-- Behind `>&` or `<&`. -/
  | duplicate
  /-- In a pattern of a `case` command. -/
  | casePattern
  /-- The text of an assignment as a whole. -/
  | assignment
  deriving DecidableEq

/-- Something that occurs in a program. -/
inductive Part where
  /-- A word. -/
  | word (place : WordPlace) (word : Word)
  /-- A simple command. -/
  | simpleCommand (command : SimpleCommand)
  /-- A compound command, or the body of a function, with its redirections. -/
  | compoundCommand (command : CompoundCommand) (redirects : List IoRedirect)
  /-- A redirection. -/
  | redirect (redirect : IoRedirect)
  /-- A process substitution. -/
  | processSubstitution
  /-- The expressions of an arithmetic command or of the header of a loop. -/
  | arithmetic (exprs : List String)

/-- The words of an assignment. -/
def Assignment.words (assignment : Assignment) : List Word :=
  match assignment.value with
  | .scalar word => [word]
  | .array words => words.flatMap fun element => element.1.toList ++ [element.2]

/-- The words of a test. -/
def ExtendedTestExpr.words : ExtendedTestExpr → List Word
  | .and left right | .or left right => left.words ++ right.words
  | .not inner | .parenthesized inner => inner.words
  | .unaryTest word => [word]
  | .binaryTest left right => [left, right]

/-- The redirection that an item is. -/
def CommandPrefixOrSuffixItem.redirect? : CommandPrefixOrSuffixItem → Option IoRedirect
  | .ioRedirect redirect => some redirect
  | _ => none

mutual

/-- The parts of a compound list. -/
def compoundListParts : List AndOrList → List Part
  | [] => []
  | .mk first additional :: rest =>
    pipelineParts first ++ andOrParts additional ++ compoundListParts rest

/-- The parts of the further pipelines of an and-or list. -/
def andOrParts : List AndOr → List Part
  | [] => []
  | .and pipeline :: rest | .or pipeline :: rest => pipelineParts pipeline ++ andOrParts rest

/-- The parts of a pipeline. -/
def pipelineParts : List Command → List Part
  | [] => []
  | command :: rest => commandParts command ++ pipelineParts rest

/-- The parts of a command: the command itself unless it is a test, its redirections, and what
they contain. -/
def commandParts : Command → List Part
  | .simple (.mk commandPrefix wordOrName commandSuffix) =>
    .simpleCommand (.mk commandPrefix wordOrName commandSuffix) ::
      ((commandPrefix ++ commandSuffix).filterMap (·.redirect?)).map .redirect ++
      itemParts commandPrefix ++ wordOrName.toList.map (.word .plain) ++ itemParts commandSuffix
  | .compound command redirects | .function (.mk command redirects) =>
    .compoundCommand command redirects ::
      compoundCommandParts command ++ redirects.map .redirect ++ redirectParts redirects
  | .extendedTest expr => expr.words.map (.word .plain)

/-- What the items of a simple command contain. -/
def itemParts : List CommandPrefixOrSuffixItem → List Part
  | [] => []
  | .ioRedirect redirect :: rest => ioRedirectParts redirect ++ itemParts rest
  | .word word :: rest => .word .plain word :: itemParts rest
  | .assignmentWord assignment word :: rest =>
    assignment.words.map (.word .plain) ++ .word .assignment word :: itemParts rest
  | .processSubstitution list :: rest =>
    .processSubstitution :: compoundListParts list ++ itemParts rest

/-- What redirections contain. -/
def redirectParts : List IoRedirect → List Part
  | [] => []
  | redirect :: rest => ioRedirectParts redirect ++ redirectParts rest

/-- What a redirection contains: the word it expands, whatever the variant of its target. -/
def ioRedirectParts : IoRedirect → List Part
  | .file _ _ (.filename word) => [.word .plain word]
  | .file _ _ (.fd _) => []
  | .file _ _ (.processSubstitution list) => .processSubstitution :: compoundListParts list
  | .file _ _ (.duplicate word) => [.word .duplicate word]
  | .hereDocument requiresExpansion doc => if requiresExpansion then [.word .plain doc] else []
  | .hereString word => [.word .plain word]
  | .outputAndError word _ => [.word .plain word]

/-- The parts of a compound command. -/
def compoundCommandParts : CompoundCommand → List Part
  | .arithmetic expr => [.arithmetic [expr]]
  | .arithmeticForClause header body => .arithmetic header :: compoundListParts body
  | .braceGroup list => compoundListParts list
  | .subshell list => compoundListParts list
  | .forClause values body => values.map (.word .plain) ++ compoundListParts body
  | .caseClause value cases => .word .plain value :: caseParts cases
  | .ifClause condition thenBranch elses =>
    compoundListParts condition ++ compoundListParts thenBranch ++ elseParts elses
  | .whileClause condition body | .untilClause condition body =>
    compoundListParts condition ++ compoundListParts body

/-- The parts of the branches of a `case` command. -/
def caseParts : List CaseItem → List Part
  | [] => []
  | .mk patterns cmd :: rest =>
    patterns.map (.word .casePattern) ++ compoundListParts cmd ++ caseParts rest

/-- The parts of the `elif` and `else` branches of an `if` command. -/
def elseParts : List ElseClause → List Part
  | [] => []
  | .mk condition body :: rest =>
    compoundListParts condition ++ compoundListParts body ++ elseParts rest

end

/-- The parts of a compound command that come behind its condition, its values or its subject. -/
def CompoundCommand.bodyParts : CompoundCommand → List Part
  | .arithmetic _ => []
  | .arithmeticForClause _ body | .braceGroup body | .subshell body | .forClause _ body
  | .whileClause _ body | .untilClause _ body => compoundListParts body
  | .caseClause _ cases => caseParts cases
  | .ifClause _ thenBranch elses => compoundListParts thenBranch ++ elseParts elses

/-- Everything that occurs anywhere in a program. -/
def Program.parts (program : Program) : List Part :=
  program.completeCommands.flatMap compoundListParts

/-! ## What the shell expands -/

/-- What the shell finds in a word or in a part: a command to run, or a text to expand. -/
inductive Nesting where
  /-- The command of a substitution. -/
  | command (text : String)
  /-- A text that is expanded like a word. -/
  | word (text : String)
  /-- The same in a place that the extraction of commands does not enter. -/
  | passedOver (text : String)

/-- The texts of a parameter expansion that the shell expands in turn, apart from a subscript. -/
def ParameterExpr.operands : ParameterExpr → List String
  | .parameter | .parameterLength | .transform | .variableNames | .memberKeys => []
  | .useDefaultValues text | .assignDefaultValues text | .indicateErrorIfNullOrUnset text
  | .useAlternativeValue text | .removeSmallestSuffixPattern text
  | .removeLargestSuffixPattern text | .removeSmallestPrefixPattern text
  | .removeLargestPrefixPattern text | .uppercaseFirstChar text | .uppercasePattern text
  | .lowercaseFirstChar text | .lowercasePattern text => text.toList
  | .substring first second | .replaceSubstring first second => first :: second.toList

mutual

/-- What the shell finds in a piece of a word. -/
def WordPiece.nestings : WordPiece → List Nesting
  | .commandSubstitution command | .backquotedCommandSubstitution command => [.command command]
  | .doubleQuotedSequence pieces | .gettextDoubleQuotedSequence pieces => piecesNestings pieces
  | .arithmeticExpression expr => [.word expr]
  | .parameterExpansion index expr =>
    index.toList.map .passedOver ++ expr.operands.map .word
  | .text _ | .singleQuotedText _ | .ansiCQuotedText _ | .escapeSequence _ | .tildePrefix _ => []

/-- What the shell finds in the pieces of a word. -/
def piecesNestings : List WordPieceWithSource → List Nesting
  | [] => []
  | .mk piece _ _ :: rest => piece.nestings ++ piecesNestings rest

end

/-- The subscript of an item that assigns to an element of an array. -/
def CommandPrefixOrSuffixItem.subscript? : CommandPrefixOrSuffixItem → Option String
  | .assignmentWord ⟨.arrayElementName _ index, _, _⟩ _ => some index
  | _ => none

/-- What the shell expands in a part.  Of an assignment these are the values, which are words of
their own, and the subscript. -/
def Part.nestings : Part → List Nesting
  | .word .plain w => [.word w.value]
  | .word .duplicate w | .word .casePattern w => [.passedOver w.value]
  | .word .assignment _ => []
  | .arithmetic exprs => exprs.map .passedOver
  | .simpleCommand (.mk front _ back) => ((front ++ back).filterMap (·.subscript?)).map .passedOver
  | .compoundCommand _ _ | .redirect _ | .processSubstitution => []

theorem Part.eq_word_of_mem_nestings {part : Part} {text : String}
    (h : .word text ∈ part.nestings) : ∃ word, part = .word .plain word ∧ word.value = text := by
  cases part with
  | word place word =>
    cases place with
    | plain =>
      cases List.mem_singleton.1 h
      exact ⟨word, rfl, rfl⟩
    | duplicate | casePattern => cases List.mem_singleton.1 h
    | assignment => cases h
  | simpleCommand command =>
    cases command
    simp [nestings] at h
  | _ => simp [nestings] at h

end XorEditor.Agent
