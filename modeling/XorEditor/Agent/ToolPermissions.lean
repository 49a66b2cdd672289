import Mathlib.Data.List.Induction
import XorEditor.Agent.ShellCommandParser

/-!
# Tool permissions

The decision whether a tool call runs, is refused, or has to be confirmed: the built-in rules
of the terminal, the validation of terminal commands, and the patterns of the settings.

* `checkHardcodedSecurityRules`: the built-in rules
* `fromInput`: the decision about a call
-/

namespace XorEditor.Agent

variable {inputs : List String} {commands : List String} {rules : ToolRules} {toolName : String}

open List

/-- What the settings say about calls that no pattern decides. -/
inductive ToolPermissionMode where
  | allow
  | deny
  | confirm
  deriving DecidableEq, Repr

/-- A compiled pattern, by the texts it matches. -/
structure CompiledRegex where
  isMatch : String → Bool

/-- A pattern that does not compile. -/
structure InvalidRegexPattern where
  pattern : String
  ruleType : String
  error : String
  deriving DecidableEq, Repr

/-- The rules of one tool. -/
structure ToolRules where
  default : Option ToolPermissionMode := none
  alwaysAllow : List CompiledRegex := []
  alwaysDeny : List CompiledRegex := []
  alwaysConfirm : List CompiledRegex := []
  invalidPatterns : List InvalidRegexPattern := []

/-- The permissions of all tools. -/
structure ToolPermissions where
  default : ToolPermissionMode
  tools : String → Option ToolRules

inductive ToolPermissionDecision where
  | allow
  | deny (message : String)
  | confirm
  deriving DecidableEq, Repr

inductive ShellKind where
  | posix
  | csh
  | tcsh
  | rc
  | fish
  | powerShell
  | pwsh
  | nushell
  | cmd
  | xonsh
  | elvish
  deriving DecidableEq, Repr

/-- The name of a shell. -/
def ShellKind.text : ShellKind → String
  | .posix => "sh"
  | .csh => "csh"
  | .tcsh => "tcsh"
  | .fish => "fish"
  | .powerShell => "powershell"
  | .pwsh => "pwsh"
  | .nushell => "nu"
  | .cmd => "cmd"
  | .rc => "rc"
  | .xonsh => "xonsh"
  | .elvish => "elvish"

def ShellKind.supportsPosixChaining : ShellKind → Bool
  | .posix | .fish | .powerShell | .pwsh | .cmd | .xonsh | .csh | .tcsh | .nushell | .elvish
  | .rc => true

def terminalToolName : String := "terminal"

def hardcodedSecurityDenialMessage : String :=
  "Blocked by built-in security rule. This operation is considered too " ++
    "harmful to be allowed, and cannot be overridden by settings."

def invalidTerminalCommandMessage : String :=
  "The terminal command could not be approved because terminal does not " ++
    "allow shell substitutions or interpolations in permission-protected commands. " ++
    "Forbidden examples include $VAR, $\x7bVAR\x7d, $(...), backticks, $((...)), <(...), and " ++
    ">(...). Resolve those values before calling terminal, or ask " ++
    "the user for the literal value to use."

/-- The shell parser, the built-in patterns of the terminal, and the depth of substitutions
that the walks follow. -/
structure TerminalSecurity where
  parser : ShellParser
  terminalDeny : List CompiledRegex
  depth : Nat

/-! ## Built-in rules -/

/-- The words of a text between white space. -/
def splitWhitespace (text : String) : List String :=
  ((text.toList.splitOnP isWhitespace).filter (· ≠ [])).map String.ofList

/-- Collapse the `.` and `..` segments of a path. -/
def normalizePath (raw : String) : String :=
  let isAbsolute := startsWith raw "/"
  let segments := ((raw.toList.splitOn '/').filter (· ≠ [])).map String.ofList
  let components := segments.foldl (fun components segment =>
    if segment = "." then components
    else if segment = ".." then
      if components.getLast? = some ".." then components ++ [".."]
      else if components ≠ [] then components.dropLast
      else if !isAbsolute then components ++ [".."]
      else components
    else components ++ [segment]) []
  let joined := String.intercalate "/" components
  if isAbsolute then "/" ++ joined else joined

/-- The arguments of `rm` that are flags, and those that are paths. -/
def splitRmArguments (arguments : List String) : List String × List String :=
  let state := arguments.foldl (fun (state : Bool × List String × List String) part =>
    let (pastDoubleDash, flags, paths) := state
    if !pastDoubleDash && part = "--" then (true, flags ++ [part], paths)
    else if !pastDoubleDash && startsWith part "-" then (pastDoubleDash, flags ++ [part], paths)
    else (pastDoubleDash, flags, paths ++ [part])) (false, [], [])
  (state.2.1, state.2.2)

/-- A path of `rm`, normalized; the home directory in front of it is kept. -/
def expandRmPath (path : String) : String :=
  if startsWith path "$" then
    let homePrefix :=
      if startsWith path "$\x7bHOME\x7d" then some "$\x7bHOME\x7d"
      else if startsWith path "$HOME" then some "$HOME"
      else none
    match homePrefix with
    | some home =>
      let tail := String.ofList (path.toList.drop home.length)
      if startsWith tail "/" then
        let normalizedTail := normalizePath tail
        if normalizedTail = "/" then home else home ++ normalizedTail
      else path
    | none => path
  else
    let normalized := normalizePath path
    if normalized = "" ∧ !startsWith path "/" then "." else normalized

def expandRmToSinglePathCommands (command : String) : List String :=
  match splitWhitespace command with
  | [] => []
  | first :: arguments =>
    if first.toLower = "rm" then
      let (flags, paths) := splitRmArguments arguments
      let flagsText := if flags = [] then "" else String.intercalate " " flags ++ " "
      paths.map fun path => "rm " ++ flagsText ++ expandRmPath path
    else []

def matchesHardcodedPatterns (command : String) (patterns : List CompiledRegex) : Bool :=
  patterns.any (·.isMatch command) ||
    (expandRmToSinglePathCommands command).any fun expanded => patterns.any (·.isMatch expanded)

section Decision

variable (security : TerminalSecurity)

def checkHardcodedSecurityRules (toolName : String) (inputs : List String)
    (shellKind : ShellKind) : Option ToolPermissionDecision :=
  if toolName ≠ terminalToolName then none
  else if inputs.any fun input =>
      matchesHardcodedPatterns input security.terminalDeny ||
        (shellKind.supportsPosixChaining &&
          ((extractCommands security.parser security.depth input).getD []).any fun command =>
            matchesHardcodedPatterns command security.terminalDeny) then
    some (.deny hardcodedSecurityDenialMessage)
  else none

/-! ## Rules of the settings -/

def isUnconditionalAllowAll (rules : ToolRules) (globalDefault : ToolPermissionMode) : Bool :=
  rules.alwaysDeny.isEmpty && rules.alwaysConfirm.isEmpty &&
    rules.default.getD globalDefault == .allow

def checkInvalidPatterns (toolName : String) (rules : ToolRules) : Option String :=
  if rules.invalidPatterns.isEmpty then none
  else
    let count := rules.invalidPatterns.length
    let patternWord := if count = 1 then "pattern" else "patterns"
    some ("The " ++ toolName ++ " tool cannot run because " ++ toString count ++ " regex " ++
      patternWord ++ " failed to compile. " ++
      "Please fix the invalid patterns in your tool_permissions settings.")

/-- Whether one of the patterns matches. -/
def anyMatch (patterns : List CompiledRegex) (command : String) : Bool :=
  patterns.any (·.isMatch command)

/-- What the loop over the commands keeps track of. -/
structure CheckState where
  anyMatchedConfirm : Bool := false
  allMatchedAllow : Bool := true
  hadAnyCommands : Bool := false

/-- One round of the loop; a matching deny pattern ends it. -/
def checkCommand (rules : ToolRules) (toolName : String) (state : CheckState)
    (command : String) : Except ToolPermissionDecision CheckState :=
  if anyMatch rules.alwaysDeny command then
    .error (.deny ("Command blocked by security rule for " ++ toolName ++ " tool"))
  else
    .ok { anyMatchedConfirm := state.anyMatchedConfirm || anyMatch rules.alwaysConfirm command
          allMatchedAllow := state.allMatchedAllow && anyMatch rules.alwaysAllow command
          hadAnyCommands := true }

def checkCommands (commands : List String) (rules : ToolRules) (toolName : String)
    (allowEnabled : Bool) (globalDefault : ToolPermissionMode) : ToolPermissionDecision :=
  match commands.foldlM (checkCommand rules toolName) {} with
  | .error decision => decision
  | .ok state =>
    if state.anyMatchedConfirm then .confirm
    else if allowEnabled && state.allMatchedAllow && state.hadAnyCommands then .allow
    else
      match rules.default.getD globalDefault with
      | .deny => .deny (toolName ++ " tool is disabled")
      | .allow => .allow
      | .confirm => .confirm

/-- Whether the terminal's rules let every call through. -/
def ToolPermissions.allowsAll (permissions : ToolPermissions) (toolName : String) : Bool :=
  match permissions.tools toolName with
  | none => permissions.default == .allow
  | some rules => isUnconditionalAllowAll rules permissions.default

/-- The commands of all inputs, an input that the walk gives up standing for itself, and
whether there is such an input. -/
def expandInputs (inputs : List String) : List String × Bool :=
  inputs.foldl (fun expanded input =>
    match extractCommands security.parser security.depth input with
    | some commands => (expanded.1 ++ commands, expanded.2)
    | none => (expanded.1 ++ [input], true)) ([], false)

/-- The patterns of one tool's rules. -/
def checkRules (toolName : String) (inputs : List String) (rules : ToolRules)
    (globalDefault : ToolPermissionMode) (shellKind : ShellKind) : ToolPermissionDecision :=
  if toolName = terminalToolName then
    if !shellKind.supportsPosixChaining then
      if rules.alwaysAllow ≠ [] then
        .deny ("The " ++ shellKind.text ++ " shell does not support \"always allow\" patterns " ++
          "for the terminal tool because Zed cannot parse its command chaining syntax. Please " ++
          "remove the always_allow patterns from your tool_permissions settings, or switch " ++
          "to a POSIX-conforming shell.")
      else checkCommands inputs rules toolName false globalDefault
    else
      let (allCommands, anyParseFailed) := expandInputs security inputs
      checkCommands allCommands rules toolName (!anyParseFailed) globalDefault
  else checkCommands inputs rules toolName true globalDefault

/-- `ToolPermissionDecision::from_input`. -/
def fromInput (toolName : String) (inputs : List String) (permissions : ToolPermissions)
    (shellKind : ShellKind) : ToolPermissionDecision :=
  match checkHardcodedSecurityRules security toolName inputs shellKind with
  | some denial => denial
  | none =>
    match (permissions.tools toolName).bind (checkInvalidPatterns toolName) with
    | some error => .deny error
    | none =>
      if toolName = terminalToolName ∧ !permissions.allowsAll toolName ∧ inputs.any fun input =>
            validateTerminalCommand security.parser input != .safe then
        .deny invalidTerminalCommandMessage
      else
        match permissions.tools toolName with
        | none =>
          match permissions.default with
          | .allow => .allow
          | .deny => .deny "Blocked by global default: deny"
          | .confirm => .confirm
        | some rules =>
          checkRules security toolName inputs rules permissions.default shellKind

end Decision

/-! ## What is known of an allowed call -/

/-- The loop over the commands gets to its end if no deny pattern matches, and has then seen
the patterns of every command. -/
theorem checkCommand_foldlM (commands : List String) (state : CheckState) :
    (∃ message, commands.foldlM (checkCommand rules toolName) state = .error (.deny message)) ∨
      (∀ command ∈ commands, anyMatch rules.alwaysDeny command = false) ∧
      commands.foldlM (checkCommand rules toolName) state = .ok
        { anyMatchedConfirm := state.anyMatchedConfirm ||
            commands.any (anyMatch rules.alwaysConfirm)
          allMatchedAllow := state.allMatchedAllow && commands.all (anyMatch rules.alwaysAllow)
          hadAnyCommands := state.hadAnyCommands || !commands.isEmpty } := by
  induction commands generalizing state with
  | nil => right; simp [pure, Except.pure]
  | cons command rest ih =>
    rw [foldlM_cons]
    by_cases hdeny : anyMatch rules.alwaysDeny command
    · left
      exact ⟨_, by simp only [checkCommand, hdeny]; rfl⟩
    · have hround : checkCommand rules toolName state command = .ok
          { anyMatchedConfirm :=
              state.anyMatchedConfirm || anyMatch rules.alwaysConfirm command
            allMatchedAllow := state.allMatchedAllow && anyMatch rules.alwaysAllow command
            hadAnyCommands := true } := by
        simp [checkCommand, hdeny]
      rw [hround]
      change (∃ message, rest.foldlM (checkCommand rules toolName) _ = _) ∨
        _ ∧ rest.foldlM (checkCommand rules toolName) _ = _
      rcases ih _ with ⟨message, herror⟩ | ⟨hrest, hok⟩
      · exact Or.inl ⟨message, herror⟩
      · right
        refine ⟨forall_mem_cons.2 ⟨by simpa using hdeny, hrest⟩, ?_⟩
        rw [hok]
        simp [Bool.or_assoc, Bool.and_assoc]

/-- A list of commands is allowed only if no deny or confirm pattern matches one of them, and
each of them matches an allow pattern unless the default is to allow. -/
theorem checkCommands_eq_allow {allowEnabled : Bool} {globalDefault : ToolPermissionMode}
    (h : checkCommands commands rules toolName allowEnabled globalDefault = .allow) :
    (∀ command ∈ commands, anyMatch rules.alwaysDeny command = false ∧
      anyMatch rules.alwaysConfirm command = false) ∧
    (allowEnabled = true ∧ (∀ command ∈ commands, anyMatch rules.alwaysAllow command = true) ∨
      rules.default.getD globalDefault = .allow) := by
  unfold checkCommands at h
  rcases @checkCommand_foldlM rules toolName commands {} with
    ⟨message, herror⟩ | ⟨hdeny, hok⟩
  · rw [herror] at h
    cases h
  · rw [hok] at h
    simp only [Bool.false_or, Bool.true_and] at h
    split_ifs at h with hconfirm hallow
    · simp only [any_eq_true, not_exists, not_and, Bool.not_eq_true] at hconfirm
      simp only [Bool.and_eq_true, all_eq_true] at hallow
      exact ⟨fun command hmem => ⟨hdeny command hmem, hconfirm command hmem⟩, Or.inl hallow.1⟩
    · simp only [any_eq_true, not_exists, not_and, Bool.not_eq_true] at hconfirm
      refine ⟨fun command hmem => ⟨hdeny command hmem, hconfirm command hmem⟩, Or.inr ?_⟩
      cases hmode : rules.default.getD globalDefault with
      | allow => rfl
      | deny => rw [hmode] at h; cases h
      | confirm => rw [hmode] at h; cases h

section Inputs

variable {security : TerminalSecurity}

/-- One input more. -/
theorem expandInputs_concat (inputs : List String) (input : String) :
    expandInputs security (inputs ++ [input]) =
      match extractCommands security.parser security.depth input with
      | some commands =>
        ((expandInputs security inputs).1 ++ commands, (expandInputs security inputs).2)
      | none => ((expandInputs security inputs).1 ++ [input], true) := by
  simp only [expandInputs, foldl_append, foldl_cons, foldl_nil]

/-- No input stands for itself if the walk gives up none. -/
theorem expandInputs_complete (h : (expandInputs security inputs).2 = false) :
    ∀ input ∈ inputs, extractCommands security.parser security.depth input ≠ none := by
  induction inputs using List.reverseRecOn with
  | nil => simp
  | append_singleton inputs input ih =>
    rw [expandInputs_concat] at h
    rw [forall_mem_append]
    cases hextract : extractCommands security.parser security.depth input with
    | none =>
      rw [hextract] at h
      cases h
    | some commands =>
      rw [hextract] at h
      refine ⟨ih h, fun other hother => ?_⟩
      rw [mem_singleton.1 hother, hextract]
      exact Option.some_ne_none commands

/-- The commands of an input are among those that are checked. -/
theorem subset_expandInputs {input : String} (hmem : input ∈ inputs)
    (h : extractCommands security.parser security.depth input = some commands) :
    commands ⊆ (expandInputs security inputs).1 := by
  induction inputs using List.reverseRecOn with
  | nil => cases hmem
  | append_singleton inputs other ih =>
    rw [expandInputs_concat]
    rcases mem_append.1 hmem with hold | hnew
    · intro command hcommand
      cases hextract : extractCommands security.parser security.depth other with
      | none | some others => exact mem_append_left _ (ih hold hcommand)
    · rw [mem_singleton.1 hnew] at h
      rw [h]
      exact subset_append_right _ _

end Inputs

/-- A terminal call that is allowed, though not every call is, has passed the validation and
the patterns of the terminal's rules. -/
theorem fromInput_eq_allow {security : TerminalSecurity} {permissions : ToolPermissions}
    {shellKind : ShellKind} (hrules : permissions.allowsAll terminalToolName = false)
    (h : fromInput security terminalToolName inputs permissions shellKind = .allow) :
    (∀ input ∈ inputs, validateTerminalCommand security.parser input = .safe) ∧
    ∃ rules, permissions.tools terminalToolName = some rules ∧
      checkRules security terminalToolName inputs rules permissions.default shellKind = .allow := by
  unfold fromInput at h
  cases hhard : checkHardcodedSecurityRules security terminalToolName inputs shellKind with
  | some denial =>
    rw [hhard] at h
    unfold checkHardcodedSecurityRules at hhard
    split_ifs at hhard
    cases hhard
    cases h
  | none =>
    rw [hhard] at h
    simp only at h
    cases hinvalid : (permissions.tools terminalToolName).bind
        (checkInvalidPatterns terminalToolName) with
    | some error =>
      rw [hinvalid] at h
      cases h
    | none =>
      rw [hinvalid] at h
      simp only [hrules, Bool.not_false, true_and] at h
      split_ifs at h with hrejected
      simp only [any_eq_true, bne_iff_ne, not_exists, not_and, not_not] at hrejected
      refine ⟨hrejected, ?_⟩
      unfold ToolPermissions.allowsAll at hrules
      cases htools : permissions.tools terminalToolName with
      | none =>
        rw [htools] at h hrules
        cases hdefault : permissions.default <;> rw [hdefault] at h hrules <;> cases h
        cases hrules
      | some rules =>
        rw [htools] at h
        exact ⟨rules, rfl, h⟩

end XorEditor.Agent
