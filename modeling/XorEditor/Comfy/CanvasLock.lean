import XorEditor.Lib.Method

/-!
# The lock of a canvas

A graph document is a tree of levels, and one of them is active.  The engine checks once,
on the level that is active before a command, whether its canvas is locked; a batch may
open other levels while it runs.

* `applyCommand`: what the engine does with a command
* `Respects`: a command leaves the locked levels as they are
* `respects_iff_of_validatedCandidate`: the commands that do
-/

namespace XorEditor.Comfy.Canvas

open List
open Lib Method

/-- A level of the graph: the lock of its viewport, the levels of its subgraph definitions,
and everything else as `content`. -/
structure GraphLevel (κ Content : Type) where
  locked : Bool
  definitions : List (κ × GraphLevel κ Content)
  content : Content

structure GraphDocument (κ Content : Type) where
  root : GraphLevel κ Content
  navigation : List κ

/-- The commands other than `Batch`.  `viewport` are the four on the viewport, `SetViewport`,
`PanViewport`, `ZoomViewport` and `FitViewport`, and `edit` those not named here. -/
inductive SingleCommand (κ Viewport Edit : Type)
  | viewport (command : Viewport)
  | openSubgraph (definitionIdentifier : κ)
  | exitSubgraph
  | edit (command : Edit)

inductive GraphCommand (κ Viewport Edit : Type)
  | single (command : SingleCommand κ Viewport Edit)
  | batch (commands : List (GraphCommand κ Viewport Edit))

inductive GraphError (κ : Type)
  | canvasLocked
  | unknownSubgraph (identifier : κ)
  | atRootGraph
  | other (message : String)

variable {κ Content Viewport Edit : Type} [DecidableEq κ]

def GraphLevel.graphAtPath (level : GraphLevel κ Content) :
    List κ → Except (GraphError κ) (GraphLevel κ Content)
  | [] => .ok level
  | identifier :: path =>
    match level.definitions.lookup identifier with
    | none => .error (.unknownSubgraph identifier)
    | some definition => definition.graphAtPath path

namespace GraphCommand

mutual

/-- The commands in the order of their execution: a batch runs its own in order. -/
def singles : GraphCommand κ Viewport Edit → List (SingleCommand κ Viewport Edit)
  | single command => [command]
  | batch commands => batchSingles commands

def batchSingles : List (GraphCommand κ Viewport Edit) → List (SingleCommand κ Viewport Edit)
  | [] => []
  | command :: commands => command.singles ++ batchSingles commands

end

def allowedWhileCanvasLocked (command : GraphCommand κ Viewport Edit) : Bool :=
  command.singles.all fun
    | .edit _ => false
    | _ => true

end GraphCommand

/-- What viewport commands and edits make of the levels, and `GraphDocument::validate`. -/
structure GraphRules (κ Content Viewport Edit : Type) where
  changeViewport : Viewport → GraphDocument κ Content → Except (GraphError κ) (GraphLevel κ Content)
  edit : Edit → GraphDocument κ Content → Except (GraphError κ) (GraphLevel κ Content)
  validate : GraphDocument κ Content → Except (GraphError κ) Unit

variable (rules : GraphRules κ Content Viewport Edit) (document : GraphDocument κ Content)

namespace GraphDocument

def activeGraph : Except (GraphError κ) (GraphLevel κ Content) :=
  document.root.graphAtPath document.navigation

def applySingle : SingleCommand κ Viewport Edit →
    Except (GraphError κ) (GraphDocument κ Content)
  | .viewport command => return { document with root := ← rules.changeViewport command document }
  | .edit command => return { document with root := ← rules.edit command document }
  | .openSubgraph identifier => do
    let level ← document.activeGraph
    if (level.definitions.lookup identifier).isNone then
      throw (.unknownSubgraph identifier)
    return { document with navigation := document.navigation ++ [identifier] }
  | .exitSubgraph => do
    if document.navigation = [] then
      throw .atRootGraph
    return { document with navigation := document.navigation.dropLast }

def applyCommand (command : GraphCommand κ Viewport Edit) :
    Except (GraphError κ) (GraphDocument κ Content) :=
  command.singles.foldlM (applySingle rules) document

def validatedCandidate (command : GraphCommand κ Viewport Edit) :
    Except (GraphError κ) (GraphDocument κ Content) := do
  let level ← document.activeGraph
  if level.locked && !command.allowedWhileCanvasLocked then
    throw .canvasLocked
  let candidate ← document.applyCommand rules command
  rules.validate candidate
  return candidate

/-- The level at a path is there and locked. -/
def LockedAt (path : List κ) : Prop :=
  ∃ level, document.root.graphAtPath path = .ok level ∧ level.locked = true

/-- No edit of the command runs on a level that was locked before the command. -/
def Respects (command : GraphCommand κ Viewport Edit) : Prop :=
  ∀ (before after : List (SingleCommand κ Viewport Edit)) (edit : Edit)
    (current : GraphDocument κ Content), command.singles = before ++ .edit edit :: after →
    before.foldlM (applySingle rules) document = .ok current →
    ¬ document.LockedAt current.navigation

/-- Where a command leads, if it is accepted. -/
def navigate (path : List κ) : SingleCommand κ Viewport Edit → List κ
  | .openSubgraph identifier => path ++ [identifier]
  | .exitSubgraph => path.dropLast
  | _ => path

variable {rules document}

theorem navigation_foldlM {commands : List (SingleCommand κ Viewport Edit)}
    {current : GraphDocument κ Content}
    (h : commands.foldlM (applySingle rules) document = .ok current) :
    current.navigation = commands.foldl navigate document.navigation := by
  induction commands generalizing document with
  | nil =>
    obtain rfl := Except.ok.inj h
    rfl
  | cons command commands ih =>
    rw [foldlM_cons] at h
    obtain ⟨next, hnext, h⟩ := result_bind_eq_ok_iff.mp h
    have hnavigation : next.navigation = navigate document.navigation command := by
      cases command <;>
        simp only [applySingle, result_bind_eq_ok_iff, result_guard_eq_ok_iff] at hnext
      case viewport | edit =>
        obtain ⟨root, -, hok⟩ := hnext
        cases hok
        rfl
      case openSubgraph =>
        obtain ⟨level, -, -, hok⟩ := hnext
        cases hok
        rfl
      case exitSubgraph =>
        cases hnext.2
        rfl
    rw [ih h, hnavigation, foldl_cons]

variable (rules document)

/-- **The lock of a canvas.**  An accepted command edits no locked level exactly if the level
that is active before it is locked, or each of its edits comes where the navigation commands
before it lead to a level that is not. -/
theorem respects_iff_of_validatedCandidate {command : GraphCommand κ Viewport Edit}
    {candidate : GraphDocument κ Content}
    (h : document.validatedCandidate rules command = .ok candidate) :
    document.Respects rules command ↔ document.LockedAt document.navigation ∨
      ∀ before after edit, command.singles = before ++ .edit edit :: after →
        ¬ document.LockedAt (before.foldl navigate document.navigation) := by
  unfold validatedCandidate applyCommand at h
  simp only [result_bind_eq_ok_iff, result_guard_eq_ok_iff] at h
  obtain ⟨level, hlevel, hallowed, applied, happlied, -⟩ := h
  constructor
  · refine fun hrespects => Or.inr fun before after edit hsingles => ?_
    rw [hsingles, foldlM_append] at happlied
    obtain ⟨current, hcurrent, -⟩ := result_bind_eq_ok_iff.mp happlied
    rw [← navigation_foldlM hcurrent]
    exact hrespects before after edit current hsingles hcurrent
  · rintro (⟨_, hfound, hlocked⟩ | hlevels) before after edit current hsingles hcurrent
    · obtain rfl := Except.ok.inj (hlevel.symm.trans hfound)
      simp [hlocked, GraphCommand.allowedWhileCanvasLocked, hsingles] at hallowed
    · rw [navigation_foldlM hcurrent]
      exact hlevels before after edit hsingles

/-- The edits of an example add a number to the content of the document's root. -/
def numberRules : GraphRules Nat Nat Unit Nat where
  changeViewport := fun _ document => .ok document.root
  edit := fun number document => .ok { document.root with content := number }
  validate := fun _ => .ok ()

/-- The root is not locked, but its definition 1 is. -/
def halfLocked : GraphDocument Nat Nat :=
  { root := { locked := false, definitions := [(1, ⟨true, [], 0⟩)], content := 0 }
    navigation := [] }

/-- A batch that opens the locked definition and leaves it again before its edit. -/
def passingBatch : GraphCommand Nat Unit Nat :=
  .batch [.single (.openSubgraph 1), .single .exitSubgraph, .single (.edit 7)]

theorem respects_passingBatch : halfLocked.Respects numberRules passingBatch := by
  refine (respects_iff_of_validatedCandidate numberRules halfLocked rfl).mpr (Or.inr ?_)
  intro before after edit hsingles
  have hbefore : before = [.openSubgraph 1, .exitSubgraph] := by
    have hall : [.openSubgraph 1, .exitSubgraph, .edit 7] = before ++ .edit edit :: after :=
      hsingles
    rcases before with _ | ⟨first, _ | ⟨second, _ | ⟨third, rest⟩⟩⟩ <;> simp_all
  rw [hbefore]
  rintro ⟨level, hlevel, hlocked⟩
  cases hlevel
  cases hlocked

/-- A batch that opens the locked definition and edits there is accepted. -/
theorem exists_accepted_edit_of_locked :
    ∃ (document candidate : GraphDocument Nat Nat) (command : GraphCommand Nat Unit Nat),
      document.validatedCandidate numberRules command = .ok candidate ∧
        ¬ document.Respects numberRules command :=
  ⟨halfLocked, _, .batch [.single (.openSubgraph 1), .single (.edit 7)], rfl, fun h =>
    h [.openSubgraph 1] [] 7 _ rfl rfl ⟨_, rfl, rfl⟩⟩

end GraphDocument

end XorEditor.Comfy.Canvas
