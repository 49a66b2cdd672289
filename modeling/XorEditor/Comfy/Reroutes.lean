import XorEditor.Lib.Method
import Mathlib.Data.Finset.Card

/-!
# Reroutes of a graph level

A link of a graph runs through a chain of reroutes: it names the last one, and every
reroute names its parent.  `validate_level` refuses unknown parents and cycles, and
`remove_reroutes` gives the children of a removed reroute the nearest ancestor that stays.
The chains after a removal are the chains before it without the removed reroutes.

* `validateReroutes`, `removeReroutes`: the two functions
* `Chain`: the reroutes that a link runs through
* `removeReroutes_splices`: the chains after a removal
-/

namespace XorEditor.Comfy

open Std (ExtTreeMap ExtTreeSet TransOrd LawfulEqOrd)
open Lib Method

/-- The errors of the operations on reroutes. -/
inductive GraphError (κ : Type)
  | unknownReroute (identifier : κ)
  | rerouteCycle (identifier : κ)
  | serialization (message : String)
deriving DecidableEq

structure GraphReroute (κ : Type) where
  identifier : κ
  parent : Option κ
deriving DecidableEq

structure GraphLink (κ : Type) where
  identifier : κ
  originNode : κ
  originSlot : Nat
  targetNode : κ
  targetSlot : Nat
  typeName : String
  parentReroute : Option κ
deriving DecidableEq

/-- A level of a graph.  Of the identifiers only the order matters, and the nodes are not
read here, so both types are parameters.  `selection` holds the selected reroutes. -/
structure GraphLevel (κ ν : Type) [Ord κ] where
  nodes : ExtTreeMap κ ν
  links : ExtTreeMap κ (GraphLink κ)
  reroutes : ExtTreeMap κ (GraphReroute κ)
  selection : ExtTreeSet κ

variable {κ ν : Type} [Ord κ] [TransOrd κ] [DecidableEq κ]

section Climb

variable (reroutes : ExtTreeMap κ (GraphReroute κ))

/-- The loop over the parents of the reroute `start` that `validate_level` and
`remove_reroutes` share.  `stops` ends it early, and `missing` is the outcome at an
identifier that names no reroute. -/
def climb [LawfulEqOrd κ] (start : κ) (stops : κ → Bool)
    (missing : κ → Except (GraphError κ) (Option κ)) (visited : Finset κ) :
    Option κ → Except (GraphError κ) (Option κ)
  | none => .ok none
  | some identifier =>
    if _ : identifier ∈ visited then .error (.rerouteCycle start)
    else if stops identifier then .ok (some identifier)
    else match _ : reroutes[identifier]? with
      | none => missing identifier
      | some reroute =>
        climb start stops missing (insert identifier visited) reroute.parent
termination_by (reroutes.keys.toFinset \ visited).card
decreasing_by
  rw [Finset.sdiff_insert]
  apply Finset.card_erase_lt_of_mem
  have hmem : identifier ∈ reroutes := by simp [ExtTreeMap.mem_iff_isSome_getElem?, *]
  simp [*]

/-- The check that a parent is known, the same for links and reroutes. -/
def checkParent : Option κ → Except (GraphError κ) Unit
  | some parent => if parent ∉ reroutes then throw (.unknownReroute parent) else pure ()
  | none => pure ()

end Climb

variable [LawfulEqOrd κ]

namespace GraphLevel

/-- The checks of `validate_level` on the parents of links and reroutes. -/
def validateReroutes (level : GraphLevel κ ν) : Except (GraphError κ) Unit := do
  level.links.toList.forM fun (_, link) => checkParent level.reroutes link.parentReroute
  level.reroutes.toList.forM fun (identifier, reroute) => do
    if identifier ≠ reroute.identifier then
      throw (.serialization "reroute map key does not match reroute id")
    checkParent level.reroutes reroute.parent
    let _ ← climb level.reroutes identifier (fun _ => false) (fun _ => .ok none)
      {identifier} reroute.parent
    pure ()

/-- The writes of `remove_reroutes`, once the replacement of every parent is known. -/
def spliceOut (graph : GraphLevel κ ν) (identifiers : ExtTreeSet κ)
    (replaced : Option κ → Option κ) : GraphLevel κ ν :=
  { graph with
    reroutes := (graph.reroutes.map fun _ reroute =>
      { reroute with parent := replaced reroute.parent }).filter
        fun identifier _ => identifier ∉ identifiers
    links := graph.links.map fun _ link =>
      { link with parentReroute := replaced link.parentReroute }
    selection := graph.selection.filter (· ∉ identifiers) }

/-- `remove_reroutes`: all replacements are found before the first one is made. -/
def removeReroutes (graph : GraphLevel κ ν) (identifiers : ExtTreeSet κ) :
    Except (GraphError κ) (GraphLevel κ ν) := do
  if let some identifier := identifiers.toList.find? (· ∉ graph.reroutes) then
    throw (.unknownReroute identifier)
  let replacementParents ← identifiers.toList.mapM fun identifier => do
    let parent ← climb graph.reroutes identifier (· ∉ identifiers)
      (fun parent => .error (.unknownReroute parent)) {identifier}
      (graph.reroutes[identifier]?.bind (·.parent))
    pure (identifier, parent)
  let replacementParents : ExtTreeMap κ (Option κ) := .ofList replacementParents
  pure (graph.spliceOut identifiers fun parent =>
    parent.bind fun identifier => replacementParents.getD identifier (some identifier))

end GraphLevel

/-! ### Chains of reroutes -/

/-- The chain of reroutes that following parents gives; it ends, and no reroute is twice
in it. -/
inductive Chain (reroutes : ExtTreeMap κ (GraphReroute κ)) : Option κ → List κ → Prop
  | nil : Chain reroutes none []
  | cons {identifier : κ} {reroute : GraphReroute κ} {ids : List κ}
      (hreroute : reroutes[identifier]? = some reroute) (hfresh : identifier ∉ ids)
      (rest : Chain reroutes reroute.parent ids) :
      Chain reroutes (some identifier) (identifier :: ids)

variable {reroutes : ExtTreeMap κ (GraphReroute κ)} {start : κ} {stops : κ → Bool}
  {missing : κ → Except (GraphError κ) (Option κ)} {visited : Finset κ} {parent : Option κ}
  {ids : List κ}

omit [DecidableEq κ] [LawfulEqOrd κ] in
theorem checkParent_eq_ok_iff :
    checkParent reroutes parent = .ok () ↔ ∀ p ∈ parent, p ∈ reroutes := by
  cases parent with
  | none => simp [checkParent, pure, Except.pure]
  | some p =>
    rw [checkParent, result_require_eq_ok_iff, not_not]
    simp

/-- Along a chain the loop stops at the first reroute where it may. -/
theorem climb_of_chain (h : Chain reroutes parent ids) (hvisited : ∀ id ∈ ids, id ∉ visited) :
    climb reroutes start stops missing visited parent = .ok (ids.find? stops) := by
  induction h generalizing visited with
  | nil => rw [climb, List.find?_nil]
  | @cons identifier reroute ids hreroute hfresh rest ih =>
    obtain ⟨hidentifier, hids⟩ := List.forall_mem_cons.mp hvisited
    have hrest := @ih (insert identifier visited) fun id hid => by
      rw [Finset.mem_insert, not_or]
      exact ⟨fun heq => hfresh (heq ▸ hid), hids id hid⟩
    rw [climb, dif_neg hidentifier, List.find?_cons]
    cases hstops : stops identifier with
    | true => rfl
    | false =>
      rw [if_neg Bool.false_ne_true]
      split <;> simp_all

/-- The loop of a reroute on a chain: it starts at the parent, with the reroute visited. -/
theorem climb_of_chain_cons (h : Chain reroutes (some start) (start :: ids))
    (stops : κ → Bool) (missing : κ → Except (GraphError κ) (Option κ)) :
    climb reroutes start stops missing {start} (reroutes[start]?.bind (·.parent)) =
      .ok (ids.find? stops) := by
  cases h with
  | cons hreroute hfresh rest =>
    rw [hreroute, Option.bind_some]
    refine climb_of_chain rest fun id hid hmem => ?_
    obtain rfl := Finset.mem_singleton.mp hmem
    exact hfresh hid

/-- Where all parents are known, a loop that does not stop early has gone along a chain. -/
theorem exists_chain {result : Option κ}
    (hknown : ∀ i : κ, ∀ reroute ∈ reroutes[i]?, ∀ p ∈ reroute.parent, p ∈ reroutes)
    (hparent : ∀ p ∈ parent, p ∈ reroutes)
    (h : climb reroutes start (fun _ => false) missing visited parent = .ok result) :
    ∃ ids, Chain reroutes parent ids ∧ ∀ id ∈ ids, id ∉ visited := by
  fun_induction climb reroutes start (fun _ => false) missing visited parent with
  | case1 => exact ⟨[], .nil, by simp⟩
  | case2 => cases h
  | case3 => contradiction
  | case4 visited identifier hvisited _ hreroute =>
    have := hparent identifier rfl
    rw [ExtTreeMap.mem_iff_isSome_getElem?, hreroute] at this
    cases this
  | case5 visited identifier hvisited _ reroute hreroute ih =>
    obtain ⟨ids, hchain, hids⟩ := ih (hknown identifier reroute hreroute) h
    refine ⟨identifier :: ids, .cons hreroute ?_ hchain, ?_⟩
    · intro hid
      exact hids identifier hid (Finset.mem_insert_self identifier visited)
    · rw [List.forall_mem_cons]
      exact ⟨hvisited, fun id hid hmem => hids id hid (Finset.mem_insert_of_mem hmem)⟩

namespace GraphLevel

/-! ### What validation accepts -/

/-- Every link names a known reroute, and every reroute is on a chain. -/
structure Chained (level : GraphLevel κ ν) : Prop where
  link : ∀ i : κ, ∀ link ∈ level.links[i]?, ∀ p ∈ link.parentReroute, p ∈ level.reroutes
  reroute : ∀ i ∈ level.reroutes, ∃ ids, Chain level.reroutes (some i) (i :: ids)

theorem chained_of_validateReroutes {level : GraphLevel κ ν}
    (h : level.validateReroutes = .ok ()) : level.Chained := by
  simp only [validateReroutes, result_bind_eq_ok_iff, Unique.exists_iff, PUnit.default_eq_unit,
    result_forM_eq_ok_iff, Prod.forall, ExtTreeMap.mem_toList_iff_getElem?_eq_some,
    result_guard_eq_ok_iff, checkParent_eq_ok_iff] at h
  obtain ⟨hlinks, hreroutes⟩ := h
  refine ⟨hlinks, fun i hi => ?_⟩
  obtain ⟨reroute, hreroute⟩ := Option.isSome_iff_exists.mp
    (ExtTreeMap.mem_iff_isSome_getElem?.mp hi)
  obtain ⟨-, hparent, result, hclimb, -⟩ := hreroutes i reroute hreroute
  obtain ⟨ids, hchain, hids⟩ :=
    exists_chain (fun i reroute hi => (hreroutes i reroute hi).2.1) hparent hclimb
  exact ⟨ids, .cons hreroute (fun hid => hids i hid (Finset.mem_singleton_self i)) hchain⟩

variable {level : GraphLevel κ ν} {identifiers : ExtTreeSet κ}

/-! ### Removal -/

/-- The replacement of a parent is the first reroute of its chain that stays. -/
theorem removeReroutes_eq (h : level.Chained)
    (hidentifiers : ∀ i ∈ identifiers, i ∈ level.reroutes) :
    ∃ replaced, level.removeReroutes identifiers = .ok (level.spliceOut identifiers replaced) ∧
      ∀ parent ids, Chain level.reroutes parent ids →
        replaced parent = ids.find? (· ∉ identifiers) := by
  have hfind : identifiers.toList.find? (· ∉ level.reroutes) = none := by
    simpa using hidentifiers
  have hclimb (i : κ) : ∃ parent, climb level.reroutes i (· ∉ identifiers)
      (fun parent => .error (.unknownReroute parent)) {i}
      (level.reroutes[i]?.bind (·.parent)) = .ok parent := by
    by_cases hi : i ∈ level.reroutes
    · obtain ⟨ids, hchain⟩ := h.reroute i hi
      exact ⟨_, climb_of_chain_cons hchain _ _⟩
    · exact ⟨none, by rw [ExtTreeMap.getElem?_eq_none hi, Option.bind_none, climb]⟩
  choose parent hparent using hclimb
  have hdistinct : (identifiers.toList.map fun i => (i, parent i)).Pairwise
      fun a b => ¬ compare a.1 b.1 = .eq :=
    List.pairwise_map.mpr identifiers.distinct_toList
  refine ⟨_, by simp only [removeReroutes, hfind, hparent, result_ok_bind, List.mapM_pure]; rfl,
    fun start ids hchain => ?_⟩
  cases hchain with
  | nil => rfl
  | @cons i reroute ids hreroute hfresh rest =>
    by_cases hi : i ∈ identifiers
    · have hmem : (i, parent i) ∈ identifiers.toList.map fun i => (i, parent i) :=
        List.mem_map_of_mem (ExtTreeSet.mem_toList.mpr hi)
      have hfirst := (hparent i).symm.trans (climb_of_chain_cons (.cons hreroute hfresh rest) _ _)
      rw [Option.bind_some, ExtTreeMap.getD_ofList_of_mem Std.ReflCmp.compare_self hdistinct hmem,
        Except.ok.inj hfirst]
      simp [hi]
    · rw [Option.bind_some, ExtTreeMap.getD_ofList_of_contains_eq_false (by simp [hi])]
      simp [hi]

omit [DecidableEq κ] in
theorem getElem?_spliceOut (level : GraphLevel κ ν) (identifiers : ExtTreeSet κ)
    (replaced : Option κ → Option κ) (i : κ) : (level.spliceOut identifiers replaced).reroutes[i]? =
      if i ∈ identifiers then none
      else level.reroutes[i]?.map fun reroute =>
        { reroute with parent := replaced reroute.parent } := by
  cases hi : level.reroutes[i]? with
  | none => simp [spliceOut, ExtTreeMap.getElem?_map, hi]
  | some reroute => by_cases hmem : i ∈ identifiers <;>
      simp [spliceOut, ExtTreeMap.getElem?_map, hi, hmem]

omit [DecidableEq κ] in
theorem chain_spliceOut {replaced : Option κ → Option κ} {parent : Option κ} {ids : List κ}
    (hreplaced : ∀ parent ids, Chain level.reroutes parent ids →
      replaced parent = ids.find? (· ∉ identifiers)) (h : Chain level.reroutes parent ids) :
    Chain (level.spliceOut identifiers replaced).reroutes (replaced parent)
      (ids.filter (· ∉ identifiers)) := by
  induction h with
  | nil =>
    rw [hreplaced none [] .nil]
    exact .nil
  | @cons identifier reroute ids hreroute hfresh rest ih =>
    rw [hreplaced _ _ (.cons hreroute hfresh rest)]
    by_cases hidentifier : identifier ∈ identifiers
    · simpa [hidentifier, hreplaced _ _ rest] using ih
    · have hafter : (level.spliceOut identifiers replaced).reroutes[identifier]? =
          some { reroute with parent := replaced reroute.parent } := by
        rw [getElem?_spliceOut, if_neg hidentifier, hreroute, Option.map_some]
      simpa [hidentifier] using
        Chain.cons hafter (fun hmem => hfresh (List.mem_of_mem_filter hmem)) ih

/-- What following parents gives is spliced: the order of the reroutes that stay is kept. -/
def SplicesChain (identifiers : ExtTreeSet κ) (before after : GraphLevel κ ν)
    (parent parent' : Option κ) : Prop :=
  ∃ ids, Chain before.reroutes parent ids ∧
    Chain after.reroutes parent' (ids.filter (· ∉ identifiers))

/-- Removing reroutes of a valid level takes them out of every chain, and out of nothing
else.  That the reroutes and links have chains afterwards says that the parents are still
known and without a cycle. -/
theorem removeReroutes_splices (before : GraphLevel κ ν) (identifiers : ExtTreeSet κ)
    (hvalid : before.validateReroutes = .ok ())
    (hidentifiers : ∀ i ∈ identifiers, i ∈ before.reroutes) :
    ∃ after, before.removeReroutes identifiers = .ok after ∧ after.nodes = before.nodes ∧
      (∀ i, i ∈ after.reroutes ↔ i ∈ before.reroutes ∧ i ∉ identifiers) ∧
      (∀ i ∈ after.reroutes, SplicesChain identifiers before after (some i) (some i)) ∧
      (∀ i, i ∈ after.links ↔ i ∈ before.links) ∧
      ∀ i : κ, ∀ link ∈ before.links[i]?, ∃ parentReroute,
        after.links[i]? = some { link with parentReroute } ∧
          SplicesChain identifiers before after link.parentReroute parentReroute := by
  have hchained := chained_of_validateReroutes hvalid
  obtain ⟨replaced, hremove, hreplaced⟩ := removeReroutes_eq hchained hidentifiers
  have hreroutes (i : κ) : i ∈ (before.spliceOut identifiers replaced).reroutes ↔
      i ∈ before.reroutes ∧ i ∉ identifiers := by
    rw [ExtTreeMap.mem_iff_isSome_getElem?, getElem?_spliceOut, ExtTreeMap.mem_iff_isSome_getElem?]
    split_ifs with hi <;> simp [hi]
  refine ⟨_, hremove, rfl, hreroutes, ?_, fun i => ExtTreeMap.mem_map, ?_⟩
  · intro i hi
    obtain ⟨hmem, hout⟩ := (hreroutes i).mp hi
    obtain ⟨ids, hchain⟩ := hchained.reroute i hmem
    have hfirst := hreplaced _ _ hchain
    rw [List.find?_cons_of_pos (by simpa using hout)] at hfirst
    exact ⟨_, hchain, hfirst ▸ chain_spliceOut hreplaced hchain⟩
  · intro i link hlink
    refine ⟨replaced link.parentReroute, ?_, ?_⟩
    · rw [spliceOut, ExtTreeMap.getElem?_map, hlink, Option.map_some]
    · cases hparent : link.parentReroute with
      | none => exact ⟨[], .nil, chain_spliceOut hreplaced .nil⟩
      | some p =>
        obtain ⟨ids, hchain⟩ := hchained.reroute p (hchained.link i link hlink p hparent)
        exact ⟨_, hchain, chain_spliceOut hreplaced hchain⟩

/-- A link runs through the reroutes 1, 2 and 3. -/
def threeReroutes : GraphLevel Nat Unit where
  nodes := ∅
  links := .ofList [(7, GraphLink.mk 7 4 0 5 0 "IMAGE" (some 3))]
  reroutes := .ofList [(1, GraphReroute.mk 1 none), (2, .mk 2 (some 1)), (3, .mk 3 (some 2))]
  selection := .ofList [2]

theorem removeReroutes_splices_three :
    ∃ after, threeReroutes.removeReroutes (.ofList [2]) = .ok after ∧
      SplicesChain (.ofList [2]) threeReroutes after (some 3) (some 3) := by
  obtain ⟨after, hremove, -, hreroutes, hchains, -⟩ :=
    removeReroutes_splices threeReroutes (.ofList [2]) (by decide +kernel) (by
      intro i hi
      obtain rfl : 2 = i := by simpa using hi
      decide +kernel)
  exact ⟨after, hremove, hchains 3 ((hreroutes 3).mpr (by decide +kernel))⟩

end GraphLevel
end XorEditor.Comfy
