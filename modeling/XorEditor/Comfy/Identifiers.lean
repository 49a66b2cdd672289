import Mathlib.Order.Interval.Finset.Nat
import XorEditor.Comfy.CanvasLock
import XorEditor.Comfy.Primitives
import XorEditor.Lib.Loop

/-!
# Fresh identifiers

A document names what it creates `zed-1`, `zed-2` and so on, from a counter that stays above
the numbers in use and saturates at the largest 64-bit number.

* `allocateIdentifier`: the next identifier
* `allocatesFresh_iff`: when it is not in use
-/

namespace XorEditor.Comfy.Canvas

open Lib

inductive GraphIdentifier
  | integer (value : Int)
  | string (value : String)
  deriving DecidableEq

/-- `str::parse::<u64>`. -/
def parseU64 (text : List Char) : Option Nat :=
  let digits := if text.head? = some '+' then text.tail else text
  let number := Nat.ofDigitChars 10 digits 0
  if digits ≠ [] ∧ digits.all Char.isDigit ∧ number ≤ u64Max then some number else none

def GraphIdentifier.numericIdentifier : GraphIdentifier → Option Nat
  | integer value => if 0 ≤ value then some value.toNat else none
  | string value =>
    match value.toList with
    | 'z' :: 'e' :: 'd' :: '-' :: number => parseU64 number
    | _ => none

/-- A level; its content are the keys of its nodes, links, groups and reroutes. -/
abbrev KeyLevel := GraphLevel GraphIdentifier (List GraphIdentifier)

mutual

/-- What `contains_identifier` looks through: the level and all levels inside. -/
def identifiers : KeyLevel → List GraphIdentifier
  | ⟨_, definitions, keys⟩ => keys ++ definitionIdentifiers definitions

def definitionIdentifiers : List (GraphIdentifier × KeyLevel) → List GraphIdentifier
  | [] => []
  | (identifier, graph) :: definitions =>
    identifier :: (identifiers graph ++ definitionIdentifiers definitions)

end

def maximumNumericIdentifier (root : KeyLevel) : Nat :=
  (identifiers root).foldl
    (fun maximum identifier => max maximum (identifier.numericIdentifier.getD 0)) 0

structure NumberedDocument extends GraphDocument GraphIdentifier (List GraphIdentifier) where
  nextIdentifier : Nat
  le_max : nextIdentifier ≤ u64Max

namespace NumberedDocument

/-- The counter of a document that is loaded from a workflow. -/
def fromWorkflow (root : KeyLevel) : NumberedDocument where
  root
  navigation := []
  nextIdentifier := min (maximumNumericIdentifier root + 1) u64Max
  le_max := Nat.min_le_right ..

def generated (number : Nat) : GraphIdentifier := .string ("zed-" ++ toString number)

variable (document : NumberedDocument)

def InUse (number : Nat) : Prop := generated number ∈ identifiers document.root

instance (number : Nat) : Decidable (document.InUse number) := inferInstanceAs (Decidable (_ ∈ _))

/-- The loop of `next_available_identifier`.  At its largest value the counter does not change
any more: if that is in use, the loop never ends, which is the value `none`. -/
def searchFrom (number : Nat) : Option GraphIdentifier :=
  if ¬ document.InUse number then some (generated number)
  else if number < u64Max then searchFrom (number + 1)
  else none
termination_by u64Max - number

def advanceIdentifierCounter (identifier : GraphIdentifier) : NumberedDocument :=
  match identifier.numericIdentifier with
  | none => document
  | some number =>
    { document with
      nextIdentifier := max document.nextIdentifier (min (number + 1) u64Max)
      le_max := Nat.max_le.mpr ⟨document.le_max, Nat.min_le_right ..⟩ }

def allocateIdentifier : Option (GraphIdentifier × NumberedDocument) :=
  (document.searchFrom document.nextIdentifier).map fun identifier =>
    (identifier, document.advanceIdentifierCounter identifier)

/-- Successive calls of `allocate_identifier`. -/
def allocateAll : Nat → NumberedDocument → Option (List GraphIdentifier)
  | 0, _ => some []
  | calls + 1, document => do
    let (identifier, document) ← document.allocateIdentifier
    let identifiers ← allocateAll calls document
    return identifier :: identifiers

/-- The calls all return, with different identifiers that are not in use. -/
def AllocatesFresh (calls : Nat) : Prop :=
  ∃ allocated, allocateAll calls document = some allocated ∧ allocated.Nodup ∧
    ∀ identifier ∈ allocated, identifier ∉ identifiers document.root

/-- The numbers from this one on that are not in use. -/
def freeFrom (number : Nat) : Finset Nat :=
  (Finset.Icc number u64Max).filter (¬ document.InUse ·)

variable {document} {number other : Nat}

theorem mem_freeFrom : other ∈ document.freeFrom number ↔
    (number ≤ other ∧ other ≤ u64Max) ∧ ¬ document.InUse other := by
  rw [freeFrom, Finset.mem_filter, Finset.mem_Icc]

theorem numericIdentifier_generated (h : number ≤ u64Max) :
    (generated number).numericIdentifier = some number := by
  have hall : ∀ c ∈ Nat.toDigits 10 number, c.isDigit = true := fun c hc =>
    Nat.isDigit_of_mem_toDigits (by decide) (by decide) hc
  have hsign : (Nat.toDigits 10 number).head? ≠ some '+' := fun hhead =>
    absurd (hall '+' (List.mem_of_head? hhead)) (by decide)
  have hparse : parseU64 (Nat.toDigits 10 number) = some number := by
    simp only [parseU64, if_neg hsign, Nat.ofDigitChars_ten_toDigits]
    exact if_pos ⟨Nat.toDigits_ne_nil, List.all_eq_true.mpr hall, h⟩
  simp [generated, GraphIdentifier.numericIdentifier, hparse]

/-- The loop returns with the first number that is not in use. -/
theorem searchFrom_spec (h : number ≤ u64Max) :
    match document.searchFrom number with
    | some identifier => ∃ first ∈ document.freeFrom number, identifier = generated first ∧
        ∀ other ∈ document.freeFrom number, first ≤ other
    | none => document.freeFrom number = ∅ := by
  fun_induction searchFrom document number with
  | case1 number hfree =>
    exact ⟨number, mem_freeFrom.mpr ⟨⟨Nat.le_refl _, h⟩, hfree⟩, rfl, fun other hother =>
      (mem_freeFrom.mp hother).1.1⟩
  | case2 number hused hlt ih =>
    have hsame : document.freeFrom number = document.freeFrom (number + 1) := by
      ext other
      rw [mem_freeFrom, mem_freeFrom]
      grind
    rw [hsame]
    exact ih hlt
  | case3 number hused hlast =>
    refine Finset.eq_empty_of_forall_notMem fun other hother => ?_
    rw [mem_freeFrom] at hother
    grind

theorem freeFrom_advance (hle : document.nextIdentifier ≤ number) (hmax : number ≤ u64Max) :
    (document.advanceIdentifierCounter (generated number)).freeFrom
        (document.advanceIdentifierCounter (generated number)).nextIdentifier =
      document.freeFrom (min (number + 1) u64Max) := by
  unfold advanceIdentifierCounter
  rw [numericIdentifier_generated hmax]
  exact congrArg document.freeFrom (Nat.max_eq_right (by omega))

/-- Calls return with identifiers of free numbers, and while there are enough of them no one
comes twice. -/
theorem allocateAll_spec (calls : Nat) (document : NumberedDocument) :
    match allocateAll calls document with
    | some allocated => allocated.length = calls ∧
        (∀ identifier ∈ allocated, ∃ number ∈ document.freeFrom document.nextIdentifier,
          generated number = identifier) ∧
        (calls ≤ (document.freeFrom document.nextIdentifier).card → allocated.Nodup)
    | none => (document.freeFrom document.nextIdentifier).card < calls := by
  induction calls generalizing document with
  | zero => simp [allocateAll]
  | succ calls ih =>
    have hspec := document.searchFrom_spec document.le_max
    unfold allocateAll allocateIdentifier
    cases hsearch : document.searchFrom document.nextIdentifier with
    | none =>
      rw [hsearch] at hspec
      simp [hspec]
    | some identifier =>
      rw [hsearch] at hspec
      obtain ⟨first, hfirst, rfl, hleast⟩ := hspec
      obtain ⟨⟨hle, hmax⟩, -⟩ := mem_freeFrom.mp hfirst
      have hrest := ih (document.advanceIdentifierCounter (generated first))
      rw [freeFrom_advance hle hmax] at hrest
      have hlater : ∀ other ∈ (document.freeFrom document.nextIdentifier).erase first,
          first < other ∧ other ∈ document.freeFrom (min (first + 1) u64Max) := by
        intro other hother
        obtain ⟨hne, hmem⟩ := Finset.mem_erase.mp hother
        have hlt := Nat.lt_of_le_of_ne (hleast other hmem) hne.symm
        rw [mem_freeFrom] at hmem ⊢
        exact ⟨hlt, ⟨by omega, hmem.1.2⟩, hmem.2⟩
      have hcard := Finset.card_le_card fun other hother => (hlater other hother).2
      rw [Finset.card_erase_of_mem hfirst] at hcard
      simp only [Option.map_some, some_do]
      cases hcalls : allocateAll calls (document.advanceIdentifierCounter (generated first)) with
      | none =>
        rw [hcalls] at hrest
        exact Nat.lt_succ_of_le (Nat.le_of_pred_lt (hcard.trans_lt hrest))
      | some rest =>
        rw [hcalls] at hrest
        obtain ⟨rfl, hfree, hnodup⟩ := hrest
        refine ⟨rfl, List.forall_mem_cons.mpr ⟨⟨first, hfirst, rfl⟩, fun identifier hmem => ?_⟩,
          fun h => List.nodup_cons.mpr ⟨fun hmem => ?_, hnodup (by omega)⟩⟩
        · obtain ⟨number, hnumber, hidentifier⟩ := hfree identifier hmem
          rw [mem_freeFrom] at hnumber
          exact ⟨number, mem_freeFrom.mpr ⟨⟨by omega, hnumber.1.2⟩, hnumber.2⟩, hidentifier⟩
        · -- the largest number would come again, but then no other one was free
          obtain ⟨number, hnumber, hsame⟩ := hfree _ hmem
          obtain ⟨hbounds, -⟩ := mem_freeFrom.mp hnumber
          have hnumber := numericIdentifier_generated hbounds.2
          rw [hsame, numericIdentifier_generated hmax, Option.some.injEq] at hnumber
          have hpos := List.length_pos_of_mem hmem
          obtain ⟨other, hother, hne⟩ :=
            Finset.exists_mem_ne ((Nat.succ_lt_succ hpos).trans_le h) first
          obtain ⟨hbetween, hlast⟩ := hlater other (Finset.mem_erase.mpr ⟨hne, hother⟩)
          rw [mem_freeFrom] at hlast
          omega

/-- **Fresh identifiers.**  So many successive calls return with different identifiers not in
use, exactly if as many numbers from the counter on are free. -/
theorem allocatesFresh_iff (document : NumberedDocument) (calls : Nat) :
    document.AllocatesFresh calls ↔
      calls ≤ (document.freeFrom document.nextIdentifier).card := by
  have hspec := allocateAll_spec calls document
  unfold AllocatesFresh
  cases hall : allocateAll calls document with
  | none =>
    rw [hall] at hspec
    simpa using hspec
  | some allocated =>
    rw [hall] at hspec
    obtain ⟨rfl, hfree, hnodup⟩ := hspec
    simp only [Option.some.injEq, exists_eq_left']
    refine ⟨fun ⟨hnodup, _⟩ => ?_, fun h => ⟨hnodup h, fun identifier hmem => ?_⟩⟩
    · rw [← List.toFinset_card_of_nodup hnodup]
      refine (Finset.card_le_card fun identifier hmem => ?_).trans
        (Finset.card_image_le (f := generated))
      exact Finset.mem_image.mpr (hfree identifier (List.mem_toFinset.mp hmem))
    · obtain ⟨number, hnumber, rfl⟩ := hfree identifier hmem
      exact (mem_freeFrom.mp hnumber).2

/-- With the largest number in use, not even one call returns. -/
theorem not_allocatesFresh_of_largest :
    ¬ (fromWorkflow ⟨false, [], [.string "zed-18446744073709551615"]⟩).AllocatesFresh 1 := by
  have hlargest : GraphIdentifier.string "zed-18446744073709551615" = generated u64Max := by
    decide +kernel
  have hmaximum := numericIdentifier_generated (Nat.le_refl u64Max)
  rintro ⟨allocated, h, -⟩
  unfold allocateAll allocateIdentifier searchFrom at h
  simp [fromWorkflow, maximumNumericIdentifier, identifiers, definitionIdentifiers, hlargest,
    hmaximum, InUse] at h

end NumberedDocument

end XorEditor.Comfy.Canvas
