import Mathlib.Algebra.Group.Nat.Defs
import Mathlib.Data.List.Sort

/-!
# Plain data of the workflow runtime

Byte strings, identifiers of 128 bits, and the arithmetic on `usize`: sizes and counts are
natural numbers, with the bound of 64 bits written out where the code checks for overflow.

* `Uuid`: an identifier
* `checkedAdd`, `checkedSub`: the arithmetic
-/

namespace XorEditor.Comfy

abbrev Bytes := List UInt8

structure Uuid where
  value : Nat
  deriving DecidableEq, Repr

def Uuid.isNil (uuid : Uuid) : Bool := uuid.value == 0

instance : Ord Uuid := ⟨compareOn Uuid.value⟩

instance : Std.TransOrd Uuid := inferInstanceAs (Std.TransCmp (compareOn Uuid.value))

instance : Std.LawfulEqOrd Uuid where
  eq_of_compare {a b} h := by
    have hvalue : a.value = b.value := Std.LawfulEqOrd.eq_of_compare h
    cases a
    cases b
    exact congrArg Uuid.mk hvalue

def usizeMax : Nat := 2 ^ 64 - 1

def u64Max : Nat := 2 ^ 64 - 1

def checkedAdd (a b : Nat) : Option Nat :=
  if a + b ≤ usizeMax then some (a + b) else none

def checkedSub (a b : Nat) : Option Nat :=
  if b ≤ a then some (a - b) else none

theorem checkedAdd_eq_some {a b c : Nat} :
    checkedAdd a b = some c ↔ a + b ≤ usizeMax ∧ c = a + b := by
  unfold checkedAdd
  by_cases h : a + b ≤ usizeMax
  · simp [h, eq_comm]
  · simp [h]

/-- Control characters, as `char::is_control` has them. -/
def isControl (c : Char) : Bool :=
  c.toNat ≤ 0x1f || (0x7f ≤ c.toNat && c.toNat ≤ 0x9f)

end XorEditor.Comfy
