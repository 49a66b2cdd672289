import Mathlib.Algebra.GroupWithZero.Nat
import XorEditor.Lib.MapEntries

/-!
# Identifiers, counters and timestamps

The identifiers of the collaboration records are uuids, their versions and generations are
positive 64-bit counters, and their times are milliseconds in 64 bits.

* `NonZeroUInt`: the positive counters
* `AggregateVersion`: the version of a record
-/

namespace XorEditor.Collaboration

/-- A 64-bit unsigned number, for times in milliseconds. -/
abbrev U64 := Fin (2 ^ 64)

instance instNeZeroU64 : NeZero (2 ^ 64) := ⟨by decide⟩

/-- `checked_add` of 64-bit numbers. -/
def U64.checkedAdd (a b : U64) : Option U64 :=
  if h : a.val + b.val < 2 ^ 64 then some ⟨a.val + b.val, h⟩ else none

theorem U64.checkedAdd_eq_some_iff {a b c : U64} :
    U64.checkedAdd a b = some c ↔ a.val + b.val = c.val := by
  unfold U64.checkedAdd
  split
  · rw [Option.some.injEq, Fin.ext_iff]
  · simp only [reduceCtorEq, false_iff]
    omega

/-- `char::is_control`: the control characters of Unicode. -/
def isControl (c : Char) : Bool := c.toNat < 0x20 || (0x7F ≤ c.toNat && c.toNat < 0xA0)

/-! ### Identifiers -/

structure CommunityId where
  value : Nat
  deriving DecidableEq, Repr

structure AggregateId where
  value : Nat
  deriving DecidableEq, Repr

structure PrincipalId where
  value : Nat
  deriving DecidableEq, Repr

def CommunityId.isNil (id : CommunityId) : Bool := id.value == 0

def AggregateId.isNil (id : AggregateId) : Bool := id.value == 0

def PrincipalId.isNil (id : PrincipalId) : Bool := id.value == 0

instance : Ord PrincipalId where
  compare := compareOn PrincipalId.value

instance : Std.TransOrd PrincipalId :=
  inferInstanceAs (Std.TransCmp (compareOn PrincipalId.value))

instance : Std.LawfulEqOrd PrincipalId :=
  Lib.MapEntries.lawfulEqCmp_compareOn fun a b h => by cases a; cases b; simpa using h

instance : Ord AggregateId where
  compare := compareOn AggregateId.value

instance : Std.TransOrd AggregateId :=
  inferInstanceAs (Std.TransCmp (compareOn AggregateId.value))

instance : Std.LawfulEqOrd AggregateId :=
  Lib.MapEntries.lawfulEqCmp_compareOn fun a b h => by cases a; cases b; simpa using h

/-- A Nostr event is named by its digest. -/
structure NostrEventId where
  bytes : BitVec 256
  deriving DecidableEq, Repr

/-! ### Positive counters -/

/-- A positive number of `w` bits. -/
@[ext]
structure NonZeroUInt (w : Nat) where
  get : Nat
  pos : 0 < get
  lt : get < 2 ^ w
  deriving DecidableEq, Repr

namespace NonZeroUInt

variable {w : Nat}

def new (value : Nat) : Option (NonZeroUInt w) :=
  if h : 0 < value ∧ value < 2 ^ w then some ⟨value, h.1, h.2⟩ else none

def next (self : NonZeroUInt w) : Option (NonZeroUInt w) := new (self.get + 1)

end NonZeroUInt

abbrev NonZeroU32 := NonZeroUInt 32

abbrev NonZeroU64 := NonZeroUInt 64

def NonZeroU64.first : NonZeroU64 := ⟨1, by decide, by decide⟩

/-- What follows the first version. -/
def NonZeroU64.second : NonZeroU64 := ⟨2, by decide, by decide⟩

abbrev AggregateVersion := NonZeroU64

end XorEditor.Collaboration
