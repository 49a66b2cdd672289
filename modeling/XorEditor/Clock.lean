import Mathlib.Algebra.Group.Nat.Defs
import Mathlib.Data.List.DropRight
import Mathlib.Data.List.GetD
import Mathlib.Order.Lattice

/-!
# Logical clocks

Lamport timestamps and version vectors of the `clock` crate.

A `Lamport` timestamp is ordered by its sequence number, ties being broken by the replica id.
`tick` and `observe` increment a `u32`; the overflow of that increment is a panic and is
modelled as `none`.

A `Global` is a version vector.  The source stores one sequence number per replica id in a
`SmallVec`; none of its operations leaves a zero component at the end, so the vector carries
that fact and two vectors with the same components are equal.

* `Lamport`, `Global`: the timestamps and the vectors
* `Global.observedAll_iff`: the order of the vectors
* `Global.observedAny_meet_iff`: what is observed of a meet
-/

namespace XorEditor.Clock

open List

/-- `ReplicaId::LOCAL`.  A replica id is a `u16` in the source. -/
def replicaIdLocal : Nat := 0

/-- A Lamport timestamp: the sequence number and the replica that issued it. -/
structure Lamport where
  value : Nat
  replicaId : Nat
deriving DecidableEq, Repr, Inhabited

namespace Lamport

/-- Sequence numbers are compared first, replica ids break ties. -/
instance : LE Lamport where
  le a b := a.value < b.value ∨ (a.value = b.value ∧ a.replicaId ≤ b.replicaId)

instance : LT Lamport where
  lt a b := a.value < b.value ∨ (a.value = b.value ∧ a.replicaId < b.replicaId)

variable {a b clock timestamp clock' : Lamport}

theorem le_iff :
    a ≤ b ↔ a.value < b.value ∨ (a.value = b.value ∧ a.replicaId ≤ b.replicaId) := Iff.rfl

theorem lt_iff :
    a < b ↔ a.value < b.value ∨ (a.value = b.value ∧ a.replicaId < b.replicaId) := Iff.rfl

instance (a b : Lamport) : Decidable (a ≤ b) := decidable_of_iff' _ le_iff

instance (a b : Lamport) : Decidable (a < b) := decidable_of_iff' _ lt_iff

instance : LinearOrder Lamport where
  le_refl a := by simp [le_iff]
  le_trans a b c hab hbc := by
    simp only [le_iff] at *
    omega
  lt_iff_le_not_ge a b := by
    simp only [le_iff, lt_iff]
    omega
  le_antisymm a b hab hba := by
    obtain ⟨av, ar⟩ := a
    obtain ⟨bv, br⟩ := b
    simp only [le_iff] at hab hba
    have hvalue : av = bv := by omega
    have hreplica : ar = br := by omega
    rw [hvalue, hreplica]
  le_total a b := by
    simp only [le_iff]
    omega
  toDecidableLE := inferInstance

/-- `Lamport::MIN`. -/
def MIN : Lamport := { value := 0, replicaId := 0 }

/-- `Lamport::MAX`. -/
def MAX : Lamport := { value := 2 ^ 32 - 1, replicaId := 2 ^ 16 - 1 }

/-- `Lamport::new`: the first timestamp of a replica. -/
def new (replicaId : Nat) : Lamport := { value := 1, replicaId }

/-- `Lamport::tick`: returns the current timestamp and advances the clock.
Overflow of the `u32` sequence number panics. -/
def tick (clock : Lamport) : Option (Lamport × Lamport) :=
  if clock.value + 1 < 2 ^ 32 then
    some (clock, { clock with value := clock.value + 1 })
  else
    none

/-- `Lamport::observe`: moves the clock past an observed timestamp. -/
def observe (clock timestamp : Lamport) : Option Lamport :=
  if max clock.value timestamp.value + 1 < 2 ^ 32 then
    some { clock with value := max clock.value timestamp.value + 1 }
  else
    none

theorem tick_eq_some : tick clock = some (timestamp, clock') ↔
      clock.value + 1 < 2 ^ 32 ∧ timestamp = clock ∧
        clock' = { clock with value := clock.value + 1 } := by
  rw [tick, Option.ite_none_right_eq_some, Option.some.injEq, Prod.mk.injEq]
  exact and_congr_right fun _ => and_congr eq_comm eq_comm

theorem observe_eq_some : observe clock timestamp = some clock' ↔
      max clock.value timestamp.value + 1 < 2 ^ 32 ∧
        clock' = { clock with value := max clock.value timestamp.value + 1 } := by
  rw [observe, Option.ite_none_right_eq_some, Option.some.injEq]
  exact and_congr_right fun _ => eq_comm

end Lamport

/-- The components of a version vector, indexed by replica id.  Missing components are
zero, and the last component is never zero. -/
structure Global where
  values : List Nat
  trimmed : 0 < values.length → 0 < values.getD (values.length - 1) 0
deriving DecidableEq

namespace Global

variable (values : List Nat)

/-- `Vec::resize` with zeros, for a length that only grows. -/
def grow (newLen : Nat) : List Nat :=
  values ++ List.replicate (newLen - values.length) 0

@[simp] theorem length_grow (newLen : Nat) :
    (grow values newLen).length = max values.length newLen := by
  simp [grow]
  omega

@[simp] theorem getD_grow (newLen i : Nat) : (grow values newLen).getD i 0 = values.getD i 0 := by
  rw [grow]
  by_cases hi : i < values.length
  · rw [getD_append _ _ _ _ hi]
  · have hge := Nat.le_of_not_lt hi
    rw [getD_append_right _ _ _ _ hge, getD_eq_default _ _ hge]
    simp

/-- `Global::new`: nothing has been observed. -/
def new : Global := { values := [], trimmed := by simp }

instance : Inhabited Global := ⟨new⟩

/-- `Global::get`: the sequence number observed for a replica, zero if none. -/
def get (self : Global) (replicaId : Nat) : Nat := self.values.getD replicaId 0

@[simp] theorem get_new (replicaId : Nat) : new.get replicaId = 0 := by
  simp [new, get]

theorem get_eq_zero (self : Global) {r : Nat} (h : self.values.length ≤ r) : self.get r = 0 :=
  getD_eq_default _ _ h

/-- Vectors with the same components are equal, because neither ends in a zero. -/
theorem ext_get {a b : Global} (h : ∀ r, a.get r = b.get r) : a = b := by
  have hle : ∀ x y : Global, (∀ r, x.get r = y.get r) → x.values.length ≤ y.values.length := by
    intro x y hxy
    by_contra hlt
    have hpos := x.trimmed (by omega)
    have hx := hxy (x.values.length - 1)
    rw [get_eq_zero y (by omega)] at hx
    unfold get at hx
    omega
  have hlen : a.values.length = b.values.length :=
    Nat.le_antisymm (hle a b h) (hle b a fun r => (h r).symm)
  obtain ⟨avs, ha⟩ := a
  obtain ⟨bvs, hb⟩ := b
  congr
  apply ext_getElem hlen
  intro i hia hib
  have hi := h i
  simpa [get, getD_eq_getElem?_getD, hia, hib] using hi

/-- Raw `Global::observe`. -/
def observeValues (timestamp : Lamport) : List Nat :=
  if 0 < timestamp.value then
    let values := grow values (timestamp.replicaId + 1)
    values.set timestamp.replicaId
      (max (values.getD timestamp.replicaId 0) timestamp.value)
  else
    values

theorem getD_set_max (i r x : Nat) (hr : r < values.length) :
    (values.set r x).getD i 0 = if i = r then x else values.getD i 0 := by
  simp only [getD_eq_getElem?_getD, getElem?_set]
  by_cases hir : r = i
  · subst hir
    simp [hr]
  · simp [hir, Ne.symm hir]

theorem getD_observeValues (timestamp : Lamport) (r : Nat) :
    (observeValues values timestamp).getD r 0 =
      if r = timestamp.replicaId then max (values.getD r 0) timestamp.value
      else values.getD r 0 := by
  unfold observeValues
  split
  · rw [getD_set_max _ _ _ _ (by simp)]
    simp only [getD_grow]
    split
    · rename_i hr
      rw [hr]
    · rfl
  · split
    · omega
    · rfl

theorem length_observeValues (timestamp : Lamport) : (observeValues values timestamp).length =
      if 0 < timestamp.value then max values.length (timestamp.replicaId + 1)
      else values.length := by
  unfold observeValues
  split <;> simp

/-- `Global::observe`: the component of the timestamp's replica becomes at least the
timestamp's sequence number. -/
def observe (self : Global) (timestamp : Lamport) : Global where
  values := observeValues self.values timestamp
  trimmed := by
    intro hpos
    have htrim := self.trimmed
    by_cases hvalue : 0 < timestamp.value
    · rw [length_observeValues, if_pos hvalue] at hpos ⊢
      rw [getD_observeValues]
      by_cases hlt : self.values.length < timestamp.replicaId + 1
      · rw [Nat.max_eq_right (Nat.le_of_lt hlt), Nat.add_sub_cancel, if_pos rfl]
        omega
      · rw [Nat.max_eq_left (by omega)] at hpos ⊢
        have hlast := htrim hpos
        split
        · exact Nat.lt_of_lt_of_le hlast (Nat.le_max_left _ _)
        · exact hlast
    · rw [observeValues, if_neg hvalue] at hpos ⊢
      exact htrim hpos

@[simp] theorem get_observe (self : Global) (timestamp : Lamport) (r : Nat) :
    (self.observe timestamp).get r =
      if r = timestamp.replicaId then max (self.get r) timestamp.value
      else self.get r :=
  getD_observeValues self.values timestamp r

/-- The components of two vectors, paired, over the common replica ids. -/
def pairs (self other : Global) : List (Nat × Nat) := self.values.zip other.values

/-- The components of two vectors combined, over the replica ids of the longer one. -/
def combine (f : Nat → Nat → Nat) (left right : List Nat) : List Nat :=
  let grown := grow left right.length
  List.zipWith f grown right ++ grown.drop right.length

section Combine

variable {f : Nat → Nat → Nat} (hzero : ∀ n, f n 0 = n)

theorem length_combine (left right : List Nat) :
    (combine f left right).length = max left.length right.length := by
  simp [combine]

include hzero

theorem getD_combine (left right : List Nat) (r : Nat) :
    (combine f left right).getD r 0 = f (left.getD r 0) (right.getD r 0) := by
  have hgrow := getD_grow left right.length r
  have hlen := length_grow left right.length
  simp only [combine]
  generalize grow left right.length = grown at hgrow hlen ⊢
  have hzip : (List.zipWith f grown right).length = right.length := by
    simp only [length_zipWith]
    omega
  rw [← hgrow]
  by_cases hr : r < right.length
  · have hr' : r < grown.length := by omega
    rw [getD_eq_getElem?_getD, getElem?_append_left (by omega)]
    simp [getD_eq_getElem?_getD, hr, hr']
  · rw [getD_eq_getElem?_getD, getElem?_append_right (by omega), hzip,
      getElem?_drop, show right.length + (r - right.length) = r by omega]
    simp [getD_eq_getElem?_getD, getElem?_eq_none (show right.length ≤ r by omega), hzero]

/-- The last component comes from one of the vectors. -/
theorem combine_trimmed (hpos : ∀ l r, 0 < l ∨ 0 < r → 0 < f l r) (self other : Global)
    (hne : 0 < (combine f self.values other.values).length) :
    0 < (combine f self.values other.values).getD
      ((combine f self.values other.values).length - 1) 0 := by
  rw [length_combine] at hne ⊢
  rw [getD_combine hzero]
  have hself := self.trimmed
  have hother := other.trimmed
  refine hpos _ _ ?_
  rcases Nat.le_total self.values.length other.values.length with hle | hle
  · rw [Nat.max_eq_right hle] at hne ⊢
    exact Or.inr (hother hne)
  · rw [Nat.max_eq_left hle] at hne ⊢
    exact Or.inl (hself hne)

end Combine

/-- Raw `Global::join`. -/
def joinValues (left right : List Nat) : List Nat :=
  let grown := grow left right.length
  List.zipWith max grown right ++ grown.drop right.length

/-- `Global::join`: the componentwise maximum. -/
def join (self other : Global) : Global where
  values := joinValues self.values other.values
  trimmed := combine_trimmed Nat.max_zero (fun _ _ h => by omega) self other

@[simp] theorem get_join (self other : Global) (r : Nat) :
    (self.join other).get r = max (self.get r) (other.get r) :=
  getD_combine Nat.max_zero self.values other.values r

/-- What `meet` makes of the sequence numbers of one replica: zero is not observed. -/
def meetSeq (left right : Nat) : Nat :=
  if left = 0 then right else if right = 0 then left else min left right

/-- Raw `Global::meet`.  The vector is truncated behind its last nonzero component unless the
tail of `left`, which does not end in a zero, has not been visited. -/
def meetValues (left right : List Nat) : List Nat :=
  let met := combine meetSeq left right
  if right.length = met.length then met.rdropWhile (· == 0) else met

theorem meetSeq_zero (n : Nat) : meetSeq n 0 = n := by
  simp +contextual [meetSeq]

theorem meetSeq_trimmed (self other : Global) :
    0 < (combine meetSeq self.values other.values).length →
      0 < (combine meetSeq self.values other.values).getD
        ((combine meetSeq self.values other.values).length - 1) 0 := by
  refine combine_trimmed meetSeq_zero (fun l r hpos => ?_) self other
  unfold meetSeq
  split_ifs <;> omega

/-- Neither vector ends in a zero, so that nothing is truncated. -/
theorem meetValues_eq (self other : Global) :
    meetValues self.values other.values = combine meetSeq self.values other.values := by
  have htrimmed := meetSeq_trimmed self other
  rw [meetValues]
  split
  · refine rdropWhile_eq_self_iff.mpr fun hne => ?_
    have hlast := htrimmed (length_pos_of_ne_nil hne)
    rw [getD_eq_getElem _ _ (Nat.sub_lt (length_pos_of_ne_nil hne) Nat.one_pos)] at hlast
    simpa [getLast_eq_getElem] using hlast.ne'
  · rfl

/-- `Global::meet`: the minimum of the components that are not zero. -/
def meet (self other : Global) : Global where
  values := meetValues self.values other.values
  trimmed := by
    rw [meetValues_eq]
    exact meetSeq_trimmed self other

@[simp] theorem get_meet (self other : Global) (r : Nat) :
    (self.meet other).get r = meetSeq (self.get r) (other.get r) := by
  change (meetValues self.values other.values).getD r 0 = _
  rw [meetValues_eq, getD_combine meetSeq_zero]
  rfl

/-- `Global::observed`. -/
def observed (self : Global) (timestamp : Lamport) : Bool :=
  decide (timestamp.value ≤ self.get timestamp.replicaId)

variable {self other : Global} {timestamp : Lamport}

theorem observed_iff :
    self.observed timestamp = true ↔ timestamp.value ≤ self.get timestamp.replicaId := by
  simp [observed]

/-- `Global::observed_any`. -/
def observedAny (self other : Global) : Bool :=
  (self.pairs other).any fun p => decide (0 < p.2 ∧ p.2 ≤ p.1)

/-- `Global::observed_all`. -/
def observedAll (self other : Global) : Bool :=
  if self.values.length < other.values.length then
    false
  else
    (self.pairs other).all fun p => decide (p.2 ≤ p.1)

theorem mem_pairs {p : Nat × Nat} : p ∈ self.pairs other ↔
      ∃ r, r < self.values.length ∧ r < other.values.length ∧ p = (self.get r, other.get r) := by
  simp only [pairs, mem_iff_getElem, length_zip, getElem_zip]
  constructor
  · rintro ⟨r, hr, rfl⟩
    have hself : r < self.values.length := by omega
    have hother : r < other.values.length := by omega
    exact ⟨r, hself, hother, by simp [get, getD_eq_getElem?_getD, hself, hother]⟩
  · rintro ⟨r, hself, hother, rfl⟩
    exact ⟨r, by omega, by simp [get, getD_eq_getElem?_getD, hself, hother]⟩

/-- `observed_all` compares every component, the length check included. -/
theorem observedAll_iff : self.observedAll other = true ↔ ∀ r, other.get r ≤ self.get r := by
  unfold observedAll
  split
  · rename_i hlt
    simp only [Bool.false_eq_true, false_iff, not_forall, not_le]
    refine ⟨other.values.length - 1, ?_⟩
    rw [get_eq_zero _ (by omega)]
    exact other.trimmed (by omega)
  · rename_i hle
    simp only [all_eq_true, mem_pairs, decide_eq_true_eq]
    constructor
    · intro hall r
      by_cases hr : r < other.values.length
      · exact hall _ ⟨r, by omega, hr, rfl⟩
      · rw [get_eq_zero other (by omega)]
        exact Nat.zero_le _
    · rintro hall p ⟨r, -, -, rfl⟩
      exact hall r

theorem observedAll_self (version : Global) : version.observedAll version = true :=
  observedAll_iff.mpr fun _ => Nat.le_refl _

/-- What contains a version after an operation. -/
theorem observedAll_observe_iff : self.observedAll (other.observe timestamp) = true ↔
      self.observedAll other = true ∧ self.observed timestamp = true := by
  simp only [observedAll_iff, observed_iff, get_observe]
  constructor
  · intro h
    refine ⟨fun r => ?_, ?_⟩
    · have := h r
      split at this <;> omega
    · have := h timestamp.replicaId
      rw [if_pos rfl] at this
      omega
  · rintro ⟨hall, hvalue⟩ r
    split
    · rename_i hr
      exact hr ▸ Nat.max_le.mpr ⟨hall _, hvalue⟩
    · exact hall r

theorem observedAll_foldl_observe_iff {timestamps : List Lamport} :
    self.observedAll (timestamps.foldl observe other) = true ↔
      self.observedAll other = true ∧ ∀ t ∈ timestamps, self.observed t = true := by
  induction timestamps generalizing other with
  | nil => simp
  | cons t timestamps ih =>
    rw [foldl_cons, ih, observedAll_observe_iff, forall_mem_cons, and_assoc]

theorem observedAll_join_iff {version : Global} : self.observedAll (other.join version) = true ↔
      self.observedAll other = true ∧ self.observedAll version = true := by
  simp only [observedAll_iff, get_join, Nat.max_le, forall_and]

/-- A version after an operation contains both. -/
theorem observe_covers (version : Global) (timestamp : Lamport) :
    (version.observe timestamp).observedAll version = true ∧
      (version.observe timestamp).observed timestamp = true :=
  observedAll_observe_iff.mp (observedAll_self _)

/-- `Global::changed_since`. -/
def changedSince (self other : Global) : Bool :=
  decide (other.values.length < self.values.length) ||
    (self.pairs other).any fun p => decide (p.2 < p.1)

theorem observedAny_iff : self.observedAny other = true ↔
    ∃ r, 0 < other.get r ∧ other.get r ≤ self.get r := by
  simp only [observedAny, any_eq_true, mem_pairs, decide_eq_true_eq]
  constructor
  · rintro ⟨p, ⟨r, -, -, rfl⟩, hp⟩
    exact ⟨r, hp⟩
  · rintro ⟨r, hpos, hle⟩
    refine ⟨_, ⟨r, ?_, ?_, rfl⟩, hpos, hle⟩
    · by_contra hr
      rw [get_eq_zero self (by omega)] at hle
      omega
    · by_contra hr
      rw [get_eq_zero other (by omega)] at hpos
      omega

theorem observedAny_meet_iff {version : Global} : self.observedAny (other.meet version) = true ↔
      self.observedAny other = true ∨ self.observedAny version = true := by
  simp only [observedAny_iff, get_meet, ← exists_or]
  refine exists_congr fun r => ?_
  unfold meetSeq
  split
  · omega
  · split <;> omega

theorem observedAny_observe_new (h : 0 < timestamp.value) :
    self.observedAny (new.observe timestamp) = self.observed timestamp := by
  rw [Bool.eq_iff_iff, observedAny_iff, observed_iff]
  simp only [get_observe, get_new, Nat.zero_max]
  constructor
  · rintro ⟨r, hpos, hle⟩
    split at hpos
    · simp_all
    · omega
  · intro hle
    exact ⟨timestamp.replicaId, by simpa using h, by simpa using hle⟩

/-- `changed_since` decides by the lengths first, too. -/
theorem changedSince_iff : self.changedSince other = true ↔ other.observedAll self = false := by
  rw [← Bool.not_eq_true, observedAll_iff, not_forall]
  simp only [changedSince, Bool.or_eq_true, decide_eq_true_eq, any_eq_true, mem_pairs, not_le]
  constructor
  · rintro (hlength | ⟨p, ⟨r, -, -, rfl⟩, hlt⟩)
    · refine ⟨self.values.length - 1, ?_⟩
      rw [get_eq_zero other (by omega)]
      exact self.trimmed (by omega)
    · exact ⟨r, hlt⟩
  · rintro ⟨r, hlt⟩
    have hself : r < self.values.length := by
      by_contra hr
      rw [get_eq_zero self (by omega)] at hlt
      omega
    by_cases hother : r < other.values.length
    · exact Or.inr ⟨_, ⟨r, hself, hother, rfl⟩, hlt⟩
    · exact Or.inl (by omega)

/-- Vectors that contain each other are equal. -/
theorem observedAll_antisymm (h : self.observedAll other = true)
    (h' : other.observedAll self = true) : self = other :=
  ext_get fun r => Nat.le_antisymm (observedAll_iff.mp h' r) (observedAll_iff.mp h r)

section Monoid

variable (a b c : Global)

theorem join_assoc : (a.join b).join c = a.join (b.join c) :=
  ext_get fun r => by simp [Nat.max_assoc]

theorem new_join : new.join a = a := ext_get fun r => by simp

theorem meet_assoc : (a.meet b).meet c = a.meet (b.meet c) := by
  refine ext_get fun r => ?_
  simp only [get_meet, meetSeq]
  split_ifs <;> omega

theorem new_meet : new.meet a = a := ext_get fun r => by simp [meetSeq]

end Monoid

end Global

end XorEditor.Clock
