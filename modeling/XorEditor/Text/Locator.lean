import Mathlib.Algebra.Group.Nat.Defs
import Mathlib.Data.List.Chain

/-!
# Locators

A locator identifies a position in an ordered collection, so that new items can be placed
between two existing ones without renumbering.  It is a nonempty sequence of `u64`
digits, compared lexicographically.  `between` extends the left locator by zeros and the
right one by `u64::MAX`, and stops at the first digit where it can go strictly above the
left locator.

`between` stays strictly below the right locator only if that locator does not end in a
zero digit.  Every locator it returns ends in a nonzero digit, and so does `max`.

* `Locator`, `between`: the model
* `Inserts`: locators put between others
* `between_dense`: all of them stay in order
-/

namespace XorEditor.Text

/-- `Locator(SmallVec<[u64; 2]>)`, ordered lexicographically. -/
abbrev Locator := List Nat

/-- `Ord for Locator` is the lexicographic order. -/
instance : Ord Locator := LinearOrder.toOrd

namespace Locator

/-- `u64::MAX`. -/
def maxDigit : Nat := 2 ^ 64 - 1

/-- `Locator::min`. -/
def min : Locator := [0]

/-- `Locator::max`. -/
def max : Locator := [maxDigit]

/-- The digit chosen between two digits.  The shift keeps sequential insertions short. -/
def midDigit (lhs rhs : Nat) : Nat := lhs + (rhs - lhs) / 2 ^ 48

/-- The loop of `between`, over the paired digits of both locators. -/
def betweenDigits : List (Nat × Nat) → Locator
  | [] => []
  | (lhs, rhs) :: digits =>
    let mid := midDigit lhs rhs
    if lhs < mid then [mid] else mid :: betweenDigits digits

/-- The digits of `lhs`, continued by zeros, paired with those of `rhs`, continued by
`u64::MAX`.  One digit beyond both locators the loop always stops. -/
def pairedDigits (lhs rhs : Locator) : List (Nat × Nat) :=
  (List.range (Nat.max lhs.length rhs.length + 1)).map fun i => (lhs.getD i 0, rhs.getD i maxDigit)

/-- `Locator::between`. -/
def between (lhs rhs : Locator) : Locator := betweenDigits (pairedDigits lhs rhs)

/-- The last digit is nonzero. -/
def EndsNonzero (locator : Locator) : Prop := ∃ digits d, locator = digits ++ [d] ∧ 0 < d

theorem le_midDigit (lhs rhs : Nat) : lhs ≤ midDigit lhs rhs := Nat.le_add_right _ _

theorem midDigit_lt {lhs rhs : Nat} (h : lhs < rhs) : midDigit lhs rhs < rhs := by
  unfold midDigit
  have : (rhs - lhs) / 2 ^ 48 < rhs - lhs := Nat.div_lt_self (by omega) (by decide)
  omega

theorem midDigit_le {lhs rhs bound : Nat} (hlhs : lhs ≤ bound) (hrhs : rhs ≤ bound) :
    midDigit lhs rhs ≤ bound := by
  unfold midDigit
  have := Nat.div_le_self (rhs - lhs) (2 ^ 48)
  omega

theorem midDigit_zero_maxDigit : 0 < midDigit 0 maxDigit := by
  decide

theorem cons_lt_cons_iff {a b : Nat} {as bs : Locator} :
    (a :: as : Locator) < b :: bs ↔ a < b ∨ a = b ∧ as < bs := by
  rw [List.cons_lt_cons_iff]

section Loop

variable {digits : List (Nat × Nat)}

/-- The loop copies digits of the left locator up to the first one that it can raise, and
does not look at what follows. -/
theorem betweenDigits_append (h : ∃ p ∈ digits, p.1 < midDigit p.1 p.2) :
    ∃ before l r after, digits = before ++ (l, r) :: after ∧ l < midDigit l r ∧
      ∀ more, betweenDigits (digits ++ more) = before.map Prod.fst ++ [midDigit l r] := by
  induction digits with
  | nil => simp at h
  | cons digit digits ih =>
    obtain ⟨l, r⟩ := digit
    by_cases hlt : l < midDigit l r
    · refine ⟨[], l, r, digits, rfl, hlt, fun more => ?_⟩
      rw [List.cons_append, betweenDigits, if_pos hlt]
      rfl
    · have heq : midDigit l r = l := le_antisymm (not_lt.mp hlt) (le_midDigit l r)
      obtain ⟨before, l', r', after, rfl, hlt', hmore⟩ := ih (by simpa [hlt] using h)
      refine ⟨(l, r) :: before, l', r', after, rfl, hlt', fun more => ?_⟩
      rw [List.cons_append, betweenDigits, if_neg hlt, hmore, heq]
      rfl

variable (lhs rhs : Locator)

/-- `between` copies digits of the left locator and ends in one above it, however far the
iterators are read: one digit beyond both locators the loop stops. -/
theorem between_eq : ∃ before l r after, pairedDigits lhs rhs = before ++ (l, r) :: after ∧
    l < midDigit l r ∧ between lhs rhs = before.map Prod.fst ++ [midDigit l r] ∧
    ∀ more, betweenDigits (pairedDigits lhs rhs ++ more) = between lhs rhs := by
  have hlhs : lhs.getD (Nat.max lhs.length rhs.length) 0 = 0 := by
    rw [List.getD_eq_getElem?_getD, List.getElem?_eq_none (Nat.le_max_left ..), Option.getD_none]
  have hrhs : rhs.getD (Nat.max lhs.length rhs.length) maxDigit = maxDigit := by
    rw [List.getD_eq_getElem?_getD, List.getElem?_eq_none (Nat.le_max_right ..), Option.getD_none]
  have hstops : (0, maxDigit) ∈ pairedDigits lhs rhs :=
    List.mem_map.mpr ⟨Nat.max lhs.length rhs.length, by simp, by rw [hlhs, hrhs]⟩
  obtain ⟨before, l, r, after, hsplit, hlt, hmore⟩ :=
    betweenDigits_append ⟨_, hstops, midDigit_zero_maxDigit⟩
  have heq := hmore []
  rw [List.append_nil] at heq
  exact ⟨before, l, r, after, hsplit, hlt, heq, fun more => (hmore more).trans heq.symm⟩

/-- Every result of `between` ends in a nonzero digit. -/
theorem between_endsNonzero : EndsNonzero (between lhs rhs) := by
  obtain ⟨before, l, r, -, -, hlt, heq, -⟩ := between_eq lhs rhs
  exact ⟨_, _, heq, by omega⟩

theorem pairedDigits_cons_left (l : Nat) :
    pairedDigits (l :: lhs) rhs = (l, rhs.headD maxDigit) :: pairedDigits lhs rhs.tail := by
  cases rhs <;>
    simp [pairedDigits, List.range_succ_eq_map, Nat.add_max_add_right, Function.comp_def]

theorem pairedDigits_cons_right (r : Nat) :
    pairedDigits lhs (r :: rhs) = (lhs.headD 0, r) :: pairedDigits lhs.tail rhs := by
  cases lhs <;>
    simp [pairedDigits, List.range_succ_eq_map, Nat.add_max_add_right, Function.comp_def]

/-- `between` is above its left argument, whatever the right argument is. -/
theorem lt_between : lhs < between lhs rhs := by
  induction lhs generalizing rhs with
  | nil =>
    obtain ⟨digits, d, heq, -⟩ := between_endsNonzero [] rhs
    cases digits <;> simp [heq]
  | cons l lhs ih =>
    rw [between, pairedDigits_cons_left, betweenDigits]
    split
    · next hlt => exact cons_lt_cons_iff.mpr (Or.inl hlt)
    · next hge =>
      have heq := le_antisymm (le_midDigit l _) (not_lt.mp hge)
      exact cons_lt_cons_iff.mpr (Or.inr ⟨heq, ih rhs.tail⟩)

end Loop

theorem EndsNonzero.tail {d : Nat} {digits : Locator} (h : EndsNonzero (d :: digits))
    (hzero : digits = [] → d = 0) : digits ≠ [] ∧ EndsNonzero digits := by
  obtain ⟨ds, e, heq, he⟩ := h
  rcases List.cons_eq_append_iff.mp heq with ⟨rfl, hsingle⟩ | ⟨ds, rfl, rfl⟩
  · obtain ⟨rfl, rfl⟩ := List.cons.inj hsingle
    exact absurd (hzero rfl) he.ne'
  · exact ⟨by simp, ds, e, rfl, he⟩

/-- `between` is below its right argument, if that one is above the left argument and
does not end in a zero digit. -/
theorem between_lt {lhs rhs : Locator} (hlt : lhs < rhs) (hrhs : EndsNonzero rhs) :
    between lhs rhs < rhs := by
  induction rhs generalizing lhs with
  | nil => simp at hlt
  | cons r rhs ih =>
    -- An exhausted left locator continues with zeros, of which `rhs` does not consist.
    have hhead : lhs.headD 0 < r ∨ lhs.headD 0 = r ∧ lhs.tail < rhs := by
      cases lhs with
      | cons l lhs => exact cons_lt_cons_iff.mp hlt
      | nil =>
        rcases Nat.eq_zero_or_pos r with rfl | hr
        · obtain ⟨d, rest, rfl⟩ := List.exists_cons_of_ne_nil (hrhs.tail fun _ => rfl).1
          exact Or.inr ⟨rfl, by simp⟩
        · exact Or.inl hr
    rw [between, pairedDigits_cons_right, betweenDigits]
    rcases hhead with hdigit | ⟨rfl, htail⟩
    · split
      · exact cons_lt_cons_iff.mpr (Or.inl (midDigit_lt hdigit))
      · exact cons_lt_cons_iff.mpr (Or.inl (midDigit_lt hdigit))
    · have hmid : midDigit (lhs.headD 0) (lhs.headD 0) = lhs.headD 0 := by simp [midDigit]
      have hends := hrhs.tail fun hnil => by simp [hnil] at htail
      rw [hmid, if_neg (lt_irrefl _)]
      exact cons_lt_cons_iff.mpr (Or.inr ⟨rfl, ih htail hends.2⟩)

theorem max_endsNonzero : EndsNonzero max := ⟨[], maxDigit, rfl, by decide⟩

theorem min_lt_max : min < max := by
  refine cons_lt_cons_iff.mpr (Or.inl ?_)
  decide

section Dense

variable {lhs rhs : Locator}

/-- The digits of `between` are `u64` values, so that no addition overflows. -/
theorem between_digits_le (hlhs : ∀ d ∈ lhs, d ≤ maxDigit) (hrhs : ∀ d ∈ rhs, d ≤ maxDigit) :
    ∀ d ∈ between lhs rhs, d ≤ maxDigit := by
  have hgetD {digits : Locator} (h : ∀ d ∈ digits, d ≤ maxDigit) {fill : Nat}
      (hfill : fill ≤ maxDigit) (i : Nat) : digits.getD i fill ≤ maxDigit := by
    rw [List.getD_eq_getElem?_getD]
    cases hi : digits[i]? with
    | none => exact hfill
    | some d => exact h d (List.mem_of_getElem? hi)
  have hpairs : ∀ p ∈ pairedDigits lhs rhs, p.1 ≤ maxDigit ∧ p.2 ≤ maxDigit :=
    List.forall_mem_map.mpr fun i _ => ⟨hgetD hlhs (Nat.zero_le _) i, hgetD hrhs le_rfl i⟩
  obtain ⟨before, l, r, after, hsplit, -, heq, -⟩ := between_eq lhs rhs
  rw [hsplit, List.forall_mem_append, List.forall_mem_cons] at hpairs
  obtain ⟨hbefore, hlast, -⟩ := hpairs
  rw [heq, List.forall_mem_append, List.forall_mem_map, List.forall_mem_singleton]
  exact ⟨fun p hp => (hbefore p hp).1, midDigit_le hlast.1 hlast.2⟩

/-- Identifiers in increasing order, of which only the first may end in a zero digit. -/
structure Arranged (ids : List Locator) : Prop where
  chain : ids.IsChain fun lhs rhs => lhs < rhs ∧ EndsNonzero rhs
  digits : ∀ id ∈ ids, ∀ d ∈ id, d ≤ maxDigit

/-- Calls of `between` on neighbours, whose results are placed between them. -/
inductive Inserts (ids : List Locator) : List Locator → Prop
  | start : Inserts ids ids
  | insert {front back : List Locator} {lhs rhs : Locator} :
    Inserts ids (front ++ lhs :: rhs :: back) →
      Inserts ids (front ++ lhs :: between lhs rhs :: rhs :: back)

theorem Arranged.inserts {ids ids' : List Locator} (h : Arranged ids) (hids : Inserts ids ids') :
    Arranged ids' := by
  induction hids with
  | start => exact h
  | @insert front back lhs rhs _ ih =>
    obtain ⟨hchain, hdigits⟩ := ih
    obtain ⟨hfront, ⟨hlt, hends⟩, hback⟩ := List.isChain_append_cons_cons.mp hchain
    have hbelow : between lhs rhs < rhs ∧ EndsNonzero rhs := ⟨between_lt hlt hends, hends⟩
    constructor
    · exact List.isChain_append_cons_cons.mpr ⟨hfront,
        ⟨lt_between lhs rhs, between_endsNonzero lhs rhs⟩,
        List.isChain_cons_cons.mpr ⟨hbelow, hback⟩⟩
    · simp only [List.forall_mem_append, List.forall_mem_cons] at hdigits ⊢
      obtain ⟨hfront, hlhs, hrhs, hback⟩ := hdigits
      exact ⟨hfront, hlhs, between_digits_le hlhs hrhs, hrhs, hback⟩

/-- Locators are dense: between a locator and one that does not end in a zero digit, the loop
of `between` stops without overflow at a locator strictly between them which does not end in
a zero digit either, so that identifiers placed between neighbours stay in order. -/
theorem between_dense (hlhs : ∀ d ∈ lhs, d ≤ maxDigit) (hrhs : ∀ d ∈ rhs, d ≤ maxDigit)
    (hlt : lhs < rhs) (hends : EndsNonzero rhs) :
    (∀ more, betweenDigits (pairedDigits lhs rhs ++ more) = between lhs rhs) ∧
      (∀ d ∈ between lhs rhs, d ≤ maxDigit) ∧ lhs < between lhs rhs ∧ between lhs rhs < rhs ∧
      EndsNonzero (between lhs rhs) ∧
      ∀ ids ids', Arranged ids → Inserts ids ids' → ids'.Pairwise (· < ·) := by
  obtain ⟨-, -, -, -, -, -, -, hstops⟩ := between_eq lhs rhs
  refine ⟨hstops, between_digits_le hlhs hrhs, lt_between lhs rhs, between_lt hlt hends,
    between_endsNonzero lhs rhs, fun _ _ hids hinserts => ?_⟩
  exact List.isChain_iff_pairwise.mp ((hids.inserts hinserts).chain.imp fun _ _ h => h.1)

/-- The locator between the first and the last one, and one more behind it. -/
theorem between_dense_min_max :
    min < between min max ∧ between min max < max ∧ [min, between min max,
      between (between min max) max, max].Pairwise (· < ·) := by
  have hmin : ∀ d ∈ min, d ≤ maxDigit := by decide
  have hmax : ∀ d ∈ max, d ≤ maxDigit := by decide
  obtain ⟨-, -, habove, hbelow, -, hinserts⟩ := between_dense hmin hmax min_lt_max max_endsNonzero
  have harranged : Arranged [min, max] :=
    ⟨List.isChain_pair.mpr ⟨min_lt_max, max_endsNonzero⟩,
      List.forall_mem_cons.mpr ⟨hmin, List.forall_mem_singleton.mpr hmax⟩⟩
  refine ⟨habove, hbelow, hinserts [min, max] _ harranged ?_⟩
  exact @Inserts.insert _ [min] [] (between min max) max (@Inserts.insert _ [] [] min max .start)

end Dense

end Locator

end XorEditor.Text
