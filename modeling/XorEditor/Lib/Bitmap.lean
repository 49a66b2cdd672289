import Mathlib.Data.List.Basic
import Mathlib.Data.List.Induction

/-!
# Bitmaps

A bitmap of width `w` is a list of bits, the lowest one first, that is filled up with zeros.  The
operations of a machine word on bitmaps are operations on such lists: a shift drops or adds bits
in front, a mask of low bits cuts the list, and the counts of a word are counts of the list.

* `ofBits`: the bitmap of a list of bits
* `ofBits_append`: its parts
* `countOnes_ofBits`, `trailingZeros_ofBits`: its counts
-/

namespace XorEditor.Lib.Bitmap

open List

variable {w : Nat} (x : BitVec w)

/-- The bits of a word, the lowest one first. -/
def bits : List Bool := (List.range w).map x.getLsbD

/-- The word with the given lowest bits. -/
def ofBits (w : Nat) (bs : List Bool) : BitVec w := (BitVec.ofBoolListLE bs).setWidth w

/-- `count_ones`. -/
def countOnes : Nat := (bits x).count true

/-- `trailing_zeros`. -/
def trailingZeros : Nat := (bits x).findIdx id

/-- `leading_zeros`. -/
def leadingZeros : Nat := (bits x).reverse.findIdx id

/-- `1.unbounded_shl(n).wrapping_sub(1)`: the `n` lowest bits, or all. -/
def lowMask (w n : Nat) : BitVec w := (1#w <<< n) - 1#w

/-- `!MAX.unbounded_shr(n)`: the `n` highest bits, or all. -/
def highMask (w n : Nat) : BitVec w := ~~~(BitVec.allOnes w >>> n)

@[simp] theorem getLsbD_ofBits (bs : List Bool) (i : Nat) :
    (ofBits w bs).getLsbD i = (decide (i < w) && bs[i]?.getD false) := by
  rw [ofBits, BitVec.getLsbD_setWidth, BitVec.getLsbD_ofBoolListLE, getD_eq_getElem?_getD]

@[simp] theorem getLsbD_lowMask (n i : Nat) :
    (lowMask w n).getLsbD i = (decide (i < w) && decide (i < n)) := by
  rcases Nat.lt_or_ge n w with hn | hn
  · have hone : 2 ^ n < 2 ^ w := Nat.pow_lt_pow_right (by decide) hn
    have hmask : lowMask w n = BitVec.ofNat w (2 ^ n - 1) := by
      apply BitVec.eq_of_toNat_eq
      have hpos := Nat.two_pow_pos n
      have hw : 1 < 2 ^ w := by omega
      simp only [lowMask, BitVec.toNat_sub, BitVec.toNat_shiftLeft, BitVec.toNat_ofNat,
        Nat.mod_eq_of_lt hw, Nat.shiftLeft_eq, Nat.one_mul, Nat.mod_eq_of_lt hone]
      rw [Nat.mod_eq_of_lt (show 2 ^ n - 1 < 2 ^ w by omega),
        show 2 ^ w - 1 + 2 ^ n = 2 ^ w + (2 ^ n - 1) by omega, Nat.add_mod_left,
        Nat.mod_eq_of_lt (by omega)]
    rw [hmask, BitVec.getLsbD_ofNat, Nat.testBit_two_pow_sub_one]
  · have hmask : lowMask w n = BitVec.allOnes w := by
      rw [lowMask, BitVec.shiftLeft_eq_zero hn, BitVec.zero_sub, BitVec.neg_one_eq_allOnes]
    rw [hmask, BitVec.getLsbD_allOnes]
    by_cases hi : i < w
    · simp [hi, Nat.lt_of_lt_of_le hi hn]
    · simp [hi]

@[simp] theorem getLsbD_highMask (n i : Nat) :
    (highMask w n).getLsbD i = (decide (i < w) && decide (w ≤ n + i)) := by
  simp only [highMask, BitVec.getLsbD_not, BitVec.getLsbD_ushiftRight, BitVec.getLsbD_allOnes,
    ← decide_not, Nat.not_lt]

variable {i n : Nat} {bs as : List Bool}

@[simp] theorem getElem_ofBits (bs : List Bool) (h : i < w) :
    (ofBits w bs)[i] = bs[i]?.getD false := by
  rw [← BitVec.getLsbD_eq_getElem, getLsbD_ofBits, decide_eq_true h, Bool.true_and]

@[simp] theorem getElem_lowMask (n : Nat) (h : i < w) : (lowMask w n)[i] = decide (i < n) := by
  rw [← BitVec.getLsbD_eq_getElem, getLsbD_lowMask, decide_eq_true h, Bool.true_and]

@[simp] theorem getElem_highMask (n : Nat) (h : i < w) :
    (highMask w n)[i] = decide (w ≤ n + i) := by
  rw [← BitVec.getLsbD_eq_getElem, getLsbD_highMask, decide_eq_true h, Bool.true_and]

/-- The mask of all bits. -/
theorem and_lowMask_self : x &&& lowMask w w = x := by
  apply BitVec.eq_of_getLsbD_eq
  intro i hi
  simp [hi]

/-- A test of one bit. -/
theorem bit_and_ne_zero (i : Nat) : ((1#w <<< i) &&& x != 0) = x.getLsbD i := by
  rw [← BitVec.twoPow_eq, BitVec.twoPow_and]
  cases hbit : x.getLsbD i with
  | false => simp
  | true =>
    refine bne_iff_ne.2 fun hzero => ?_
    simpa [BitVec.lt_of_getLsbD hbit] using congrArg (·.getLsbD i) hzero

/-! ## Words from bits -/

theorem bits_ofBits (h : bs.length ≤ w) :
    bits (ofBits w bs) = bs ++ List.replicate (w - bs.length) false := by
  apply ext_getElem?
  intro i
  rcases Nat.lt_or_ge i w with hi | hi
  · rw [bits, getElem?_map, getElem?_range hi]
    rcases Nat.lt_or_ge i bs.length with hlt | hge
    · simp [hi, getElem?_append_left hlt, hlt]
    · have hlt : i - bs.length < w - bs.length := by omega
      simp [hi, getElem?_append_right hge, getElem?_eq_none hge, hlt]
  · rw [getElem?_eq_none (by simpa [bits] using hi), getElem?_eq_none]
    simp only [length_append, length_replicate]
    omega

theorem ofBits_append (as bs : List Bool) :
    ofBits w (as ++ bs) = ofBits w as ||| ofBits w bs <<< as.length := by
  apply BitVec.eq_of_getLsbD_eq
  intro i hi
  rcases Nat.lt_or_ge i as.length with hlt | hge
  · simp [hi, hlt, getElem?_append_left hlt]
  · simp [hi, hge, getElem?_append_right hge]

theorem ofBits_append_and_lowMask (as bs : List Bool) :
    ofBits w (as ++ bs) &&& lowMask w as.length = ofBits w as := by
  apply BitVec.eq_of_getLsbD_eq
  intro i hi
  rcases Nat.lt_or_ge i as.length with hlt | hge
  · simp [hi, hlt, getElem?_append_left hlt]
  · simp [hi, hge]

theorem ofBits_append_ushiftRight (h : (as ++ bs).length ≤ w) :
    ofBits w (as ++ bs) >>> as.length = ofBits w bs := by
  rw [length_append] at h
  apply BitVec.eq_of_getLsbD_eq
  intro i hi
  have hget : (as ++ bs)[as.length + i]? = bs[i]? := by
    rw [getElem?_append_right (by omega), Nat.add_sub_cancel_left]
  rcases Nat.lt_or_ge i bs.length with hlt | hge
  · have hsum : as.length + i < w := by omega
    simp [hi, hsum, hget]
  · simp [hi, hget, getElem?_eq_none hge]

/-- The bits from an index on, in their places. -/
theorem ofBits_append_and_highMask (h : as.length ≤ w) :
    ofBits w (as ++ bs) &&& highMask w (w - as.length) =
      ofBits w (List.replicate as.length false ++ bs) := by
  apply BitVec.eq_of_getLsbD_eq
  intro i hi
  rcases Nat.lt_or_ge i as.length with hlt | hge
  · have hmask : ¬ w ≤ w - as.length + i := by omega
    simp [hi, hmask, getElem?_append_left, hlt]
  · have hmask : w ≤ w - as.length + i := by omega
    simp [hi, hmask, hge, getElem?_append_right]

@[simp] theorem ofBits_nil : ofBits w [] = 0#w := by
  apply BitVec.eq_of_getLsbD_eq
  intro i hi
  simp

@[simp] theorem ofBits_zeros (n : Nat) : ofBits w (List.replicate n false) = 0#w := by
  apply BitVec.eq_of_getLsbD_eq
  intro i hi
  rcases Nat.lt_or_ge i n with hlt | hge
  · simp [hi, hlt]
  · simp [hi, Nat.not_lt.2 hge]

theorem setWidth_ofBits {v : Nat} (h : bs.length ≤ v) : (ofBits v bs).setWidth w = ofBits w bs := by
  apply BitVec.eq_of_getLsbD_eq
  intro i hi
  rcases Nat.lt_or_ge i bs.length with hlt | hge
  · have hv : i < v := by omega
    simp [hi, hv]
  · simp [hi, getElem?_eq_none hge]

/-- Words side by side, each `stride` bits above the one before. -/
def orShifted (stride : Nat) (words : List (BitVec w)) : BitVec w :=
  words.zipIdx.foldl (fun (acc : BitVec w) (word : BitVec w × Nat) =>
    acc ||| word.1 <<< (stride * word.2)) 0#w

theorem orShifted_snoc (stride : Nat) (words : List (BitVec w)) (x : BitVec w) :
    orShifted stride (words ++ [x]) = orShifted stride words ||| x <<< (stride * words.length) := by
  simp [orShifted, zipIdx_append, foldl_append]

/-- Bits one by one. -/
theorem orShifted_singletons (bs : List Bool) :
    orShifted 1 (bs.map fun b => ofBits w [b]) = ofBits w bs := by
  induction bs using List.reverseRecOn with
  | nil => simp [orShifted]
  | append_singleton bs b ih =>
    rw [map_append, map_singleton, orShifted_snoc, ih, length_map, Nat.one_mul, ← ofBits_append]

/-- Pieces of `stride` bits. -/
theorem orShifted_pieces (stride : Nat) (bs : List Bool) (n : Nat) :
    orShifted stride ((List.range n).map fun k =>
      ofBits w ((bs.drop (stride * k)).take stride)) = ofBits w (bs.take (stride * n)) := by
  induction n with
  | zero => simp [orShifted]
  | succ n ih =>
    rw [range_succ, map_append, map_singleton, orShifted_snoc, ih,
      length_map, length_range, Nat.mul_succ, take_add, ofBits_append]
    rcases Nat.lt_or_ge bs.length (stride * n) with hlt | hge
    · rw [drop_eq_nil_of_le (by omega)]
      simp
    · rw [length_take_of_le hge]

/-! ## Counts -/

theorem findIdx_zeros (n : Nat) : (List.replicate n false).findIdx id = n := by
  rw [findIdx_eq_length_of_false (by simp), length_replicate]

theorem findIdx_zeros_append (n : Nat) (bs : List Bool) :
    (List.replicate n false ++ true :: bs).findIdx id = n := by
  rw [findIdx_append, findIdx_zeros]
  simp [findIdx_cons]

theorem countOnes_ofBits (h : bs.length ≤ w) : countOnes (ofBits w bs) = bs.count true := by
  simp [countOnes, bits_ofBits h, count_replicate]

/-- The first one. -/
theorem trailingZeros_ofBits (h : (List.replicate n false ++ true :: bs).length ≤ w) :
    trailingZeros (ofBits w (List.replicate n false ++ true :: bs)) = n := by
  rw [trailingZeros, bits_ofBits h, append_assoc, cons_append, findIdx_zeros_append]

theorem trailingZeros_ofBits_zeros (h : n ≤ w) :
    trailingZeros (ofBits w (List.replicate n false)) = w := by
  rw [trailingZeros, bits_ofBits (by simpa using h), length_replicate,
    ← replicate_add, Nat.add_sub_cancel' h, findIdx_zeros]

/-- The last one. -/
theorem leadingZeros_ofBits (h : (bs ++ true :: List.replicate n false).length ≤ w) :
    leadingZeros (ofBits w (bs ++ true :: List.replicate n false)) = w - (bs.length + 1) := by
  rw [leadingZeros, bits_ofBits h]
  simp only [length_append, length_cons, length_replicate] at h ⊢
  rw [append_assoc, cons_append, ← replicate_add, reverse_append,
    reverse_cons, reverse_replicate, append_assoc, singleton_append,
    findIdx_zeros_append]
  omega

theorem leadingZeros_ofBits_zeros (h : n ≤ w) :
    leadingZeros (ofBits w (List.replicate n false)) = w := by
  rw [leadingZeros, bits_ofBits (by simpa using h), length_replicate,
    ← replicate_add, Nat.add_sub_cancel' h, reverse_replicate, findIdx_zeros]

end XorEditor.Lib.Bitmap
