import Mathlib.Algebra.Order.Ring.Nat
import Mathlib.Data.Nat.Notation
import Mathlib.Order.Nat

/-!
# Bit fields of a machine word

A word of `w` bits holds several numbers side by side.  A field is the run of bits from `lo` on and
below `hi`; it is read with a mask and a shift to the right, and written with a shift to the left.

## Main definitions

* `BitField.mask` — the bits of a field.
* `BitField.get` — the number in a field.
-/

namespace BitField

variable {w : ℕ} {lo hi k n i : ℕ} {x y : BitVec w}

/-- The bits from `lo` on and below `hi`. -/
def mask (w lo hi : ℕ) : BitVec w := (BitVec.allOnes w <<< lo) &&& ~~~(BitVec.allOnes w <<< hi)

/-- The number in a field. -/
def get (lo hi : ℕ) (x : BitVec w) : BitVec w := (x &&& mask w lo hi) >>> lo

theorem getLsbD_mask : (mask w lo hi).getLsbD i = decide (i < w ∧ lo ≤ i ∧ i < hi) := by
  rw [mask, BitVec.getLsbD_and, BitVec.getLsbD_not, BitVec.getLsbD_shiftLeft,
    BitVec.getLsbD_shiftLeft, BitVec.getLsbD_allOnes, BitVec.getLsbD_allOnes]
  by_cases h : i < w
  · have hlo : i - lo < w := (Nat.sub_le _ _).trans_lt h
    have hhi : i - hi < w := (Nat.sub_le _ _).trans_lt h
    have hnot : (!decide (i < lo)) = decide (lo ≤ i) := by simp [← decide_not]
    simp [h, hlo, hhi, hnot]
  · simp [h]

theorem getLsbD_get : (get lo hi x).getLsbD i = (decide (lo + i < hi) && x.getLsbD (lo + i)) := by
  rw [get, BitVec.getLsbD_ushiftRight, BitVec.getLsbD_and, getLsbD_mask, Bool.and_comm]
  by_cases h : lo + i < w
  · simp [h]
  · rw [BitVec.getLsbD_of_ge _ _ (not_lt.mp h), Bool.and_false, Bool.and_false]

@[simp] theorem get_or : get lo hi (x ||| y) = get lo hi x ||| get lo hi y := by
  refine BitVec.eq_of_getLsbD_eq fun i _ => ?_
  rw [BitVec.getLsbD_or, getLsbD_get, getLsbD_get, getLsbD_get, BitVec.getLsbD_or,
    Bool.and_or_distrib_left]

/-- A number has no bits from `n` on if it is below `2 ^ n`. -/
theorem getLsbD_of_lt (h : x.toNat < 2 ^ n) (hi : n ≤ i) : x.getLsbD i = false :=
  Nat.testBit_lt_two_pow (h.trans_le (Nat.pow_le_pow_right (Nat.succ_pos 1) hi))

/-- What is written to a field is read from it, if it fits. -/
theorem get_shiftLeft (h : x.toNat < 2 ^ (hi - lo)) (hw : hi ≤ w) :
    get lo hi (x <<< lo) = x := by
  refine BitVec.eq_of_getLsbD_eq fun i hi' => ?_
  rw [getLsbD_get, BitVec.getLsbD_shiftLeft]
  by_cases hin : lo + i < hi
  · have hin' : lo + i < w := hin.trans_le hw
    simp [hin, hin']
  · have hle : hi - lo ≤ i := by omega
    rw [getLsbD_of_lt h hle]
    simp [hin]

/-- A field does not hold what is written above it. -/
theorem get_shiftLeft_above (h : hi ≤ k) : get lo hi (x <<< k) = 0#w := by
  refine BitVec.eq_of_getLsbD_eq fun i _ => ?_
  rw [getLsbD_get, BitVec.getLsbD_shiftLeft, BitVec.getLsbD_zero]
  by_cases hin : lo + i < hi
  · simp [hin.trans_le h]
  · simp [hin]

/-- Nor what is written below it, if it fits there. -/
theorem get_shiftLeft_below (h : x.toNat < 2 ^ n) (hle : k + n ≤ lo) :
    get lo hi (x <<< k) = 0#w := by
  refine BitVec.eq_of_getLsbD_eq fun i _ => ?_
  rw [getLsbD_get, BitVec.getLsbD_shiftLeft, BitVec.getLsbD_zero, getLsbD_of_lt h (by omega),
    Bool.and_false, Bool.and_false]

end BitField
