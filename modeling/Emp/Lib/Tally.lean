import Mathlib.Algebra.BigOperators.Group.Finset.Basic
import Mathlib.Algebra.Order.BigOperators.Group.Finset
import Mathlib.Algebra.Order.Group.Int
import Mathlib.Tactic.Ring

/-!
# Weighted tallies over a bounded index range

A counter that many operations update by the weight of one item is compared with the
total weight of all items.  `tally n f` is that total; the lemmas say how it moves when
one or two items change.

## Main definitions

* `tally` — the total weight of the items below a bound.
* `tally_change` — one item changes its weight.
* `tally_move` — two items do.
-/

/-- The total weight of the items below `n`. -/
def tally (n : ℕ) (f : ℕ → ℤ) : ℤ := ∑ i ∈ Finset.range n, f i

section Tally

variable {n i j : ℕ} {f g : ℕ → ℤ}

theorem tally_congr (h : ∀ k < n, g k = f k) : tally n g = tally n f :=
  Finset.sum_congr rfl fun k hk => h k (Finset.mem_range.mp hk)

theorem tally_zero (h : ∀ k < n, f k = 0) : tally n f = 0 :=
  Finset.sum_eq_zero fun k hk => h k (Finset.mem_range.mp hk)

/-- One item changes its weight. -/
theorem tally_change (hi : i < n) (h : ∀ k < n, k ≠ i → g k = f k) :
    tally n g = tally n f + (g i - f i) := by
  have hmem : i ∈ Finset.range n := Finset.mem_range.mpr hi
  have hrest : ∑ k ∈ (Finset.range n).erase i, g k = ∑ k ∈ (Finset.range n).erase i, f k := by
    refine Finset.sum_congr rfl fun k hk => ?_
    obtain ⟨hne, hk⟩ := Finset.mem_erase.mp hk
    exact h k (Finset.mem_range.mp hk) hne
  simp only [tally]
  rw [← Finset.add_sum_erase _ g hmem, ← Finset.add_sum_erase _ f hmem, hrest]
  ring

/-- Two items change their weights. -/
theorem tally_move (hi : i < n) (hj : j < n) (hij : i ≠ j)
    (h : ∀ k < n, k ≠ i → k ≠ j → g k = f k) :
    tally n g = tally n f + (g i - f i) + (g j - f j) := by
  have hfst : tally n (Function.update f i (g i)) = tally n f + (g i - f i) := by
    rw [tally_change hi fun k _ hk => Function.update_of_ne hk ..]
    rw [Function.update_self]
  have hsnd : tally n g = tally n (Function.update f i (g i)) + (g j - f j) := by
    rw [tally_change (f := Function.update f i (g i)) hj ?_]
    · rw [Function.update_of_ne (Ne.symm hij)]
    · intro k hk hkj
      by_cases hki : k = i
      · rw [hki, Function.update_self]
      · rw [Function.update_of_ne hki, h k hk hki hkj]
  rw [hsnd, hfst]

theorem tally_le (h : ∀ k < n, f k ≤ g k) : tally n f ≤ tally n g :=
  Finset.sum_le_sum fun k hk => h k (Finset.mem_range.mp hk)

theorem tally_nonneg (h : ∀ k < n, 0 ≤ f k) : 0 ≤ tally n f :=
  Finset.sum_nonneg fun k hk => h k (Finset.mem_range.mp hk)

/-- An item weighs at most as much as all. -/
theorem le_tally (hi : i < n) (h : ∀ k < n, 0 ≤ f k) : f i ≤ tally n f :=
  Finset.single_le_sum (fun k hk => h k (Finset.mem_range.mp hk)) (Finset.mem_range.mpr hi)

end Tally
