import Mathlib.Data.Finset.Card
import Mathlib.Data.Finset.Range
import Mathlib.Logic.Function.Basic

/-!
# Bitmaps: the forward search and the number of cleared bits

A bitmap is a function `ℕ → Bool`; only the bits below a size `n` belong to it.
`findNextBit` is the kernel's forward search, which answers the size itself when
it finds nothing.

## Main definitions

* `findNextBit bm n start` — the first set bit of `bm` in `[start, n)`, else `n`.
* `cleared bm n` — how many of the first `n` bits are clear.
-/

namespace BitSearch

/-- The first set bit at or after `start` and below `n`; `n` if there is none. -/
def findNextBit (bm : ℕ → Bool) (n start : ℕ) : ℕ :=
  ((List.range' start (n - start)).find? bm).getD n

/-- How many of the bits below `n` are clear. -/
def cleared (bm : ℕ → Bool) (n : ℕ) : ℕ :=
  ((Finset.range n).filter fun i => bm i = false).card

variable {bm : ℕ → Bool} {n start b : ℕ}

/-- The search stays inside the bitmap, or answers its size. -/
theorem findNextBit_le (bm : ℕ → Bool) (n start : ℕ) : findNextBit bm n start ≤ n := by
  unfold findNextBit
  cases h : (List.range' start (n - start)).find? bm with
  | none => simp
  | some i =>
      have hmem := List.mem_of_find?_eq_some h
      simp only [List.mem_range'_1] at hmem
      simp only [Option.getD_some]
      omega

/-- What the search finds is a set bit not before its start. -/
theorem findNextBit_spec (h : findNextBit bm n start ≠ n) :
    bm (findNextBit bm n start) = true ∧ start ≤ findNextBit bm n start ∧
      findNextBit bm n start < n := by
  unfold findNextBit at h ⊢
  cases hf : (List.range' start (n - start)).find? bm with
  | none => simp [hf] at h
  | some i =>
      have hmem := List.mem_of_find?_eq_some hf
      have hbit := List.find?_some hf
      simp only [List.mem_range'_1] at hmem
      simp only [Option.getD_some]
      exact ⟨hbit, hmem.1, by omega⟩

/-- A set bit in the searched range makes the search succeed. -/
theorem findNextBit_ne (hb : bm b = true) (hs : start ≤ b) (hn : b < n) :
    findNextBit bm n start ≠ n := by
  unfold findNextBit
  cases hf : (List.range' start (n - start)).find? bm with
  | none =>
      rw [List.find?_eq_none] at hf
      exact absurd hb (hf b (by simp only [List.mem_range'_1]; omega))
  | some i =>
      have hmem := List.mem_of_find?_eq_some hf
      simp only [List.mem_range'_1] at hmem
      simp only [Option.getD_some]
      omega

theorem cleared_le (bm : ℕ → Bool) (n : ℕ) : cleared bm n ≤ n := by
  simpa [cleared] using Finset.card_filter_le (Finset.range n) fun i => bm i = false

/-- Only the bits of the bitmap count. -/
theorem cleared_congr {bm' : ℕ → Bool} (h : ∀ i < n, bm i = bm' i) :
    cleared bm n = cleared bm' n := by
  unfold cleared
  congr 1
  apply Finset.filter_congr
  intro i hi
  rw [h i (Finset.mem_range.mp hi)]

theorem cleared_fill (n : ℕ) : cleared (fun _ => true) n = 0 := by simp [cleared]

/-- Clearing a set bit raises the count by one. -/
theorem cleared_clear (hn : b < n) (hb : bm b = true) :
    cleared (Function.update bm b false) n = cleared bm n + 1 := by
  have hset : (Finset.range n).filter (fun i => Function.update bm b false i = false) =
      insert b ((Finset.range n).filter fun i => bm i = false) := by
    ext i
    by_cases hi : i = b
    · subst hi; simp [hn]
    · simp [hi]
  unfold cleared
  rw [hset, Finset.card_insert_of_notMem (by simp [hb])]

/-- Setting a cleared bit lowers the count by one. -/
theorem cleared_set (hn : b < n) (hb : bm b = false) :
    cleared (Function.update bm b true) n + 1 = cleared bm n := by
  have h : cleared (Function.update (Function.update bm b true) b false) n =
      cleared (Function.update bm b true) n + 1 := cleared_clear hn (by simp)
  rw [← h, Function.update_idem]
  exact cleared_congr fun i _ => by
    by_cases hi : i = b
    · subst hi; simp [hb]
    · simp [hi]

/-- A bitmap that is not used up has a set bit. -/
theorem exists_set_of_cleared_lt (h : cleared bm n < n) : ∃ b < n, bm b = true := by
  by_contra hno
  push Not at hno
  have hall : (Finset.range n).filter (fun i => bm i = false) = Finset.range n := by
    apply Finset.filter_true_of_mem
    intro i hi
    simpa using hno i (Finset.mem_range.mp hi)
  rw [cleared, hall, Finset.card_range] at h
  exact lt_irrefl n h

theorem cleared_lt_of_set (hn : b < n) (hb : bm b = true) : cleared bm n < n := by
  have h := cleared_clear hn hb
  have hle := cleared_le (Function.update bm b false) n
  omega

end BitSearch
