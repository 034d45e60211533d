import Mathlib.Data.List.Perm.Basic
import Mathlib.Data.Nat.Notation
import Mathlib.Order.Basic
import Mathlib.Order.Lattice
import Mathlib.Algebra.Order.Ring.Nat

/-!
# Selection sort on an array

The array is a list.  Each round looks for the first of the smallest elements from its position
on and swaps it there.

## Main definitions

* `scanBest` — the search of a round.
* `selectionSort` — the rounds.
-/

variable {α : Type*}

/-- The first of the elements that are before all others in `lt`, and its position: `best` is
the one found so far, and `i` the position of the first element of the list. -/
def scanBest (lt : α → α → Prop) [DecidableRel lt] : α × ℕ → ℕ → List α → α × ℕ
  | best, _, [] => best
  | best, i, x :: xs => scanBest lt (if lt x best.1 then (x, i) else best) (i + 1) xs

/-- The first rounds of a selection sort. -/
def selectionSort (lt : α → α → Prop) [DecidableRel lt] : ℕ → List α → List α
  | 0, l => l
  | _ + 1, [] => []
  | n + 1, a :: l =>
    match (a :: l).swap 0 (scanBest lt (a, 0) 1 l).2 with
    | [] => []
    | b :: rest => b :: selectionSort lt n rest

theorem perm_selectionSort (lt : α → α → Prop) [DecidableRel lt] (n : ℕ) (l : List α) :
    (selectionSort lt n l).Perm l := by
  induction n generalizing l with
  | zero => exact .refl l
  | succ n ih =>
      cases l with
      | nil => exact .nil
      | cons a l =>
          have hswap := List.swap_perm (a :: l) 0 (scanBest lt (a, 0) 1 l).2
          rw [selectionSort]
          cases h : (a :: l).swap 0 (scanBest lt (a, 0) 1 l).2 with
          | nil =>
              rw [h] at hswap
              exact hswap
          | cons b rest =>
              rw [h] at hswap
              exact ((ih rest).cons b).trans hswap

/-- The search finds a smallest element. -/
theorem scanBest_spec [LinearOrder α] (pre xs : List α) (best : α × ℕ)
    (hbest : (pre ++ xs)[best.2]? = some best.1) (hmin : ∀ y ∈ pre, best.1 ≤ y) :
    (pre ++ xs)[(scanBest (· < ·) best pre.length xs).2]? =
        some (scanBest (· < ·) best pre.length xs).1 ∧
      ∀ y ∈ pre ++ xs, (scanBest (· < ·) best pre.length xs).1 ≤ y := by
  induction xs generalizing pre best with
  | nil =>
      rw [List.append_nil] at hbest ⊢
      exact ⟨hbest, hmin⟩
  | cons x xs ih =>
      rw [scanBest]
      have hsplit : pre ++ x :: xs = pre ++ [x] ++ xs := by
        rw [List.append_assoc]
        rfl
      have hlen : (pre ++ [x]).length = pre.length + 1 := by
        rw [List.length_append]
        rfl
      rw [hsplit] at hbest ⊢
      rw [← hlen]
      refine ih _ _ ?_ fun y hy => ?_
      · split_ifs
        · rw [List.append_assoc, List.getElem?_append_right (Nat.le_refl _),
            Nat.sub_self]
          rfl
        · exact hbest
      · rcases List.mem_append.mp hy with hy | hy
        · split_ifs with hx
          · exact (le_of_lt hx).trans (hmin y hy)
          · exact hmin y hy
        · rw [List.mem_singleton.mp hy]
          split_ifs with hx
          · exact le_rfl
          · exact not_lt.mp hx

/-- After as many rounds as there are elements, the array is sorted. -/
theorem pairwise_selectionSort [LinearOrder α] {n : ℕ} {l : List α} (h : l.length ≤ n) :
    (selectionSort (· < ·) n l).Pairwise (· ≤ ·) := by
  induction n generalizing l with
  | zero =>
      rw [List.length_eq_zero_iff.mp (Nat.le_zero.mp h)]
      exact .nil
  | succ n ih =>
      cases l with
      | nil => exact .nil
      | cons a l =>
          obtain ⟨hget, hmin⟩ := scanBest_spec [a] l (a, 0) rfl
            fun y hy => ge_of_eq (List.mem_singleton.mp hy)
          rw [List.length_singleton] at hget hmin
          have hswap := List.swap_perm (a :: l) 0 (scanBest (· < ·) (a, 0) 1 l).2
          -- the element found is the first one now
          have hhead : ((a :: l).swap 0 (scanBest (· < ·) (a, 0) 1 l).2)[0]? =
              some (scanBest (· < ·) (a, 0) 1 l).1 := by
            set r := scanBest (· < ·) (a, 0) 1 l
            cases hr : r.2 with
            | zero =>
                rw [hr] at hget
                exact hget
            | succ j =>
                rw [hr] at hget
                simp only [List.singleton_append, List.getElem?_cons_succ] at hget
                simp [List.swap, hget]
          rw [selectionSort]
          cases hs : (a :: l).swap 0 (scanBest (· < ·) (a, 0) 1 l).2 with
          | nil => exact .nil
          | cons b rest =>
              rw [hs] at hswap hhead
              obtain rfl : b = (scanBest (· < ·) (a, 0) 1 l).1 := Option.some.inj hhead
              have hlen : rest.length = l.length := Nat.succ.inj hswap.length_eq
              refine List.pairwise_cons.mpr ⟨fun y hy => ?_, ih ?_⟩
              · refine hmin y ?_
                exact hswap.subset (List.mem_cons_of_mem _ ((perm_selectionSort _ _ _).subset hy))
              · rw [hlen]
                exact Nat.le_of_succ_le_succ h
