import Mathlib.Data.List.Count
import Mathlib.Data.Nat.Notation
import Mathlib.Logic.Function.Basic

/-!
# Objects that are freed

Objects are named by numbers that stand for their addresses.  The heap counts how often each
of them was freed, and remembers whether one was used or freed again after it had been.  What a
freed object holds stays readable, as memory does.

## Main definitions

* `Heap` — the objects, how often each was freed, and whether a freed one was touched.
* `Heap.touch`, `Heap.modify`, `Heap.free`, `Heap.freeAll` — the accesses.
-/

/-- Objects in memory. -/
structure Heap (α : Type*) where
  cell : ℕ → α
  frees : ℕ → ℕ
  /-- An object was accessed after it had been freed. -/
  stale : Bool

namespace Heap

variable {α : Type*} (h : Heap α) (w v : ℕ) (f : α → α)

/-- An access to object `w`. -/
def touch : Heap α := { h with stale := h.stale || decide (h.frees w ≠ 0) }

/-- Object `w` is written. -/
def modify : Heap α :=
  { h.touch w with cell := Function.update h.cell w (f (h.cell w)) }

/-- Object `w` is freed. -/
def free : Heap α :=
  { h.touch w with frees := Function.update h.frees w (h.frees w + 1) }

/-- All objects of a list are freed, in order. -/
def freeAll (l : List ℕ) : Heap α := l.foldl free h

@[simp] theorem cell_touch : (h.touch w).cell = h.cell := rfl
@[simp] theorem frees_touch : (h.touch w).frees = h.frees := rfl
@[simp] theorem cell_modify : (h.modify w f).cell = Function.update h.cell w (f (h.cell w)) := rfl
@[simp] theorem frees_modify : (h.modify w f).frees = h.frees := rfl
@[simp] theorem cell_free : (h.free w).cell = h.cell := rfl
@[simp] theorem frees_free :
    (h.free w).frees = Function.update h.frees w (h.frees w + 1) := rfl

theorem cell_modify_self : (h.modify w f).cell w = f (h.cell w) := by simp

theorem cell_modify_of_ne {w v : ℕ} (hv : v ≠ w) : (h.modify w f).cell v = h.cell v := by simp [hv]

variable {h w v f}

/-- An access to an object that is alive. -/
theorem stale_touch (hw : h.frees w = 0) : (h.touch w).stale = h.stale := by simp [touch, hw]

theorem stale_modify (hw : h.frees w = 0) : (h.modify w f).stale = h.stale := stale_touch hw

theorem stale_free (hw : h.frees w = 0) : (h.free w).stale = h.stale := stale_touch hw

@[simp] theorem freeAll_nil : h.freeAll [] = h := rfl

@[simp] theorem freeAll_cons (l : List ℕ) : h.freeAll (w :: l) = (h.free w).freeAll l := rfl

@[simp] theorem cell_freeAll (l : List ℕ) : (h.freeAll l).cell = h.cell := by
  induction l generalizing h with
  | nil => rfl
  | cons w l ih => rw [freeAll_cons, ih, cell_free]

/-- Every object is freed as often as it is in the list. -/
theorem frees_freeAll (l : List ℕ) : (h.freeAll l).frees v = h.frees v + l.count v := by
  induction l generalizing h with
  | nil => simp
  | cons w l ih =>
      rw [freeAll_cons, ih, frees_free, List.count_cons]
      by_cases hv : v = w
      · subst hv
        simp
        omega
      · simp [hv, Ne.symm hv]

/-- Objects that are alive and different are freed properly. -/
theorem stale_freeAll {l : List ℕ} (hl : l.Nodup) (hw : ∀ w ∈ l, h.frees w = 0) :
    (h.freeAll l).stale = h.stale := by
  induction l generalizing h with
  | nil => rfl
  | cons w l ih =>
      obtain ⟨hnot, hl⟩ := List.nodup_cons.mp hl
      rw [freeAll_cons, ih hl, stale_free (hw w List.mem_cons_self)]
      intro v hv
      have hne : v ≠ w := by
        rintro rfl
        exact hnot hv
      rw [frees_free, Function.update_of_ne hne]
      exact hw v (List.mem_cons_of_mem _ hv)

end Heap
