import Mathlib.Data.List.Induction
import Mathlib.Data.Nat.Notation
import Mathlib.Logic.Function.Basic

/-!
# A list of writes to cells

Each event `e` writes `value e` to the cell `cell e`.  When all events that write one
cell agree on the value, the cell's final content does not depend on the order in
which the events come.

## Main definitions

* `scatter` — the contents of the cells after a list of events.
-/

namespace Scatter

variable {ε κ β : Type*} [DecidableEq κ]

/-- Write the events of a list in order. -/
def scatter (cell : ε → κ) (value : ε → β) (f : κ → β) (l : List ε) : κ → β :=
  l.foldl (fun f e => Function.update f (cell e) (value e)) f

variable {cell : ε → κ} {value : ε → β} {f : κ → β} {l : List ε} {k : κ} {v : β}

@[simp] theorem scatter_nil : scatter cell value f [] = f := rfl

@[simp] theorem scatter_append_singleton (e : ε) :
    scatter cell value f (l ++ [e]) =
      Function.update (scatter cell value f l) (cell e) (value e) := by
  simp [scatter]

/-- A cell that no event writes keeps its content. -/
theorem scatter_of_notMem (h : ∀ e ∈ l, cell e ≠ k) : scatter cell value f l k = f k := by
  induction l using List.reverseRecOn with
  | nil => rfl
  | append_singleton l e ih =>
      have hne : k ≠ cell e := (h e (by simp)).symm
      rw [scatter_append_singleton, Function.update_of_ne hne]
      exact ih fun e' he' => h e' (by simp [he'])

/-- A cell that some event writes, and on which all agree, holds their value. -/
theorem scatter_of_mem (hagree : ∀ e ∈ l, cell e = k → value e = v)
    (hmem : ∃ e ∈ l, cell e = k) : scatter cell value f l k = v := by
  induction l using List.reverseRecOn with
  | nil => simp at hmem
  | append_singleton l e ih =>
      rw [scatter_append_singleton]
      by_cases he : cell e = k
      · subst he
        rw [Function.update_self]
        exact hagree e (by simp) rfl
      · rw [Function.update_of_ne (Ne.symm he)]
        refine ih (fun e' he' => hagree e' (by simp [he'])) ?_
        obtain ⟨e', he', hk⟩ := hmem
        rcases List.mem_append.mp he' with hl | hlast
        · exact ⟨e', hl, hk⟩
        · rw [List.mem_singleton] at hlast
          exact absurd (hlast ▸ hk) he

/-- Either of the two. -/
theorem scatter_eq_or (hagree : ∀ e ∈ l, cell e = k → value e = v) :
    scatter cell value f l k = f k ∨ scatter cell value f l k = v := by
  by_cases hmem : ∃ e ∈ l, cell e = k
  · exact Or.inr (scatter_of_mem hagree hmem)
  · left
    apply scatter_of_notMem
    intro e he hk
    exact hmem ⟨e, he, hk⟩

end Scatter
