import Mathlib.Data.List.Basic
import Mathlib.Data.List.Flatten
import Mathlib.Data.Nat.Notation
import Mathlib.Order.Lattice
import Mathlib.Algebra.Order.Ring.Nat

/-!
# Sorted lists of counted keys

A multiset over a linear order, kept as the list of its distinct elements in increasing
order, each with its multiplicity.  `units` spells the multiset out; `bump` adds one unit of a
key, `drop` takes one away.

## Main definitions

* `Counted.WellFormed` — strictly increasing keys, positive counts.
* `Counted.bump`, `Counted.drop` — one unit more, one less.
* `Counted.units` — the multiset that is counted.
-/

namespace Counted

variable {α : Type*}

/-- Every key as often as it is counted. -/
def units (l : List (α × ℕ)) : List α := l.flatMap fun e => List.replicate e.2 e.1

@[simp] theorem units_nil : units ([] : List (α × ℕ)) = [] := rfl

@[simp] theorem units_cons (e : α × ℕ) (l : List (α × ℕ)) :
    units (e :: l) = List.replicate e.2 e.1 ++ units l := rfl

/-- There are as many units as the counts sum up to. -/
theorem length_units (l : List (α × ℕ)) : (units l).length = (l.map Prod.snd).sum := by
  induction l with
  | nil => rfl
  | cons e l ih => simp [ih]

theorem mem_of_mem_units {a : α} {l : List (α × ℕ)} (h : a ∈ units l) :
    ∃ n, 0 < n ∧ (a, n) ∈ l := by
  simp only [units, List.mem_flatMap, List.mem_replicate] at h
  obtain ⟨⟨b, n⟩, hmem, hn, rfl⟩ := h
  exact ⟨n, Nat.pos_of_ne_zero hn, hmem⟩

variable [LinearOrder α]

/-- The keys increase strictly and every count is positive. -/
structure WellFormed (l : List (α × ℕ)) : Prop where
  sorted : l.Pairwise fun e e' => e.1 < e'.1
  pos : ∀ e ∈ l, 0 < e.2

/-- One unit more of `a`. -/
def bump (a : α) : List (α × ℕ) → List (α × ℕ)
  | [] => [(a, 1)]
  | e :: l =>
    if e.1 = a then (e.1, e.2 + 1) :: l
    else if a < e.1 then (a, 1) :: e :: l
    else e :: bump a l

/-- One unit less of `a`; an entry that counts nothing more is left out. -/
def drop (a : α) : List (α × ℕ) → List (α × ℕ)
  | [] => []
  | e :: l =>
    if e.1 = a then (if e.2 ≤ 1 then l else (e.1, e.2 - 1) :: l)
    else e :: drop a l

attribute [grind =] bump drop

variable {a : α} {l : List (α × ℕ)}

theorem wellFormed_nil : WellFormed ([] : List (α × ℕ)) :=
  ⟨List.Pairwise.nil, fun _ h => by cases h⟩

theorem WellFormed.tail {e : α × ℕ} (h : WellFormed (e :: l)) : WellFormed l :=
  ⟨(List.pairwise_cons.mp h.sorted).2, fun e' he' => h.pos e' (List.mem_cons_of_mem _ he')⟩

theorem WellFormed.cons {e : α × ℕ} (h : WellFormed l) (hlt : ∀ e' ∈ l, e.1 < e'.1)
    (hpos : 0 < e.2) : WellFormed (e :: l) := by
  refine ⟨List.pairwise_cons.mpr ⟨hlt, h.sorted⟩, fun e' he' => ?_⟩
  rcases List.mem_cons.mp he' with rfl | he'
  · exact hpos
  · exact h.pos e' he'

/-! ### Adding a unit -/

theorem bump_ne_nil (a : α) (l : List (α × ℕ)) : bump a l ≠ [] := by
  cases l with
  | nil => exact fun h => by cases h
  | cons e l =>
      simp only [bump]
      split_ifs <;> exact fun h => by cases h

/-- The units grow by one, in whatever order. -/
theorem units_bump (a : α) (l : List (α × ℕ)) : (units (bump a l)).Perm (a :: units l) := by
  induction l with
  | nil => simp [bump]
  | cons e l ih =>
      simp only [bump]
      by_cases he : e.1 = a
      · rw [if_pos he]
        simp [List.replicate_succ, he]
      · rw [if_neg he]
        by_cases hlt : a < e.1
        · rw [if_pos hlt]
          simp
        · rw [if_neg hlt, units_cons, units_cons]
          exact (ih.append_left _).trans List.perm_middle

theorem key_of_mem_bump {e : α × ℕ} (h : e ∈ bump a l) : e.1 = a ∨ ∃ e' ∈ l, e'.1 = e.1 := by
  induction l with
  | nil =>
      simp only [bump, List.mem_singleton] at h
      exact .inl (by rw [h])
  | cons e' l ih =>
      simp only [bump] at h
      split_ifs at h with heq hlt
      · rcases List.mem_cons.mp h with rfl | h
        · exact .inl heq
        · exact .inr ⟨e, List.mem_cons_of_mem _ h, rfl⟩
      · rcases List.mem_cons.mp h with rfl | h
        · exact .inl rfl
        · exact .inr ⟨e, h, rfl⟩
      · rcases List.mem_cons.mp h with rfl | h
        · exact .inr ⟨e, List.mem_cons_self .., rfl⟩
        · rcases ih h with h | ⟨e'', he'', hkey⟩
          · exact .inl h
          · exact .inr ⟨e'', List.mem_cons_of_mem _ he'', hkey⟩

theorem wellFormed_bump (a : α) (h : WellFormed l) : WellFormed (bump a l) := by
  induction l with
  | nil => exact wellFormed_nil.cons (fun _ he => by cases he) Nat.one_pos
  | cons e l ih =>
      have hlt := (List.pairwise_cons.mp h.sorted).1
      have hpos := h.pos e (List.mem_cons_self ..)
      simp only [bump]
      split_ifs with heq hbefore
      · exact h.tail.cons hlt (Nat.succ_pos _)
      · refine h.cons (fun e' he' => ?_) Nat.one_pos
        rcases List.mem_cons.mp he' with rfl | he'
        · exact hbefore
        · exact hbefore.trans (hlt e' he')
      · refine (ih h.tail).cons (fun e' he' => ?_) hpos
        rcases key_of_mem_bump he' with hkey | ⟨e'', he'', hkey⟩
        · rw [hkey]
          exact lt_of_le_of_ne (not_lt.mp hbefore) heq
        · rw [← hkey]
          exact hlt e'' he''

/-! ### Taking a unit away -/

theorem mem_of_mem_drop {e : α × ℕ} (h : e ∈ drop a l) :
    ∃ e' ∈ l, e'.1 = e.1 ∧ (0 < e'.2 → 0 < e.2) := by
  induction l with
  | nil => cases h
  | cons e' l ih =>
      simp only [drop] at h
      split_ifs at h with heq hone
      · exact ⟨e, List.mem_cons_of_mem _ h, rfl, id⟩
      · rcases List.mem_cons.mp h with rfl | h
        · exact ⟨e', List.mem_cons_self .., rfl, fun _ => by simp; omega⟩
        · exact ⟨e, List.mem_cons_of_mem _ h, rfl, id⟩
      · rcases List.mem_cons.mp h with rfl | h
        · exact ⟨e, List.mem_cons_self .., rfl, id⟩
        · obtain ⟨e'', he'', hkey⟩ := ih h
          exact ⟨e'', List.mem_cons_of_mem _ he'', hkey⟩

theorem wellFormed_drop (a : α) (h : WellFormed l) : WellFormed (drop a l) := by
  induction l with
  | nil => exact wellFormed_nil
  | cons e l ih =>
      have hlt := (List.pairwise_cons.mp h.sorted).1
      have hpos := h.pos e (List.mem_cons_self ..)
      simp only [drop]
      split_ifs with heq hone
      · exact h.tail
      · exact h.tail.cons hlt (by simp; omega)
      · refine (ih h.tail).cons (fun e' he' => ?_) hpos
        obtain ⟨e'', he'', hkey, -⟩ := mem_of_mem_drop he'
        rw [← hkey]
        exact hlt e'' he''

/-- The units of a counted key shrink by one. -/
theorem units_drop (h : WellFormed l) (ha : a ∈ units l) :
    (a :: units (drop a l)).Perm (units l) := by
  induction l with
  | nil => cases ha
  | cons e l ih =>
      have hpos := h.pos e (List.mem_cons_self ..)
      simp only [drop]
      by_cases he : e.1 = a
      · rw [if_pos he]
        obtain ⟨m, hm⟩ : ∃ m, e.2 = m + 1 := ⟨e.2 - 1, by omega⟩
        split_ifs with hone
        · have hzero : m = 0 := by omega
          simp [hm, hzero, he]
        · simp [hm, he, List.replicate_succ]
      · rw [if_neg he, units_cons, units_cons]
        have hmem : a ∈ units l := by
          rw [units_cons, List.mem_append, List.mem_replicate] at ha
          rcases ha with ⟨-, hae⟩ | ha
          · exact absurd hae.symm he
          · exact ha
        exact List.perm_middle.symm.trans ((ih h.tail hmem).append_left _)

end Counted
