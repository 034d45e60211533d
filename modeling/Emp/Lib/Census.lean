import Mathlib.Data.Nat.Count

/-!
# Counting the numbers below a bound that have a property

A counter that is raised and lowered one by one, or by the size of a whole class,
stands for the number of the things that have some property.  The lemmas say how that
number moves when the property does.

## Main definitions

None: the number of `k < n` with `p k` is `Nat.count p n`.
-/

namespace Census

variable {p q r : ℕ → Prop} [DecidablePred p] [DecidablePred q] [DecidablePred r] {n k : ℕ}

theorem count_congr (h : ∀ i < n, p i ↔ q i) : Nat.count p n = Nat.count q n :=
  Nat.le_antisymm (Nat.count_mono_left fun i hi => (h i hi).mp)
    (Nat.count_mono_left fun i hi => (h i hi).mpr)

/-- A property that falls into two exclusive ones. -/
theorem count_split (h : ∀ i < n, p i ↔ q i ∨ r i) (hdisj : ∀ i < n, q i → ¬ r i) :
    Nat.count p n = Nat.count q n + Nat.count r n := by
  induction n with
  | zero => simp
  | succ n ih =>
      have hn := h n (Nat.lt_succ_self n)
      have hd := hdisj n (Nat.lt_succ_self n)
      rw [Nat.count_succ, Nat.count_succ, Nat.count_succ,
        ih (fun i hi => h i (Nat.lt_succ_of_lt hi)) fun i hi => hdisj i (Nat.lt_succ_of_lt hi)]
      by_cases hq : q n
      · have hp : p n := hn.mpr (Or.inl hq)
        have hr : ¬ r n := hd hq
        simp [hp, hq, hr]
        omega
      · by_cases hr : r n
        · have hp : p n := hn.mpr (Or.inr hr)
          simp [hp, hq, hr]
          omega
        · have hp : ¬ p n := fun hp => (hn.mp hp).elim hq hr
          simp [hp, hq, hr]

theorem count_eq (h : k < n) : Nat.count (fun i => i = k) n = 1 := by
  induction n with
  | zero => omega
  | succ n ih =>
      rw [Nat.count_succ]
      by_cases hk : n = k
      · subst hk
        have hzero : Nat.count (fun i => i = n) n = 0 := by
          rw [Nat.count_iff_forall_not]
          intro i hi
          omega
        simp [hzero]
      · have hlt : k < n := by omega
        simp [ih hlt, hk]

/-- One of them loses the property. -/
theorem count_remove (hk : k < n) (hp : p k) (h : ∀ i < n, q i ↔ p i ∧ i ≠ k) :
    Nat.count p n = Nat.count q n + 1 := by
  rw [← count_eq hk]
  apply count_split
  · intro i hi
    rw [h i hi]
    by_cases hik : i = k
    · simp [hik, hp]
    · simp [hik]
  · intro i hi hq
    exact ((h i hi).mp hq).2

/-- One number changes. -/
theorem count_change (hk : k < n) (h : ∀ i < n, i ≠ k → (p i ↔ q i)) :
    Nat.count q n + (if p k then 1 else 0) = Nat.count p n + if q k then 1 else 0 := by
  have hrest : Nat.count (fun i => q i ∧ i ≠ k) n = Nat.count (fun i => p i ∧ i ≠ k) n :=
    count_congr fun i hi => and_congr_left fun hne => (h i hi hne).symm
  have hout : ∀ (r : ℕ → Prop) [DecidablePred r],
      Nat.count r n = Nat.count (fun i => r i ∧ i ≠ k) n + if r k then 1 else 0 := by
    intro r _
    split_ifs with hr
    · exact count_remove hk hr fun _ _ => Iff.rfl
    · refine count_congr fun i _ => (and_iff_left_of_imp ?_).symm
      rintro hri rfl
      exact hr hri
  rw [hout p, hout q, hrest]
  omega

/-- A new one, with or without the property. -/
theorem count_extend (h : ∀ i < n, q i ↔ p i) :
    Nat.count q (n + 1) = Nat.count p n + if q n then 1 else 0 := by
  rw [Nat.count_succ, count_congr h]

theorem count_pos (hk : k < n) (hp : p k) : 0 < Nat.count p n :=
  Nat.pos_of_ne_zero (Nat.count_ne_iff_exists.mpr ⟨k, hk, hp⟩)

theorem not_of_count_eq_zero (h : Nat.count p n = 0) {i : ℕ} (hi : i < n) : ¬ p i :=
  Nat.count_iff_forall_not.mp h i hi

/-- A list without repetitions. -/
theorem count_mem {l : List ℕ} (hnd : l.Nodup) (hl : ∀ i ∈ l, i < n) (f : ℕ → Bool) :
    Nat.count (fun i => i ∈ l ∧ f i = true) n = l.countP f := by
  induction l with
  | nil => simp
  | cons k l ih =>
      obtain ⟨hk, hnd⟩ := List.nodup_cons.mp hnd
      have hsplit : Nat.count (fun i => i ∈ k :: l ∧ f i = true) n =
          Nat.count (fun i => i ∈ l ∧ f i = true) n +
            Nat.count (fun i => i = k ∧ f i = true) n := by
        apply count_split
        · intro i _
          simp only [List.mem_cons, or_and_right, or_comm]
        · rintro i _ ⟨hil, -⟩ ⟨rfl, -⟩
          exact hk hil
      have hone : Nat.count (fun i => i = k ∧ f i = true) n = if f k = true then 1 else 0 := by
        by_cases hf : f k = true
        · rw [if_pos hf, ← count_eq (hl k (by simp))]
          apply count_congr
          intro i _
          exact ⟨fun h => h.1, fun h => ⟨h, h ▸ hf⟩⟩
        · rw [if_neg hf, Nat.count_iff_forall_not]
          rintro i _ ⟨rfl, h⟩
          exact hf h
      rw [hsplit, ih hnd fun i hi => hl i (by simp [hi]), hone, List.countP_cons]

theorem length_eq_count {l : List ℕ} (hnd : l.Nodup) (h : ∀ i, i ∈ l ↔ i < n ∧ p i) :
    l.length = Nat.count p n := by
  have hcount := count_mem hnd (fun i hi => ((h i).mp hi).1) fun _ => true
  rw [List.countP_true] at hcount
  rw [← hcount]
  apply count_congr
  intro i hi
  rw [h i]
  simp [hi]

end Census
