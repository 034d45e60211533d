import Emp.Mapper.Installs

/-!
# What an eviction removes

`unmap_ptes` goes through the mapping records until none is left.  It removes the ptes of the
vmrs that have one, each in the pages that the vmr sees, and no others.

## Main definitions

* `HptBlock.Cleared` — records are removed, with the ptes that they stand for.
* `HptBlock.Covered` — every pte is one that a record stands for.
-/

namespace Emp

namespace MapperList

variable {V P : Type*} [DecidableEq V] {s : MapperList V P} {v : V}

/-- A record less. -/
theorem pop_lookup (h : s.Legal) (v : V) : (s.empLpPopPmd v).2.Legal ∧
    ∀ w, (s.empLpPopPmd v).2.empLpLookupPmd w = if w = v then none else s.empLpLookupPmd w := by
  obtain ⟨hlegal, hstep⟩ := pop_spec h v
  refine ⟨hlegal, fun w => ?_⟩
  have hpmd : (s.empLpPopPmd v).2.mappers.pmd = Function.update s.mappers.pmd v none := by
    generalize (s.empLpPopPmd v).2.mappers = m at hstep
    generalize (s.empLpPopPmd v).1 = q at hstep
    cases hstep with
    | popUnknown hv =>
        rw [← hv]
        exact (Function.update_eq_self _ _).symm
    | popOther _ _ => rfl
    | popOwner _ _ _ _ => rfl
    | popLast _ _ => rfl
  have happ := congrFun hpmd w
  rw [Function.update_apply] at happ
  exact happ

end MapperList

namespace HptBlock

variable {V P : Type*} [DecidableEq V] {s t u : HptBlock V P} {i j k : ℕ} {v w : V} {o : ℕ}

/-- From `s` to `t` records are removed, with the ptes that they stand for. -/
structure Cleared (s t : HptBlock V P) : Prop where
  view : s.SameView t
  legal : t.Legal
  pmd : ∀ j w, t.pmdOf j w = none ∨ t.pmdOf j w = s.pmdOf j w
  pte : ∀ j w o, t.pte j w o =
    if s.pmdOf j w ≠ none ∧ t.pmdOf j w = none ∧ inRun (s.pageOff w) (s.pageLen w) o = true then
      none
    else s.pte j w o

theorem Cleared.refl (h : s.Legal) : Cleared s s := by
  refine ⟨⟨rfl, rfl, rfl, rfl⟩, h, fun _ _ => .inr rfl, fun j w o => ?_⟩
  rw [if_neg fun h => h.1 h.2.1]

theorem Cleared.trans (h : Cleared s t) (h' : Cleared t u) : Cleared s u := by
  refine ⟨h.view.trans h'.view, h'.legal, fun j w => ?_, fun j w o => ?_⟩
  · rcases h'.pmd j w with hnone | heq
    · exact .inl hnone
    · rw [heq]
      exact h.pmd j w
  · rw [h'.pte j w o, h.pte j w o, h.view.pageOff, h.view.pageLen]
    rcases h'.pmd j w with hu | hu
    · rcases h.pmd j w with ht | ht
      · simp only [hu, ht, ne_eq, not_true_eq_false, false_and, if_false, true_and]
      · simp only [hu, ht, true_and]
        split_ifs with h₁ h₂
        · rfl
        · exact absurd h₂.2.1 h₂.1
        · rfl
    · simp only [hu]
      rw [if_neg fun h => h.1 h.2.1]

theorem cleared_unmapSubblock (hl : s.Legal) (hi : i < s.descSize) (v : V) :
    Cleared s (s.unmapSubblock v i) ∧ (s.unmapSubblock v i).pmdOf i v = none := by
  by_cases hv : (s.lp i).empLpLookupVmr v = true
  · have hsome := (MapperList.lookupVmr_iff (hl i hi)).mp hv
    obtain ⟨hlegal, hlook⟩ := MapperList.pop_lookup (hl i hi) v
    have hlp : (s.unmapSubblock v i).lp =
        Function.update s.lp i ((s.lp i).empLpPopPmd v).2 := by
      rw [unmapSubblock, if_pos hv]
    have hpmd : ∀ j w, (s.unmapSubblock v i).pmdOf j w =
        if j = i ∧ w = v then none else s.pmdOf j w := by
      intro j w
      rw [pmdOf, hlp]
      by_cases hj : j = i
      · rw [hj, Function.update_self, hlook]
        exact if_congr (by simp) rfl rfl
      · rw [Function.update_of_ne hj, if_neg fun h => hj h.1]
        rfl
    have hview : s.SameView (s.unmapSubblock v i) := by
      rw [unmapSubblock, if_pos hv]
      exact ⟨rfl, rfl, rfl, rfl⟩
    refine ⟨⟨hview, fun j hj => ?_, fun j w => ?_, fun j w o => ?_⟩, ?_⟩
    · rw [hlp]
      by_cases hji : j = i
      · rw [hji, Function.update_self]
        exact hlegal
      · rw [Function.update_of_ne hji]
        exact hl j (hview.descSize ▸ hj)
    · rw [hpmd]
      split_ifs
      · exact .inl rfl
      · exact .inr rfl
    · have hpte : (s.unmapSubblock v i).pte j w o =
          if j = i ∧ w = v ∧ inRun (s.pageOff v) (s.pageLen v) o = true then none
          else s.pte j w o := by
        rw [unmapSubblock, if_pos hv]
        simp only [Function.update_apply]
        by_cases hj : j = i
        · by_cases hw : w = v
          · simp only [hj, hw, if_true, Function.update_self, true_and]
          · simp only [hj, hw, if_true, Function.update_of_ne hw, false_and, and_false, if_false]
        · simp only [hj, if_false, false_and]
      rw [hpte, hpmd]
      by_cases hjw : j = i ∧ w = v
      · obtain ⟨rfl, rfl⟩ := hjw
        have hne : s.pmdOf j w ≠ none := hsome
        simp only [and_self, if_true, true_and, ne_eq, hne, not_false_eq_true]
      · rw [if_neg fun h => hjw ⟨h.1, h.2.1⟩, if_neg hjw, if_neg fun h => h.1 h.2.1]
    · rw [hpmd, if_pos ⟨rfl, rfl⟩]
  · rw [unmapSubblock, if_neg hv]
    exact ⟨Cleared.refl hl, MapperList.lookupVmr_eq_false (Bool.eq_false_iff.mpr hv)⟩

theorem Cleared.none_of_none (h : Cleared s t) (hnone : s.pmdOf j w = none) :
    t.pmdOf j w = none := (h.pmd j w).elim id fun heq => heq.trans hnone

theorem cleared_unmapBlock (hl : s.Legal) (v : V) (hk : k ≤ s.descSize) :
    Cleared s (s.unmapBlock v k) ∧ ∀ j < k, (s.unmapBlock v k).pmdOf j v = none := by
  induction k with
  | zero => exact ⟨Cleared.refl hl, nofun⟩
  | succ k ih =>
      obtain ⟨hclear, hnone⟩ := ih (Nat.le_of_succ_le hk)
      obtain ⟨hstep, hself⟩ := cleared_unmapSubblock hclear.legal (hclear.view.descSize ▸ hk) v
      refine ⟨hclear.trans hstep, fun j hj => ?_⟩
      rcases Nat.lt_succ_iff_lt_or_eq.mp hj with hlt | rfl
      · exact hstep.none_of_none (hnone j hlt)
      · exact hself

/-- Every round of `unmap_ptes` removes a record of the subblock at least. -/
theorem cleared_unmapRecords {rounds : ℕ} (hl : s.Legal) (hi : i < s.descSize)
    (hrounds : (s.lp i).names.card ≤ rounds) :
    ∃ t, s.unmapRecords i rounds = some t ∧ Cleared s t ∧ ∀ w, t.pmdOf i w = none := by
  have hempty : ∀ {s : HptBlock V P}, (s.lp i).records = [] → ∀ w, s.pmdOf i w = none := by
    intro s hrec w
    rw [pmdOf, MapperList.empLpLookupPmd, hrec]
    rfl
  induction rounds generalizing s with
  | zero =>
      have hnone := (MapperList.names_empty_iff (hl i hi)).mp
        (Finset.card_eq_zero.mp (Nat.le_zero.mp hrounds))
      have hrec := MapperList.records_none hnone
      exact ⟨s, by rw [unmapRecords, if_pos hrec], Cleared.refl hl, hempty hrec⟩
  | succ rounds ih =>
      rw [unmapRecords]
      cases hrec : (s.lp i).records with
      | nil => exact ⟨s, rfl, Cleared.refl hl, hempty hrec⟩
      | cons r l =>
          have hmem : r ∈ (s.lp i).records := hrec ▸ List.mem_cons_self
          obtain ⟨v, hv⟩ := Option.ne_none_iff_exists'.mp ((hl i hi).distinct.named r hmem).1
          simp only [List.head?_cons, Option.bind_some, hv]
          obtain ⟨hclear, hnone⟩ := cleared_unmapBlock hl v le_rfl
          have hi' : i < (s.unmapBlock v s.descSize).descSize := hclear.view.descSize.symm ▸ hi
          have hlt : ((s.unmapBlock v s.descSize).lp i).names ⊂ (s.lp i).names := by
            have hli := hclear.legal i hi'
            have hvin : v ∈ (s.lp i).names := by
              rw [MapperList.names, List.mem_toFinset, List.mem_filterMap]
              exact ⟨r, hmem, hv⟩
            have hvout : v ∉ ((s.unmapBlock v s.descSize).lp i).names := fun h =>
              (MapperList.mem_names hli).mp h (hnone i hi)
            refine Finset.ssubset_iff_subset_ne.mpr ⟨fun w hw => ?_, fun heq => ?_⟩
            · rw [MapperList.mem_names hli] at hw
              rw [MapperList.mem_names (hl i hi)]
              exact fun h => hw (hclear.none_of_none h)
            · rw [heq] at hvout
              exact hvout hvin
          have hcard := Finset.card_lt_card hlt
          obtain ⟨t, ht, hrest, hdone⟩ := ih hclear.legal hi' (by omega)
          exact ⟨t, ht, hclear.trans hrest, hdone⟩

theorem cleared_unmapLoop (hl : s.Legal) (hk : k ≤ s.descSize) :
    ∃ t, s.unmapLoop k = some t ∧ Cleared s t ∧ ∀ j < k, ∀ w, t.pmdOf j w = none := by
  induction k with
  | zero => exact ⟨s, rfl, Cleared.refl hl, nofun⟩
  | succ k ih =>
      obtain ⟨t, ht, hclear, hnone⟩ := ih (Nat.le_of_succ_le hk)
      have hkt : k < t.descSize := hclear.view.descSize ▸ hk
      have hcount := MapperList.card_names (hclear.legal k hkt)
      rw [(hclear.legal k hkt).count] at hcount
      obtain ⟨u, hu, hrest, hdone⟩ := cleared_unmapRecords hclear.legal hkt
        (by exact_mod_cast hcount.ge)
      refine ⟨u, by rw [unmapLoop, ht, Option.bind_some, hu], hclear.trans hrest, fun j hj => ?_⟩
      rcases Nat.lt_succ_iff_lt_or_eq.mp hj with hlt | rfl
      · exact fun w => hrest.none_of_none (hnone j hlt w)
      · exact hdone

/-- Every pte is one that a record stands for, but for those of `ahead`. -/
def Covered (ahead : ℕ → V → ℕ → Prop) (s : HptBlock V P) : Prop :=
  ∀ i < s.descSize, ∀ v o, (s.pte i v o).isSome → ¬ ahead i v o →
    s.pmdOf i v ≠ none ∧ inRun (s.pageOff v) (s.pageLen v) o = true

/-- An eviction removes every pte, but for those of `ahead`. -/
def Evicts (ahead : ℕ → V → ℕ → Prop) (s : HptBlock V P) : Prop :=
  ∃ t, s.unmapPtes = some t ∧ ∀ i < s.descSize, ∀ v o, (t.pte i v o).isSome → ahead i v o

/-- An eviction removes exactly the ptes that records stand for. -/
theorem evicts_iff {ahead : ℕ → V → ℕ → Prop} (hl : s.Legal) :
    Evicts ahead s ↔ Covered ahead s := by
  obtain ⟨t, ht, hclear, hnone⟩ := cleared_unmapLoop hl (le_refl s.descSize)
  have hpte : ∀ i < s.descSize, ∀ v o, t.pte i v o =
      if s.pmdOf i v ≠ none ∧ inRun (s.pageOff v) (s.pageLen v) o = true then none
      else s.pte i v o := by
    intro i hi v o
    rw [hclear.pte, hnone i hi v]
    exact if_congr (by simp) rfl rfl
  constructor
  · rintro ⟨t', ht', hall⟩ i hi v o ho hahead
    obtain rfl : t = t' := Option.some.inj (ht.symm.trans ht')
    by_contra hcover
    have hsome := hall i hi v o
    rw [hpte i hi, if_neg hcover] at hsome
    exact hahead (hsome ho)
  · intro hcover
    refine ⟨t, ht, fun i hi v o ho => ?_⟩
    by_contra hahead
    rw [hpte i hi] at ho
    split_ifs at ho with hin
    · cases ho
    · exact hin (hcover i hi v o ho hahead)

end HptBlock

end Emp
