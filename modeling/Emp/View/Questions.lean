import Emp.Lib.Transition
import Emp.View.Release

/-!
# What a close asks the view list

The two questions to the view list need nothing but the order of its entries, which additions,
deletions and splits keep.  `find_uncovered` is exact when it has an answer, and has none only at a
view with something left on both of its sides.  `is_covered` tells exactly whether a view overlaps
the range that it is asked about; for an empty range inside a view that is not to say that they
share a page.

## Main definitions

* `ViewOp`, `ViewList.step` — the operations on the list.
* `ViewList.Sorted` — its order.
* `ViewList.Overlaps`, `ViewList.Meets` — a view reaches into a range, or shares a page with it.
-/

namespace Emp

/-- The operations on a view list; `alloc` tells whether each entry can be allocated. -/
inductive ViewOp
  | add (start finish : ℕ) (firstOrShared alloc : Bool)
  | del (start finish : ℕ)
  | split (start finish mid : ℕ) (alloc1 alloc2 : Bool)

namespace ViewList

variable {vs : List View} {start finish s e p : ℕ} {l l' : ViewList} {node : Bool}

def step (l : ViewList) : ViewOp → Option ViewList
  | .add start finish firstOrShared alloc => l.empVmdescViewAdd start finish firstOrShared alloc
  | .del start finish => some (l.empVmdescViewDel start finish)
  | .split start finish mid alloc1 alloc2 => l.empVmdescViewSplit start finish mid alloc1 alloc2

/-- The entries are in the order of their starts. -/
def Sorted (l : ViewList) : Prop := (l.head :: l.next).Pairwise fun v w => v.start ≤ w.start

/-- A view starts before the range ends and ends behind its start. -/
def Overlaps (l : ViewList) (start finish : ℕ) : Prop :=
  ∃ v ∈ l.head :: l.next, 0 < v.count ∧ v.start < finish ∧ start < v.finish

/-- A view and the range share a page. -/
def Meets (l : ViewList) (start finish : ℕ) : Prop :=
  ∃ p, start ≤ p ∧ p < finish ∧ Covered (l.head :: l.next) p

/-! ### The order -/

/-- An entry at hand that is not needed does no harm. -/
theorem addNext_of_false {ws : List View} (h : addNext false start finish vs = some ws) :
    addNext true start finish vs = some ws := by
  induction vs generalizing ws with
  | nil => cases h
  | cons v vs ih =>
      simp only [addNext] at h ⊢
      by_cases his : v.Is start finish
      · rw [if_pos his] at h ⊢
        exact h
      · rw [if_neg his] at h ⊢
        by_cases hafter : v.After start finish
        · rw [if_pos hafter] at h
          cases h
        · rw [if_neg hafter] at h ⊢
          obtain ⟨vs', hvs', rfl⟩ := Option.map_eq_some_iff.mp h
          rw [ih hvs', Option.map_some]

theorem addUnderLock_of_false (h : l.addUnderLock false start finish = some l') :
    l.addUnderLock true start finish = some l' := by
  simp only [addUnderLock] at h ⊢
  by_cases hzero : l.head.count = 0
  · rw [if_pos hzero] at h ⊢
    exact h
  · rw [if_neg hzero] at h ⊢
    by_cases his : l.head.Is start finish
    · rw [if_pos his] at h ⊢
      exact h
    · rw [if_neg his] at h ⊢
      by_cases hafter : l.head.After start finish
      · rw [if_pos hafter] at h
        cases h
      · rw [if_neg hafter] at h ⊢
        obtain ⟨vs', hvs', rfl⟩ := Option.map_eq_some_iff.mp h
        rw [addNext_of_false hvs', Option.map_some]

theorem wellFormed_addUnderLock (h : l.WellFormed)
    (hl : l.addUnderLock node start finish = some l') : l'.WellFormed := by
  have htrue : l.addUnderLock true start finish = some l' := by
    cases node with
    | true => exact hl
    | false => exact addUnderLock_of_false hl
  obtain ⟨l'', hl'', hwf, -⟩ : ∃ l'', l.addUnderLock true start finish = some l'' ∧
      l''.WellFormed ∧ l''.entries = Counted.bump (toLex (start, finish)) l.entries :=
    addUnderLock_spec h (.inl rfl)
  rw [htrue] at hl''
  exact Option.some.inj hl'' ▸ hwf

/-- The search finds only what is viewed. -/
theorem mem_units_of_delNext {ws : List View} (h : delNext start finish vs = some ws) :
    ∃ v ∈ vs, 0 < v.count ∧ v.start = start ∧ v.finish = finish := by
  induction vs generalizing ws with
  | nil => cases h
  | cons v vs ih =>
      simp only [delNext] at h
      by_cases his : 0 < v.count ∧ v.Is start finish
      · exact ⟨v, List.mem_cons_self, his.1, his.2⟩
      · rw [if_neg his] at h
        obtain ⟨vs', hvs', -⟩ := Option.map_eq_some_iff.mp h
        obtain ⟨w, hw, hview⟩ := ih hvs'
        exact ⟨w, List.mem_cons_of_mem v hw, hview⟩

theorem wellFormed_del (h : l.WellFormed) (start finish : ℕ) :
    (l.empVmdescViewDel start finish).WellFormed := by
  by_cases hmem : toLex (start, finish) ∈ l.units
  · exact (empVmdescViewDel_spec h hmem).1
  · -- an interval that is not viewed is only reported
    have hnone : ∀ v ∈ l.head :: l.next, ¬ (0 < v.count ∧ v.Is start finish) := fun v hv hview =>
      hmem ((mem_units_iff h).mpr ⟨v, hv, hview.1, hview.2.1, hview.2.2⟩)
    rw [empVmdescViewDel, if_neg (hnone l.head List.mem_cons_self)]
    cases hd : delNext start finish l.next with
    | none => exact h
    | some ws =>
        obtain ⟨v, hv, hview⟩ := mem_units_of_delNext hd
        exact absurd hview (hnone v (List.mem_cons_of_mem _ hv))

theorem wellFormed_init : empVmdescViewInit.WellFormed :=
  ⟨Counted.wellFormed_nil, fun _ => rfl⟩

theorem wellFormed_step {op : ViewOp} (h : l.WellFormed) (hs : l.step op = some l') :
    l'.WellFormed := by
  cases op with
  | add start finish firstOrShared alloc =>
      simp only [step, empVmdescViewAdd] at hs
      split_ifs at hs
      · exact wellFormed_addUnderLock h hs
      · exact wellFormed_addUnderLock h hs
  | del start finish =>
      obtain rfl := Option.some.inj hs
      exact wellFormed_del h start finish
  | split start finish mid alloc1 alloc2 =>
      simp only [step, empVmdescViewSplit] at hs
      split_ifs at hs
      obtain ⟨l₁, hl₁, hl₂⟩ := Option.bind_eq_some_iff.mp hs
      exact wellFormed_addUnderLock (wellFormed_addUnderLock (wellFormed_del h _ _) hl₁) hl₂

theorem sorted_of_reach (h : Transition.Reach (· = empVmdescViewInit) step l) : l.Sorted :=
  pairwise_start (h.invariant (fun _ heq => heq ▸ wellFormed_init)
    fun _ _ _ hi _ hs => wellFormed_step hi hs)

/-! ### The answers -/

/-- The walk gives up only at a view with something left on both of its sides: a page that nobody
views in front of it, and behind it one that neither it nor the views before it cover. -/
theorem exists_hole_of_uncoveredFrom (hsorted : vs.Pairwise fun v w => v.start ≤ w.start)
    (h : uncoveredFrom vs start finish = none) :
    ∃ vs₁ v vs₂, vs = vs₁ ++ v :: vs₂ ∧ 0 < v.count ∧
      (∃ p, start ≤ p ∧ p < v.start ∧ ¬ Covered vs p) ∧
      ∃ q, start ≤ q ∧ v.finish ≤ q ∧ q < finish ∧ ¬ Covered (vs₁ ++ [v]) q := by
  induction vs generalizing start finish with
  | nil => cases h
  | cons v vs ih =>
      have hsort := List.pairwise_cons.mp hsorted
      simp only [uncoveredFrom] at h
      -- a view in front of the rest that does not reach into it
      have hfront : ∀ from', start ≤ from' → (0 < v.count → v.finish ≤ from') →
          uncoveredFrom vs from' finish = none → ∃ vs₁ w vs₂, v :: vs = vs₁ ++ w :: vs₂ ∧
            0 < w.count ∧ (∃ p, start ≤ p ∧ p < w.start ∧ ¬ Covered (v :: vs) p) ∧
            ∃ q, start ≤ q ∧ w.finish ≤ q ∧ q < finish ∧ ¬ Covered (vs₁ ++ [w]) q := by
        intro from' hle hend hnone
        obtain ⟨vs₁, w, vs₂, rfl, hw, ⟨p, hp, hpw, hpc⟩, q, hq, hwq, hqf, hqc⟩ := ih hsort.2 hnone
        refine ⟨v :: vs₁, w, vs₂, rfl, hw, ⟨p, hle.trans hp, hpw, fun hc => ?_⟩,
          q, hle.trans hq, hwq, hqf, fun hc => ?_⟩
        · rcases covered_cons.mp hc with ⟨hpos, -, hlt⟩ | hc
          · exact absurd (hend hpos) (by omega)
          · exact hpc hc
        · rcases covered_cons.mp hc with ⟨hpos, -, hlt⟩ | hc
          · exact absurd (hend hpos) (by omega)
          · exact hqc hc
      split_ifs at h with hskip hbehind hfull hinner hleft
      · exact hfront start le_rfl (fun hpos => hskip.resolve_left hpos.ne') h
      · refine ⟨[], v, vs, rfl, by omega, ⟨start, le_rfl, hinner.1, fun hc => ?_⟩,
          v.finish, by omega, le_rfl, hinner.2, fun hc => ?_⟩
        · rcases covered_cons.mp hc with ⟨-, hle, -⟩ | ⟨w, hw, -, hle, -⟩
          · omega
          · have := hsort.1 w hw
            omega
        · obtain ⟨w, hw, -, -, hlt⟩ := hc
          obtain rfl := List.mem_singleton.mp hw
          omega
      · exact hfront v.finish (by omega) (fun _ => le_rfl) h

theorem isCovered_iff_overlaps (h : l.Sorted) :
    l.isCovered start finish = true ↔ l.Overlaps start finish := coveredFrom_iff h

/-- Where the range and the views are not empty, to overlap is to share a page. -/
theorem overlaps_iff_meets (hlt : start < finish) (hviews : ∀ v ∈ l.head :: l.next, 0 < v.count →
    v.start < v.finish) : l.Overlaps start finish ↔ l.Meets start finish := by
  refine ⟨fun ⟨v, hv, hpos, hs, hf⟩ => ?_, fun ⟨p, hp, hpf, v, hv, hpos, hs, hf⟩ =>
    ⟨v, hv, hpos, by omega, by omega⟩⟩
  have hne := hviews v hv hpos
  exact ⟨max start v.start, by omega, by omega, v, hv, hpos, by omega, by omega⟩

end ViewList

end Emp
