import Emp.Mapper.Install
import Mathlib.Data.Finset.Card

/-!
# Runs of installations

Whatever `emp_install_hptes` and `sync_hpt_map_in_block` do is a run of installations of a vmr
into a subblock that has no record of it.  An installation adds the record, or drops it when it
cannot be allocated; the records of the other vmrs and of the other subblocks stay.

## Main definitions

* `MapperList.names` — the vmrs that have a record.
* `HptBlock.Installs` — the runs.
* `HptBlock.Grows` — what every run keeps.
-/

namespace Emp

namespace MapperList

variable {V P : Type*} [DecidableEq V] {s : MapperList V P} {v w : V} {p : P}

/-- The vmrs that have a record. -/
def names (s : MapperList V P) : Finset V := (s.records.filterMap MappedPmd.vmr).toFinset

theorem lookupVmr_eq_false (h : s.empLpLookupVmr v = false) : s.empLpLookupPmd v = none :=
  lookupIn_eq_none fun r hr hrv => by
    have hany : s.empLpLookupVmr v = true := any_isOf.mpr ⟨r, hr, hrv⟩
    rw [h] at hany
    cases hany

theorem lookupVmr_iff (h : s.Legal) :
    s.empLpLookupVmr v = true ↔ s.empLpLookupPmd v ≠ none := by
  refine ⟨fun hv hnone => ?_, fun hv => ?_⟩
  · obtain ⟨r, hr, hrv⟩ := any_isOf.mp hv
    exact (lookupIn_eq_none_iff h.distinct).mp hnone r hr hrv
  · by_contra hno
    exact hv (lookupVmr_eq_false (Bool.eq_false_iff.mpr hno))

theorem mem_names (h : s.Legal) : v ∈ s.names ↔ s.empLpLookupPmd v ≠ none := by
  rw [names, List.mem_toFinset, List.mem_filterMap, ← lookupVmr_iff h]
  exact any_isOf.symm

omit [DecidableEq V] in
theorem map_vmrs (h : s.Legal) :
    (s.records.filterMap MappedPmd.vmr).map some = s.records.map MappedPmd.vmr := by
  have hmap : ∀ l : List (MappedPmd V P), (∀ r ∈ l, r.vmr ≠ none ∧ r.pmd ≠ none) →
      (l.filterMap MappedPmd.vmr).map some = l.map MappedPmd.vmr := by
    intro l hl
    induction l with
    | nil => rfl
    | cons r l ih =>
        obtain ⟨v, hv⟩ := Option.ne_none_iff_exists'.mp (hl r List.mem_cons_self).1
        rw [List.filterMap_cons_some hv, List.map_cons, List.map_cons, hv,
          ih fun r' hr' => hl r' (List.mem_cons_of_mem _ hr')]
  exact hmap s.records h.distinct.named

omit [DecidableEq V] in
theorem nodup_vmrs (h : s.Legal) : (s.records.filterMap MappedPmd.vmr).Nodup := by
  have hnodup := h.distinct.nodup
  rw [← map_vmrs h] at hnodup
  exact hnodup.of_map _

theorem card_names (h : s.Legal) : s.numPmds = s.names.card := by
  have hlen := congrArg List.length (map_vmrs h)
  rw [List.length_map, List.length_map] at hlen
  rw [h.count, names, List.toFinset_card_of_nodup (nodup_vmrs h), hlen]

theorem names_empty_iff (h : s.Legal) : s.names = ∅ ↔ s.next = none := by
  refine ⟨fun hempty => ?_, fun hn => ?_⟩
  · by_contra hne
    obtain ⟨l, hl⟩ := Option.ne_none_iff_exists'.mp hne
    refine not_unmapped_of_next h hl fun v => ?_
    by_contra hv
    have hmem := (mem_names h).mpr hv
    rw [hempty] at hmem
    cases hmem
  · rw [names, records_none hn]
    rfl

/-- A record that cannot be allocated. -/
theorem insert_failed (hn : s.next ≠ none) (hv : s.empLpLookupVmr v = false) :
    (s.empLpInsertPmd v p false).2 = s := by
  obtain ⟨l, hl⟩ := Option.ne_none_iff_exists'.mp hn
  rw [empLpLookupVmr, records_some hl] at hv
  simp [empLpInsertPmd, hl, hv]

/-- A record that is there. -/
theorem insert_known (hv : s.empLpLookupVmr v = true) (alloc : Bool) :
    (s.empLpInsertPmd v p alloc).2 = s := by
  unfold empLpInsertPmd
  cases hn : s.next with
  | none =>
      rw [empLpLookupVmr, records_none hn] at hv
      cases hv
  | some l =>
      rw [empLpLookupVmr, records_some hn] at hv
      simp [hv]

/-- A new record, embedded or allocated. -/
theorem insert_new (h : s.Legal) (hv : s.empLpLookupPmd v = none) {alloc : Bool}
    (ha : s.next = none ∨ alloc = true) :
    (s.empLpInsertPmd v p alloc).2.Legal ∧
      ∀ w, (s.empLpInsertPmd v p alloc).2.empLpLookupPmd w =
        if w = v then some p else s.empLpLookupPmd w := by
  obtain ⟨hlegal, hstep⟩ := insert_spec h v p alloc
  refine ⟨hlegal, fun w => ?_⟩
  have hpmd : (s.empLpInsertPmd v p alloc).2.mappers.pmd =
      Function.update s.mappers.pmd v (some p) := by
    generalize (s.empLpInsertPmd v p alloc).2.mappers = m at hstep
    generalize (s.empLpInsertPmd v p alloc).1 = ok at hstep
    cases hstep with
    | insertFirst _ => rfl
    | insertKnown hknown => exact absurd hv hknown
    | insertNext _ _ => rfl
    | insertFailed hun _ => exact absurd (unmapped_of_next (ha.resolve_right nofun)) hun
  have happ := congrFun hpmd w
  rw [Function.update_apply] at happ
  exact happ

end MapperList

namespace HptBlock

variable {V P : Type*} [DecidableEq V] {s t u : HptBlock V P} {alloc : ℕ → Bool} {i j k : ℕ}
  {v w : V} {p : P} {isWrite : Bool} {U : V → Prop}

/-- The pmd under which `v` has a record in the subblock `i`. -/
def pmdOf (s : HptBlock V P) (i : ℕ) (v : V) : Option P := (s.lp i).empLpLookupPmd v

/-- The records of all subblocks are in order. -/
def Legal (s : HptBlock V P) : Prop := ∀ i < s.descSize, (s.lp i).Legal

/-- Installations of vmrs of `U`, each into a subblock of the block that has no record of it. -/
inductive Installs (alloc : ℕ → Bool) (isWrite : Bool) (U : V → Prop) (s : HptBlock V P) :
    HptBlock V P → Prop
  | refl : Installs alloc isWrite U s s
  | step {t : HptBlock V P} {i : ℕ} {v : V} {p : P} (h : Installs alloc isWrite U s t)
      (hi : i < s.descSize) (hv : (t.lp i).empLpLookupVmr v = false) (hU : U v) :
      Installs alloc isWrite U s (t.installHptes alloc i v p isWrite)

/-- What never changes: the size of the block, and what each vmr sees of it. -/
structure SameView (s t : HptBlock V P) : Prop where
  descSize : t.descSize = s.descSize
  subblockSize : t.subblockSize = s.subblockSize
  pageOff : t.pageOff = s.pageOff
  pageLen : t.pageLen = s.pageLen

theorem sameView_installHptes (s : HptBlock V P) :
    s.SameView (s.installHptes alloc i v p isWrite) := ⟨rfl, rfl, rfl, rfl⟩

omit [DecidableEq V] in
theorem SameView.trans (h : s.SameView t) (h' : t.SameView u) : s.SameView u :=
  ⟨h'.descSize.trans h.descSize, h'.subblockSize.trans h.subblockSize,
    h'.pageOff.trans h.pageOff, h'.pageLen.trans h.pageLen⟩

theorem Installs.sameView (h : Installs alloc isWrite U s t) : s.SameView t := by
  induction h with
  | refl => exact ⟨rfl, rfl, rfl, rfl⟩
  | step _ _ _ _ ih => exact ih.trans (sameView_installHptes _)

theorem Installs.trans (h : Installs alloc isWrite U s t) (h' : Installs alloc isWrite U t u) :
    Installs alloc isWrite U s u := by
  induction h' with
  | refl => exact h
  | step _ hi hv hU ih => exact ih.step (h.sameView.descSize ▸ hi) hv hU

theorem Installs.mono {U' : V → Prop} (h : Installs alloc isWrite U s t)
    (hU : ∀ v, U v → U' v) : Installs alloc isWrite U' s t := by
  induction h with
  | refl => exact .refl
  | step _ hi hv hUv ih => exact ih.step hi hv (hU _ hUv)

/-! ### One installation -/

theorem lp_installHptes_of_ne (h : j ≠ i) : (s.installHptes alloc i v p isWrite).lp j = s.lp j :=
  Function.update_of_ne h _ _

theorem lp_installHptes_self : (s.installHptes alloc i v p isWrite).lp i =
    ((s.lp i).empLpInsertPmd v p (alloc s.allocs)).2 := Function.update_self _ _ _

/-- The record can be made: it is the embedded one, or it is allocated. -/
def Recorded (alloc : ℕ → Bool) (s : HptBlock V P) (i : ℕ) : Prop :=
  (s.lp i).next = none ∨ alloc s.allocs = true

theorem pmdOf_recorded (hl : (s.lp i).Legal) (hv : (s.lp i).empLpLookupVmr v = false)
    (ha : s.Recorded alloc i) : ((s.installHptes alloc i v p isWrite).lp i).Legal ∧
      ∀ w, (s.installHptes alloc i v p isWrite).pmdOf i w =
        if w = v then some p else s.pmdOf i w := by
  have hnew := MapperList.insert_new (p := p) hl (MapperList.lookupVmr_eq_false hv) ha
  have hself : (s.installHptes alloc i v p isWrite).lp i =
    ((s.lp i).empLpInsertPmd v p (alloc s.allocs)).2 := lp_installHptes_self
  rw [← hself] at hnew
  exact hnew

theorem lp_not_recorded (hv : (s.lp i).empLpLookupVmr v = false) (ha : ¬ s.Recorded alloc i) :
    (s.installHptes alloc i v p isWrite).lp = s.lp := by
  rw [Recorded, not_or, Bool.not_eq_true] at ha
  have hself : (s.installHptes alloc i v p isWrite).lp i = s.lp i := by
    rw [lp_installHptes_self, ha.2, MapperList.insert_failed ha.1 hv]
  funext j
  by_cases hj : j = i
  · rw [hj, hself]
  · exact lp_installHptes_of_ne hj

theorem pmdOf_of_ne (h : j ≠ i) : (s.installHptes alloc i v p isWrite).pmdOf j w = s.pmdOf j w := by
  rw [pmdOf, lp_installHptes_of_ne h]
  rfl

theorem legal_installHptes (hl : s.Legal) (hi : i < s.descSize)
    (hv : (s.lp i).empLpLookupVmr v = false) : (s.installHptes alloc i v p isWrite).Legal := by
  intro j hj
  by_cases hji : j = i
  · subst hji
    by_cases ha : s.Recorded alloc j
    · exact (pmdOf_recorded (hl j hi) hv ha).1
    · rw [lp_not_recorded hv ha]
      exact hl j hi
  · rw [lp_installHptes_of_ne hji]
    exact hl j hj

theorem Installs.legal (h : Installs alloc isWrite U s t) (hl : s.Legal) : t.Legal := by
  induction h with
  | refl => exact hl
  | step h hi hv _ ih => exact legal_installHptes ih (h.sameView.descSize ▸ hi) hv

/-- Allocations are counted where the list is not empty. -/
theorem allocs_installHptes (hv : (s.lp i).empLpLookupVmr v = false) :
    (s.installHptes alloc i v p isWrite).allocs =
      if (s.lp i).next = none then s.allocs else s.allocs + 1 := by
  show (if ((s.lp i).next.isSome && !(s.lp i).empLpLookupVmr v) = true then _ else _) = _
  rw [hv]
  cases (s.lp i).next <;> rfl

theorem allocs_le_installHptes (hv : (s.lp i).empLpLookupVmr v = false) :
    s.allocs ≤ (s.installHptes alloc i v p isWrite).allocs := by
  rw [allocs_installHptes hv]
  split_ifs <;> omega

theorem Installs.allocs_le (h : Installs alloc isWrite U s t) : s.allocs ≤ t.allocs := by
  induction h with
  | refl => exact le_rfl
  | step _ _ hv _ ih => exact ih.trans (allocs_le_installHptes hv)

/-! ### What a run keeps -/

/-- Records and ptes stay, records are of vmrs of `U` or old, and a new record comes with the
ptes of all pages that its vmr sees. -/
structure Grows (U : V → Prop) (s t : HptBlock V P) : Prop where
  keep : ∀ i v p, s.pmdOf i v = some p → t.pmdOf i v = some p
  within : ∀ i v, t.pmdOf i v ≠ none → s.pmdOf i v ≠ none ∨ U v
  pte : ∀ i v o, (s.pte i v o).isSome → t.pte i v o = s.pte i v o
  full : ∀ i v, s.pmdOf i v = none → t.pmdOf i v ≠ none →
    ∀ o, inRun (s.pageOff v) (s.pageLen v) o → (t.pte i v o).isSome

theorem pte_installHptes (s : HptBlock V P) (j : ℕ) (w : V) (o : ℕ) :
    (s.installHptes alloc i v p isWrite).pte j w o =
      if j = i ∧ w = v ∧ inRun (s.pageOff v) (s.pageLen v) o = true ∧ s.pte j w o = none then
        some ⟨(s.protWrite v || isWrite && s.vmWrite v) && !s.cow i, isWrite⟩
      else s.pte j w o := by
  simp only [installHptes, insertPmd, pteInstall, Function.update_apply]
  by_cases hj : j = i
  · rw [if_pos hj]
    by_cases hw : w = v
    · subst hj hw
      simp only [Function.update_self, true_and, Bool.and_eq_true, Option.isNone_iff_eq_none]
    · rw [Function.update_of_ne hw, if_neg fun h => hw h.2.1, hj]
  · rw [if_neg hj, if_neg fun h => hj h.1]

theorem grows_installHptes (hl : s.Legal) (hi : i < s.descSize)
    (hv : (s.lp i).empLpLookupVmr v = false) (hU : U v) :
    Grows U s (s.installHptes alloc i v p isWrite) := by
  have hvnone : s.pmdOf i v = none := MapperList.lookupVmr_eq_false hv
  have hpmd : ∀ j w, (s.installHptes alloc i v p isWrite).pmdOf j w = s.pmdOf j w ∨
      j = i ∧ w = v := by
    intro j w
    by_cases hj : j = i
    · subst hj
      by_cases ha : s.Recorded alloc j
      · rw [(pmdOf_recorded (hl j hi) hv ha).2 w]
        split_ifs with hw
        · exact .inr ⟨rfl, hw⟩
        · exact .inl rfl
      · rw [pmdOf, lp_not_recorded hv ha]
        exact .inl rfl
    · exact .inl (pmdOf_of_ne hj)
  refine ⟨fun j w q hq => ?_, fun j w hw => ?_, fun j w o ho => ?_, fun j w hnone hw o ho => ?_⟩
  · rcases hpmd j w with heq | ⟨rfl, rfl⟩
    · exact heq.trans hq
    · rw [hvnone] at hq
      cases hq
  · rcases hpmd j w with heq | ⟨rfl, rfl⟩
    · exact .inl (heq ▸ hw)
    · exact .inr hU
  · rw [pte_installHptes, if_neg]
    rintro ⟨-, -, -, hnone⟩
    rw [hnone] at ho
    cases ho
  · rcases hpmd j w with heq | ⟨rfl, rfl⟩
    · exact absurd (heq.trans hnone) hw
    · rw [pte_installHptes]
      split_ifs with h
      · rfl
      · exact Option.isSome_iff_ne_none.mpr fun hn => h ⟨rfl, rfl, ho, hn⟩

theorem Grows.trans (h : Grows U s t) (h' : Grows U t u) (hview : s.SameView t) : Grows U s u := by
  refine ⟨fun i v p hp => h'.keep i v p (h.keep i v p hp), fun i v hv => ?_, fun i v o ho => ?_,
    fun i v hnone hv o ho => ?_⟩
  · rcases h'.within i v hv with ht | hU
    · exact h.within i v ht
    · exact .inr hU
  · have heq := h.pte i v o ho
    rw [h'.pte i v o (heq.symm ▸ ho), heq]
  · by_cases ht : t.pmdOf i v = none
    · exact h'.full i v ht hv o (hview.pageOff ▸ hview.pageLen ▸ ho)
    · have hsome := h.full i v hnone ht o ho
      rwa [h'.pte i v o hsome]

theorem Installs.grows (h : Installs alloc isWrite U s t) (hl : s.Legal) : Grows U s t := by
  induction h with
  | refl =>
      exact ⟨fun _ _ _ => id, fun _ _ => .inl, fun _ _ _ _ => rfl, fun _ _ hn hs => absurd hn hs⟩
  | step h hi hv hU ih =>
      exact ih.trans (grows_installHptes (h.legal hl) (h.sameView.descSize ▸ hi) hv hU) h.sameView

/-! ### The functions as runs -/

theorem installs_installLoop (hU : U v) (hk : k ≤ s.descSize) :
    Installs alloc isWrite U s (installLoop alloc v p isWrite k s) := by
  induction k with
  | zero => exact .refl
  | succ k ih =>
      have hrun := ih (Nat.le_of_succ_le hk)
      simp only [installLoop]
      split_ifs with hv
      · exact hrun
      · exact hrun.step hk (Bool.eq_false_iff.mpr hv) hU

/-- A subblock that has the record is left alone. -/
theorem lp_installLoop (hv : (s.lp i).empLpLookupVmr v = true) :
    (installLoop alloc v p isWrite k s).lp i = s.lp i := by
  induction k with
  | zero => rfl
  | succ k ih =>
      simp only [installLoop]
      split_ifs with hk
      · exact ih
      · rw [lp_installHptes_of_ne, ih]
        rintro rfl
        rw [ih] at hk
        exact hk hv

end HptBlock

end Emp
