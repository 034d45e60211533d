import Emp.Mapper.Sync

/-!
# The pte of one address

An installation skips a subblock that has a record of the vmr, and leaves a pte that is there.  So
what a run of installations leaves at an address is known beforehand: the pte that is there if the
subblock has the record, else that pte or, if there is none, a new one.

## Main definitions

* `HptBlock.freshPte` — a new pte.
* `HptBlock.mappedPte` — what an installation leaves.
* `HptBlock.SameRights`, `SameMap` — what an installation does not change, and flags do not.
-/

namespace Emp

namespace HptBlock

variable {V P : Type*} [DecidableEq V] {s t u : HptBlock V P} {alloc : ℕ → Bool} {i j k o : ℕ}
  {v w : V} {p : P} {isWrite : Bool} {U : V → Prop}

/-- The pte that `pte_install` makes. -/
def freshPte (s : HptBlock V P) (isWrite : Bool) (i : ℕ) (v : V) : HptPte :=
  ⟨(s.protWrite v || isWrite && s.vmWrite v) && !s.cow i, isWrite⟩

/-- What an installation of the whole block leaves at an address. -/
def mappedPte (s : HptBlock V P) (isWrite : Bool) (i : ℕ) (v : V) (o : ℕ) : Option HptPte :=
  if (s.lp i).empLpLookupVmr v then s.pte i v o
  else (s.pte i v o).or (some (s.freshPte isWrite i v))

/-- What an installation does not change, apart from `SameView`. -/
structure SameRights (s t : HptBlock V P) : Prop where
  protWrite : t.protWrite = s.protWrite
  vmWrite : t.vmWrite = s.vmWrite
  cow : t.cow = s.cow
  dirty : t.dirty = s.dirty
  remote : t.remote = s.remote
  prefetchedCpf : t.prefetchedCpf = s.prefetchedCpf
  prefetchedCsf : t.prefetchedCsf = s.prefetchedCsf
  demandOffset : t.demandOffset = s.demandOffset

omit [DecidableEq V] in
theorem SameRights.refl (s : HptBlock V P) : s.SameRights s :=
  ⟨rfl, rfl, rfl, rfl, rfl, rfl, rfl, rfl⟩

omit [DecidableEq V] in
theorem SameRights.trans (h : s.SameRights t) (h' : t.SameRights u) : s.SameRights u :=
  ⟨h'.protWrite.trans h.protWrite, h'.vmWrite.trans h.vmWrite, h'.cow.trans h.cow,
    h'.dirty.trans h.dirty, h'.remote.trans h.remote, h'.prefetchedCpf.trans h.prefetchedCpf,
    h'.prefetchedCsf.trans h.prefetchedCsf, h'.demandOffset.trans h.demandOffset⟩

theorem sameRights_installHptes (s : HptBlock V P) :
    s.SameRights (s.installHptes alloc i v p isWrite) := ⟨rfl, rfl, rfl, rfl, rfl, rfl, rfl, rfl⟩

theorem Installs.sameRights (h : Installs alloc isWrite U s t) : s.SameRights t := by
  induction h with
  | refl => exact .refl _
  | step _ _ _ _ ih => exact ih.trans (sameRights_installHptes _)

omit [DecidableEq V] in
theorem SameRights.freshPte (h : s.SameRights t) (isWrite : Bool) (i : ℕ) (v : V) :
    t.freshPte isWrite i v = s.freshPte isWrite i v := by
  rw [HptBlock.freshPte, HptBlock.freshPte, h.protWrite, h.vmWrite, h.cow]

/-- No record, no pte and no right has changed. -/
structure SameMap (s t : HptBlock V P) : Prop where
  view : s.SameView t
  lp : t.lp = s.lp
  pte : t.pte = s.pte
  fresh : ∀ isWrite i v, t.freshPte isWrite i v = s.freshPte isWrite i v

omit [DecidableEq V] in
theorem SameMap.refl (s : HptBlock V P) : s.SameMap s :=
  ⟨⟨rfl, rfl, rfl, rfl⟩, rfl, rfl, fun _ _ _ => rfl⟩

omit [DecidableEq V] in
theorem SameMap.trans (h : s.SameMap t) (h' : t.SameMap u) : s.SameMap u :=
  ⟨h.view.trans h'.view, h'.lp.trans h.lp, h'.pte.trans h.pte,
    fun b i v => (h'.fresh b i v).trans (h.fresh b i v)⟩

omit [DecidableEq V] in
theorem SameMap.legal (h : s.SameMap t) (hl : s.Legal) : t.Legal := fun i hi => by
  rw [h.lp]
  exact hl i (h.view.descSize ▸ hi)

theorem SameMap.mappedPte (h : s.SameMap t) (isWrite : Bool) (i : ℕ) (v : V) (o : ℕ) :
    t.mappedPte isWrite i v o = s.mappedPte isWrite i v o := by
  rw [HptBlock.mappedPte, HptBlock.mappedPte, h.lp, h.pte, h.fresh]

/-! ### Runs -/

theorem lookup_iff (hl : (s.lp i).Legal) :
    (s.lp i).empLpLookupVmr v = true ↔ s.pmdOf i v ≠ none := MapperList.lookupVmr_iff hl

/-- Records stay. -/
theorem Installs.lookup (h : Installs alloc isWrite U s t) (hl : s.Legal) (hi : i < s.descSize)
    (hv : (s.lp i).empLpLookupVmr v = true) : (t.lp i).empLpLookupVmr v = true := by
  obtain ⟨p, hp⟩ := Option.ne_none_iff_exists'.mp ((lookup_iff (hl i hi)).mp hv)
  rw [lookup_iff (h.legal hl i (h.sameView.descSize ▸ hi)), (h.grows hl).keep i v p hp]
  nofun

/-- A subblock that has the record is left alone. -/
theorem Installs.pte_recorded (h : Installs alloc isWrite U s t) (hl : s.Legal)
    (hi : i < s.descSize) (hv : (s.lp i).empLpLookupVmr v = true) (o : ℕ) :
    t.pte i v o = s.pte i v o := by
  induction h with
  | refl => rfl
  | step h hj hw _ ih =>
      rw [pte_installHptes, if_neg, ih]
      rintro ⟨rfl, rfl, -⟩
      rw [h.lookup hl hi hv] at hw
      cases hw

/-- Nothing happens to a pte, or a new one is there if there was none. -/
theorem Installs.pte_or (h : Installs alloc isWrite U s t) (i : ℕ) (v : V) (o : ℕ) :
    t.pte i v o = s.pte i v o ∨
      t.pte i v o = (s.pte i v o).or (some (s.freshPte isWrite i v)) := by
  induction h with
  | refl => exact .inl rfl
  | @step t j w q h _ _ _ ih =>
      rw [pte_installHptes]
      split_ifs with hcond
      · obtain ⟨rfl, rfl, -, hnone⟩ := hcond
        rw [hnone] at ih
        have hbefore : s.pte i v o = none := by
          rcases ih with ih | ih
          · exact ih.symm
          · exact (Option.or_eq_none_iff.mp ih.symm).1
        rw [hbefore, Option.none_or, ← h.sameRights.freshPte]
        exact .inr rfl
      · exact ih

/-- A new record comes with the pte. -/
theorem Installs.pte_of_recorded (h : Installs alloc isWrite U s t) (hl : s.Legal)
    (hi : i < s.descSize) (hs : (s.lp i).empLpLookupVmr v = false)
    (ht : (t.lp i).empLpLookupVmr v = true)
    (ho : inRun (s.pageOff v) (s.pageLen v) o = true) :
    t.pte i v o = (s.pte i v o).or (some (s.freshPte isWrite i v)) := by
  rcases h.pte_or i v o with hsame | hnew
  · have hsome := (h.grows hl).full i v (MapperList.lookupVmr_eq_false hs)
      ((lookup_iff (h.legal hl i (h.sameView.descSize ▸ hi))).mp ht) o ho
    rw [hsame] at hsome ⊢
    obtain ⟨q, hq⟩ := Option.isSome_iff_exists.mp hsome
    rw [hq]
    rfl
  · exact hnew

/-- What an installation would leave is not changed by others before it. -/
theorem Installs.mappedPte (h : Installs alloc isWrite U s t) (hl : s.Legal)
    (hi : i < s.descSize) (ho : inRun (s.pageOff v) (s.pageLen v) o = true) :
    t.mappedPte isWrite i v o = s.mappedPte isWrite i v o := by
  unfold HptBlock.mappedPte
  rw [h.sameRights.freshPte]
  by_cases hs : (s.lp i).empLpLookupVmr v = true
  · rw [if_pos (h.lookup hl hi hs), if_pos hs, h.pte_recorded hl hi hs]
  · rw [if_neg hs]
    have hs' := Bool.eq_false_iff.mpr hs
    split_ifs with ht
    · exact h.pte_of_recorded hl hi hs' ht ho
    · rcases h.pte_or i v o with hsame | hnew
      · rw [hsame]
      · rw [hnew, Option.or_assoc, Option.or_self]

/-- The loop installs what is lacking. -/
theorem pte_installLoop (hl : s.Legal) (hk : k ≤ s.descSize) (hi : i < k)
    (ho : inRun (s.pageOff v) (s.pageLen v) o = true) :
    (installLoop alloc v p isWrite k s).pte i v o = s.mappedPte isWrite i v o := by
  induction k with
  | zero => exact absurd hi (Nat.not_lt_zero i)
  | succ k ih =>
      have hrun : Installs alloc isWrite (· = v) s (installLoop alloc v p isWrite k s) :=
        installs_installLoop rfl (Nat.le_of_succ_le hk)
      have hsame := hrun.mappedPte hl (Nat.lt_of_lt_of_le hi hk) ho
      simp only [installLoop]
      by_cases hik : i = k
      · subst hik
        rw [← hsame, HptBlock.mappedPte]
        split_ifs with hv
        · rfl
        · rw [pte_installHptes, hrun.sameView.pageOff, hrun.sameView.pageLen]
          cases hpte : (installLoop alloc v p isWrite i s).pte i v o with
          | none =>
              rw [if_pos ⟨rfl, rfl, ho, rfl⟩]
              rfl
          | some q =>
              rw [if_neg fun h => Option.some_ne_none q h.2.2.2]
              rfl
      · have hlt : i < k := by omega
        split_ifs with hv
        · exact ih (Nat.le_of_succ_le hk) hlt
        · rw [pte_installHptes, if_neg fun h => hik h.1]
          exact ih (Nat.le_of_succ_le hk) hlt

/-- Whatever part of a block is installed, the address has a pte in the end. -/
theorem pte_empInstallHptes {demand : ℕ} {arrived : Bool} (hl : s.Legal)
    (hdemand : demand < s.descSize) (ho : inRun (s.pageOff v) (s.pageLen v) o = true)
    (hrec : (s.lp demand).empLpLookupVmr v = true → s.pte demand v o ≠ none)
    (hoff : s.prefetchedCpf = true → s.demandOffset % s.subblockSize = o) :
    (s.empInstallHptes alloc v demand p false isWrite arrived).pte demand v o =
      (s.pte demand v o).or (some (s.freshPte isWrite demand v)) := by
  have hone : ∀ t : HptBlock V P, s.SameMap t →
      (t.installHptes alloc demand v p isWrite).pte demand v o =
        (s.pte demand v o).or (some (s.freshPte isWrite demand v)) := by
    intro t h
    rw [pte_installHptes, h.view.pageOff, h.view.pageLen, h.pte]
    cases hpte : s.pte demand v o with
    | none =>
        rw [if_pos ⟨rfl, rfl, ho, rfl⟩]
        exact congrArg some (h.fresh isWrite demand v)
    | some q =>
        rw [if_neg fun h => nomatch h.2.2.2]
        rfl
  unfold empInstallHptes
  simp only [Bool.not_false, Bool.true_and]
  split_ifs with hcpf harr hcsf
  · exact hone _ ⟨⟨rfl, rfl, rfl, rfl⟩, rfl, rfl, fun _ _ _ => rfl⟩
  · have hin : inRun (s.demandOffset % s.subblockSize) 1 o = true := by
      rw [hoff hcpf, inRun]
      simp
    simp only [pteInstall, Function.update_self, hin, Bool.true_and]
    cases hpte : s.pte demand v o with
    | none => rfl
    | some q => rfl
  · exact hone s (.refl s)
  · rw [pte_installLoop hl (Nat.le_refl _) hdemand ho, HptBlock.mappedPte]
    split_ifs with hv
    · obtain ⟨q, hq⟩ := Option.ne_none_iff_exists'.mp (hrec hv)
      rw [hq]
      rfl
    · rfl

/-- Where all records can be made, the loop makes those that are lacking. -/
theorem lookup_installLoop (hl : s.Legal) (hi : i < s.descSize)
    (halloc : ∀ k, alloc k = true) :
    ((installLoop alloc v p isWrite s.descSize s).lp i).empLpLookupVmr v = true := by
  have hrun : Installs alloc isWrite (· = v) s (installLoop alloc v p isWrite s.descSize s) :=
    installs_installLoop rfl (Nat.le_refl _)
  have hlegal := hrun.legal hl i (hrun.sameView.descSize.symm ▸ hi)
  rw [lookup_iff hlegal, pmdOf_installLoop hl (Nat.le_refl _) (fun k _ _ => halloc k),
    if_pos ⟨hi, rfl⟩]
  exact fun h => nomatch (Option.or_eq_none_iff.mp h).2

/-- The pass over the subblocks is a run. -/
theorem installs_syncHptMapInBlock (alloc : ℕ → Bool) (isWrite : Bool) (hl : s.Legal)
    (hzero : 0 < s.descSize) :
    ∃ t, s.syncHptMapInBlock alloc isWrite = some t ∧
      Installs alloc isWrite (fun _ => True) s t := by
  obtain ⟨t, ht, hrun, -⟩ := syncLoop_spec alloc isWrite hl hzero (Nat.sub_lt hzero Nat.one_pos)
  exact ⟨t, ht, hrun.mono fun _ _ => trivial⟩

end HptBlock

end Emp
