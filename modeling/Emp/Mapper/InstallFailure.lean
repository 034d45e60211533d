import Emp.Mapper.Sync
import Emp.Mapper.Unmap
import Mathlib.Algebra.BigOperators.Group.Finset.Basic
import Mathlib.Algebra.Order.BigOperators.Group.Finset
import Mathlib.Tactic.Linarith
import Mathlib.Tactic.Ring

/-!
# Installations whose record cannot be allocated

`__emp_install_hptes` takes the references and installs the ptes before it inserts the record, and
nothing looks at the result of the insertion.  When the record cannot be allocated, references,
ptes and charge stay behind with nothing that names them.  So an installation leaves a block in
order exactly when it gets every record that it asks for.

## Main definitions

* `HptBlock.InstallOk` — references, charges and ptes match the records.
* `HptBlock.needed`, `HptBlock.Affords` — the allocations that sets of mappers ask for, and that
  they succeed.
* `HptBlock.Progress` — the invariant of a run of installations.
-/

namespace Emp

namespace HptBlock

open Finset

variable {V P : Type*} [DecidableEq V] {s t u : HptBlock V P} {alloc : ℕ → Bool}
  {i j k : ℕ} {v w : V} {p : P} {isWrite : Bool} {U : V → Prop} {T : ℕ → Finset V}

/-- The pages of the subblock that its records stand for. -/
def recordedPages (s : HptBlock V P) (i : ℕ) : ℤ := ∑ v ∈ (s.lp i).names, (s.pageLen v : ℤ)

/-- What a vmr is charged for a subblock: the pages it sees, or all of them when nobody maps the
subblock and the vmr owns it. -/
def charge (s : HptBlock V P) (i : ℕ) (v : V) : ℤ :=
  if v ∈ (s.lp i).names then s.pageLen v
  else if (s.lp i).names = ∅ ∧ (s.lp i).empLpOwner = some v then s.subblockSize else 0

/-- What an installation owes: no pte without a record but for the pages that are mapped ahead,
references and charges that match the records, nothing changed for a vmr without a record, and
an eviction still removes every pte. -/
structure InstallOk (ahead : ℕ → V → ℕ → Prop) (s t : HptBlock V P) : Prop where
  noStray : ∀ i < s.descSize, ∀ v o, (t.pte i v o).isSome → ¬ ahead i v o →
    (s.pte i v o).isSome ∨ t.pmdOf i v ≠ none
  refs : ∀ i < s.descSize, t.mapRefs i - s.mapRefs i = t.recordedPages i - s.recordedPages i
  rss : ∀ v, t.rss v - s.rss v = ∑ i ∈ range s.descSize, (t.charge i v - s.charge i v)
  asBefore : ∀ i < s.descSize, ∀ v, t.pmdOf i v = none → ∀ o, ¬ ahead i v o →
    t.pte i v o = s.pte i v o
  evicts : s.Evicts ahead → t.Evicts ahead

/-- No page is mapped ahead. -/
def noneAhead : ℕ → V → ℕ → Prop := fun _ _ _ => False

/-- The allocations it takes until the mappers of every subblock are those of `T`: one for each
that is new, but for the first of a subblock that nobody maps. -/
def needed (s : HptBlock V P) (T : ℕ → Finset V) : ℕ :=
  ∑ i ∈ range s.descSize, (max (T i).card 1 - max (s.lp i).names.card 1)

/-- The allocations that are needed succeed. -/
def Affords (alloc : ℕ → Bool) (T : ℕ → Finset V) (s : HptBlock V P) : Prop :=
  ∀ k < s.needed T, alloc (s.allocs + k) = true

/-- The mappers after `v` is installed in the subblock `i`. -/
def withMapper (s : HptBlock V P) (i : ℕ) (v : V) (j : ℕ) : Finset V :=
  if j = i then insert v (s.lp j).names else (s.lp j).names

/-- The mappers after `v` is installed in the whole block. -/
def withMapperAll (s : HptBlock V P) (v : V) (j : ℕ) : Finset V := insert v (s.lp j).names

/-- The mappers that `emp_install_hptes` is to reach: none more while a page is mapped ahead, the
demanded subblock or the whole block. -/
def installTarget (s : HptBlock V P) (v : V) (demand : ℕ) (prefetchHit arrived : Bool) :
    ℕ → Finset V :=
  if !prefetchHit && s.prefetchedCpf then
    if arrived then s.withMapper demand v else fun i => (s.lp i).names
  else if !prefetchHit && s.prefetchedCsf then s.withMapper demand v
  else s.withMapperAll v

/-- The page that `emp_install_hptes` maps ahead while `GPA_PREFETCHED_CPF` is set. -/
def mappedAhead (s : HptBlock V P) (v : V) (demand : ℕ) (prefetchHit arrived : Bool) :
    ℕ → V → ℕ → Prop := fun i w o =>
  s.prefetchedCpf = true ∧ prefetchHit = false ∧ arrived = false ∧ i = demand ∧ w = v ∧
    o = s.demandOffset % s.subblockSize

/-- The mappers of all subblocks together. -/
def allMappers (s : HptBlock V P) (_ : ℕ) : Finset V :=
  (range s.descSize).biUnion fun i => (s.lp i).names

/-! ### One installation -/

theorem names_recorded (hl : (s.lp i).Legal) (hv : (s.lp i).empLpLookupVmr v = false)
    (ha : s.Recorded alloc i) :
    ((s.installHptes alloc i v p isWrite).lp i).names = insert v (s.lp i).names := by
  have hpmd : ∀ w, (s.installHptes alloc i v p isWrite).pmdOf i w =
    if w = v then some p else s.pmdOf i w := (pmdOf_recorded hl hv ha).2
  have hlegal : ((s.installHptes alloc i v p isWrite).lp i).Legal := (pmdOf_recorded hl hv ha).1
  ext w
  rw [MapperList.mem_names hlegal, Finset.mem_insert, MapperList.mem_names hl]
  have hw := hpmd w
  rw [pmdOf] at hw
  rw [hw]
  by_cases hwv : w = v
  · rw [if_pos hwv]
    exact iff_of_true (Option.some_ne_none p) (.inl hwv)
  · rw [if_neg hwv]
    exact ⟨.inr, fun h => h.resolve_left hwv⟩

theorem notMem_names (hv : (s.lp i).empLpLookupVmr v = false) (hl : (s.lp i).Legal) :
    v ∉ (s.lp i).names := fun h =>
  (MapperList.mem_names hl).mp h (MapperList.lookupVmr_eq_false hv)

theorem mapRefs_installHptes (s : HptBlock V P) (j : ℕ) :
    (s.installHptes alloc i v p isWrite).mapRefs j =
      s.mapRefs j + if j = i then (s.pageLen v : ℤ) else 0 := by
  show Function.update s.mapRefs i (s.mapRefs i + s.pageLen v) j = _
  by_cases hj : j = i
  · rw [hj, Function.update_self, if_pos rfl]
  · rw [Function.update_of_ne hj, if_neg hj, add_zero]

theorem recordedPages_recorded (hl : (s.lp i).Legal) (hv : (s.lp i).empLpLookupVmr v = false)
    (ha : s.Recorded alloc i) (j : ℕ) :
    (s.installHptes alloc i v p isWrite).recordedPages j =
      s.recordedPages j + if j = i then (s.pageLen v : ℤ) else 0 := by
  by_cases hj : j = i
  · rw [hj, if_pos rfl, recordedPages, names_recorded hl hv ha,
      Finset.sum_insert (notMem_names hv hl), add_comm]
    rfl
  · rw [if_neg hj, add_zero, recordedPages, lp_installHptes_of_ne hj]
    rfl

theorem recordedPages_not_recorded (hv : (s.lp i).empLpLookupVmr v = false)
    (ha : ¬ s.Recorded alloc i) (j : ℕ) :
    (s.installHptes alloc i v p isWrite).recordedPages j = s.recordedPages j := by
  rw [recordedPages, lp_not_recorded hv ha]
  rfl

/-- The charge of a recorded installation is what the function charges. -/
theorem charge_recorded (p : P) (isWrite : Bool) (hl : (s.lp i).Legal)
    (hv : (s.lp i).empLpLookupVmr v = false)
    (ha : s.Recorded alloc i) (hi : i < s.descSize) (w : V) :
    (s.installHptes alloc i v p isWrite).rss w - s.rss w =
      ∑ j ∈ range s.descSize,
        ((s.installHptes alloc i v p isWrite).charge j w - s.charge j w) := by
  have hother : ∀ j, j ≠ i → (s.installHptes alloc i v p isWrite).charge j w = s.charge j w := by
    intro j hj
    rw [charge, lp_installHptes_of_ne hj]
    rfl
  have hnames : ((s.installHptes alloc i v p isWrite).lp i).names = insert v (s.lp i).names :=
    names_recorded hl hv ha
  have hvnot := notMem_names hv hl
  have hself : (s.installHptes alloc i v p isWrite).charge i w - s.charge i w =
      (if w = v then (s.pageLen v : ℤ) else 0) -
        if (s.lp i).names = ∅ ∧ (s.lp i).empLpOwner = some w then (s.subblockSize : ℤ) else 0 := by
    rw [charge, charge, hnames]
    show (if w ∈ insert v (s.lp i).names then (s.pageLen w : ℤ) else _) - _ = _
    by_cases hw : w = v
    · subst hw
      rw [if_pos (Finset.mem_insert_self _ _), if_neg hvnot, if_pos rfl]
    · rw [if_neg hw]
      by_cases hin : w ∈ (s.lp i).names
      · rw [if_pos (Finset.mem_insert_of_mem hin), if_pos hin, if_neg]
        · ring
        · rintro ⟨hempty, -⟩
          rw [hempty] at hin
          cases hin
      · rw [if_neg fun h => (Finset.mem_insert.mp h).elim hw hin, if_neg hin, if_neg]
        exact fun h => Finset.insert_ne_empty _ _ h.1
  have hcount : (s.lp i).empLpCountPmd = 0 ↔ (s.lp i).names = ∅ := by
    rw [MapperList.empLpCountPmd, MapperList.card_names hl, ← Finset.card_eq_zero]
    exact Int.natCast_eq_zero
  rw [Finset.sum_eq_single_of_mem i (Finset.mem_range.mpr hi)
    fun j _ hj => by rw [hother j hj, sub_self], hself]
  show s.rss w + (if w = v then (s.pageLen v : ℤ) else 0) -
    (if (if (s.lp i).empLpCountPmd = 0 then (s.lp i).empLpOwner else none) = some w then
      (s.subblockSize : ℤ) else 0) - s.rss w = _
  have howner : (if (s.lp i).empLpCountPmd = 0 then (s.lp i).empLpOwner else none) = some w ↔
      (s.lp i).names = ∅ ∧ (s.lp i).empLpOwner = some w := by
    rw [← hcount]
    split_ifs with h
    · exact (and_iff_right h).symm
    · exact iff_of_false (by simp) fun h' => h h'.1
  rw [if_congr howner rfl rfl]
  ring

/-! ### A run of installations -/

/-- The allocations made so far. -/
def madeSince (s t : HptBlock V P) : ℕ :=
  ∑ i ∈ range s.descSize, (max (t.lp i).names.card 1 - max (s.lp i).names.card 1)

/-- A run of installations towards the mappers `T`: references are never too few for the records,
and too many as soon as an allocation has failed; up to then everything matches. -/
structure Progress (alloc : ℕ → Bool) (T : ℕ → Finset V) (s t : HptBlock V P) : Prop where
  view : s.SameView t
  legal : t.Legal
  grows : Grows (fun _ => True) s t
  le : s.allocs ≤ t.allocs
  within : ∀ i < s.descSize, (s.lp i).names ⊆ (t.lp i).names ∧ (t.lp i).names ⊆ T i
  made : OkFrom alloc s t → t.allocs = s.allocs + s.madeSince t
  refs : ∀ i < s.descSize,
    t.recordedPages i - s.recordedPages i ≤ t.mapRefs i - s.mapRefs i
  exact_iff : OkFrom alloc s t ↔ ∀ i < s.descSize,
    t.mapRefs i - s.mapRefs i = t.recordedPages i - s.recordedPages i
  rss : OkFrom alloc s t → ∀ v, t.rss v - s.rss v =
    ∑ i ∈ range s.descSize, (t.charge i v - s.charge i v)
  asBefore : OkFrom alloc s t → ∀ i < s.descSize, ∀ v, t.pmdOf i v = none → t.pte i v = s.pte i v
  inView : ∀ i v o, (t.pte i v o).isSome →
    (s.pte i v o).isSome ∨ inRun (s.pageOff v) (s.pageLen v) o = true
  afford : s.Affords alloc T → OkFrom alloc s t

theorem progress_refl (hl : s.Legal) (hT : ∀ i < s.descSize, (s.lp i).names ⊆ T i) :
    Progress alloc T s s := by
  have hok : OkFrom alloc s s := fun k hk hk' => absurd hk' (Nat.not_lt.mpr hk)
  refine ⟨⟨rfl, rfl, rfl, rfl⟩, hl, ⟨fun _ _ _ => id, fun _ _ => .inl, fun _ _ _ _ => rfl,
    fun _ _ hn hs => absurd hn hs⟩, le_rfl, fun i hi => ⟨Finset.Subset.refl _, hT i hi⟩,
    fun _ => ?_, fun i _ => ?_, iff_of_true hok fun i _ => ?_, fun _ v => ?_, fun _ _ _ _ _ => rfl,
    fun _ _ _ => .inl, fun _ => hok⟩
  · simp only [madeSince, Nat.sub_self, Finset.sum_const_zero, Nat.add_zero]
  · rw [sub_self, sub_self]
  · rw [sub_self, sub_self]
  · simp only [sub_self, Finset.sum_const_zero]

/-- An allocation more is still one of those that are needed. -/
theorem Progress.madeSince_lt (h : Progress alloc T s t) (hi : i < s.descSize)
    (hv : (t.lp i).empLpLookupVmr v = false) (hvT : v ∈ T i) (hn : (t.lp i).next ≠ none) :
    s.madeSince t < s.needed T := by
  have hli := h.legal i (h.view.descSize ▸ hi)
  have hstep : max (t.lp i).names.card 1 < max (T i).card 1 := by
    have hpos : (t.lp i).names.card ≠ 0 := fun hz =>
      hn ((MapperList.names_empty_iff hli).mp (Finset.card_eq_zero.mp hz))
    have hsub : insert v (t.lp i).names ⊆ T i := Finset.insert_subset hvT (h.within i hi).2
    have hcard := Finset.card_le_card hsub
    rw [Finset.card_insert_of_notMem (notMem_names hv hli)] at hcard
    omega
  have hmono : ∀ j ∈ range s.descSize,
      max (t.lp j).names.card 1 - max (s.lp j).names.card 1 ≤
        max (T j).card 1 - max (s.lp j).names.card 1 := by
    intro j hj
    have hle := Finset.card_le_card (h.within j (Finset.mem_range.mp hj)).2
    omega
  refine Finset.sum_lt_sum hmono ⟨i, Finset.mem_range.mpr hi, ?_⟩
  have hle := Finset.card_le_card (h.within i hi).1
  omega

/-- An installation whose record can be made. -/
theorem Progress.madeSince_recorded (h : Progress alloc T s t) (hi : i < s.descSize)
    (hv : (t.lp i).empLpLookupVmr v = false) (ha : t.Recorded alloc i) :
    s.madeSince (t.installHptes alloc i v p isWrite) =
      s.madeSince t + if (t.lp i).next = none then 0 else 1 := by
  have hli := h.legal i (h.view.descSize ▸ hi)
  have hmem := Finset.mem_range.mpr hi
  rw [madeSince, madeSince, ← Finset.add_sum_erase _ _ hmem, ← Finset.add_sum_erase _ _ hmem]
  have hrest : ∀ j ∈ (range s.descSize).erase i,
      max ((t.installHptes alloc i v p isWrite).lp j).names.card 1 - max (s.lp j).names.card 1 =
        max (t.lp j).names.card 1 - max (s.lp j).names.card 1 := by
    intro j hj
    rw [lp_installHptes_of_ne (Finset.ne_of_mem_erase hj)]
  rw [Finset.sum_congr rfl hrest, names_recorded hli hv ha,
    Finset.card_insert_of_notMem (notMem_names hv hli)]
  have hle := Finset.card_le_card (h.within i hi).1
  have hzero : (t.lp i).next = none ↔ (t.lp i).names.card = 0 := by
    rw [← MapperList.names_empty_iff hli, Finset.card_eq_zero]
  split_ifs with hn
  · have := hzero.mp hn
    omega
  · have : (t.lp i).names.card ≠ 0 := fun hz => hn (hzero.mpr hz)
    omega

/-- Allocations succeed up to an installation exactly if they did before and its record can be
made. -/
theorem okFrom_step (alloc : ℕ → Bool) (p : P) (isWrite : Bool) (hle : s.allocs ≤ t.allocs)
    (hv : (t.lp i).empLpLookupVmr v = false) :
    OkFrom alloc s (t.installHptes alloc i v p isWrite) ↔
      OkFrom alloc s t ∧ t.Recorded alloc i := by
  constructor
  · exact fun h => ⟨h.left (allocs_le_installHptes hv), recorded_of_ok hv hle h⟩
  · rintro ⟨hok, ha⟩ k hk hk'
    rw [allocs_installHptes hv] at hk'
    split_ifs at hk' with hn
    · exact hok k hk hk'
    · rcases Nat.lt_succ_iff_lt_or_eq.mp hk' with hlt | rfl
      · exact hok k hk hlt
      · exact ha.resolve_left hn

/-- One installation more. -/
theorem Progress.step (h : Progress alloc T s t) (hi : i < s.descSize)
    (hv : (t.lp i).empLpLookupVmr v = false) (hvT : v ∈ T i) (hlen : 0 < s.pageLen v) :
    Progress alloc T s (t.installHptes alloc i v p isWrite) := by
  have hit : i < t.descSize := h.view.descSize.symm ▸ hi
  have hli := h.legal i hit
  have hlent : t.pageLen v = s.pageLen v := congrFun h.view.pageLen v
  have hokstep := okFrom_step alloc p isWrite h.le hv
  have hgrow : Grows (fun _ => True) t (t.installHptes alloc i v p isWrite) :=
    grows_installHptes h.legal hit hv trivial
  refine ⟨h.view.trans (sameView_installHptes t), legal_installHptes h.legal hit hv,
    h.grows.trans hgrow h.view, h.le.trans (allocs_le_installHptes hv), fun j hj => ?_,
    fun hok => ?_, fun j hj => ?_, ?_, fun hok w => ?_, fun hok j hj w hw => ?_,
    fun j w o ho => ?_, fun hafford => ?_⟩
  · obtain ⟨hsub, hin⟩ := h.within j hj
    by_cases ha : t.Recorded alloc i
    · by_cases hji : j = i
      · subst hji
        rw [names_recorded hli hv ha]
        exact ⟨hsub.trans (Finset.subset_insert _ _), Finset.insert_subset hvT hin⟩
      · rw [lp_installHptes_of_ne hji]
        exact ⟨hsub, hin⟩
    · rw [lp_not_recorded hv ha]
      exact ⟨hsub, hin⟩
  · obtain ⟨hok', ha⟩ := hokstep.mp hok
    rw [allocs_installHptes hv, h.made hok', h.madeSince_recorded hi hv ha]
    split_ifs <;> omega
  · have hrefs := h.refs j hj
    rw [mapRefs_installHptes]
    by_cases ha : t.Recorded alloc i
    · rw [recordedPages_recorded hli hv ha]
      linarith
    · rw [recordedPages_not_recorded hv ha]
      split_ifs <;> omega
  · rw [hokstep]
    constructor
    · rintro ⟨hok, ha⟩ j hj
      have hexact := h.exact_iff.mp hok j hj
      rw [mapRefs_installHptes, recordedPages_recorded hli hv ha]
      linarith
    · intro hall
      have ha : t.Recorded alloc i := by
        -- otherwise the references of the subblock are too many
        by_contra ha
        have hone := hall i hi
        have hrefs := h.refs i hi
        rw [mapRefs_installHptes, if_pos rfl, recordedPages_not_recorded hv ha] at hone
        omega
      refine ⟨h.exact_iff.mpr fun j hj => ?_, ha⟩
      have hone := hall j hj
      rw [mapRefs_installHptes, recordedPages_recorded hli hv ha] at hone
      linarith
  · obtain ⟨hok', ha⟩ := hokstep.mp hok
    have hone := charge_recorded p isWrite hli hv ha hit w
    rw [h.view.descSize] at hone
    have hold := h.rss hok' w
    rw [Finset.sum_sub_distrib] at hold hone ⊢
    linarith
  · obtain ⟨hok', ha⟩ := hokstep.mp hok
    have hnot : ¬ (j = i ∧ w = v) := by
      rintro ⟨rfl, rfl⟩
      rw [(pmdOf_recorded hli hv ha).2 w, if_pos rfl] at hw
      cases hw
    have hwt : t.pmdOf j w = none := by
      by_contra hne
      obtain ⟨q, hq⟩ := Option.ne_none_iff_exists'.mp hne
      rw [hgrow.keep j w q hq] at hw
      cases hw
    rw [← h.asBefore hok' j hj w hwt]
    funext o
    rw [pte_installHptes, if_neg fun h => hnot ⟨h.1, h.2.1⟩]
  · rw [pte_installHptes] at ho
    split_ifs at ho with hin
    · rw [hin.2.1, ← h.view.pageOff, ← h.view.pageLen]
      exact .inr hin.2.2.1
    · exact h.inView j w o ho
  · have hok := h.afford hafford
    refine hokstep.mpr ⟨hok, ?_⟩
    by_cases hn : (t.lp i).next = none
    · exact .inl hn
    · refine .inr ?_
      rw [h.made hok]
      exact hafford _ (h.madeSince_lt hi hv hvT hn)

theorem Installs.progress (h : Installs alloc isWrite U s t) (hl : s.Legal)
    (hT : ∀ i < s.descSize, (s.lp i).names ⊆ T i ∧ ∀ v, U v → v ∈ T i)
    (hlen : ∀ v, 0 < s.pageLen v) : Progress alloc T s t := by
  induction h with
  | refl => exact progress_refl hl fun i hi => (hT i hi).1
  | step _ hi hv hU ih => exact ih.step hi hv ((hT _ hi).2 _ hU) (hlen _)

/-- A block is in order behind a run exactly if no allocation has failed. -/
theorem Progress.installOk_iff (h : Progress alloc T s t) (hl : s.Legal) :
    InstallOk noneAhead s t ↔ OkFrom alloc s t := by
  refine ⟨fun hok => h.exact_iff.mpr hok.refs, fun hok => ⟨fun i hi v o ho _ => ?_,
    h.exact_iff.mp hok, h.rss hok, fun i hi v hv o _ => ?_, fun hevicts => ?_⟩⟩
  · by_cases hv : t.pmdOf i v = none
    · rw [h.asBefore hok i hi v hv] at ho
      exact .inl ho
    · exact .inr hv
  · rw [h.asBefore hok i hi v hv]
  · rw [evicts_iff hl] at hevicts
    rw [evicts_iff h.legal]
    intro i hi v o ho _
    rw [h.view.descSize] at hi
    rw [h.view.pageOff, h.view.pageLen]
    have hold : (s.pte i v o).isSome → s.pmdOf i v ≠ none ∧
        inRun (s.pageOff v) (s.pageLen v) o = true := fun hs => hevicts i hi v o hs id
    refine ⟨fun hv => ?_, (h.inView i v o ho).elim (fun hs => (hold hs).2) id⟩
    rw [h.asBefore hok i hi v hv] at ho
    obtain ⟨q, hq⟩ := Option.ne_none_iff_exists'.mp (hold ho).1
    rw [h.grows.keep i v q hq] at hv
    cases hv

/-- A run that reaches its mappers when no allocation fails makes just the allocations that are
needed. -/
theorem Progress.ok_iff (h : Progress alloc T s t) (hl : s.Legal)
    (hreach : OkFrom alloc s t → ∀ i < s.descSize, (t.lp i).names = T i) :
    InstallOk noneAhead s t ↔ s.Affords alloc T := by
  rw [h.installOk_iff hl]
  refine ⟨fun hok k hk => ?_, h.afford⟩
  have hneeded : s.needed T = s.madeSince t :=
    Finset.sum_congr rfl fun i hi => by rw [hreach hok i (Finset.mem_range.mp hi)]
  have hmade := h.made hok
  exact hok _ (Nat.le_add_right _ _) (by omega)

/-! ### The functions -/

theorem installHptes_ok_iff (hl : s.Legal) (hi : i < s.descSize)
    (hv : (s.lp i).empLpLookupVmr v = false) (hlen : 0 < s.pageLen v) :
    InstallOk noneAhead s (s.installHptes alloc i v p isWrite) ↔
      s.Affords alloc (s.withMapper i v) := by
  have hbase : Progress alloc (s.withMapper i v) s s := progress_refl hl fun j _ => by
    rw [withMapper]
    split_ifs
    · exact Finset.subset_insert _ _
    · exact Finset.Subset.refl _
  have hvT : v ∈ s.withMapper i v i := by
    rw [withMapper, if_pos rfl]
    exact Finset.mem_insert_self _ _
  have hstep : Progress alloc (s.withMapper i v) s (s.installHptes alloc i v p isWrite) :=
    hbase.step hi hv hvT hlen
  refine hstep.ok_iff hl fun hok j hj => ?_
  rw [withMapper]
  split_ifs with hji
  · rw [hji]
    exact names_recorded (hl i hi) hv (recorded_of_ok hv le_rfl hok)
  · rw [lp_installHptes_of_ne hji]

theorem installLoop_ok_iff (hl : s.Legal) (hlen : ∀ v, 0 < s.pageLen v) :
    InstallOk noneAhead s (installLoop alloc v p isWrite s.descSize s) ↔
      s.Affords alloc (s.withMapperAll v) := by
  have hrun : Installs alloc isWrite (fun w => w = v) s
      (installLoop alloc v p isWrite s.descSize s) := installs_installLoop rfl le_rfl
  have hprogress : Progress alloc (s.withMapperAll v) s
      (installLoop alloc v p isWrite s.descSize s) :=
    hrun.progress hl (fun i _ => ⟨Finset.subset_insert _ _, fun w hw =>
      hw ▸ Finset.mem_insert_self _ _⟩) hlen
  refine hprogress.ok_iff hl fun hok i hi => ?_
  ext w
  have hw := spread_installLoop alloc v p isWrite hl hok i hi w
  rw [pmdOf] at hw
  rw [MapperList.mem_names (hprogress.legal i (hprogress.view.descSize.symm ▸ hi)), hw,
    withMapperAll, Finset.mem_insert, MapperList.mem_names (hl i hi), Ne,
    Option.or_eq_none_iff, not_and_or, or_comm]
  refine or_congr ?_ Iff.rfl
  by_cases hwv : w = v
  · simp only [hwv, if_true]
    exact iff_of_true (Option.some_ne_none _) trivial
  · simp only [hwv, if_false]
    exact iff_of_false (fun h => h trivial) id

theorem syncHptMapInBlock_ok_iff (hl : s.Legal) (hzero : 0 < s.descSize)
    (hlen : ∀ v, 0 < s.pageLen v) : ∃ t, s.syncHptMapInBlock alloc isWrite = some t ∧
      (InstallOk noneAhead s t ↔ s.Affords alloc s.allMappers) := by
  obtain ⟨t, ht, hrun, hunion⟩ := mapsUnion_of_ok alloc isWrite hl hzero
  have hmem : ∀ j w, w ∈ s.allMappers j ↔ ∃ k < s.descSize, s.pmdOf k w ≠ none := by
    intro j w
    rw [allMappers, Finset.mem_biUnion]
    refine exists_congr fun k => ?_
    rw [Finset.mem_range]
    exact and_congr_right fun hk => MapperList.mem_names (hl k hk)
  have hprogress : Progress alloc s.allMappers s t := by
    refine hrun.progress hl (fun i hi => ⟨fun w hw => ?_, fun w hw => (hmem i w).mpr hw⟩) hlen
    exact (hmem i w).mpr ⟨i, hi, (MapperList.mem_names (hl i hi)).mp hw⟩
  refine ⟨t, ht, hprogress.ok_iff hl fun hok i hi => ?_⟩
  ext w
  rw [MapperList.mem_names (hprogress.legal i (hprogress.view.descSize.symm ▸ hi)), hmem]
  exact (hunion hok).union i hi w

/-- A page that is mapped ahead. -/
theorem installOk_ahead {demand : ℕ} (hl : s.Legal) (hcpf : s.prefetchedCpf = true) :
    InstallOk (s.mappedAhead v demand false false) s
      (s.pteInstall demand v (s.demandOffset % s.subblockSize) 1 isWrite) := by
  set t := s.pteInstall demand v (s.demandOffset % s.subblockSize) 1 isWrite
  have hpte : ∀ i w o, ¬ s.mappedAhead v demand false false i w o → t.pte i w o = s.pte i w o := by
    intro i w o hahead
    show Function.update s.pte demand _ i w o = _
    by_cases hi : i = demand
    · by_cases hw : w = v
      · rw [hi, Function.update_self, hw, Function.update_self, if_neg]
        intro hin
        simp only [inRun, Bool.and_eq_true, decide_eq_true_eq] at hin
        exact hahead ⟨hcpf, rfl, rfl, hi, hw, by omega⟩
      · rw [hi, Function.update_self, Function.update_of_ne hw]
    · rw [Function.update_of_ne hi]
  have hlt : t.Legal := hl
  refine ⟨fun i _ w o ho hahead => .inl ?_, fun i _ => ?_, fun w => ?_,
    fun i _ w _ o hahead => hpte i w o hahead, fun hevicts => ?_⟩
  · rwa [hpte i w o hahead] at ho
  · show s.mapRefs i - s.mapRefs i = s.recordedPages i - s.recordedPages i
    rw [sub_self, sub_self]
  · show s.rss w - s.rss w = ∑ i ∈ range s.descSize, (s.charge i w - s.charge i w)
    simp only [sub_self, Finset.sum_const_zero]
  · rw [evicts_iff hl] at hevicts
    rw [evicts_iff hlt]
    intro i hi w o ho hahead
    rw [hpte i w o hahead] at ho
    exact hevicts i hi w o ho hahead

omit [DecidableEq V] in
theorem mappedAhead_of_not {demand : ℕ} {prefetchHit arrived : Bool}
    (h : ¬ (s.prefetchedCpf = true ∧ prefetchHit = false ∧ arrived = false)) :
    s.mappedAhead v demand prefetchHit arrived = noneAhead := by
  funext i w o
  exact propext (iff_of_false (fun h' => h ⟨h'.1, h'.2.1, h'.2.2.1⟩) id)

/-- What has been prefetched has no part in the order of a block. -/
theorem installOk_flags (hl : s.Legal) (remote : ℕ → Bool) (cpf csf : Bool)
    (ahead : ℕ → V → ℕ → Prop) :
    InstallOk ahead
        { s with remote := remote, prefetchedCpf := cpf, prefetchedCsf := csf } t ↔
      InstallOk ahead s t := by
  set s' : HptBlock V P := { s with
    remote := remote
    prefetchedCpf := cpf
    prefetchedCsf := csf }
  have hl' : s'.Legal := hl
  have hevicts : s'.Evicts ahead ↔ s.Evicts ahead := (evicts_iff hl').trans (evicts_iff hl).symm
  constructor
  · exact fun h => ⟨h.noStray, h.refs, h.rss, h.asBefore, fun he => h.evicts (hevicts.mpr he)⟩
  · exact fun h => ⟨h.noStray, h.refs, h.rss, h.asBefore, fun he => h.evicts (hevicts.mp he)⟩

theorem empInstallHptes_ok_iff {demand : ℕ} {prefetchHit arrived : Bool} (hl : s.Legal)
    (hdemand : demand < s.descSize) (hlen : ∀ v, 0 < s.pageLen v)
    (hassert : prefetchHit = false → s.prefetchedCpf = true ∨ s.prefetchedCsf = true →
      (s.lp demand).empLpLookupVmr v = false) :
    InstallOk (s.mappedAhead v demand prefetchHit arrived) s
        (s.empInstallHptes alloc v demand p prefetchHit isWrite arrived) ↔
      s.Affords alloc (s.installTarget v demand prefetchHit arrived) := by
  rw [empInstallHptes, installTarget]
  cases prefetchHit with
  | true =>
      rw [mappedAhead_of_not fun h => Bool.noConfusion h.2.1]
      exact installLoop_ok_iff hl hlen
  | false =>
      cases hcpf : s.prefetchedCpf with
      | true =>
          have hv := hassert rfl (.inl hcpf)
          cases arrived with
          | true =>
              rw [mappedAhead_of_not fun h => Bool.noConfusion h.2.2]
              rw [← installOk_flags hl (Function.update s.remote demand false) false true]
              exact installHptes_ok_iff hl hdemand hv (hlen v)
          | false =>
              refine iff_of_true (installOk_ahead hl hcpf) fun k hk => ?_
              simp [needed] at hk
      | false =>
          rw [mappedAhead_of_not fun h => Bool.noConfusion (hcpf.symm.trans h.1)]
          cases hcsf : s.prefetchedCsf with
          | true => exact installHptes_ok_iff hl hdemand (hassert rfl (.inr hcsf)) (hlen v)
          | false => exact installLoop_ok_iff hl hlen

/-- **Ptes match the records exactly if the records can be made.**  For every block, whoever maps
its subblocks, and every outcome of the allocations: an installation into a subblock, into a
block, or of all mappers in all subblocks leaves references, charges and ptes that match the
records if and only if each of the allocations succeeds that its mappers need.  That the vmr has
no record yet is what the callers ensure and the two branches for prefetched blocks assert. -/
theorem installs_match_iff (alloc : ℕ → Bool) (isWrite : Bool) (hl : s.Legal)
    (hlen : ∀ v, 0 < s.pageLen v) :
    (∀ i < s.descSize, ∀ v p, (s.lp i).empLpLookupVmr v = false →
      (InstallOk noneAhead s (s.installHptes alloc i v p isWrite) ↔
        s.Affords alloc (s.withMapper i v))) ∧
    (∀ demand < s.descSize, ∀ v p prefetchHit arrived,
      (prefetchHit = false → s.prefetchedCpf = true ∨ s.prefetchedCsf = true →
        (s.lp demand).empLpLookupVmr v = false) →
      (InstallOk (s.mappedAhead v demand prefetchHit arrived) s
          (s.empInstallHptes alloc v demand p prefetchHit isWrite arrived) ↔
        s.Affords alloc (s.installTarget v demand prefetchHit arrived))) ∧
    (0 < s.descSize → ∃ t, s.syncHptMapInBlock alloc isWrite = some t ∧
      (InstallOk noneAhead s t ↔ s.Affords alloc s.allMappers)) :=
  ⟨fun _ hi v _ hv => installHptes_ok_iff hl hi hv (hlen v),
    fun _ hdemand _ _ _ _ hassert => empInstallHptes_ok_iff hl hdemand hlen hassert,
    fun hzero => syncHptMapInBlock_ok_iff hl hzero hlen⟩

theorem installs_match_threeMappers :
    ∃ t, threeMappers.syncHptMapInBlock (fun k => decide (k < 5)) true = some t ∧
      InstallOk noneAhead threeMappers t := by
  obtain ⟨t, ht, hiff⟩ := (installs_match_iff (fun k => decide (k < 5)) true
    legal_threeMappers fun _ => Nat.succ_pos 3).2.2 (by decide)
  refine ⟨t, ht, hiff.mpr fun k hk => decide_eq_true ?_⟩
  have hneeded : threeMappers.needed threeMappers.allMappers = 5 := by decide
  have hallocs : threeMappers.allocs = 0 := rfl
  omega

/-- A third process faults on a subblock that two map, and no record can be allocated: its ptes
stay behind, and an eviction does not remove them. -/
theorem not_installOk_threeMappers :
    (threeMappers.lp 0).empLpLookupVmr 2 = false ∧
      (threeMappers.installHptes (fun _ => false) 0 2 2 true).pte 0 2 0 = some ⟨true, true⟩ ∧
      (threeMappers.installHptes (fun _ => false) 0 2 2 true).pmdOf 0 2 = none ∧
      ((threeMappers.installHptes (fun _ => false) 0 2 2 true).unmapPtes.map
        fun t => t.pte 0 2 0) = some (some ⟨true, true⟩) ∧
      ¬ InstallOk noneAhead threeMappers
        (threeMappers.installHptes (fun _ => false) 0 2 2 true) := by
  refine ⟨by decide, by decide, by decide, by decide, fun hok => ?_⟩
  have hstray := hok.noStray 0 (by decide) 2 0 (by decide) id
  exact absurd hstray (by decide)

end HptBlock

end Emp
