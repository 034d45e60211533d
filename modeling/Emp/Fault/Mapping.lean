import Emp.Fault.Hva
import Emp.Mapper.Address

/-!
# Mapping a block for a fault

Before a subblock is mapped its read is waited for, unless the faulting process has a record of it,
or only the demanded subblock or page is wanted.  What the fault finds at its address in the end is
known at the outset: the waits bring the contents if they come at all, and the installations leave
the pte that `HptBlock.mappedPte` tells.

## Main definitions

* `HvaBlock.Recorded`, `mappedPte`, `Arrives` — the demanded subblock and page.
* `HvaBlock.Ready`, `Follows` — a block that can be mapped, and one for which the fault finds the
  same.
* `HvaBlock.Serves`, `Completed` — what a fault should leave.
-/

namespace Emp

namespace HvaBlock

variable {V P : Type*} [DecidableEq V] {c : HvaConf} {l : HvaLuck V P} {f : HvaFault V}
  {s t u : HvaBlock V P} {i k o : ℕ} {p : P} {fetch hit : Bool} {pmd : Option P}

/-- The faulting process has a record of the demanded subblock. -/
def Recorded (f : HvaFault V) (s : HvaBlock V P) : Prop :=
  (s.map.lp f.demand).empLpLookupVmr f.vmr = true

/-- The pte of the faulting address, once the block has been mapped. -/
def mappedPte (f : HvaFault V) (s : HvaBlock V P) : Option HptPte :=
  s.map.mappedPte f.write f.demand f.vmr f.page

/-- The contents of the page are there, or come when the request is cleared. -/
def Arrives (l : HvaLuck V P) (f : HvaFault V) (s : HvaBlock V P) : Prop :=
  s.arrived f.demand f.page = true ∨ s.pending f.demand = true ∧ l.readOk f.demand = true

/-- The block can be mapped at the faulting address; what is mapped has no request. -/
structure Ready (f : HvaFault V) (s : HvaBlock V P) : Prop where
  legal : s.map.Legal
  demand : f.demand < s.map.descSize
  view : HptBlock.inRun (s.map.pageOff f.vmr) (s.map.pageLen f.vmr) f.page = true
  quiet : s.Recorded f → s.pending f.demand = false

/-- The fault finds the same in the end, from `t` on as from `s` on. -/
structure Follows (l : HvaLuck V P) (f : HvaFault V) (s t : HvaBlock V P) : Prop where
  ready : t.Ready f
  pte : t.mappedPte f = s.mappedPte f
  arrives : t.Arrives l f ↔ s.Arrives l f

theorem mappedPte_recorded (h : s.Recorded f) :
    s.mappedPte f = s.map.pte f.demand f.vmr f.page := if_pos h

theorem Ready.follows (h : s.Ready f) : Follows l f s s := ⟨h, rfl, Iff.rfl⟩

theorem Follows.trans (h : Follows l f s t) (h' : Follows l f t u) : Follows l f s u :=
  ⟨h'.ready, h'.pte.trans h.pte, h'.arrives.trans h.arrives⟩

/-- The pte is there and grants what the fault asks for. -/
def Serves (f : HvaFault V) (q : Option HptPte) : Prop :=
  ∃ r, q = some r ∧ (f.write = true → r.write = true)

/-- What a fault should leave: it does not come again at its address, the block is dirty after a
write, and the contents of the page are there. -/
structure Completed (f : HvaFault V) (r : HvaResult V P) : Prop where
  pte : Serves f (r.block.map.pte r.demand f.vmr f.page)
  dirty : f.write = true → r.block.map.dirty = true
  arrived : r.block.arrived r.demand f.page = true

/-! ### Waits -/

/-- The block after waits for the subblocks `waits`. -/
def waited (l : HvaLuck V P) (waits : ℕ → Bool) (s : HvaBlock V P) : HvaBlock V P :=
  { s with
    pending := fun i => s.pending i && !waits i
    arrived := fun i o => s.arrived i o || (waits i && s.pending i && l.readOk i) }

omit [DecidableEq V] in
theorem waitReadAsync_eq (i : ℕ) (s : HvaBlock V P) :
    s.waitReadAsync l i = s.waited l (· == i) := by
  unfold waitReadAsync waited
  have hupdate : ∀ {β : Type} (g : ℕ → β) (x : β) (j : ℕ),
      Function.update g i x j = if j = i then x else g j :=
    fun g x j => Function.update_apply g i x j
  split_ifs with hp
  · congr 1
    · funext j
      rw [hupdate]
      split_ifs with hj <;> simp [hj]
    · funext j o
      rw [hupdate]
      split_ifs with hj
      · subst hj
        simp [hp]
      · simp [hj]
  · have hp' : s.pending i = false := Bool.eq_false_iff.mpr hp
    have hpend : (fun j => s.pending j && !(j == i)) = s.pending := by
      funext j
      by_cases hj : j = i
      · simp [hj, hp']
      · simp [hj]
    have harr : (fun j o => s.arrived j o || ((j == i) && s.pending j && l.readOk j)) =
        s.arrived := by
      funext j o
      by_cases hj : j = i
      · simp [hj, hp']
      · simp [hj]
    rw [hpend, harr]

omit [DecidableEq V] in
theorem waited_waited (w w' : ℕ → Bool) (s : HvaBlock V P) :
    (s.waited l w).waited l w' = s.waited l fun i => w i || w' i := by
  unfold waited
  congr 1
  · funext i
    show (s.pending i && !w i && !w' i) = (s.pending i && !(w i || w' i))
    rw [Bool.not_or, Bool.and_assoc]
  · funext i o
    show (s.arrived i o || (w i && s.pending i && l.readOk i) ||
      (w' i && (s.pending i && !w i) && l.readOk i)) =
        (s.arrived i o || ((w i || w' i) && s.pending i && l.readOk i))
    cases w i <;> cases w' i <;> simp

omit [DecidableEq V] in
theorem waitReads_eq (skip : ℕ → Bool) (s : HvaBlock V P) :
    s.waitReads l skip k = s.waited l fun i => decide (i < k) && !skip i := by
  induction k with
  | zero => simp [waitReads, waited]
  | succ k ih =>
      simp only [waitReads, ih]
      have hless : ∀ i, (decide (i < k + 1) && !skip i) =
          (decide (i < k) && !skip i || i == k && !skip k) := by
        intro i
        by_cases hi : i = k
        · simp [hi]
        · have hlt : (i < k + 1) = (i < k) := propext (by omega)
          simp [hi, hlt]
      simp only [hless]
      split_ifs with hk
      · simp only [hk, Bool.not_true, Bool.and_false, Bool.or_false]
      · rw [waitReadAsync_eq, waited_waited]
        simp only [hk, Bool.not_false, Bool.and_true]

omit [DecidableEq V] in
/-- Waits bring what comes anyway. -/
theorem arrives_waited (w : ℕ → Bool) : (s.waited l w).Arrives l f ↔ s.Arrives l f := by
  simp only [Arrives, waited]
  cases w f.demand <;> simp

omit [DecidableEq V] in
/-- A page whose subblock has been waited for. -/
theorem arrived_waited {w : ℕ → Bool} (h : s.pending f.demand = true → w f.demand = true) :
    (s.waited l w).arrived f.demand f.page = true ↔ s.Arrives l f := by
  simp only [Arrives, waited]
  cases hp : s.pending f.demand with
  | false => simp
  | true => simp [h hp]

/-! ### Mapping a whole block -/

/-- The subblocks that the barrier waits for, where it does not want a part alone. -/
def barrierWaits (f : HvaFault V) (fetch : Bool) (sb : Option ℕ) (s : HvaBlock V P) (i : ℕ) :
    Bool :=
  decide (i < s.map.descSize) &&
    !(fetch && s.map.prefetchedCsf && sb == some i || (s.map.lp i).empLpLookupVmr f.vmr)

theorem fetchBarrier_whole {sb : Option ℕ} (hmode : s.demandOnly c sb fetch = false) :
    s.fetchBarrier c l f sb fetch = (s.waited l (s.barrierWaits f fetch sb)).activate := by
  have hmode' : s.activate.demandOnly c sb fetch = false := hmode
  unfold fetchBarrier
  simp only [hmode', Bool.false_eq_true, if_false]
  rw [waitReads_eq]
  rfl

/-- What `emp_page_fault_hptes_map` leaves of a block. -/
structure HptesMapped (l : HvaLuck V P) (f : HvaFault V) (pmd : Option P) (s t : HvaBlock V P)
    (ret : HvaRet) : Prop where
  follows : Follows l f s t
  quiet : t.pending f.demand = false
  arrived : t.arrived f.demand f.page = true ↔ s.Arrives l f
  shape : t = { s with
    map := t.map, rState := .active, hpt := true, stretched := t.stretched
    pending := t.pending, arrived := t.arrived }
  rights : s.map.SameRights t.map
  returns : ret = HvaRet.noPage ↔ pmd ≠ none
  pte : ret = HvaRet.noPage → t.map.pte f.demand f.vmr f.page = s.mappedPte f
  recorded : ret = HvaRet.noPage → (∀ k, l.alloc k = true) → t.Recorded f

/-- The pass over the subblocks, if there is one. -/
theorem syncHpt_spec (l : HvaLuck V P) (f : HvaFault V) (hit : Bool) (hl : s.map.Legal)
    (hzero : 0 < s.map.descSize) :
    ∃ m b, HptBlock.Installs l.alloc f.write (fun _ => True) s.map m ∧
      s.syncHpt l f hit = { s with map := m, stretched := b } := by
  unfold syncHpt
  split_ifs
  · obtain ⟨m, hm, hrun⟩ := HptBlock.installs_syncHptMapInBlock l.alloc f.write hl hzero
    refine ⟨m, false, hrun, ?_⟩
    rw [hm]
    rfl
  · exact ⟨s.map, s.stretched, .refl, rfl⟩

/-- A block of which no part is wanted alone is installed by the loop. -/
theorem installHptes_whole
    (h : hit = true ∨ s.map.prefetchedCsf = false ∧ s.map.prefetchedCpf = false) :
    s.installHptes c l f hit p =
      { s with map := HptBlock.installLoop l.alloc f.vmr p f.write s.map.descSize s.map } := by
  unfold installHptes HptBlock.empInstallHptes
  rcases h with rfl | ⟨hcsf, hcpf⟩
  · rfl
  · simp only [hcsf, hcpf, Bool.and_false, Bool.false_and, Bool.false_eq_true, if_false]

/-- The installations of a whole block, behind the waits. -/
theorem hptesMapped_of_installs {m : HptBlock V P} {b : Bool} {w : ℕ → Bool} {ret : HvaRet}
    (hs : s.Ready f) (hw : s.pending f.demand = true → w f.demand = true)
    (hm : HptBlock.Installs l.alloc f.write (fun _ => True) s.map m)
    (hret : ret = HvaRet.noPage ↔ pmd ≠ none)
    (hpte : ret = HvaRet.noPage → m.pte f.demand f.vmr f.page = s.mappedPte f)
    (hrec : ret = HvaRet.noPage → (∀ k, l.alloc k = true) →
      (m.lp f.demand).empLpLookupVmr f.vmr = true) :
    HptesMapped l f pmd s { (s.waited l w).activate with map := m, stretched := b } ret := by
  have hquiet : (s.pending f.demand && !w f.demand) = false := by
    cases hp : s.pending f.demand with
    | false => rfl
    | true => simp [hw hp]
  refine ⟨⟨⟨hm.legal hs.legal, ?_, ?_, fun _ => hquiet⟩, hm.mappedPte hs.legal hs.demand hs.view,
    arrives_waited w⟩, hquiet, arrived_waited hw, rfl, hm.sameRights, hret, hpte, hrec⟩
  · show f.demand < m.descSize
    rw [hm.sameView.descSize]
    exact hs.demand
  · show HptBlock.inRun (m.pageOff f.vmr) (m.pageLen f.vmr) f.page = true
    rw [hm.sameView.pageOff, hm.sameView.pageLen]
    exact hs.view

theorem hptesMap_spec {t : HvaBlock V P} {ret : HvaRet} (hs : s.Ready f)
    (hmode : s.demandOnly c (s.prefetchedSb hit) fetch = false)
    (hskip : fetch = true → s.map.prefetchedCsf = true → hit = true → s.demandSb = f.demand →
      s.pending f.demand = false)
    (hplain : hit = false → s.map.prefetchedCsf = false ∧ s.map.prefetchedCpf = false)
    (h : s.hptesMap c l f fetch hit pmd = (t, ret)) : HptesMapped l f pmd s t ret := by
  have hw : s.pending f.demand = true →
      s.barrierWaits f fetch (s.prefetchedSb hit) f.demand = true := by
    intro hp
    have hrec : (s.map.lp f.demand).empLpLookupVmr f.vmr = false :=
      Bool.eq_false_iff.mpr fun hr => nomatch hp.symm.trans (hs.quiet hr)
    rw [barrierWaits, decide_eq_true hs.demand, hrec, Bool.or_false, Bool.true_and,
      Bool.not_eq_true', Bool.and_eq_false_iff, Bool.and_eq_false_iff]
    by_contra hcon
    simp only [not_or, Bool.not_eq_false] at hcon
    obtain ⟨⟨hfetch, hcsf⟩, hsb⟩ := hcon
    cases hit with
    | false => cases hsb
    | true =>
        have hne := hskip hfetch hcsf rfl (Option.some.inj (beq_iff_eq.mp hsb))
        rw [hp] at hne
        cases hne
  obtain ⟨m, b, hm, hsync⟩ :=
    syncHpt_spec (s := (s.waited l (s.barrierWaits f fetch (s.prefetchedSb hit))).activate) l f hit
      hs.legal (Nat.zero_lt_of_lt hs.demand)
  unfold hptesMap at h
  rw [fetchBarrier_whole hmode, hsync] at h
  cases pmd with
  | none =>
      obtain ⟨rfl, rfl⟩ := Prod.mk.inj h
      exact hptesMapped_of_installs hs hw hm (iff_of_false nofun fun h => h rfl) nofun nofun
  | some q =>
      have hloop : HptBlock.Installs l.alloc f.write (fun _ => True) m
          (HptBlock.installLoop l.alloc f.vmr q f.write m.descSize m) :=
        HptBlock.installs_installLoop trivial (Nat.le_refl _)
      have hflags : hit = true ∨ m.prefetchedCsf = false ∧ m.prefetchedCpf = false := by
        cases hit with
        | true => exact .inl rfl
        | false =>
            obtain ⟨hcsf, hcpf⟩ := hplain rfl
            exact .inr ⟨hm.sameRights.prefetchedCsf.trans hcsf,
              hm.sameRights.prefetchedCpf.trans hcpf⟩
      have hdemand : f.demand < m.descSize := by
        rw [hm.sameView.descSize]
        exact hs.demand
      obtain ⟨rfl, rfl⟩ := Prod.mk.inj h
      rw [installHptes_whole hflags]
      refine hptesMapped_of_installs hs hw (hm.trans hloop) (iff_of_true rfl nofun) (fun _ => ?_)
        fun _ halloc => HptBlock.lookup_installLoop (hm.legal hs.legal) hdemand halloc
      rw [HptBlock.pte_installLoop (hm.legal hs.legal) (Nat.le_refl _) hdemand,
        hm.mappedPte hs.legal hs.demand hs.view]
      · rfl
      · rw [hm.sameView.pageOff, hm.sameView.pageLen]
        exact hs.view

omit [DecidableEq V] in
/-- A fault that marks a written block dirty. -/
theorem completed_written (t : HvaBlock V P) (ret : HvaRet) :
    Completed f
      ⟨if f.write then { t with map := { t.map with dirty := true } } else t, f.demand, ret⟩ ↔
      Serves f (t.map.pte f.demand f.vmr f.page) ∧ t.arrived f.demand f.page = true := by
  cases hwrite : f.write with
  | false =>
      refine ⟨fun h => ⟨h.pte, h.arrived⟩, fun h => ⟨h.1, fun hw => ?_, h.2⟩⟩
      rw [hwrite] at hw
      cases hw
  | true => exact ⟨fun h => ⟨h.pte, h.arrived⟩, fun h => ⟨h.1, fun _ => rfl, h.2⟩⟩

/-- The end of a fault that maps a whole block. -/
theorem completed_mapFault (hs : s.Ready f) (hmode : s.demandOnly c none fetch = false)
    (hplain : s.map.prefetchedCsf = false ∧ s.map.prefetchedCpf = false)
    (hret : (s.mapFault c l f fetch).ret = HvaRet.noPage) :
    Completed f (s.mapFault c l f fetch) ↔ Serves f (s.mappedPte f) ∧ s.Arrives l f := by
  obtain ⟨t, ret, ht⟩ : ∃ t ret, s.hptesMap c l f fetch false l.pmd = (t, ret) := ⟨_, _, rfl⟩
  have hspec := hptesMap_spec hs hmode (fun _ _ h => by cases h) (fun _ => hplain) ht
  have hmap : s.mapFault c l f fetch =
      ⟨if f.write then { t with map := { t.map with dirty := true } } else t, f.demand, ret⟩ := by
    rw [mapFault, ht]
  rw [hmap] at hret ⊢
  rw [← hspec.pte hret, ← hspec.arrived]
  exact completed_written t ret

/-! ### Draining a block -/

/-- Some subblocks have been waited for; no record, no pte and no right has changed. -/
structure Drained (l : HvaLuck V P) (s t : HvaBlock V P) : Prop where
  map : s.map.SameMap t.map
  waits : ∃ w, t.pending = (s.waited l w).pending ∧ t.arrived = (s.waited l w).arrived

omit [DecidableEq V] in
theorem waited_none (s : HvaBlock V P) : s.waited l (fun _ => false) = s := by
  unfold waited
  simp

omit [DecidableEq V] in
/-- Nothing has changed but flags. -/
theorem Drained.of_flags (hmap : s.map.SameMap t.map) (hpending : t.pending = s.pending)
    (harrived : t.arrived = s.arrived) : Drained l s t := by
  refine ⟨hmap, fun _ => false, ?_, ?_⟩
  · rw [waited_none, hpending]
  · rw [waited_none, harrived]

omit [DecidableEq V] in
theorem Drained.trans (h : Drained l s t) (h' : Drained l t u) : Drained l s u := by
  obtain ⟨w, hp, ha⟩ := h.waits
  obtain ⟨w', hp', ha'⟩ := h'.waits
  refine ⟨h.map.trans h'.map, fun i => w i || w' i, ?_, ?_⟩
  · rw [← waited_waited, hp']
    show (fun i => t.pending i && !w' i) = _
    rw [hp]
    rfl
  · rw [← waited_waited, ha']
    show (fun i o => t.arrived i o || (w' i && t.pending i && l.readOk i)) = _
    rw [hp, ha]
    rfl

omit [DecidableEq V] in
theorem drained_waitReads (skip : ℕ → Bool) (k : ℕ) (s : HvaBlock V P) :
    Drained l s (s.waitReads l skip k) := by
  rw [waitReads_eq]
  exact ⟨.refl _, _, rfl, rfl⟩

omit [DecidableEq V] in
theorem drained_clearPrefetched (s : HvaBlock V P) : Drained l s s.clearPrefetched :=
  .of_flags ⟨⟨rfl, rfl, rfl, rfl⟩, rfl, rfl, fun _ _ _ => rfl⟩ rfl rfl

omit [DecidableEq V] in
theorem drained_checkEagerWbr (s : HvaBlock V P) : Drained l s s.checkEagerWbr := by
  unfold checkEagerWbr
  split_ifs <;> exact .of_flags ⟨⟨rfl, rfl, rfl, rfl⟩, rfl, rfl, fun _ _ _ => rfl⟩ rfl rfl

omit [DecidableEq V] in
theorem drained_setOffset (o : ℕ) (s : HvaBlock V P) :
    Drained l s { s with map := { s.map with demandOffset := o } } :=
  .of_flags ⟨⟨rfl, rfl, rfl, rfl⟩, rfl, rfl, fun _ _ _ => rfl⟩ rfl rfl

omit [DecidableEq V] in
theorem drained_waitForPrefetchedBlock (s : HvaBlock V P) :
    Drained l s (s.waitForPrefetchedBlock l) :=
  ((drained_waitReads _ _ s).trans (drained_clearPrefetched _)).trans (drained_setOffset 0 _)

omit [DecidableEq V] in
theorem drained_clearBlockW (s : HvaBlock V P) : Drained l s (s.clearBlockW l) := by
  unfold clearBlockW
  split_ifs
  · exact .of_flags ⟨⟨rfl, rfl, rfl, rfl⟩, rfl, rfl, fun _ _ _ => rfl⟩ rfl rfl
  · refine (drained_checkEagerWbr s).trans ?_
    dsimp only
    split_ifs
    · exact drained_waitForPrefetchedBlock _
    · exact .of_flags (.refl _) rfl rfl

/-- The fault goes on as before. -/
theorem Drained.follows (h : Drained l s t) (hs : s.Ready f) : Follows l f s t := by
  obtain ⟨w, hp, ha⟩ := h.waits
  refine ⟨⟨h.map.legal hs.legal, ?_, ?_, fun hrec => ?_⟩, h.map.mappedPte .., ?_⟩
  · rw [h.map.view.descSize]
    exact hs.demand
  · rw [h.map.view.pageOff, h.map.view.pageLen]
    exact hs.view
  · rw [Recorded, h.map.lp] at hrec
    rw [hp]
    show (s.pending f.demand && !w f.demand) = false
    rw [hs.quiet hrec, Bool.false_and]
  · rw [Arrives, hp, ha]
    exact arrives_waited w

/-! ### A block that was just fetched -/

/-- The contents of a page come whose read has been posted. -/
def Comes (c : HvaConf) (l : HvaLuck V P) (f : HvaFault V) (s : HvaBlock V P) : Prop :=
  if c.csf = true ∧ c.cpf = true ∧ s.prefetchOnce = false then
    c.markEmptyPage = true ∧ (if l.overwritten then l.pageArrived else l.readOk f.demand) = true ∨
      c.transitionCsf = true ∧ l.transition = true ∧ l.readOk f.demand = true
  else l.readOk f.demand = true

/-- The barrier changes no mapping. -/
theorem sameMap_fetchBarrier {sb : Option ℕ} :
    s.map.SameMap (s.fetchBarrier c l f sb fetch).map := by
  unfold fetchBarrier
  dsimp only
  split_ifs
  · unfold waitDemandPage
    split_ifs
    · exact ⟨⟨rfl, rfl, rfl, rfl⟩, rfl, rfl, fun _ _ _ => rfl⟩
    · exact ⟨⟨rfl, rfl, rfl, rfl⟩, rfl, rfl, fun _ _ _ => rfl⟩
    · rw [waitReadAsync_eq]
      exact ⟨⟨rfl, rfl, rfl, rfl⟩, rfl, rfl, fun _ _ _ => rfl⟩
  · rw [waitReadAsync_eq]
    exact ⟨⟨rfl, rfl, rfl, rfl⟩, rfl, rfl, fun _ _ _ => rfl⟩
  · rw [waitReadAsync_eq]
    exact .refl _
  · rw [waitReads_eq]
    exact .refl _

/-- What the barrier of a block that was just fetched leaves for the demanded page, and what a
transition behind it brings. -/
structure Fetched (c : HvaConf) (l : HvaLuck V P) (f : HvaFault V) (comes : Prop)
    (s : HvaBlock V P) : Prop where
  offset : s.map.prefetchedCpf = true → s.map.demandOffset % s.map.subblockSize = f.page
  arrived : (s.arrived f.demand f.page = true ∨ s.map.prefetchedCpf = true ∧
    (c.transitionCsf && s.pending f.demand && l.transition) = true ∧ l.readOk f.demand = true) ↔
      comes

theorem fetched_whole (hdemand : f.demand < s.map.descSize) (hrec : ¬ s.Recorded f)
    (hplain : s.map.prefetchedCsf = false ∧ s.map.prefetchedCpf = false)
    (hmode : s.demandOnly c none fetch = false) :
    Fetched c l f (s.Arrives l f) (s.fetchBarrier c l f none fetch) := by
  rw [fetchBarrier_whole hmode]
  have hcpf : (s.waited l (s.barrierWaits f fetch none)).activate.map.prefetchedCpf = false :=
    hplain.2
  refine ⟨fun h => (nomatch hcpf.symm.trans h), ?_⟩
  rw [hcpf]
  simp only [Bool.false_eq_true, false_and, or_false]
  refine arrived_waited fun _ => ?_
  rw [barrierWaits, decide_eq_true hdemand, hplain.1, Bool.eq_false_iff.mpr hrec]
  simp

/-- The critical subblock comes first. -/
theorem fetched_subblock (hplain : s.map.prefetchedCsf = false ∧ s.map.prefetchedCpf = false)
    (hcpf : c.cpf = false) (hmode : s.demandOnly c none fetch = true) :
    Fetched c l f (s.Arrives l f) (s.fetchBarrier c l f none fetch) := by
  have hmode' : s.activate.demandOnly c none fetch = true := hmode
  have harr : (s.activate.waitReadAsync l f.demand).arrived f.demand f.page = true ↔
      s.Arrives l f := by
    rw [waitReadAsync_eq]
    exact arrived_waited (s := s.activate) fun _ => by simp
  have hno : (s.activate.waitReadAsync l f.demand).map.prefetchedCpf = false := by
    rw [waitReadAsync_eq]
    exact hplain.2
  unfold fetchBarrier
  simp only [hmode', hcpf, Bool.false_eq_true, if_true, if_false]
  split_ifs
  · refine ⟨fun h => absurd (hno.symm.trans h) Bool.false_ne_true, ?_⟩
    rw [← harr, hno]
    simp
  · refine ⟨fun h => absurd (hno.symm.trans h) Bool.false_ne_true, ?_⟩
    rw [← harr, hno]
    simp

/-- The critical page comes first. -/
theorem fetched_page (hpage : f.page < s.map.subblockSize)
    (hplain : s.map.prefetchedCsf = false ∧ s.map.prefetchedCpf = false)
    (hcpf : c.cpf = true) (hmode : s.demandOnly c none fetch = true)
    (hpending : s.pending f.demand = true) (harrived : s.arrived f.demand f.page = false) :
    Fetched c l f
      (c.markEmptyPage = true ∧
          (if l.overwritten then l.pageArrived else l.readOk f.demand) = true ∨
        c.transitionCsf = true ∧ l.transition = true ∧ l.readOk f.demand = true)
      (s.fetchBarrier c l f none fetch) := by
  have hmode' : s.activate.demandOnly c none fetch = true := hmode
  have hpending' : s.activate.pending f.demand = true := hpending
  have hmod : (f.demand * s.map.subblockSize + f.page) % s.map.subblockSize = f.page := by
    rw [Nat.mul_comm, Nat.mul_add_mod, Nat.mod_eq_of_lt hpage]
  unfold fetchBarrier
  simp only [hmode', hcpf, if_true]
  unfold waitDemandPage
  rw [waitReadAsync_eq]
  simp only [hpending', hcpf, Bool.not_true, Bool.and_true, Bool.false_or]
  cases hmark : c.markEmptyPage with
  | false =>
      simp only [Bool.not_false, if_true]
      refine ⟨fun _ => hmod, ?_⟩
      simp [activate, hpending, harrived, hplain.2, and_assoc]
  | true =>
      simp only [Bool.not_true, Bool.false_eq_true, if_false]
      cases hover : l.overwritten with
      | true =>
          simp only [if_true]
          refine ⟨fun _ => hmod, ?_⟩
          simp [activate, hpending, harrived, hplain.2, and_assoc]
      | false =>
          simp only [Bool.false_eq_true, if_false]
          refine ⟨fun h => ?_, ?_⟩
          · simp [activate, waited, hplain.2] at h
          · simp [activate, waited, hpending, harrived, hplain.2]

/-- The barrier of a block that was just fetched. -/
theorem fetched_fetchBarrier (hdemand : f.demand < s.map.descSize)
    (hpage : f.page < s.map.subblockSize) (hrec : ¬ s.Recorded f)
    (hplain : s.map.prefetchedCsf = false ∧ s.map.prefetchedCpf = false)
    (hpending : s.pending f.demand = fetch) (harrived : s.arrived f.demand f.page = !fetch) :
    Fetched c l f (fetch = true → s.Comes c l f) (s.fetchBarrier c l f none fetch) := by
  have harr : s.Arrives l f ↔ (fetch = true → l.readOk f.demand = true) := by
    rw [Arrives, hpending, harrived]
    cases fetch <;> simp
  cases hmode : s.demandOnly c none fetch with
  | false =>
      have hcomes : (fetch = true → s.Comes c l f) ↔ s.Arrives l f := by
        rw [harr]
        refine imp_congr_right fun hfetch => ?_
        rw [Comes, if_neg]
        rintro ⟨hcsf, -, honce⟩
        simp [demandOnly, hfetch, hcsf, honce] at hmode
      rw [hcomes]
      exact fetched_whole hdemand hrec hplain hmode
  | true =>
      obtain ⟨hfetch, hcsf, honce⟩ : fetch = true ∧ c.csf = true ∧ s.prefetchOnce = false := by
        unfold demandOnly at hmode
        simp only [Bool.and_eq_true, Bool.not_eq_true'] at hmode
        exact ⟨hmode.1.1.2, hmode.1.1.1, hmode.2⟩
      subst hfetch
      cases hcpf : c.cpf with
      | false =>
          have hcomes : (true = true → s.Comes c l f) ↔ s.Arrives l f := by
            rw [harr, Comes, if_neg]
            rintro ⟨-, h, -⟩
            rw [hcpf] at h
            cases h
          rw [hcomes]
          exact fetched_subblock hplain hcpf hmode
      | true =>
          have hpagefirst := fetched_page (l := l) hpage hplain hcpf hmode hpending harrived
          rw [Comes, if_pos ⟨hcsf, hcpf, honce⟩]
          simpa only [forall_const] using hpagefirst

/-- What the installation does to the mapping. -/
theorem map_installHptes (c : HvaConf) (l : HvaLuck V P) (f : HvaFault V) (hit : Bool) (p : P)
    (s : HvaBlock V P) : ∃ arrived, (s.installHptes c l f hit p).map =
    s.map.empInstallHptes l.alloc f.vmr f.demand p hit f.write arrived := by
  unfold installHptes
  dsimp only
  rw [waitReadAsync_eq]
  split_ifs
  · exact ⟨_, rfl⟩
  · exact ⟨_, rfl⟩

/-- What the installation adds to the contents. -/
theorem arrived_installHptes : (s.installHptes c l f false p).arrived f.demand f.page = true ↔
    s.arrived f.demand f.page = true ∨ s.map.prefetchedCpf = true ∧
      (c.transitionCsf && s.pending f.demand && l.transition) = true ∧
        l.readOk f.demand = true := by
  unfold installHptes
  dsimp only
  rw [Bool.not_false, Bool.true_and, waitReadAsync_eq]
  by_cases hcond : (s.map.prefetchedCpf &&
      (c.transitionCsf && s.pending f.demand && l.transition)) = true
  · rw [if_pos hcond]
    obtain ⟨hcpf, hmove⟩ := Bool.and_eq_true_iff.mp hcond
    have hpending : s.pending f.demand = true := by
      simp only [Bool.and_eq_true] at hmove
      exact hmove.1.2
    refine (arrived_waited fun _ => by simp).trans ?_
    rw [Arrives, hcpf, hmove, hpending]
    simp
  · rw [if_neg hcond]
    refine (or_iff_left fun h => hcond ?_).symm
    rw [h.1, h.2.1]
    rfl

/-- The end of a fault on a block that was just fetched: it finds a new pte. -/
theorem completed_mapFetched (hs : s.Ready f) (hpage : f.page < s.map.subblockSize)
    (hrec : ¬ s.Recorded f) (hpte : s.map.pte f.demand f.vmr f.page = none)
    (hplain : s.map.prefetchedCsf = false ∧ s.map.prefetchedCpf = false)
    (hpending : s.pending f.demand = fetch) (harrived : s.arrived f.demand f.page = !fetch)
    (hret : (s.mapFault c l f fetch).ret = HvaRet.noPage) :
    Completed f (s.mapFault c l f fetch) ↔
      Serves f (some (s.map.freshPte f.write f.demand f.vmr)) ∧ (fetch = true → s.Comes c l f) := by
  have hfetched := fetched_fetchBarrier (c := c) (l := l) hs.demand hpage hrec hplain hpending
    harrived
  have hmap : s.map.SameMap (s.fetchBarrier c l f none fetch).map := sameMap_fetchBarrier
  have hlegal := hmap.legal hs.legal
  have hdemand : f.demand < (s.fetchBarrier c l f none fetch).map.descSize := by
    rw [hmap.view.descSize]
    exact hs.demand
  obtain ⟨m, b, hm, hsync⟩ := syncHpt_spec l f false hlegal (Nat.zero_lt_of_lt hdemand)
  have hview : HptBlock.inRun ((s.fetchBarrier c l f none fetch).map.pageOff f.vmr)
      ((s.fetchBarrier c l f none fetch).map.pageLen f.vmr) f.page = true := by
    rw [hmap.view.pageOff, hmap.view.pageLen]
    exact hs.view
  have hnone : (s.fetchBarrier c l f none fetch).map.pte f.demand f.vmr f.page = none := by
    rw [hmap.pte]
    exact hpte
  have hunrec : ((s.fetchBarrier c l f none fetch).map.lp f.demand).empLpLookupVmr f.vmr =
      false := by
    rw [hmap.lp]
    exact Bool.eq_false_iff.mpr hrec
  have hfresh : m.freshPte f.write f.demand f.vmr = s.map.freshPte f.write f.demand f.vmr :=
    (hm.sameRights.freshPte ..).trans (hmap.fresh ..)
  obtain ⟨t, ret, ht⟩ : ∃ t ret, s.hptesMap c l f fetch false l.pmd = (t, ret) := ⟨_, _, rfl⟩
  have hfault : s.mapFault c l f fetch =
      ⟨if f.write then { t with map := { t.map with dirty := true } } else t, f.demand, ret⟩ := by
    rw [mapFault, ht]
  rw [hfault] at hret ⊢
  have hboth : t.map.pte f.demand f.vmr f.page =
      some (s.map.freshPte f.write f.demand f.vmr) ∧
        (t.arrived f.demand f.page = true ↔ (fetch = true → s.Comes c l f)) := by
    unfold hptesMap at ht
    rw [prefetchedSb, if_neg Bool.false_ne_true, hsync] at ht
    cases hpmd : l.pmd with
    | none =>
        rw [hpmd] at ht
        obtain ⟨-, rfl⟩ := Prod.mk.inj ht
        cases hret
    | some q =>
        rw [hpmd] at ht
        obtain ⟨rfl, -⟩ := Prod.mk.inj ht
        refine ⟨?_, ?_⟩
        · obtain ⟨arrived, hinstall⟩ := map_installHptes c l f false q
            { s.fetchBarrier c l f none fetch with map := m, stretched := b }
          rw [hinstall]
          refine (HptBlock.pte_empInstallHptes (hm.legal hlegal) ?_ ?_ ?_ ?_).trans ?_
          · rw [hm.sameView.descSize]
            exact hdemand
          · rw [hm.sameView.pageOff, hm.sameView.pageLen]
            exact hview
          · intro hrec'
            rw [hm.pte_of_recorded hlegal hdemand hunrec hrec' hview]
            exact fun h => nomatch (Option.or_eq_none_iff.mp h).2
          · rw [hm.sameRights.prefetchedCpf, hm.sameRights.demandOffset, hm.sameView.subblockSize]
            exact hfetched.offset
          · rw [hfresh]
            rcases hm.pte_or f.demand f.vmr f.page with hsame | hnew
            · rw [hsame, hnone]
              rfl
            · rw [hnew, hnone, hmap.fresh]
              rfl
        · rw [arrived_installHptes, ← hfetched.arrived, ← hm.sameRights.prefetchedCpf]
  rw [← hboth.1, ← hboth.2]
  exact completed_written t ret

end HvaBlock

end Emp
