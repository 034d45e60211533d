import Emp.Fault.Mapping

/-!
# A fault that is over

An active block may be taken as mapped already: then the fault is over with the pte that is there,
and a write leaves the block as clean as it was.  Any other block is mapped.

## Main definitions

* `HvaBlock.Resumed` — a block whose prefetch is finished.
* `HvaBlock.LocalWhen`, `RemoteWhen` — what a fault must find.
* `HvaBlock.Decides` — a condition that suffices, and that is needed as a rule.
-/

namespace Emp

namespace HvaBlock

variable {V P : Type*} [DecidableEq V] {c : HvaConf} {l : HvaLuck V P} {f : HvaFault V}
  {s t u : HvaBlock V P}

/-! ### A prefetch that is finished -/

omit [DecidableEq V] in
/-- Nothing is prefetched behind `clear_block_w`. -/
theorem clearBlockW_prefetched (hp : s.prefetched = true) :
    s.clearBlockW l = s.checkEagerWbr.waitForPrefetchedBlock l := by
  have hp' : s.checkEagerWbr.prefetched = true := by
    unfold checkEagerWbr
    split_ifs <;> exact hp
  unfold clearBlockW
  simp only [hp, hp', Bool.not_true, Bool.and_false, Bool.false_eq_true, if_false, if_true]

omit [DecidableEq V] in
theorem clearBlockW_flags (hp : s.prefetched = true) :
    (s.clearBlockW l).hpt = s.hpt ∧ (s.clearBlockW l).ept = s.ept ∧
      (s.clearBlockW l).stale = s.stale ∧ (s.clearBlockW l).rState = s.rState ∧
      (s.clearBlockW l).prefetched = false ∧
      (s.clearBlockW l).map.dirty = (s.map.dirty && !s.eagerWbr) := by
  rw [clearBlockW_prefetched hp, waitForPrefetchedBlock, waitReads_eq]
  unfold checkEagerWbr
  split_ifs with he
  · exact ⟨rfl, rfl, rfl, rfl, rfl, by simp [he]; rfl⟩
  · exact ⟨rfl, rfl, rfl, rfl, rfl, by simp [he]; rfl⟩

/-- What a fault on an active block goes on with, once a prefetch in flight has been finished. -/
structure Resumed (l : HvaLuck V P) (f : HvaFault V) (s t : HvaBlock V P) : Prop where
  follows : Follows l f s t
  rState : t.rState = .active
  stale : t.stale = s.stale
  hpt : t.Recorded f → t.hpt = true
  plain : t.prefetched = false
  dirty : t.map.dirty = (s.map.dirty && !(s.prefetched && s.eagerWbr))
  recorded : t.Recorded f → s.Recorded f ∨ s.prefetched = true ∧ s.hpt = true
  mapped : s.Recorded f ∨ s.prefetched = true ∧ s.hpt = true → (∀ k, l.alloc k = true) →
    l.resumePmd ≠ none → t.Recorded f

theorem resumed_resumePrefetch (hs : s.Ready f) (hact : s.rState = .active)
    (hhpt : s.Recorded f → s.hpt = true) : Resumed l f s (s.resumePrefetch c l f) := by
  unfold resumePrefetch
  by_cases hp : s.prefetched = true
  · rw [if_pos ⟨hact, hp⟩]
    obtain ⟨h1, h2, h3, h4, h5, h6⟩ := clearBlockW_flags (l := l) hp
    have hdrain := drained_clearBlockW (l := l) s
    have hfollow := hdrain.follows hs
    dsimp only
    by_cases hh : s.hpt = true
    · rw [if_pos (h1.trans hh)]
      obtain ⟨t, ret, ht⟩ : ∃ t ret, (s.clearBlockW l).hptesMap c l f true true l.resumePmd =
        (t, ret) := ⟨_, _, rfl⟩
      have hspec := hptesMap_spec hfollow.ready (by unfold demandOnly prefetchedSb; simp)
        (fun _ hcsf => by
          unfold prefetched at h5
          simp [hcsf] at h5) (fun h => by cases h) ht
      rw [ht]
      have hback : Follows l f s t.clearPrefetched := (hfollow.trans hspec.follows).trans
        ((drained_clearPrefetched t).follows hspec.follows.ready)
      refine ⟨hback, ?_, ?_, ?_, rfl, ?_, fun _ => .inr ⟨hp, hh⟩, fun _ halloc hpmd => ?_⟩
      · exact congrArg HvaBlock.rState hspec.shape
      · exact (congrArg HvaBlock.stale hspec.shape).trans h3
      · exact fun _ => congrArg HvaBlock.hpt hspec.shape
      · rw [hp, Bool.true_and, ← h6, ← hspec.rights.dirty]
        rfl
      · exact hspec.recorded (hspec.returns.mpr hpmd) halloc
    · have hsame : ∀ t : HvaBlock V P, Drained l (s.clearBlockW l) t →
          t.rState = (s.clearBlockW l).rState → t.stale = (s.clearBlockW l).stale →
          t.prefetched = false → t.map.dirty = (s.clearBlockW l).map.dirty → Resumed l f s t := by
        intro t hd hr hst hpre hdirty
        have hrec : ¬ t.Recorded f := by
          rw [Recorded, hd.map.lp, hdrain.map.lp]
          exact fun hrec => hh (hhpt hrec)
        refine ⟨(hdrain.trans hd).follows hs, (hr.trans h4).trans hact, hst.trans h3,
          fun h => absurd h hrec, hpre, ?_, fun h => absurd h hrec, ?_⟩
        · rw [hp, Bool.true_and, ← h6]
          exact hdirty
        · rintro (h | h)
          · exact absurd (hhpt h) hh
          · exact absurd h.2 hh
      rw [if_neg fun h => hh (h1.symm.trans h)]
      split_ifs
      · refine hsame _ ((drained_waitReads _ _ _).trans ((drained_setOffset 0 _).trans
          (drained_clearPrefetched _))) ?_ ?_ rfl ?_
        all_goals rw [waitReads_eq]; rfl
      · exact hsame _ (drained_clearPrefetched _) rfl rfl rfl rfl
  · rw [if_neg fun h => hp h.2]
    have hp' := Bool.eq_false_iff.mpr hp
    refine ⟨hs.follows, hact, rfl, hhpt, hp', ?_, .inl, ?_⟩
    · rw [hp', Bool.false_and, Bool.not_false, Bool.and_true]
    · rintro (h | h) _ _
      · exact h
      · exact absurd h.1 hp

/-! ### Blocks that are local -/

/-- The fault is over before the block is mapped, if no allocation fails. -/
def Early (f : HvaFault V) (s : HvaBlock V P) : Prop :=
  s.rState = .active ∧ s.stale = false ∧ (s.Recorded f ∨ s.prefetched = true ∧ s.hpt = true)

/-- No mapping record and no page table is lacking where a prefetch is finished. -/
def Plenty (l : HvaLuck V P) : Prop := (∀ k, l.alloc k = true) ∧ l.resumePmd ≠ none

/-- The condition `w` suffices for `a`; and it is needed, where no mapping record and no page table
is lacking. -/
def Decides (l : HvaLuck V P) (w a : Prop) : Prop := (w → a) ∧ (Plenty l → a → w)

omit [DecidableEq V] in
theorem decides_of_iff {w a : Prop} (h : a ↔ w) : Decides l w a := ⟨h.mpr, fun _ => h.mp⟩

/-- The pte of the address grants what the fault asks for; where there is none, there is no record
either. -/
def Grants (f : HvaFault V) (s : HvaBlock V P) : Prop :=
  match s.map.pte f.demand f.vmr f.page with
  | some q => f.write = true → q.write = true
  | none => ¬ s.Recorded f

/-- A new pte grants what the fault asks for. -/
def Permits (f : HvaFault V) (s : HvaBlock V P) : Prop :=
  f.write = true → (s.map.freshPte f.write f.demand f.vmr).write = true

theorem serves_mappedPte (h : s.Permits f) : Serves f (s.mappedPte f) ↔ s.Grants f := by
  unfold mappedPte HptBlock.mappedPte Grants Recorded
  cases hq : s.map.pte f.demand f.vmr f.page with
  | none =>
      split_ifs with hrec
      · refine iff_of_false ?_ fun hno => hno hrec
        rintro ⟨q, hq, -⟩
        cases hq
      · exact iff_of_true ⟨_, rfl, h⟩ hrec
  | some q =>
      rw [Option.some_or, ite_self]
      refine ⟨?_, fun hw => ⟨q, rfl, hw⟩⟩
      rintro ⟨r, hr, hw⟩
      rw [Option.some.inj hr]
      exact hw

/-- What a fault on a local block finds. -/
structure LocalWhen (l : HvaLuck V P) (f : HvaFault V) (s : HvaBlock V P) : Prop where
  pte : s.Grants f
  arrives : s.Arrives l f
  dirty : f.write = true → s.Early f → (s.map.dirty && !(s.prefetched && s.eagerWbr)) = true

omit [DecidableEq V] in
theorem demandOnly_none (c : HvaConf) (s : HvaBlock V P) : s.demandOnly c none false = false := by
  unfold demandOnly
  simp

omit [DecidableEq V] in
theorem plain_of_prefetched (h : s.prefetched = false) :
    s.map.prefetchedCsf = false ∧ s.map.prefetchedCpf = false := by
  unfold prefetched at h
  simp only [Bool.or_eq_false_iff] at h
  exact h.1

/-- The block is mapped after all. -/
theorem completed_mapLocal (hperm : s.Permits f) (hu : Follows l f s u)
    (hplain : u.map.prefetchedCsf = false ∧ u.map.prefetchedCpf = false)
    (hret : (u.mapFault c l f false).ret = HvaRet.noPage)
    (hlate : Plenty l → ¬ s.Early f) :
    Decides l (LocalWhen l f s) (Completed f (u.mapFault c l f false)) := by
  have hiff := completed_mapFault hu.ready (demandOnly_none c u) hplain hret
  rw [hu.pte, hu.arrives, serves_mappedPte hperm] at hiff
  refine ⟨fun hw => hiff.mpr ⟨hw.pte, hw.arrives⟩, fun hpl hc => ?_⟩
  obtain ⟨hpte, harr⟩ := hiff.mp hc
  exact ⟨hpte, harr, fun _ he => absurd he (hlate hpl)⟩

/-- The block is taken as mapped already. -/
theorem completed_handled (hperm : s.Permits f) (h : Resumed l f s t) (hact : s.rState = .active)
    (hst : t.stale = false) (hrec : t.Recorded f) :
    Completed f ⟨t, f.demand, .noPage⟩ ↔ LocalWhen l f s := by
  have hpte : t.map.pte f.demand f.vmr f.page = s.mappedPte f := by
    rw [← h.follows.pte, mappedPte_recorded hrec]
  have harr : t.arrived f.demand f.page = true ↔ s.Arrives l f := by
    rw [← h.follows.arrives, Arrives, h.follows.ready.quiet hrec]
    simp
  have hearly : s.Early f := ⟨hact, h.stale.symm.trans hst, h.recorded hrec⟩
  constructor
  · intro hc
    exact ⟨(serves_mappedPte hperm).mp (hpte ▸ hc.pte), harr.mp hc.arrived,
      fun hw _ => h.dirty ▸ hc.dirty hw⟩
  · intro hw
    refine ⟨hpte.symm ▸ (serves_mappedPte hperm).mpr hw.pte, fun hwr => ?_,
      harr.mpr hw.arrives⟩
    exact h.dirty.trans (hw.dirty hwr hearly)

/-- A fault on an active block. -/
theorem completed_serveActive (hperm : s.Permits f) (h : Resumed l f s t)
    (hact : s.rState = .active)
    (hret : (t.serveActive c l f).ret = HvaRet.noPage) :
    Decides l (LocalWhen l f s) (Completed f (t.serveActive c l f)) := by
  have hplain := plain_of_prefetched h.plain
  have hlate : ¬ t.Recorded f → Plenty l → ¬ s.Early f := fun hrec hpl he =>
    hrec (h.mapped he.2.2 hpl.1 hpl.2)
  have hserve : t.serveActive c l f =
      if (t.handleActiveFault f).2 then ⟨(t.handleActiveFault f).1, f.demand, .noPage⟩
      else (t.handleActiveFault f).1.mapFault c l f false := by
    unfold serveActive
    rcases t.handleActiveFault f with ⟨u, b⟩
    cases b <;> rfl
  rw [hserve] at hret ⊢
  unfold handleActiveFault at hret ⊢
  by_cases hst : t.stale = true
  · simp only [if_pos hst, Bool.false_eq_true, if_false] at hret ⊢
    have hflags : Drained l t { t with stale := false } :=
      .of_flags ⟨⟨rfl, rfl, rfl, rfl⟩, rfl, rfl, fun _ _ _ => rfl⟩ rfl rfl
    refine completed_mapLocal hperm (h.follows.trans (hflags.follows h.follows.ready)) hplain hret
      fun _ he => ?_
    exact absurd ((h.stale.symm.trans hst).symm.trans he.2.1).symm Bool.false_ne_true
  · simp only [if_neg hst] at hret ⊢
    by_cases hept : (t.ept && !t.hpt) = true
    · simp only [if_pos hept, Bool.false_eq_true, if_false] at hret ⊢
      refine completed_mapLocal hperm h.follows hplain hret (hlate fun hrec => ?_)
      simp [h.hpt hrec] at hept
    · simp only [if_neg hept] at hret ⊢
      by_cases hrec : (t.map.lp f.demand).empLpLookupVmr f.vmr = true
      · rw [if_pos hrec]
        exact decides_of_iff (completed_handled hperm h hact (Bool.eq_false_iff.mpr hst) hrec)
      · rw [if_neg hrec] at hret ⊢
        exact completed_mapLocal hperm h.follows hplain hret (hlate hrec)

/-! ### Unmapped blocks -/

/-- No subblock has a record. -/
def Unmapped (s : HvaBlock V P) : Prop := ∀ i < s.map.descSize, (s.map.lp i).next = none

theorem lookup_of_next {lp : MapperList V P} {v : V} (h : lp.next = none) :
    lp.empLpLookupVmr v = false := by
  rw [MapperList.empLpLookupVmr, MapperList.records_none h]
  rfl

/-- The owner of an unmapped block changes, and nothing that the fault looks at. -/
theorem follows_takeOwner (hs : s.Ready f) (hun : s.Unmapped) :
    Follows l f s (s.takeOwner f) := by
  unfold takeOwner
  dsimp only
  split_ifs
  · exact hs.follows
  · have hbefore := lookup_of_next (v := f.vmr) (hun f.demand hs.demand)
    have hafter : (((s.map.lp f.demand).empLpSetOwner f.vmr)).empLpLookupVmr f.vmr = false :=
      lookup_of_next (hun f.demand hs.demand)
    refine ⟨⟨fun i hi => ?_, hs.demand, hs.view, fun hrec => ?_⟩, ?_, Iff.rfl⟩
    · have hlegal := hs.legal i hi
      exact (MapperList.owner_spec hlegal ((MapperList.unmapped_iff hlegal).mp
        (MapperList.unmapped_of_next (hun i hi))) (some f.vmr)).1
    · rw [Recorded, hafter] at hrec
      cases hrec
    · rw [mappedPte, mappedPte, HptBlock.mappedPte, HptBlock.mappedPte, hbefore, hafter]
      rfl

omit [DecidableEq V] in
theorem plain_clearBlockW (s : HvaBlock V P) : (s.clearBlockW l).map.prefetchedCsf = false ∧
    (s.clearBlockW l).map.prefetchedCpf = false := by
  by_cases hp : s.prefetched = true
  · exact plain_of_prefetched (clearBlockW_flags hp).2.2.2.2.1
  · have hplain := plain_of_prefetched (Bool.eq_false_iff.mpr hp)
    have hchecked : s.checkEagerWbr.prefetched = s.prefetched := by
      unfold checkEagerWbr
      split_ifs <;> rfl
    unfold clearBlockW
    dsimp only
    rw [hchecked, if_neg hp]
    unfold checkEagerWbr
    split_ifs <;> exact hplain

/-- A block that is not active has to be mapped. -/
theorem completed_unmapped (hperm : s.Permits f) (hu : Follows l f s u) (hst : s.rState ≠ .active)
    (hplain : u.map.prefetchedCsf = false ∧ u.map.prefetchedCpf = false)
    (hret : (u.mapFault c l f false).ret = HvaRet.noPage) :
    Decides l (LocalWhen l f s) (Completed f (u.mapFault c l f false)) :=
  completed_mapLocal hperm hu hplain hret fun _ he => hst he.1

theorem follows_inactive (hs : s.Ready f) (hun : s.Unmapped) :
    Follows l f s (s.handleInactiveFault l f) := by
  have hown : Follows l f s (s.takeOwner f) := follows_takeOwner hs hun
  have hdrain : Drained l ((s.takeOwner f).clearBlockW l) (s.handleInactiveFault l f) :=
    .of_flags ⟨⟨rfl, rfl, rfl, rfl⟩, rfl, rfl, fun _ _ _ => rfl⟩ rfl rfl
  exact hown.trans (((drained_clearBlockW _).trans hdrain).follows hown.ready)

theorem follows_writeback (hs : s.Ready f) (hun : s.Unmapped)
    (hpending : ∀ i, s.pending i = false) : Follows l f s (s.handleWritebackFault f) := by
  have hown : Follows l f s (s.takeOwner f) := follows_takeOwner hs hun
  have hsame : (s.takeOwner f).pending = s.pending := by
    unfold takeOwner
    dsimp only
    split_ifs <;> rfl
  have hdrain : Drained l (s.takeOwner f) (s.handleWritebackFault f) :=
    .of_flags ⟨⟨rfl, rfl, rfl, rfl⟩, rfl, rfl, fun _ _ _ => rfl⟩
      ((funext fun i => (hpending i).symm).trans hsame.symm) rfl
  exact hown.trans (hdrain.follows hown.ready)

/-! ### Blocks that are fetched -/

/-- What a fault on a block that is fetched finds. -/
def RemoteWhen (c : HvaConf) (l : HvaLuck V P) (f : HvaFault V) (s : HvaBlock V P) : Prop :=
  match l.fetched, l.buddy with
  | some true, none => s.Comes c l f
  | some true, some (below, b) => l.readOk (inStretched f below b).demand = true
  | _, _ => True

omit [DecidableEq V] in
theorem beside_own {α : Type*} {below : Bool} {n m d : ℕ} {own other : ℕ → α} (hd : d < n) :
    beside below n m own other (if below then d + m else d) = own d := by
  unfold beside
  cases below with
  | false => simp [hd]
  | true => simp

omit [DecidableEq V] in
theorem legal_stretch {below : Bool} {b : HvaBlock V P} (hs : s.map.Legal) (hb : b.map.Legal) :
    (s.stretch below b).map.Legal := by
  intro i hi
  have hi' : i < s.map.descSize + b.map.descSize := hi
  show (beside below s.map.descSize b.map.descSize s.map.lp b.map.lp i).Legal
  unfold beside
  split_ifs with hbelow hlt hlt
  · exact hb i hlt
  · exact hs _ (by omega)
  · exact hs i hlt
  · exact hb _ (by omega)

/-- The end of a fault on a subblock that was just fetched, wherever it lies now. -/
theorem completed_mapNew {d : ℕ} {fetch : Bool} (hlegal : t.map.Legal)
    (hdemand : d < t.map.descSize) (hpage : f.page < t.map.subblockSize)
    (hview : HptBlock.inRun (t.map.pageOff f.vmr) (t.map.pageLen f.vmr) f.page = true)
    (hnext : (t.map.lp d).next = none) (hpte : t.map.pte d f.vmr f.page = none)
    (hplain : t.map.prefetchedCsf = false ∧ t.map.prefetchedCpf = false)
    (hpending : t.pending d = fetch) (harrived : t.arrived d f.page = !fetch)
    (hrights : f.write = true → (t.map.freshPte f.write d f.vmr).write = true)
    (hret : (t.mapFault c l { f with demand := d } fetch).ret = HvaRet.noPage) :
    Completed f (t.mapFault c l { f with demand := d } fetch) ↔
      (fetch = true → t.Comes c l { f with demand := d }) := by
  have hrec : ¬ t.Recorded { f with demand := d } := fun h => by
    rw [Recorded, lookup_of_next hnext] at h
    cases h
  have hready : t.Ready { f with demand := d } :=
    ⟨hlegal, hdemand, hview, fun h => absurd h hrec⟩
  have hserves : Serves { f with demand := d } (some (t.map.freshPte f.write d f.vmr)) :=
    ⟨_, rfl, hrights⟩
  have hiff := completed_mapFetched hready hpage hrec hpte hplain hpending harrived hret
  have hsame : ∀ r : HvaResult V P, Completed f r ↔ Completed { f with demand := d } r :=
    fun _ => ⟨fun h => ⟨h.pte, h.dirty, h.arrived⟩, fun h => ⟨h.pte, h.dirty, h.arrived⟩⟩
  rw [hsame, hiff]
  exact and_iff_right hserves

/-- A fault on a block that is fetched. -/
theorem completed_serveRemote (hdemand : f.demand < s.map.descSize)
    (hpage : f.page < s.map.subblockSize)
    (hview : HptBlock.inRun (s.map.pageOff f.vmr) (s.map.pageLen f.vmr) f.page = true)
    (hplain : s.prefetched = false)
    (hperm : s.Permits f)
    (hbuddy : ∀ below b, l.buddy = some (below, b) → b.map.Legal)
    (hret : (s.serveRemote c l f).ret = HvaRet.noPage) :
    Completed f (s.serveRemote c l f) ↔ RemoteWhen c l f s := by
  have hinit : ∀ fetch, (s.handleRemoteFault f fetch).map.Legal := fun _ _ _ =>
    MapperList.legal_init _
  have hflags := plain_of_prefetched hplain
  unfold serveRemote at hret ⊢
  unfold RemoteWhen
  cases hf : l.fetched with
  | none =>
      rw [hf] at hret
      cases hret
  | some fetch =>
      rw [hf] at hret
      have halone : ((s.handleRemoteFault f fetch).mapFault c l f fetch).ret = .noPage →
          (Completed f ((s.handleRemoteFault f fetch).mapFault c l f fetch) ↔
            (fetch = true → (s.handleRemoteFault f fetch).Comes c l f)) := fun hret =>
        completed_mapNew (hinit fetch) hdemand hpage hview rfl rfl hflags rfl rfl hperm hret
      cases fetch with
      | false =>
          refine (halone hret).trans ?_
          simp
      | true =>
          cases hb : l.buddy with
          | none =>
              rw [hb] at hret
              refine (halone hret).trans ?_
              simp [Comes, handleRemoteFault]
          | some pair =>
              obtain ⟨below, b⟩ := pair
              rw [hb] at hret
              have hlegal : ((s.handleRemoteFault f true).stretch below b).map.Legal :=
                legal_stretch (hinit true) (hbuddy below b hb)
              have hpos : (inStretched f below b).demand <
                  ((s.handleRemoteFault f true).stretch below b).map.descSize := by
                show (if below then f.demand + b.map.descSize else f.demand) <
                  s.map.descSize + b.map.descSize
                split_ifs <;> omega
              refine (completed_mapNew (t := (s.handleRemoteFault f true).stretch below b) hlegal
                hpos hpage hview ?_ ?_ hflags ?_ ?_ ?_ hret).trans ?_
              · exact congrArg MapperList.next (beside_own hdemand)
              · have hptes : ((s.handleRemoteFault f true).stretch below b).map.pte
                    (inStretched f below b).demand = fun _ _ => none := beside_own hdemand
                exact congrFun (congrFun hptes f.vmr) f.page
              · exact beside_own hdemand
              · have hhere : ((s.handleRemoteFault f true).stretch below b).arrived
                    (inStretched f below b).demand = fun _ => false := beside_own hdemand
                exact congrFun hhere f.page
              · intro hw
                have hcow : ((s.handleRemoteFault f true).stretch below b).map.cow
                    (inStretched f below b).demand = s.map.cow f.demand := beside_own hdemand
                rw [← hperm hw, inStretched, HptBlock.freshPte, HptBlock.freshPte]
                exact congrArg (fun x => (_ && !x)) hcow
              · unfold Comes
                rw [if_neg fun h => Bool.false_ne_true h.2.2.symm]
                simp [inStretched]

end HvaBlock

end Emp
