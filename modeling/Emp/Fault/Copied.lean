import Emp.Fault.Completed

/-!
# A fault that copies

Before a shared block is copied, a prefetch of it is finished: the block is mapped for the subblock
that came first, and its reads are waited for.  The copy belongs to the faulting process alone, is
mapped writable and has no request, so that the fault goes on as one on a mapped block.

## Main definitions

* `HvaBlock.Fit` — what a fault can count on.
* `HvaBlock.Cleared` — a block that is ready to be copied.
* `HvaBlock.FaultWhen` — what a fault must find.
-/

namespace Emp

namespace HvaBlock

variable {V P : Type*} [DecidableEq V] {c : HvaConf} {l : HvaLuck V P} {f : HvaFault V}
  {s t u : HvaBlock V P}

/-- What holds of every block and fault: the fault is on a page that its process sees and may write
if it does, a fork marks whole blocks of private vmrs, what has a record is mapped in the host and
has no request, and what is not active has no record. -/
structure Fit (l : HvaLuck V P) (f : HvaFault V) (s : HvaBlock V P) : Prop where
  legal : s.map.Legal
  demand : f.demand < s.map.descSize
  page : f.page < s.map.subblockSize
  view : HptBlock.inRun (s.map.pageOff f.vmr) (s.map.pageLen f.vmr) f.page = true
  vmWrite : f.write = true → s.map.vmWrite f.vmr = true
  cow : ∀ i, s.map.cow i = s.map.cow 0
  privateVma : s.map.cow 0 = true → f.privateVma = true
  recorded : s.Recorded f → s.hpt = true ∧ s.pending f.demand = false
  first : s.map.prefetchedCsf = true → s.pending s.demandSb = false
  prefetched : s.prefetched = true → s.rState = .active ∨ s.rState = .inactive
  writeback : s.rState = .wb → ∀ i, s.pending i = false
  unmapped : s.rState ≠ .active → s.Unmapped
  buddy : ∀ below b, l.buddy = some (below, b) → b.map.Legal

theorem Fit.ready (h : s.Fit l f) : s.Ready f :=
  ⟨h.legal, h.demand, h.view, fun hrec => (h.recorded hrec).2⟩

/-! ### The block to be copied -/

/-- What `__clear_gpa_for_cow` leaves. -/
structure Cleared (l : HvaLuck V P) (f : HvaFault V) (s t : HvaBlock V P) : Prop where
  legal : t.map.Legal
  demand : f.demand < t.map.descSize
  view : HptBlock.inRun (t.map.pageOff f.vmr) (t.map.pageLen f.vmr) f.page = true
  vmWrite : t.map.vmWrite = s.map.vmWrite
  dirty : t.map.dirty = s.map.dirty
  stale : t.stale = s.stale
  hpt : t.Recorded f → t.hpt = true
  plain : t.prefetched = false
  local_iff : t.rState = .init ↔ s.rState = .init
  arrived : t.arrived f.demand f.page = true ↔ s.arrived f.demand f.page = true ∨
    s.pending f.demand = true ∧ s.prefetched = true ∧ s.hpt = true ∧ l.readOk f.demand = true

omit [DecidableEq V] in
theorem demandOnly_hit (c : HvaConf) (s : HvaBlock V P) :
    s.demandOnly c (s.prefetchedSb true) true = false := by
  unfold demandOnly prefetchedSb
  simp

/-- Where a prefetch is finished, the block is mapped as a whole, for whatever subblock. -/
theorem hptesMap_hit (demand page : ℕ) (pmd : Option P) (s : HvaBlock V P) :
    s.hptesMap c l { f with demand := demand, page := page, write := false } true true pmd =
      s.hptesMap c l { f with write := false } true true pmd := by
  unfold hptesMap
  rw [fetchBarrier_whole (demandOnly_hit c s), fetchBarrier_whole (demandOnly_hit c s)]
  cases pmd with
  | none => rfl
  | some p =>
      dsimp only
      rw [installHptes_whole (.inl rfl), installHptes_whole (.inl rfl)]
      rfl

theorem cleared_clearGpaForCow (hs : s.Fit l f) : Cleared l f s (s.clearGpaForCow c l f) := by
  unfold clearGpaForCow
  by_cases hp : s.prefetched = true
  · rw [if_pos hp]
    dsimp only
    by_cases hh : s.hpt = true
    · rw [if_pos hh, hptesMap_hit]
      obtain ⟨t, ret, ht⟩ : ∃ t ret,
          s.hptesMap c l { f with write := false } true true l.resumePmd = (t, ret) := ⟨_, _, rfl⟩
      have hready : s.Ready { f with write := false } :=
        ⟨hs.legal, hs.demand, hs.view, fun hrec => (hs.recorded hrec).2⟩
      have hspec := hptesMap_spec hready (demandOnly_hit c s)
        (fun _ hcsf _ hsame => hsame ▸ hs.first hcsf) nofun ht
      rw [ht]
      refine ⟨hspec.follows.ready.legal, hspec.follows.ready.demand, hspec.follows.ready.view,
        hspec.rights.vmWrite, hspec.rights.dirty, ?_, fun _ => ?_, rfl, ?_, ?_⟩
      · have hstale : t.stale = s.stale := by rw [hspec.shape]
        exact hstale
      · have hhpt : t.hpt = true := by rw [hspec.shape]
        exact hhpt
      · have hact : t.rState = .active := by rw [hspec.shape]
        refine iff_of_false (fun h => nomatch hact.symm.trans h) fun h => ?_
        rcases hs.prefetched hp with h' | h' <;> exact nomatch h'.symm.trans h
      · refine hspec.arrived.trans ?_
        simp [Arrives, hp, hh]
    · rw [if_neg hh]
      refine ⟨hs.legal, hs.demand, hs.view, rfl, rfl, rfl, fun h => (hs.recorded h).1, rfl, Iff.rfl,
        ?_⟩
      simp [clearPrefetched, hh]
  · rw [if_neg hp]
    refine ⟨hs.legal, hs.demand, hs.view, rfl, rfl, rfl, fun h => (hs.recorded h).1,
      Bool.eq_false_iff.mpr hp, Iff.rfl, ?_⟩
    simp [hp]

/-! ### The copy -/

/-- A block that is mapped and not prefetched takes the short route. -/
theorem serve_mapped (hact : s.rState = .active) (hplain : s.prefetched = false)
    (hst : s.stale = false) (hhpt : s.hpt = true) (hrec : s.Recorded f) :
    (s.resumePrefetch c l f).serve c l f = ⟨s, f.demand, .noPage⟩ := by
  unfold resumePrefetch
  rw [if_neg fun h => Bool.false_ne_true (hplain.symm.trans h.2)]
  unfold serve serveActive handleActiveFault
  simp only [hact, hst, hhpt, Bool.false_eq_true, if_false, Bool.not_true, Bool.and_false]
  rw [hrec]

/-- The record that a copy has of the faulting process. -/
theorem recorded_inserted (v : V) (p : P) :
    ((MapperList.init (some v)).empLpInsertPmd v p true).2.empLpLookupVmr v = true := by
  simp [MapperList.init, MapperList.empLpInsertPmd, MapperList.empLpLookupVmr,
    MapperList.records, MapperList.records, MappedPmd.isOf]

/-- What a fault does with a copy whose contents are new. -/
theorem completed_copyLocal {p : P} (h : Cleared l f s t) (hwrite : f.write = true)
    (hvm : s.map.vmWrite f.vmr = true)
    (hret : (((t.copyLocal f p).resumePrefetch c l f).serve c l f).ret = HvaRet.noPage) :
    Completed f (((t.copyLocal f p).resumePrefetch c l f).serve c l f) ↔
      (s.stale = true ∨ s.map.dirty = true) ∧ t.arrived f.demand f.page = true := by
  have hrec : (t.copyLocal f p).Recorded f := recorded_inserted f.vmr p
  have hpte : (t.copyLocal f p).map.pte f.demand f.vmr f.page =
      some ⟨t.map.protWrite f.vmr || t.map.vmWrite f.vmr, true⟩ := by
    show (if _ then _ else _) = _
    rw [if_pos ⟨rfl, h.view⟩]
  have hserves : Serves f ((t.copyLocal f p).map.pte f.demand f.vmr f.page) := by
    rw [hpte, h.vmWrite, hvm, Bool.or_true]
    exact ⟨_, rfl, fun _ => rfl⟩
  have hplain : (t.copyLocal f p).prefetched = false := h.plain
  rw [← h.stale, ← h.dirty]
  cases hst : t.stale with
  | false =>
      rw [serve_mapped rfl hplain hst rfl hrec]
      refine ⟨fun hc => ⟨.inr (hc.dirty hwrite), hc.arrived⟩,
        fun hc => ⟨hserves, fun _ => ?_, hc.2⟩⟩
      rcases hc.1 with hno | hd
      · cases hno
      · exact hd
  | true =>
      have hroute : ((t.copyLocal f p).resumePrefetch c l f).serve c l f =
          HvaBlock.mapFault c l f false { t.copyLocal f p with stale := false } := by
        unfold resumePrefetch
        rw [if_neg fun h => Bool.false_ne_true (hplain.symm.trans h.2)]
        have hst' : (t.copyLocal f p).stale = true := hst
        unfold serve serveActive handleActiveFault
        simp only [copyLocal, ownCopy, hst, if_true]
      rw [hroute] at hret ⊢
      have hrec' : HvaBlock.Recorded f { t.copyLocal f p with stale := false } := hrec
      have hready : HvaBlock.Ready f { t.copyLocal f p with stale := false } :=
        ⟨fun i _ => (MapperList.insert_spec (MapperList.legal_init _) f.vmr p true).1, h.demand,
          h.view, fun _ => rfl⟩
      rw [completed_mapFault hready (demandOnly_none c _) (plain_of_prefetched hplain) hret,
        mappedPte_recorded hrec']
      refine and_congr (iff_of_true hserves (Or.inl rfl)) ?_
      simp [Arrives, copyLocal, ownCopy]

/-- A list with one record, that of the owner. -/
theorem sole_record {lp : MapperList V P} {v : V} (h : lp.Legal) (hone : lp.empLpCountPmd = 1)
    (howner : lp.empLpOwner = some v) : lp.empLpLookupVmr v = true ∧
      ∃ p, (lp.empLpPopPmd v).1 = some p := by
  have hof : lp.pmds.isOf v = true := decide_eq_true howner
  cases hn : lp.next with
  | none =>
      have hcount := h.count
      rw [MapperList.records_none hn] at hcount
      exact nomatch hone.symm.trans hcount
  | some r =>
      have hrec := MapperList.records_some hn
      obtain ⟨p, hp⟩ := Option.ne_none_iff_exists'.mp
        (h.distinct.named lp.pmds (hrec ▸ List.mem_cons_self)).2
      refine ⟨?_, p, ?_⟩
      · rw [MapperList.empLpLookupVmr, hrec, List.any_cons, hof, Bool.true_or]
      · unfold MapperList.empLpPopPmd
        rw [hn]
        dsimp only
        rw [if_pos hof]
        cases r <;> exact hp

/-- A block whose pages are handed over was clean, and the short route leaves it so. -/
theorem not_completed_handOver (h : Cleared l f s t) (hwrite : f.write = true)
    (hclean : (t.partialMap || t.map.dirty || t.stale) = false) (honly : t.mappedByOnly f = true) :
    ¬ Completed f (((t.handOver f).resumePrefetch c l f).serve c l f) := by
  simp only [Bool.or_eq_false_iff] at hclean
  unfold mappedByOnly at honly
  simp only [List.all_eq_true, List.mem_range, Bool.and_eq_true, beq_iff_eq] at honly
  obtain ⟨hone, howner⟩ := honly f.demand h.demand
  obtain ⟨hrec, p, hp⟩ := sole_record (h.legal f.demand h.demand) hone howner
  have hmoved : (t.handOver f).Recorded f := by
    show (movedRecord f (t.map.lp f.demand)).empLpLookupVmr f.vmr = true
    unfold movedRecord
    rw [hp]
    exact recorded_inserted f.vmr p
  have hplain : (t.handOver f).prefetched = false := h.plain
  rw [serve_mapped rfl hplain hclean.2 (h.hpt hrec) hmoved]
  intro hc
  exact nomatch (hc.dirty hwrite).symm.trans hclean.1.2

/-! ### The fault -/

/-- The fault copies the block. -/
def Copies (f : HvaFault V) (s : HvaBlock V P) : Prop :=
  f.write = true ∧ f.privateVma = true ∧ s.map.cow 0 = true ∧ s.shared = true

/-- What a fault that copies a local block finds. -/
def CopiedWhen (l : HvaLuck V P) (f : HvaFault V) (s : HvaBlock V P) : Prop :=
  (s.stale = true ∨ s.map.dirty = true) ∧ (s.arrived f.demand f.page = true ∨
    s.pending f.demand = true ∧ s.prefetched = true ∧ s.hpt = true ∧ l.readOk f.demand = true)

/-- What a fault must find. -/
def FaultWhen (c : HvaConf) (l : HvaLuck V P) (f : HvaFault V) (s : HvaBlock V P) : Prop :=
  (s.rState = .init → RemoteWhen c l f s) ∧
    (s.rState ≠ .init → s.Copies f → CopiedWhen l f s) ∧
      (s.rState ≠ .init → ¬ s.Copies f → LocalWhen l f s)

/-- The copy of a local block. -/
theorem completed_dupLocal (hs : s.Fit l f) (hwrite : f.write = true) (hst : s.rState ≠ .init)
    (hdup : s.dupCow c l f = some u)
    (hret : ((u.resumePrefetch c l f).serve c l f).ret = HvaRet.noPage) :
    Completed f ((u.resumePrefetch c l f).serve c l f) ↔ CopiedWhen l f s := by
  have hclear := cleared_clearGpaForCow (c := c) hs
  have hlocal : (s.clearGpaForCow c l f).rState ≠ .init := fun h => hst (hclear.local_iff.mp h)
  unfold dupCow at hdup
  dsimp only at hdup
  rw [if_neg hlocal] at hdup
  split_ifs at hdup with hcopied hhand
  · obtain rfl := Option.some.inj hdup
    simp only [Bool.and_eq_true, Bool.not_eq_true'] at hhand
    refine iff_of_false (not_completed_handOver hclear hwrite hhand.1.1.1 hhand.1.2) fun h => ?_
    have hclean := hhand.1.1.1
    simp only [Bool.or_eq_false_iff, hclear.dirty, hclear.stale] at hclean
    rcases h.1 with h | h
    · exact nomatch h.symm.trans hclean.2
    · exact nomatch h.symm.trans hclean.1.2
  · obtain ⟨p, -, rfl⟩ := Option.map_eq_some_iff.mp hdup
    rw [completed_copyLocal hclear hwrite (hs.vmWrite hwrite) hret, hclear.arrived]
    rfl

theorem Fit.plain (hs : s.Fit l f) (hact : s.rState ≠ .active) (hin : s.rState ≠ .inactive) :
    s.prefetched = false := by
  cases hp : s.prefetched with
  | false => rfl
  | true => rcases hs.prefetched hp with h | h <;> contradiction

theorem resumePrefetch_idle (h : s.rState ≠ .active ∨ s.prefetched = false) :
    s.resumePrefetch c l f = s := by
  unfold resumePrefetch
  refine if_neg fun h' => ?_
  rcases h with h | h
  · exact h h'.1
  · exact Bool.false_ne_true (h.symm.trans h'.2)

/-- A fault that copies nothing, on a block that is local. -/
theorem completed_serveLocal (hs : s.Fit l f) (hperm : s.Permits f) (hst : s.rState ≠ .init)
    (hret : ((s.resumePrefetch c l f).serve c l f).ret = HvaRet.noPage) :
    Decides l (LocalWhen l f s) (Completed f ((s.resumePrefetch c l f).serve c l f)) := by
  cases hr : s.rState with
  | init => exact absurd hr hst
  | active =>
      have hresumed := resumed_resumePrefetch (c := c) (l := l) hs.ready hr
        fun hrec => (hs.recorded hrec).1
      have hroute : (s.resumePrefetch c l f).serve c l f =
          (s.resumePrefetch c l f).serveActive c l f := by
        rw [serve, hresumed.rState]
      rw [hroute] at hret ⊢
      exact completed_serveActive hperm hresumed hr hret
  | inactive =>
      have hno : s.rState ≠ .active := fun h => nomatch hr.symm.trans h
      have hroute : (s.resumePrefetch c l f).serve c l f =
          (s.handleInactiveFault l f).mapFault c l f false := by
        rw [resumePrefetch_idle (.inl hno), serve, hr]
      rw [hroute] at hret ⊢
      exact completed_unmapped hperm (follows_inactive hs.ready (hs.unmapped hno)) hno
        (plain_clearBlockW _) hret
  | wb =>
      have hno : s.rState ≠ .active := fun h => nomatch hr.symm.trans h
      have hplain := hs.plain hno fun h => nomatch hr.symm.trans h
      rw [resumePrefetch_idle (.inl hno), serve, hr] at hret ⊢
      cases hev : l.evicted with
      | false =>
          rw [hev] at hret
          cases hret
      | true =>
          have hflags : (s.handleWritebackFault f).prefetched = s.prefetched := by
            unfold handleWritebackFault takeOwner
            dsimp only
            split_ifs <;> rfl
          simp only [hev, if_true] at hret ⊢
          exact completed_unmapped hperm
            (follows_writeback hs.ready (hs.unmapped hno) (hs.writeback hr)) hno
            (plain_of_prefetched (hflags.trans hplain)) hret

/-- A fault on a block that has to be fetched. -/
theorem completed_serveInit (hs : s.Fit l f) (hperm : s.Permits f) (hst : s.rState = .init)
    (hret : ((s.resumePrefetch c l f).serve c l f).ret = HvaRet.noPage) :
    Completed f ((s.resumePrefetch c l f).serve c l f) ↔ RemoteWhen c l f s := by
  have hno : s.rState ≠ .active := fun h => nomatch hst.symm.trans h
  have hroute : (s.resumePrefetch c l f).serve c l f = s.serveRemote c l f := by
    rw [resumePrefetch_idle (.inl hno), serve, hst]
  rw [hroute] at hret ⊢
  exact completed_serveRemote hs.demand hs.page hs.view
    (hs.plain hno fun h => nomatch hst.symm.trans h) hperm hs.buddy hret

/-- The block has been made the faulting process's own, by a copy of the word of its remote page or
because no other directory refers to it. -/
theorem fit_own (hs : s.Fit l f) (remote : ℕ → Bool) (shared : Bool) :
    HvaBlock.Fit l f { s with
      map := { s.map with cow := fun _ => false, remote := remote }, shared := shared } :=
  ⟨hs.legal, hs.demand, hs.page, hs.view, hs.vmWrite, fun _ => rfl, nofun, hs.recorded, hs.first,
    hs.prefetched, hs.writeback, hs.unmapped, hs.buddy⟩

theorem Fit.permits (hs : s.Fit l f) (h : f.write = true → s.map.cow f.demand = false) :
    s.Permits f := fun hw => by
  rw [HptBlock.freshPte, hs.vmWrite hw, hw, h hw]
  simp

/-- A fault that copies nothing, on a block that is the same but for its marks. -/
theorem completed_alone (hu : u.Fit l f) (hperm : u.Permits f) (hst : u.rState = s.rState)
    (hremote : RemoteWhen c l f u ↔ RemoteWhen c l f s)
    (hlocal : ¬ s.Copies f ∧ (LocalWhen l f u ↔ LocalWhen l f s) ∨ s.rState = .init)
    (hret : ((u.resumePrefetch c l f).serve c l f).ret = HvaRet.noPage) :
    Decides l (FaultWhen c l f s) (Completed f ((u.resumePrefetch c l f).serve c l f)) := by
  by_cases hinit : s.rState = .init
  · have hiff := (completed_serveInit hu hperm (hst.trans hinit) hret).trans hremote
    exact ⟨fun hw => hiff.mpr (hw.1 hinit), fun _ hc => ⟨fun _ => hiff.mp hc,
      fun h => absurd hinit h, fun h => absurd hinit h⟩⟩
  · obtain ⟨hno, hsame⟩ := hlocal.resolve_right hinit
    have hdec := completed_serveLocal hu hperm (fun h => hinit (hst.symm.trans h)) hret
    exact ⟨fun hw => hdec.1 (hsame.mpr (hw.2.2 hinit hno)), fun hpl hc => ⟨fun h => absurd h hinit,
      fun _ h => absurd h hno, fun _ _ => hsame.mp (hdec.2 hpl hc)⟩⟩

/-- An active block that the process maps, with the given pte. -/
def onePage (q : Option HptPte) : HvaBlock Unit Unit where
  map :=
    { descSize := 1, subblockSize := 1, pageOff := fun _ => 0, pageLen := fun _ => 1
      protWrite := fun _ => false, vmWrite := fun _ => true, cow := fun _ => false
      lp := fun _ => ⟨⟨some (), some ()⟩, some [], 1⟩, pte := fun _ _ _ => q
      pageDirty := fun _ => false, mapRefs := fun _ => 1, rss := fun _ => 1
      prefetchedCpf := false, prefetchedCsf := false, dirty := false, remote := fun _ => false
      demandOffset := 0, allocs := 0 }
  rState := .active
  hpt := true
  ept := false
  prefetchedBlk := false
  prefetchOnce := false
  stretched := false
  stale := false
  partialMap := false
  eagerWbr := false
  handle := false
  shared := false
  pending := fun _ => false
  arrived := fun _ _ => true

/-- A read of its page. -/
def readPage : HvaFault Unit := ⟨(), 0, 0, false, false⟩

def plainConf : HvaConf := ⟨false, false, false, false⟩

/-- Nothing fails. -/
def noFailure : HvaLuck Unit Unit where
  alloc := fun _ => true
  readOk := fun _ => true
  overwritten := true
  pageArrived := true
  transition := false
  resumePmd := some ()
  copyPmd := some ()
  pmd := some ()
  copied := true
  handedOver := true
  remoteValid := true
  fetched := some true
  evicted := true
  buddy := none

theorem fit_onePage (q : Option HptPte) : (onePage q).Fit noFailure readPage := by
  refine ⟨fun _ _ => ?_, Nat.one_pos, Nat.one_pos, rfl, nofun, fun _ => rfl, nofun,
    fun _ => ⟨rfl, rfl⟩, fun h => absurd h Bool.false_ne_true, fun h => absurd h Bool.false_ne_true,
    fun h => (nomatch h), fun h => absurd rfl h, fun _ _ h => (nomatch h)⟩
  exact MapperList.legal_of_next rfl (MapperList.distinct_cons ⟨List.nodup_nil, nofun⟩ nofun) rfl

end HvaBlock

end Emp
