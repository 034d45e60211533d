import Emp.Dma.Outcome

/-!
# Runs

Every step has one of eight effects, and each of them keeps the whole invariant.

## Main definitions

* `DmaSys.Effect` — what a step can do, `effect_of_step` — nothing else.
* `DmaSys.Inv` — shape, counts and states, `inv_of_reach` — in every run.
-/

namespace Emp

namespace DmaSys

variable {s s' : DmaSys} {w : ℕ} {e : Event}

/-- What a wait for `w` leaves: no mark changes but that a request is now ready, of a block
device, or a read that has arrived. -/
structure Waited (s : DmaSys) (d : Dma) : Prop where
  recorded : s.dma.Recorded d
  marks : ∀ v, (d.wr v).marks = (s.dma.wr v).marks ∨
    (d.wr v).marks = { (s.dma.wr v).marks with state := .ready } ∧
      ((s.dma.wr v).dmaOps = .nvme ∨ s.kind v = .read ∧ s.outcome v = some true)

theorem Waited.refl (s : DmaSys) : s.Waited s.dma := ⟨Dma.Recorded.refl _, fun _ => Or.inl rfl⟩

theorem waited_setReady (h : (s.dma.wr w).dmaOps = .nvme ∨ s.kind w = .read ∧ s.outcome w = some true) :
    s.Waited (s.dma.setState w .ready) := by
  refine ⟨Dma.Recorded.setState _ w .ready, ?_⟩
  intro v
  rw [Dma.wr_setState]
  by_cases hv : v = w
  · subst hv
    exact Or.inr ⟨by simp [WorkRequest.marks], h⟩
  · exact Or.inl (by simp [hv, WorkRequest.marks])

theorem waited_keepMarker (hst : s.States) (hw : w < s.next) (hk : s.kind w = .read)
    (hops : (s.dma.wr w).dmaOps = .rdma) (hready : isWrReadReady s.dma w = true) :
    s.Waited (keepMarker s.dma w) := by
  simp only [keepMarker]
  split
  · exact Waited.refl s
  · next hno =>
    apply waited_setReady
    refine Or.inr ⟨hk, ?_⟩
    have harr : (s.dma.wr w).arrived = some true := by
      simp only [isWrReadReady, hno, Bool.false_or, Bool.and_eq_true, decide_eq_true_eq] at hready
      exact hready.2
    exact (hst.read w hw hk hops).2.2 (by rw [harr]; rfl)

theorem waited_bdev {r : Dma × ℤ} (hops : (s.dma.wr w).dmaOps = .nvme)
    (h : empBdevWaitRw s.dma w = some r) : s.Waited r.1 := by
  simp only [empBdevWaitRw] at h
  split at h
  · split at h
    · cases h
      exact Waited.refl s
    · cases h
      exact waited_setReady (Or.inl hops)
  · cases h

theorem waited_opsWaitRead {r : Dma × ℤ} (hst : s.States) (hw : w < s.next)
    (hk : s.kind w = .read) (h : opsWaitRead s.dma w = some r) : s.Waited r.1 := by
  simp only [opsWaitRead] at h
  split at h
  · next hops =>
    obtain ⟨ret, hret, rfl⟩ := Option.map_eq_some_iff.mp h
    by_cases hz : ret = 0
    · have hready : isWrReadReady s.dma w = true := by
        by_contra hno
        simp only [rdmaWaitRead, hno, if_false] at hret
        split at hret
        · cases hret
          exact absurd hz (by decide)
        · cases hret
      simp only [hz, if_true]
      exact waited_keepMarker hst hw hk hops hready
    · simp only [hz, if_false]
      exact Waited.refl s
  · next hops => exact waited_bdev hops h
  · cases h
    exact Waited.refl s

theorem waited_opsWaitWrite {r : Dma × ℤ} (h : opsWaitWrite s.dma w = some r) : s.Waited r.1 := by
  simp only [opsWaitWrite] at h
  split at h
  · obtain ⟨ret, -, rfl⟩ := Option.map_eq_some_iff.mp h
    exact Waited.refl s
  · next hops => exact waited_bdev hops h
  · cases h
    exact Waited.refl s

/-- A poll that finds nothing new in the queues. -/
theorem waited_opsTryWaitRead (hst : s.States) (hw : w < s.next) (hk : s.kind w = .read) :
    s.Waited (opsTryWaitRead s.dma w ⟨[], []⟩).1 := by
  simp only [opsTryWaitRead]
  split
  · next hops =>
    simp only [rdmaTryWaitRead, empProcessCq, List.foldl_nil]
    by_cases hready : isWrReadReady s.dma w = true
    · simp only [hready, if_true]
      exact waited_keepMarker hst hw hk hops hready
    · simp only [hready, Bool.false_eq_true, if_false]
      split
      · exact Waited.refl s
      · exact Waited.refl s
  · next hops =>
    simp only [empBdevTryWaitRw, empWrBlkPoll, List.foldl_nil]
    by_cases hdone : (s.dma.wr w).waitDone = true
    · simp only [hdone, if_true]
      exact waited_setReady (Or.inl hops)
    · simp only [hdone, Bool.false_eq_true, if_false]
      exact Waited.refl s
  · exact Waited.refl s

/-! ## Effects -/

/-- Whether the poll of `w` answers that it has ended well or goes on. -/
def pollsWell (s : DmaSys) (w : ℕ) : Prop := 0 ≤ (opsTryWaitRead s.dma w ⟨[], []⟩).2

/-- The write that a step clears. -/
def clears : Event → Option ℕ
  | .clearWrite w _ => some w
  | _ => none

/-- Everything that a step can do. -/
inductive Effect (s : DmaSys) : Event → DmaSys → Prop
  | posted {e : Event} {s' : DmaSys} {kind : Kind} {place : Place} {h : ℕ} {chained : Bool}
      {errno : ℕ} : Joins s kind place h chained → PostedTo s kind place h chained errno s' →
      s'.outcome = Function.update s.outcome s.next (postOutcome place errno) →
      clears e = none → Effect s e s'
  | refused {s' : DmaSys} {place : Place} {head : Option ℕ} {full : Bool} {errno : ℕ} :
      SparedTo s head s' → s'.outcome = Function.update s.outcome s.next none →
      full = true → place.ops = .rdma → (s.dma.context place.context).chainedOps = false →
      Effect s (.postWrite place head full errno) s'
  | signal {e : Event} {s' : DmaSys} : SparedTo s none s' →
      s'.outcome = Function.update s.outcome s.next none → s'.dma.context = s.dma.context →
      clears e = none → Effect s e s'
  | ended {e : Event} {s' : DmaSys} {h : ℕ} : EndedTo s h s' → s'.outcome = s.outcome →
      clears e = none → Effect s e s'
  | told {e : Event} {s' : DmaSys} : s'.next = s.next → s'.kind = s.kind →
      s'.closed = s.closed → s'.refused = s.refused → s'.cleared = s.cleared →
      Frees [] s.dma s'.dma → (∀ v, (s'.dma.wr v).remotePages = (s.dma.wr v).remotePages) →
      (∀ c, (s'.dma.context c).wrLen = (s.dma.context c).wrLen) → s'.States →
      (∀ v b, s.outcome v = some b → s'.outcome v = some b) → clears e = none → Effect s e s'
  | freed {e : Event} {s' : DmaSys} {w : ℕ} : w < s.next → s.kind w = .other →
      (s.dma.wr w).live = true → s'.next = s.next → s'.kind = s.kind → s'.closed = s.closed →
      s'.refused = s.refused → s'.cleared = s.cleared → Frees [w] s.dma s'.dma →
      (∀ v, (s'.dma.wr v).remotePages = (s.dma.wr v).remotePages) →
      (∀ c, (s'.dma.context c).wrLen = (s.dma.context c).wrLen) →
      s'.outcome = s.outcome → (∀ v, (s'.dma.wr v).marks = (s.dma.wr v).marks) → clears e = none →
      Effect s e s'
  | clearedRead {e : Event} {s' : DmaSys} {w : ℕ} {n : ℤ} : s.canClear .read w = true →
      Clears w (s.dma.wr w).headWr n
        (freedWith w (s.dma.wr w).headWr (s.dma.wr (s.dma.wr w).headWr).wrRefc) s.dma s'.dma →
      (∀ v, (s'.dma.wr v).remotePages = (s.dma.wr v).remotePages) →
      ClearedTo s w s'.dma s' → s'.States → s'.outcome = s.outcome → (n = 1 ∨ e = .pollRead w ∧ ¬ s.pollsWell w) →
      clears e = none → Effect s e s'
  | clearedWrite {e : Event} {s' : DmaSys} {w : ℕ} : s.canClear .write w = true →
      Clears w (s.dma.wr w).headWr (s.dma.wr (s.dma.wr w).headWr).entangledWrLen
        (if (s.dma.wr (s.dma.wr w).headWr).wrRefc = 1 then queued s.dma w ++ [(s.dma.wr w).headWr]
          else []) s.dma s'.dma →
      Queues w s.dma s'.dma → ClearedTo s w s'.dma s' → s'.States → s'.outcome = s.outcome →
      clears e = some w → Effect s e s'

/-- The whole invariant. -/
structure Inv (s : DmaSys) : Prop where
  shape : s.Shape
  ledger : s.Ledger
  states : s.States

theorem inv_of_effect (hi : s.Inv) (he : Effect s e s') : s'.Inv := by
  obtain ⟨hs, hl, hst⟩ := hi
  cases he with
  | posted hj hp ho _ => exact ⟨hs.post hj hp, hl.post hs hj hp, hst.post hs hj hp ho⟩
  | refused hp ho => exact ⟨hs.spareStep hp, hl.spareStep hs hp, hst.spareStep hs hp ho⟩
  | signal hp ho => exact ⟨hs.spareStep hp, hl.spareStep hs hp, hst.spareStep hs hp ho⟩
  | ended hp ho _ => exact ⟨hs.endPosts hl hp, hl.endPosts hp, hst.endPosts hp ho⟩
  | told hn hk hc hr hcl hf hpg _ hst' _ _ =>
      exact ⟨hs.of_frees hn hk hc hr hcl hf hpg, hl.of_same hs hn hk hr hcl hf hpg, hst'⟩
  | freed hw hkw hlive hn hk hc hr hcl hf hpg _ ho hm _ =>
      refine ⟨hs.of_frees hn hk hc hr hcl hf hpg,
        hl.of_frees hs hn hk hr hcl hf hpg (by simp) ?_, hst.of_same hs hn hk hc ho hf.ties hm⟩
      intro v hv
      rw [List.mem_singleton.mp hv]
      exact ⟨hw, hkw, hlive⟩
  | clearedRead hg hc hpg ht hst' _ _ _ =>
      exact ⟨hs.clear hg hc.toPuts (fun v _ => hpg v) ht, hl.clearRead hs hg hc.toPuts hpg ht, hst'⟩
  | clearedWrite hg hc hq ht hst' _ _ =>
      refine ⟨hs.clear hg hc.toPuts ?_ ht, hl.clearWrite hs hg hc.toPuts hq ht, hst'⟩
      intro v hv
      refine hq.other v ?_
      have := (head_of_canClear hs hg (by decide)).1
      omega

/-! ## Clears -/

/-- After a wait for `w`, the marks are written as `Waited` says. -/
theorem States.waited {d : Dma} (hs : s.Shape) (hst : s.States) (hwait : s.Waited d)
    (ht : ClearedTo s w s'.dma s') (ho : s'.outcome = s.outcome)
    (hties : ∀ v, (s'.dma.wr v).ties = (s.dma.wr v).ties)
    (hmarks : ∀ v, (s'.dma.wr v).marks = (d.wr v).marks) : s'.States := by
  refine hst.of_ready hs ht.next ht.kind ht.closed ho hties ?_
  intro v
  rw [hmarks]
  exact hwait.marks v

/-- A read is released after the wait. -/
theorem effect_putFetch {release : Dma → ℕ → Dma} (hrel : ∀ d w, Frees [w] d (release d w))
    (hctx : ∀ d w, (release d w).context = d.context)
    (hpg : ∀ d w v, ((release d w).wr v).remotePages = (d.wr v).remotePages)
    (hmk : ∀ d w v, ((release d w).wr v).marks = (d.wr v).marks) (hi : s.Inv)
    (hg : s.canClear .read w = true) {d d' : Dma} {n : ℤ} (hwait : s.Waited d)
    (hleaves : Leaves w n s.dma d') (hmarks : ∀ v, (d'.wr v).marks = (d.wr v).marks)
    (hn : n = 1 ∨ e = .pollRead w ∧ ¬ s.pollsWell w) (hcl : clears e = none)
    (ht : ClearedTo s w s'.dma s') (ho : s'.outcome = s.outcome)
    (hd : s'.dma = putFetch release d' w ∨ s'.dma = setMappable (putFetch release d' w) w) :
    Effect s e s' := by
  obtain ⟨hs, hl, hst⟩ := hi
  obtain ⟨hw, hk, -⟩ := canClear_iff.mp hg
  obtain ⟨hlt, -, hkh⟩ := head_of_canClear hs hg (by decide)
  have hno : (s.dma.wr w).chainedOps = false := by
    by_contra hc
    have := (hs.chain w hw (by simpa using hc)).1
    rw [hk] at this
    cases this
  have hput := clears_putFetch hrel hctx hleaves hno (hs.read _ hlt hkh)
  have hclears : Clears w (s.dma.wr w).headWr n
      (freedWith w (s.dma.wr w).headWr (s.dma.wr (s.dma.wr w).headWr).wrRefc) s.dma s'.dma := by
    rcases hd with hd | hd
    · rw [hd]
      exact hput
    · rw [hd]
      exact clears_setMappable hput
  have hwr : s'.dma.wr = (putFetch release d' w).wr := by
    rcases hd with hd | hd
    · rw [hd]
    · rw [hd]
      rfl
  refine .clearedRead hg hclears ?_ ht ?_ ho hn hcl
  · intro v
    rw [hwr, remotePages_putFetch hpg, hleaves.pages]
  · refine hst.waited hs hwait ht ho hclears.ties ?_
    intro v
    rw [hwr, marks_putFetch hmk, hmarks]

/-- A fetched subblock is released and its remote page given up. -/
theorem effect_giveUp (hi : s.Inv) (hg : s.canClear .read w = true) {d d' : Dma} {n : ℤ}
    (hwait : s.Waited d) (hleaves : Leaves w n s.dma d')
    (hmarks : ∀ v, (d'.wr v).marks = (d.wr v).marks)
    (hn : n = 1 ∨ e = .pollRead w ∧ ¬ s.pollsWell w) (hcl : clears e = none)
    (ht : ClearedTo s w s'.dma s')
    (ho : s'.outcome = s.outcome) (hd : s'.dma = setMappable (putFetch giveUpFetch d' w) w) :
    Effect s e s' :=
  effect_putFetch Frees.giveUpFetch (fun _ _ => rfl)
    (fun _ w v => remotePages_freeWorkRequest _ w v) (fun _ w v => marks_freeWorkRequest _ w v)
    hi hg hwait hleaves hmarks hn hcl ht ho (Or.inr hd)

theorem effect_clearRead (hi : s.Inv) (hg : s.canClear .read w = true) (hcl : clears e = none)
    (h : (waitReadAsync s.dma w).map (s.setCleared w) = some s') : Effect s e s' := by
  obtain ⟨d, hd, rfl⟩ := Option.map_eq_some_iff.mp h
  simp only [waitReadAsync, clearFetchingWorkRequest, waitRead, Option.map_map,
    Option.map_eq_some_iff] at hd
  obtain ⟨r, hr, rfl⟩ := hd
  obtain ⟨hw, hk, -⟩ := canClear_iff.mp hg
  have hwait := waited_opsWaitRead hi.states hw hk hr
  exact effect_giveUp hi hg hwait (leaves_endWait hwait.recorded w 1)
    (fun v => marks_endWait r.1 w v 1) (Or.inl rfl) hcl clearedTo_setCleared rfl rfl

theorem effect_cancelRead (hi : s.Inv) (hg : s.canClear .read w = true) (hcl : clears e = none)
    (h : (cancelReadAsync s.dma w).map (s.setCleared w) = some s') : Effect s e s' := by
  obtain ⟨d, hd, rfl⟩ := Option.map_eq_some_iff.mp h
  simp only [cancelReadAsync, waitRead, Option.map_map, Option.map_eq_some_iff] at hd
  obtain ⟨r, hr, rfl⟩ := hd
  obtain ⟨hw, hk, -⟩ := canClear_iff.mp hg
  have hwait := waited_opsWaitRead hi.states hw hk hr
  exact effect_putFetch Frees.freeWorkRequest (fun _ _ => rfl) remotePages_freeWorkRequest
    marks_freeWorkRequest hi hg hwait (leaves_endWait hwait.recorded w 1)
    (fun v => marks_endWait r.1 w v 1) (Or.inl rfl) hcl clearedTo_setCleared rfl (Or.inl rfl)

theorem effect_pollRead (hi : s.Inv) (hg : s.canClear .read w = true) :
    Effect s (.pollRead w)
      (if (tryWaitReadAsync s.dma w ⟨[], []⟩).2 then
        s.setCleared w (tryWaitReadAsync s.dma w ⟨[], []⟩).1
      else { s with dma := (tryWaitReadAsync s.dma w ⟨[], []⟩).1 }) := by
  obtain ⟨hw, hk, -⟩ := canClear_iff.mp hg
  have hwait := waited_opsTryWaitRead hi.states hw hk
  have hbound : (opsTryWaitRead s.dma w ⟨[], []⟩).2 ≤ 1 := by
    simp only [opsTryWaitRead]
    split
    · simp only [rdmaTryWaitRead]
      split
      · simp
      · split
        · simp
        · split
          · simp
          · simp
    · simp only [empBdevTryWaitRw]
      split
      · simp only
        omega
      · simp
    · simp only [empMemdevWait]
      omega
  have hwell : s.pollsWell w ↔ 0 ≤ (opsTryWaitRead s.dma w ⟨[], []⟩).2 := Iff.rfl
  generalize hr : opsTryWaitRead s.dma w ⟨[], []⟩ = r at hwait hbound hwell
  by_cases hzero : r.2 = 0
  · have hpoll : tryWaitReadAsync s.dma w ⟨[], []⟩ = (r.1, false) := by
      simp [tryWaitReadAsync, tryClearFetchingWorkRequest, tryWaitRead, hr, hzero]
    simp only [hpoll, Bool.false_eq_true, if_false]
    refine .told rfl rfl rfl rfl rfl (Frees.of_recorded hwait.recorded)
      (remotePages_recorded hwait.recorded) ?_ ?_ (fun _ _ hb => hb) rfl
    · intro c
      obtain ⟨m, hm⟩ := hwait.recorded.context c
      rw [hm]
    · exact hi.states.of_ready hi.shape rfl rfl rfl rfl (Frees.of_recorded hwait.recorded).ties
        hwait.marks
  · by_cases hone : r.2 = 1
    · have hpoll : tryWaitReadAsync s.dma w ⟨[], []⟩ =
          (setMappable (putFetch giveUpFetch (endWait r.1 w 1) w) w, true) := by
        simp [tryWaitReadAsync, tryClearFetchingWorkRequest, tryWaitRead, putFetchingWorkRequest,
          hr, hone]
      simp only [hpoll, if_true]
      exact effect_giveUp hi hg hwait (leaves_endWait hwait.recorded w 1)
        (fun v => marks_endWait r.1 w v 1) (Or.inl rfl) rfl clearedTo_setCleared rfl rfl
    · -- neither `0` nor `1`: the request is released with its wait left standing
      have hpoll : tryWaitReadAsync s.dma w ⟨[], []⟩ =
          (setMappable (putFetch giveUpFetch r.1 w) w, true) := by
        simp [tryWaitReadAsync, tryClearFetchingWorkRequest, tryWaitRead, putFetchingWorkRequest,
          hr, hzero, hone]
      simp only [hpoll, if_true]
      refine effect_giveUp hi hg hwait (leaves_recorded hwait.recorded w) (fun _ => rfl)
        (Or.inr ⟨rfl, ?_⟩) rfl clearedTo_setCleared rfl rfl
      rw [hwell]
      omega

theorem effect_clearWrite {doReclaim : Bool} (hi : s.Inv) (hg : s.canClear .write w = true)
    (h : (clearWritebackWorkRequest s.dma w doReclaim).map (fun dma =>
      { s.setCleared w dma with
        reclaim := Function.update s.reclaim (s.dma.wr w).headWr (some doReclaim) }) = some s') :
    Effect s (.clearWrite w doReclaim) s' := by
  obtain ⟨d, hd, rfl⟩ := Option.map_eq_some_iff.mp h
  simp only [clearWritebackWorkRequest, waitWrite, Option.map_map, Option.map_eq_some_iff] at hd
  obtain ⟨r, hr, rfl⟩ := hd
  have hwait := waited_opsWaitWrite hr
  obtain ⟨hclears, hqueues⟩ := clears_putWriteback (w := w) hwait.recorded
    (s.dma.wr (s.dma.wr w).headWr).entangledWrLen doReclaim
  refine .clearedWrite hg hclears hqueues ⟨rfl, rfl, rfl, rfl, rfl, rfl⟩ ?_ rfl rfl
  refine hi.states.waited hi.shape hwait ⟨rfl, rfl, rfl, rfl, rfl, rfl⟩ rfl hclears.ties ?_
  intro v
  rw [Function.comp_apply]
  exact (marks_putWriteback _ w v doReclaim).trans (marks_endWait r.1 w v _)

/-! ## Steps -/

theorem effect_posts {place : Place} {head : Option ℕ} {full : Bool} {errno : ℕ}
    (hg : s.canPost .write place head = true) :
    Effect s (.postWrite place head full errno) (s.stepPostWrite place head full errno) := by
  rcases stepPostWrite_cases full errno hg with
    ⟨hp, ho⟩ | ⟨⟨hp, ho⟩, hfull, hops, hc⟩
  · exact .posted (canPost_joins hg (by decide)) hp ho rfl
  · exact .refused hp ho hfull hops hc

theorem effect_complete {ok : Bool} (hi : s.Inv) (hg : s.canComplete w ok = true) :
    Effect s (.complete w ok) (s.stepComplete w ok) := by
  have hrec : s.dma.Recorded (s.stepComplete w ok).dma := by
    simp only [stepComplete]
    split
    · exact recorded_handleRdmaWrite s.dma w ok
    · exact recorded_handleRdmaRead s.dma w ok
  refine .told rfl rfl rfl rfl rfl (Frees.of_recorded hrec) (remotePages_recorded hrec) ?_
    (hi.states.complete hi.shape hg) (fun v b hb => outcome_mono hi.shape hg hb) rfl
  intro c
  obtain ⟨m, hm⟩ := hrec.context c
  rw [hm]

/-- An outcome that was not known becomes known. -/
theorem update_mono {o : ℕ → Option Bool} {b : Bool} (hnone : o w = none) (v : ℕ) (c : Bool)
    (hc : o v = some c) : Function.update o w (some b) v = some c := by
  have hvw : v ≠ w := by
    rintro rfl
    rw [hnone] at hc
    cases hc
  rw [Function.update_of_ne hvw]
  exact hc

/-- A step does one of these things. -/
theorem effect_of_step (hi : s.Inv) (h : step s e = some s') : Effect s e s' := by
  cases e with
  | postRead place head errno =>
      simp only [step, Option.ite_none_right_eq_some, Option.some.injEq] at h
      obtain ⟨hg, rfl⟩ := h
      exact .posted (canPost_joins hg (by decide)) (postedTo_read _) rfl rfl
  | postWrite place head full errno =>
      simp only [step, Option.ite_none_right_eq_some, Option.some.injEq] at h
      obtain ⟨hg, rfl⟩ := h
      exact effect_posts hg
  | endPosts k unwind =>
      simp only [step, Option.ite_none_right_eq_some, Option.some.injEq, Bool.and_eq_true,
        decide_eq_true_eq, bne_iff_ne, beq_iff_eq, Bool.not_eq_true'] at h
      obtain ⟨⟨⟨⟨⟨hk, hkk⟩, hhd⟩, hop⟩, -⟩, rfl⟩ := h
      refine .ended (endedTo_stepEndPosts hi.shape hi.ledger hk hkk hhd hop ?_) rfl rfl
      intro hc
      exact (hi.states.untouched k hk hc (by rw [hhd, hop])).1
  | signal m gpa c =>
      simp only [step, Option.some.injEq] at h
      subst h
      exact .signal (sparedTo_signal hi.shape m gpa c) rfl rfl rfl
  | signalDone w n =>
      simp only [step, Option.ite_none_right_eq_some, Option.some.injEq, Bool.and_eq_true,
        decide_eq_true_eq, beq_iff_eq] at h
      obtain ⟨⟨⟨hw, hk⟩, hlive⟩, rfl⟩ := h
      obtain ⟨hf, hm, hpg⟩ := frees_signalDone s.dma w n
      refine .freed hw hk hlive rfl rfl rfl rfl rfl hf hpg ?_ rfl hm rfl
      intro c
      exact (wrLen_addPending s.dma (s.dma.wr w).context c (-n)).1
  | complete w ok =>
      simp only [step, Option.ite_none_right_eq_some, Option.some.injEq] at h
      obtain ⟨hg, rfl⟩ := h
      exact effect_complete hi hg
  | arrive w differs =>
      simp only [step, Option.ite_none_right_eq_some, Option.some.injEq, Bool.and_eq_true,
        decide_eq_true_eq, beq_iff_eq, Option.isNone_iff_eq_none] at h
      obtain ⟨⟨⟨⟨⟨hw, hk⟩, hops⟩, -⟩, hnone⟩, rfl⟩ := h
      refine .told rfl rfl rfl rfl rfl ⟨?_, ?_, ?_, fun _ => by simp⟩ ?_ (fun _ => rfl)
        (hi.states.arrive hi.shape hw hk hops hnone) (update_mono hnone) rfl
      · intro v
        by_cases hv : v = w <;> simp [hv, WorkRequest.ties]
      · intro v
        by_cases hv : v = w <;> simp [hv]
      · intro v
        by_cases hv : v = w <;> simp [hv]
      · intro v
        by_cases hv : v = w <;> simp [hv]
  | endIo w errno =>
      simp only [step, Option.ite_none_right_eq_some, Option.some.injEq, Bool.and_eq_true,
        decide_eq_true_eq, beq_iff_eq, bne_iff_ne, Option.isNone_iff_eq_none] at h
      obtain ⟨⟨⟨⟨hw, -⟩, hops⟩, hnone⟩, rfl⟩ := h
      have hrec := recorded_bdevEndIo s.dma w errno
      exact .told rfl rfl rfl rfl rfl (Frees.of_recorded hrec) (remotePages_recorded hrec)
        (fun _ => rfl) (hi.states.endIo hi.shape hw hops hnone) (update_mono hnone) rfl
  | clearRead w =>
      simp only [step, Option.ite_none_right_eq_some, Bool.and_eq_true] at h
      exact effect_clearRead hi h.1.1 rfl h.2
  | pollRead w =>
      simp only [step, Option.ite_none_right_eq_some, Option.some.injEq, Bool.and_eq_true] at h
      obtain ⟨⟨hg, -⟩, rfl⟩ := h
      exact effect_pollRead hi hg
  | cancelRead w =>
      simp only [step, Option.ite_none_right_eq_some, Bool.and_eq_true] at h
      exact effect_cancelRead hi h.1.1 rfl h.2
  | clearWrite w doReclaim =>
      simp only [step, Option.ite_none_right_eq_some, Bool.and_eq_true] at h
      exact effect_clearWrite hi h.1.1 h.2

theorem inv_of_step (hi : s.Inv) (h : step s e = some s') : s'.Inv :=
  inv_of_effect hi (effect_of_step hi h)

/-- What is true before anything was allocated. -/
theorem inv_of_start (h : s.Start) : s.Inv := by
  obtain ⟨hnext, hw, -, hmr⟩ := h
  have hlt : ∀ {P : Prop} {v : ℕ}, v < s.next → P := fun hv => by
    rw [hnext] at hv
    exact absurd hv (Nat.not_lt_zero _)
  refine ⟨⟨?_, fun _ hv => hlt hv, fun _ hv => hlt hv, fun _ hv => hlt hv, fun _ hv => hlt hv,
      fun _ hv => hlt hv, fun _ hv => hlt hv, fun _ hv => hlt hv, fun _ hv => hlt hv⟩,
    ⟨fun _ hv => hlt hv, fun _ hv => hlt hv, fun _ hv => hlt hv, fun _ hv => hlt hv,
      fun _ hv => hlt hv, ?_⟩,
    ⟨?_, fun _ hv => hlt hv, fun _ hv => hlt hv, fun _ hv => hlt hv, fun _ hv => hlt hv,
      fun _ hv => hlt hv, fun _ hv => hlt hv, fun _ hv => hlt hv⟩⟩
  · intro v _
    obtain ⟨hwr, hk, hc, -, -, hr, hcl, -⟩ := hw v
    rw [hwr]
    exact ⟨rfl, rfl, rfl, hk, hc, hcl, hr⟩
  · intro m
    rw [hnext, hmr]
    rfl
  · intro v _
    obtain ⟨hwr, -, -, -, -, -, -, ho, -⟩ := hw v
    rw [hwr]
    exact ⟨ho, rfl⟩

/-- The invariant holds in every run. -/
theorem inv_of_reach {ok : DmaSys → Event → Prop}
    (h : Transition.ReachWhen Start step ok s) : s.Inv :=
  h.invariant (fun _ => inv_of_start) fun _ _ _ hi _ hs => inv_of_step hi hs

end DmaSys

end Emp
