import Emp.Lib.Transition
import Emp.Writeback.Eager

/-!
# Eager requests are settled when their block leaves the inactive list

A block is calm, with no eager request, or its request is armed: the block is inactive then, and
nothing says that it was prefetched.  Every path settles an armed request before it reads the
field, but two.  A pinned victim of the inactive list goes to the pin list as it is, as a
prefetched block whose field is read as a fetch request later; and a copy on write takes the flag
over to the new descriptor, which has no request, while the old block may be dropped as clean with
its own still in flight.

## Main definitions

* `EagerBlock.EagerOk` — what should hold of a block.
* `EagerSys.step` — the system of blocks.
* `EagerSys.Settles` — the steps that keep it.
-/

namespace Emp

namespace EagerBlock

variable {s t : EagerBlock} {l : EagerLuck} {f : GpaFlag} {v : Bool}

/-- What should hold of a block: its field is taken for what it holds, holds an eager request
exactly if the flag says so, and only while the block is inactive and not prefetched; every
request that was armed is settled once. -/
structure EagerOk (s : EagerBlock) : Prop where
  read : s.misread = false
  meaning : s.w 0 = .eager ↔ s.flags .eagerWbr = true
  elsewhere : ∀ i, i ≠ 0 → s.w i ≠ .eager
  place : s.w 0 = .eager → s.rState = .inactive ∧ s.prefetched = false
  settled : s.settled + (if s.w 0 = .eager then 1 else 0) = s.armed

/-- No eager request is outstanding. -/
structure Calm (s : EagerBlock) : Prop where
  w : ∀ i, s.w i ≠ .eager
  flag : s.flags .eagerWbr = false
  read : s.misread = false
  settled : s.settled = s.armed

/-- An eager request is outstanding. -/
structure Armed (s : EagerBlock) : Prop where
  w : s.w 0 = .eager
  elsewhere : ∀ i, i ≠ 0 → s.w i ≠ .eager
  flag : s.flags .eagerWbr = true
  rState : s.rState = .inactive
  prefetched : s.prefetched = false
  read : s.misread = false
  settled : s.settled + 1 = s.armed

theorem Calm.eagerOk (h : s.Calm) : s.EagerOk := by
  refine ⟨h.read, iff_of_false (h.w 0) fun hf => ?_, fun i _ => h.w i, fun hw => absurd hw (h.w 0),
    ?_⟩
  · rw [h.flag] at hf
    cases hf
  · rw [if_neg (h.w 0)]
    exact h.settled

theorem Armed.eagerOk (h : s.Armed) : s.EagerOk := by
  refine ⟨h.read, iff_of_true h.w h.flag, h.elsewhere, fun _ => ⟨h.rState, h.prefetched⟩, ?_⟩
  rw [if_pos h.w]
  exact h.settled

theorem EagerOk.calm_or_armed (h : s.EagerOk) : s.Calm ∨ s.Armed := by
  have hset := h.settled
  by_cases hw : s.w 0 = .eager
  · obtain ⟨hst, hpf⟩ := h.place hw
    rw [if_pos hw] at hset
    exact .inr ⟨hw, h.elsewhere, h.meaning.mp hw, hst, hpf, h.read, hset⟩
  · rw [if_neg hw] at hset
    refine .inl ⟨fun i => ?_, Bool.eq_false_iff.mpr fun hf => hw (h.meaning.mpr hf), h.read, hset⟩
    by_cases hi : i = 0
    · rwa [hi]
    · exact h.elsewhere i hi

theorem Calm.ite {p : Prop} [Decidable p] (hs : s.Calm) (ht : t.Calm) :
    (if p then s else t).Calm := by
  split_ifs
  · exact hs
  · exact ht

/-! ### Readers -/

theorem flags_setFlag_of_ne {g : GpaFlag} (h : g ≠ f) : (s.setFlag f v).flags g = s.flags g :=
  Function.update_of_ne h _ _

theorem flags_setFlag : (s.setFlag f v).flags f = v := Function.update_self ..

theorem calm_setFlag (h : s.Calm) (hf : f ≠ .eagerWbr) : (s.setFlag f v).Calm :=
  ⟨h.w, (flags_setFlag_of_ne hf.symm).trans h.flag, h.read, h.settled⟩

theorem calm_rState (h : s.Calm) (r : EagerState) : Calm { s with rState := r } :=
  ⟨h.w, h.flag, h.read, h.settled⟩

theorem calm_clearPrefetched (h : s.Calm) : s.clearPrefetched.Calm :=
  calm_setFlag (calm_setFlag (calm_setFlag h nofun) nofun) nofun

theorem calm_waitReadAsync (h : s.Calm) (i : ℕ) : (s.waitReadAsync i).Calm := by
  rw [waitReadAsync]
  split_ifs
  · exact h
  · refine ⟨fun j => ?_, h.flag, ?_, h.settled⟩
    · show Function.update s.w i .empty j ≠ .eager
      rw [Function.update_apply]
      split_ifs
      · nofun
      · exact h.w j
    · show (s.misread || s.w i == .eager) = false
      rw [h.read, beq_eq_false_iff_ne.mpr (h.w i)]
      rfl

theorem calm_waitReads (h : s.Calm) (skip : ℕ → Bool) (k : ℕ) : (s.waitReads skip k).Calm := by
  induction k with
  | zero => exact h
  | succ k ih =>
      rw [waitReads]
      split_ifs
      · exact ih
      · exact calm_waitReadAsync ih k

theorem calm_waitDemandPage (h : s.Calm) (i : ℕ) (fallback : Bool) :
    (s.waitDemandPage i fallback).Calm := by
  rw [waitDemandPage]
  split_ifs
  · exact calm_waitReadAsync h i
  · refine ⟨h.w, h.flag, ?_, h.settled⟩
    show (s.misread || s.w i == .eager) = false
    rw [h.read, beq_eq_false_iff_ne.mpr (h.w i)]
    rfl

theorem calm_clearWriteback (h : s.Calm) : s.clearWriteback.Calm := by
  refine ⟨nofun, h.flag, ?_, h.settled⟩
  show (s.misread || s.w 0 == .eager) = false
  rw [h.read, beq_eq_false_iff_ne.mpr (h.w 0)]
  rfl

theorem calm_waitForPrefetchedBlock (h : s.Calm) : s.waitForPrefetchedBlock.Calm := by
  have hc := calm_clearPrefetched (calm_waitReads h
    (fun i => s.flags .prefetchedCsf && i == s.demandSb) s.numSubblock)
  exact ⟨hc.w, hc.flag, hc.read, hc.settled⟩

/-- A calm block has nothing to settle. -/
theorem checkEagerWbr_of_calm (h : s.Calm) : s.checkEagerWbr = s := by
  rw [checkEagerWbr, if_neg]
  rw [h.flag]
  nofun

/-- **`check_eager_wbr` settles.** -/
theorem calm_checkEagerWbr (h : s.EagerOk) : s.checkEagerWbr.Calm := by
  obtain hc | ha := h.calm_or_armed
  · rw [checkEagerWbr_of_calm hc]
    exact hc
  · rw [checkEagerWbr, if_pos ha.flag]
    refine ⟨nofun, ?_, ?_, ?_⟩
    · show ((s.setFlag .eagerWbr false).setFlag .dirty false).flags .eagerWbr = false
      exact (flags_setFlag_of_ne (f := .dirty) (g := .eagerWbr) nofun).trans flags_setFlag
    · show (s.misread || s.w 0 != .eager) = false
      rw [ha.read, ha.w]
      rfl
    · show (if s.w 0 = .eager then s.settled + 1 else s.settled) = s.armed
      rw [if_pos ha.w]
      exact ha.settled

/-- **`clear_block_w` settles.** -/
theorem calm_clearBlockW (h : s.EagerOk) : s.clearBlockW.Calm := by
  rw [clearBlockW]
  split_ifs with hempty
  · refine h.calm_or_armed.resolve_right fun ha => ?_
    rw [ha.w] at hempty
    cases hempty.1
  · have hc := calm_checkEagerWbr h
    dsimp only
    split_ifs
    · exact hc
    · exact calm_clearWriteback hc
    · exact calm_waitForPrefetchedBlock hc
    · exact hc

theorem calm_fetchBarrier (h : s.Calm) (hva : Bool) (b : BarrierWait) :
    (s.fetchBarrier hva b).Calm := by
  have hc : ((({ s with rState := .active }).setFlag (if hva then .hpt else .ept) true).setFlag
      .remote false).Calm := by
    refine calm_setFlag (calm_setFlag (calm_rState h .active) ?_) nofun
    split_ifs <;> nofun
  cases b with
  | demand i => exact calm_setFlag (calm_setFlag (calm_waitReadAsync hc i) nofun) nofun
  | page i fallback =>
      refine calm_setFlag (calm_setFlag (calm_waitDemandPage hc i fallback) ?_) nofun
      split_ifs <;> nofun
  | rest skip => exact calm_waitReads hc skip _

/-! ### Writeback -/

theorem calm_freeGpas (h : s.Calm) : s.freeGpas.Calm := by
  refine ⟨nofun, ?_, h.read, h.settled⟩
  show (GpaFlag.keep .eagerWbr && s.flags .eagerWbr) = false
  rw [h.flag, Bool.and_false]

theorem calm_setRemote (h : s.Calm) : s.setRemote.Calm := calm_setFlag (calm_freeGpas h) nofun

theorem calm_evictBlock {use : FieldUse} (h : s.EagerOk) (huse : l.posts = true → use ≠ .eager) :
    (s.evictBlock l use).Calm := by
  have hc := calm_clearBlockW h
  rw [evictBlock]
  split_ifs with hposts
  · refine ⟨fun i => ?_, hc.flag, hc.read, hc.settled⟩
    show Function.update s.clearBlockW.w 0 use i ≠ .eager
    rw [Function.update_apply]
    split_ifs
    · exact huse hposts
    · exact hc.w i
  · exact ⟨hc.w, hc.flag, hc.read, hc.settled⟩

theorem calm_empWritebackBlock (h : s.Calm) : (s.empWritebackBlock l).Calm := by
  have hc : ((s.setFlag .dirty (!(l.reuse && s.backed) && s.flags .dirty)).evictBlock l
      .writeback).Calm := calm_evictBlock (calm_setFlag (f := .dirty) h nofun).eagerOk nofun
  rw [empWritebackBlock]
  split_ifs
  · exact calm_setRemote h
  · exact calm_rState hc .wb
  · exact hc

theorem rState_checkEagerWbr (s : EagerBlock) : s.checkEagerWbr.rState = s.rState := by
  rw [checkEagerWbr]
  split_ifs <;> rfl

theorem rState_waitReads (skip : ℕ → Bool) (k : ℕ) : (s.waitReads skip k).rState = s.rState := by
  induction k with
  | zero => rfl
  | succ k ih =>
      rw [waitReads]
      split_ifs
      · exact ih
      · rw [waitReadAsync]
        split_ifs
        · exact ih
        · exact ih

theorem prefetched_waitForPrefetchedBlock (s : EagerBlock) :
    s.waitForPrefetchedBlock.prefetched = false := by
  simp [waitForPrefetchedBlock, clearPrefetched, prefetched, setFlag]

/-- What is drained of an inactive block: it stays inactive, and it is not prefetched. -/
theorem place_clearBlockW (hst : s.rState = .inactive) :
    s.clearBlockW.rState = .inactive ∧ s.clearBlockW.prefetched = false := by
  have hst' : s.checkEagerWbr.rState = .inactive := (rState_checkEagerWbr s).trans hst
  rw [clearBlockW]
  split_ifs with hempty
  · exact ⟨hst, hempty.2⟩
  · have hwb : s.checkEagerWbr.rState ≠ .wb := by
      rw [hst']
      nofun
    dsimp only
    rw [if_neg hwb]
    split_ifs with hpf
    · refine ⟨?_, prefetched_waitForPrefetchedBlock s.checkEagerWbr⟩
      exact (rState_waitReads (s := s.checkEagerWbr) _ _).trans hst'
    · exact ⟨hst', Bool.eq_false_iff.mpr hpf⟩

theorem armed_of_calm (h : s.Calm) (hst : s.rState = .inactive) (hpf : s.prefetched = false) :
    Armed { (({ s with w := Function.update s.w 0 .eager, backed := true }).setFlag .eagerWbr true)
      with armed := s.armed + 1 } := by
  refine ⟨?_, fun i hi => ?_, ?_, hst, hpf, h.read, ?_⟩
  · show Function.update s.w 0 FieldUse.eager 0 = .eager
    exact Function.update_self ..
  · exact (Function.update_of_ne hi ..).trans_ne (h.w i)
  · show Function.update s.flags .eagerWbr true .eagerWbr = true
    exact Function.update_self ..
  · exact congrArg (· + 1) h.settled

/-- A block that is calm becomes inactive with its eager request armed, or stays calm. -/
theorem eagerOk_addToInactive (h : s.Calm) : (s.addToInactive l).EagerOk := by
  have hin : Calm { s with rState := .inactive } := calm_rState h .inactive
  rw [addToInactive]
  split_ifs with _ hposts
  · have hc := calm_clearBlockW hin.eagerOk
    obtain ⟨hst, hpf⟩ := place_clearBlockW (s := { s with rState := .inactive }) rfl
    rw [evictBlock, if_pos hposts]
    exact (armed_of_calm hc hst hpf).eagerOk
  · exact (calm_evictBlock hin.eagerOk fun h => absurd h hposts).eagerOk
  · exact hin.eagerOk

/-! ### Paths -/

/-- Only an inactive block has a request. -/
theorem EagerOk.calm (h : s.EagerOk) (hst : s.rState ≠ .inactive) : s.Calm :=
  h.calm_or_armed.resolve_right fun ha => hst ha.rState

theorem calm_remoteFault (h : s.Calm) : (s.remoteFault l).Calm := by
  have hc : Calm { s with w := fun i => if l.posted i then .fetch else .empty } := by
    refine ⟨fun i => ?_, h.flag, h.read, h.settled⟩
    dsimp only
    split_ifs <;> nofun
  rw [remoteFault]
  split_ifs
  · exact calm_rState hc .active
  · exact calm_waitReads hc _ _

theorem calm_inactiveFault (h : s.EagerOk) : s.inactiveFault.Calm :=
  calm_rState (calm_clearBlockW h) .active

theorem calm_writebackFault (h : s.Calm) : s.writebackFault.Calm := by
  have hc := calm_clearWriteback h
  exact ⟨hc.w, hc.flag, hc.read, hc.settled⟩

theorem calm_written (h : s.Calm) : (if l.write then s.setFlag .dirty true else s).Calm :=
  .ite (calm_setFlag (f := .dirty) h nofun) h

/-- A block that was prefetched is calm, and stays so; an armed one is left as it is. -/
theorem eagerOk_resumePrefetch (h : s.EagerOk) : (s.resumePrefetch l).EagerOk := by
  rw [resumePrefetch]
  obtain hc | ha := h.calm_or_armed
  · have hw : (if l.hva then s.clearBlockW else s).Calm := .ite (calm_clearBlockW h) hc
    exact (Calm.ite (calm_clearPrefetched (.ite (calm_fetchBarrier hw true l.resume)
      (.ite (calm_fetchBarrier hw false l.resume) hw))) hc).eagerOk
  · rw [ha.prefetched, Bool.false_and]
    exact h

theorem eagerOk_pageFault (h : s.EagerOk) : (s.pageFault l).EagerOk := by
  have hr := eagerOk_resumePrefetch (l := l) h
  have hbar {t : EagerBlock} (ht : t.Calm) : EagerOk
      (if l.write then (t.fetchBarrier l.hva l.barrier).setFlag .dirty true
        else t.fetchBarrier l.hva l.barrier) :=
    (calm_written (calm_fetchBarrier ht l.hva l.barrier)).eagerOk
  rw [pageFault]
  dsimp only
  cases hst : (s.resumePrefetch l).rState with
  | init =>
      have hc := calm_remoteFault (l := l) (hr.calm (by rw [hst]; nofun))
      by_cases hf : l.fetched
      · simp only [hf, if_true]
        exact hbar hc
      · simp only [hf]
        exact hc.eagerOk
  | active =>
      by_cases hh : l.handled
      · simp only [hh, if_true]
        exact hr
      · simp only [hh]
        exact hbar (hr.calm (by rw [hst]; nofun))
  | inactive => exact hbar (calm_inactiveFault hr)
  | wb => exact hbar (calm_writebackFault (hr.calm (by rw [hst]; nofun)))

theorem prefetched_setFlag (hf : FreeFlag f) : (s.setFlag f v).prefetched = s.prefetched := by
  rw [prefetched, flags_setFlag_of_ne hf.2.1.symm, flags_setFlag_of_ne hf.2.2.1.symm,
    flags_setFlag_of_ne hf.2.2.2.symm, prefetched]

theorem eagerOk_setFlag (h : s.EagerOk) (hf : FreeFlag f) : (s.setFlag f v).EagerOk := by
  refine ⟨h.read, h.meaning.trans ?_, h.elsewhere, fun hw => ⟨(h.place hw).1, ?_⟩, h.settled⟩
  · rw [flags_setFlag_of_ne hf.1.symm]
  · rw [prefetched_setFlag hf]
    exact (h.place hw).2

theorem EagerOk.ite {p : Prop} [Decidable p] (hs : s.EagerOk) (ht : t.EagerOk) :
    (if p then s else t).EagerOk := by
  split_ifs
  · exact hs
  · exact ht

theorem calm_remotePrefetch (h : s.Calm) : (s.remotePrefetch l).Calm := by
  have hc := calm_remoteFault (l := l) h
  exact .ite (calm_setFlag (f := .prefetchOnce) (calm_setFlag (f := .prefetchedBlk) hc nofun)
    nofun) hc

theorem eagerOk_blkPrefetch (h : s.EagerOk) : (s.blkPrefetch l).EagerOk := by
  have hp : (s.setFlag .promote true).EagerOk := eagerOk_setFlag h (by decide)
  rw [blkPrefetch]
  refine .ite hp (.ite h ?_)
  by_cases hst : s.rState = .init
  · have hc := calm_remotePrefetch (l := l) (h.calm (by rw [hst]; nofun))
    rw [if_pos hst]
    exact (Calm.ite (calm_setFlag (f := .hpt) hc nofun) hc).eagerOk
  · rw [if_neg hst]
    exact hp

theorem calm_finishPrefetch (h : s.Calm) : (s.finishPrefetch l).Calm :=
  .ite (calm_clearPrefetched (.ite (calm_fetchBarrier h true l.resume) h)) h

theorem eagerOk_finishPrefetch (h : s.EagerOk) : (s.finishPrefetch l).EagerOk := by
  obtain hc | ha := h.calm_or_armed
  · exact (calm_finishPrefetch hc).eagerOk
  · rw [finishPrefetch, ha.prefetched]
    exact h

theorem eagerOk_blkPrefetchComplete (h : s.EagerOk) : (s.blkPrefetchComplete l).EagerOk := by
  have hf := eagerOk_finishPrefetch (l := l) h
  rw [blkPrefetchComplete]
  dsimp only
  by_cases hst : (s.finishPrefetch l).rState = .init
  · have hc := calm_remotePrefetch (l := l) (hf.calm (by rw [hst]; nofun))
    rw [if_pos hst]
    exact (Calm.ite (calm_setFlag (f := .promote) hc nofun) hc).eagerOk
  · rw [if_neg hst]
    exact eagerOk_setFlag hf (by decide)

theorem eagerOk_activeVictim (h : s.Calm) : (s.activeVictim l).EagerOk := by
  rw [activeVictim]
  refine .ite (eagerOk_setFlag h.eagerOk (by decide)) (.ite ?_ ?_)
  · exact eagerOk_setFlag (eagerOk_setFlag h.eagerOk (by decide)) (by decide)
  · exact eagerOk_addToInactive (.ite (calm_waitForPrefetchedBlock h) h)

theorem eagerOk_blkDontneed (h : s.EagerOk) : (s.blkDontneed l).EagerOk := by
  rw [blkDontneed]
  have hd : ((s.setFlag .promote false).setFlag .pinned false).EagerOk :=
    eagerOk_setFlag (eagerOk_setFlag h (by decide)) (by decide)
  refine .ite h ?_
  dsimp only
  split_ifs with hst
  · have hc := hd.calm (by rw [hst]; nofun)
    exact eagerOk_addToInactive (calm_setFlag (f := .proactive) hc nofun)
  · exact hd

theorem calm_moveToPinList (h : s.Calm) : s.moveToPinList.Calm := by
  have hp := calm_setFlag (f := .proactive) (v := true) (calm_rState h .active) nofun
  have hb := calm_setFlag (f := .prefetchedBlk) (v := true) hp nofun
  exact calm_setFlag (f := .hpt) (calm_setFlag (f := .prefetchOnce) hb nofun) nofun

theorem calm_promoteGpas (h : s.Calm) : s.promoteGpas.Calm := by
  have hp := calm_setFlag (f := .proactive) (v := true) (calm_rState h .active) nofun
  exact calm_setFlag (f := .prefetchOnce) (calm_setFlag (f := .prefetchedBlk) hp nofun) nofun

/-- A pinned victim has to have settled its request before. -/
theorem eagerOk_inactiveVictim (h : s.EagerOk)
    (hpin : s.flags .pinned = true → s.flags .eagerWbr = false) :
    (s.inactiveVictim l).EagerOk := by
  rw [inactiveVictim]
  split_ifs with hp
  · refine (calm_moveToPinList (h.calm_or_armed.resolve_right fun ha => ?_)).eagerOk
    exact Bool.false_ne_true ((hpin hp).symm.trans ha.flag)
  · exact (calm_promoteGpas (calm_checkEagerWbr (eagerOk_setFlag h (by decide)))).eagerOk
  · exact (calm_empWritebackBlock (calm_checkEagerWbr h)).eagerOk
  · exact h

theorem calm_writebackDone (h : s.Calm) : s.writebackDone.Calm := by
  have hc := calm_setRemote (calm_clearWriteback h)
  have hb := calm_setFlag (f := .prefetchedBlk) (v := true) (calm_rState hc .active) nofun
  rw [writebackDone]
  exact .ite (calm_setFlag (f := .hpt) (calm_setFlag (f := .prefetchOnce) hb nofun) nofun) hc

theorem calm_copied (h : s.Calm) : s.copied.Calm := by
  refine ⟨nofun, ?_, rfl, rfl⟩
  show (false || s.flags .eagerWbr) = false
  rw [h.flag]
  rfl

/-- A block with no request is copied to one with none. -/
theorem calm_dupCow (h : s.Calm) : (s.dupCow l).1.Calm ∧ (s.dupCow l).2.Calm := by
  have hf := calm_finishPrefetch (l := l) h
  have hn := calm_copied hf
  rw [dupCow]
  split_ifs
  · exact ⟨hf, hn⟩
  · exact ⟨calm_setRemote hf, hn⟩
  · exact ⟨hf, hn⟩
  · exact ⟨calm_empWritebackBlock hf, hn⟩

theorem calm_close (h : s.EagerOk) : (s.close l).Calm := by
  have hw : (if s.prefetched then s.waitForPrefetchedBlock else s).EagerOk := by
    split_ifs with hpf
    · refine (calm_waitForPrefetchedBlock (h.calm_or_armed.resolve_right fun ha => ?_)).eagerOk
      exact Bool.false_ne_true (ha.prefetched.symm.trans hpf)
    · exact h
  have hc := calm_checkEagerWbr hw
  have hlocal {t : EagerBlock} (ht : t.Calm) : Calm
      (if l.owned then t else if l.shared then t.empWritebackBlock l else t.freeGpas) :=
    .ite ht (.ite (calm_empWritebackBlock ht) (calm_freeGpas ht))
  rw [close]
  cases (if s.prefetched then s.waitForPrefetchedBlock else s).checkEagerWbr.rState with
  | init => exact hc
  | active => exact hlocal hc
  | inactive => exact hlocal hc
  | wb => exact .ite hc (calm_freeGpas (calm_clearWriteback hc))

/-! ### Steps that break it -/

/-- **A pinned victim with a request outstanding is handled as prefetched.** -/
theorem not_eagerOk_inactiveVictim (h : s.EagerOk) (hp : s.flags .pinned = true)
    (hflag : s.flags .eagerWbr = true) : ¬ (s.inactiveVictim l).EagerOk := by
  rw [inactiveVictim, if_pos hp]
  intro ht
  have hw : s.moveToPinList.w 0 = .eager := h.meaning.mpr hflag
  exact nomatch (ht.place hw).1

/-- **The copy of a block with a request outstanding has the flag and no request.** -/
theorem not_eagerOk_dupCow (h : s.EagerOk) (hflag : s.flags .eagerWbr = true) :
    ¬ (s.dupCow l).2.EagerOk := by
  obtain hc | ha := h.calm_or_armed
  · exact absurd (hc.flag.symm.trans hflag) nofun
  · have hf : s.finishPrefetch l = s := by
      rw [finishPrefetch, ha.prefetched]
      rfl
    have hn : (s.dupCow l).2 = s.copied := by
      rw [dupCow]
      simp only [hf, apply_ite Prod.snd, ite_self]
    rw [hn]
    intro ht
    refine nomatch ht.meaning.mpr (?_ : s.copied.flags .eagerWbr = true)
    show (false || s.flags .eagerWbr) = true
    rw [hflag]
    rfl

/-- What the step of a path keeps. -/
theorem eagerOk_path {p : EagerPath} (h : s.EagerOk) (hs : s.path l p = some t)
    (hpin : p = .inactiveVictim → s.flags .pinned = true → s.flags .eagerWbr = false) :
    t.EagerOk := by
  cases p with
  | setFlag f v =>
      obtain ⟨hf, rfl⟩ := Transition.of_guard hs
      exact eagerOk_setFlag h hf
  | pageFault => exact Option.some.inj hs ▸ eagerOk_pageFault h
  | prefetch => exact Option.some.inj hs ▸ eagerOk_blkPrefetch h
  | prefetchComplete => exact Option.some.inj hs ▸ eagerOk_blkPrefetchComplete h
  | activeVictim =>
      obtain ⟨hst, rfl⟩ := Transition.of_guard hs
      exact eagerOk_activeVictim (h.calm (by rw [hst]; nofun))
  | dontneed => exact Option.some.inj hs ▸ eagerOk_blkDontneed h
  | inactiveVictim =>
      obtain ⟨-, rfl⟩ := Transition.of_guard hs
      exact eagerOk_inactiveVictim h (hpin rfl)
  | writebackDone =>
      obtain ⟨hst, rfl⟩ := Transition.of_guard hs
      exact (calm_writebackDone (h.calm (by rw [hst]; nofun))).eagerOk
  | close => exact Option.some.inj hs ▸ (calm_close h).eagerOk

end EagerBlock

namespace EagerSys

variable {s t : EagerSys} {e : EagerEvent}

/-- Blocks that nothing has touched. -/
def Start (s : EagerSys) : Prop :=
  ∀ b, (s.block b).rState = .init ∧ (∀ i, (s.block b).w i = .empty) ∧
    (s.block b).flags .eagerWbr = false ∧ (s.block b).armed = 0 ∧ (s.block b).settled = 0 ∧
    (s.block b).misread = false

/-- The property, of all blocks. -/
def Settled (s : EagerSys) : Prop := ∀ b < s.next, (s.block b).EagerOk

/-- No pinned victim of the inactive list and no block that is copied on write has a request
outstanding. -/
def Settles (s : EagerSys) : EagerEvent → Prop
  | .path b .inactiveVictim _ =>
      (s.block b).flags .pinned = true → (s.block b).flags .eagerWbr = false
  | .path .. => True
  | .cow b _ => (s.block b).flags .eagerWbr = false

theorem block_setBlock {b : ℕ} {g : EagerBlock} : (s.setBlock b g).block b = g :=
  Function.update_self ..

theorem block_addBlock {g : EagerBlock} : (s.addBlock g).block s.next = g :=
  Function.update_self ..

theorem settled_setBlock {b : ℕ} {g : EagerBlock} (h : s.Settled) (hg : g.EagerOk) :
    (s.setBlock b g).Settled := by
  intro c hc
  show (Function.update s.block b g c).EagerOk
  by_cases hcb : c = b
  · rw [hcb, Function.update_self]
    exact hg
  · rw [Function.update_of_ne hcb]
    exact h c hc

theorem settled_addBlock {g : EagerBlock} (h : s.Settled) (hg : g.EagerOk) :
    (s.addBlock g).Settled := by
  intro c hc
  show (Function.update s.block s.next g c).EagerOk
  obtain hlt | rfl := Nat.lt_succ_iff_lt_or_eq.mp hc
  · rw [Function.update_of_ne (Nat.ne_of_lt hlt)]
    exact h c hlt
  · rw [Function.update_self]
    exact hg

theorem settled_step (h : s.Settled) (hok : s.Settles e) (hs : s.step e = some t) :
    t.Settled := by
  unfold step at hs
  cases e with
  | path b p l =>
      obtain ⟨hb, hs⟩ := Option.ite_none_right_eq_some.mp hs
      obtain ⟨g, hg, rfl⟩ := Option.map_eq_some_iff.mp hs
      refine settled_setBlock h (EagerBlock.eagerOk_path (h b hb) hg fun hp => ?_)
      subst hp
      exact hok
  | cow b l =>
      obtain ⟨hb, rfl⟩ := Transition.of_guard hs
      have hc := (h b hb).calm_or_armed.resolve_right fun ha => nomatch hok.symm.trans ha.flag
      obtain ⟨hold, hnew⟩ := EagerBlock.calm_dupCow (l := l) hc
      exact settled_addBlock (settled_setBlock h hold.eagerOk) hnew.eagerOk

/-- The steps that are excluded break it. -/
theorem not_settled_step (h : s.Settled) (hok : ¬ s.Settles e) (hs : s.step e = some t) :
    ¬ t.Settled := by
  unfold step at hs
  intro ht
  cases e with
  | path b p l =>
      obtain ⟨hb, hs⟩ := Option.ite_none_right_eq_some.mp hs
      obtain ⟨g, hg, rfl⟩ := Option.map_eq_some_iff.mp hs
      cases p with
      | inactiveVictim =>
          obtain ⟨-, rfl⟩ := Transition.of_guard hg
          obtain ⟨hp, hflag⟩ := Classical.not_imp.mp hok
          have hbad := ht b hb
          rw [block_setBlock] at hbad
          exact EagerBlock.not_eagerOk_inactiveVictim (h b hb) hp (eq_true_of_ne_false hflag) hbad
      | _ => exact hok trivial
  | cow b l =>
      obtain ⟨hb, rfl⟩ := Transition.of_guard hs
      have hnew : ((s.block b).dupCow l).2.EagerOk :=
        Eq.mp (congrArg EagerBlock.EagerOk (block_addBlock (s := s.setBlock b _)))
          (ht s.next (Nat.lt_succ_self _))
      exact EagerBlock.not_eagerOk_dupCow (h b hb) (eq_true_of_ne_false hok) hnew

/-- **Eager requests are settled, when no pinned victim and no copied block has one.**  Every other
step settles it before the field is read; and each step that the condition excludes leaves a
block whose field and flags disagree. -/
theorem settled_when (h : Transition.ReachWhen Start step Settles s) :
    s.Settled ∧ ∀ e t, s.step e = some t → ¬ s.Settles e → ¬ t.Settled := by
  have hset : s.Settled := h.invariant (I := fun u => u.Settled)
    (fun u hu b _ => by
      obtain ⟨-, hw, hflag, harm, hset, hread⟩ := hu b
      refine EagerBlock.Calm.eagerOk ⟨fun i => ?_, hflag, hread, hset.trans harm.symm⟩
      rw [hw]
      nofun)
    fun u e t hu hok hs => settled_step hu hok hs
  exact ⟨hset, fun e t hs hok => not_settled_step hset hok hs⟩

/-! ### Runs -/

/-- A block of two subblocks. -/
def untouched : EagerSys where
  block _ :=
    { numSubblock := 2, rState := .init, flags := fun _ => false, w := fun _ => .empty,
      demandSb := 0, backed := true, armed := 0, settled := 0, misread := false }
  next := 1

/-- Everything succeeds, and the block is unused and of one process. -/
def smooth : EagerLuck where
  posted := fun _ => true
  fetched := true
  resume := .rest fun _ => false
  barrier := .rest fun _ => false
  hva := true
  handled := false
  write := false
  free := true
  eagerWriteback := true
  posts := true
  reuse := true
  alone := true
  owned := false
  shared := false

/-- The block is fetched and deactivated, faulted on, deactivated, pinned while it is active, and
promoted when it is a victim; then it is copied. -/
def settledRun : List EagerEvent :=
  [.path 0 .pageFault smooth, .path 0 .activeVictim smooth, .path 0 .pageFault smooth,
    .path 0 .activeVictim smooth, .path 0 (.setFlag .promote true) smooth,
    .path 0 .inactiveVictim smooth, .cow 0 smooth, .path 0 .close smooth]

/-- The block is deactivated, pinned while its request is outstanding, taken from the inactive
list, unpinned and deactivated again. -/
def pinnedRun : List EagerEvent :=
  [.path 0 .pageFault smooth, .path 0 .activeVictim smooth,
    .path 0 (.setFlag .pinned true) smooth, .path 0 .inactiveVictim smooth,
    .path 0 (.setFlag .pinned false) smooth, .path 0 .activeVictim smooth]

theorem start_untouched : Start untouched := fun _ => ⟨rfl, fun _ => rfl, rfl, rfl, rfl, rfl⟩

theorem settled_settledRun :
    ∃ s, Transition.exec step untouched settledRun = some s ∧ (s.block 0).settled = 2 ∧
      s.Settled := by
  have hsome : (Transition.exec step untouched settledRun).isSome := by decide
  obtain ⟨s, hs⟩ := Option.isSome_iff_exists.mp hsome
  have hok : Transition.Allowed step Settles untouched settledRun :=
    ⟨trivial, trivial, trivial, trivial, trivial, fun h => absurd h (by decide),
      rfl, trivial, trivial⟩
  have hset : (Transition.exec step untouched settledRun).all fun u =>
      (u.block 0).settled == 2 := by
    decide
  rw [hs] at hset
  exact ⟨s, hs, beq_iff_eq.mp hset,
    (settled_when (Transition.ReachWhen.exec (.start start_untouched) hok hs)).1⟩

/-- **The handle is taken for a fetch request.** -/
theorem not_settled_pinnedRun :
    ∃ s, Transition.Reach Start step s ∧ (s.block 0).misread = true ∧ ¬ s.Settled := by
  have hsome : (Transition.exec step untouched pinnedRun).isSome := by decide
  obtain ⟨s, hs⟩ := Option.isSome_iff_exists.mp hsome
  have hread : (Transition.exec step untouched pinnedRun).all fun u =>
      (u.block 0).misread && decide (0 < u.next) := by
    decide
  rw [hs] at hread
  obtain ⟨hread, hnext⟩ := Bool.and_eq_true_iff.mp hread
  refine ⟨s, Transition.Reach.exec (.start start_untouched) hs, hread, fun h => ?_⟩
  exact nomatch (h 0 (of_decide_eq_true hnext)).read.symm.trans hread

end EagerSys

end Emp
