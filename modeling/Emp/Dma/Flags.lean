import Emp.Dma.Runs

/-!
# What the clears did

Only a clear or a poll that ends gives up remote pages and lets local pages be mapped,
and only the clear of a write unlocks its block and reclaims the local pages.

## Main definitions

* `Dma.flags` — what the clears did so far.
* `flags_of_step` — how one step changes it.
-/

namespace Emp

/-- What the clears did so far. -/
structure Flags where
  gaveUp : ℕ → Bool
  mappable : ℕ → Bool
  finished : ℕ → Bool
  reclaimed : ℕ → Bool

def Dma.flags (d : Dma) : Flags := ⟨d.gaveUp, d.mappable, d.finished, d.reclaimed⟩

theorem flags_recorded {d d' : Dma} (h : d.Recorded d') : d'.flags = d.flags := by
  simp only [Dma.flags, h.gaveUp, h.mappable, h.finished, h.reclaimed]

@[simp] theorem flags_setWr (d : Dma) (w : ℕ) (r : WorkRequest) : (d.setWr w r).flags = d.flags := rfl

@[simp] theorem flags_setContext (d : Dma) (c : ℕ) (x : Context) :
    (d.setContext c x).flags = d.flags := rfl

@[simp] theorem flags_addRefc (d : Dma) (w : ℕ) (n : ℤ) : (d.addRefc w n).flags = d.flags := rfl

@[simp] theorem flags_addPending (d : Dma) (c : ℕ) (n : ℤ) : (d.addPending c n).flags = d.flags := rfl

@[simp] theorem flags_freeWorkRequest (d : Dma) (w : ℕ) : (freeWorkRequest d w).flags = d.flags := rfl

@[simp] theorem flags_preparePost (d : Dma) (place : Place) (w : ℕ) :
    (preparePost d place w).flags = d.flags := by
  simp only [preparePost, setupLocalPage]
  split <;> rfl

@[simp] theorem flags_endWait (d : Dma) (w : ℕ) (n : ℤ) : (endWait d w n).flags = d.flags := by
  simp only [endWait, destroyLocalPage]
  split <;> rfl

theorem flags_foldl_free (l : List ℕ) (d : Dma) :
    (l.foldl freeWorkRequest d).flags = d.flags := by
  induction l generalizing d with
  | nil => rfl
  | cons w l ih => rw [List.foldl_cons, ih, flags_freeWorkRequest]

/-! ## Posts -/

theorem flags_postRead (d : Dma) (place : Place) (w : ℕ) (head : Option ℕ) (tail : Bool)
    (errno : ℕ) : (postRead d place w head tail errno).flags = d.flags := by
  cases hops : place.ops with
  | rdma =>
      simp only [postRead, hops, rdmaPostRead]
      split <;> simp
  | nvme => simp [postRead, hops, empBdevPost]
  | memdev => simp [postRead, hops, empMemdevPost]

theorem flags_postWrite (d : Dma) (place : Place) (w : ℕ) (head : Option ℕ) (full : Bool)
    (errno : ℕ) : (postWrite d place w head full errno).1.flags = d.flags := by
  cases hops : place.ops with
  | rdma =>
      simp only [postWrite, hops, rdmaPostWrite]
      cases ((preparePost d place w).context place.context).chainedOps <;> cases full <;>
        cases head <;> simp
  | nvme => simp [postWrite, hops, empBdevPost]
  | memdev => simp [postWrite, hops, empMemdevPost]

theorem flags_linkEntangled (d : Dma) (w : ℕ) : (DmaSys.linkEntangled d w).flags = d.flags := by
  simp only [DmaSys.linkEntangled]
  split <;> rfl

theorem flags_rdmaPostWorkReq (d : Dma) (eh tail head : ℕ) (n : ℤ) :
    (rdmaPostWorkReq d eh tail head n).flags = d.flags := by
  simp only [rdmaPostWorkReq, markEndOfEntangledWorkRequest, flags_addPending, flags_setWr]
  split <;> rfl

/-! ## Clears -/

/-- A cancelled read gives nothing up. -/
theorem flags_putFetch_free (d : Dma) (w : ℕ) : (putFetch freeWorkRequest d w).flags = d.flags := by
  have hfree : (if releasedAlone d w then freeWorkRequest d w else d).flags = d.flags := by
    split <;> rfl
  simp only [putFetch]
  generalize (if releasedAlone d w then freeWorkRequest d w else d) = d₁ at hfree ⊢
  split
  · split
    · exact hfree
    · exact hfree
  · exact hfree

/-- The requests given up with a read: those that are freed with it. -/
theorem flags_putFetch_giveUp {d : Dma} {w : ℕ} (hchain : (d.wr w).chainedOps = false)
    (heh : (d.wr (d.wr w).headWr).ehWr = none) :
    (putFetch giveUpFetch d w).flags =
      { d.flags with
        gaveUp := fun v => d.gaveUp v ||
          decide (v ∈ freedWith w (d.wr w).headWr (d.wr (d.wr w).headWr).wrRefc) } := by
  have hf : Frees (if w = (d.wr w).headWr then [] else [w]) d
      (if releasedAlone d w then giveUpFetch d w else d) ∧
      (if releasedAlone d w then giveUpFetch d w else d).flags =
        { d.flags with gaveUp := fun v => d.gaveUp v || decide (v = w ∧ w ≠ (d.wr w).headWr) } := by
    by_cases hw : w = (d.wr w).headWr
    · have hno : releasedAlone d w = false := by simp [releasedAlone, ← hw]
      simp only [if_pos hw, hno]
      refine ⟨Frees.refl d, ?_⟩
      simp [Dma.flags, ← hw]
    · have hyes : releasedAlone d w = true := by simp [releasedAlone, hw, hchain]
      simp only [if_neg hw, hyes, if_true]
      refine ⟨Frees.giveUpFetch d w, ?_⟩
      simp only [Dma.flags, giveUpFetch, freeWorkRequest, Dma.setWr, Flags.mk.injEq, and_true]
      funext v
      by_cases hv : v = w
      · simp [hv, hw]
      · simp [hv]
  obtain ⟨hfree, hflags⟩ := hf
  simp only [putFetch]
  generalize (if releasedAlone d w then giveUpFetch d w else d) = d₁ at hfree hflags ⊢
  have hrefc : ((d₁.addRefc (d.wr w).headWr (-1)).wr (d.wr w).headWr).wrRefc =
      (d.wr (d.wr w).headWr).wrRefc - 1 := by
    rw [Dma.wr_addRefc_self, ← hfree.wrRefc]
    simp only
    omega
  have heh' : ((d₁.addRefc (d.wr w).headWr (-1)).wr (d.wr w).headWr).ehWr = none := by
    rw [Dma.wr_addRefc_self, ← heh]
    exact congrArg Ties.ehWr (hfree.ties _)
  have hg : d₁.gaveUp = fun v => d.gaveUp v || decide (v = w ∧ w ≠ (d.wr w).headWr) :=
    congrArg Flags.gaveUp hflags
  simp only [hrefc, heh']
  by_cases hone : (d.wr (d.wr w).headWr).wrRefc = 1
  · rw [if_pos (by omega)]
    have hlast : (giveUpFetch (d₁.addRefc (d.wr w).headWr (-1)) (d.wr w).headWr).flags =
        { d₁.flags with gaveUp := Function.update d₁.gaveUp (d.wr w).headWr true } := rfl
    rw [hlast, hflags]
    simp only [Flags.mk.injEq, and_true]
    funext v
    rw [hg]
    by_cases hv : v = (d.wr w).headWr
    · simp [hv, mem_freedWith, hone]
    · simp [hv, mem_freedWith]
  · rw [if_neg (by omega), flags_addRefc, hflags]
    simp only [Flags.mk.injEq, and_true]
    funext v
    simp [mem_freedWith, hone]

/-- The last clear of a write unlocks the block. -/
theorem flags_putWriteback (d : Dma) (w : ℕ) (doReclaim : Bool) :
    (putWriteback d w doReclaim).flags =
      if (d.wr (d.wr w).headWr).wrRefc = 1 then
        { d.flags with
          finished := Function.update d.finished (d.wr w).headWr true
          reclaimed := Function.update d.reclaimed (d.wr w).headWr
            (d.reclaimed (d.wr w).headWr || doReclaim) }
      else d.flags := by
  have hset := frees_setPages d (d.wr w).headWr (queued d w)
  have hflags : (d.setWr (d.wr w).headWr
      { d.wr (d.wr w).headWr with remotePages := queued d w }).flags = d.flags := rfl
  simp only [putWriteback, queue_eq]
  generalize d.setWr (d.wr w).headWr { d.wr (d.wr w).headWr with remotePages := queued d w } = d₁
    at hset hflags ⊢
  have hrefc : ((d₁.addRefc (d.wr w).headWr (-1)).wr (d.wr w).headWr).wrRefc =
      (d.wr (d.wr w).headWr).wrRefc - 1 := by
    rw [Dma.wr_addRefc_self, ← hset.wrRefc]
    simp only
    omega
  simp only [hrefc]
  by_cases hone : (d.wr (d.wr w).headWr).wrRefc = 1
  · rw [if_pos (by omega), if_pos hone]
    simp only [freeWorkRequests, flags_freeWorkRequest, flags_foldl_free, flags_setWr]
    have hfin : (d₁.addRefc (d.wr w).headWr (-1)).finished = d.finished :=
      congrArg Flags.finished hflags
    have hrec : (d₁.addRefc (d.wr w).headWr (-1)).reclaimed = d.reclaimed :=
      congrArg Flags.reclaimed hflags
    have hgave : (d₁.addRefc (d.wr w).headWr (-1)).gaveUp = d.gaveUp := congrArg Flags.gaveUp hflags
    have hmap : (d₁.addRefc (d.wr w).headWr (-1)).mappable = d.mappable :=
      congrArg Flags.mappable hflags
    simp only [Dma.flags, hfin, hrec, hgave, hmap]
  · rw [if_neg (by omega), if_neg hone]
    exact hflags

namespace DmaSys

variable {s s' : DmaSys} {e : Event}

/-- A step that releases read `w` as fetched. -/
def Releases (s : DmaSys) (e : Event) (w : ℕ) : Prop :=
  s.canClear .read w = true ∧ s.unwind (s.dma.wr w).headWr = false ∧
    (e = .clearRead w ∧ (opsWaitRead s.dma w).isSome = true ∨
      e = .pollRead w ∧ (opsTryWaitRead s.dma w ⟨[], []⟩).2 ≠ 0)

/-- What clears did, after `w` was released. -/
def releasedFlags (s : DmaSys) (w : ℕ) : Flags :=
  { s.dma.flags with
    gaveUp := fun v => s.dma.gaveUp v || decide (v ∈ freedWith w (s.dma.wr w).headWr
      (s.dma.wr (s.dma.wr w).headWr).wrRefc)
    mappable := Function.update s.dma.mappable w true }

/-- What clears did, after write `w` was cleared. -/
def clearedFlags (s : DmaSys) (w : ℕ) (doReclaim : Bool) : Flags :=
  if (s.dma.wr (s.dma.wr w).headWr).wrRefc = 1 then
    { s.dma.flags with
      finished := Function.update s.dma.finished (s.dma.wr w).headWr true
      reclaimed := Function.update s.dma.reclaimed (s.dma.wr w).headWr
        (s.dma.reclaimed (s.dma.wr w).headWr || doReclaim) }
  else s.dma.flags

/-- A release, after the wait left the state `d`. -/
theorem flags_release {d : Dma} {n : ℤ} {w : ℕ} (hi : s.Inv) (hg : s.canClear .read w = true)
    (hl : Leaves w n s.dma d) (hd : d.flags = s.dma.flags) :
    (setMappable (putFetch giveUpFetch d w) w).flags = s.releasedFlags w := by
  obtain ⟨hw, hk, -⟩ := canClear_iff.mp hg
  obtain ⟨hlt, -, hkh⟩ := head_of_canClear hi.shape hg (by decide)
  have hhead : (d.wr w).headWr = (s.dma.wr w).headWr := congrArg Ties.headWr (hl.frees.ties w)
  have hno : (d.wr w).chainedOps = false := by
    by_contra hc
    have hc' : (s.dma.wr w).chainedOps = true := by
      have htie := (ties_eq_iff.mp (hl.frees.ties w)).2.2.2.2.2.2.2
      rw [← htie]
      simpa using hc
    have := (hi.shape.chain w hw hc').1
    rw [hk] at this
    cases this
  have heh : (d.wr (d.wr w).headWr).ehWr = none := by
    rw [hhead]
    exact (congrArg Ties.ehWr (hl.frees.ties _)).trans (hi.shape.read _ hlt hkh)
  have hput := flags_putFetch_giveUp hno heh
  rw [hhead, hl.frees.wrRefc] at hput
  have hmap : (putFetch giveUpFetch d w).mappable = s.dma.mappable := by
    have h := congrArg Flags.mappable (hput.trans (by rw [hd]))
    exact h
  have hset : (setMappable (putFetch giveUpFetch d w) w).flags =
      { (putFetch giveUpFetch d w).flags with
        mappable := Function.update (putFetch giveUpFetch d w).mappable w true } := rfl
  have hgave : d.gaveUp = s.dma.gaveUp := congrArg Flags.gaveUp hd
  rw [hset, hput, hmap, hd, hgave]
  rfl

/-- How a step changes what the clears did. -/
theorem flags_of_step (hi : s.Inv) (h : step s e = some s') :
    (∃ w, s.Releases e w ∧ s'.dma.flags = s.releasedFlags w) ∨
      (∃ w doReclaim, e = .clearWrite w doReclaim ∧ s.canClear .write w = true ∧
        (s.reclaim (s.dma.wr w).headWr).getD doReclaim = doReclaim ∧
        (opsWaitWrite s.dma w).isSome = true ∧
        s'.dma.flags = s.clearedFlags w doReclaim) ∨
      ((∀ w doReclaim, e ≠ .clearWrite w doReclaim) ∧ (∀ w, ¬ s.Releases e w) ∧
        s'.dma.flags = s.dma.flags) := by
  have hidle : (∀ w, e ≠ .clearRead w ∧ e ≠ .pollRead w) → ∀ w, ¬ s.Releases e w := by
    rintro hne w ⟨-, -, ⟨he, -⟩ | ⟨he, -⟩⟩
    · exact (hne w).1 he
    · exact (hne w).2 he
  cases e with
  | clearRead w =>
      simp only [step, Option.ite_none_right_eq_some, Bool.and_eq_true, Bool.not_eq_true'] at h
      obtain ⟨⟨hg, hunw⟩, h⟩ := h
      obtain ⟨d, hd, rfl⟩ := Option.map_eq_some_iff.mp h
      simp only [waitReadAsync, clearFetchingWorkRequest, waitRead, Option.map_map,
        Option.map_eq_some_iff] at hd
      obtain ⟨r, hr, rfl⟩ := hd
      have hrec := recorded_opsWaitRead hr
      refine Or.inl ⟨w, ⟨hg, hunw, Or.inl ⟨rfl, by rw [hr]; rfl⟩⟩, ?_⟩
      exact flags_release hi hg (leaves_endWait hrec w 1) (by rw [flags_endWait, flags_recorded hrec])
  | pollRead w =>
      simp only [step, Option.ite_none_right_eq_some, Option.some.injEq, Bool.and_eq_true,
        Bool.not_eq_true'] at h
      obtain ⟨⟨hg, hunw⟩, rfl⟩ := h
      have hrec := recorded_opsTryWaitRead (d := s.dma) (w := w) ⟨[], []⟩
      by_cases hzero : (opsTryWaitRead s.dma w ⟨[], []⟩).2 = 0
      · have hpoll : tryWaitReadAsync s.dma w ⟨[], []⟩ =
            ((opsTryWaitRead s.dma w ⟨[], []⟩).1, false) := by
          simp [tryWaitReadAsync, tryClearFetchingWorkRequest, tryWaitRead, hzero]
        refine Or.inr (Or.inr ⟨fun _ _ he => (by cases he), ?_, ?_⟩)
        · rintro v ⟨-, -, ⟨he, -⟩ | ⟨he, hnz⟩⟩
          · cases he
          · cases he
            exact hnz hzero
        · simp only [hpoll, Bool.false_eq_true, if_false]
          exact flags_recorded hrec
      · refine Or.inl ⟨w, ⟨hg, hunw, Or.inr ⟨rfl, hzero⟩⟩, ?_⟩
        by_cases hone : (opsTryWaitRead s.dma w ⟨[], []⟩).2 = 1
        · have hpoll : tryWaitReadAsync s.dma w ⟨[], []⟩ = (setMappable (putFetch giveUpFetch
              (endWait (opsTryWaitRead s.dma w ⟨[], []⟩).1 w 1) w) w, true) := by
            simp [tryWaitReadAsync, tryClearFetchingWorkRequest, tryWaitRead,
              putFetchingWorkRequest, hone]
          simp only [hpoll, if_true]
          exact flags_release hi hg (leaves_endWait hrec w 1)
            (by rw [flags_endWait, flags_recorded hrec])
        · have hpoll : tryWaitReadAsync s.dma w ⟨[], []⟩ = (setMappable (putFetch giveUpFetch
              (opsTryWaitRead s.dma w ⟨[], []⟩).1 w) w, true) := by
            simp [tryWaitReadAsync, tryClearFetchingWorkRequest, tryWaitRead,
              putFetchingWorkRequest, hzero, hone]
          simp only [hpoll, if_true]
          exact flags_release hi hg (leaves_recorded hrec w) (flags_recorded hrec)
  | clearWrite w doReclaim =>
      simp only [step, Option.ite_none_right_eq_some, Bool.and_eq_true, beq_iff_eq] at h
      obtain ⟨⟨hg, hrecl⟩, h⟩ := h
      obtain ⟨d, hd, rfl⟩ := Option.map_eq_some_iff.mp h
      simp only [clearWritebackWorkRequest, waitWrite, Option.map_map, Option.map_eq_some_iff] at hd
      obtain ⟨r, hr, rfl⟩ := hd
      have hrec := recorded_opsWaitWrite hr
      refine Or.inr (Or.inl ⟨w, doReclaim, rfl, hg, hrecl, by rw [hr]; rfl, ?_⟩)
      obtain ⟨d, hd⟩ : ∃ d, d = endWait r.1 w (s.dma.wr (s.dma.wr w).headWr).entangledWrLen :=
        ⟨_, rfl⟩
      have hflags : d.flags = s.dma.flags := by rw [hd, flags_endWait, flags_recorded hrec]
      have hl : Leaves w (s.dma.wr (s.dma.wr w).headWr).entangledWrLen s.dma d := by
        rw [hd]
        exact leaves_endWait hrec w _
      have hhead : (d.wr w).headWr = (s.dma.wr w).headWr := congrArg Ties.headWr (hl.frees.ties w)
      show (putWriteback (endWait r.1 w _) w doReclaim).flags = _
      rw [← hd, flags_putWriteback, hhead, hl.frees.wrRefc, hflags]
      have hfin : d.finished = s.dma.finished := congrArg Flags.finished hflags
      have hrcl : d.reclaimed = s.dma.reclaimed := congrArg Flags.reclaimed hflags
      rw [hfin, hrcl]
      rfl
  | cancelRead w =>
      refine Or.inr (Or.inr ⟨fun _ _ he => (by cases he), hidle fun v => ⟨by simp, by simp⟩, ?_⟩)
      simp only [step, Option.ite_none_right_eq_some] at h
      obtain ⟨-, h⟩ := h
      obtain ⟨d, hd, rfl⟩ := Option.map_eq_some_iff.mp h
      simp only [cancelReadAsync, waitRead, Option.map_map, Option.map_eq_some_iff] at hd
      obtain ⟨r, hr, rfl⟩ := hd
      show (putFetch freeWorkRequest (endWait r.1 w 1) w).flags = _
      rw [flags_putFetch_free, flags_endWait, flags_recorded (recorded_opsWaitRead hr)]
  | postRead place head errno =>
      refine Or.inr (Or.inr ⟨fun _ _ he => (by cases he), hidle fun v => ⟨by simp, by simp⟩, ?_⟩)
      simp only [step, Option.ite_none_right_eq_some, Option.some.injEq] at h
      obtain ⟨-, rfl⟩ := h
      exact flags_postRead s.dma place s.next head false errno
  | postWrite place head full errno =>
      refine Or.inr (Or.inr ⟨fun _ _ he => (by cases he), hidle fun v => ⟨by simp, by simp⟩, ?_⟩)
      simp only [step, Option.ite_none_right_eq_some, Option.some.injEq] at h
      obtain ⟨-, rfl⟩ := h
      have hpost := flags_postWrite s.dma place s.next head full errno
      simp only [stepPostWrite]
      split
      · exact (flags_linkEntangled _ _).trans hpost
      · split
        · exact hpost
        · exact hpost
  | endPosts k unwind =>
      refine Or.inr (Or.inr ⟨fun _ _ he => (by cases he), hidle fun v => ⟨by simp, by simp⟩, ?_⟩)
      simp only [step, Option.ite_none_right_eq_some, Option.some.injEq] at h
      obtain ⟨-, rfl⟩ := h
      simp only [stepEndPosts]
      split
      · exact flags_rdmaPostWorkReq s.dma k _ k _
      · rfl
  | signal m gpa c =>
      refine Or.inr (Or.inr ⟨fun _ _ he => (by cases he), hidle fun v => ⟨by simp, by simp⟩, ?_⟩)
      simp only [step, Option.some.injEq] at h
      subst h
      rfl
  | signalDone w n =>
      refine Or.inr (Or.inr ⟨fun _ _ he => (by cases he), hidle fun v => ⟨by simp, by simp⟩, ?_⟩)
      simp only [step, Option.ite_none_right_eq_some, Option.some.injEq] at h
      obtain ⟨-, rfl⟩ := h
      rfl
  | complete w ok =>
      refine Or.inr (Or.inr ⟨fun _ _ he => (by cases he), hidle fun v => ⟨by simp, by simp⟩, ?_⟩)
      simp only [step, Option.ite_none_right_eq_some, Option.some.injEq] at h
      obtain ⟨-, rfl⟩ := h
      simp only [stepComplete]
      split
      · exact flags_recorded (recorded_handleRdmaWrite s.dma w ok)
      · exact flags_recorded (recorded_handleRdmaRead s.dma w ok)
  | arrive w differs =>
      refine Or.inr (Or.inr ⟨fun _ _ he => (by cases he), hidle fun v => ⟨by simp, by simp⟩, ?_⟩)
      simp only [step, Option.ite_none_right_eq_some, Option.some.injEq] at h
      obtain ⟨-, rfl⟩ := h
      rfl
  | endIo w errno =>
      refine Or.inr (Or.inr ⟨fun _ _ he => (by cases he), hidle fun v => ⟨by simp, by simp⟩, ?_⟩)
      simp only [step, Option.ite_none_right_eq_some, Option.some.injEq] at h
      obtain ⟨-, rfl⟩ := h
      exact flags_recorded (recorded_bdevEndIo s.dma w errno)

end DmaSys

end Emp
