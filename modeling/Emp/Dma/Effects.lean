import Emp.Dma.System
import Emp.Lib.Census

/-!
# What the operations do to the counts

Of a request's record the counts are about `live`, `wrRefc`, `remotePages` and the
`ties`, which are fixed by the post and, for a chain, by its end.  Each operation is
described once by what it does to these.

## Main definitions

* `WorkRequest.ties`, `SameTies` — the fixed part.
* `Frees` — some requests are freed and nothing else changes.
* `Adds` — a request is allocated and posted.
-/

namespace Emp

/-- What a request is tied to. -/
structure Ties where
  dmaOps : DmaOps
  memreg : ℕ
  mrid : ℕ
  context : ℕ
  headWr : ℕ
  ehWr : Option ℕ
  entangledWrLen : ℤ
  chainedOps : Bool

def WorkRequest.ties (r : WorkRequest) : Ties :=
  ⟨r.dmaOps, r.memreg, r.mrid, r.context, r.headWr, r.ehWr, r.entangledWrLen, r.chainedOps⟩

theorem ties_eq_iff {r r' : WorkRequest} : r.ties = r'.ties ↔ r.dmaOps = r'.dmaOps ∧
    r.memreg = r'.memreg ∧ r.mrid = r'.mrid ∧ r.context = r'.context ∧ r.headWr = r'.headWr ∧
    r.ehWr = r'.ehWr ∧ r.entangledWrLen = r'.entangledWrLen ∧ r.chainedOps = r'.chainedOps := by
  simp only [WorkRequest.ties, Ties.mk.injEq]

/-- What a request records of its transfer. -/
structure Marks where
  state : WrState
  errno : ℕ
  waitDone : Bool
  arrived : Option Bool

def WorkRequest.marks (r : WorkRequest) : Marks := ⟨r.state, r.errno, r.waitDone, r.arrived⟩

theorem marks_eq_iff {r r' : WorkRequest} : r.marks = r'.marks ↔ r.state = r'.state ∧
    r.errno = r'.errno ∧ r.waitDone = r'.waitDone ∧ r.arrived = r'.arrived := by
  simp only [WorkRequest.marks, Marks.mk.injEq]

/-- The requests `l` are freed; records keep all else that the counts are about. -/
structure Frees (l : List ℕ) (d d' : Dma) : Prop where
  ties : ∀ v, (d'.wr v).ties = (d.wr v).ties
  wrRefc : ∀ v, (d'.wr v).wrRefc = (d.wr v).wrRefc
  live : ∀ v, (d'.wr v).live = ((d.wr v).live && decide (v ∉ l))
  mrWrLen : ∀ m, d'.mrWrLen m = d.mrWrLen m - l.countP fun v => (d.wr v).mrid == m

namespace Frees

variable {d d' d'' : Dma} {l l' : List ℕ} {w : ℕ}

theorem refl (d : Dma) : Frees [] d d :=
  ⟨fun _ => rfl, fun _ => rfl, fun _ => by simp, fun _ => by simp⟩

theorem mrid (h : Frees l d d') (v : ℕ) : (d'.wr v).mrid = (d.wr v).mrid :=
  congrArg Ties.mrid (h.ties v)

theorem trans (h : Frees l d d') (h' : Frees l' d' d'') : Frees (l ++ l') d d'' := by
  refine ⟨fun v => (h'.ties v).trans (h.ties v), fun v => (h'.wrRefc v).trans (h.wrRefc v), ?_, ?_⟩
  · intro v
    rw [h'.live, h.live]
    by_cases hl : v ∈ l <;> by_cases hl' : v ∈ l' <;> simp [hl, hl']
  · intro m
    simp only [h'.mrWrLen, h.mrWrLen, h.mrid, List.countP_append]
    omega

theorem of_recorded (h : d.Recorded d') : Frees [] d d' := by
  refine ⟨?_, ?_, ?_, ?_⟩
  · intro v
    obtain ⟨st, e, b, hv⟩ := h.wr v
    rw [hv]
    rfl
  · intro v
    obtain ⟨st, e, b, hv⟩ := h.wr v
    rw [hv]
  · intro v
    obtain ⟨st, e, b, hv⟩ := h.wr v
    simp [hv]
  · intro m
    simp [h.mrWrLen]

theorem freeWorkRequest (d : Dma) (w : ℕ) : Frees [w] d (freeWorkRequest d w) := by
  refine ⟨?_, ?_, ?_, ?_⟩
  · intro v
    by_cases hv : v = w <;> simp [Emp.freeWorkRequest, hv, WorkRequest.ties]
  · intro v
    by_cases hv : v = w <;> simp [Emp.freeWorkRequest, hv]
  · intro v
    by_cases hv : v = w <;> simp [Emp.freeWorkRequest, hv]
  · intro m
    by_cases hm : m = (d.wr w).mrid
    · simp [Emp.freeWorkRequest, hm]
    · simp [Emp.freeWorkRequest, hm, Ne.symm hm]

theorem giveUpFetch (d : Dma) (w : ℕ) : Frees [w] d (giveUpFetch d w) := by
  have hsame : Frees [] d { d with gaveUp := Function.update d.gaveUp w true } :=
    ⟨fun _ => rfl, fun _ => rfl, fun _ => by simp, fun _ => by simp⟩
  exact hsame.trans (freeWorkRequest _ w)

/-- A list of requests is freed one by one. -/
theorem foldl (l : List ℕ) (d : Dma) : Frees l d (l.foldl Emp.freeWorkRequest d) := by
  induction l generalizing d with
  | nil => exact refl d
  | cons w l ih => exact (freeWorkRequest d w).trans (ih _)

theorem setMappable (d : Dma) (w : ℕ) : Frees [] d (setMappable d w) :=
  ⟨fun _ => rfl, fun _ => rfl, fun _ => by simp [Emp.setMappable], fun _ => by simp [Emp.setMappable]⟩

theorem endWait (d : Dma) (w : ℕ) (n : ℤ) : Frees [] d (endWait d w n) := by
  simp only [Emp.endWait, destroyLocalPage]
  split
  · refine ⟨?_, ?_, ?_, ?_⟩
    · intro v
      by_cases hv : v = w <;> simp [Dma.addWrLen, hv, WorkRequest.ties]
    · intro v
      by_cases hv : v = w <;> simp [Dma.addWrLen, hv]
    · intro v
      by_cases hv : v = w <;> simp [Dma.addWrLen, hv]
    · intro m
      simp [Dma.addWrLen]
  · exact ⟨fun _ => rfl, fun _ => rfl, fun _ => by simp [Dma.addWrLen],
      fun _ => by simp [Dma.addWrLen]⟩

end Frees

/-! ## Remote pages, marks and contexts -/

theorem remotePages_recorded {d d' : Dma} (h : d.Recorded d') (v : ℕ) :
    (d'.wr v).remotePages = (d.wr v).remotePages := by
  obtain ⟨st, e, b, hv⟩ := h.wr v
  rw [hv]

@[simp] theorem remotePages_endWait (d : Dma) (w v : ℕ) (n : ℤ) :
    ((endWait d w n).wr v).remotePages = (d.wr v).remotePages := by
  simp only [endWait, destroyLocalPage]
  split
  · by_cases hv : v = w <;> simp [Dma.addWrLen, hv]
  · rfl

@[simp] theorem remotePages_freeWorkRequest (d : Dma) (w v : ℕ) :
    ((freeWorkRequest d w).wr v).remotePages = (d.wr v).remotePages := by
  by_cases hv : v = w <;> simp [freeWorkRequest, hv]

@[simp] theorem remotePages_addRefc (d : Dma) (w v : ℕ) (n : ℤ) :
    ((d.addRefc w n).wr v).remotePages = (d.wr v).remotePages := by
  obtain ⟨m, hm⟩ := d.wr_addRefc w v n
  rw [hm]

@[simp] theorem marks_endWait (d : Dma) (w v : ℕ) (n : ℤ) :
    ((endWait d w n).wr v).marks = (d.wr v).marks := by
  simp only [endWait, destroyLocalPage]
  split
  · by_cases hv : v = w <;> simp [Dma.addWrLen, hv, WorkRequest.marks]
  · rfl

@[simp] theorem marks_freeWorkRequest (d : Dma) (w v : ℕ) :
    ((freeWorkRequest d w).wr v).marks = (d.wr v).marks := by
  by_cases hv : v = w <;> simp [freeWorkRequest, hv, WorkRequest.marks]

@[simp] theorem marks_addRefc (d : Dma) (w v : ℕ) (n : ℤ) :
    ((d.addRefc w n).wr v).marks = (d.wr v).marks := by
  obtain ⟨m, hm⟩ := d.wr_addRefc w v n
  rw [hm]
  rfl

theorem marks_setPages (d : Dma) (h v : ℕ) (pages : List ℕ) :
    ((d.setWr h { d.wr h with remotePages := pages }).wr v).marks = (d.wr v).marks := by
  by_cases hv : v = h <;> simp [hv, WorkRequest.marks]

theorem marks_foldl_free (l : List ℕ) (d : Dma) (v : ℕ) :
    ((l.foldl freeWorkRequest d).wr v).marks = (d.wr v).marks := by
  induction l generalizing d with
  | nil => rfl
  | cons w l ih => rw [List.foldl_cons, ih, marks_freeWorkRequest]

@[simp] theorem context_freeWorkRequest (d : Dma) (w : ℕ) :
    (freeWorkRequest d w).context = d.context := rfl

@[simp] theorem context_addRefc (d : Dma) (w : ℕ) (n : ℤ) : (d.addRefc w n).context = d.context :=
  rfl

theorem context_foldl_free (l : List ℕ) (d : Dma) :
    (l.foldl freeWorkRequest d).context = d.context := by
  induction l generalizing d with
  | nil => rfl
  | cons w l ih => exact ih _

/-! ## Clearing a read -/

/-- What is freed with request `w` of a block with head `h` whose count was `refc`. -/
def freedWith (w h : ℕ) (refc : ℤ) : List ℕ :=
  (if w = h then [] else [w]) ++ if refc = 1 then [h] else []

theorem mem_freedWith {w h v : ℕ} {refc : ℤ} :
    v ∈ freedWith w h refc ↔ v = w ∧ w ≠ h ∨ v = h ∧ refc = 1 := by
  by_cases hwh : w = h <;> by_cases hone : refc = 1 <;> simp [freedWith, hwh, hone]

theorem nodup_freedWith {w h : ℕ} {refc : ℤ} : (freedWith w h refc).Nodup := by
  by_cases hwh : w = h <;> by_cases hone : refc = 1 <;> simp [freedWith, hwh, hone]

/-- One reference of head `h` is dropped. -/
structure Puts (w h : ℕ) (l : List ℕ) (d d' : Dma) : Prop where
  ties : ∀ v, (d'.wr v).ties = (d.wr v).ties
  wrRefc : ∀ v, (d'.wr v).wrRefc = (d.wr v).wrRefc - if v = h then 1 else 0
  live : ∀ v, (d'.wr v).live = ((d.wr v).live && decide (v ∉ l))
  mrWrLen : ∀ m, d'.mrWrLen m = d.mrWrLen m - l.countP fun v => (d.wr v).mrid == m

theorem Puts.of_frees {w h : ℕ} {l l' : List ℕ} {d d₁ d₂ d' : Dma} (hl : Frees l d d₁)
    (hput : d₂ = d₁.addRefc h (-1)) (hl' : Frees l' d₂ d') : Puts w h (l ++ l') d d' := by
  have hrec : ∀ v, (d₂.wr v).ties = (d₁.wr v).ties ∧ (d₂.wr v).live = (d₁.wr v).live ∧
      (d₂.wr v).wrRefc = (d₁.wr v).wrRefc - if v = h then 1 else 0 := by
    intro v
    subst hput
    by_cases hv : v = h
    · subst hv
      rw [Dma.wr_addRefc_self]
      exact ⟨rfl, rfl, by simp; omega⟩
    · rw [Dma.wr_addRefc_of_ne _ hv]
      exact ⟨rfl, rfl, by simp [hv]⟩
  refine ⟨?_, ?_, ?_, ?_⟩
  · intro v
    rw [hl'.ties, (hrec v).1, hl.ties]
  · intro v
    rw [hl'.wrRefc, (hrec v).2.2, hl.wrRefc]
  · intro v
    rw [hl'.live, (hrec v).2.1, hl.live]
    by_cases h₁ : v ∈ l <;> by_cases h₂ : v ∈ l' <;> simp [h₁, h₂]
  · intro m
    have hmrid : ∀ v, (d₂.wr v).mrid = (d.wr v).mrid := fun v =>
      (congrArg Ties.mrid (hrec v).1).trans (hl.mrid v)
    have hmr : d₂.mrWrLen = d₁.mrWrLen := by rw [hput]; rfl
    simp only [hl'.mrWrLen, hmr, hl.mrWrLen, hmrid, List.countP_append]
    omega

/-- Clearing or cancelling an independent read. -/
theorem puts_putFetch {release : Dma → ℕ → Dma} (hrel : ∀ d w, Frees [w] d (release d w))
    {d : Dma} {w : ℕ} (hchain : (d.wr w).chainedOps = false)
    (heh : (d.wr (d.wr w).headWr).ehWr = none) :
    Puts w (d.wr w).headWr (freedWith w (d.wr w).headWr (d.wr (d.wr w).headWr).wrRefc) d
      (putFetch release d w) := by
  have hfree : Frees (if w = (d.wr w).headWr then [] else [w]) d
      (if releasedAlone d w then release d w else d) := by
    by_cases hw : w = (d.wr w).headWr
    · have hno : releasedAlone d w = false := by simp [releasedAlone, ← hw]
      simp only [if_pos hw, hno]
      exact Frees.refl d
    · have hyes : releasedAlone d w = true := by simp [releasedAlone, hw, hchain]
      simp only [if_neg hw, hyes, if_true]
      exact hrel d w
  simp only [putFetch]
  generalize hd₁ : (if releasedAlone d w then release d w else d) = d₁ at hfree ⊢
  have hrefc : ((d₁.addRefc (d.wr w).headWr (-1)).wr (d.wr w).headWr).wrRefc =
      (d.wr (d.wr w).headWr).wrRefc - 1 := by
    rw [Dma.wr_addRefc_self, ← hfree.wrRefc]
    simp only
    omega
  have heh' : ((d₁.addRefc (d.wr w).headWr (-1)).wr (d.wr w).headWr).ehWr = none := by
    rw [Dma.wr_addRefc_self, ← heh]
    exact congrArg Ties.ehWr (hfree.ties _)
  simp only [hrefc, heh']
  by_cases hone : (d.wr (d.wr w).headWr).wrRefc = 1
  · rw [if_pos (by omega)]
    simp only [freedWith, if_pos hone]
    exact Puts.of_frees hfree rfl (hrel _ _)
  · rw [if_neg (by omega)]
    simp only [freedWith, if_neg hone]
    exact Puts.of_frees hfree rfl (Frees.refl _)

theorem Puts.comp {w h : ℕ} {l : List ℕ} {d d₀ d₁ d' : Dma} (h₀ : Frees [] d d₀)
    (hp : Puts w h l d₀ d₁) (h₁ : Frees [] d₁ d') : Puts w h l d d' := by
  refine ⟨?_, ?_, ?_, ?_⟩
  · intro v
    rw [h₁.ties, hp.ties, h₀.ties]
  · intro v
    rw [h₁.wrRefc, hp.wrRefc, h₀.wrRefc]
  · intro v
    rw [h₁.live, hp.live, h₀.live]
    simp
  · intro m
    simp [h₁.mrWrLen, hp.mrWrLen, h₀.mrWrLen, h₀.mrid]

/-! ## The waits -/

section Wait

variable {d d' : Dma} {w : ℕ} {r : Dma × ℤ}

theorem recorded_opsWaitRead (h : opsWaitRead d w = some r) : d.Recorded r.1 := by
  simp only [opsWaitRead] at h
  split at h
  · simp only [Option.map_eq_some_iff] at h
    obtain ⟨ret, -, rfl⟩ := h
    by_cases hret : ret = 0
    · simpa [hret] using recorded_keepMarker d w
    · simpa [hret] using Dma.Recorded.refl d
  · simp only [empBdevWaitRw] at h
    split at h
    · split at h <;> cases h
      · exact Dma.Recorded.refl d
      · exact Dma.Recorded.setState d w .ready
    · cases h
  · cases h
    exact Dma.Recorded.refl d

theorem recorded_opsWaitWrite (h : opsWaitWrite d w = some r) : d.Recorded r.1 := by
  simp only [opsWaitWrite] at h
  split at h
  · simp only [Option.map_eq_some_iff] at h
    obtain ⟨ret, -, rfl⟩ := h
    exact Dma.Recorded.refl d
  · simp only [empBdevWaitRw] at h
    split at h
    · split at h <;> cases h
      · exact Dma.Recorded.refl d
      · exact Dma.Recorded.setState d w .ready
    · cases h
  · cases h
    exact Dma.Recorded.refl d

theorem recorded_opsTryWaitRead (found : Found) : d.Recorded (opsTryWaitRead d w found).1 := by
  simp only [opsTryWaitRead]
  split
  · simp only [rdmaTryWaitRead]
    split
    · exact recorded_keepMarker d w
    · split
      · exact Dma.Recorded.refl d
      · split
        · exact (recorded_empProcessCq d _).trans (recorded_keepMarker _ w)
        · exact recorded_empProcessCq d _
  · simp only [empBdevTryWaitRw]
    split
    · exact (recorded_empWrBlkPoll d _).trans (Dma.Recorded.setState _ w .ready)
    · exact recorded_empWrBlkPoll d _
  · exact Dma.Recorded.refl d

end Wait

/-- What a request's clear leaves of its wait: the reference dropped, and `n` requests
taken off the context. -/
structure Clears (w h : ℕ) (n : ℤ) (l : List ℕ) (d d' : Dma) : Prop extends Puts w h l d d' where
  wrLen : ∀ c, (d'.context c).wrLen = (d.context c).wrLen - if (d.wr w).context = c then n else 0
  same : ∀ c, (d'.context c).chainedOps = (d.context c).chainedOps

theorem context_endWait {d d₁ : Dma} (hr : d.Recorded d₁) (w c : ℕ) (n : ℤ) :
    ((endWait d₁ w n).context c).wrLen =
        (d.context c).wrLen - (if (d.wr w).context = c then n else 0) ∧
      ((endWait d₁ w n).context c).chainedOps = (d.context c).chainedOps := by
  obtain ⟨st, e, b, hw⟩ := hr.wr w
  obtain ⟨m, hc⟩ := hr.context c
  have hctx : (d₁.wr w).context = (d.wr w).context := by rw [hw]
  simp only [endWait, destroyLocalPage, Dma.addWrLen, hctx]
  by_cases h : (d.wr w).context = c
  · subst h
    split <;> simp [hc] <;> omega
  · split <;> simp [Ne.symm h, hc]

theorem context_putFetch {release : Dma → ℕ → Dma} (hrel : ∀ d w, (release d w).context = d.context)
    (d : Dma) (w : ℕ) : (putFetch release d w).context = d.context := by
  have hfree : (if releasedAlone d w then release d w else d).context = d.context := by
    split
    · exact hrel d w
    · rfl
  simp only [putFetch]
  generalize (if releasedAlone d w then release d w else d) = d₁ at hfree ⊢
  split
  · split
    · rw [hrel, hrel, context_addRefc, hfree]
    · rw [hrel, context_addRefc, hfree]
  · exact hfree

theorem remotePages_putFetch {release : Dma → ℕ → Dma}
    (hrel : ∀ d w v, ((release d w).wr v).remotePages = (d.wr v).remotePages)
    (d : Dma) (w v : ℕ) : ((putFetch release d w).wr v).remotePages = (d.wr v).remotePages := by
  have hfree : ((if releasedAlone d w then release d w else d).wr v).remotePages =
      (d.wr v).remotePages := by
    split
    · exact hrel d w v
    · rfl
  simp only [putFetch]
  generalize (if releasedAlone d w then release d w else d) = d₁ at hfree ⊢
  split
  · split
    · rw [hrel, hrel, remotePages_addRefc, hfree]
    · rw [hrel, remotePages_addRefc, hfree]
  · rw [remotePages_addRefc, hfree]

theorem marks_putFetch {release : Dma → ℕ → Dma}
    (hrel : ∀ d w v, ((release d w).wr v).marks = (d.wr v).marks)
    (d : Dma) (w v : ℕ) : ((putFetch release d w).wr v).marks = (d.wr v).marks := by
  have hfree : ((if releasedAlone d w then release d w else d).wr v).marks = (d.wr v).marks := by
    split
    · exact hrel d w v
    · rfl
  simp only [putFetch]
  generalize (if releasedAlone d w then release d w else d) = d₁ at hfree ⊢
  split
  · split
    · rw [hrel, hrel, marks_addRefc, hfree]
    · rw [hrel, marks_addRefc, hfree]
  · rw [marks_addRefc, hfree]

/-- What a wait for `w` that takes `n` requests off its context leaves of the records. -/
structure Leaves (w : ℕ) (n : ℤ) (d d' : Dma) : Prop where
  frees : Frees [] d d'
  wrLen : ∀ c, (d'.context c).wrLen = (d.context c).wrLen - if (d.wr w).context = c then n else 0
  same : ∀ c, (d'.context c).chainedOps = (d.context c).chainedOps
  pages : ∀ v, (d'.wr v).remotePages = (d.wr v).remotePages

theorem leaves_endWait {d d₁ : Dma} (hr : d.Recorded d₁) (w : ℕ) (n : ℤ) :
    Leaves w n d (endWait d₁ w n) := by
  refine ⟨(Frees.of_recorded hr).trans (Frees.endWait d₁ w n),
    fun c => (context_endWait hr w c n).1, fun c => (context_endWait hr w c n).2, ?_⟩
  intro v
  rw [remotePages_endWait, remotePages_recorded hr]

theorem leaves_recorded {d d₁ : Dma} (hr : d.Recorded d₁) (w : ℕ) : Leaves w 0 d d₁ := by
  refine ⟨Frees.of_recorded hr, ?_, ?_, remotePages_recorded hr⟩
  · intro c
    obtain ⟨m, hm⟩ := hr.context c
    simp [hm]
  · intro c
    obtain ⟨m, hm⟩ := hr.context c
    simp [hm]

/-- A read is cleared or cancelled. -/
theorem clears_putFetch {release : Dma → ℕ → Dma} (hrel : ∀ d w, Frees [w] d (release d w))
    (hctx : ∀ d w, (release d w).context = d.context) {d d₁ : Dma} {w : ℕ} {n : ℤ}
    (hl : Leaves w n d d₁)
    (hchain : (d.wr w).chainedOps = false) (heh : (d.wr (d.wr w).headWr).ehWr = none) :
    Clears w (d.wr w).headWr n (freedWith w (d.wr w).headWr (d.wr (d.wr w).headWr).wrRefc) d
      (putFetch release d₁ w) := by
  have hf := hl.frees
  have hhead : (d₁.wr w).headWr = (d.wr w).headWr := congrArg Ties.headWr (hf.ties w)
  have hput := puts_putFetch hrel (d := d₁) (w := w)
    ((congrArg Ties.chainedOps (hf.ties w)).trans hchain)
    (by rw [hhead]; exact (congrArg Ties.ehWr (hf.ties _)).trans heh)
  rw [hhead, hf.wrRefc] at hput
  refine ⟨Puts.comp hf hput (Frees.refl _), ?_, ?_⟩
  · intro c
    rw [context_putFetch hctx]
    exact hl.wrLen c
  · intro c
    rw [context_putFetch hctx]
    exact hl.same c

theorem clears_setMappable {w h v : ℕ} {n : ℤ} {l : List ℕ} {d d' : Dma} (hc : Clears w h n l d d') :
    Clears w h n l d (setMappable d' v) :=
  ⟨Puts.comp (Frees.refl d) hc.toPuts (Frees.setMappable d' v), hc.wrLen, hc.same⟩

/-! ## Clearing a write -/

/-- The requests queued on head `h` when `w` is cleared. -/
def queued (d : Dma) (w : ℕ) : List ℕ :=
  (d.wr (d.wr w).headWr).remotePages ++
    if (d.wr w).chainedOps = false ∧ w ≠ (d.wr w).headWr then [w] else []

/-- What a write's clear does, besides. -/
structure Queues (w : ℕ) (d d' : Dma) : Prop where
  head : (d.wr (d.wr w).headWr).wrRefc ≠ 1 →
    (d'.wr (d.wr w).headWr).remotePages = queued d w
  other : ∀ v, v ≠ (d.wr w).headWr → (d'.wr v).remotePages = (d.wr v).remotePages

/-- The head's queue is written, and nothing else. -/
theorem frees_setPages (d : Dma) (h : ℕ) (pages : List ℕ) :
    Frees [] d (d.setWr h { d.wr h with remotePages := pages }) := by
  refine ⟨?_, ?_, ?_, fun m => by simp⟩
  · intro v
    by_cases hv : v = h <;> simp [hv, WorkRequest.ties]
  · intro v
    by_cases hv : v = h <;> simp [hv]
  · intro v
    by_cases hv : v = h <;> simp [hv]

theorem frees_freeWorkRequests (d : Dma) (h : ℕ) :
    Frees ((d.wr h).remotePages ++ [h]) d (freeWorkRequests d h) := by
  have hrun := (frees_setPages d h []).trans (Frees.foldl (d.wr h).remotePages _)
  exact hrun.trans (Frees.freeWorkRequest _ h)

theorem remotePages_foldl_free (l : List ℕ) (d : Dma) (v : ℕ) :
    ((l.foldl freeWorkRequest d).wr v).remotePages = (d.wr v).remotePages := by
  induction l generalizing d with
  | nil => rfl
  | cons w l ih => rw [List.foldl_cons, ih, remotePages_freeWorkRequest]

/-- The queueing of `clear_writeback_work_request`. -/
theorem queue_eq (d : Dma) (w : ℕ) :
    (if !(d.wr w).chainedOps && w ≠ (d.wr w).headWr then
      d.setWr (d.wr w).headWr { d.wr (d.wr w).headWr with
        remotePages := (d.wr (d.wr w).headWr).remotePages ++ [w] } else d) =
      d.setWr (d.wr w).headWr { d.wr (d.wr w).headWr with remotePages := queued d w } := by
  by_cases h : (d.wr w).chainedOps = false ∧ w ≠ (d.wr w).headWr
  · simp [queued, h]
  · have hno : (!(d.wr w).chainedOps && decide (w ≠ (d.wr w).headWr)) = false := by
      rw [Bool.eq_false_iff]
      intro hc
      exact h (by simpa using hc)
    simp only [hno, queued, if_neg h, List.append_nil]
    simp [Dma.setWr]

theorem puts_putWriteback (d : Dma) (w : ℕ) (doReclaim : Bool) :
    Puts w (d.wr w).headWr
        (if (d.wr (d.wr w).headWr).wrRefc = 1 then queued d w ++ [(d.wr w).headWr] else [])
        d (putWriteback d w doReclaim) ∧
      Queues w d (putWriteback d w doReclaim) ∧
      (putWriteback d w doReclaim).context = d.context := by
  have hset := frees_setPages d (d.wr w).headWr (queued d w)
  have hself : ((d.setWr (d.wr w).headWr
      { d.wr (d.wr w).headWr with remotePages := queued d w }).wr (d.wr w).headWr).remotePages =
        queued d w := by
    simp
  have hother : ∀ v, v ≠ (d.wr w).headWr → ((d.setWr (d.wr w).headWr
      { d.wr (d.wr w).headWr with remotePages := queued d w }).wr v).remotePages =
        (d.wr v).remotePages := by
    intro v hv
    simp [hv]
  have hctx : (d.setWr (d.wr w).headWr
      { d.wr (d.wr w).headWr with remotePages := queued d w }).context = d.context := rfl
  simp only [putWriteback, queue_eq]
  generalize d.setWr (d.wr w).headWr { d.wr (d.wr w).headWr with remotePages := queued d w } = d₁
    at hset hself hother hctx ⊢
  have hrefc : ((d₁.addRefc (d.wr w).headWr (-1)).wr (d.wr w).headWr).wrRefc =
      (d.wr (d.wr w).headWr).wrRefc - 1 := by
    rw [Dma.wr_addRefc_self, ← hset.wrRefc]
    simp only
    omega
  simp only [hrefc]
  by_cases hone : (d.wr (d.wr w).headWr).wrRefc = 1
  · rw [if_pos hone, if_pos (by omega)]
    obtain ⟨d₃, hd₃⟩ : ∃ d₃ : Dma, d₃ = { d₁.addRefc (d.wr w).headWr (-1) with
        finished := Function.update (d₁.addRefc (d.wr w).headWr (-1)).finished (d.wr w).headWr true
        reclaimed := Function.update (d₁.addRefc (d.wr w).headWr (-1)).reclaimed (d.wr w).headWr
          ((d₁.addRefc (d.wr w).headWr (-1)).reclaimed (d.wr w).headWr || doReclaim) } := ⟨_, rfl⟩
    have hwr : d₃.wr = (d₁.addRefc (d.wr w).headWr (-1)).wr := by rw [hd₃]
    have hsame : Frees [] (d₁.addRefc (d.wr w).headWr (-1)) d₃ :=
      ⟨fun v => by rw [hwr], fun v => by rw [hwr], fun v => by simp [hwr],
        fun m => by simp [hd₃]⟩
    have hpages : (d₃.wr (d.wr w).headWr).remotePages = queued d w := by
      rw [hwr, remotePages_addRefc, hself]
    have hfree := hsame.trans (frees_freeWorkRequests d₃ (d.wr w).headWr)
    rw [hpages, List.nil_append] at hfree
    rw [← hd₃]
    refine ⟨?_, ⟨fun h => absurd hone h, ?_⟩, ?_⟩
    · have hput := Puts.of_frees (w := w) hset rfl hfree
      exact hput
    · intro v hv
      simp only [freeWorkRequests, remotePages_freeWorkRequest, remotePages_foldl_free,
        Dma.wr_setWr, Function.update_of_ne hv]
      rw [hwr, remotePages_addRefc, hother v hv]
    · simp only [freeWorkRequests, context_freeWorkRequest, context_foldl_free,
        Dma.context_setWr]
      rw [hd₃]
      exact hctx
  · rw [if_neg hone, if_neg (by omega)]
    refine ⟨Puts.of_frees (l := []) hset rfl (Frees.refl _), ⟨?_, ?_⟩, hctx⟩
    · intro _
      rw [remotePages_addRefc, hself]
    · intro v hv
      rw [remotePages_addRefc, hother v hv]

theorem marks_putWriteback (d : Dma) (w v : ℕ) (doReclaim : Bool) :
    ((putWriteback d w doReclaim).wr v).marks = (d.wr v).marks := by
  have hset : ((d.setWr (d.wr w).headWr
      { d.wr (d.wr w).headWr with remotePages := queued d w }).wr v).marks = (d.wr v).marks :=
    marks_setPages d _ v _
  simp only [putWriteback, queue_eq]
  generalize d.setWr (d.wr w).headWr { d.wr (d.wr w).headWr with remotePages := queued d w } = d₁
    at hset ⊢
  split
  · simp only [freeWorkRequests, marks_freeWorkRequest, marks_foldl_free]
    rw [marks_setPages]
    exact (marks_addRefc d₁ _ v _).trans hset
  · exact (marks_addRefc d₁ _ v _).trans hset

/-- A write is cleared. -/
theorem clears_putWriteback {d d₁ : Dma} {w : ℕ} (hr : d.Recorded d₁) (n : ℤ) (doReclaim : Bool) :
    Clears w (d.wr w).headWr n
        (if (d.wr (d.wr w).headWr).wrRefc = 1 then queued d w ++ [(d.wr w).headWr] else [])
        d (putWriteback (endWait d₁ w n) w doReclaim) ∧
      Queues w d (putWriteback (endWait d₁ w n) w doReclaim) := by
  have hf : Frees [] d (endWait d₁ w n) := (Frees.of_recorded hr).trans (Frees.endWait d₁ w n)
  have hhead : ((endWait d₁ w n).wr w).headWr = (d.wr w).headWr := congrArg Ties.headWr (hf.ties w)
  have hchain : ((endWait d₁ w n).wr w).chainedOps = (d.wr w).chainedOps :=
    congrArg Ties.chainedOps (hf.ties w)
  have hpages : ∀ v, ((endWait d₁ w n).wr v).remotePages = (d.wr v).remotePages := by
    intro v
    rw [remotePages_endWait, remotePages_recorded hr]
  have hqueued : queued (endWait d₁ w n) w = queued d w := by
    simp only [queued, hhead, hpages, hchain]
  obtain ⟨hput, hqueue, hctx⟩ := puts_putWriteback (endWait d₁ w n) w doReclaim
  rw [hhead, hf.wrRefc, hqueued] at hput
  refine ⟨⟨Puts.comp hf hput (Frees.refl _), ?_, ?_⟩, ⟨?_, ?_⟩⟩
  · intro c
    rw [hctx]
    exact (context_endWait hr w c n).1
  · intro c
    rw [hctx]
    exact (context_endWait hr w c n).2
  · have h := hqueue.head
    rw [hhead, hf.wrRefc, hqueued] at h
    exact h
  · intro v hv
    rw [hqueue.other v (by rw [hhead]; exact hv), hpages]

/-! ## Posts -/

/-- The record of a request `w` posted at `place` in the block of head `h`. -/
structure PostedAs (kind : Kind) (place : Place) (h : ℕ) (chained : Bool) (errno : ℕ)
    (r : WorkRequest) : Prop where
  live : r.live = true
  dmaOps : r.dmaOps = place.ops
  memreg : r.memreg = place.memreg
  mrid : r.mrid = place.mrid
  context : r.context = place.context
  headWr : r.headWr = h
  chainedOps : r.chainedOps = chained
  ehWr : kind = .read → r.ehWr = none
  length : chained = false → r.entangledWrLen = 1
  rdma : place.ops = .rdma → r.state = if kind = .write then .postWrite else .postRead
  nvme : place.ops = .nvme → r.waitDone = false
  memdev : place.ops = .memdev → r.errno = errno

theorem PostedAs.setRefc {kind : Kind} {place : Place} {h errno : ℕ} {chained : Bool}
    {r : WorkRequest} (hr : PostedAs kind place h chained errno r) (n : ℤ) :
    PostedAs kind place h chained errno { r with wrRefc := n } :=
  ⟨hr.live, hr.dmaOps, hr.memreg, hr.mrid, hr.context, hr.headWr, hr.chainedOps, hr.ehWr, hr.length,
    hr.rdma, hr.nvme, hr.memdev⟩

/-- Request `w` is allocated and posted in the block of head `h`, and counted there
unless it is inside a chain. -/
structure Adds (kind : Kind) (place : Place) (w h : ℕ) (chained : Bool) (errno : ℕ)
    (d d' : Dma) : Prop where
  self : PostedAs kind place h chained errno (d'.wr w)
  selfArrived : (d'.wr w).arrived = (d.wr w).arrived
  marks : ∀ v, v ≠ w → (d'.wr v).marks = (d.wr v).marks
  selfRefc : (d'.wr w).wrRefc = if w = h then 1 else 0
  selfPages : (d'.wr w).remotePages = (d.wr w).remotePages
  ties : ∀ v, v ≠ w → (d'.wr v).ties = (d.wr v).ties
  live : ∀ v, v ≠ w → (d'.wr v).live = (d.wr v).live
  pages : ∀ v, v ≠ w → (d'.wr v).remotePages = (d.wr v).remotePages
  refc : ∀ v, v ≠ w →
    (d'.wr v).wrRefc = (d.wr v).wrRefc + if v = h ∧ chained = false then 1 else 0
  wrLen : ∀ c, (d'.context c).wrLen = (d.context c).wrLen + if place.context = c then 1 else 0
  same : ∀ c, (d'.context c).chainedOps = (d.context c).chainedOps
  mrWrLen : ∀ m, d'.mrWrLen m = d.mrWrLen m + if place.memreg = m then 1 else 0

section Post

variable {d d' : Dma} {place : Place} {w : ℕ}

theorem wr_preparePost (d : Dma) (place : Place) (w : ℕ) : ∃ sg m, (preparePost d place w).wr = Function.update d.wr w
    { d.wr w with
      live := true, dmaOps := place.ops, memreg := place.memreg, mrid := place.mrid,
      gpa := place.gpa, waitDone := (d.wr w).waitDone && place.ops != .nvme, signaled := sg,
      mapped := m } := by
  obtain ⟨m, hm⟩ := wr_setupLocalPage ((allocWorkRequest d place.ops w place.memreg place.mrid
    place.gpa).addWrLen place.context 1) w
  refine ⟨(d.wr w).signaled && place.ops != .rdma, m, ?_⟩
  rw [preparePost, hm]
  simp [Dma.addWrLen, allocWorkRequest]

theorem context_preparePost (c : ℕ) : (preparePost d place w).context c =
    { d.context c with
      wrLen := (d.context c).wrLen + (if place.context = c then 1 else 0) } := by
  rw [preparePost, context_setupLocalPage]
  by_cases hc : place.context = c
  · subst hc
    simp [Dma.addWrLen, allocWorkRequest]
  · simp [Dma.addWrLen, allocWorkRequest, hc, Ne.symm hc]

theorem mrWrLen_preparePost (m : ℕ) : (preparePost d place w).mrWrLen m =
    d.mrWrLen m + if place.memreg = m then 1 else 0 := by
  rw [preparePost, mrWrLen_setupLocalPage]
  by_cases hm : place.memreg = m
  · subst hm
    simp [Dma.addWrLen, allocWorkRequest]
  · simp [Dma.addWrLen, allocWorkRequest, hm, Ne.symm hm]

/-- A post writes the record of `w` and counts it on `h`. -/
theorem adds_of {kind : Kind} {h errno : ℕ} {chained : Bool} {r : WorkRequest}
    (hr : PostedAs kind place h chained errno r) (hzero : r.wrRefc = 0)
    (hpages : r.remotePages = (d.wr w).remotePages) (harrived : r.arrived = (d.wr w).arrived)
    (hwr : d'.wr = if w = h ∨ chained = false then
        (((preparePost d place w).setWr w r).addRefc h 1).wr
      else ((preparePost d place w).setWr w r).wr)
    (hlen : ∀ c, (d'.context c).wrLen = ((preparePost d place w).context c).wrLen)
    (hsame : ∀ c, (d'.context c).chainedOps = ((preparePost d place w).context c).chainedOps)
    (hmr : d'.mrWrLen = (preparePost d place w).mrWrLen) :
    Adds kind place w h chained errno d d' := by
  obtain ⟨sg, m, hprep⟩ := wr_preparePost d place w
  have hother : ∀ v, v ≠ w → (preparePost d place w).wr v = d.wr v := by
    intro v hv
    rw [hprep, Function.update_of_ne hv]
  have hself : d'.wr w = { r with wrRefc := if w = h then 1 else 0 } := by
    rw [hwr]
    by_cases hh : w = h
    · subst hh
      simp [Dma.addRefc, hzero]
    · by_cases hc : chained = false
      · simp [Dma.addRefc, hh, hc, ← hzero]
      · simp [hh, hc, ← hzero]
  have hrest : ∀ v, v ≠ w → d'.wr v = { d.wr v with
      wrRefc := (d.wr v).wrRefc + if v = h ∧ chained = false then 1 else 0 } := by
    intro v hv
    rw [hwr]
    by_cases hh : w = h
    · have hvh : v ≠ h := fun heq => hv (heq.trans hh.symm)
      simp [Dma.addRefc, hh, hvh]
      rw [hh] at hother
      exact hother v hvh
    · by_cases hc : chained = false
      · by_cases hvh : v = h
        · subst hvh
          simp [Dma.addRefc, hc, hv, hother v hv]
        · simp [Dma.addRefc, hc, hvh, hv, hother v hv]
      · simp [hh, hc, hv, hother v hv]
  refine ⟨?_, ?_, ?_, ?_, ?_, ?_, ?_, ?_, ?_, ?_, ?_, ?_⟩
  · rw [hself]
    exact hr.setRefc _
  · rw [hself]
    exact harrived
  · intro v hv
    rw [hrest v hv]
    rfl
  · rw [hself]
  · rw [hself]
    exact hpages
  · intro v hv
    rw [hrest v hv]
    rfl
  · intro v hv
    rw [hrest v hv]
  · intro v hv
    rw [hrest v hv]
  · intro v hv
    rw [hrest v hv]
  · intro c
    rw [hlen, context_preparePost]
  · intro c
    rw [hsame, context_preparePost]
  · intro m
    rw [hmr, mrWrLen_preparePost]

variable {head : Option ℕ} {errno : ℕ}

theorem wrLen_addPending (d : Dma) (c c' : ℕ) (n : ℤ) :
    ((d.addPending c n).context c').wrLen = (d.context c').wrLen ∧
      ((d.addPending c n).context c').chainedOps = (d.context c').chainedOps := by
  obtain ⟨m, hm⟩ := (Dma.Recorded.addPending d c n).context c'
  rw [hm]
  exact ⟨rfl, rfl⟩

theorem adds_postRead : Adds .read place w (head.getD w) false errno d
    (postRead d place w head false errno) := by
  obtain ⟨sg, m, hprep⟩ := wr_preparePost d place w
  cases hops : place.ops with
  | rdma =>
      simp only [postRead, hops]
      refine adds_of (r := postedRead (preparePost d place w) w place.context head false)
        ?_ rfl ?_ ?_ ?_ ?_ ?_ ?_
      · constructor <;> simp [postedRead, hprep, hops]
      · simp [postedRead, hprep]
      · simp [postedRead, hprep]
      · simp
      · intro c
        rw [context_rdmaPostRead]
        simp [(wrLen_addPending _ place.context c 1).1]
      · intro c
        rw [context_rdmaPostRead]
        simp [(wrLen_addPending _ place.context c 1).2]
      · rfl
  | nvme =>
      simp only [postRead, hops, empBdevPost]
      refine adds_of (r := empBdevPosted (preparePost d place w) w place.context head .postRead)
        ?_ rfl ?_ ?_ ?_ (fun _ => rfl) (fun _ => rfl) rfl
      · constructor <;> simp [empBdevPosted, hprep, hops]
      · simp [empBdevPosted, hprep]
      · simp [empBdevPosted, hprep]
      · simp
  | memdev =>
      simp only [postRead, hops, empMemdevPost]
      refine adds_of (r := empMemdevPosted (preparePost d place w) w place.context head .prFailed errno)
        ?_ rfl ?_ ?_ ?_ (fun _ => rfl) (fun _ => rfl) rfl
      · constructor <;> simp [empMemdevPosted, hprep, hops]
      · simp [empMemdevPosted, hprep]
      · simp [empMemdevPosted, hprep]
      · simp

/-- The flag that a write gets. -/
def writeChains (d : Dma) (place : Place) : Bool :=
  place.ops == .rdma && (d.context place.context).chainedOps

theorem postedAs_postedWrite (hops : place.ops = .rdma) :
    PostedAs .write place (head.getD w) (writeChains d place) errno
      (postedWrite (preparePost d place w) w place.context head) := by
  obtain ⟨sg, m, hprep⟩ := wr_preparePost d place w
  have hchain : ((preparePost d place w).context place.context).chainedOps =
      writeChains d place := by
    rw [context_preparePost]
    simp [writeChains, hops]
  constructor <;> simp [postedWrite, hprep, hchain, hops]

theorem adds_rdmaPostWrite (hops : place.ops = .rdma) (hne : head ≠ some w) :
    Adds .write place w (head.getD w) (writeChains d place) errno d
      (rdmaPostWrite (preparePost d place w) w place.context head false).1 := by
  obtain ⟨sg, m, hprep⟩ := wr_preparePost d place w
  have hchain : ((preparePost d place w).context place.context).chainedOps =
      writeChains d place := by
    rw [context_preparePost]
    simp [writeChains, hops]
  have hself : w = head.getD w ↔ head = none := by
    cases head with
    | none => simp
    | some h =>
        have hh : w ≠ h := fun heq => hne (by rw [heq])
        simp [hh]
  refine adds_of (postedAs_postedWrite hops) rfl ?_ ?_ ?_ ?_ ?_ (mrWrLen_rdmaPostWrite _ _ _ _)
  · simp [postedWrite, hprep]
  · simp [postedWrite, hprep]
  · rw [wr_rdmaPostWrite, hchain]
    simp only [hself, Option.isNone_iff_eq_none, Bool.or_eq_true, Bool.not_eq_true']
  · intro c
    rw [context_rdmaPostWrite]
    split
    · rfl
    · exact (wrLen_addPending _ place.context c 1).1
  · intro c
    rw [context_rdmaPostWrite]
    split
    · rfl
    · exact (wrLen_addPending _ place.context c 1).2

/-- A write is posted, or a full queue refuses it and it is freed again. -/
theorem postWrite_cases (d : Dma) (place : Place) (full : Bool) (errno : ℕ) (hne : head ≠ some w) :
    ((postWrite d place w head full errno).2 = some w ∧
        Adds .write place w (head.getD w) (writeChains d place) errno d
          (postWrite d place w head full errno).1) ∨
      ((postWrite d place w head full errno).2 = none ∧
        ∃ d₁, Adds .write place w (head.getD w) false errno d d₁ ∧
          (postWrite d place w head full errno).1 = freeWorkRequest d₁ w) := by
  obtain ⟨sg, m, hprep⟩ := wr_preparePost d place w
  cases hops : place.ops with
  | rdma =>
      simp only [postWrite, hops]
      rcases rdmaPostWrite_cases (preparePost d place w) w place.context head full with
        hpost | ⟨hchain, hfull⟩
      · rw [hpost]
        exact Or.inl ⟨rfl, adds_rdmaPostWrite hops hne⟩
      · rw [hfull]
        refine Or.inr ⟨rfl, _, ?_, rfl⟩
        have hno : writeChains d place = false := by
          rw [context_preparePost] at hchain
          simpa [writeChains, hops] using hchain
        refine adds_of (hno ▸ postedAs_postedWrite hops) rfl ?_ ?_ ?_ (fun _ => rfl) (fun _ => rfl)
          rfl
        · simp [postedWrite, hprep]
        · simp [postedWrite, hprep]
        · simp
  | nvme =>
      have hno : writeChains d place = false := by simp [writeChains, hops]
      simp only [postWrite, hops, empBdevPost, hno]
      refine Or.inl ⟨trivial, adds_of
        (r := empBdevPosted (preparePost d place w) w place.context head .postWrite)
        ?_ rfl ?_ ?_ ?_ (fun _ => rfl) (fun _ => rfl) rfl⟩
      · constructor <;> simp [empBdevPosted, hprep, hops]
      · simp [empBdevPosted, hprep]
      · simp [empBdevPosted, hprep]
      · simp
  | memdev =>
      have hno : writeChains d place = false := by simp [writeChains, hops]
      simp only [postWrite, hops, empMemdevPost, hno]
      refine Or.inl ⟨trivial, adds_of
        (r := empMemdevPosted (preparePost d place w) w place.context head .pwFailed errno)
        ?_ rfl ?_ ?_ ?_ (fun _ => rfl) (fun _ => rfl) rfl⟩
      · constructor <;> simp [empMemdevPosted, hprep, hops]
      · simp [empMemdevPosted, hprep]
      · simp [empMemdevPosted, hprep]
      · simp

/-- Only a full send queue refuses a write, and only one that is not left for a chain. -/
theorem refused_of_none {full : Bool} (h : (postWrite d place w head full errno).2 = none) :
    full = true ∧ place.ops = .rdma ∧ (d.context place.context).chainedOps = false := by
  cases hops : place.ops with
  | rdma =>
      have hctx : ((preparePost d place w).context place.context).chainedOps =
          (d.context place.context).chainedOps := by rw [context_preparePost]
      simp only [postWrite, hops] at h
      cases hc : (d.context place.context).chainedOps with
      | false =>
          rw [hc] at hctx
          cases full with
          | true => simp
          | false => simp [rdmaPostWrite, hctx] at h
      | true =>
          rw [hc] at hctx
          simp [rdmaPostWrite, hctx] at h
  | nvme => simp [postWrite, hops] at h
  | memdev => simp [postWrite, hops] at h

end Post

/-- Linking a request to its chain only queues it on the head. -/
theorem linkEntangled_spec (d : Dma) (w : ℕ) :
    Frees [] d (DmaSys.linkEntangled d w) ∧
      (∀ v, ((DmaSys.linkEntangled d w).wr v).marks = (d.wr v).marks) ∧
      (DmaSys.linkEntangled d w).context = d.context ∧
      ∀ v, ((DmaSys.linkEntangled d w).wr v).remotePages = (d.wr v).remotePages ++
        if (d.wr w).chainedOps = true ∧ w ≠ (d.wr w).headWr ∧ v = (d.wr w).headWr then [w]
        else [] := by
  by_cases h : (d.wr w).chainedOps = true ∧ w ≠ (d.wr w).headWr
  · have hyes : ((d.wr w).chainedOps && decide (w ≠ (d.wr w).headWr)) = true := by simp [h.1, h.2]
    simp only [DmaSys.linkEntangled, hyes, if_true]
    refine ⟨frees_setPages d _ _, fun v => marks_setPages d _ v _, rfl, ?_⟩
    intro v
    by_cases hv : v = (d.wr w).headWr
    · simp [hv, h.1, h.2]
    · simp [hv]
  · have hno : ((d.wr w).chainedOps && decide (w ≠ (d.wr w).headWr)) = false := by
      rw [Bool.eq_false_iff]
      intro hc
      exact h (by simpa using hc)
    simp only [DmaSys.linkEntangled, hno, Bool.false_eq_true, if_false]
    refine ⟨Frees.refl d, fun _ => trivial, trivial, ?_⟩
    intro v
    rw [if_neg fun hc => h ⟨hc.1, hc.2.1⟩]
    simp

/-! ## The end of a block's posts -/

/-- The posts of the block of head `h` end; a chain of `n` requests is handed over. -/
structure Ends (h : ℕ) (n : ℤ) (d d' : Dma) : Prop where
  marks : ∀ v, (d'.wr v).marks = (d.wr v).marks
  eh : (d.wr h).chainedOps = true → (d'.wr h).ehWr = some h
  ties : ∀ v, ∃ eh len, (d'.wr v).ties = { (d.wr v).ties with ehWr := eh, entangledWrLen := len }
  length : ∀ v, (d'.wr v).entangledWrLen =
    if v = h ∧ (d.wr h).chainedOps = true then n else (d.wr v).entangledWrLen
  ehWr : (d.wr h).chainedOps = false → ∀ v, (d'.wr v).ehWr = (d.wr v).ehWr
  wrRefc : ∀ v, (d'.wr v).wrRefc = (d.wr v).wrRefc
  live : ∀ v, (d'.wr v).live = (d.wr v).live
  pages : ∀ v, (d'.wr v).remotePages = (d.wr v).remotePages
  mrWrLen : d'.mrWrLen = d.mrWrLen
  wrLen : ∀ c, (d'.context c).wrLen = (d.context c).wrLen
  same : ∀ c, (d'.context c).chainedOps = (d.context c).chainedOps

theorem Ends.refl {h : ℕ} {n : ℤ} {d : Dma} (hc : (d.wr h).chainedOps = false) : Ends h n d d := by
  refine ⟨fun _ => rfl, fun h => (by rw [hc] at h; cases h),
    fun v => ⟨(d.wr v).ehWr, (d.wr v).entangledWrLen, rfl⟩, ?_, fun _ _ => rfl, fun _ => rfl,
    fun _ => rfl, fun _ => rfl, rfl, fun _ => rfl, fun _ => rfl⟩
  intro v
  simp [hc]

/-- Every field of a record that `mark_end_of_entangled_work_request` leaves alone, and
the two it writes. -/
theorem wr_markEnd (d : Dma) (tail eh head : ℕ) (len : ℤ) (v : ℕ) :
    ∃ sg e n, (markEndOfEntangledWorkRequest d tail eh head len).wr v =
      { d.wr v with signaled := sg, ehWr := e, entangledWrLen := n } ∧
      (v ≠ tail → v ≠ head → e = (d.wr v).ehWr) := by
  simp only [markEndOfEntangledWorkRequest]
  by_cases hh : v = head
  · subst hh
    split
    · by_cases ht : v = tail
      · subst ht
        exact ⟨_, _, _, by simp; exact ⟨rfl, rfl, rfl⟩, fun h => absurd rfl h⟩
      · exact ⟨_, _, _, by simp [ht]; exact ⟨rfl, rfl, rfl⟩, fun _ h => absurd rfl h⟩
    · by_cases ht : v = tail
      · subst ht
        exact ⟨_, _, _, by simp; exact ⟨rfl, rfl, rfl⟩, fun h => absurd rfl h⟩
      · exact ⟨_, _, _, by simp [ht]; exact ⟨rfl, rfl, rfl⟩, fun _ h => absurd rfl h⟩
  · split
    · by_cases ht : v = tail
      · subst ht
        exact ⟨_, _, _, by simp [hh]; exact ⟨rfl, rfl, rfl⟩, fun h => absurd rfl h⟩
      · exact ⟨(d.wr v).signaled, (d.wr v).ehWr, (d.wr v).entangledWrLen, by simp [hh, ht],
          fun _ _ => rfl⟩
    · by_cases ht : v = tail
      · subst ht
        exact ⟨_, _, _, by simp [hh]; exact ⟨rfl, rfl, rfl⟩, fun h => absurd rfl h⟩
      · exact ⟨(d.wr v).signaled, (d.wr v).ehWr, (d.wr v).entangledWrLen, by simp [hh, ht],
          fun _ _ => rfl⟩

theorem mrWrLen_markEnd (d : Dma) (tail eh head : ℕ) (len : ℤ) :
    (markEndOfEntangledWorkRequest d tail eh head len).mrWrLen = d.mrWrLen := by
  simp only [markEndOfEntangledWorkRequest]
  split <;> rfl

theorem ends_rdmaPostWorkReq {d : Dma} {h tail : ℕ} {n : ℤ} (hc : (d.wr h).chainedOps = true)
    (hstate : (d.wr h).state ≠ .postRead) : Ends h n d (rdmaPostWorkReq d h tail h n) := by
  have hlen : ∀ c, ((rdmaPostWorkReq d h tail h n).context c).wrLen = (d.context c).wrLen ∧
      ((rdmaPostWorkReq d h tail h n).context c).chainedOps = (d.context c).chainedOps := by
    intro c
    have hp := wrLen_addPending (markEndOfEntangledWorkRequest d tail h h n) (d.wr h).context c n
    rw [context_markEnd] at hp
    exact hp
  simp only [rdmaPostWorkReq] at hlen ⊢
  refine ⟨?_, ?_, ?_, ?_, ?_, ?_, ?_, ?_, ?_, fun c => (hlen c).1, fun c => (hlen c).2⟩
  · intro v
    obtain ⟨sg, e, m, hv, -⟩ := wr_markEnd d tail h h n v
    rw [Dma.wr_addPending, hv]
    rfl
  · intro _
    rw [Dma.wr_addPending, markEnd_ehWr]
  · intro v
    obtain ⟨sg, e, m, hv, -⟩ := wr_markEnd d tail h h n v
    exact ⟨e, m, by rw [Dma.wr_addPending, hv]; rfl⟩
  · intro v
    rw [Dma.wr_addPending, markEnd_entangled, if_neg hstate]
    simp [hc]
  · intro hno
    rw [hc] at hno
    cases hno
  · intro v
    obtain ⟨sg, e, m, hv, -⟩ := wr_markEnd d tail h h n v
    rw [Dma.wr_addPending, hv]
  · intro v
    obtain ⟨sg, e, m, hv, -⟩ := wr_markEnd d tail h h n v
    rw [Dma.wr_addPending, hv]
  · intro v
    obtain ⟨sg, e, m, hv, -⟩ := wr_markEnd d tail h h n v
    rw [Dma.wr_addPending, hv]
  · exact mrWrLen_markEnd d tail h h n

end Emp
