import Emp.Dma.Invariant

/-!
# What each step does

Each step of the system is one of the effects that the invariant was shown to survive:
the next request is posted, or is a spare one; a block's posts end; a request is cleared;
a spare one is freed; or nothing but the marks of some requests changes.
-/

namespace Emp

namespace DmaSys

variable {s s' : DmaSys} {place : Place} {head : Option ℕ} {errno : ℕ} {kind : Kind}

theorem canPost_joins (hg : s.canPost kind place head = true) (hk : kind ≠ .other) :
    Joins s kind place (head.getD s.next) (s.chains kind place) := by
  simp only [canPost, Bool.and_eq_true, beq_iff_eq] at hg
  obtain ⟨hown, hhead⟩ := hg
  refine ⟨hk, hown.symm, ?_, ?_⟩
  · intro hc
    simp only [chains, Bool.and_eq_true, beq_iff_eq] at hc
    exact ⟨hc.1.1, hc.1.2⟩
  · cases head with
    | none => intro h; exact absurd rfl h
    | some h =>
        intro _
        simp only [Bool.and_eq_true, beq_iff_eq, decide_eq_true_eq, Bool.not_eq_true',
          Bool.or_eq_true] at hhead
        obtain ⟨⟨⟨⟨⟨hlt, hhd⟩, hkh⟩, hop⟩, hch⟩, hctx⟩ := hhead
        refine ⟨hlt, hhd, hkh, hop, hch.symm, ?_⟩
        intro hc
        rw [hch] at hc
        exact hctx.resolve_left (by simp [hc])

theorem head_ne_next (hg : s.canPost kind place head = true) : head ≠ some s.next := by
  rintro rfl
  simp [canPost] at hg

/-- A request is posted with the effect `Adds`, and perhaps linked. -/
theorem postedTo_of_adds {d d₁ : Dma} {h : ℕ} {chained : Bool} {o : Option Bool}
    (ha : Adds kind place s.next h chained errno s.dma d₁) (hf : Frees [] d₁ d)
    (hmarks : ∀ v, (d.wr v).marks = (d₁.wr v).marks)
    (hctx : d.context = d₁.context)
    (hpages : ∀ v, (d.wr v).remotePages = (d₁.wr v).remotePages ++
      if chained = true ∧ s.next ≠ h ∧ v = h then [s.next] else []) :
    PostedTo s kind place h chained errno (s.posted kind o d) := by
  have hself : PostedAs kind place h chained errno (d.wr s.next) := by
    obtain ⟨hops, hmem, hmrid, hc, hhd, heh, hlen, hch⟩ := ties_eq_iff.mp (hf.ties s.next)
    obtain ⟨hst, her, hwd, -⟩ := marks_eq_iff.mp (hmarks s.next)
    have hlive : (d.wr s.next).live = (d₁.wr s.next).live := by simp [hf.live]
    refine ⟨hlive.trans ha.self.live, hops.trans ha.self.dmaOps, hmem.trans ha.self.memreg,
      hmrid.trans ha.self.mrid, hc.trans ha.self.context, hhd.trans ha.self.headWr,
      hch.trans ha.self.chainedOps, ?_, ?_, ?_, ?_, ?_⟩
    · intro hk
      rw [heh, ha.self.ehWr hk]
    · intro hk
      rw [hlen, ha.self.length hk]
    · intro hk
      rw [hst, ha.self.rdma hk]
    · intro hk
      rw [hwd, ha.self.nvme hk]
    · intro hk
      rw [her, ha.self.memdev hk]
  refine ⟨rfl, rfl, rfl, rfl, rfl, hself, ?_, ?_, ?_, ?_, ?_, ?_, ?_, ?_, ?_, ?_⟩
  · exact (marks_eq_iff.mp (hmarks s.next)).2.2.2.trans ha.selfArrived
  · intro v hv
    exact (hmarks v).trans (ha.marks v hv)
  · exact (hf.wrRefc s.next).trans ha.selfRefc
  · intro v hv
    exact (hf.ties v).trans (ha.ties v hv)
  · intro v hv
    have hlive : (d.wr v).live = (d₁.wr v).live := by simp [hf.live]
    exact hlive.trans (ha.live v hv)
  · intro v hv
    exact (hf.wrRefc v).trans (ha.refc v hv)
  · intro v
    have hold : (d₁.wr v).remotePages = (s.dma.wr v).remotePages := by
      by_cases hv : v = s.next
      · rw [hv]
        exact ha.selfPages
      · exact ha.pages v hv
    exact (hpages v).trans (by rw [hold])
  · intro c
    have hc : (d.context c).wrLen = (d₁.context c).wrLen := by rw [hctx]
    exact hc.trans (ha.wrLen c)
  · intro c
    have hc : (d.context c).chainedOps = (d₁.context c).chainedOps := by rw [hctx]
    exact hc.trans (ha.same c)
  · intro m
    have hm : d.mrWrLen m = d₁.mrWrLen m := by simp [hf.mrWrLen]
    exact hm.trans (ha.mrWrLen m)

theorem chains_read (s : DmaSys) (place : Place) : s.chains .read place = false := by
  simp [chains]

theorem chains_write (s : DmaSys) (place : Place) :
    s.chains .write place = writeChains s.dma place := by
  simp [chains, writeChains]

/-- The step that posts a read. -/
theorem postedTo_read (o : Option Bool) :
    PostedTo s .read place (head.getD s.next) (s.chains .read place) errno
      (s.posted .read o (Emp.postRead s.dma place s.next head false errno)) := by
  rw [chains_read]
  exact postedTo_of_adds adds_postRead (Frees.refl _) (fun _ => rfl) rfl fun v => by simp

/-- A block's post is refused: the request is freed and stays counted on the head. -/
theorem sparedTo_refused {d₁ : Dma} {h : ℕ}
    (ha : Adds .write place s.next h false errno s.dma d₁) (hown : place.mrid = place.memreg)
    (hs' : s' = { s.spare (freeWorkRequest d₁ s.next) with
      refused := fun v => s.refused v + if h ≠ s.next ∧ v = h then 1 else 0 })
    (hh : h ≠ s.next → h < s.next ∧ s.kind h ≠ .other ∧ (s.dma.wr h).headWr = h ∧
      s.closed h = false) :
    SparedTo s (if h = s.next then none else some h) s' := by
  have hf := Frees.freeWorkRequest d₁ s.next
  have hby : ∀ v, (if h = s.next then none else some h) = some v ↔ h ≠ s.next ∧ v = h := by
    intro v
    by_cases hn : h = s.next
    · simp [hn]
    · simp [hn, eq_comm]
  subst hs'
  refine ⟨rfl, rfl, rfl, ?_, rfl, ?_, ?_, ?_, ?_, ?_, ?_, ?_, ?_, ?_, ?_⟩
  · intro v
    simp only [hby]
  · obtain ⟨-, hmem, hmrid, -⟩ := ties_eq_iff.mp (hf.ties s.next)
    exact hmrid.trans ((ha.self.mrid.trans (hown.trans ha.self.memreg.symm)).trans hmem.symm)
  · exact (ties_eq_iff.mp (hf.ties s.next)).2.2.2.2.2.2.2.trans ha.self.chainedOps
  · exact (marks_eq_iff.mp (marks_freeWorkRequest d₁ s.next s.next)).2.2.2.trans ha.selfArrived
  · intro v hv
    exact (marks_freeWorkRequest d₁ s.next v).trans (ha.marks v hv)
  · intro v hv
    exact (hf.ties v).trans (ha.ties v hv)
  · intro v hv
    have hlive : ((freeWorkRequest d₁ s.next).wr v).live = (d₁.wr v).live := by simp [hf.live, hv]
    exact hlive.trans (ha.live v hv)
  · intro v hv
    have href := ha.refc v hv
    refine (hf.wrRefc v).trans (href.trans ?_)
    congr 1
    by_cases hc : h ≠ s.next ∧ v = h
    · rw [if_pos ((hby v).mpr hc), if_pos ⟨hc.2, rfl⟩]
    · have hvh : v ≠ h := fun heq => hc ⟨fun hn => hv (heq.trans hn), heq⟩
      rw [if_neg fun h' => hc ((hby v).mp h'), if_neg fun h' => hvh h'.1]
  · intro v hv
    exact (remotePages_freeWorkRequest d₁ s.next v).trans (ha.pages v hv)
  · intro m
    have hdead : ((freeWorkRequest d₁ s.next).wr s.next).live = false := by simp [hf.live]
    have hmr := hf.mrWrLen m
    rw [ha.mrWrLen] at hmr
    have hm := ha.self.mrid
    by_cases hpm : place.memreg = m
    · simp [hpm, hm, hown] at hmr
      simpa [spare, posted, hdead] using hmr
    · simp [hpm, hm, hown] at hmr
      simpa [spare, posted, hdead] using hmr
  · intro v hv
    obtain ⟨hn, rfl⟩ := (hby v).mp hv
    exact hh hn

/-- The step that posts a write, or is refused. -/
theorem stepPostWrite_cases (full : Bool) (errno : ℕ)
    (hg : s.canPost .write place head = true) :
    PostedTo s .write place (head.getD s.next) (s.chains .write place) errno
        (s.stepPostWrite place head full errno) ∧
        (s.stepPostWrite place head full errno).outcome =
          Function.update s.outcome s.next (postOutcome place errno) ∨
      (SparedTo s head (s.stepPostWrite place head full errno) ∧
        (s.stepPostWrite place head full errno).outcome =
          Function.update s.outcome s.next none) ∧
        full = true ∧ place.ops = .rdma ∧ (s.dma.context place.context).chainedOps = false := by
  have hj := canPost_joins hg (by decide)
  have hne := head_ne_next hg
  rcases postWrite_cases s.dma place full errno hne with ⟨hpost, ha⟩ | ⟨hfull, d₁, ha, hd₁⟩
  · left
    simp only [stepPostWrite, hpost]
    rw [chains_write]
    obtain ⟨hlink, hmarks, hctx, hpages⟩ := linkEntangled_spec
      (postWrite s.dma place s.next head full errno).1 s.next
    rw [ha.self.chainedOps, ha.self.headWr] at hpages
    exact ⟨postedTo_of_adds ha hlink hmarks hctx hpages, rfl⟩
  · right
    refine ⟨?_, refused_of_none hfull⟩
    simp only [stepPostWrite, hfull, hd₁]
    cases head with
    | none =>
        refine ⟨?_, rfl⟩
        have hspare : s.spare (freeWorkRequest d₁ s.next) =
            { s.spare (freeWorkRequest d₁ s.next) with
              refused := fun v => s.refused v + if s.next ≠ s.next ∧ v = s.next then 1 else 0 } := by
          simp [spare, posted]
        have h := sparedTo_refused ha hj.own hspare fun h => absurd rfl h
        simpa using h
    | some h =>
        have hhn : h ≠ s.next := fun heq => hne (by rw [heq])
        refine ⟨?_, rfl⟩
        have hrefused : Function.update s.refused h (s.refused h + 1) =
            fun v => s.refused v + if h ≠ s.next ∧ v = h then 1 else 0 := by
          funext v
          by_cases hv : v = h
          · simp [hv, hhn]
          · simp [hv]
        obtain ⟨hlt, hhd, hkh, hop, -⟩ := hj.old hhn
        have hs' : ({ s.spare (freeWorkRequest d₁ s.next) with
            refused := Function.update s.refused h (s.refused h + 1) } : DmaSys) =
            { s.spare (freeWorkRequest d₁ s.next) with
              refused := fun v => s.refused v + if h ≠ s.next ∧ v = h then 1 else 0 } := by
          rw [hrefused]
        have hsp := sparedTo_refused ha hj.own hs' fun _ => ⟨hlt, by rw [hkh]; decide, hhd, hop⟩
        simpa [hhn] using hsp

/-- The step that takes a request to signal memory-polled reads. -/
theorem sparedTo_signal (hs : s.Shape) (m gpa c : ℕ) :
    SparedTo s none (s.spare (allocSignal s.dma s.next m gpa c)) := by
  obtain ⟨-, hchain, -⟩ := hs.fresh s.next (Nat.le_refl _)
  refine ⟨rfl, rfl, rfl, fun _ => by simp [spare, posted], rfl, ?_, ?_, ?_, ?_, ?_, ?_, ?_, ?_, ?_,
    by simp⟩
  · simp [spare, posted, allocSignal, allocWorkRequest]
  · simp [spare, posted, allocSignal, allocWorkRequest, hchain]
  · simp [spare, posted, allocSignal, allocWorkRequest]
  · intro v hv
    simp [spare, posted, allocSignal, allocWorkRequest, hv]
  · intro v hv
    simp [spare, posted, allocSignal, allocWorkRequest, hv]
  · intro v hv
    simp [spare, posted, allocSignal, allocWorkRequest, hv]
  · intro v hv
    simp [spare, posted, allocSignal, allocWorkRequest, hv]
  · intro v hv
    simp [spare, posted, allocSignal, allocWorkRequest, hv]
  · intro k
    by_cases hk : m = k
    · subst hk
      simp [spare, posted, allocSignal, allocWorkRequest]
    · simp [spare, posted, allocSignal, allocWorkRequest, hk, Ne.symm hk]

/-- The completion of such a request frees it. -/
theorem frees_signalDone (d : Dma) (w : ℕ) (n : ℤ) :
    Frees [w] d (handleRdmaReadMempoll d w n) ∧
      (∀ v, ((handleRdmaReadMempoll d w n).wr v).marks = (d.wr v).marks) ∧
      ∀ v, ((handleRdmaReadMempoll d w n).wr v).remotePages = (d.wr v).remotePages := by
  have hrec := Dma.Recorded.addPending d (d.wr w).context (-n)
  refine ⟨(Frees.of_recorded hrec).trans (Frees.freeWorkRequest _ w), ?_, ?_⟩
  · intro v
    exact marks_freeWorkRequest _ w v
  · intro v
    exact remotePages_freeWorkRequest _ w v

/-- The step that ends the posts of a block.  The head of a chain that was not handed
over has not been completed. -/
theorem endedTo_stepEndPosts {h : ℕ} {unwind : Bool} (hs : s.Shape) (hl : s.Ledger)
    (hh : h < s.next) (hk : s.kind h ≠ .other) (hhd : (s.dma.wr h).headWr = h)
    (hop : s.closed h = false)
    (hstate : (s.dma.wr h).chainedOps = true → (s.dma.wr h).state = .postWrite) :
    EndedTo s h (s.stepEndPosts h unwind) := by
  by_cases hc : (s.dma.wr h).chainedOps = true
  · have hne : (s.dma.wr h).state ≠ .postRead := by rw [hstate hc]; decide
    have hkw : s.kind h = .write := (hs.chain h hh hc).1
    have href := refc_of_open hs hl hh hk hhd hop
    obtain ⟨tail, htail⟩ : ∃ tail, tail = (s.dma.wr h).remotePages.getLast?.getD h := ⟨_, rfl⟩
    have hdma : (s.stepEndPosts h unwind).dma =
        rdmaPostWorkReq s.dma h tail h ((s.dma.wr h).remotePages.length + 1) := by
      simp [stepEndPosts, hc, htail]
    have htailw : s.kind tail = .write ∧ (s.dma.wr tail).headWr = h := by
      rw [htail]
      cases hlast : (s.dma.wr h).remotePages.getLast? with
      | none => exact ⟨hkw, hhd⟩
      | some t =>
          have hin := List.mem_of_getLast? hlast
          obtain ⟨htn, hm, -⟩ := (hl.pages h hh hkw hhd (by omega) t).mp hin
          obtain ⟨-, -, hkt, -⟩ := hs.head t htn hm.1
          refine ⟨?_, hm.2⟩
          show s.kind t = .write
          rw [← hkt, hm.2, hkw]
    have hehWr : ∀ v, v ≠ tail → v ≠ h →
        ((s.stepEndPosts h unwind).dma.wr v).ehWr = (s.dma.wr v).ehWr := by
      intro v hvt hvh
      obtain ⟨sg, e, n, hv, heq⟩ := wr_markEnd s.dma tail h h ((s.dma.wr h).remotePages.length + 1) v
      rw [hdma, rdmaPostWorkReq, Dma.wr_addPending, hv]
      exact heq hvt hvh
    refine ⟨rfl, rfl, rfl, rfl, rfl, ⟨hh, hk, hhd, hop⟩, ?_, ?_, ?_⟩
    · rw [hdma]
      exact ends_rdmaPostWorkReq hc hne
    · intro v _ hkv
      refine hehWr v ?_ ?_
      · rintro rfl
        rw [htailw.1] at hkv
        cases hkv
      · rintro rfl
        rw [hkw] at hkv
        cases hkv
    · intro v hv
      refine hehWr v ?_ ?_
      · rintro rfl
        exact hv htailw.2
      · rintro rfl
        exact hv hhd
  · have hno : (s.dma.wr h).chainedOps = false := by simpa using hc
    have hdma : (s.stepEndPosts h unwind).dma = s.dma := by simp [stepEndPosts, hno]
    refine ⟨rfl, rfl, rfl, rfl, rfl, ⟨hh, hk, hhd, hop⟩, ?_, ?_, ?_⟩
    · rw [hdma]
      exact Ends.refl hno
    · intro v _ _
      rw [hdma]
    · intro v _
      rw [hdma]

end DmaSys

end Emp
