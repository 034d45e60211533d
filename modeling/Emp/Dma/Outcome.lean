import Emp.Dma.Steps

/-!
# States and outcomes

What the recorded states say about the transfers.  An independent request is ready only
if its own transfer succeeded, a chain only if all of it did; a block whose head shows
a failed write has a request that failed.  A chain is untouched until it is handed over.

## Main definitions

* `DmaSys.States` — the relation between states and outcomes.
* `DmaSys.Inv` — the whole invariant, `inv_of_reach` — it holds in every run.
-/

namespace Emp

namespace DmaSys

/-- What the states say about the outcomes. -/
structure States (s : DmaSys) : Prop where
  fresh : ∀ w, s.next ≤ w → s.outcome w = none ∧ (s.dma.wr w).arrived = none
  read : ∀ w < s.next, s.kind w = .read → (s.dma.wr w).dmaOps = .rdma →
    ((s.dma.wr w).state = .ready → s.outcome w = some true) ∧
      ((s.dma.wr w).state = .prFailed → s.outcome w = some false) ∧
      ((s.dma.wr w).arrived.isSome = true → s.outcome w = some true)
  single : ∀ w < s.next, s.kind w = .write → (s.dma.wr w).dmaOps = .rdma →
    (s.dma.wr w).chainedOps = false →
      ((s.dma.wr w).state = .ready → s.outcome w = some true) ∧
        ((s.dma.wr w).state = .pwFailed → ∃ v < s.next, s.Member w v ∧ s.outcome v = some false)
  untouched : ∀ w < s.next, (s.dma.wr w).chainedOps = true →
    s.closed (s.dma.wr w).headWr = false →
      (s.dma.wr w).state = .postWrite ∧ s.outcome w = none
  eh : ∀ h < s.next, (s.dma.wr h).chainedOps = true → (s.dma.wr h).headWr = h →
    s.closed h = true → (s.dma.wr h).ehWr = some h
  chain : ∀ h < s.next, (s.dma.wr h).chainedOps = true → (s.dma.wr h).headWr = h →
    ((s.dma.wr h).state = .ready → ∀ v < s.next, s.Member h v → s.outcome v = some true) ∧
      ((s.dma.wr h).state = .pwFailed → ∃ v < s.next, s.Member h v ∧ s.outcome v = some false)
  nvme : ∀ w < s.next, s.kind w ≠ .other → (s.dma.wr w).dmaOps = .nvme →
    (s.dma.wr w).waitDone = true → s.outcome w = some ((s.dma.wr w).errno == 0)
  memdev : ∀ w < s.next, s.kind w ≠ .other → (s.dma.wr w).dmaOps = .memdev →
    s.outcome w = some ((s.dma.wr w).errno == 0)

variable {s s' : DmaSys} {d : Dma} {w h v : ℕ} {kind : Kind} {place : Place} {chained : Bool}
  {errno : ℕ}

/-- A step that leaves the outcomes and marks alone, but for a request that is now
ready: of a block device, or a read that succeeded. -/
theorem States.of_ready (hs : s.Shape) (hst : s.States) (hnext : s'.next = s.next)
    (hkind : s'.kind = s.kind) (hclosed : s'.closed = s.closed) (houtcome : s'.outcome = s.outcome)
    (hties : ∀ v, (s'.dma.wr v).ties = (s.dma.wr v).ties)
    (hmarks : ∀ v, (s'.dma.wr v).marks = (s.dma.wr v).marks ∨
      (s'.dma.wr v).marks = { (s.dma.wr v).marks with state := .ready } ∧
        ((s.dma.wr v).dmaOps = .nvme ∨ s.kind v = .read ∧ s.outcome v = some true)) :
    s'.States := by
  have hops : ∀ v, (s'.dma.wr v).dmaOps = (s.dma.wr v).dmaOps := fun v =>
    (ties_eq_iff.mp (hties v)).1
  have hheadWr : ∀ v, (s'.dma.wr v).headWr = (s.dma.wr v).headWr := fun v =>
    (ties_eq_iff.mp (hties v)).2.2.2.2.1
  have heh : ∀ v, (s'.dma.wr v).ehWr = (s.dma.wr v).ehWr := fun v =>
    (ties_eq_iff.mp (hties v)).2.2.2.2.2.1
  have hchain : ∀ v, (s'.dma.wr v).chainedOps = (s.dma.wr v).chainedOps := fun v =>
    (ties_eq_iff.mp (hties v)).2.2.2.2.2.2.2
  have hrest : ∀ v, (s'.dma.wr v).errno = (s.dma.wr v).errno ∧
      (s'.dma.wr v).waitDone = (s.dma.wr v).waitDone ∧
      (s'.dma.wr v).arrived = (s.dma.wr v).arrived := by
    intro v
    rcases hmarks v with hm | ⟨hm, -⟩
    · exact (marks_eq_iff.mp hm).2
    · simp only [WorkRequest.marks, Marks.mk.injEq] at hm
      exact hm.2
  have hwrite : ∀ v, s.kind v = .write → (s.dma.wr v).dmaOps = .rdma →
      (s'.dma.wr v).state = (s.dma.wr v).state := by
    intro v hk ho
    rcases hmarks v with hm | ⟨-, hn | ⟨hr, -⟩⟩
    · exact (marks_eq_iff.mp hm).1
    · rw [ho] at hn
      cases hn
    · rw [hk] at hr
      cases hr
  refine ⟨?_, ?_, ?_, ?_, ?_, ?_, ?_, ?_⟩
  · intro w hw
    rw [houtcome, (hrest w).2.2]
    exact hst.fresh w (hnext ▸ hw)
  · intro w hw hk ho
    rw [hkind] at hk
    rw [hops] at ho
    obtain ⟨hready, hfailed, harrived⟩ := hst.read w (hnext ▸ hw) hk ho
    rw [houtcome, (hrest w).2.2]
    rcases hmarks w with hm | ⟨hm, hn | ⟨-, hok⟩⟩
    · rw [(marks_eq_iff.mp hm).1]
      exact ⟨hready, hfailed, harrived⟩
    · rw [ho] at hn
      cases hn
    · simp only [WorkRequest.marks, Marks.mk.injEq] at hm
      rw [hm.1]
      exact ⟨fun _ => hok, fun h => (by cases h), harrived⟩
  · intro w hw hk ho hc
    rw [hkind] at hk
    rw [hops] at ho
    rw [hchain] at hc
    rw [hwrite w hk ho, houtcome]
    simp only [Member, hkind, hheadWr, hnext]
    exact hst.single w (hnext ▸ hw) hk ho hc
  · intro w hw hc hcl
    rw [hchain] at hc
    obtain ⟨hk, ho, -⟩ := hs.chain w (hnext ▸ hw) hc
    rw [hwrite w hk ho, houtcome]
    rw [hclosed, hheadWr] at hcl
    exact hst.untouched w (hnext ▸ hw) hc hcl
  · intro k hk hc hhd hcl
    rw [heh]
    exact hst.eh k (hnext ▸ hk) (hchain k ▸ hc) (hheadWr k ▸ hhd) (hclosed ▸ hcl)
  · intro k hk hc hhd
    rw [hchain] at hc
    obtain ⟨hkw, ho, -⟩ := hs.chain k (hnext ▸ hk) hc
    rw [hwrite k hkw ho, houtcome]
    simp only [Member, hkind, hheadWr, hnext]
    exact hst.chain k (hnext ▸ hk) hc (hheadWr k ▸ hhd)
  · intro w hw hk ho hwait
    rw [houtcome, (hrest w).1]
    exact hst.nvme w (hnext ▸ hw) (hkind ▸ hk) (hops w ▸ ho) ((hrest w).2.1 ▸ hwait)
  · intro w hw hk ho
    rw [houtcome, (hrest w).1]
    exact hst.memdev w (hnext ▸ hw) (hkind ▸ hk) (hops w ▸ ho)

theorem States.of_same (hs : s.Shape) (hst : s.States) (hnext : s'.next = s.next)
    (hkind : s'.kind = s.kind) (hclosed : s'.closed = s.closed) (houtcome : s'.outcome = s.outcome)
    (hties : ∀ v, (s'.dma.wr v).ties = (s.dma.wr v).ties)
    (hmarks : ∀ v, (s'.dma.wr v).marks = (s.dma.wr v).marks) : s'.States :=
  hst.of_ready hs hnext hkind hclosed houtcome hties fun v => Or.inl (hmarks v)

/-- The next request is posted. -/
theorem States.post (hs : s.Shape) (hst : s.States) (hj : Joins s kind place h chained)
    (hp : PostedTo s kind place h chained errno s')
    (ho : s'.outcome = Function.update s.outcome s.next (postOutcome place errno)) : s'.States := by
  have hopenw : s.closed s.next = false := (hs.fresh s.next (Nat.le_refl _)).2.2.2.2.1
  have harrivedw : (s'.dma.wr s.next).arrived = none :=
    hp.selfArrived.trans (hst.fresh s.next (Nat.le_refl _)).2
  have hkindw : s'.kind s.next = kind := by rw [hp.kinds, Function.update_self]
  have hkind : ∀ v, v ≠ s.next → s'.kind v = s.kind v := fun v hv => by
    rw [hp.kinds, Function.update_of_ne hv]
  have hout : ∀ v, v ≠ s.next → s'.outcome v = s.outcome v := fun v hv => by
    rw [ho, Function.update_of_ne hv]
  have houtw : s'.outcome s.next = postOutcome place errno := by rw [ho, Function.update_self]
  have hlt : ∀ v, v < s'.next → v ≠ s.next → v < s.next := fun v hv hne => by
    rw [hp.next] at hv
    omega
  have hnext : ∀ v, v < s.next → v < s'.next ∧ v ≠ s.next := fun v hv => by
    rw [hp.next]
    omega
  have hheadWr : ∀ v, v ≠ s.next → (s'.dma.wr v).headWr = (s.dma.wr v).headWr := fun v hv =>
    (ties_eq_iff.mp (hp.ties v hv)).2.2.2.2.1
  -- a failed request of an old block is an old request
  have hexists : ∀ k, (∃ v < s.next, s.Member k v ∧ s.outcome v = some false) →
      ∃ v < s'.next, s'.Member k v ∧ s'.outcome v = some false := by
    rintro k ⟨v, hv, ⟨hkv, hhv⟩, hov⟩
    obtain ⟨hv', hne⟩ := hnext v hv
    exact ⟨v, hv', ⟨by rwa [hkind v hne], by rwa [hheadWr v hne]⟩, by rwa [hout v hne]⟩
  refine ⟨?_, ?_, ?_, ?_, ?_, ?_, ?_, ?_⟩
  · intro v hv
    rw [hp.next] at hv
    have hne : v ≠ s.next := by omega
    rw [hout v hne, (marks_eq_iff.mp (hp.marks v hne)).2.2.2]
    exact hst.fresh v (by omega)
  · intro v hv hk hops
    by_cases hne : v = s.next
    · subst hne
      rw [hkindw] at hk
      rw [hp.self.dmaOps] at hops
      rw [hp.self.rdma hops, harrivedw, hk]
      simp
    · obtain ⟨hstate, -, -, harr⟩ := marks_eq_iff.mp (hp.marks v hne)
      rw [hkind v hne] at hk
      rw [(ties_eq_iff.mp (hp.ties v hne)).1] at hops
      rw [hstate, harr, hout v hne]
      exact hst.read v (hlt v hv hne) hk hops
  · intro v hv hk hops hc
    by_cases hne : v = s.next
    · subst hne
      rw [hkindw] at hk
      rw [hp.self.dmaOps] at hops
      rw [hp.self.rdma hops, hk]
      simp
    · obtain ⟨hstate, -⟩ := marks_eq_iff.mp (hp.marks v hne)
      obtain ⟨hops', -, -, -, -, -, -, hc'⟩ := ties_eq_iff.mp (hp.ties v hne)
      rw [hkind v hne] at hk
      rw [hops'] at hops
      rw [hc'] at hc
      obtain ⟨hready, hfailed⟩ := hst.single v (hlt v hv hne) hk hops hc
      rw [hstate, hout v hne]
      exact ⟨hready, fun hf => hexists v (hfailed hf)⟩
  · intro v hv hc hcl
    by_cases hne : v = s.next
    · subst hne
      rw [hp.self.chainedOps] at hc
      obtain ⟨hkw, hops⟩ := hj.chain hc
      rw [hp.self.rdma hops, houtw, hkw]
      simp [postOutcome, hops]
    · obtain ⟨hstate, -⟩ := marks_eq_iff.mp (hp.marks v hne)
      rw [(ties_eq_iff.mp (hp.ties v hne)).2.2.2.2.2.2.2] at hc
      rw [hp.closed, hheadWr v hne] at hcl
      rw [hstate, hout v hne]
      exact hst.untouched v (hlt v hv hne) hc hcl
  · intro k hk hc hhd hcl
    rw [hp.closed] at hcl
    have hne : k ≠ s.next := by
      rintro rfl
      rw [hopenw] at hcl
      cases hcl
    obtain ⟨-, -, -, -, hhd', heh, -, hc'⟩ := ties_eq_iff.mp (hp.ties k hne)
    rw [heh]
    exact hst.eh k (hlt k hk hne) (hc' ▸ hc) (hhd' ▸ hhd) hcl
  · intro k hk hc hhd
    by_cases hne : k = s.next
    · subst hne
      rw [hp.self.chainedOps] at hc
      obtain ⟨hkw, hops⟩ := hj.chain hc
      rw [hp.self.rdma hops, hkw]
      simp
    · obtain ⟨-, -, -, -, hhd', -, -, hc'⟩ := ties_eq_iff.mp (hp.ties k hne)
      obtain ⟨hstate, -⟩ := marks_eq_iff.mp (hp.marks k hne)
      rw [hc'] at hc
      rw [hhd'] at hhd
      have hkn := hlt k hk hne
      obtain ⟨hready, hfailed⟩ := hst.chain k hkn hc hhd
      rw [hstate]
      refine ⟨?_, fun hf => hexists k (hfailed hf)⟩
      intro hr v hv hm
      by_cases hvne : v = s.next
      · -- the block is still posted, so its head is not ready
        subst hvne
        have hkh : k = h := hm.2.symm.trans hp.self.headWr
        have hop := (hj.old (hkh ▸ hne)).2.2.2.1
        have hun := (hst.untouched k hkn hc (by rw [hhd, hkh, hop])).1
        rw [hun] at hr
        cases hr
      · rw [hout v hvne]
        refine hready hr v (hlt v hv hvne) ⟨?_, ?_⟩
        · rw [← hkind v hvne]
          exact hm.1
        · rw [← hheadWr v hvne]
          exact hm.2
  · intro v hv hk hops hwait
    by_cases hne : v = s.next
    · subst hne
      rw [hp.self.dmaOps] at hops
      rw [hp.self.nvme hops] at hwait
      cases hwait
    · obtain ⟨-, herr, hwd, -⟩ := marks_eq_iff.mp (hp.marks v hne)
      rw [hkind v hne] at hk
      rw [(ties_eq_iff.mp (hp.ties v hne)).1] at hops
      rw [hout v hne, herr]
      exact hst.nvme v (hlt v hv hne) hk hops (hwd ▸ hwait)
  · intro v hv hk hops
    by_cases hne : v = s.next
    · subst hne
      rw [hp.self.dmaOps] at hops
      rw [houtw, hp.self.memdev hops]
      simp [postOutcome, hops]
    · obtain ⟨-, herr, -, -⟩ := marks_eq_iff.mp (hp.marks v hne)
      rw [hkind v hne] at hk
      rw [(ties_eq_iff.mp (hp.ties v hne)).1] at hops
      rw [hout v hne, herr]
      exact hst.memdev v (hlt v hv hne) hk hops

/-- The next request carries nothing. -/
theorem States.spareStep {refusedBy : Option ℕ} (hs : s.Shape) (hst : s.States)
    (hp : SparedTo s refusedBy s')
    (ho : s'.outcome = Function.update s.outcome s.next none) : s'.States := by
  have hkind := hp.kind_eq hs
  have hkw : s.kind s.next = .other := (hs.fresh s.next (Nat.le_refl _)).2.2.2.1
  have hout : s'.outcome = s.outcome := by
    rw [ho, ← (hst.fresh s.next (Nat.le_refl _)).1]
    exact Function.update_eq_self _ _
  have hlt : ∀ v, v < s'.next → v ≠ s.next → v < s.next := fun v hv hne => by
    rw [hp.next] at hv
    omega
  have hne : ∀ v, s'.kind v ≠ .other → v ≠ s.next := by
    rintro v hk rfl
    rw [hkind] at hk
    exact hk hkw
  have hne' : ∀ v, (s'.dma.wr v).chainedOps = true → v ≠ s.next := by
    rintro v hc rfl
    rw [hp.single] at hc
    cases hc
  have hheadWr : ∀ v, v ≠ s.next → (s'.dma.wr v).headWr = (s.dma.wr v).headWr := fun v hv =>
    (ties_eq_iff.mp (hp.ties v hv)).2.2.2.2.1
  have hmember : ∀ k v, v < s.next → (s'.Member k v ↔ s.Member k v) := by
    intro k v hv
    have hvne : v ≠ s.next := by omega
    simp only [Member, hkind, hheadWr v hvne]
  have hexists : ∀ k, (∃ v < s.next, s.Member k v ∧ s.outcome v = some false) →
      ∃ v < s'.next, s'.Member k v ∧ s'.outcome v = some false := by
    rintro k ⟨v, hv, hm, hov⟩
    exact ⟨v, by rw [hp.next]; omega, (hmember k v hv).mpr hm, by rwa [hout]⟩
  refine ⟨?_, ?_, ?_, ?_, ?_, ?_, ?_, ?_⟩
  · intro v hv
    rw [hp.next] at hv
    have hvne : v ≠ s.next := by omega
    rw [hout, (marks_eq_iff.mp (hp.marks v hvne)).2.2.2]
    exact hst.fresh v (by omega)
  · intro v hv hk hops
    have hvne := hne v (by rw [hk]; decide)
    obtain ⟨hstate, -, -, harr⟩ := marks_eq_iff.mp (hp.marks v hvne)
    rw [(ties_eq_iff.mp (hp.ties v hvne)).1] at hops
    rw [hstate, harr, hout]
    exact hst.read v (hlt v hv hvne) (hkind ▸ hk) hops
  · intro v hv hk hops hc
    have hvne := hne v (by rw [hk]; decide)
    obtain ⟨hstate, -⟩ := marks_eq_iff.mp (hp.marks v hvne)
    obtain ⟨hops', -, -, -, -, -, -, hc'⟩ := ties_eq_iff.mp (hp.ties v hvne)
    rw [hops'] at hops
    rw [hc'] at hc
    obtain ⟨hready, hfailed⟩ := hst.single v (hlt v hv hvne) (hkind ▸ hk) hops hc
    rw [hstate]
    exact ⟨fun hr => (congrFun hout v).trans (hready hr), fun hf => hexists v (hfailed hf)⟩
  · intro v hv hc hcl
    have hvne := hne' v hc
    obtain ⟨hstate, -⟩ := marks_eq_iff.mp (hp.marks v hvne)
    rw [(ties_eq_iff.mp (hp.ties v hvne)).2.2.2.2.2.2.2] at hc
    rw [hp.closed, hheadWr v hvne] at hcl
    rw [hstate, hout]
    exact hst.untouched v (hlt v hv hvne) hc hcl
  · intro k hk hc hhd hcl
    have hkne := hne' k hc
    obtain ⟨-, -, -, -, hhd', heh, -, hc'⟩ := ties_eq_iff.mp (hp.ties k hkne)
    rw [heh]
    exact hst.eh k (hlt k hk hkne) (hc' ▸ hc) (hhd' ▸ hhd) (hp.closed ▸ hcl)
  · intro k hk hc hhd
    have hkne := hne' k hc
    obtain ⟨-, -, -, -, hhd', -, -, hc'⟩ := ties_eq_iff.mp (hp.ties k hkne)
    obtain ⟨hstate, -⟩ := marks_eq_iff.mp (hp.marks k hkne)
    obtain ⟨hready, hfailed⟩ := hst.chain k (hlt k hk hkne) (hc' ▸ hc) (hhd' ▸ hhd)
    rw [hstate]
    refine ⟨?_, fun hf => hexists k (hfailed hf)⟩
    intro hr v hv hm
    have hvn := hlt v hv (hne v hm.1)
    rw [hout]
    exact hready hr v hvn ((hmember k v hvn).mp hm)
  · intro v hv hk hops hwait
    have hvne := hne v hk
    obtain ⟨-, herr, hwd, -⟩ := marks_eq_iff.mp (hp.marks v hvne)
    rw [(ties_eq_iff.mp (hp.ties v hvne)).1] at hops
    rw [hout, herr]
    exact hst.nvme v (hlt v hv hvne) (hkind ▸ hk) hops (hwd ▸ hwait)
  · intro v hv hk hops
    have hvne := hne v hk
    obtain ⟨-, herr, -, -⟩ := marks_eq_iff.mp (hp.marks v hvne)
    rw [(ties_eq_iff.mp (hp.ties v hvne)).1] at hops
    rw [hout, herr]
    exact hst.memdev v (hlt v hv hvne) (hkind ▸ hk) hops

/-- The posts of a block end. -/
theorem States.endPosts (hst : s.States) (hp : EndedTo s h s')
    (ho : s'.outcome = s.outcome) : s'.States := by
  have hops : ∀ v, (s'.dma.wr v).dmaOps = (s.dma.wr v).dmaOps := fun v => (hp.fields v).1
  have hheadWr : ∀ v, (s'.dma.wr v).headWr = (s.dma.wr v).headWr := fun v =>
    (hp.fields v).2.2.2.2.1
  have hchain : ∀ v, (s'.dma.wr v).chainedOps = (s.dma.wr v).chainedOps := fun v =>
    (hp.fields v).2.2.2.2.2
  have hmarks := fun v => marks_eq_iff.mp (hp.ends.marks v)
  refine ⟨?_, ?_, ?_, ?_, ?_, ?_, ?_, ?_⟩
  · intro v hv
    rw [ho, (hmarks v).2.2.2]
    exact hst.fresh v (hp.next ▸ hv)
  · intro v hv hk hv'
    rw [(hmarks v).1, (hmarks v).2.2.2, ho]
    exact hst.read v (hp.next ▸ hv) (hp.kind ▸ hk) (hops v ▸ hv')
  · intro v hv hk hv' hc
    rw [(hmarks v).1, ho, hp.next]
    simp only [Member, hp.kind, hheadWr]
    exact hst.single v (hp.next ▸ hv) (hp.kind ▸ hk) (hops v ▸ hv') (hchain v ▸ hc)
  · intro v hv hc hcl
    rw [(hmarks v).1, ho]
    refine hst.untouched v (hp.next ▸ hv) (hchain v ▸ hc) ?_
    rw [hheadWr, hp.closed] at hcl
    by_cases hvh : (s.dma.wr v).headWr = h
    · rw [hvh, Function.update_self] at hcl
      cases hcl
    · rwa [Function.update_of_ne hvh] at hcl
  · intro k hk hc hhd hcl
    rw [hchain] at hc
    rw [hheadWr] at hhd
    by_cases hkh : k = h
    · subst hkh
      exact hp.ends.eh hc
    · rw [hp.closed, Function.update_of_ne hkh] at hcl
      rw [hp.others k (by rw [hhd]; exact hkh)]
      exact hst.eh k (hp.next ▸ hk) hc hhd hcl
  · intro k hk hc hhd
    rw [(hmarks k).1, ho, hp.next]
    simp only [Member, hp.kind, hheadWr]
    exact hst.chain k (hp.next ▸ hk) (hchain k ▸ hc) (hheadWr k ▸ hhd)
  · intro v hv hk hv' hwait
    rw [ho, (hmarks v).2.1]
    exact hst.nvme v (hp.next ▸ hv) (hp.kind ▸ hk) (hops v ▸ hv') ((hmarks v).2.2.1 ▸ hwait)
  · intro v hv hk hv'
    rw [ho, (hmarks v).2.1]
    exact hst.memdev v (hp.next ▸ hv) (hp.kind ▸ hk) (hops v ▸ hv')

/-! ## Outcomes become known -/

/-- What the state of one request says; the rest of `States` is about when it is written. -/
structure Tells (s : DmaSys) (w : ℕ) : Prop where
  read : s.kind w = .read → (s.dma.wr w).dmaOps = .rdma →
    ((s.dma.wr w).state = .ready → s.outcome w = some true) ∧
      ((s.dma.wr w).state = .prFailed → s.outcome w = some false) ∧
      ((s.dma.wr w).arrived.isSome = true → s.outcome w = some true)
  single : s.kind w = .write → (s.dma.wr w).dmaOps = .rdma → (s.dma.wr w).chainedOps = false →
    ((s.dma.wr w).state = .ready → s.outcome w = some true) ∧
      ((s.dma.wr w).state = .pwFailed → ∃ v < s.next, s.Member w v ∧ s.outcome v = some false)
  chain : (s.dma.wr w).chainedOps = true → (s.dma.wr w).headWr = w →
    ((s.dma.wr w).state = .ready → ∀ v < s.next, s.Member w v → s.outcome v = some true) ∧
      ((s.dma.wr w).state = .pwFailed → ∃ v < s.next, s.Member w v ∧ s.outcome v = some false)
  nvme : s.kind w ≠ .other → (s.dma.wr w).dmaOps = .nvme → (s.dma.wr w).waitDone = true →
    s.outcome w = some ((s.dma.wr w).errno == 0)
  memdev : s.kind w ≠ .other → (s.dma.wr w).dmaOps = .memdev →
    s.outcome w = some ((s.dma.wr w).errno == 0)

/-- Outcomes become known, and the marks of one request are written. -/
theorem States.touch {k : ℕ} (hst : s.States) (hnext : s'.next = s.next)
    (hkind : s'.kind = s.kind) (hclosed : s'.closed = s.closed)
    (hties : ∀ v, (s'.dma.wr v).ties = (s.dma.wr v).ties)
    (hmarks : ∀ v, v ≠ k → (s'.dma.wr v).marks = (s.dma.wr v).marks) (hk : k < s.next)
    (hmono : ∀ v b, s.outcome v = some b → s'.outcome v = some b)
    (hfresh : ∀ v, s.next ≤ v → s'.outcome v = s.outcome v)
    (hopen : ∀ v < s.next, (s.dma.wr v).chainedOps = true →
      s.closed (s.dma.wr v).headWr = false → v ≠ k ∧ s'.outcome v = s.outcome v)
    (hself : s'.Tells k) : s'.States := by
  have hops : ∀ v, (s'.dma.wr v).dmaOps = (s.dma.wr v).dmaOps := fun v =>
    (ties_eq_iff.mp (hties v)).1
  have hheadWr : ∀ v, (s'.dma.wr v).headWr = (s.dma.wr v).headWr := fun v =>
    (ties_eq_iff.mp (hties v)).2.2.2.2.1
  have heh : ∀ v, (s'.dma.wr v).ehWr = (s.dma.wr v).ehWr := fun v =>
    (ties_eq_iff.mp (hties v)).2.2.2.2.2.1
  have hchain : ∀ v, (s'.dma.wr v).chainedOps = (s.dma.wr v).chainedOps := fun v =>
    (ties_eq_iff.mp (hties v)).2.2.2.2.2.2.2
  have hexists : ∀ w, (∃ v < s.next, s.Member w v ∧ s.outcome v = some false) →
      ∃ v < s'.next, s'.Member w v ∧ s'.outcome v = some false := by
    rintro w ⟨v, hv, hm, hov⟩
    refine ⟨v, by rwa [hnext], ?_, hmono v false hov⟩
    simp only [Member, hkind, hheadWr]
    exact hm
  refine ⟨?_, ?_, ?_, ?_, ?_, ?_, ?_, ?_⟩
  · intro v hv
    rw [hnext] at hv
    rw [hfresh v hv, (marks_eq_iff.mp (hmarks v (by omega))).2.2.2]
    exact hst.fresh v hv
  · intro v hv hkv hov
    by_cases hvk : v = k
    · exact hvk ▸ hself.read (hvk ▸ hkv) (hvk ▸ hov)
    · obtain ⟨hstate, -, -, harr⟩ := marks_eq_iff.mp (hmarks v hvk)
      obtain ⟨hready, hfailed, harrived⟩ := hst.read v (hnext ▸ hv) (hkind ▸ hkv) (hops v ▸ hov)
      rw [hstate, harr]
      exact ⟨fun h => hmono v _ (hready h), fun h => hmono v _ (hfailed h),
        fun h => hmono v _ (harrived h)⟩
  · intro v hv hkv hov hc
    by_cases hvk : v = k
    · exact hvk ▸ hself.single (hvk ▸ hkv) (hvk ▸ hov) (hvk ▸ hc)
    · obtain ⟨hstate, -⟩ := marks_eq_iff.mp (hmarks v hvk)
      obtain ⟨hready, hfailed⟩ :=
        hst.single v (hnext ▸ hv) (hkind ▸ hkv) (hops v ▸ hov) (hchain v ▸ hc)
      rw [hstate]
      exact ⟨fun h => hmono v _ (hready h), fun h => hexists v (hfailed h)⟩
  · intro v hv hc hcl
    rw [hnext] at hv
    rw [hchain] at hc
    rw [hclosed, hheadWr] at hcl
    obtain ⟨hvk, hout⟩ := hopen v hv hc hcl
    rw [(marks_eq_iff.mp (hmarks v hvk)).1, hout]
    exact hst.untouched v hv hc hcl
  · intro v hv hc hhd hcl
    rw [heh]
    exact hst.eh v (hnext ▸ hv) (hchain v ▸ hc) (hheadWr v ▸ hhd) (hclosed ▸ hcl)
  · intro v hv hc hhd
    by_cases hvk : v = k
    · exact hvk ▸ hself.chain (hvk ▸ hc) (hvk ▸ hhd)
    · obtain ⟨hready, hfailed⟩ := hst.chain v (hnext ▸ hv) (hchain v ▸ hc) (hheadWr v ▸ hhd)
      rw [(marks_eq_iff.mp (hmarks v hvk)).1]
      refine ⟨?_, fun h => hexists v (hfailed h)⟩
      intro h u hu hm
      simp only [Member, hkind, hheadWr] at hm
      exact hmono u _ (hready h u (hnext ▸ hu) hm)
  · intro v hv hkv hov hwait
    by_cases hvk : v = k
    · exact hvk ▸ hself.nvme (hvk ▸ hkv) (hvk ▸ hov) (hvk ▸ hwait)
    · obtain ⟨-, herr, hwd, -⟩ := marks_eq_iff.mp (hmarks v hvk)
      rw [herr]
      exact hmono v _ (hst.nvme v (hnext ▸ hv) (hkind ▸ hkv) (hops v ▸ hov) (hwd ▸ hwait))
  · intro v hv hkv hov
    by_cases hvk : v = k
    · exact hvk ▸ hself.memdev (hvk ▸ hkv) (hvk ▸ hov)
    · obtain ⟨-, herr, -, -⟩ := marks_eq_iff.mp (hmarks v hvk)
      rw [herr]
      exact hmono v _ (hst.memdev v (hnext ▸ hv) (hkind ▸ hkv) (hops v ▸ hov))

/-- A completion only writes the state of one request. -/
theorem handleRdma_eq (s : DmaSys) (w : ℕ) (ok : Bool) :
    ∃ c n, (s.stepComplete w ok).dma = (s.dma.addPending c n).setState
      (outcomeCell s.dma w (if ok then .ready else if s.kind w = .write then .pwFailed
        else .prFailed))
      (if ok then .ready else if s.kind w = .write then .pwFailed else .prFailed) := by
  have hcell : ∀ c n st, outcomeCell (s.dma.addPending c n) w st = outcomeCell s.dma w st :=
    fun _ _ _ => rfl
  have hzero : s.dma = s.dma.addPending (s.dma.wr w).context 0 := by
    simp [Dma.addPending, Dma.setContext]
  by_cases hk : s.kind w = .write
  · simp only [stepComplete, if_pos hk, handleRdmaWrite, updateWrState_eq]
    split
    · exact ⟨_, _, by rw [hcell]⟩
    · exact ⟨(s.dma.wr w).context, 0, by rw [← hzero]⟩
  · simp only [stepComplete, if_neg hk, handleRdmaRead, updateWrState_eq]
    exact ⟨_, _, by rw [hcell]⟩

/-- What the guard of a completion says. -/
theorem canComplete_iff {ok : Bool} : s.canComplete w ok = true ↔
    w < s.next ∧ s.kind w ≠ .other ∧ (s.dma.wr w).dmaOps = .rdma ∧ s.outcome w = none ∧
      (ok = true → (s.dma.wr w).signaled = true) ∧
      ((s.dma.wr w).chainedOps = true → s.closed (s.dma.wr w).headWr = true ∧
        (ok = true → ∀ v < s.next, s.inChain w v = true → s.outcome v = none) ∧
        (ok = false → ∀ v < s.next, s.inChain w v = true → s.outcome v ≠ some true)) := by
  simp only [canComplete, Bool.and_eq_true, Bool.or_eq_true, decide_eq_true_eq, bne_iff_ne,
    beq_iff_eq, Option.isNone_iff_eq_none, Bool.not_eq_true', and_assoc]
  cases ok <;> cases (s.dma.wr w).chainedOps <;> simp

/-- The requests of the chain of a chained request are its block. -/
theorem inChain_iff (hs : s.Shape) (hw : w < s.next) (hc : (s.dma.wr w).chainedOps = true) :
    s.inChain w v = true ↔ v < s.next ∧ s.Member (s.dma.wr w).headWr v := by
  have hkw : s.kind w = .write := (hs.chain w hw hc).1
  obtain ⟨-, -, hkh, hch⟩ := hs.head w hw (by rw [hkw]; decide)
  have hu : s.unit w = (s.dma.wr w).headWr := by simp [unit, hc]
  simp only [inChain, Bool.and_eq_true, decide_eq_true_eq, beq_iff_eq, hu, and_assoc]
  refine and_congr_right fun hv => ⟨?_, ?_⟩
  · rintro ⟨hkv, huv⟩
    refine ⟨by rw [hkv]; decide, ?_⟩
    by_cases hcv : (s.dma.wr v).chainedOps = true
    · simpa [unit, hcv] using huv
    · have hvh : v = (s.dma.wr w).headWr := by simpa [unit, hcv] using huv
      rw [hvh, hch, hc] at hcv
      exact absurd rfl hcv
  · rintro ⟨hkv, hhv⟩
    obtain ⟨-, -, hkhv, hchv⟩ := hs.head v hv hkv
    rw [hhv] at hkhv hchv
    refine ⟨by rw [← hkhv, hkh, hkw], ?_⟩
    simp [unit, ← hchv, hch, hc, hhv]

/-- The request whose state is written when the device reports `w`. -/
def cell (s : DmaSys) (w : ℕ) (ok : Bool) : ℕ :=
  if (s.dma.wr w).chainedOps = true then (s.dma.wr w).headWr
  else if ok = true ∨ s.kind w = .read then w else (s.dma.wr w).headWr

/-- The state that is written there. -/
def report (s : DmaSys) (w : ℕ) (ok : Bool) : WrState :=
  if ok then .ready else if s.kind w = .write then .pwFailed else .prFailed

theorem cell_lt {ok : Bool} (hs : s.Shape) (hw : w < s.next) (hk : s.kind w ≠ .other) :
    s.cell w ok < s.next := by
  have hlth := (hs.head w hw hk).1
  simp only [cell]
  split
  · exact hlth
  · split
    · exact hw
    · exact hlth

theorem wr_stepComplete {ok : Bool} (hs : s.Shape) (hst : s.States)
    (hg : s.canComplete w ok = true) (v : ℕ) : (s.stepComplete w ok).dma.wr v =
      { s.dma.wr v with
        state := if v = s.cell w ok then s.report w ok else (s.dma.wr v).state } := by
  rw [canComplete_iff] at hg
  obtain ⟨hw, hk, -, -, -, hchained⟩ := hg
  obtain ⟨hlth, hhh, -, hch⟩ := hs.head w hw hk
  obtain ⟨c, n, hdma⟩ := handleRdma_eq s w ok
  have hcell : outcomeCell s.dma w (s.report w ok) = s.cell w ok := by
    simp only [report, cell]
    cases hkw : s.kind w with
    | other => exact absurd hkw hk
    | read =>
        have hno : (s.dma.wr w).chainedOps = false := by
          by_contra hc
          have := (hs.chain w hw (by simpa using hc)).1
          rw [hkw] at this
          cases this
        cases ok <;> simp [outcomeCell, hno]
    | write =>
        by_cases hc : (s.dma.wr w).chainedOps = true
        · have heh := hst.eh (s.dma.wr w).headWr hlth (hch.trans hc) hhh (hchained hc).1
          cases ok <;> simp [outcomeCell, hc, heh]
        · cases ok <;> simp [outcomeCell, hc]
  rw [hdma, Dma.wr_setState, Dma.wr_addPending, ← hcell]
  rfl

theorem outcome_stepComplete (s : DmaSys) (w : ℕ) (ok : Bool) (v : ℕ) :
    (s.stepComplete w ok).outcome v =
      if ok = true ∧ (s.dma.wr w).chainedOps = true then
        if s.inChain w v = true then some true else s.outcome v
      else if v = w then some ok else s.outcome v := by
  simp only [stepComplete, Bool.and_eq_true]
  split
  · rfl
  · by_cases hvw : v = w <;> simp [hvw]

/-- An outcome that is known does not change. -/
theorem outcome_mono {ok : Bool} (hs : s.Shape) (hg : s.canComplete w ok = true) {b : Bool}
    (hb : s.outcome v = some b) : (s.stepComplete w ok).outcome v = some b := by
  rw [canComplete_iff] at hg
  obtain ⟨hw, -, -, hnone, -, hchained⟩ := hg
  rw [outcome_stepComplete]
  split
  · next hc =>
    split
    · next hin =>
      have hvn := ((inChain_iff hs hw hc.2).mp hin).1
      rw [(hchained hc.2).2.1 hc.1 v hvn hin] at hb
      cases hb
    · exact hb
  · have hvw : v ≠ w := by
      rintro rfl
      rw [hnone] at hb
      cases hb
    rw [if_neg hvw]
    exact hb

/-- What is written is right: the request succeeded or failed, or its chain did. -/
theorem tells_complete {ok : Bool} (hs : s.Shape) (hst : s.States)
    (hg : s.canComplete w ok = true) : (s.stepComplete w ok).Tells (s.cell w ok) := by
  have hcan := hg
  rw [canComplete_iff] at hcan
  obtain ⟨hw, hk, hops, hnone, -, hchained⟩ := hcan
  obtain ⟨hlth, hhh, hkh, hch⟩ := hs.head w hw hk
  have hwr := wr_stepComplete hs hst hg
  have hself : ((s.stepComplete w ok).dma.wr (s.cell w ok)).state = s.report w ok := by
    rw [hwr, if_pos rfl]
  have hmember : ∀ k v, (s.stepComplete w ok).Member k v ↔ s.Member k v := by
    intro k v
    simp only [Member, hwr]
    rfl
  have hfailed : ok = false → ∃ v < s.next, s.Member (s.dma.wr w).headWr v ∧
      (s.stepComplete w ok).outcome v = some false := by
    intro hf
    exact ⟨w, hw, ⟨hk, rfl⟩, by rw [outcome_stepComplete]; simp [hf]⟩
  have hnext : (s.stepComplete w ok).next = s.next := rfl
  have hkind : (s.stepComplete w ok).kind = s.kind := rfl
  by_cases hc : (s.dma.wr w).chainedOps = true
  · have hcell : s.cell w ok = (s.dma.wr w).headWr := by simp [cell, hc]
    have hkw := (hs.chain w hw hc).1
    have hopsh := (hs.chain _ hlth (hch.trans hc)).2.1
    rw [hcell] at hself ⊢
    refine ⟨?_, ?_, ?_, ?_, ?_⟩
    · intro hkr
      rw [hkind, hkh, hkw] at hkr
      cases hkr
    · intro _ _ hno
      rw [hwr] at hno
      exact absurd (hno.symm.trans (hch.trans hc)) (by decide)
    · intro _ _
      simp only [hself, hmember, hnext]
      cases ok with
      | true =>
          refine ⟨fun _ v hv hm => ?_, fun h => ?_⟩
          · rw [outcome_stepComplete, if_pos ⟨rfl, hc⟩,
              if_pos ((inChain_iff hs hw hc).mpr ⟨hv, hm⟩)]
          · simp [report] at h
      | false =>
          refine ⟨fun h => ?_, fun _ => hfailed rfl⟩
          simp [report, hkw] at h
    · intro _ ho
      rw [hwr] at ho
      exact absurd (hopsh.symm.trans ho) (by decide)
    · intro _ ho
      rw [hwr] at ho
      exact absurd (hopsh.symm.trans ho) (by decide)
  · have hout : (s.stepComplete w ok).outcome w = some ok := by
      rw [outcome_stepComplete]
      simp [hc]
    by_cases hor : ok = true ∨ s.kind w = .read
    · have hcell : s.cell w ok = w := by simp [cell, hc, hor]
      rw [hcell] at hself ⊢
      refine ⟨?_, ?_, ?_, ?_, ?_⟩
      · intro hkr _
        have harr : ((s.stepComplete w ok).dma.wr w).arrived = (s.dma.wr w).arrived := by rw [hwr]
        obtain ⟨-, -, harrived⟩ := hst.read w hw hkr hops
        simp only [hself, hout, harr]
        refine ⟨?_, ?_, ?_⟩
        · intro h
          cases ok with
          | true => rfl
          | false =>
              rw [hkind] at hkr
              simp [report, hkr] at h
        · intro h
          cases ok with
          | true => simp [report] at h
          | false => rfl
        · intro h
          rw [hnone] at harrived
          cases harrived h
      · intro hkw _ _
        rw [hkind] at hkw
        have hok : ok = true := hor.resolve_right (by rw [hkw]; decide)
        simp only [hself, hout]
        refine ⟨fun _ => by rw [hok], fun h => ?_⟩
        simp [report, hok] at h
      · intro hc'
        rw [hwr] at hc'
        exact absurd hc' hc
      · intro _ ho
        rw [hwr] at ho
        exact absurd (hops.symm.trans ho) (by decide)
      · intro _ ho
        rw [hwr] at ho
        exact absurd (hops.symm.trans ho) (by decide)
    · have hcell : s.cell w ok = (s.dma.wr w).headWr := by simp [cell, hc, hor]
      obtain ⟨hfail, hnr⟩ := not_or.mp hor
      have hf : ok = false := by simpa using hfail
      have hkw : s.kind w = .write := by
        cases hkw : s.kind w with
        | other => exact absurd hkw hk
        | read => exact absurd hkw hnr
        | write => rfl
      rw [hcell] at hself ⊢
      refine ⟨?_, ?_, ?_, ?_, ?_⟩
      · intro hkr
        rw [hkind, hkh, hkw] at hkr
        cases hkr
      · intro _ _ _
        simp only [hself, hmember, hnext]
        refine ⟨fun h => ?_, fun _ => hfailed hf⟩
        simp [report, hf, hkw] at h
      · intro hc'
        rw [hwr] at hc'
        exact absurd (hch.symm.trans hc') hc
      · intro hkn ho hwait
        rw [hwr] at ho hwait ⊢
        exact outcome_mono hs hg (hst.nvme _ hlth hkn ho hwait)
      · intro hkn ho
        rw [hwr] at ho ⊢
        exact outcome_mono hs hg (hst.memdev _ hlth hkn ho)

/-- The device reports a request, or a chain. -/
theorem States.complete {ok : Bool} (hs : s.Shape) (hst : s.States)
    (hg : s.canComplete w ok = true) : (s.stepComplete w ok).States := by
  have hcan := hg
  rw [canComplete_iff] at hcan
  obtain ⟨hw, hk, -, -, -, hchained⟩ := hcan
  obtain ⟨-, hhh, -, hch⟩ := hs.head w hw hk
  have hwr := wr_stepComplete hs hst hg
  refine hst.touch rfl rfl rfl ?_ (k := s.cell w ok) ?_ (cell_lt hs hw hk)
    (fun v b hb => outcome_mono hs hg hb) ?_ ?_ (tells_complete hs hst hg)
  · intro v
    rw [hwr]
    rfl
  · intro v hv
    rw [hwr, if_neg hv]
  · intro v hv
    have hvw : v ≠ w := by omega
    have hin : ¬ s.inChain w v = true := by simp [inChain, Nat.not_lt.mpr hv]
    rw [outcome_stepComplete]
    simp [hvw, hin]
  · intro v hv hc hcl
    have hvw : v ≠ w := by
      rintro rfl
      rw [(hchained hc).1] at hcl
      cases hcl
    have hin : (s.dma.wr w).chainedOps = true → ¬ s.inChain w v = true := by
      intro hcw hin
      rw [((inChain_iff hs hw hcw).mp hin).2.2, (hchained hcw).1] at hcl
      cases hcl
    refine ⟨?_, ?_⟩
    · simp only [cell]
      split
      · next hcw =>
        rintro rfl
        rw [hhh, (hchained hcw).1] at hcl
        cases hcl
      · next hcw =>
        split
        · exact hvw
        · rintro rfl
          exact hcw (hch.symm.trans hc)
    · rw [outcome_stepComplete]
      split
      · next hcw => rw [if_neg (hin hcw.2)]
      · rfl

/-- A memory-polled read arrives. -/
theorem States.arrive {differs : Bool} (hst : s.States) (hs : s.Shape) (hw : w < s.next)
    (hk : s.kind w = .read) (hops : (s.dma.wr w).dmaOps = .rdma) (hnone : s.outcome w = none) :
    States { s with
      dma := s.dma.setWr w { s.dma.wr w with arrived := some differs }
      outcome := Function.update s.outcome w (some true) } := by
  have hno : (s.dma.wr w).chainedOps ≠ true := by
    intro hc
    rw [(hs.chain w hw hc).1] at hk
    cases hk
  refine hst.touch rfl rfl rfl ?_ (k := w) ?_ hw ?_ ?_ ?_ ?_
  · intro v
    by_cases hv : v = w <;> simp [hv, WorkRequest.ties]
  · intro v hv
    simp [hv]
  · intro v b hb
    have hvw : v ≠ w := by
      rintro rfl
      rw [hnone] at hb
      cases hb
    simp [hvw, hb]
  · intro v hv
    have hvw : v ≠ w := by omega
    simp [hvw]
  · intro v _ hc _
    have hvw : v ≠ w := fun h => hno (h ▸ hc)
    exact ⟨hvw, by simp [hvw]⟩
  · obtain ⟨-, hfailed, -⟩ := hst.read w hw hk hops
    rw [hnone] at hfailed
    refine ⟨?_, ?_, ?_, ?_, ?_⟩
    · intro _ _
      refine ⟨fun _ => by simp, fun h => ?_, fun _ => by simp⟩
      simp at h
      cases hfailed h
    · intro hkw
      exact absurd (hk.symm.trans hkw) (by decide)
    · intro hc
      simp at hc
      exact absurd hc hno
    · intro _ ho
      simp [hops] at ho
    · intro _ ho
      simp [hops] at ho

/-- A block device request ends. -/
theorem States.endIo {n : ℕ} (hst : s.States) (hs : s.Shape) (hw : w < s.next)
    (hops : (s.dma.wr w).dmaOps = .nvme) (hnone : s.outcome w = none) :
    States { s with
      dma := bdevEndIo s.dma w n
      outcome := Function.update s.outcome w (some (n == 0)) } := by
  have hno : (s.dma.wr w).chainedOps ≠ true := by
    intro hc
    rw [(hs.chain w hw hc).2.1] at hops
    cases hops
  refine hst.touch rfl rfl rfl ?_ (k := w) ?_ hw ?_ ?_ ?_ ?_
  · intro v
    by_cases hv : v = w <;> simp [bdevEndIo, hv, WorkRequest.ties]
  · intro v hv
    simp [bdevEndIo, hv]
  · intro v b hb
    have hvw : v ≠ w := by
      rintro rfl
      rw [hnone] at hb
      cases hb
    simp [hvw, hb]
  · intro v hv
    have hvw : v ≠ w := by omega
    simp [hvw]
  · intro v _ hc _
    have hvw : v ≠ w := fun h => hno (h ▸ hc)
    exact ⟨hvw, by simp [hvw]⟩
  · refine ⟨?_, ?_, ?_, ?_, ?_⟩
    · intro _ ho
      simp [bdevEndIo, hops] at ho
    · intro _ ho
      simp [bdevEndIo, hops] at ho
    · intro hc
      simp [bdevEndIo] at hc
      exact absurd hc hno
    · intro _ _ _
      simp [bdevEndIo]
    · intro _ ho
      simp [bdevEndIo, hops] at ho

end DmaSys

end Emp
