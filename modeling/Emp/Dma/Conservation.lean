import Emp.Dma.Flags

/-!
# Conservation of requests

A region's `wr_len` is the number of its allocated requests, a context's the number of
its requests that are posted and not waited for, and a head's `wr_refc` the number of
its block's requests that are not cleared, of a chain the head alone, which is waited
for and cleared in the name of all.

Two steps leave a count behind and are kept out: a post that a full send queue refuses,
and a poll that answers with a failure.

## Main results

* `conserved_of_reach` — the counts in every run without these two steps.
-/

namespace Emp

namespace DmaSys

variable {s s' : DmaSys} {e : Event} {w : ℕ}

/-- The requests of context `c` that are posted and not waited for. -/
abbrev InFlight (s : DmaSys) (c v : ℕ) : Prop :=
  s.kind v ≠ .other ∧ (s.dma.wr v).context = c ∧ s.cleared (s.unit v) = false

/-- Neither of the two steps that leave a count behind. -/
def Counts (s : DmaSys) : Event → Prop
  | .postWrite place _ full _ =>
      ¬ (full = true ∧ place.ops = .rdma ∧ (s.dma.context place.context).chainedOps = false)
  | .pollRead w => s.pollsWell w
  | _ => True

/-- The counts, and what follows for blocks and contexts that are done. -/
structure Conserved (s : DmaSys) : Prop where
  own : ∀ w < s.next, (s.dma.wr w).mrid = (s.dma.wr w).memreg
  region : ∀ m, s.dma.mrWrLen m =
    (Nat.count (fun w => (s.dma.wr w).live = true ∧ (s.dma.wr w).memreg = m) s.next : ℕ)
  context : ∀ c, (s.dma.context c).wrLen = (Nat.count (s.InFlight c) s.next : ℕ)
  head : ∀ h < s.next, s.kind h ≠ .other → (s.dma.wr h).headWr = h →
    (s.dma.wr h).wrRefc = (Nat.count (s.Owed h) s.next : ℕ)
  block : ∀ h < s.next, s.kind h ≠ .other → (s.dma.wr h).headWr = h →
    (∀ v < s.next, s.Member h v → s.cleared (s.unit v) = true) →
      (∀ v < s.next, s.Member h v → (s.dma.wr v).live = false) ∧
        (s.kind h = .write → s.dma.finished h = true)
  idle : ∀ c, (∀ v < s.next, s.kind v ≠ .other → (s.dma.wr v).context = c →
    s.cleared (s.unit v) = true) → (s.dma.context c).wrLen = 0

/-- What the two steps would break. -/
structure Balanced (s : DmaSys) : Prop where
  refused : ∀ h, s.refused h = 0
  context : ∀ c, (s.dma.context c).wrLen = (Nat.count (s.InFlight c) s.next : ℕ)

/-- Requests of one context have the units they had. -/
theorem inFlight_congr (hkind : s'.kind = s.kind) (hcleared : s'.cleared = s.cleared)
    (hties : ∀ v, (s'.dma.wr v).context = (s.dma.wr v).context ∧
      (s'.dma.wr v).headWr = (s.dma.wr v).headWr ∧
      (s'.dma.wr v).chainedOps = (s.dma.wr v).chainedOps) (c v : ℕ) :
    s'.InFlight c v ↔ s.InFlight c v := by
  obtain ⟨hctx, hhead, hchain⟩ := hties v
  simp only [InFlight, unit, hkind, hcleared, hctx, hhead, hchain]

theorem Balanced.of_same (hb : s.Balanced) (hnext : s'.next = s.next) (hkind : s'.kind = s.kind)
    (hrefused : s'.refused = s.refused) (hcleared : s'.cleared = s.cleared)
    (hties : ∀ v, (s'.dma.wr v).context = (s.dma.wr v).context ∧
      (s'.dma.wr v).headWr = (s.dma.wr v).headWr ∧
      (s'.dma.wr v).chainedOps = (s.dma.wr v).chainedOps)
    (hlen : ∀ c, (s'.dma.context c).wrLen = (s.dma.context c).wrLen) : s'.Balanced := by
  refine ⟨fun h => hrefused ▸ hb.refused h, ?_⟩
  intro c
  rw [hlen, hb.context, hnext]
  congr 1
  apply Census.count_congr
  intro v _
  exact (inFlight_congr hkind hcleared hties c v).symm

theorem ties_of_frees {l : List ℕ} {d d' : Dma} (hf : Frees l d d') (v : ℕ) :
    (d'.wr v).context = (d.wr v).context ∧ (d'.wr v).headWr = (d.wr v).headWr ∧
      (d'.wr v).chainedOps = (d.wr v).chainedOps := by
  obtain ⟨-, -, -, hctx, hhead, -, -, hchain⟩ := ties_eq_iff.mp (hf.ties v)
  exact ⟨hctx, hhead, hchain⟩

/-- A post counts the new request on its context. -/
theorem Balanced.post {kind : Kind} {place : Place} {h errno : ℕ} {chained : Bool}
    (hs : s.Shape) (hb : s.Balanced) (hj : Joins s kind place h chained)
    (hp : PostedTo s kind place h chained errno s') : s'.Balanced := by
  obtain ⟨-, -, -, -, -, hclw, -⟩ := hs.fresh s.next (Nat.le_refl _)
  refine ⟨fun k => hp.refused ▸ hb.refused k, ?_⟩
  intro c
  have hcount : Nat.count (s'.InFlight c) s'.next =
      Nat.count (s.InFlight c) s.next + if s'.InFlight c s.next then 1 else 0 := by
    rw [hp.next]
    refine Census.count_extend (p := s.InFlight c) ?_
    intro v hv
    have hne : v ≠ s.next := by omega
    have hctx := (ties_eq_iff.mp (hp.ties v hne)).2.2.2.1
    simp only [InFlight, hp.kinds, Function.update_of_ne hne, hctx, hp.unit_eq hne, hp.cleared]
  have hnew : s'.InFlight c s.next ↔ place.context = c := by
    have hunit : s'.cleared (s'.unit s.next) = false := by
      simp only [unit, hp.self.chainedOps, hp.self.headWr, hp.cleared]
      split
      · by_cases hh : h = s.next
        · rw [hh]
          exact hclw
        · obtain ⟨hlt, hhd, hkh, hop, -⟩ := hj.old hh
          by_contra hc
          have := (hs.cleared h hlt (hkh ▸ hj.kind_ne) (by simpa using hc)).1
          rw [hhd, hop] at this
          cases this
      · exact hclw
    simp only [InFlight, hp.kinds, Function.update_self, hp.self.context, hunit]
    simp [hj.kind_ne]
  rw [hp.wrLen, hb.context, hcount]
  by_cases hc : place.context = c
  · rw [if_pos hc, if_pos (hnew.mpr hc)]
    push_cast
    omega
  · rw [if_neg hc, if_neg fun h => hc (hnew.mp h)]
    omega

/-- A request that only signals is not counted. -/
theorem Balanced.signal (hs : s.Shape) (hb : s.Balanced) (hp : SparedTo s none s')
    (hctx : s'.dma.context = s.dma.context) : s'.Balanced := by
  obtain ⟨-, -, -, hkw, -, -, -⟩ := hs.fresh s.next (Nat.le_refl _)
  have hkind := hp.kind_eq hs
  refine ⟨?_, ?_⟩
  · intro h
    rw [hp.refused, hb.refused]
    simp
  · intro c
    have hcount : Nat.count (s'.InFlight c) s'.next = Nat.count (s.InFlight c) s.next := by
      rw [hp.next, Census.count_extend (p := s.InFlight c)]
      · have hno : ¬ s'.InFlight c s.next := by
          rintro ⟨hk, -⟩
          rw [hkind] at hk
          exact hk hkw
        simp [hno]
      · intro v hv
        have hne : v ≠ s.next := by omega
        obtain ⟨-, -, -, hcv, hhv, -, -, hchv⟩ := ties_eq_iff.mp (hp.ties v hne)
        simp only [InFlight, unit, hkind, hcv, hhv, hchv, hp.cleared]
        refine and_congr_right fun hkv => and_congr_right fun _ => ?_
        have hhead := (hs.head v hv hkv).1
        split
        · rw [Function.update_of_ne (by omega)]
        · rw [Function.update_of_ne hne]
    rw [hctx, hb.context, hcount]

/-- A clear takes its request, or its chain, off the context. -/
theorem Balanced.clear {kind : Kind} {n : ℤ} {l : List ℕ} (hb : s.Balanced) (hg : s.canClear kind w = true)
    (hc : Clears w (s.dma.wr w).headWr n l s.dma s'.dma) (ht : ClearedTo s w s'.dma s')
    (hn : n = (Nat.count (fun v => s.kind v ≠ .other ∧ s.unit v = w) s.next : ℕ))
    (hctx : ∀ v < s.next, s.kind v ≠ .other → s.unit v = w →
      (s.dma.wr v).context = (s.dma.wr w).context) : s'.Balanced := by
  obtain ⟨hw, hkw, hcl, -, -⟩ := canClear_iff.mp hg
  refine ⟨fun h => ht.refused ▸ hb.refused h, ?_⟩
  intro c
  have hunit := unit_congr hc.ties
  have hflight : ∀ v, s'.InFlight c v ↔ s.InFlight c v ∧ s.unit v ≠ w := by
    intro v
    have hcv := (ties_eq_iff.mp (hc.ties v)).2.2.2.1
    simp only [InFlight, ht.kind, hcv, hunit, ht.cleared]
    by_cases hv : s.unit v = w
    · simp [hv]
    · simp [hv]
  by_cases hwc : (s.dma.wr w).context = c
  · have hsplit : Nat.count (s.InFlight c) s.next = Nat.count (s'.InFlight c) s.next +
        Nat.count (fun v => s.kind v ≠ .other ∧ s.unit v = w) s.next := by
      apply Census.count_split
      · intro v hv
        rw [hflight]
        constructor
        · intro hf
          by_cases hu : s.unit v = w
          · exact Or.inr ⟨hf.1, hu⟩
          · exact Or.inl ⟨hf, hu⟩
        · rintro (⟨hf, -⟩ | ⟨hkv, hu⟩)
          · exact hf
          · exact ⟨hkv, (hctx v hv hkv hu).trans hwc, by rw [hu]; exact hcl⟩
      · intro v _ hf hor
        exact ((hflight v).mp hf).2 hor.2
    rw [hc.wrLen, if_pos hwc, hb.context, ht.next, hsplit, hn]
    push_cast
    omega
  · have hsame : Nat.count (s'.InFlight c) s.next = Nat.count (s.InFlight c) s.next := by
      apply Census.count_congr
      intro v hv
      rw [hflight]
      refine ⟨fun h => h.1, fun h => ⟨h, ?_⟩⟩
      intro hu
      exact hwc ((hctx v hv h.1 hu).symm.trans h.2.1)
    rw [hc.wrLen, if_neg hwc, hb.context, ht.next, hsame]
    omega

/-- The requests that are waited for through an independent one: itself. -/
theorem unit_single (hs : s.Shape) (hc : (s.dma.wr w).chainedOps = false) {v : ℕ} (hv : v < s.next) (hkv : s.kind v ≠ .other) :
    s.unit v = w ↔ v = w := by
  constructor
  · intro hu
    by_cases hcv : (s.dma.wr v).chainedOps = true
    · have hhead : (s.dma.wr v).headWr = w := by simpa [unit, hcv] using hu
      have := (hs.head v hv hkv).2.2.2
      rw [hhead, hc, hcv] at this
      cases this
    · simpa [unit, hcv] using hu
  · rintro rfl
    simp [unit, hc]

theorem count_single (hs : s.Shape) (hw : w < s.next) (hk : s.kind w ≠ .other)
    (hc : (s.dma.wr w).chainedOps = false) :
    Nat.count (fun v => s.kind v ≠ .other ∧ s.unit v = w) s.next = 1 := by
  rw [← Census.count_eq hw]
  apply Census.count_congr
  intro v hv
  refine ⟨?_, ?_⟩
  · rintro ⟨hkv, hu⟩
    exact (unit_single hs hc hv hkv).mp hu
  · rintro rfl
    exact ⟨hk, (unit_single hs hc hv hk).mpr rfl⟩

/-- Those waited for through the head of a chain: its block. -/
theorem unit_chain (hs : s.Shape) (hc : (s.dma.wr w).chainedOps = true) (hhd : (s.dma.wr w).headWr = w) {v : ℕ}
    (hv : v < s.next) (hkv : s.kind v ≠ .other) :
    s.unit v = w ↔ (s.dma.wr v).headWr = w := by
  constructor
  · intro hu
    by_cases hcv : (s.dma.wr v).chainedOps = true
    · simpa [unit, hcv] using hu
    · have : v = w := by simpa [unit, hcv] using hu
      rw [this, hhd]
  · intro hhead
    have := (hs.head v hv hkv).2.2.2
    rw [hhead, hc] at this
    simp [unit, ← this, hhead]

theorem balanced_of_effect (hi : s.Inv) (hb : s.Balanced) (hok : s.Counts e)
    (he : Effect s e s') : s'.Balanced := by
  have hs := hi.shape
  cases he with
  | posted hj hp _ _ => exact hb.post hs hj hp
  | refused _ _ hfull hops hc => exact absurd ⟨hfull, hops, hc⟩ hok
  | signal hp _ hctx _ => exact hb.signal hs hp hctx
  | ended hp _ _ =>
      refine hb.of_same hp.next hp.kind hp.refused hp.cleared ?_ hp.ends.wrLen
      intro v
      obtain ⟨-, -, -, hctx, hhead, hchain⟩ := hp.fields v
      exact ⟨hctx, hhead, hchain⟩
  | told hn hk _ hr hcl hf _ hlen _ _ _ => exact hb.of_same hn hk hr hcl (ties_of_frees hf) hlen
  | freed _ _ _ hn hk _ hr hcl hf _ hlen _ _ _ =>
      exact hb.of_same hn hk hr hcl (ties_of_frees hf) hlen
  | @clearedRead _ _ w n hg hc _ ht _ _ hn _ =>
      obtain ⟨hw, hkw, -⟩ := canClear_iff.mp hg
      have hk : s.kind w ≠ .other := by rw [hkw]; decide
      have hno : (s.dma.wr w).chainedOps = false := by
        by_contra hch
        have := (hs.chain w hw (by simpa using hch)).1
        rw [hkw] at this
        cases this
      have hone : n = 1 := by
        rcases hn with hn | ⟨rfl, hbad⟩
        · exact hn
        · exact absurd hok hbad
      refine hb.clear hg hc ht ?_ ?_
      · rw [hone, count_single hs hw hk hno]
        rfl
      · intro v hv hkv hu
        rw [(unit_single hs hno hv hkv).mp hu]
  | @clearedWrite _ _ w hg hc _ ht _ _ _ =>
      obtain ⟨hw, hkw, hcl, hclosed, hunit⟩ := canClear_iff.mp hg
      have hk : s.kind w ≠ .other := by rw [hkw]; decide
      obtain ⟨hlt, hhead, hkh, hch⟩ := hs.head w hw hk
      by_cases hchain : (s.dma.wr w).chainedOps = true
      · have hself : (s.dma.wr w).headWr = w := by simpa [unit, hchain] using hunit
        rw [hself] at hclosed
        refine hb.clear hg hc ht ?_ ?_
        · rw [hself, hs.length w hw hkw hself hclosed hchain]
          congr 1
          apply Census.count_congr
          intro v hv
          refine and_congr_right fun hkv => ?_
          exact (unit_chain hs hchain hself hv hkv).symm
        · intro v hv hkv hu
          have hhv := (unit_chain hs hchain hself hv hkv).mp hu
          have hcv : (s.dma.wr v).chainedOps = true := by
            have := (hs.head v hv hkv).2.2.2
            rw [hhv, hchain] at this
            exact this.symm
          rw [(hs.chain v hv hcv).2.2, hhv]
      · have hno : (s.dma.wr w).chainedOps = false := by simpa using hchain
        refine hb.clear hg hc ht ?_ ?_
        · rw [hs.single _ hlt (hkh.trans hkw) (hch.trans hno), count_single hs hw hk hno]
          rfl
        · intro v hv hkv hu
          rw [(unit_single hs hno hv hkv).mp hu]

/-! ## Finished blocks -/

/-- A block of writes is finished when its head counts nothing. -/
structure Done (s : DmaSys) : Prop where
  fresh : ∀ v, s.next ≤ v → s.dma.finished v = false
  head : ∀ h < s.next, s.kind h = .write → (s.dma.wr h).headWr = h →
    (s.dma.finished h = true ↔ (s.dma.wr h).wrRefc = 0)

theorem finished_of_step (hi : s.Inv) (h : step s e = some s') (hcl : clears e = none) :
    s'.dma.finished = s.dma.finished := by
  rcases flags_of_step hi h with ⟨w, -, hf⟩ | ⟨w, r, rfl, -⟩ | ⟨-, -, hf⟩
  · exact congrArg Flags.finished hf
  · cases hcl
  · exact congrArg Flags.finished hf

theorem Done.of_refc (hd : s.Done) (hnext : s'.next = s.next) (hkind : s'.kind = s.kind)
    (hhead : ∀ v, (s'.dma.wr v).headWr = (s.dma.wr v).headWr)
    (hfin : s'.dma.finished = s.dma.finished)
    (hrefc : ∀ h < s.next, s.kind h = .write → (s'.dma.wr h).wrRefc = (s.dma.wr h).wrRefc) :
    s'.Done := by
  refine ⟨fun v hv => hfin ▸ hd.fresh v (hnext ▸ hv), ?_⟩
  intro k hk hkk hhd
  rw [hnext] at hk
  rw [hkind] at hkk
  rw [hfin, hrefc k hk hkk]
  exact hd.head k hk hkk (hhead k ▸ hhd)

theorem done_of_step (hi : s.Inv) (hd : s.Done) (h : step s e = some s') : s'.Done := by
  have hs := hi.shape
  have hheadWr : ∀ {d d' : Dma}, (∀ v, (d'.wr v).ties = (d.wr v).ties) →
      ∀ v, (d'.wr v).headWr = (d.wr v).headWr := fun hties v =>
    (ties_eq_iff.mp (hties v)).2.2.2.2.1
  have hfin := finished_of_step hi h
  have hflags := flags_of_step hi h
  cases effect_of_step hi h with
  | @posted _ _ _ _ k _ _ hj hp _ hcl =>
      have hfin := hfin hcl
      refine ⟨fun v hv => hfin ▸ hd.fresh v (by rw [hp.next] at hv; omega), ?_⟩
      intro v hv hkv hhd
      rw [hp.next] at hv
      by_cases hne : v = s.next
      · subst hne
        rw [hp.self.headWr] at hhd
        rw [hfin, hd.fresh s.next (Nat.le_refl _), hp.selfRefc, if_pos hhd.symm]
        simp
      · rw [hp.kinds, Function.update_of_ne hne] at hkv
        have hhd' : (s.dma.wr v).headWr = v := by
          rw [← (ties_eq_iff.mp (hp.ties v hne)).2.2.2.2.1]
          exact hhd
        have hvn : v < s.next := by omega
        rw [hfin, hd.head v hvn hkv hhd', hp.refc v hne]
        by_cases hvk : v = k
        · subst hvk
          have hop := (hj.old hne).2.2.2.1
          have := refc_of_open hs hi.ledger hvn (by rw [hkv]; decide) hhd' hop
          split <;> omega
        · rw [if_neg fun hc => hvk hc.1]
          omega
  | @refused _ place head full errno hp _ =>
      have hfin := hfin rfl
      have hkind := hp.kind_eq hs
      have hkw := (hs.fresh s.next (Nat.le_refl _)).2.2.2.1
      refine ⟨fun v hv => hfin ▸ hd.fresh v (by rw [hp.next] at hv; omega), ?_⟩
      intro v hv hkv hhd
      rw [hkind] at hkv
      have hne : v ≠ s.next := by
        rintro rfl
        rw [hkw] at hkv
        cases hkv
      rw [hp.next] at hv
      have hvn : v < s.next := by omega
      have hhd' : (s.dma.wr v).headWr = v := by
        rw [← (ties_eq_iff.mp (hp.ties v hne)).2.2.2.2.1]
        exact hhd
      rw [hfin, hd.head v hvn hkv hhd', hp.refc v hne]
      split
      · next hv' =>
        obtain ⟨-, hkh, -, hop⟩ := hp.head v hv'
        have := refc_of_open hs hi.ledger hvn hkh hhd' hop
        omega
      · omega
  | signal hp _ _ hcl =>
      have hfin := hfin hcl
      have hkind := hp.kind_eq hs
      have hkw := (hs.fresh s.next (Nat.le_refl _)).2.2.2.1
      refine ⟨fun v hv => hfin ▸ hd.fresh v (by rw [hp.next] at hv; omega), ?_⟩
      intro v hv hkv hhd
      rw [hkind] at hkv
      have hne : v ≠ s.next := by
        rintro rfl
        rw [hkw] at hkv
        cases hkv
      rw [hp.next] at hv
      have hvn : v < s.next := by omega
      have hhd' : (s.dma.wr v).headWr = v := by
        rw [← (ties_eq_iff.mp (hp.ties v hne)).2.2.2.2.1]
        exact hhd
      rw [hfin, hd.head v hvn hkv hhd', hp.refc v hne]
      simp
  | ended hp _ hcl =>
      exact hd.of_refc hp.next hp.kind (fun v => (hp.fields v).2.2.2.2.1) (hfin hcl)
        fun v _ _ => hp.ends.wrRefc v
  | told hn hk _ _ _ hf _ _ _ _ hcl =>
      exact hd.of_refc hn hk (hheadWr hf.ties) (hfin hcl) fun v _ _ => hf.wrRefc v
  | freed _ _ _ hn hk _ _ _ hf _ _ _ _ hcl =>
      exact hd.of_refc hn hk (hheadWr hf.ties) (hfin hcl) fun v _ _ => hf.wrRefc v
  | @clearedRead _ _ w n hg hc _ ht _ _ _ hcl =>
      refine hd.of_refc ht.next ht.kind (hheadWr hc.ties) (hfin hcl) ?_
      intro v _ hkv
      have hkh := (head_of_canClear hs hg (by decide)).2.2
      have hne : v ≠ (s.dma.wr w).headWr := by
        rintro rfl
        rw [hkh] at hkv
        cases hkv
      rw [hc.wrRefc, if_neg hne]
      omega
  | @clearedWrite _ _ w hg hc _ ht _ _ hcl =>
      obtain ⟨hlt, -, -⟩ := head_of_canClear hs hg (by decide)
      have hnz := (refc_of_canClear hs hi.ledger hg (by decide)).1
      have hfin' : s'.dma.finished = if (s.dma.wr (s.dma.wr w).headWr).wrRefc = 1 then
          Function.update s.dma.finished (s.dma.wr w).headWr true else s.dma.finished := by
        rcases hflags with ⟨v, ⟨-, -, ⟨rfl, -⟩ | ⟨rfl, -⟩⟩, -⟩ | ⟨v, r, rfl, -, -, -, hf⟩ | ⟨hne, -⟩
        · cases hcl
        · cases hcl
        · obtain rfl : v = w := by
            simp only [clears, Option.some.injEq] at hcl
            exact hcl
          have hf' := congrArg Flags.finished hf
          simp only [clearedFlags] at hf'
          split
          · next hone => rw [if_pos hone] at hf'; exact hf'
          · next hone => rw [if_neg hone] at hf'; exact hf'
        · cases e with
          | clearWrite v r => exact absurd rfl (hne v r)
          | _ => cases hcl
      refine ⟨?_, ?_⟩
      · intro v hv
        rw [ht.next] at hv
        have hne : v ≠ (s.dma.wr w).headWr := by omega
        rw [hfin']
        split
        · rw [Function.update_of_ne hne]
          exact hd.fresh v hv
        · exact hd.fresh v hv
      · intro v hv hkv hhd
        rw [ht.next] at hv
        rw [ht.kind] at hkv
        rw [hheadWr hc.ties] at hhd
        have hold := hd.head v hv hkv hhd
        rw [hc.wrRefc, hfin']
        by_cases hvh : v = (s.dma.wr w).headWr
        · subst hvh
          by_cases hone : (s.dma.wr (s.dma.wr w).headWr).wrRefc = 1
          · simp [hone]
          · rw [if_neg hone, if_pos rfl, hold]
            omega
        · rw [if_neg hvh]
          split
          · rw [Function.update_of_ne hvh, hold]
            omega
          · rw [hold]
            omega

/-! ## Runs -/

theorem conserved_of (hi : s.Inv) (hb : s.Balanced) (hd : s.Done) : s.Conserved := by
  have hs := hi.shape
  have hhead : ∀ h < s.next, s.kind h ≠ .other → (s.dma.wr h).headWr = h →
      (s.dma.wr h).wrRefc = (Nat.count (s.Owed h) s.next : ℕ) := by
    intro h hh hk hhd
    rw [hi.ledger.refc h hh hk hhd, hb.refused]
    omega
  refine ⟨hs.own, hi.ledger.region, hb.context, hhead, ?_, ?_⟩
  · intro h hh hk hhd hall
    have hzero : (s.dma.wr h).wrRefc = 0 := by
      rw [hhead h hh hk hhd]
      have : Nat.count (s.Owed h) s.next = 0 := by
        rw [Nat.count_iff_forall_not]
        rintro v hv ⟨hm, hu, hc⟩
        have := hall v hv hm
        rw [hu, hc] at this
        cases this
      omega
    refine ⟨?_, fun hkw => (hd.head h hh hkw hhd).mpr hzero⟩
    intro v hv hm
    have hkv : s.kind h = s.kind v := by
      have := (hs.head v hv hm.1).2.2.1
      rwa [hm.2] at this
    by_cases hor : s.kind v = .write ∨ (s.dma.wr v).headWr = v
    · by_contra hlive
      exact (hi.ledger.block v hv hm.1 hor).mp (by simpa using hlive) (hm.2.symm ▸ hzero)
    · obtain ⟨hnw, hnh⟩ := not_or.mp hor
      have hkr : s.kind v = .read := by
        cases hk' : s.kind v with
        | read => rfl
        | write => exact absurd hk' hnw
        | other => exact absurd hk' hm.1
      have hno : (s.dma.wr v).chainedOps = false := by
        by_contra hc
        have := (hs.chain v hv (by simpa using hc)).1
        rw [hkr] at this
        cases this
      have hu : s.unit v = v := by simp [unit, hno]
      have hcv := hall v hv hm
      rw [hu] at hcv
      rw [hi.ledger.alone v hv hkr hnh, hcv]
      rfl
  · intro c hall
    rw [hb.context]
    have : Nat.count (s.InFlight c) s.next = 0 := by
      rw [Nat.count_iff_forall_not]
      rintro v hv ⟨hk, hc, hcl⟩
      have := hall v hv hk hc
      rw [hcl] at this
      cases this
    omega

/-- **Conservation**: in every run in which no post is refused by a full queue and no poll
answers with a failure, the three counts are right. -/
theorem conserved_of_reach (h : Transition.ReachWhen Start step Counts s) : s.Conserved := by
  have hi := inv_of_reach h
  suffices hbd : s.Balanced ∧ s.Done from conserved_of hi hbd.1 hbd.2
  induction h with
  | start hst =>
      obtain ⟨hnext, hw, hlen, -⟩ := hst
      refine ⟨⟨fun v => (hw v).2.2.2.2.2.1, ?_⟩, ⟨fun v _ => ?_, ?_⟩⟩
      · intro c
        rw [hlen, hnext]
        rfl
      · exact (hw v).2.2.2.2.2.2.2.2.2.2.1
      · intro v hv
        rw [hnext] at hv
        exact absurd hv (Nat.not_lt_zero _)
  | next hr hok hstep ih =>
      have hi₀ := inv_of_reach hr
      obtain ⟨hb, hd⟩ := ih hi₀
      exact ⟨balanced_of_effect hi₀ hb hok (effect_of_step hi₀ hstep), done_of_step hi₀ hd hstep⟩

/-- Two writes that go over one RDMA connection as a chain. -/
def chainOfTwo : List Event :=
  [.postWrite ⟨.rdma, 0, 0, 0, 0⟩ none false 0, .postWrite ⟨.rdma, 0, 0, 0, 1⟩ (some 0) false 0,
    .endPosts 0 false]

/-- The chain is written, and cleared through its head. -/
theorem conserved_chainOfTwo : ∃ s, Transition.exec step (blank true)
    (chainOfTwo ++ [.complete 1 true, .clearWrite 0 true]) = some s ∧ s.Conserved := by
  have hok : Transition.Allowed step Counts (blank true)
      (chainOfTwo ++ [.complete 1 true, .clearWrite 0 true]) :=
    ⟨fun h => Bool.noConfusion h.1, fun h => Bool.noConfusion h.1, trivial, trivial, trivial, trivial⟩
  exact ⟨_, rfl, conserved_of_reach (.exec (.start (start_blank true)) hok rfl)⟩

/-- The head of a chain counts one, not the requests of its block. -/
theorem not_headCounts_chainOfTwo : ∃ s, Transition.exec step (blank true) chainOfTwo = some s ∧
    Transition.ReachWhen Start step Counts s ∧
    ¬ ∀ h < s.next, s.kind h ≠ .other → (s.dma.wr h).headWr = h →
      (s.dma.wr h).wrRefc =
        (Nat.count (fun v => s.Member h v ∧ s.cleared v = false) s.next : ℕ) := by
  have hok : Transition.Allowed step Counts (blank true) chainOfTwo :=
    ⟨fun h => Bool.noConfusion h.1, fun h => Bool.noConfusion h.1, trivial, trivial⟩
  refine ⟨_, rfl, .exec (.start (start_blank true)) hok rfl, ?_⟩
  intro h
  exact absurd (h 0 (by decide) (by decide) rfl) (by decide)

end DmaSys

end Emp
