import Emp.Dma.Effects

/-!
# Blocks, references and regions

The invariant of all runs.  The head's reference count is the number of its block's
requests, of a chain the head alone, that are not cleared, and the posts that a full
queue refused; a request stays allocated until it, or for the head and for writes its
block, is cleared; and each region counts the requests allocated from it.

## Main definitions

* `DmaSys.Shape` — how requests, heads and chains hang together.
* `DmaSys.Ledger` — the counts.
* `inv_of_step` — every step keeps both.
-/

namespace Emp

namespace DmaSys

/-- The requests of the block of head `h`. -/
abbrev Member (s : DmaSys) (h v : ℕ) : Prop := s.kind v ≠ .other ∧ (s.dma.wr v).headWr = h

/-- Those that head `h` still counts. -/
abbrev Owed (s : DmaSys) (h v : ℕ) : Prop := s.Member h v ∧ s.unit v = v ∧ s.cleared v = false

/-- How requests, heads and chains hang together. -/
structure Shape (s : DmaSys) : Prop where
  fresh : ∀ w, s.next ≤ w → (s.dma.wr w).live = false ∧ (s.dma.wr w).chainedOps = false ∧
    (s.dma.wr w).remotePages = [] ∧ s.kind w = .other ∧ s.closed w = false ∧
    s.cleared w = false ∧ s.refused w = 0
  own : ∀ w < s.next, (s.dma.wr w).mrid = (s.dma.wr w).memreg
  spare : ∀ w < s.next, s.kind w = .other →
    s.cleared w = true ∧ (s.dma.wr w).chainedOps = false ∧ s.closed w = false
  head : ∀ w < s.next, s.kind w ≠ .other → (s.dma.wr w).headWr < s.next ∧
    (s.dma.wr (s.dma.wr w).headWr).headWr = (s.dma.wr w).headWr ∧
    s.kind (s.dma.wr w).headWr = s.kind w ∧
    (s.dma.wr (s.dma.wr w).headWr).chainedOps = (s.dma.wr w).chainedOps
  chain : ∀ w < s.next, (s.dma.wr w).chainedOps = true → s.kind w = .write ∧
    (s.dma.wr w).dmaOps = .rdma ∧ (s.dma.wr w).context = (s.dma.wr (s.dma.wr w).headWr).context
  read : ∀ w < s.next, s.kind w = .read → (s.dma.wr w).ehWr = none
  cleared : ∀ w < s.next, s.kind w ≠ .other → s.cleared w = true →
    s.closed (s.dma.wr w).headWr = true ∧ s.unit w = w
  single : ∀ w < s.next, s.kind w = .write → (s.dma.wr w).chainedOps = false →
    (s.dma.wr w).entangledWrLen = 1
  length : ∀ h < s.next, s.kind h = .write → (s.dma.wr h).headWr = h → s.closed h = true →
    (s.dma.wr h).chainedOps = true →
      (s.dma.wr h).entangledWrLen = (Nat.count (s.Member h) s.next : ℕ)

/-- The counts. -/
structure Ledger (s : DmaSys) : Prop where
  refc : ∀ h < s.next, s.kind h ≠ .other → (s.dma.wr h).headWr = h →
    (s.dma.wr h).wrRefc = (Nat.count (s.Owed h) s.next : ℕ) + (s.refused h : ℕ)
  alone : ∀ w < s.next, s.kind w = .read → (s.dma.wr w).headWr ≠ w →
    (s.dma.wr w).live = !s.cleared w
  block : ∀ w < s.next, s.kind w ≠ .other → (s.kind w = .write ∨ (s.dma.wr w).headWr = w) →
    ((s.dma.wr w).live = true ↔ (s.dma.wr (s.dma.wr w).headWr).wrRefc ≠ 0)
  nodup : ∀ h < s.next, s.kind h = .write → (s.dma.wr h).headWr = h →
    (s.dma.wr h).wrRefc ≠ 0 → (s.dma.wr h).remotePages.Nodup
  pages : ∀ h < s.next, s.kind h = .write → (s.dma.wr h).headWr = h →
    (s.dma.wr h).wrRefc ≠ 0 → ∀ v, v ∈ (s.dma.wr h).remotePages ↔
      v < s.next ∧ s.Member h v ∧ v ≠ h ∧ ((s.dma.wr v).chainedOps = true ∨ s.cleared v = true)
  region : ∀ m, s.dma.mrWrLen m =
    (Nat.count (fun w => (s.dma.wr w).live = true ∧ (s.dma.wr w).memreg = m) s.next : ℕ)

variable {s s' : DmaSys} {d : Dma} {w h v : ℕ}

/-- Freed requests are taken off the regions that count them. -/
theorem region_frees {d d' : Dma} {n : ℕ} {l : List ℕ}
    (hr : ∀ m, d.mrWrLen m =
      (Nat.count (fun w => (d.wr w).live = true ∧ (d.wr w).memreg = m) n : ℕ))
    (hties : ∀ v, (d'.wr v).ties = (d.wr v).ties)
    (hlive : ∀ v, (d'.wr v).live = ((d.wr v).live && decide (v ∉ l)))
    (hmr : ∀ m, d'.mrWrLen m = d.mrWrLen m - l.countP fun v => (d.wr v).mrid == m)
    (hnd : l.Nodup)
    (hl : ∀ v ∈ l, v < n ∧ (d.wr v).live = true ∧ (d.wr v).mrid = (d.wr v).memreg) (m : ℕ) :
    d'.mrWrLen m = (Nat.count (fun w => (d'.wr w).live = true ∧ (d'.wr w).memreg = m) n : ℕ) := by
  have hsplit : Nat.count (fun w => (d.wr w).live = true ∧ (d.wr w).memreg = m) n =
      Nat.count (fun w => (d'.wr w).live = true ∧ (d'.wr w).memreg = m) n +
        Nat.count (fun v => v ∈ l ∧ ((d.wr v).mrid == m) = true) n := by
    apply Census.count_split
    · intro v _
      have hmem := (ties_eq_iff.mp (hties v)).2.1
      by_cases hv : v ∈ l
      · obtain ⟨-, hlv, hown⟩ := hl v hv
        simp [hlive, hv, hlv, hown]
      · simp [hlive, hv, hmem]
    · rintro v _ ⟨hlv, -⟩ ⟨hv, -⟩
      simp [hlive, hv] at hlv
  rw [hmr, hr, hsplit, Census.count_mem hnd fun v hv => (hl v hv).1]
  omega

/-! ## Steps that touch none of it -/

/-- The unit of a request is told by its ties. -/
theorem unit_congr (h : ∀ v, (s'.dma.wr v).ties = (s.dma.wr v).ties) (w : ℕ) :
    s'.unit w = s.unit w := by
  obtain ⟨-, -, -, -, hhead, -, -, hchain⟩ := ties_eq_iff.mp (h w)
  simp only [unit, hhead, hchain]

/-- The shape is told by the ties. -/
theorem Shape.of_ties (hs : s.Shape) (hnext : s'.next = s.next) (hkind : s'.kind = s.kind)
    (hclosed : s'.closed = s.closed) (hrefused : s'.refused = s.refused)
    (hties : ∀ v, (s'.dma.wr v).ties = (s.dma.wr v).ties)
    (hfresh : ∀ v, s.next ≤ v → s'.cleared v = false ∧ (s'.dma.wr v).live = false ∧
      (s'.dma.wr v).remotePages = [])
    (hold : ∀ v, s.cleared v = true → s'.cleared v = true)
    (hnew : ∀ v < s.next, s'.cleared v = true → s.cleared v = true ∨
      s.closed (s.dma.wr v).headWr = true ∧ s.unit v = v) : s'.Shape := by
  have hunit := unit_congr hties
  refine ⟨?_, ?_, ?_, ?_, ?_, ?_, ?_, ?_, ?_⟩
  · intro w hw
    rw [hnext] at hw
    obtain ⟨-, hchain, -, hk, hc, -, href⟩ := hs.fresh w hw
    obtain ⟨hcl, hlive, hpages⟩ := hfresh w hw
    obtain ⟨-, -, -, -, -, -, -, hch⟩ := ties_eq_iff.mp (hties w)
    exact ⟨hlive, hch.trans hchain, hpages, hkind ▸ hk, hclosed ▸ hc, hcl, hrefused ▸ href⟩
  · intro w hw
    obtain ⟨-, hmem, hmrid, -⟩ := ties_eq_iff.mp (hties w)
    rw [hmem, hmrid]
    exact hs.own w (hnext ▸ hw)
  · intro w hw hk
    obtain ⟨-, -, -, -, -, -, -, hch⟩ := ties_eq_iff.mp (hties w)
    obtain ⟨hcl, hchain, hc⟩ := hs.spare w (hnext ▸ hw) (hkind ▸ hk)
    exact ⟨hold w hcl, hch.trans hchain, hclosed ▸ hc⟩
  · intro w hw hk
    obtain ⟨hlt, hhead, hkh, hch⟩ := hs.head w (hnext ▸ hw) (hkind ▸ hk)
    obtain ⟨-, -, -, -, hw', -, -, hcw⟩ := ties_eq_iff.mp (hties w)
    obtain ⟨-, -, -, -, hh', -, -, hchh⟩ := ties_eq_iff.mp (hties (s.dma.wr w).headWr)
    rw [hw', hnext, hh', hkind, hchh, hcw]
    exact ⟨hlt, hhead, hkh, hch⟩
  · intro w hw hc
    obtain ⟨hops, -, -, hctx, hw', -, -, hcw⟩ := ties_eq_iff.mp (hties w)
    obtain ⟨-, -, -, hctx', -⟩ := ties_eq_iff.mp (hties (s.dma.wr w).headWr)
    rw [hops, hctx, hw', hctx', hkind]
    exact hs.chain w (hnext ▸ hw) (hcw ▸ hc)
  · intro w hw hk
    obtain ⟨-, -, -, -, -, heh, -⟩ := ties_eq_iff.mp (hties w)
    rw [heh]
    exact hs.read w (hnext ▸ hw) (hkind ▸ hk)
  · intro w hw hk hc
    obtain ⟨-, -, -, -, hw', -⟩ := ties_eq_iff.mp (hties w)
    rw [hw', hunit, hclosed]
    rcases hnew w (hnext ▸ hw) hc with hc' | hc'
    · exact hs.cleared w (hnext ▸ hw) (hkind ▸ hk) hc'
    · exact hc'
  · intro w hw hk hc
    obtain ⟨-, -, -, -, -, -, hlen, hcw⟩ := ties_eq_iff.mp (hties w)
    rw [hlen]
    exact hs.single w (hnext ▸ hw) (hkind ▸ hk) (hcw ▸ hc)
  · intro h hh hk hhead hcl hc
    obtain ⟨-, -, -, -, hh', -, hlen, hcw⟩ := ties_eq_iff.mp (hties h)
    rw [hlen, hs.length h (hnext ▸ hh) (hkind ▸ hk) (hh' ▸ hhead) (hclosed ▸ hcl) (hcw ▸ hc), hnext]
    congr 1
    apply Census.count_congr
    intro v _
    obtain ⟨-, -, -, -, hv', -⟩ := ties_eq_iff.mp (hties v)
    simp only [Member, hkind, hv']

/-- The counts are told by the ties and the counted fields; requests that carry no
subblock may be freed. -/
theorem Ledger.of_frees {l : List ℕ} (hs : s.Shape) (hl : s.Ledger) (hnext : s'.next = s.next)
    (hkind : s'.kind = s.kind) (hrefused : s'.refused = s.refused)
    (hcleared : s'.cleared = s.cleared) (hf : Frees l s.dma s'.dma)
    (hpages : ∀ v, (s'.dma.wr v).remotePages = (s.dma.wr v).remotePages) (hnd : l.Nodup)
    (hspare : ∀ v ∈ l, v < s.next ∧ s.kind v = .other ∧ (s.dma.wr v).live = true) :
    s'.Ledger := by
  have hunit := unit_congr hf.ties
  have hhead : ∀ v, (s'.dma.wr v).headWr = (s.dma.wr v).headWr := fun v =>
    (ties_eq_iff.mp (hf.ties v)).2.2.2.2.1
  have hchain : ∀ v, (s'.dma.wr v).chainedOps = (s.dma.wr v).chainedOps := fun v =>
    (ties_eq_iff.mp (hf.ties v)).2.2.2.2.2.2.2
  have hlive : ∀ v, s.kind v ≠ .other → (s'.dma.wr v).live = (s.dma.wr v).live := by
    intro v hk
    have hout : v ∉ l := fun hin => hk (hspare v hin).2.1
    simp [hf.live v, hout]
  refine ⟨?_, ?_, ?_, ?_, ?_, ?_⟩
  · intro h hh hk hhd
    rw [hf.wrRefc, hl.refc h (hnext ▸ hh) (hkind ▸ hk) (hhead h ▸ hhd), hrefused, hnext]
    congr 2
    apply Census.count_congr
    intro v _
    simp only [Owed, Member, hkind, hhead, hunit, hcleared]
  · intro w hw hk hhd
    rw [hkind] at hk
    rw [hlive w (by rw [hk]; decide), hcleared]
    exact hl.alone w (hnext ▸ hw) hk (hhead w ▸ hhd)
  · intro w hw hk hhd
    rw [hkind] at hk
    rw [hlive w hk, hhead, hf.wrRefc]
    exact hl.block w (hnext ▸ hw) hk (by rwa [hkind, hhead] at hhd)
  · intro h hh hk hhd href
    rw [hpages]
    exact hl.nodup h (hnext ▸ hh) (hkind ▸ hk) (hhead h ▸ hhd) (hf.wrRefc h ▸ href)
  · intro h hh hk hhd href v
    rw [hpages, hl.pages h (hnext ▸ hh) (hkind ▸ hk) (hhead h ▸ hhd) (hf.wrRefc h ▸ href) v]
    simp only [Member, hnext, hkind, hhead, hchain, hcleared]
  · rw [hnext]
    refine region_frees hl.region hf.ties hf.live hf.mrWrLen hnd ?_
    intro v hv
    obtain ⟨hvn, -, hlv⟩ := hspare v hv
    exact ⟨hvn, hlv, hs.own v hvn⟩

theorem Ledger.of_same (hs : s.Shape) (hl : s.Ledger) (hnext : s'.next = s.next)
    (hkind : s'.kind = s.kind) (hrefused : s'.refused = s.refused)
    (hcleared : s'.cleared = s.cleared) (hf : Frees [] s.dma s'.dma)
    (hpages : ∀ v, (s'.dma.wr v).remotePages = (s.dma.wr v).remotePages) : s'.Ledger :=
  hl.of_frees hs hnext hkind hrefused hcleared hf hpages List.nodup_nil (by simp)

/-- A step that frees nothing and clears nothing keeps the shape. -/
theorem Shape.of_frees {l : List ℕ} (hs : s.Shape) (hnext : s'.next = s.next)
    (hkind : s'.kind = s.kind) (hclosed : s'.closed = s.closed)
    (hrefused : s'.refused = s.refused) (hcleared : s'.cleared = s.cleared)
    (hf : Frees l s.dma s'.dma)
    (hpages : ∀ v, (s'.dma.wr v).remotePages = (s.dma.wr v).remotePages) : s'.Shape := by
  refine hs.of_ties hnext hkind hclosed hrefused hf.ties ?_ ?_ ?_
  · intro v hv
    obtain ⟨hlive, -, hpg, -, -, hc, -⟩ := hs.fresh v hv
    rw [hcleared, hf.live, hpages, hlive]
    exact ⟨hc, by simp, hpg⟩
  · intro v hv
    rwa [hcleared]
  · intro v _ hv
    rw [hcleared] at hv
    exact Or.inl hv

/-! ## Clears -/

/-- What the guard of a clear says. -/
theorem canClear_iff {kind : Kind} : s.canClear kind w = true ↔
    w < s.next ∧ s.kind w = kind ∧ s.cleared w = false ∧
      s.closed (s.dma.wr w).headWr = true ∧ s.unit w = w := by
  simp only [canClear, Bool.and_eq_true, decide_eq_true_eq, beq_iff_eq, Bool.not_eq_true',
    and_assoc]

/-- Request `w` is cleared; `d` is the state of the records afterwards. -/
structure ClearedTo (s : DmaSys) (w : ℕ) (d : Dma) (s' : DmaSys) : Prop where
  dma : s'.dma = d
  next : s'.next = s.next
  kind : s'.kind = s.kind
  closed : s'.closed = s.closed
  refused : s'.refused = s.refused
  cleared : s'.cleared = Function.update s.cleared w true

theorem clearedTo_setCleared : ClearedTo s w d (s.setCleared w d) := ⟨rfl, rfl, rfl, rfl, rfl, rfl⟩

section Clear

variable {l : List ℕ} {kind : Kind}

theorem Shape.clear (hs : s.Shape) (hg : s.canClear kind w = true)
    (hp : Puts w (s.dma.wr w).headWr l s.dma d)
    (hpages : ∀ v, s.next ≤ v → (d.wr v).remotePages = (s.dma.wr v).remotePages)
    (ht : ClearedTo s w d s') : s'.Shape := by
  obtain ⟨hw, hkind, hcl, hclosed, hunit⟩ := canClear_iff.mp hg
  refine hs.of_ties ht.next ht.kind ht.closed ht.refused (fun v => by rw [ht.dma, hp.ties]) ?_ ?_ ?_
  · intro v hv
    obtain ⟨hlive, -, hpg, -, -, hc, -⟩ := hs.fresh v hv
    have hvw : v ≠ w := by omega
    rw [ht.cleared, Function.update_of_ne hvw, ht.dma, hp.live, hlive, hpages v hv]
    exact ⟨hc, by simp, hpg⟩
  · intro v hv
    rw [ht.cleared]
    by_cases hvw : v = w
    · rw [hvw, Function.update_self]
    · rw [Function.update_of_ne hvw]
      exact hv
  · intro v _ hv
    rw [ht.cleared] at hv
    by_cases hvw : v = w
    · subst hvw
      exact Or.inr ⟨hclosed, hunit⟩
    · rw [Function.update_of_ne hvw] at hv
      exact Or.inl hv

/-- A request that can be cleared is one that its head counts. -/
theorem owed_of_canClear (hg : s.canClear kind w = true) (hk : kind ≠ .other) :
    s.Owed (s.dma.wr w).headWr w := by
  obtain ⟨hw, hkind, hcl, hclosed, hunit⟩ := canClear_iff.mp hg
  exact ⟨⟨hkind ▸ hk, rfl⟩, hunit, hcl⟩

theorem head_of_canClear (hs : s.Shape) (hg : s.canClear kind w = true) (hk : kind ≠ .other) :
    (s.dma.wr w).headWr < s.next ∧
      (s.dma.wr (s.dma.wr w).headWr).headWr = (s.dma.wr w).headWr ∧
      s.kind (s.dma.wr w).headWr = kind := by
  obtain ⟨hw, hkind, -⟩ := canClear_iff.mp hg
  obtain ⟨hlt, hhead, hkh, -⟩ := hs.head w hw (hkind ▸ hk)
  exact ⟨hlt, hhead, hkh.trans hkind⟩

/-- The head's count is not zero, and is one only if no other request is left. -/
theorem refc_of_canClear (hs : s.Shape) (hl : s.Ledger) (hg : s.canClear kind w = true)
    (hk : kind ≠ .other) : (s.dma.wr (s.dma.wr w).headWr).wrRefc ≠ 0 ∧
      ((s.dma.wr (s.dma.wr w).headWr).wrRefc = 1 →
        ∀ v < s.next, s.Owed (s.dma.wr w).headWr v → v = w) := by
  obtain ⟨hw, hkind, -⟩ := canClear_iff.mp hg
  obtain ⟨hlt, hhead, hkh⟩ := head_of_canClear hs hg hk
  have howed := owed_of_canClear hg hk
  have hrefc := hl.refc _ hlt (hkh ▸ hk) hhead
  have hremove : Nat.count (s.Owed (s.dma.wr w).headWr) s.next =
      Nat.count (fun v => s.Owed (s.dma.wr w).headWr v ∧ v ≠ w) s.next + 1 :=
    Census.count_remove hw howed fun v _ => Iff.rfl
  refine ⟨by omega, ?_⟩
  intro hone v hv hov
  have hzero : Nat.count (fun v => s.Owed (s.dma.wr w).headWr v ∧ v ≠ w) s.next = 0 := by omega
  by_contra hvw
  exact Census.not_of_count_eq_zero hzero hv ⟨hov, hvw⟩

/-- The reference counts after a clear. -/
theorem refc_clear (hl : s.Ledger) (hg : s.canClear kind w = true)
    (hk : kind ≠ .other) (hp : Puts w (s.dma.wr w).headWr l s.dma d) (ht : ClearedTo s w d s') :
    ∀ h < s'.next, s'.kind h ≠ .other → (s'.dma.wr h).headWr = h →
      (s'.dma.wr h).wrRefc = (Nat.count (s'.Owed h) s'.next : ℕ) + (s'.refused h : ℕ) := by
  obtain ⟨hw, hkind, hcl, hclosed, hunit⟩ := canClear_iff.mp hg
  have hties : ∀ v, (s'.dma.wr v).ties = (s.dma.wr v).ties := fun v => by rw [ht.dma, hp.ties]
  have hunit' := unit_congr hties
  have hheadWr : ∀ v, (s'.dma.wr v).headWr = (s.dma.wr v).headWr := fun v =>
    (ties_eq_iff.mp (hties v)).2.2.2.2.1
  have howed : ∀ h v, s'.Owed h v ↔ s.Owed h v ∧ v ≠ w := by
    intro h v
    simp only [Owed, Member, ht.kind, hheadWr, hunit', ht.cleared]
    by_cases hvw : v = w
    · simp [hvw]
    · simp [hvw]
  intro h hh hkh hhead
  rw [ht.next] at hh
  rw [ht.kind] at hkh
  rw [hheadWr] at hhead
  have hrefc : (s'.dma.wr h).wrRefc =
      (s.dma.wr h).wrRefc - if h = (s.dma.wr w).headWr then 1 else 0 := by
    rw [ht.dma]
    exact hp.wrRefc h
  rw [hrefc, hl.refc h hh hkh hhead, ht.refused, ht.next]
  by_cases heq : h = (s.dma.wr w).headWr
  · have hremove : Nat.count (s.Owed h) s.next = Nat.count (s'.Owed h) s.next + 1 :=
      Census.count_remove hw (heq ▸ owed_of_canClear hg hk) fun v _ => howed h v
    rw [if_pos heq, hremove]
    push_cast
    omega
  · have hsame : Nat.count (s'.Owed h) s.next = Nat.count (s.Owed h) s.next := by
      apply Census.count_congr
      intro v _
      rw [howed]
      refine ⟨fun hv => hv.1, fun hv => ⟨hv, ?_⟩⟩
      rintro rfl
      exact heq hv.1.2.symm
    rw [if_neg heq, hsame]
    omega

/-- A read is cleared or cancelled. -/
theorem Ledger.clearRead (hs : s.Shape) (hl : s.Ledger) (hg : s.canClear .read w = true)
    (hp : Puts w (s.dma.wr w).headWr
      (freedWith w (s.dma.wr w).headWr (s.dma.wr (s.dma.wr w).headWr).wrRefc) s.dma d)
    (hpages : ∀ v, (d.wr v).remotePages = (s.dma.wr v).remotePages)
    (ht : ClearedTo s w d s') : s'.Ledger := by
  obtain ⟨hw, hkind, hcl, hclosed, hunit⟩ := canClear_iff.mp hg
  obtain ⟨hlt, hhead, hkh⟩ := head_of_canClear hs hg (by decide)
  obtain ⟨hnz, -⟩ := refc_of_canClear hs hl hg (by decide)
  have hties : ∀ v, (s'.dma.wr v).ties = (s.dma.wr v).ties := fun v => by rw [ht.dma, hp.ties]
  have hheadWr : ∀ v, (s'.dma.wr v).headWr = (s.dma.wr v).headWr := fun v =>
    (ties_eq_iff.mp (hties v)).2.2.2.2.1
  have hchain : ∀ v, (s'.dma.wr v).chainedOps = (s.dma.wr v).chainedOps := fun v =>
    (ties_eq_iff.mp (hties v)).2.2.2.2.2.2.2
  have hlive : ∀ v, (s'.dma.wr v).live = ((s.dma.wr v).live && decide (v ∉
      freedWith w (s.dma.wr w).headWr (s.dma.wr (s.dma.wr w).headWr).wrRefc)) := fun v => by
    rw [ht.dma, hp.live]
  have hrefc : ∀ v, (s'.dma.wr v).wrRefc =
      (s.dma.wr v).wrRefc - if v = (s.dma.wr w).headWr then 1 else 0 := fun v => by
    rw [ht.dma, hp.wrRefc]
  refine ⟨refc_clear hl hg (by decide) hp ht, ?_, ?_, ?_, ?_, ?_⟩
  · intro v hv hk hh
    rw [ht.next] at hv
    rw [ht.kind] at hk
    rw [hheadWr] at hh
    rw [hlive, hl.alone v hv hk hh, ht.cleared]
    by_cases hvw : v = w
    · subst hvw
      have hin : v ∈ freedWith v (s.dma.wr v).headWr (s.dma.wr (s.dma.wr v).headWr).wrRefc :=
        mem_freedWith.mpr (Or.inl ⟨rfl, Ne.symm hh⟩)
      simp [hin]
    · have hout : v ∉ freedWith w (s.dma.wr w).headWr (s.dma.wr (s.dma.wr w).headWr).wrRefc := by
        rw [mem_freedWith]
        rintro (⟨h, -⟩ | ⟨h, -⟩)
        · exact hvw h
        · exact hh (by rw [h, hhead])
      simp [hout, hvw]
  · intro v hv hk hor
    rw [ht.next] at hv
    rw [ht.kind] at hk hor
    rw [hheadWr] at hor
    rw [hlive, hheadWr, hrefc, Bool.and_eq_true, hl.block v hv hk hor, decide_eq_true_eq, mem_freedWith]
    by_cases hvh : (s.dma.wr v).headWr = (s.dma.wr w).headWr
    · have hkv : s.kind v = .read := by
        obtain ⟨-, -, hkhv, -⟩ := hs.head v hv hk
        rw [← hkhv, hvh, hkh]
      have hself : (s.dma.wr v).headWr = v := hor.resolve_left (by rw [hkv]; decide)
      have hv' : v = (s.dma.wr w).headWr := hself.symm.trans hvh
      have hvw : ¬ (v = w ∧ w ≠ (s.dma.wr w).headWr) := fun h => h.2 (h.1 ▸ hv')
      simp only [hvw, false_or, hvh, if_true]
      simp only [← hv', true_and]
      rw [← hv'] at hnz
      omega
    · have hout : ¬ (v = w ∧ w ≠ (s.dma.wr w).headWr ∨
          v = (s.dma.wr w).headWr ∧ (s.dma.wr (s.dma.wr w).headWr).wrRefc = 1) := by
        rintro (⟨h, -⟩ | ⟨h, -⟩)
        · exact hvh (by rw [h])
        · exact hvh (by rw [h, hhead])
      simp [hout, hvh]
  · intro h hh hk hhd href
    rw [ht.next] at hh
    rw [ht.kind] at hk
    rw [hheadWr] at hhd
    have hne : h ≠ (s.dma.wr w).headWr := by
      rintro rfl
      rw [hkh] at hk
      cases hk
    rw [hrefc, if_neg hne] at href
    rw [ht.dma, hpages]
    exact hl.nodup h hh hk hhd (by simpa using href)
  · intro h hh hk hhd href v
    rw [ht.next] at hh
    rw [ht.kind] at hk
    rw [hheadWr] at hhd
    have hne : h ≠ (s.dma.wr w).headWr := by
      rintro rfl
      rw [hkh] at hk
      cases hk
    rw [hrefc, if_neg hne] at href
    rw [ht.dma, hpages, hl.pages h hh hk hhd (by simpa using href) v, ← ht.dma]
    simp only [Member, ht.next, ht.kind, hheadWr, hchain, ht.cleared]
    by_cases hvw : v = w
    · subst hvw
      have hno : (s.dma.wr v).headWr ≠ h := fun heq => hne heq.symm
      simp [hno]
    · simp [hvw]
  · rw [ht.next, ht.dma]
    refine region_frees hl.region hp.ties hp.live hp.mrWrLen nodup_freedWith ?_
    · intro v hv
      rcases mem_freedWith.mp hv with ⟨rfl, hne⟩ | ⟨rfl, hone⟩
      · refine ⟨hw, ?_, hs.own v hw⟩
        rw [hl.alone v hw hkind (Ne.symm hne), hcl]
        rfl
      · refine ⟨hlt, ?_, hs.own _ hlt⟩
        rw [hl.block _ hlt (by rw [hkh]; decide) (Or.inr hhead), hhead]
        exact hnz

/-- The queue of the head is what it will be when `w` is cleared. -/
theorem mem_queued (hs : s.Shape) (hl : s.Ledger) (hg : s.canClear .write w = true) :
    (queued s.dma w).Nodup ∧ ∀ v, v ∈ queued s.dma w ↔
      v < s.next ∧ s.Member (s.dma.wr w).headWr v ∧ v ≠ (s.dma.wr w).headWr ∧
        ((s.dma.wr v).chainedOps = true ∨ s.cleared v = true ∨ v = w) := by
  obtain ⟨hw, hkind, hcl, hclosed, hunit⟩ := canClear_iff.mp hg
  obtain ⟨hlt, hhead, hkh⟩ := head_of_canClear hs hg (by decide)
  obtain ⟨hnz, -⟩ := refc_of_canClear hs hl hg (by decide)
  have hnd := hl.nodup _ hlt hkh hhead hnz
  have hpages := hl.pages _ hlt hkh hhead hnz
  by_cases hq : (s.dma.wr w).chainedOps = false ∧ w ≠ (s.dma.wr w).headWr
  · have hout : w ∉ (s.dma.wr (s.dma.wr w).headWr).remotePages := by
      rw [hpages]
      rintro ⟨-, -, -, hc | hc⟩
      · rw [hq.1] at hc
        cases hc
      · rw [hcl] at hc
        cases hc
    simp only [queued, if_pos hq, List.mem_append, List.mem_singleton, hpages]
    refine ⟨List.nodup_append.mpr ⟨hnd, by simp, ?_⟩, ?_⟩
    · rintro v hv u hu rfl
      rw [List.mem_singleton] at hu
      exact hout (hu ▸ hv)
    · intro v
      constructor
      · rintro (⟨hv, hm, hne, hc | hc⟩ | rfl)
        · exact ⟨hv, hm, hne, Or.inl hc⟩
        · exact ⟨hv, hm, hne, Or.inr (Or.inl hc)⟩
        · exact ⟨hw, ⟨by rw [hkind]; decide, rfl⟩, hq.2, Or.inr (Or.inr rfl)⟩
      · rintro ⟨hv, hm, hne, hc | hc | rfl⟩
        · exact Or.inl ⟨hv, hm, hne, Or.inl hc⟩
        · exact Or.inl ⟨hv, hm, hne, Or.inr hc⟩
        · exact Or.inr rfl
  · have hself : w = (s.dma.wr w).headWr := by
      by_cases hc : (s.dma.wr w).chainedOps = true
      · have hu := hunit
        simp only [unit, hc, if_true] at hu
        exact hu.symm
      · by_contra hne
        exact hq ⟨by simpa using hc, hne⟩
    simp only [queued, if_neg hq, List.append_nil, hpages]
    refine ⟨hnd, ?_⟩
    intro v
    refine and_congr_right fun _ => and_congr_right fun _ => and_congr_right fun hne => ?_
    have hvw : v ≠ w := fun h => hne (h.trans hself)
    simp [hvw]

/-- A write is cleared. -/
theorem Ledger.clearWrite (hs : s.Shape) (hl : s.Ledger) (hg : s.canClear .write w = true)
    (hp : Puts w (s.dma.wr w).headWr
      (if (s.dma.wr (s.dma.wr w).headWr).wrRefc = 1 then queued s.dma w ++ [(s.dma.wr w).headWr]
        else []) s.dma d)
    (hq : Queues w s.dma d) (ht : ClearedTo s w d s') : s'.Ledger := by
  obtain ⟨hw, hkind, hcl, hclosed, hunit⟩ := canClear_iff.mp hg
  obtain ⟨hlt, hhead, hkh⟩ := head_of_canClear hs hg (by decide)
  obtain ⟨hnz, hlast⟩ := refc_of_canClear hs hl hg (by decide)
  obtain ⟨hnd, hqueued⟩ := mem_queued hs hl hg
  obtain ⟨fr, hfr⟩ : ∃ fr, fr = if (s.dma.wr (s.dma.wr w).headWr).wrRefc = 1 then
      queued s.dma w ++ [(s.dma.wr w).headWr] else [] := ⟨_, rfl⟩
  rw [← hfr] at hp
  have hties : ∀ v, (s'.dma.wr v).ties = (s.dma.wr v).ties := fun v => by rw [ht.dma, hp.ties]
  have hheadWr : ∀ v, (s'.dma.wr v).headWr = (s.dma.wr v).headWr := fun v =>
    (ties_eq_iff.mp (hties v)).2.2.2.2.1
  have hchain : ∀ v, (s'.dma.wr v).chainedOps = (s.dma.wr v).chainedOps := fun v =>
    (ties_eq_iff.mp (hties v)).2.2.2.2.2.2.2
  have hlive : ∀ v, (s'.dma.wr v).live = ((s.dma.wr v).live && decide (v ∉ fr)) := fun v => by
    rw [ht.dma, hp.live]
  have hrefc : ∀ v, (s'.dma.wr v).wrRefc =
      (s.dma.wr v).wrRefc - if v = (s.dma.wr w).headWr then 1 else 0 := fun v => by
    rw [ht.dma, hp.wrRefc]
  -- the requests that are freed are all those of the block
  have hfreed : ∀ v, v ∈ fr → v < s.next ∧ s.Member (s.dma.wr w).headWr v := by
    intro v hv
    rw [hfr] at hv
    split at hv
    · rcases List.mem_append.mp hv with hv | hv
      · exact ⟨((hqueued v).mp hv).1, ((hqueued v).mp hv).2.1⟩
      · rw [List.mem_singleton.mp hv]
        exact ⟨hlt, by rw [hkh]; decide, hhead⟩
    · cases hv
  have hall : (s.dma.wr (s.dma.wr w).headWr).wrRefc = 1 → ∀ v < s.next,
      s.Member (s.dma.wr w).headWr v → v ∈ fr := by
    intro hone v hv hm
    rw [hfr, if_pos hone, List.mem_append, List.mem_singleton, hqueued]
    by_cases hvh : v = (s.dma.wr w).headWr
    · exact Or.inr hvh
    · refine Or.inl ⟨hv, hm, hvh, ?_⟩
      by_cases hc : (s.dma.wr v).chainedOps = true
      · exact Or.inl hc
      · by_cases hcv : s.cleared v = true
        · exact Or.inr (Or.inl hcv)
        · refine Or.inr (Or.inr (hlast hone v hv ⟨hm, ?_, by simpa using hcv⟩))
          simp [unit, hc]
  refine ⟨refc_clear hl hg (by decide) hp ht, ?_, ?_, ?_, ?_, ?_⟩
  · intro v hv hk hh
    rw [ht.next] at hv
    rw [ht.kind] at hk
    rw [hheadWr] at hh
    have hout : v ∉ fr := by
      intro hin
      obtain ⟨-, hm⟩ := hfreed v hin
      obtain ⟨-, -, hkhv, -⟩ := hs.head v hv hm.1
      rw [hm.2, hkh, hk] at hkhv
      cases hkhv
    have hvw : v ≠ w := by
      rintro rfl
      rw [hkind] at hk
      cases hk
    rw [hlive, hl.alone v hv hk hh, ht.cleared, Function.update_of_ne hvw]
    simp [hout]
  · intro v hv hk hor
    rw [ht.next] at hv
    rw [ht.kind] at hk hor
    rw [hheadWr] at hor
    rw [hlive, hheadWr, hrefc, Bool.and_eq_true, hl.block v hv hk hor, decide_eq_true_eq]
    by_cases hvh : (s.dma.wr v).headWr = (s.dma.wr w).headWr
    · rw [if_pos hvh, hvh]
      by_cases hone : (s.dma.wr (s.dma.wr w).headWr).wrRefc = 1
      · have hin := hall hone v hv ⟨hk, hvh⟩
        simp [hin, hone]
      · have hout : v ∉ fr := by rw [hfr, if_neg hone]; simp
        simp only [hout, not_false_eq_true, and_true]
        omega
    · have hout : v ∉ fr := fun hin => hvh (hfreed v hin).2.2
      simp [hout, hvh]
  · intro h hh hk hhd href
    rw [ht.next] at hh
    rw [ht.kind] at hk
    rw [hheadWr] at hhd
    rw [hrefc] at href
    rw [ht.dma]
    by_cases heq : h = (s.dma.wr w).headWr
    · subst heq
      rw [hq.head (by intro hone; rw [if_pos rfl] at href; omega)]
      exact hnd
    · rw [hq.other h heq]
      exact hl.nodup h hh hk hhd (by simpa [heq] using href)
  · intro h hh hk hhd href v
    rw [ht.next] at hh
    rw [ht.kind] at hk
    rw [hheadWr] at hhd
    rw [hrefc] at href
    have hmem : (s'.dma.wr h).remotePages = (d.wr h).remotePages := by rw [ht.dma]
    simp only [hmem, Member, ht.next, ht.kind, hheadWr, hchain, ht.cleared]
    by_cases heq : h = (s.dma.wr w).headWr
    · subst heq
      rw [hq.head (by intro hone; rw [if_pos rfl] at href; omega), hqueued]
      by_cases hvw : v = w
      · simp [hvw]
      · simp [hvw]
    · rw [hq.other h heq, hl.pages h hh hk hhd (by simpa [heq] using href) v]
      by_cases hvw : v = w
      · subst hvw
        have hno : (s.dma.wr v).headWr ≠ h := fun h' => heq h'.symm
        simp [hno]
      · simp [hvw]
  · rw [ht.next, ht.dma]
    refine region_frees hl.region hp.ties hp.live hp.mrWrLen ?_ ?_
    · rw [hfr]
      split
      · refine List.nodup_append.mpr ⟨hnd, by simp, ?_⟩
        rintro v hv u hu rfl
        rw [List.mem_singleton] at hu
        exact ((hqueued v).mp hv).2.2.1 hu
      · simp
    · intro v hv
      obtain ⟨hvn, hm⟩ := hfreed v hv
      obtain ⟨-, -, hkhv, -⟩ := hs.head v hvn hm.1
      refine ⟨hvn, ?_, hs.own v hvn⟩
      rw [hl.block v hvn hm.1 (Or.inl (by rw [← hkhv, hm.2, hkh])), hm.2]
      exact hnz

end Clear

/-! ## Posts -/

/-- The block of head `h` that a post of the next request goes to. -/
structure Joins (s : DmaSys) (kind : Kind) (place : Place) (h : ℕ) (chained : Bool) : Prop where
  kind_ne : kind ≠ .other
  own : place.mrid = place.memreg
  chain : chained = true → kind = .write ∧ place.ops = .rdma
  old : h ≠ s.next → h < s.next ∧ (s.dma.wr h).headWr = h ∧ s.kind h = kind ∧
    s.closed h = false ∧ (s.dma.wr h).chainedOps = chained ∧
    (chained = true → place.context = (s.dma.wr h).context)

/-- The head of a block that is still posted is counted itself. -/
theorem owed_of_open (hs : s.Shape) (hh : h < s.next) (hk : s.kind h ≠ .other)
    (hhead : (s.dma.wr h).headWr = h) (hopen : s.closed h = false) : s.Owed h h := by
  refine ⟨⟨hk, hhead⟩, ?_, ?_⟩
  · simp [unit, hhead]
  · by_contra hc
    have hcl := (hs.cleared h hh hk (by simpa using hc)).1
    rw [hhead, hopen] at hcl
    cases hcl

theorem refc_of_open (hs : s.Shape) (hl : s.Ledger) (hh : h < s.next) (hk : s.kind h ≠ .other)
    (hhead : (s.dma.wr h).headWr = h) (hopen : s.closed h = false) :
    0 < (s.dma.wr h).wrRefc := by
  have hpos : 0 < Nat.count (s.Owed h) s.next :=
    Census.count_pos hh (owed_of_open hs hh hk hhead hopen)
  rw [hl.refc h hh hk hhead]
  omega

/-- The next request is posted: what a step that posts it leaves. -/
structure PostedTo (s : DmaSys) (kind : Kind) (place : Place) (h : ℕ) (chained : Bool)
    (errno : ℕ) (s' : DmaSys) : Prop where
  next : s'.next = s.next + 1
  kinds : s'.kind = Function.update s.kind s.next kind
  closed : s'.closed = s.closed
  refused : s'.refused = s.refused
  cleared : s'.cleared = s.cleared
  self : PostedAs kind place h chained errno (s'.dma.wr s.next)
  selfArrived : (s'.dma.wr s.next).arrived = (s.dma.wr s.next).arrived
  marks : ∀ v, v ≠ s.next → (s'.dma.wr v).marks = (s.dma.wr v).marks
  selfRefc : (s'.dma.wr s.next).wrRefc = if s.next = h then 1 else 0
  ties : ∀ v, v ≠ s.next → (s'.dma.wr v).ties = (s.dma.wr v).ties
  live : ∀ v, v ≠ s.next → (s'.dma.wr v).live = (s.dma.wr v).live
  refc : ∀ v, v ≠ s.next →
    (s'.dma.wr v).wrRefc = (s.dma.wr v).wrRefc + if v = h ∧ chained = false then 1 else 0
  pages : ∀ v, (s'.dma.wr v).remotePages = (s.dma.wr v).remotePages ++
    if chained = true ∧ s.next ≠ h ∧ v = h then [s.next] else []
  wrLen : ∀ c, (s'.dma.context c).wrLen =
    (s.dma.context c).wrLen + if place.context = c then 1 else 0
  same : ∀ c, (s'.dma.context c).chainedOps = (s.dma.context c).chainedOps
  mrWrLen : ∀ m, s'.dma.mrWrLen m = s.dma.mrWrLen m + if place.memreg = m then 1 else 0

section Post

variable {kind : Kind} {place : Place} {chained : Bool} {errno : ℕ}

theorem PostedTo.unit_eq (hp : PostedTo s kind place h chained errno s') (hv : v ≠ s.next) :
    s'.unit v = s.unit v := by
  obtain ⟨-, -, -, -, hhead, -, -, hchain⟩ := ties_eq_iff.mp (hp.ties v hv)
  simp only [unit, hhead, hchain]

theorem Shape.post (hs : s.Shape) (hj : Joins s kind place h chained)
    (hp : PostedTo s kind place h chained errno s') : s'.Shape := by
  obtain ⟨-, -, -, -, -, hclw, -⟩ := hs.fresh s.next (Nat.le_refl _)
  have hopenw : s.closed s.next = false := (hs.fresh s.next (Nat.le_refl _)).2.2.2.2.1
  have hkindw : s'.kind s.next = kind := by rw [hp.kinds, Function.update_self]
  have hkind : ∀ v, v ≠ s.next → s'.kind v = s.kind v := fun v hv => by
    rw [hp.kinds, Function.update_of_ne hv]
  have hlt : ∀ v, v < s'.next → v ≠ s.next → v < s.next := fun v hv hne => by
    rw [hp.next] at hv
    omega
  refine ⟨?_, ?_, ?_, ?_, ?_, ?_, ?_, ?_, ?_⟩
  · intro v hv
    rw [hp.next] at hv
    have hne : v ≠ s.next := by omega
    obtain ⟨hlive, hchain, hpages, hk, hc, hcl, href⟩ := hs.fresh v (by omega)
    have hvh : ¬ (chained = true ∧ s.next ≠ h ∧ v = h) := by
      rintro ⟨-, hnh, rfl⟩
      have := (hj.old (Ne.symm hnh)).1
      omega
    rw [hp.live v hne, hp.pages v, if_neg hvh, hkind v hne, hp.closed, hp.cleared, hp.refused]
    exact ⟨hlive, (ties_eq_iff.mp (hp.ties v hne)).2.2.2.2.2.2.2.trans hchain, by simp [hpages],
      hk, hc, hcl, href⟩
  · intro v hv
    by_cases hne : v = s.next
    · subst hne
      rw [hp.self.mrid, hp.self.memreg]
      exact hj.own
    · obtain ⟨-, hmem, hmrid, -⟩ := ties_eq_iff.mp (hp.ties v hne)
      rw [hmem, hmrid]
      exact hs.own v (hlt v hv hne)
  · intro v hv hk
    have hne : v ≠ s.next := by
      rintro rfl
      rw [hkindw] at hk
      exact hj.kind_ne hk
    rw [hkind v hne] at hk
    obtain ⟨hc, hch, hcl⟩ := hs.spare v (hlt v hv hne) hk
    rw [hp.cleared, hp.closed]
    exact ⟨hc, (ties_eq_iff.mp (hp.ties v hne)).2.2.2.2.2.2.2.trans hch, hcl⟩
  · intro v hv hk
    by_cases hne : v = s.next
    · subst hne
      rw [hp.self.headWr, hkindw, hp.self.chainedOps]
      by_cases hh : h = s.next
      · subst hh
        rw [hp.next, hp.self.headWr, hkindw, hp.self.chainedOps]
        exact ⟨by omega, rfl, rfl, rfl⟩
      · obtain ⟨hlth, hhead, hkh, -, hch, -⟩ := hj.old hh
        obtain ⟨-, -, -, -, hhead', -, -, hch'⟩ := ties_eq_iff.mp (hp.ties h hh)
        rw [hp.next, hhead', hkind h hh, hch']
        exact ⟨by omega, hhead, hkh, hch⟩
    · rw [hkind v hne] at hk ⊢
      obtain ⟨hlth, hhead, hkh, hch⟩ := hs.head v (hlt v hv hne) hk
      have hhne : (s.dma.wr v).headWr ≠ s.next := by omega
      obtain ⟨-, -, -, -, hv', -, -, hcv⟩ := ties_eq_iff.mp (hp.ties v hne)
      obtain ⟨-, -, -, -, hh', -, -, hchh⟩ := ties_eq_iff.mp (hp.ties _ hhne)
      rw [hv', hp.next, hh', hkind _ hhne, hchh, hcv]
      exact ⟨by omega, hhead, hkh, hch⟩
  · intro v hv hc
    by_cases hne : v = s.next
    · subst hne
      rw [hp.self.chainedOps] at hc
      obtain ⟨hkw, hops⟩ := hj.chain hc
      rw [hkindw, hp.self.dmaOps, hp.self.context, hp.self.headWr]
      refine ⟨hkw, hops, ?_⟩
      by_cases hh : h = s.next
      · rw [hh, hp.self.context]
      · obtain ⟨-, -, -, hctx, -⟩ := ties_eq_iff.mp (hp.ties h hh)
        rw [hctx]
        exact (hj.old hh).2.2.2.2.2 hc
    · obtain ⟨hops, -, -, hctx, hv', -, -, hcv⟩ := ties_eq_iff.mp (hp.ties v hne)
      rw [hcv] at hc
      have hvn := hlt v hv hne
      obtain ⟨hkv, hopsv, hctxv⟩ := hs.chain v hvn hc
      have hhne : (s.dma.wr v).headWr ≠ s.next := by
        have := (hs.head v hvn (by rw [hkv]; decide)).1
        omega
      obtain ⟨-, -, -, hctxh, -⟩ := ties_eq_iff.mp (hp.ties _ hhne)
      rw [hkind v hne, hops, hctx, hv', hctxh]
      exact ⟨hkv, hopsv, hctxv⟩
  · intro v hv hk
    by_cases hne : v = s.next
    · subst hne
      rw [hkindw] at hk
      exact hp.self.ehWr hk
    · obtain ⟨-, -, -, -, -, heh, -⟩ := ties_eq_iff.mp (hp.ties v hne)
      rw [hkind v hne] at hk
      rw [heh]
      exact hs.read v (hlt v hv hne) hk
  · intro v hv hk hc
    rw [hp.cleared] at hc
    have hne : v ≠ s.next := by
      rintro rfl
      rw [hclw] at hc
      cases hc
    rw [hkind v hne] at hk
    obtain ⟨-, -, -, -, hv', -⟩ := ties_eq_iff.mp (hp.ties v hne)
    rw [hv', hp.closed, hp.unit_eq hne]
    exact hs.cleared v (hlt v hv hne) hk hc
  · intro v hv hk hc
    by_cases hne : v = s.next
    · subst hne
      rw [hp.self.chainedOps] at hc
      exact hp.self.length hc
    · obtain ⟨-, -, -, -, -, -, hlen, hcv⟩ := ties_eq_iff.mp (hp.ties v hne)
      rw [hkind v hne] at hk
      rw [hcv] at hc
      rw [hlen]
      exact hs.single v (hlt v hv hne) hk hc
  · intro k hk hkk hhead hcl hc
    rw [hp.closed] at hcl
    have hne : k ≠ s.next := by
      rintro rfl
      rw [hopenw] at hcl
      cases hcl
    obtain ⟨-, -, -, -, hk', -, hlen, hck⟩ := ties_eq_iff.mp (hp.ties k hne)
    rw [hkind k hne] at hkk
    rw [hk'] at hhead
    rw [hck] at hc
    have hkh : k ≠ h := by
      rintro rfl
      rw [(hj.old hne).2.2.2.1] at hcl
      cases hcl
    have hcount : Nat.count (s'.Member k) s'.next = Nat.count (s.Member k) s.next := by
      rw [hp.next, Census.count_extend (p := s.Member k)]
      · have hno : ¬ s'.Member k s.next := by
          rintro ⟨-, hw⟩
          exact hkh (hw.symm.trans hp.self.headWr)
        simp [hno]
      · intro v hv
        have hvne : v ≠ s.next := by omega
        obtain ⟨-, -, -, -, hv', -⟩ := ties_eq_iff.mp (hp.ties v hvne)
        simp only [Member, hkind v hvne, hv']
    rw [hlen, hcount]
    exact hs.length k (hlt k hk hne) hkk hhead hcl hc

theorem Ledger.post (hs : s.Shape) (hl : s.Ledger) (hj : Joins s kind place h chained)
    (hp : PostedTo s kind place h chained errno s') : s'.Ledger := by
  obtain ⟨hlivew, -, hpagesw, -, hopenw, hclw, hrefw⟩ := hs.fresh s.next (Nat.le_refl _)
  have hkindw : s'.kind s.next = kind := by rw [hp.kinds, Function.update_self]
  have hkind : ∀ v, v ≠ s.next → s'.kind v = s.kind v := fun v hv => by
    rw [hp.kinds, Function.update_of_ne hv]
  have hlt : ∀ v, v < s'.next → v ≠ s.next → v < s.next := fun v hv hne => by
    rw [hp.next] at hv
    omega
  have hheadWr : ∀ v, v ≠ s.next → (s'.dma.wr v).headWr = (s.dma.wr v).headWr := fun v hv =>
    (ties_eq_iff.mp (hp.ties v hv)).2.2.2.2.1
  have hchain : ∀ v, v ≠ s.next → (s'.dma.wr v).chainedOps = (s.dma.wr v).chainedOps := fun v hv =>
    (ties_eq_iff.mp (hp.ties v hv)).2.2.2.2.2.2.2
  -- a request that is not new is not in a block that starts now
  have hnotnew : ∀ v < s.next, s.kind v ≠ .other → (s.dma.wr v).headWr ≠ s.next := by
    intro v hv hk
    have := (hs.head v hv hk).1
    omega
  have hpos : h ≠ s.next → 0 < (s.dma.wr h).wrRefc := by
    intro hh
    obtain ⟨hlth, hhead, hkh, hop, -⟩ := hj.old hh
    exact refc_of_open hs hl hlth (hkh ▸ hj.kind_ne) hhead hop
  have howed : ∀ k v, v < s.next → (s'.Owed k v ↔ s.Owed k v) := by
    intro k v hv
    have hne : v ≠ s.next := by omega
    simp only [Owed, Member, hkind v hne, hheadWr v hne, hp.unit_eq hne, hp.cleared]
  have howedw : ∀ k, s'.Owed k s.next ↔ k = h ∧ (chained = false ∨ h = s.next) := by
    intro k
    simp only [Owed, Member, hkindw, hp.self.headWr, unit, hp.self.chainedOps, hp.cleared, hclw,
      and_true]
    constructor
    · rintro ⟨⟨-, rfl⟩, hu⟩
      refine ⟨rfl, ?_⟩
      cases chained with
      | false => exact Or.inl rfl
      | true => exact Or.inr (by simpa using hu)
    · rintro ⟨rfl, hc | rfl⟩
      · exact ⟨⟨hj.kind_ne, rfl⟩, by simp [hc]⟩
      · exact ⟨⟨hj.kind_ne, rfl⟩, by simp⟩
  refine ⟨?_, ?_, ?_, ?_, ?_, ?_⟩
  · intro k hk hkk hhd
    have hcount : Nat.count (s'.Owed k) s'.next =
        Nat.count (s.Owed k) s.next + if s'.Owed k s.next then 1 else 0 := by
      rw [hp.next]
      exact Census.count_extend fun v hv => howed k v hv
    by_cases hne : k = s.next
    · subst hne
      rw [hp.self.headWr] at hhd
      have hzero : Nat.count (s.Owed s.next) s.next = 0 := by
        rw [Nat.count_iff_forall_not]
        intro v hv hov
        exact hnotnew v hv hov.1.1 hov.1.2
      have hyes : s'.Owed s.next s.next := (howedw _).mpr ⟨hhd.symm, Or.inr hhd⟩
      rw [hcount, hzero, if_pos hyes, hp.selfRefc, if_pos hhd.symm, hp.refused, hrefw]
      rfl
    · have hkn := hlt k hk hne
      rw [hkind k hne] at hkk
      rw [hheadWr k hne] at hhd
      rw [hcount, hp.refc k hne, hl.refc k hkn hkk hhd, hp.refused]
      by_cases hc : k = h ∧ chained = false
      · have hyes : s'.Owed k s.next := (howedw k).mpr ⟨hc.1, Or.inl hc.2⟩
        rw [if_pos hc, if_pos hyes]
        push_cast
        omega
      · have hno : ¬ s'.Owed k s.next := by
          intro ho
          obtain ⟨hkh, hor⟩ := (howedw k).mp ho
          rcases hor with hf | hf
          · exact hc ⟨hkh, hf⟩
          · exact hne (hkh.trans hf)
        rw [if_neg hc, if_neg hno]
        omega
  · intro v hv hk hh
    by_cases hne : v = s.next
    · subst hne
      rw [hp.self.live, hp.cleared, hclw]
      rfl
    · rw [hkind v hne] at hk
      rw [hheadWr v hne] at hh
      rw [hp.live v hne, hp.cleared]
      exact hl.alone v (hlt v hv hne) hk hh
  · intro v hv hk hor
    by_cases hne : v = s.next
    · subst hne
      rw [hp.self.live, hp.self.headWr]
      by_cases hh : h = s.next
      · have href : (s'.dma.wr h).wrRefc = 1 := by rw [hh, hp.selfRefc, if_pos hh.symm]
        simp [href]
      · have href := hp.refc h hh
        have := hpos hh
        simp only [true_iff]
        split at href <;> omega
    · have hvn := hlt v hv hne
      rw [hkind v hne] at hk hor
      rw [hheadWr v hne] at hor
      have hhne := hnotnew v hvn hk
      rw [hp.live v hne, hheadWr v hne, hl.block v hvn hk hor, hp.refc _ hhne]
      by_cases hh : (s.dma.wr v).headWr = h
      · have := hpos (hh ▸ hhne)
        rw [hh]
        split <;> omega
      · rw [if_neg fun hc => hh hc.1]
        omega
  · intro k hk hkk hhd href
    by_cases hne : k = s.next
    · subst hne
      rw [hp.self.headWr] at hhd
      rw [hp.pages, hpagesw, if_neg fun hc => hc.2.1 hhd.symm]
      exact List.nodup_nil
    · have hkn := hlt k hk hne
      rw [hkind k hne] at hkk
      rw [hheadWr k hne] at hhd
      have hold : (s.dma.wr k).wrRefc ≠ 0 := by
        rw [hp.refc k hne] at href
        by_cases hkh : k = h
        · have := hpos (hkh ▸ hne)
          rw [hkh]
          omega
        · simpa [hkh] using href
      rw [hp.pages]
      have hnd := hl.nodup k hkn hkk hhd hold
      split
      · refine List.nodup_append.mpr ⟨hnd, by simp, ?_⟩
        rintro v hv u hu rfl
        rw [List.mem_singleton] at hu
        have := ((hl.pages k hkn hkk hhd hold v).mp hv).1
        omega
      · simpa using hnd
  · intro k hk hkk hhd href v
    by_cases hne : k = s.next
    · subst hne
      rw [hp.self.headWr] at hhd
      rw [hp.pages, hpagesw, if_neg fun hc => hc.2.1 hhd.symm]
      simp only [List.append_nil, List.not_mem_nil, false_iff]
      rintro ⟨hv, ⟨hkv, hhv⟩, hvne, -⟩
      rw [hkind v hvne] at hkv
      rw [hheadWr v hvne] at hhv
      exact hnotnew v (hlt v hv hvne) hkv hhv
    · have hkn := hlt k hk hne
      rw [hkind k hne] at hkk
      rw [hheadWr k hne] at hhd
      have hold : (s.dma.wr k).wrRefc ≠ 0 := by
        rw [hp.refc k hne] at href
        by_cases hkh : k = h
        · have := hpos (hkh ▸ hne)
          rw [hkh]
          omega
        · simpa [hkh] using href
      rw [hp.pages, List.mem_append, hl.pages k hkn hkk hhd hold]
      by_cases hvne : v = s.next
      · subst hvne
        simp only [hp.next, Member, hkindw, hp.self.headWr, hp.self.chainedOps, hp.cleared, hclw]
        constructor
        · rintro (⟨hv, -⟩ | hin)
          · omega
          · split at hin
            · next hc => exact ⟨by omega, ⟨hj.kind_ne, hc.2.2.symm⟩, Ne.symm hne, Or.inl hc.1⟩
            · cases hin
        · rintro ⟨-, ⟨-, hhk⟩, -, hc | hc⟩
          · right
            rw [if_pos ⟨hc, fun heq => hne (hhk.symm.trans heq.symm), hhk.symm⟩]
            simp
          · cases hc
      · have hnin : v ∉ (if chained = true ∧ s.next ≠ h ∧ k = h then [s.next] else []) := by
          split <;> simp [hvne]
        simp only [hnin, or_false, Member, hkind v hvne, hheadWr v hvne, hchain v hvne, hp.cleared,
          hp.next]
        refine and_congr_left fun _ => ?_
        omega
  · intro m
    have hcount : Nat.count (fun v => (s'.dma.wr v).live = true ∧ (s'.dma.wr v).memreg = m) s'.next =
        Nat.count (fun v => (s.dma.wr v).live = true ∧ (s.dma.wr v).memreg = m) s.next +
          if (s'.dma.wr s.next).live = true ∧ (s'.dma.wr s.next).memreg = m then 1 else 0 := by
      rw [hp.next]
      refine Census.count_extend (p := fun v => (s.dma.wr v).live = true ∧ (s.dma.wr v).memreg = m) ?_
      intro v hv
      have hne : v ≠ s.next := by omega
      rw [hp.live v hne, (ties_eq_iff.mp (hp.ties v hne)).2.1]
    rw [hcount, hp.mrWrLen, hl.region, hp.self.live, hp.self.memreg]
    simp only [true_and]
    split <;> simp

end Post

/-! ## Requests that carry nothing -/

/-- The next request is a spare one: what a step that takes it leaves.  `refusedBy` is the
head of the block whose post was refused. -/
structure SparedTo (s : DmaSys) (refusedBy : Option ℕ) (s' : DmaSys) : Prop where
  next : s'.next = s.next + 1
  kinds : s'.kind = Function.update s.kind s.next .other
  closed : s'.closed = s.closed
  refused : ∀ v, s'.refused v = s.refused v + if refusedBy = some v then 1 else 0
  cleared : s'.cleared = Function.update s.cleared s.next true
  own : (s'.dma.wr s.next).mrid = (s'.dma.wr s.next).memreg
  single : (s'.dma.wr s.next).chainedOps = false
  selfArrived : (s'.dma.wr s.next).arrived = (s.dma.wr s.next).arrived
  marks : ∀ v, v ≠ s.next → (s'.dma.wr v).marks = (s.dma.wr v).marks
  ties : ∀ v, v ≠ s.next → (s'.dma.wr v).ties = (s.dma.wr v).ties
  live : ∀ v, v ≠ s.next → (s'.dma.wr v).live = (s.dma.wr v).live
  refc : ∀ v, v ≠ s.next →
    (s'.dma.wr v).wrRefc = (s.dma.wr v).wrRefc + if refusedBy = some v then 1 else 0
  pages : ∀ v, v ≠ s.next → (s'.dma.wr v).remotePages = (s.dma.wr v).remotePages
  mrWrLen : ∀ m, s'.dma.mrWrLen m = s.dma.mrWrLen m +
    if (s'.dma.wr s.next).live = true ∧ (s'.dma.wr s.next).memreg = m then 1 else 0
  head : ∀ h, refusedBy = some h → h < s.next ∧ s.kind h ≠ .other ∧ (s.dma.wr h).headWr = h ∧
    s.closed h = false

section Spare

variable {refusedBy : Option ℕ}

theorem SparedTo.kind_eq (hs : s.Shape) (hp : SparedTo s refusedBy s') : s'.kind = s.kind := by
  rw [hp.kinds, ← (hs.fresh s.next (Nat.le_refl _)).2.2.2.1]
  exact Function.update_eq_self _ _

theorem Shape.spareStep (hs : s.Shape) (hp : SparedTo s refusedBy s') : s'.Shape := by
  obtain ⟨-, -, -, hkw, hopenw, -, -⟩ := hs.fresh s.next (Nat.le_refl _)
  have hkind := hp.kind_eq hs
  have hlt : ∀ v, v < s'.next → s'.kind v ≠ .other → v ≠ s.next ∧ v < s.next := by
    intro v hv hk
    have hne : v ≠ s.next := by
      rintro rfl
      rw [hkind, hkw] at hk
      exact hk rfl
    rw [hp.next] at hv
    exact ⟨hne, by omega⟩
  have hheadne : ∀ v < s.next, s.kind v ≠ .other → (s.dma.wr v).headWr ≠ s.next := by
    intro v hv hk
    have := (hs.head v hv hk).1
    omega
  refine ⟨?_, ?_, ?_, ?_, ?_, ?_, ?_, ?_, ?_⟩
  · intro v hv
    rw [hp.next] at hv
    have hne : v ≠ s.next := by omega
    obtain ⟨hlive, hchain, hpages, hk, hc, hcl, href⟩ := hs.fresh v (by omega)
    have hno : refusedBy ≠ some v := by
      intro h
      have := (hp.head v h).1
      omega
    rw [hp.live v hne, hp.pages v hne, hkind, hp.closed, hp.cleared, Function.update_of_ne hne,
      hp.refused, if_neg hno]
    exact ⟨hlive, (ties_eq_iff.mp (hp.ties v hne)).2.2.2.2.2.2.2.trans hchain, hpages, hk, hc, hcl,
      href⟩
  · intro v hv
    by_cases hne : v = s.next
    · subst hne
      exact hp.own
    · obtain ⟨-, hmem, hmrid, -⟩ := ties_eq_iff.mp (hp.ties v hne)
      rw [hmem, hmrid]
      rw [hp.next] at hv
      exact hs.own v (by omega)
  · intro v hv hk
    by_cases hne : v = s.next
    · subst hne
      rw [hp.cleared, Function.update_self, hp.closed]
      exact ⟨rfl, hp.single, hopenw⟩
    · rw [hkind] at hk
      rw [hp.next] at hv
      obtain ⟨hc, hch, hcl⟩ := hs.spare v (by omega) hk
      rw [hp.cleared, Function.update_of_ne hne, hp.closed]
      exact ⟨hc, (ties_eq_iff.mp (hp.ties v hne)).2.2.2.2.2.2.2.trans hch, hcl⟩
  · intro v hv hk
    obtain ⟨hne, hvn⟩ := hlt v hv hk
    rw [hkind] at hk
    obtain ⟨hlth, hhead, hkh, hch⟩ := hs.head v hvn hk
    have hhne := hheadne v hvn hk
    obtain ⟨-, -, -, -, hv', -, -, hcv⟩ := ties_eq_iff.mp (hp.ties v hne)
    obtain ⟨-, -, -, -, hh', -, -, hchh⟩ := ties_eq_iff.mp (hp.ties _ hhne)
    rw [hv', hp.next, hh', hkind, hchh, hcv]
    exact ⟨by omega, hhead, hkh, hch⟩
  · intro v hv hc
    have hne : v ≠ s.next := by
      rintro rfl
      rw [hp.single] at hc
      cases hc
    rw [hp.next] at hv
    have hvn : v < s.next := by omega
    obtain ⟨hops, -, -, hctx, hv', -, -, hcv⟩ := ties_eq_iff.mp (hp.ties v hne)
    rw [hcv] at hc
    obtain ⟨hkv, hopsv, hctxv⟩ := hs.chain v hvn hc
    have hhne := hheadne v hvn (by rw [hkv]; decide)
    obtain ⟨-, -, -, hctxh, -⟩ := ties_eq_iff.mp (hp.ties _ hhne)
    rw [hkind, hops, hctx, hv', hctxh]
    exact ⟨hkv, hopsv, hctxv⟩
  · intro v hv hk
    obtain ⟨hne, hvn⟩ := hlt v hv (by rw [hk]; decide)
    obtain ⟨-, -, -, -, -, heh, -⟩ := ties_eq_iff.mp (hp.ties v hne)
    rw [heh]
    exact hs.read v hvn (hkind ▸ hk)
  · intro v hv hk hc
    obtain ⟨hne, hvn⟩ := hlt v hv hk
    obtain ⟨-, -, -, -, hv', -, -, hcv⟩ := ties_eq_iff.mp (hp.ties v hne)
    rw [hp.cleared, Function.update_of_ne hne] at hc
    obtain ⟨hcl, hunit⟩ := hs.cleared v hvn (hkind ▸ hk) hc
    rw [hv', hp.closed]
    refine ⟨hcl, ?_⟩
    simp only [unit, hv', hcv] at hunit ⊢
    exact hunit
  · intro v hv hk hc
    obtain ⟨hne, hvn⟩ := hlt v hv (by rw [hk]; decide)
    obtain ⟨-, -, -, -, -, -, hlen, hcv⟩ := ties_eq_iff.mp (hp.ties v hne)
    rw [hlen]
    exact hs.single v hvn (hkind ▸ hk) (hcv ▸ hc)
  · intro k hk hkk hhead hcl hc
    obtain ⟨hne, hkn⟩ := hlt k hk (by rw [hkk]; decide)
    obtain ⟨-, -, -, -, hk', -, hlen, hck⟩ := ties_eq_iff.mp (hp.ties k hne)
    have hcount : Nat.count (s'.Member k) s'.next = Nat.count (s.Member k) s.next := by
      rw [hp.next, Census.count_extend (p := s.Member k)]
      · have hno : ¬ s'.Member k s.next := by
          rintro ⟨hw, -⟩
          rw [hkind] at hw
          exact hw hkw
        simp [hno]
      · intro v hv
        have hvne : v ≠ s.next := by omega
        obtain ⟨-, -, -, -, hv', -⟩ := ties_eq_iff.mp (hp.ties v hvne)
        simp only [Member, hkind, hv']
    rw [hlen, hcount]
    exact hs.length k hkn (hkind ▸ hkk) (hk' ▸ hhead) (hp.closed ▸ hcl) (hck ▸ hc)

theorem Ledger.spareStep (hs : s.Shape) (hl : s.Ledger) (hp : SparedTo s refusedBy s') :
    s'.Ledger := by
  obtain ⟨-, -, -, hkw, -, -, -⟩ := hs.fresh s.next (Nat.le_refl _)
  have hkind := hp.kind_eq hs
  have hlt : ∀ v, v < s'.next → s.kind v ≠ .other → v ≠ s.next ∧ v < s.next := by
    intro v hv hk
    have hne : v ≠ s.next := by
      rintro rfl
      exact hk hkw
    rw [hp.next] at hv
    exact ⟨hne, by omega⟩
  have hheadWr : ∀ v, v ≠ s.next → (s'.dma.wr v).headWr = (s.dma.wr v).headWr := fun v hv =>
    (ties_eq_iff.mp (hp.ties v hv)).2.2.2.2.1
  have hchain : ∀ v, v ≠ s.next → (s'.dma.wr v).chainedOps = (s.dma.wr v).chainedOps := fun v hv =>
    (ties_eq_iff.mp (hp.ties v hv)).2.2.2.2.2.2.2
  -- only an open block, whose head is counted, is refused a post
  have hzero : ∀ k, k ≠ s.next → ((s'.dma.wr k).wrRefc ≠ 0 ↔ (s.dma.wr k).wrRefc ≠ 0) := by
    intro k hne
    rw [hp.refc k hne]
    split
    · next hk =>
      obtain ⟨hkn, hkk, hhd, hop⟩ := hp.head k hk
      have := refc_of_open hs hl hkn hkk hhd hop
      omega
    · omega
  refine ⟨?_, ?_, ?_, ?_, ?_, ?_⟩
  · intro k hk hkk hhd
    rw [hkind] at hkk
    obtain ⟨hne, hkn⟩ := hlt k hk hkk
    rw [hheadWr k hne] at hhd
    have hcount : Nat.count (s'.Owed k) s'.next = Nat.count (s.Owed k) s.next := by
      rw [hp.next, Census.count_extend (p := s.Owed k)]
      · have hno : ¬ s'.Owed k s.next := by
          rintro ⟨⟨hw, -⟩, -⟩
          rw [hkind] at hw
          exact hw hkw
        simp [hno]
      · intro v hv
        have hvne : v ≠ s.next := by omega
        simp only [Owed, Member, unit, hkind, hheadWr v hvne, hchain v hvne, hp.cleared,
          Function.update_of_ne hvne]
    rw [hcount, hp.refc k hne, hl.refc k hkn hkk hhd, hp.refused]
    split <;> push_cast <;> omega
  · intro v hv hk hh
    rw [hkind] at hk
    obtain ⟨hne, hvn⟩ := hlt v hv (by rw [hk]; decide)
    rw [hheadWr v hne] at hh
    rw [hp.live v hne, hp.cleared, Function.update_of_ne hne]
    exact hl.alone v hvn hk hh
  · intro v hv hk hor
    rw [hkind] at hk hor
    obtain ⟨hne, hvn⟩ := hlt v hv hk
    rw [hheadWr v hne] at hor
    have hhne : (s.dma.wr v).headWr ≠ s.next := by
      have := (hs.head v hvn hk).1
      omega
    rw [hp.live v hne, hheadWr v hne, hzero _ hhne]
    exact hl.block v hvn hk hor
  · intro k hk hkk hhd href
    rw [hkind] at hkk
    obtain ⟨hne, hkn⟩ := hlt k hk (by rw [hkk]; decide)
    rw [hp.pages k hne]
    exact hl.nodup k hkn hkk (hheadWr k hne ▸ hhd) ((hzero k hne).mp href)
  · intro k hk hkk hhd href v
    rw [hkind] at hkk
    obtain ⟨hne, hkn⟩ := hlt k hk (by rw [hkk]; decide)
    rw [hp.pages k hne, hl.pages k hkn hkk (hheadWr k hne ▸ hhd) ((hzero k hne).mp href) v]
    by_cases hvne : v = s.next
    · subst hvne
      simp [Member, hkind, hkw]
    · simp only [hp.next, Member, hkind, hheadWr v hvne, hchain v hvne, hp.cleared,
        Function.update_of_ne hvne]
      refine and_congr_left fun _ => ?_
      omega
  · intro m
    have hcount : Nat.count (fun v => (s'.dma.wr v).live = true ∧ (s'.dma.wr v).memreg = m) s'.next =
        Nat.count (fun v => (s.dma.wr v).live = true ∧ (s.dma.wr v).memreg = m) s.next +
          if (s'.dma.wr s.next).live = true ∧ (s'.dma.wr s.next).memreg = m then 1 else 0 := by
      rw [hp.next]
      refine Census.count_extend (p := fun v => (s.dma.wr v).live = true ∧ (s.dma.wr v).memreg = m) ?_
      intro v hv
      have hne : v ≠ s.next := by omega
      rw [hp.live v hne, (ties_eq_iff.mp (hp.ties v hne)).2.1]
    rw [hcount, hp.mrWrLen, hl.region]
    split <;> simp

end Spare

/-! ## The end of a block's posts -/

/-- What the step that ends the posts of head `h` leaves. -/
structure EndedTo (s : DmaSys) (h : ℕ) (s' : DmaSys) : Prop where
  next : s'.next = s.next
  kind : s'.kind = s.kind
  closed : s'.closed = Function.update s.closed h true
  refused : s'.refused = s.refused
  cleared : s'.cleared = s.cleared
  head : h < s.next ∧ s.kind h ≠ .other ∧ (s.dma.wr h).headWr = h ∧ s.closed h = false
  ends : Ends h ((s.dma.wr h).remotePages.length + 1) s.dma s'.dma
  read : ∀ v < s.next, s.kind v = .read → (s'.dma.wr v).ehWr = (s.dma.wr v).ehWr
  others : ∀ v, (s.dma.wr v).headWr ≠ h → (s'.dma.wr v).ehWr = (s.dma.wr v).ehWr

section EndPosts

theorem EndedTo.fields (hp : EndedTo s h s') (v : ℕ) :
    (s'.dma.wr v).dmaOps = (s.dma.wr v).dmaOps ∧ (s'.dma.wr v).memreg = (s.dma.wr v).memreg ∧
      (s'.dma.wr v).mrid = (s.dma.wr v).mrid ∧ (s'.dma.wr v).context = (s.dma.wr v).context ∧
      (s'.dma.wr v).headWr = (s.dma.wr v).headWr ∧
      (s'.dma.wr v).chainedOps = (s.dma.wr v).chainedOps := by
  obtain ⟨e, n, hv⟩ := hp.ends.ties v
  simp only [WorkRequest.ties, Ties.mk.injEq] at hv
  exact ⟨hv.1, hv.2.1, hv.2.2.1, hv.2.2.2.1, hv.2.2.2.2.1, hv.2.2.2.2.2.2.2⟩

theorem EndedTo.unit_eq (hp : EndedTo s h s') (v : ℕ) : s'.unit v = s.unit v := by
  obtain ⟨-, -, -, -, hhead, hchain⟩ := hp.fields v
  simp only [unit, hhead, hchain]

/-- A chain is as long as its block has requests. -/
theorem length_of_chain (hs : s.Shape) (hl : s.Ledger) (hp : EndedTo s h s')
    (hk : s.kind h = .write) (hc : (s.dma.wr h).chainedOps = true) :
    (s.dma.wr h).remotePages.length + 1 = Nat.count (s.Member h) s.next := by
  obtain ⟨hlt, hkind, hhead, hopen⟩ := hp.head
  have href := refc_of_open hs hl hlt hkind hhead hopen
  have hpages := hl.pages h hlt hk hhead (by omega)
  have hremove : Nat.count (s.Member h) s.next =
      Nat.count (fun v => s.Member h v ∧ v ≠ h) s.next + 1 :=
    Census.count_remove hlt ⟨hkind, hhead⟩ fun v _ => Iff.rfl
  rw [hremove]
  congr 1
  refine Census.length_eq_count (hl.nodup h hlt hk hhead (by omega)) ?_
  intro v
  rw [hpages]
  refine and_congr_right fun hv => ⟨fun hm => ⟨hm.1, hm.2.1⟩, ?_⟩
  rintro ⟨hm, hne⟩
  obtain ⟨-, -, -, hch⟩ := hs.head v hv hm.1
  exact ⟨hm, hne, Or.inl (by rw [← hch, hm.2, hc])⟩

theorem Shape.endPosts (hs : s.Shape) (hl : s.Ledger) (hp : EndedTo s h s') : s'.Shape := by
  obtain ⟨hlt, hkh, hhd, hopen⟩ := hp.head
  refine ⟨?_, ?_, ?_, ?_, ?_, ?_, ?_, ?_, ?_⟩
  · intro v hv
    rw [hp.next] at hv
    have hne : v ≠ h := by omega
    obtain ⟨hlive, hchain, hpages, hk, hc, hcl, href⟩ := hs.fresh v hv
    obtain ⟨-, -, -, -, -, hch⟩ := hp.fields v
    rw [hp.ends.live, hch, hp.ends.pages, hp.kind, hp.closed, Function.update_of_ne hne,
      hp.cleared, hp.refused]
    exact ⟨hlive, hchain, hpages, hk, hc, hcl, href⟩
  · intro v hv
    obtain ⟨-, hmem, hmrid, -⟩ := hp.fields v
    rw [hmem, hmrid]
    exact hs.own v (hp.next ▸ hv)
  · intro v hv hk
    rw [hp.kind] at hk
    obtain ⟨hc, hch, hcl⟩ := hs.spare v (hp.next ▸ hv) hk
    obtain ⟨-, -, -, -, -, hch'⟩ := hp.fields v
    have hne : v ≠ h := by
      rintro rfl
      exact hkh hk
    rw [hp.cleared, hp.closed, Function.update_of_ne hne, hch']
    exact ⟨hc, hch, hcl⟩
  · intro v hv hk
    obtain ⟨hlth, hhead, hkv, hch⟩ := hs.head v (hp.next ▸ hv) (hp.kind ▸ hk)
    obtain ⟨-, -, -, -, hv', hcv⟩ := hp.fields v
    obtain ⟨-, -, -, -, hh', hchh⟩ := hp.fields (s.dma.wr v).headWr
    rw [hv', hp.next, hh', hp.kind, hchh, hcv]
    exact ⟨hlth, hhead, hkv, hch⟩
  · intro v hv hc
    obtain ⟨hops, -, -, hctx, hv', hcv⟩ := hp.fields v
    obtain ⟨-, -, -, hctx', -⟩ := hp.fields (s.dma.wr v).headWr
    rw [hops, hctx, hv', hctx', hp.kind]
    exact hs.chain v (hp.next ▸ hv) (hcv ▸ hc)
  · intro v hv hk
    rw [hp.kind] at hk
    rw [hp.read v (hp.next ▸ hv) hk]
    exact hs.read v (hp.next ▸ hv) hk
  · intro v hv hk hc
    obtain ⟨-, -, -, -, hv', -⟩ := hp.fields v
    obtain ⟨hcl, hunit⟩ := hs.cleared v (hp.next ▸ hv) (hp.kind ▸ hk) (hp.cleared ▸ hc)
    rw [hv', hp.unit_eq, hp.closed]
    refine ⟨?_, hunit⟩
    by_cases hne : (s.dma.wr v).headWr = h
    · rw [hne, Function.update_self]
    · rw [Function.update_of_ne hne]
      exact hcl
  · intro v hv hk hc
    obtain ⟨-, -, -, -, -, hcv⟩ := hp.fields v
    rw [hcv] at hc
    have hno : ¬ (v = h ∧ (s.dma.wr h).chainedOps = true) := by
      rintro ⟨rfl, hc'⟩
      rw [hc] at hc'
      cases hc'
    rw [hp.ends.length, if_neg hno]
    exact hs.single v (hp.next ▸ hv) (hp.kind ▸ hk) hc
  · intro k hk hkk hhead hcl hc
    obtain ⟨-, -, -, -, hk', hck⟩ := hp.fields k
    rw [hp.kind] at hkk
    rw [hk'] at hhead
    rw [hck] at hc
    rw [hp.next] at hk
    have hcount : Nat.count (s'.Member k) s'.next = Nat.count (s.Member k) s.next := by
      rw [hp.next]
      apply Census.count_congr
      intro v _
      obtain ⟨-, -, -, -, hv', -⟩ := hp.fields v
      simp only [Member, hp.kind, hv']
    rw [hcount, hp.ends.length]
    by_cases hkh : k = h
    · subst hkh
      rw [if_pos ⟨rfl, hc⟩, ← length_of_chain hs hl hp hkk hc]
      push_cast
      rfl
    · rw [if_neg fun hc' => hkh hc'.1]
      rw [hp.closed, Function.update_of_ne hkh] at hcl
      exact hs.length k hk hkk hhead hcl hc

theorem Ledger.endPosts (hl : s.Ledger) (hp : EndedTo s h s') : s'.Ledger := by
  have hheadWr : ∀ v, (s'.dma.wr v).headWr = (s.dma.wr v).headWr := fun v => (hp.fields v).2.2.2.2.1
  have hchain : ∀ v, (s'.dma.wr v).chainedOps = (s.dma.wr v).chainedOps := fun v =>
    (hp.fields v).2.2.2.2.2
  refine ⟨?_, ?_, ?_, ?_, ?_, ?_⟩
  · intro k hk hkk hhd
    rw [hp.ends.wrRefc, hl.refc k (hp.next ▸ hk) (hp.kind ▸ hkk) (hheadWr k ▸ hhd), hp.refused,
      hp.next]
    congr 2
    apply Census.count_congr
    intro v _
    simp only [Owed, Member, hp.kind, hheadWr, hp.unit_eq, hp.cleared]
  · intro v hv hk hhd
    rw [hp.ends.live, hp.cleared]
    exact hl.alone v (hp.next ▸ hv) (hp.kind ▸ hk) (hheadWr v ▸ hhd)
  · intro v hv hk hhd
    rw [hp.ends.live, hheadWr, hp.ends.wrRefc]
    exact hl.block v (hp.next ▸ hv) (hp.kind ▸ hk) (by rwa [hp.kind, hheadWr] at hhd)
  · intro k hk hkk hhd href
    rw [hp.ends.pages]
    exact hl.nodup k (hp.next ▸ hk) (hp.kind ▸ hkk) (hheadWr k ▸ hhd) (hp.ends.wrRefc k ▸ href)
  · intro k hk hkk hhd href v
    rw [hp.ends.pages, hl.pages k (hp.next ▸ hk) (hp.kind ▸ hkk) (hheadWr k ▸ hhd)
      (hp.ends.wrRefc k ▸ href) v]
    simp only [Member, hp.next, hp.kind, hheadWr, hchain, hp.cleared]
  · intro m
    rw [hp.ends.mrWrLen, hl.region, hp.next]
    congr 1
    apply Census.count_congr
    intro v _
    rw [hp.ends.live, (hp.fields v).2.1]

end EndPosts

end DmaSys

end Emp
