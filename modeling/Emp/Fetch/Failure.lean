import Emp.Fetch.Block
import Emp.Fetch.Clearing
import Emp.Lib.Tally

/-!
# A fetch that fails

A fault on a remote block may fail at every page, record and post.  What it has done is unwound, so
that a later fault finds the block as this one has.  The pages, the charges, the requests and the
remote pages are restored in every case.  The flags are not: the clean-up of a subblock that had got
its page clears all flags of `GPA_CLEANUP_MASK`, also those it had before (`GPA_REMOTE`, which every
evicted subblock has), and the mark of a stale block is taken off before the fetch.

## Main definitions

* `RemoteBlock.Idle`, `RemoteBlock.Restored` — before and after the failed fault.
* `RemoteBlock.populated` — the subblocks that had got their pages.
* `RemoteBlock.handleRemoteFault_restores_iff` — when the failed fault has restored the block.
-/

namespace Emp

namespace RemoteBlock

variable {p : FaultPlace} {l : FetchLuck} {s t : RemoteBlock} {i page demand : ℕ}

/-- A block with no local pages and no requests, before the fault. -/
structure Idle (s : RemoteBlock) : Prop where
  reads : s.reads = .unread
  posted : s.posted = []
  localPage : s.localPage = fun _ => none
  rState : s.rState = .init
  pages : (s.taken = fun _ => 0) ∧ s.pushed = fun _ => 0

/-- The failed fault has left the block `t` as it was in `s`. -/
structure Restored (s t : RemoteBlock) : Prop where
  localPage : t.localPage = s.localPage
  remotePage : t.remotePage = s.remotePage
  flags : t.flags = s.flags
  rState : t.rState = s.rState
  pages : t.pushed = t.taken
  rss : t.rss = s.rss
  blockCount : t.blockCount = s.blockCount
  requests : ∀ i, t.reads.w i = none ∧ t.reads.wr.frees i = if i ∈ t.posted then 1 else 0
  stale : t.reads.wr.stale = false
  kept : ∀ i, t.reads.gaveUp i = 0

/-- The fetch of subblock `i` fails. -/
def fails (l : FetchLuck) (noFetch : Bool) (i : ℕ) : Bool :=
  !l.allocLocalPage i || (!noFetch && (l.post i).isSome)

/-- No reads are posted for this fault. -/
def noFetch (s : RemoteBlock) : Bool := s.flags 0 .staleBlock || !s.flags 0 .touched

/-- The subblocks that get their pages before the fetch fails. -/
def populated (p : FaultPlace) (l : FetchLuck) (noFetch : Bool) (demand : ℕ) : List ℕ :=
  if l.killed = false ∧ ∀ i < p.numSubblock, (l.allocPages i).isSome = true then
    (fetchOrder p.numSubblock demand).takeWhile fun i => !fails l noFetch i
  else []

/-! ## Pages and charges -/

/-- The pages that were taken are on a free list, in a subblock, or in `held`; the charges are those
of the subblocks with pages. -/
structure Ledger (p : FaultPlace) (rss : ℤ) (s : RemoteBlock) (held : List ℕ) : Prop where
  pages : ∀ x, (s.taken x : ℤ) = s.pushed x +
    tally p.numSubblock (fun i => if s.localPage i = some x then 1 else 0) + held.count x
  rss : s.rss = rss +
    p.subblockSize * tally p.numSubblock fun i => if (s.localPage i).isSome then 1 else 0

section Ledger

variable {rss : ℤ} {held : List ℕ}

theorem ledger_pushPage (h : Ledger p rss s (page :: held)) :
    Ledger p rss (s.pushPage page) held := by
  refine ⟨fun x => ?_, h.rss⟩
  have hx := h.pages x
  simp only [List.count_cons] at hx
  show (s.taken x : ℤ) = (Function.update s.pushed page (s.pushed page + 1) x : ℕ) +
    tally p.numSubblock (fun i => if s.localPage i = some x then 1 else 0) + held.count x
  by_cases hxp : x = page
  · subst hxp
    rw [Function.update_self]
    simp only [beq_self_eq_true, if_true] at hx
    push_cast at hx ⊢
    omega
  · have hne : (page == x) = false := by simpa using fun e => hxp e.symm
    rw [Function.update_of_ne hxp]
    simpa [hne] using hx

theorem ledger_freeBlockPages {pages : List ℕ} (h : Ledger p rss s pages) :
    Ledger p rss (s.freeBlockPages pages) [] := by
  induction pages generalizing s with
  | nil => exact h
  | cons page pages ih => exact ih (ledger_pushPage h)

theorem ledger_takePage (h : Ledger p rss s held) :
    Ledger p rss (s.takePage page) (page :: held) := by
  refine ⟨fun x => ?_, h.rss⟩
  have hx := h.pages x
  simp only [List.count_cons]
  show ((Function.update s.taken page (s.taken page + 1) x : ℕ) : ℤ) = s.pushed x +
    tally p.numSubblock (fun i => if s.localPage i = some x then 1 else 0) + _
  by_cases hxp : x = page
  · subst hxp
    rw [Function.update_self]
    simp only [beq_self_eq_true, if_true]
    push_cast
    omega
  · have hne : (page == x) = false := by simpa using fun e => hxp e.symm
    rw [Function.update_of_ne hxp]
    simpa [hne] using hx

/-- A subblock gets a page. -/
theorem ledger_populate (h : Ledger p rss s (page :: held)) (hi : i < p.numSubblock)
    (hnone : s.localPage i = none)
    (hlp : t.localPage = Function.update s.localPage i (some page)) (ht : t.taken = s.taken)
    (hp : t.pushed = s.pushed) (hr : t.rss = s.rss + p.subblockSize) :
    Ledger p rss t held := by
  refine ⟨fun x => ?_, ?_⟩
  · have hx := h.pages x
    simp only [List.count_cons] at hx
    rw [ht, hp, tally_change (f := fun k => if s.localPage k = some x then 1 else 0) hi ?_]
    · rw [hlp, Function.update_self, hnone]
      by_cases hxp : page = x
      · simp only [hxp, beq_self_eq_true, if_true] at hx ⊢
        simp
        push_cast at hx
        omega
      · have hne : (page == x) = false := by simpa using hxp
        simp only [hne] at hx
        simp [hxp]
        push_cast at hx
        omega
    · intro k _ hk
      rw [hlp, Function.update_of_ne hk]
  · rw [hr, h.rss, tally_change (g := fun k => if (t.localPage k).isSome then 1 else 0)
      (f := fun k => if (s.localPage k).isSome then 1 else 0) hi ?_]
    · rw [hlp, Function.update_self, hnone]
      simp
      ring
    · intro k _ hk
      rw [hlp, Function.update_of_ne hk]

/-- A subblock gives its page back. -/
theorem ledger_freeGpa (h : Ledger p rss s held) (hi : i < p.numSubblock)
    (hsome : s.localPage i = some page)
    (hlp : t.localPage = Function.update s.localPage i none) (ht : t.taken = s.taken)
    (hp : t.pushed = Function.update s.pushed page (s.pushed page + 1))
    (hr : t.rss = s.rss - p.subblockSize) : Ledger p rss t held := by
  refine ⟨fun x => ?_, ?_⟩
  · have hx := h.pages x
    rw [ht, hp, tally_change (f := fun k => if s.localPage k = some x then 1 else 0) hi ?_]
    · rw [hlp, Function.update_self, hsome]
      by_cases hxp : x = page
      · subst hxp
        simp
        omega
      · have hne : page ≠ x := fun e => hxp e.symm
        simp [hxp, hne]
        omega
    · intro k _ hk
      rw [hlp, Function.update_of_ne hk]
  · rw [hr, h.rss, tally_change (g := fun k => if (t.localPage k).isSome then 1 else 0)
      (f := fun k => if (s.localPage k).isSome then 1 else 0) hi ?_]
    · rw [hlp, Function.update_self, hsome]
      simp
      ring
    · intro k _ hk
      rw [hlp, Function.update_of_ne hk]

/-- The end: no subblock has a page, and none is held. -/
theorem Ledger.balanced (h : Ledger p rss s []) (hlp : s.localPage = fun _ => none) :
    s.pushed = s.taken ∧ s.rss = rss := by
  constructor
  · funext x
    have hx := h.pages x
    rw [tally_zero fun k _ => by rw [hlp]; rfl] at hx
    simp at hx
    omega
  · have hr := h.rss
    rw [tally_zero fun k _ => by rw [hlp]; rfl] at hr
    simpa using hr

end Ledger

/-! ## The requests -/

/-- The requests of the block, as a run of its clears. -/
def run (p : FaultPlace) (s : RemoteBlock) : FetchRun := ⟨p.reads, s.posted, s.reads⟩

/-- No request was posted, or those that were are in order. -/
def Ordered (p : FaultPlace) (s : RemoteBlock) (P : FetchRun → Prop) : Prop :=
  (s.posted = [] ∧ s.reads = .unread) ∨ ∃ h, FetchRun.Inv (s.run p) h ∧ P (s.run p)

/-- The reads that have not been cleared are in flight. -/
def Unreported (p : FaultPlace) (s : RemoteBlock) : Prop :=
  ∀ i ∈ s.posted, s.reads.cleared i = none → p.reads.dmaOps i ≠ .memdev → s.reads.done i = false

theorem ordered_postRead (h : Ordered p s FetchRun.Posting) (hu : Unreported p s)
    (hnew : i ∉ s.posted) (ht : t.posted = s.posted ++ [i])
    (hr : t.reads = s.reads.postRead p.reads s.posted.head? i) :
    Ordered p t FetchRun.Posting ∧ Unreported p t := by
  have hrun : t.run p = ⟨p.reads, s.posted ++ [i],
      s.reads.postRead p.reads s.posted.head? i⟩ := by
    simp only [run, ht, hr]
  constructor
  · right
    rw [hrun]
    rcases h with ⟨hp, hun⟩ | ⟨h, hi, hpost⟩
    · rw [hp, hun]
      exact ⟨i, FetchRun.inv_postHead p.reads i⟩
    · rw [show s.posted.head? = some h from hi.head]
      exact ⟨h, FetchRun.inv_postRead hi hpost hnew⟩
  · intro j hj hc hne
    rw [hr] at hc ⊢
    show Function.update s.reads.done i _ j = false
    by_cases hji : j = i
    · subst hji
      rw [Function.update_self]
      simpa using hne
    · rw [Function.update_of_ne hji]
      rw [ht] at hj
      rcases List.mem_append.mp hj with hj | hj
      · exact hu j hj hc hne
      · exact absurd (List.mem_singleton.mp hj) hji

/-- What the unwinding keeps of the requests: all that were cleared were cancelled. -/
structure Cancelling (p : FaultPlace) (s : RemoteBlock) : Prop where
  ordered : Ordered p s fun _ => True
  cancelled : ∀ i, s.reads.cleared i ≠ some true
  unreported : Unreported p s

theorem cancelling_of_posting (h : Ordered p s FetchRun.Posting) (hu : Unreported p s) :
    Cancelling p s := by
  refine ⟨h.imp id fun ⟨h, hi, _⟩ => ⟨h, hi, trivial⟩, fun i => ?_, hu⟩
  rcases h with ⟨-, hun⟩ | ⟨h, hi, hpost⟩
  · rw [hun]
    nofun
  · rw [show s.reads.cleared = fun _ => none from hpost.cleared]
    nofun

/-- Once the device is done, the wait for a read ends. -/
theorem inv_endRead {h : ℕ} (hi : FetchRun.Inv (s.run p) h) (hm : i ∈ s.posted)
    (hd : p.reads.dmaOps i ≠ .memdev → s.reads.done i = false) :
    FetchRun.Inv ⟨p.reads, s.posted, endRead p l s.reads i⟩ h ∧
      (endRead p l s.reads i).w = s.reads.w ∧
      (endRead p l s.reads i).cleared = s.reads.cleared ∧
      (∀ j ≠ i, (endRead p l s.reads i).done j = s.reads.done j) ∧
      (endRead p l s.reads i).waitEnds p.reads i = true := by
  have hops : (s.reads.wr.cell i).dmaOps = p.reads.dmaOps i := (hi.cells i hm).2.2.2.2
  have hc : (s.reads.wr.cell i).chainedOps = false := (hi.cells i hm).2.1
  have hg : (s.reads.wr.cell i).gpa = i := (hi.cells i hm).2.2.2.1
  unfold endRead
  cases ho : p.reads.dmaOps i with
  | rdma =>
      have hf : (s.run p).InFlight .rdma i := ⟨hm, ho, hd (by rw [ho]; decide)⟩
      by_cases hmp : p.reads.mempoll i = true
      · simp only [hmp, if_true]
        refine ⟨FetchRun.inv_arrive hi i true, rfl, rfl,
          fun j hj => Function.update_of_ne hj .., ?_⟩
        simp [FetchedBlock.waitEnds, FetchedBlock.isWrReadReady, FetchedBlock.arrive, hops, ho, hc,
          hg, hmp]
      · simp only [hmp]
        refine ⟨FetchRun.inv_complete hi hf, rfl, rfl, fun j hj => Function.update_of_ne hj .., ?_⟩
        cases l.readOk i <;>
          simp [FetchedBlock.waitEnds, FetchedBlock.isWrReadReady, FetchedBlock.handleRdmaRead,
            hops, ho, hc]
  | nvme =>
      have hf : (s.run p).InFlight .nvme i := ⟨hm, ho, hd (by rw [ho]; decide)⟩
      refine ⟨FetchRun.inv_endIo hi hf, rfl, rfl, fun j hj => Function.update_of_ne hj .., ?_⟩
      simp [FetchedBlock.waitEnds, FetchedBlock.bdevEndIo, hops, ho]
  | memdev =>
      refine ⟨hi, rfl, rfl, fun _ _ => rfl, ?_⟩
      simp [FetchedBlock.waitEnds, hops, ho]

/-- The read of a subblock is cancelled, if there is one. -/
theorem cancelRead_spec (h : Cancelling p s) (i : ℕ) :
    ∃ b, s.cancelRead p l i = { s with reads := b } ∧ Cancelling p { s with reads := b } ∧
      b.w i = none ∧ ∀ j, s.reads.w j = none → b.w j = none := by
  by_cases hw : s.reads.w i = none
  · exact ⟨s.reads, by simp [cancelRead, hw], h, hw, fun _ hj => hj⟩
  · rcases h.ordered with ⟨-, hun⟩ | ⟨hd, hi, -⟩
    · rw [hun] at hw
      exact absurd rfl hw
    · obtain ⟨w, hwi⟩ := Option.ne_none_iff_exists'.mp hw
      obtain ⟨rfl, hl⟩ := hi.w_eq hwi
      obtain ⟨hm, hcn⟩ := FetchRun.mem_left.mp hl
      obtain ⟨hi', hw', hcl', hdone', hends⟩ :=
        inv_endRead (l := l) hi hm fun hne => h.unreported w hm hcn hne
      obtain ⟨b, hb⟩ : ∃ b, b = endRead p l s.reads w := ⟨_, rfl⟩
      rw [← hb] at hi' hw' hcl' hdone' hends
      have hl' : w ∈ FetchRun.left ⟨p.reads, s.posted, b⟩ := by
        refine FetchRun.mem_left.mpr ⟨hm, ?_⟩
        show b.cleared w = none
        rw [hcl']
        exact hcn
      have hdw : b.done w = true := hi'.done_of_waitEnds hm hends
      have hclr : FetchRun.Inv (FetchRun.clearAt ⟨p.reads, s.posted, b⟩ false w) hd := by
        refine FetchRun.inv_clearAt hi' hl' hdw fun c _ hc => ?_
        have hc : b.cleared hd = some c := hc
        rw [hcl'] at hc
        cases c with
        | false => rfl
        | true => exact absurd hc (h.cancelled hd)
      have hclc : (FetchRun.clearAt ⟨p.reads, s.posted, b⟩ false w).block.cleared =
          Function.update b.cleared w (some false) := FetchRun.cleared_clearAt _ hi' hm
      have hclc : (b.clearSubblock false w w).cleared =
          Function.update s.reads.cleared w (some false) := by
        rw [← hcl']
        exact hclc
      obtain ⟨hsw, -, -, hsd, -⟩ :=
        FetchRun.clearFetchingWorkRequest_same false (hi'.hangs hm)
      refine ⟨b.clearSubblock false w w, ?_, ⟨.inr ⟨hd, hclr, trivial⟩, fun j => ?_,
        fun j hj hc hne => ?_⟩, ?_, fun j hj => ?_⟩
      · have hbw : b.w w = some w := by rw [hw', hwi]
        have hcancel : b.cancelReadAsync p.reads w = some (b.clearSubblock false w w) := by
          simp only [FetchedBlock.cancelReadAsync, hbw, hends, if_true]
        rw [cancelRead, if_neg hw, ← hb, hcancel]
        rfl
      · rw [hclc]
        by_cases hjw : j = w
        · simp [hjw]
        · rw [Function.update_of_ne hjw]
          exact h.cancelled j
      · have hc : (b.clearSubblock false w w).cleared j = none := hc
        rw [hclc] at hc
        have hjw : j ≠ w := by
          rintro rfl
          simp at hc
        rw [Function.update_of_ne hjw] at hc
        show (b.clearFetchingWorkRequest false w).done j = false
        rw [hsd, hdone' j hjw]
        exact h.unreported j hj hc hne
      · exact Function.update_self ..
      · show Function.update (b.clearFetchingWorkRequest false w).w w none j = none
        rw [hsw, hw']
        by_cases hjw : j = w
        · simp [hjw]
        · rw [Function.update_of_ne hjw]
          exact hj

/-- All reads were cancelled: every request is freed, and no remote page was given up. -/
theorem Cancelling.requests (h : Cancelling p s) (hw : ∀ i, s.reads.w i = none) :
    (∀ i, s.reads.wr.frees i = if i ∈ s.posted then 1 else 0) ∧ s.reads.wr.stale = false ∧
      ∀ i, s.reads.gaveUp i = 0 := by
  rcases h.ordered with ⟨hp, hun⟩ | ⟨hd, hi, -⟩
  · rw [hp, hun]
    exact ⟨fun _ => rfl, rfl, fun _ => rfl⟩
  · have hcl : ∀ i ∈ s.posted, s.reads.cleared i ≠ none := by
      intro i hm hc
      have hwi : s.reads.w i = _ := hi.w i
      rw [hw i, if_pos ⟨hm, hc⟩] at hwi
      cases hwi
    have hleft : (s.run p).left = [] := by
      rw [List.eq_nil_iff_forall_not_mem]
      intro i hl
      obtain ⟨hm, hc⟩ := FetchRun.mem_left.mp hl
      exact hcl i hm hc
    refine ⟨fun i => (hi.frees i).trans ?_, hi.stale, fun i => (hi.gaveUp i).trans ?_⟩
    · have hiff : (s.run p).Released hd i ↔ i ∈ s.posted :=
        ⟨fun hr => hr.1, fun hm => ⟨hm, hcl i hm, fun _ => hleft⟩⟩
      simp only [hiff]
    · rw [if_neg fun h1 => h.cancelled i h1.2]

/-! ## Getting pages -/

section Alloc

variable {rss : ℤ} {held : List ℕ}

theorem freeBlockPages_same (pages : List ℕ) :
    ∃ pushed, s.freeBlockPages pages = { s with pushed := pushed } := by
  induction pages generalizing s with
  | nil => exact ⟨s.pushed, rfl⟩
  | cons page pages ih =>
      obtain ⟨pushed, h⟩ := ih (s := s.pushPage page)
      exact ⟨pushed, h⟩

/-- The pages that the loop of `alloc_block` takes. -/
theorem allocBlockLoop_spec (h : Ledger p rss s held) (n : ℕ) :
    (∃ taken, (allocBlockLoop l s i n).1 = { s with taken := taken }) ∧
      Ledger p rss (allocBlockLoop l s i n).1 ((allocBlockLoop l s i n).2.1 ++ held) ∧
      ((allocBlockLoop l s i n).2.2 = true ↔
        ∀ j, i ≤ j → j < i + n → (l.allocPages j).isSome = true) ∧
      ((allocBlockLoop l s i n).2.2 = true → (allocBlockLoop l s i n).2.1.length = n) := by
  induction n generalizing s i held with
  | zero =>
      refine ⟨⟨s.taken, rfl⟩, h, ⟨fun _ j _ _ => by omega, fun _ => rfl⟩, fun _ => rfl⟩
  | succ n ih =>
      unfold allocBlockLoop
      cases ha : l.allocPages i with
      | none =>
          refine ⟨⟨s.taken, rfl⟩, h, ⟨nofun, fun hall => ?_⟩, nofun⟩
          have := hall i (Nat.le_refl i) (by omega)
          rw [ha] at this
          cases this
      | some page =>
          obtain ⟨⟨taken, hsame⟩, hled, hiff, hlen⟩ := ih (i := i + 1) (ledger_takePage h)
          refine ⟨⟨taken, hsame⟩, ?_, ⟨fun hr j hj hlt => ?_, fun hall => hiff.mpr fun j hj hlt =>
            hall j (by omega) (by omega)⟩, fun hr => ?_⟩
          · refine ⟨fun x => ?_, hled.rss⟩
            rw [hled.pages x, List.count_append, List.count_append, List.count_cons,
              List.count_cons]
            push_cast
            ring
          · by_cases hji : j = i
            · rw [hji, ha]
              rfl
            · exact hiff.mp hr j (by omega) (by omega)
          · simp [hlen hr]

/-- `alloc_block` takes all pages, or gives back those it has taken. -/
theorem allocBlock_spec (h : Ledger p rss s []) :
    (∃ e taken pushed, s.allocBlock p l = ({ s with taken := taken, pushed := pushed }, .error e) ∧
      Ledger p rss { s with taken := taken, pushed := pushed } [] ∧
      ¬ (l.killed = false ∧ ∀ j < p.numSubblock, (l.allocPages j).isSome = true)) ∨
    ∃ pages taken, s.allocBlock p l = ({ s with taken := taken }, .ok pages) ∧
      Ledger p rss { s with taken := taken } pages ∧ pages.length = p.numSubblock ∧
      l.killed = false ∧ ∀ j < p.numSubblock, (l.allocPages j).isSome = true := by
  unfold allocBlock
  by_cases hk : l.killed = true
  · refine .inl ⟨.eintr, s.taken, s.pushed, by rw [if_pos hk], h, fun hno => ?_⟩
    rw [hk] at hno
    exact absurd hno.1 (by decide)
  · obtain ⟨⟨taken, hsame⟩, hled, hiff, hlen⟩ :=
      allocBlockLoop_spec (l := l) (i := 0) h p.numSubblock
    rw [if_neg hk]
    simp only [List.append_nil] at hled
    by_cases hr : (allocBlockLoop l s 0 p.numSubblock).2.2 = true
    · refine .inr ⟨_, taken, by simp only [hr, if_true, hsame], hsame ▸ hled, hlen hr,
        by simpa using hk, fun j hj => hiff.mp hr j (Nat.zero_le j) (by omega)⟩
    · obtain ⟨pushed, hp⟩ := freeBlockPages_same (s := (allocBlockLoop l s 0 p.numSubblock).1)
        (allocBlockLoop l s 0 p.numSubblock).2.1
      have hled' := ledger_freeBlockPages hled
      rw [hp, hsame] at hled'
      refine .inl ⟨.enomem, taken, pushed, ?_, hled', fun hall => hr (hiff.mpr fun j _ hj =>
        hall.2 j (by omega))⟩
      simp only [hr]
      rw [hp, hsame]
      rfl

end Alloc

/-! ## Getting the subblocks -/

/-- The block after the subblocks of `done` have got their pages, with `held` left. -/
structure Populated (p : FaultPlace) (rss : ℤ) (s₀ s : RemoteBlock) (done held : List ℕ) :
    Prop where
  flags : s.flags = s₀.flags
  remotePage : s.remotePage = s₀.remotePage
  rState : s.rState = s₀.rState
  blockCount : s.blockCount = s₀.blockCount
  localPage : ∀ i, (s.localPage i).isSome = true ↔ i ∈ done
  ledger : Ledger p rss s held
  ordered : Ordered p s FetchRun.Posting
  unreported : Unreported p s
  posted : ∀ i ∈ s.posted, i ∈ done

section Fetch

variable {rss : ℤ} {s₀ : RemoteBlock} {done held : List ℕ} (noFetch : Bool)

/-- A subblock that is fetched. -/
theorem populated_fetchSubblock (h : Populated p rss s₀ s done (page :: held))
    (hi : i < p.numSubblock) (hnew : i ∉ done) :
    (fails l noFetch i = false ∧ ∃ t b, s.fetchSubblock p l noFetch i page = (t, .ok b) ∧
      Populated p rss s₀ t (done ++ [i]) held) ∨
    (fails l noFetch i = true ∧ ∃ t e, s.fetchSubblock p l noFetch i page = (t, .error e) ∧
      Populated p rss s₀ t done held) := by
  have hnone : s.localPage i = none := by
    rw [← Option.not_isSome_iff_eq_none, h.localPage]
    exact hnew
  have hpush := ledger_pushPage h.ledger
  have hpop : ∀ j,
      (Function.update s.localPage i (some page) j).isSome = true ↔ j ∈ done ++ [i] := by
    intro j
    by_cases hji : j = i
    · subst hji
      simp
    · simp [hji, h.localPage]
  by_cases ha : l.allocLocalPage i = true
  · cases noFetch with
    | true =>
        refine .inl ⟨by simp [fails, ha], _, _, by
          simp only [fetchSubblock, ha, if_true]
          rfl, ?_⟩
        exact ⟨h.flags, h.remotePage, h.rState, h.blockCount, hpop,
          ledger_populate h.ledger hi hnone rfl rfl rfl rfl, h.ordered, h.unreported,
          fun j hj => List.mem_append_left _ (h.posted j hj)⟩
    | false =>
        cases hp : l.post i with
        | some e =>
            have hlp : Function.update (Function.update s.localPage i (some page)) i none =
                s.localPage := by
              rw [Function.update_idem, ← hnone, Function.update_eq_self]
            have hrss : s.rss + p.subblockSize - p.subblockSize = s.rss := by omega
            refine .inr ⟨by simp [fails, hp], _, _, by
              simp only [fetchSubblock, ha, if_true, hp, Bool.false_eq_true, if_false, hlp, hrss]
              rfl, ?_⟩
            exact ⟨h.flags, h.remotePage, h.rState, h.blockCount, h.localPage, hpush, h.ordered,
              h.unreported, h.posted⟩
        | none =>
            refine .inl ⟨by simp [fails, ha, hp], _, _, by
              simp only [fetchSubblock, ha, if_true, hp, Bool.false_eq_true, if_false]
              rfl, ?_⟩
            obtain ⟨hord, hunr⟩ := ordered_postRead h.ordered h.unreported
              (fun hm => hnew (h.posted i hm)) (t := { s with
                localPage := Function.update s.localPage i (some page)
                rss := s.rss + p.subblockSize
                reads := s.reads.postRead p.reads s.posted.head? i
                posted := s.posted ++ [i] }) rfl rfl
            refine ⟨h.flags, h.remotePage, h.rState, h.blockCount, hpop,
              ledger_populate h.ledger hi hnone rfl rfl rfl rfl, hord, hunr, fun j hj => ?_⟩
            rcases List.mem_append.mp hj with hj | hj
            · exact List.mem_append_left _ (h.posted j hj)
            · exact List.mem_append_right _ hj
  · have ha : l.allocLocalPage i = false := by simpa using ha
    refine .inr ⟨by simp [fails, ha], _, _, by
      simp only [fetchSubblock, ha, Bool.false_eq_true, if_false]
      rfl, ?_⟩
    exact ⟨h.flags, h.remotePage, h.rState, h.blockCount, h.localPage, hpush, h.ordered,
      h.unreported, h.posted⟩

/-- The loop of `fetch_block`, if it fails. -/
theorem populated_fetchSubblocks {pairs : List (ℕ × ℕ)} {e : FetchError}
    (h : Populated p rss s₀ s done (pairs.map Prod.snd))
    (hlt : ∀ i ∈ pairs.map Prod.fst, i < p.numSubblock)
    (hn : (done ++ pairs.map Prod.fst).Nodup)
    (he : (s.fetchSubblocks p l noFetch pairs).2.2 = some e) :
    Populated p rss s₀ (s.fetchSubblocks p l noFetch pairs).1
      (done ++ (pairs.map Prod.fst).takeWhile fun i => !fails l noFetch i)
      (s.fetchSubblocks p l noFetch pairs).2.1 := by
  induction pairs generalizing s done with
  | nil => cases he
  | cons pair pairs ih =>
      obtain ⟨i, page⟩ := pair
      have hnew : i ∉ done := fun hm =>
        (List.nodup_append.mp hn).2.2 i hm i List.mem_cons_self rfl
      rcases populated_fetchSubblock (l := l) noFetch h (hlt i List.mem_cons_self) hnew
        with ⟨hf, t, b, ht, hpop⟩ | ⟨hf, t, e', ht, hpop⟩
      · simp only [fetchSubblocks, ht] at he ⊢
        have := ih hpop (fun j hj => hlt j (List.mem_cons_of_mem _ hj))
          (by simpa using hn) he
        simpa [List.takeWhile_cons, hf] using this
      · simp only [fetchSubblocks, ht]
        simpa [List.takeWhile_cons, hf] using hpop

end Fetch

/-! ## Unwinding -/

section Unwind

variable {rss : ℤ} {held : List ℕ}

/-- The block while it is unwound: a request belongs to a subblock with a page. -/
structure Unwinding (p : FaultPlace) (rss : ℤ) (s : RemoteBlock) (held : List ℕ) : Prop where
  ledger : Ledger p rss s held
  cancelling : Cancelling p s
  pages : ∀ i, s.reads.w i ≠ none → (s.localPage i).isSome = true

/-- What the unwinding of one subblock does. -/
theorem unwindSubblock_spec (h : Unwinding p rss s held) (hi : i < p.numSubblock) :
    Unwinding p rss (s.unwindSubblock p l i) held ∧
      (s.unwindSubblock p l i).localPage = Function.update s.localPage i none ∧
      (∀ j f, (s.unwindSubblock p l i).flags j f =
        ((if j = i ∧ (s.localPage i).isSome = true then f.keep else true) && s.flags j f)) ∧
      (s.unwindSubblock p l i).remotePage = s.remotePage ∧
      (s.unwindSubblock p l i).rState = s.rState ∧
      (s.unwindSubblock p l i).blockCount = s.blockCount ∧
      (s.unwindSubblock p l i).posted = s.posted := by
  unfold unwindSubblock
  cases hp : s.localPage i with
  | none =>
      have hlp : Function.update s.localPage i none = s.localPage := by
        rw [← hp, Function.update_eq_self]
      refine ⟨h, hlp.symm, fun j f => by simp, rfl, rfl, rfl, rfl⟩
  | some page =>
      obtain ⟨b, hb, hc, hwi, hw⟩ := cancelRead_spec (l := l) h.cancelling i
      rw [hb]
      refine ⟨⟨?_, ⟨hc.ordered, hc.cancelled, hc.unreported⟩, fun j hj => ?_⟩, rfl,
        fun j f => ?_, rfl, rfl, rfl, rfl⟩
      · exact ledger_freeGpa h.ledger hi hp rfl rfl rfl rfl
      · show (Function.update s.localPage i none j).isSome = true
        have hj : b.w j ≠ none := hj
        have hji : j ≠ i := fun e => hj (e ▸ hwi)
        rw [Function.update_of_ne hji]
        exact h.pages j fun hn => hj (hw j hn)
      · show Function.update s.flags i _ j f = _
        by_cases hji : j = i
        · subst hji
          simp
        · simp [hji]

/-- What the unwinding of a list of subblocks does. -/
theorem foldl_unwindSubblock (h : Unwinding p rss s held) {m : List ℕ}
    (hm : ∀ i ∈ m, i < p.numSubblock) :
    Unwinding p rss (m.foldl (unwindSubblock p l) s) held ∧
      (∀ j, (m.foldl (unwindSubblock p l) s).localPage j =
        if j ∈ m then none else s.localPage j) ∧
      (∀ j f, (m.foldl (unwindSubblock p l) s).flags j f =
        ((if j ∈ m ∧ (s.localPage j).isSome = true then f.keep else true) && s.flags j f)) ∧
      (m.foldl (unwindSubblock p l) s).remotePage = s.remotePage ∧
      (m.foldl (unwindSubblock p l) s).rState = s.rState ∧
      (m.foldl (unwindSubblock p l) s).blockCount = s.blockCount ∧
      (m.foldl (unwindSubblock p l) s).posted = s.posted := by
  induction m generalizing s with
  | nil => exact ⟨h, fun j => by simp, fun j f => by simp, rfl, rfl, rfl, rfl⟩
  | cons i m ih =>
      obtain ⟨hu, hlp, hfl, hrp, hrs, hbc, hpo⟩ :=
        unwindSubblock_spec (l := l) h (hm i List.mem_cons_self)
      obtain ⟨hu', hlp', hfl', hrp', hrs', hbc', hpo'⟩ :=
        ih hu fun j hj => hm j (List.mem_cons_of_mem _ hj)
      rw [List.foldl_cons]
      refine ⟨hu', fun j => ?_, fun j f => ?_, hrp'.trans hrp, hrs'.trans hrs, hbc'.trans hbc,
        hpo'.trans hpo⟩
      · rw [hlp', hlp]
        by_cases hji : j = i <;> by_cases hjm : j ∈ m <;> simp [hji, hjm]
      · rw [hfl', hfl, hlp]
        by_cases hji : j = i
        · subst hji
          cases (s.localPage j).isSome <;> simp
        · simp [hji]

end Unwind

/-! ## The failed fault -/

/-- What a failed fetch leaves: everything as it was, but for the flags of the subblocks of
`done`. -/
structure Failed (s t : RemoteBlock) (done : List ℕ) : Prop where
  localPage : t.localPage = fun _ => none
  flags : ∀ i f, t.flags i f = ((if i ∈ done then f.keep else true) && s.flags i f)
  remotePage : t.remotePage = s.remotePage
  rState : t.rState = s.rState
  blockCount : t.blockCount = s.blockCount
  pages : t.pushed = t.taken
  rss : t.rss = s.rss
  requests : ∀ i, t.reads.w i = none ∧ t.reads.wr.frees i = if i ∈ t.posted then 1 else 0
  stale : t.reads.wr.stale = false
  kept : ∀ i, t.reads.gaveUp i = 0

theorem length_fetchOrder {n : ℕ} (hd : demand < n) : (fetchOrder n demand).length = n := by
  have hmem : demand ∈ List.range n := List.mem_range.mpr hd
  have herase := List.length_erase_of_mem hmem
  rw [List.nodup_range.erase_eq_filter, List.length_range] at herase
  simp only [fetchOrder, List.length_cons]
  have hfil : ((List.range n).filter (· ≠ demand)).length = n - 1 := by
    rw [← herase]
    congr 1
    refine List.filter_congr fun j _ => ?_
    by_cases hj : j = demand <;> simp [hj]
  omega

theorem lt_of_mem_fetchOrder {n : ℕ} (hd : demand < n) (hi : i ∈ fetchOrder n demand) : i < n := by
  rcases List.mem_cons.mp hi with rfl | hi
  · exact hd
  · exact List.mem_range.mp (List.mem_of_mem_filter hi)

theorem Idle.ledger (hs : Idle s) : Ledger p s.rss s [] := by
  refine ⟨fun x => ?_, ?_⟩
  · rw [tally_zero fun k _ => by rw [hs.localPage]; rfl, hs.pages.1, hs.pages.2]
    rfl
  · rw [tally_zero fun k _ => by rw [hs.localPage]; rfl]
    simp

/-- Before the first subblock gets its page. -/
theorem populated_markTouched {taken : ℕ → ℕ} {pages : List ℕ} (hs : Idle s)
    (hled : Ledger p s.rss { s with taken := taken } pages) (firstTouch : Bool) :
    Populated p s.rss (s.markTouched firstTouch)
      (markTouched { s with taken := taken } firstTouch) [] pages := by
  have hlp : ∀ i, (s.localPage i).isSome = true ↔ i ∈ ([] : List ℕ) := fun i => by
    rw [hs.localPage]
    simp
  have hpo : ∀ i ∈ s.posted, i ∈ ([] : List ℕ) := fun i hi => by
    rw [hs.posted] at hi
    exact hi
  have hu : Unreported p s := fun i hi => by
    rw [hs.posted] at hi
    cases hi
  cases firstTouch with
  | false =>
      exact ⟨rfl, rfl, rfl, rfl, hlp, ⟨hled.pages, hled.rss⟩, .inl ⟨hs.posted, hs.reads⟩, hu, hpo⟩
  | true =>
      exact ⟨rfl, rfl, rfl, rfl, hlp, ⟨hled.pages, hled.rss⟩, .inl ⟨hs.posted, hs.reads⟩, hu, hpo⟩

/-- The unwinding after the marking: everything is taken back but for the flags of `done`. -/
theorem failed_unwindFetchBlock {firstTouch : Bool} {done held : List ℕ}
    (hft : firstTouch = !s.flags 0 .touched) (hdone : ∀ i ∈ done, i < p.numSubblock)
    (h : Populated p s.rss (s.markTouched firstTouch) t done held) :
    Failed s (t.unwindFetchBlock p l firstTouch held) done := by
  have hw : ∀ i, t.reads.w i ≠ none → (t.localPage i).isSome = true := by
    intro i hne
    rw [h.localPage]
    rcases h.ordered with ⟨-, hun⟩ | ⟨hd, hi, -⟩
    · rw [hun] at hne
      exact absurd rfl hne
    · obtain ⟨w, hwi⟩ := Option.ne_none_iff_exists'.mp hne
      obtain ⟨rfl, hl⟩ := hi.w_eq hwi
      exact h.posted w (FetchRun.mem_left.mp hl).1
  obtain ⟨hu, hlp, hfl, hrp, hrs, hbc, hpo⟩ := foldl_unwindSubblock (l := l)
    ⟨h.ledger, cancelling_of_posting h.ordered h.unreported, hw⟩
    (m := List.range p.numSubblock) fun i hi => List.mem_range.mp hi
  obtain ⟨u, hu'⟩ : ∃ u, u = (List.range p.numSubblock).foldl (unwindSubblock p l) t := ⟨_, rfl⟩
  rw [← hu'] at hu hlp hfl hrp hrs hbc hpo
  have hnone : ∀ j, u.localPage j = none := by
    intro j
    rw [hlp]
    by_cases hj : j < p.numSubblock
    · rw [if_pos (List.mem_range.mpr hj)]
    · rw [if_neg fun hm => hj (List.mem_range.mp hm), ← Option.not_isSome_iff_eq_none, h.localPage]
      exact fun hm => hj (hdone j hm)
  have hwn : ∀ i, u.reads.w i = none := by
    intro i
    by_contra hne
    have := hu.pages i hne
    rw [hnone] at this
    cases this
  obtain ⟨hreq, hst, hkept⟩ := hu.cancelling.requests hwn
  obtain ⟨pushed, hpu⟩ := freeBlockPages_same (s := u) held
  have hled := ledger_freeBlockPages hu.ledger
  rw [hpu] at hled
  obtain ⟨hbal, hrss⟩ := hled.balanced (funext hnone)
  have hmask : ∀ i f, u.flags i f =
      ((if i ∈ done then f.keep else true) && (s.markTouched firstTouch).flags i f) := by
    intro i f
    have hiff : (i ∈ List.range p.numSubblock ∧ (t.localPage i).isSome = true) ↔ i ∈ done := by
      rw [h.localPage, List.mem_range]
      exact ⟨fun h1 => h1.2, fun h1 => ⟨hdone i h1, h1⟩⟩
    rw [hfl, h.flags]
    simp only [hiff]
  have hrp' := hrp.trans h.remotePage
  have hrs' := hrs.trans h.rState
  have hbc' := hbc.trans h.blockCount
  simp only [unwindFetchBlock, ← hu', hpu]
  cases firstTouch with
  | false =>
      exact ⟨funext hnone, hmask, hrp', hrs', hbc', hbal, hrss, fun i => ⟨hwn i, hreq i⟩, hst,
        hkept⟩
  | true =>
      refine ⟨funext hnone, fun i f => ?_, hrp', hrs', ?_, hbal, hrss,
        fun i => ⟨hwn i, hreq i⟩, hst, hkept⟩
      · show Function.update u.flags 0 (Function.update (u.flags 0) .touched false) i f = _
        have htf : s.flags 0 .touched = false := by simpa using hft
        have hmi := hmask i f
        simp only [markTouched, if_true, setFlag] at hmi
        by_cases hi0 : i = 0
        · subst hi0
          rw [Function.update_self]
          by_cases hf : f = .touched
          · subst hf
            rw [Function.update_self, htf, Bool.and_false]
          · rw [Function.update_of_ne hf, hmi, Function.update_self, Function.update_of_ne hf]
        · rw [Function.update_of_ne hi0, hmi, Function.update_of_ne hi0]
      · show u.blockCount - 1 = _
        rw [hbc']
        show s.blockCount + 1 - 1 = s.blockCount
        omega

theorem fetchBlock_fails (noFetch isStale : Bool) {e : FetchError} (hs : Idle s)
    (hd : demand < p.numSubblock) (he : (s.fetchBlock p l demand noFetch isStale).2 = .error e) :
    Failed s (s.fetchBlock p l demand noFetch isStale).1
      (populated p l (noFetch || !s.flags 0 .touched) demand) := by
  rcases allocBlock_spec (l := l) hs.ledger with
    ⟨e', taken, pushed, halloc, hled, hno⟩ | ⟨pages, taken, halloc, hled, hlen, hall⟩
  · have hnil : populated p l (noFetch || !s.flags 0 .touched) demand = [] := if_neg hno
    obtain ⟨hbal, hrss⟩ := hled.balanced hs.localPage
    rw [hnil]
    simp only [fetchBlock, halloc]
    refine ⟨hs.localPage, fun i f => by simp, rfl, rfl, rfl, hbal, rfl, fun i => ?_, ?_,
      fun i => ?_⟩
    · show s.reads.w i = none ∧ s.reads.wr.frees i = if i ∈ s.posted then 1 else 0
      rw [hs.reads, hs.posted]
      exact ⟨rfl, rfl⟩
    · show s.reads.wr.stale = false
      rw [hs.reads]
      rfl
    · show s.reads.gaveUp i = 0
      rw [hs.reads]
      rfl
  · have hyes : populated p l (noFetch || !s.flags 0 .touched) demand =
        (fetchOrder p.numSubblock demand).takeWhile fun i =>
          !fails l (noFetch || !s.flags 0 .touched) i := if_pos hall
    have hzip : ((fetchOrder p.numSubblock demand).zip pages).map Prod.fst =
        fetchOrder p.numSubblock demand :=
      List.map_fst_zip (by rw [length_fetchOrder hd, hlen])
    have hsnd : ((fetchOrder p.numSubblock demand).zip pages).map Prod.snd = pages :=
      List.map_snd_zip (by rw [length_fetchOrder hd, hlen])
    have hpop := populated_markTouched hs hled (!s.flags 0 .touched)
    rw [← hsnd] at hpop
    simp only [fetchBlock, halloc] at he ⊢
    cases hr : fetchSubblocks p l (noFetch || !s.flags 0 .touched)
        (markTouched { s with taken := taken } (!s.flags 0 .touched))
        ((fetchOrder p.numSubblock demand).zip pages) with
    | mk t r =>
        obtain ⟨held, err⟩ := r
        simp only [hr] at he ⊢
        cases err with
        | none => cases he
        | some e' =>
            have hloop := populated_fetchSubblocks (l := l) (e := e')
              (noFetch || !s.flags 0 .touched) hpop
              (fun i hi => lt_of_mem_fetchOrder hd (hzip ▸ hi))
              (by rw [hzip]; exact FetchRun.nodup_fetchOrder p.numSubblock demand) (by rw [hr])
            rw [hr, hzip, List.nil_append] at hloop
            rw [hyes]
            exact failed_unwindFetchBlock rfl
              (fun i hi => lt_of_mem_fetchOrder hd (List.takeWhile_subset _ hi)) hloop

/-- A fault that fails has failed in `fetch_block`. -/
theorem handleRemoteFault_fails {e : FetchError} (hs : Idle s) (hd : demand < p.numSubblock)
    (he : (s.handleRemoteFault p l demand).2 = .error e) :
    Failed (s.setFlag 0 .staleBlock false) (s.handleRemoteFault p l demand).1
      (populated p l s.noFetch demand) := by
  have hs' : Idle (s.setFlag 0 .staleBlock false) :=
    ⟨hs.reads, hs.posted, hs.localPage, hs.rState, hs.pages⟩
  have htouched : (s.setFlag 0 .staleBlock false).flags 0 .touched = s.flags 0 .touched := by
    simp [setFlag]
  have hnf : (s.flags 0 .staleBlock || !(s.setFlag 0 .staleBlock false).flags 0 .touched) =
      s.noFetch := by
    rw [htouched]
    rfl
  cases hr : (s.setFlag 0 .staleBlock false).fetchBlock p l demand (s.flags 0 .staleBlock)
      (s.flags 0 .staleBlock) with
  | mk t r =>
      cases r with
      | ok b =>
          simp only [handleRemoteFault, hr] at he
          cases b <;> cases he
      | error e' =>
          have hf := fetchBlock_fails (p := p) (l := l) (e := e') (s.flags 0 .staleBlock)
            (s.flags 0 .staleBlock) hs' hd (by rw [hr])
          rw [hr, hnf] at hf
          simp only [handleRemoteFault, hr]
          exact hf

/-- A block of two subblocks on a block device; all have the flags `flags`. -/
def twoSubblocks (flags : GpaFlag → Bool) : RemoteBlock :=
  ⟨.unread, [], fun _ => none, fun i => .page 0 i, fun _ => false, fun _ => flags, .init,
    fun _ => 0, fun _ => 0, 0, 0⟩

theorem idle_twoSubblocks (flags : GpaFlag → Bool) : Idle (twoSubblocks flags) :=
  ⟨rfl, rfl, rfl, rfl, rfl, rfl⟩

def twoOnDisk : FaultPlace := ⟨2, 1, ⟨fun _ => .nvme, fun _ => false, fun _ => 0⟩, false, false⟩

/-- The donor goes away after the first post. -/
def goneAfterFirst : FetchLuck :=
  ⟨false, fun i => some i, fun _ => true, fun i => if i = 0 then none else some .enxio,
    fun _ => true, fun _ => 0⟩

/-- The record of the second local page cannot be allocated. -/
def noSecondRecord : FetchLuck :=
  ⟨false, fun i => some i, fun i => i == 0, fun _ => none, fun _ => true, fun _ => 0⟩

end RemoteBlock

end Emp
