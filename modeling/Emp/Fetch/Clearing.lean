import Emp.Fetch.Requests
import Emp.Lib.Transition
import Mathlib.Data.List.Induction
import Mathlib.Data.List.Nodup

/-!
# Clearing a block that was fetched

The subblocks of a fetched block are cleared in any order, each by a wait, a poll, the wait for a
demand page or a cancel, while the devices report their reads.  Each request should be freed once
and the head last, and the remote page of a subblock be given up if and only if it was consumed.

A poll of a block device answers `-1` for a read in flight, which counts as a read that is over: the
request is freed, and the device still reports it.  And the head's remote page goes with the last
subblock that is cleared, so a head that was consumed keeps its page if the last one is cancelled,
and the other way round.

## Main definitions

* `FetchEvent`, `FetchRun.step` — the steps.
* `FetchRun.FetchOk` — what should hold.
* `FetchRun.Sound` — the steps that keep it.
-/

namespace Emp

/-- A fetched block; `posted` are the subblocks in the order of their posts. -/
structure FetchRun where
  place : ReadPlace
  posted : List ℕ
  block : FetchedBlock

/-- The reports of the devices, and the four ways to clear a subblock. -/
inductive FetchEvent
  | complete (w : ℕ) (ok : Bool)
  | arrive (i : ℕ) (differs : Bool)
  | endIo (w errno : ℕ)
  | wait (i : ℕ)
  | poll (i : ℕ)
  | demand (i : ℕ) (overwritten : Bool)
  | cancel (i : ℕ)
  deriving DecidableEq, Repr

namespace FetchRun

variable (s : FetchRun)

/-- The device has been given the read of subblock `i` and has not reported it. -/
def InFlight (ops : DmaOps) (i : ℕ) : Prop :=
  i ∈ s.posted ∧ s.place.dmaOps i = ops ∧ s.block.done i = false

instance (ops : DmaOps) (i : ℕ) : Decidable (s.InFlight ops i) :=
  inferInstanceAs (Decidable (_ ∧ _ ∧ _))

/-- One step; `none` if it is not possible. -/
def step : FetchRun → FetchEvent → Option FetchRun
  | s, .complete w ok =>
      if s.InFlight .rdma w ∧ s.place.mempoll w = false then
        some { s with block := s.block.handleRdmaRead w ok }
      else none
  | s, .arrive i differs =>
      if s.InFlight .rdma i ∧ s.place.mempoll i = true then
        some { s with block := s.block.arrive i differs }
      else none
  | s, .endIo w errno =>
      if s.InFlight .nvme w then some { s with block := s.block.bdevEndIo w errno } else none
  | s, .wait i => (s.block.waitReadAsync s.place i).map fun b => { s with block := b }
  | s, .poll i => some { s with block := s.block.tryWaitReadAsync s.place i }
  | s, .demand i overwritten =>
      some { s with block := s.block.waitReadAsyncDemandPage s.place i overwritten }
  | s, .cancel i => (s.block.cancelReadAsync s.place i).map fun b => { s with block := b }

/-- A block of `n` subblocks is fetched, or its fetch has failed after some posts. -/
structure Start (s : FetchRun) : Prop where
  posted : ∃ n demand k, demand < n ∧ s.posted = (fetchOrder n demand).take (k + 1)
  block : s.block = FetchedBlock.postReads s.place .unread s.posted

/-- The posted subblocks that have not been cleared. -/
def left : List ℕ := s.posted.filter fun i => s.block.cleared i = none

/-- The request that was posted first. -/
def IsHead (h : ℕ) : Prop := s.posted.head? = some h

/-- What should hold of a fetched block. -/
structure FetchOk (s : FetchRun) : Prop where
  frees : ∀ w, s.block.wr.frees w ≤ 1
  stale : s.block.wr.stale = false
  head : ∀ h, s.IsHead h → s.block.wr.frees h ≠ 0 → s.left = []
  siblings : ∀ h, s.IsHead h → ∀ i ∈ s.posted, i ≠ h →
    (s.block.wr.frees i = 1 ↔ s.block.cleared i ≠ none)
  all : s.left = [] → ∀ i ∈ s.posted, s.block.wr.frees i = 1
  pointers : ∀ i w, s.block.w i = some w → s.block.wr.frees w = 0
  pages : ∀ i, s.block.gaveUp i ≤ 1 ∧ (s.block.cleared i ≠ some true → s.block.gaveUp i = 0)
  consumed : ∀ i ∈ s.posted, s.block.cleared i = some true → s.IsHead i ∨ s.block.gaveUp i = 1
  consumedAll : s.left = [] → ∀ i ∈ s.posted, s.block.cleared i = some true →
    s.block.gaveUp i = 1
  puts : ∀ i, s.block.puts i = if s.block.cleared i = none then 0 else 1

/-- How a step clears a subblock, if it does: which one, and whether it is consumed. -/
def clears : FetchEvent → Option (ℕ × Bool)
  | .wait i => some (i, true)
  | .poll i => if s.block.tryWaitRead s.place i ≠ 0 then some (i, true) else none
  | .demand i false => if s.block.tryWaitRead s.place i ≠ 0 then some (i, true) else none
  | .cancel i => some (i, false)
  | _ => none

/-- Nothing polls a read of a block device that is in flight, and the last subblock is cleared in
the way that the head was. -/
structure Sound (s : FetchRun) (e : FetchEvent) : Prop where
  polls : ∀ i, (e = .poll i ∨ e = .demand i false) → s.block.w i ≠ none → ¬ s.InFlight .nvme i
  last : ∀ i consume h c, s.clears e = some (i, consume) → s.left = [i] → s.IsHead h →
    s.block.cleared h = some c → c = consume

variable {s s' : FetchRun} {h : ℕ}

/-! ## Clearing one request -/

section Request

variable {b : FetchedBlock} {i v : ℕ} (consume : Bool)

/-- The requests of a block hang together: `h` is the head of `i`, and nothing is chained. -/
structure Hangs (b : FetchedBlock) (h i : ℕ) : Prop where
  headWr : (b.wr.cell i).headWr = h
  chained : (b.wr.cell i).chainedOps = false
  gpa : (b.wr.cell i).gpa = i
  gpaHead : (b.wr.cell h).gpa = h
  ehWr : (b.wr.cell h).ehWr = none

/-- The block after a request has been released or, if it is the head's, kept. -/
def putAlone (b : FetchedBlock) (consume : Bool) (h i : ℕ) : FetchedBlock :=
  if i = h then { b with wr := b.wr.touch i }
  else { b with wr := b.wr.touch i }.releaseRequest consume i

theorem cell_putAlone : (putAlone b consume h i).wr.cell = b.wr.cell := by
  unfold putAlone
  split_ifs <;> rfl

/-- The clear of a request whose block is not chained. -/
theorem clearFetchingWorkRequest_eq (hb : Hangs b h i) :
    b.clearFetchingWorkRequest consume i =
      if (b.wr.cell h).wrRefc = 1 then
        ((putAlone b consume h i).decRefc h).releaseRequest consume h
      else (putAlone b consume h i).decRefc h := by
  have hrel : FetchedBlock.releasedAlone { b with wr := b.wr.touch i } i = decide (i ≠ h) := by
    simp [FetchedBlock.releasedAlone, hb.headWr, hb.chained]
  have hput : (if FetchedBlock.releasedAlone { b with wr := b.wr.touch i } i = true then
      FetchedBlock.releaseRequest { b with wr := b.wr.touch i } consume i
      else { b with wr := b.wr.touch i }) = putAlone b consume h i := by
    rw [hrel]
    by_cases hi : i = h
    · simp [putAlone, hi]
    · simp [putAlone, hi]
  have hrefc : (((putAlone b consume h i).decRefc h).wr.cell h).wrRefc = 0 ↔
      (b.wr.cell h).wrRefc = 1 := by
    simp only [FetchedBlock.decRefc, Heap.cell_modify_self, cell_putAlone]
    omega
  have heh : (((putAlone b consume h i).decRefc h).wr.cell h).ehWr = none := by
    simp only [FetchedBlock.decRefc, Heap.cell_modify_self, cell_putAlone]
    exact hb.ehWr
  simp only [FetchedBlock.clearFetchingWorkRequest, hb.headWr, hput, hrefc, heh]

/-- What the clear of a request does to the head. -/
theorem cell_clearFetchingWorkRequest (hb : Hangs b h i) :
    (b.clearFetchingWorkRequest consume i).wr.cell =
      Function.update b.wr.cell h { b.wr.cell h with wrRefc := (b.wr.cell h).wrRefc - 1 } := by
  rw [clearFetchingWorkRequest_eq consume hb]
  split_ifs <;> simp [FetchedBlock.releaseRequest, FetchedBlock.decRefc, cell_putAlone]

/-- The requests that are freed with request `i`. -/
theorem frees_clearFetchingWorkRequest (hb : Hangs b h i) :
    (b.clearFetchingWorkRequest consume i).wr.frees v =
      b.wr.frees v + (if v = i ∧ i ≠ h then 1 else 0) +
        if v = h ∧ (b.wr.cell h).wrRefc = 1 then 1 else 0 := by
  have hput : (putAlone b consume h i).wr.frees v =
      b.wr.frees v + if v = i ∧ i ≠ h then 1 else 0 := by
    by_cases hi : i = h
    · simp [putAlone, hi]
    · by_cases hv : v = i <;> simp [putAlone, FetchedBlock.releaseRequest, hi, hv]
  rw [clearFetchingWorkRequest_eq consume hb, ← hput]
  by_cases hr : (b.wr.cell h).wrRefc = 1
  · by_cases hv : v = h <;> simp [FetchedBlock.releaseRequest, FetchedBlock.decRefc, hr, hv]
  · simp [FetchedBlock.decRefc, hr]

/-- The remote pages that are given up with them. -/
theorem gaveUp_clearFetchingWorkRequest (hb : Hangs b h i) :
    (b.clearFetchingWorkRequest consume i).gaveUp v =
      b.gaveUp v + (if v = i ∧ i ≠ h ∧ consume = true then 1 else 0) +
        if v = h ∧ (b.wr.cell h).wrRefc = 1 ∧ consume = true then 1 else 0 := by
  have hput : (putAlone b consume h i).gaveUp v =
      b.gaveUp v + if v = i ∧ i ≠ h ∧ consume = true then 1 else 0 := by
    by_cases hi : i = h
    · simp [putAlone, hi]
    · by_cases hv : v = i <;> cases consume <;>
        simp [putAlone, FetchedBlock.releaseRequest, hi, hv, hb.gpa]
  rw [clearFetchingWorkRequest_eq consume hb, ← hput]
  by_cases hr : (b.wr.cell h).wrRefc = 1
  · by_cases hv : v = h <;> cases consume <;>
      simp [FetchedBlock.releaseRequest, FetchedBlock.decRefc, cell_putAlone, hr, hv, hb.gpaHead]
  · simp [FetchedBlock.decRefc, hr]

/-- Nothing is used after it was freed. -/
theorem stale_clearFetchingWorkRequest (hb : Hangs b h i) (hi : b.wr.frees i = 0)
    (hh : b.wr.frees h = 0) :
    (b.clearFetchingWorkRequest consume i).wr.stale = b.wr.stale := by
  have hput : (putAlone b consume h i).wr.stale = b.wr.stale ∧
      (putAlone b consume h i).wr.frees h = 0 := by
    by_cases hih : i = h
    · simp [putAlone, hih, hh, Heap.touch]
    · have hne : h ≠ i := fun e => hih e.symm
      simp [putAlone, FetchedBlock.releaseRequest, hih, hi, hh, hne, Heap.free, Heap.touch]
  have hdec : ((putAlone b consume h i).decRefc h).wr.stale = b.wr.stale := by
    rw [← hput.1]
    exact Heap.stale_modify hput.2
  rw [clearFetchingWorkRequest_eq consume hb]
  split_ifs
  · rw [← hdec]
    exact Heap.stale_free hput.2
  · exact hdec

theorem clearFetchingWorkRequest_same (hb : Hangs b h i) :
    (b.clearFetchingWorkRequest consume i).w = b.w ∧
      (b.clearFetchingWorkRequest consume i).puts = b.puts ∧
      (b.clearFetchingWorkRequest consume i).cleared = b.cleared ∧
      (b.clearFetchingWorkRequest consume i).done = b.done ∧
      (b.clearFetchingWorkRequest consume i).arrived = b.arrived := by
  rw [clearFetchingWorkRequest_eq consume hb]
  by_cases hi : i = h <;> by_cases hr : (b.wr.cell h).wrRefc = 1 <;>
    simp [putAlone, FetchedBlock.releaseRequest, FetchedBlock.decRefc, hi, hr]

end Request

/-! ## The invariant -/

/-- Subblock `i` is in the fetch, and its request can be freed: the head's with the last one. -/
def Released (s : FetchRun) (h i : ℕ) : Prop :=
  i ∈ s.posted ∧ s.block.cleared i ≠ none ∧ (i = h → s.left = [])

instance (i : ℕ) : Decidable (s.Released h i) := inferInstanceAs (Decidable (_ ∧ _ ∧ _))

/-- The invariant of a fetch whose head is `h`. -/
structure Inv (s : FetchRun) (h : ℕ) : Prop where
  head : s.IsHead h
  nodup : s.posted.Nodup
  cells : ∀ i ∈ s.posted, (s.block.wr.cell i).headWr = h ∧
    (s.block.wr.cell i).chainedOps = false ∧ (s.block.wr.cell i).ehWr = none ∧
    (s.block.wr.cell i).gpa = i ∧ (s.block.wr.cell i).dmaOps = s.place.dmaOps i
  w : ∀ i, s.block.w i = if i ∈ s.posted ∧ s.block.cleared i = none then some i else none
  refc : (s.block.wr.cell h).wrRefc = s.left.length
  frees : ∀ i, s.block.wr.frees i = if s.Released h i then 1 else 0
  stale : s.block.wr.stale = false
  gaveUp : ∀ i, s.block.gaveUp i =
    if s.Released h i ∧ s.block.cleared i = some true then 1 else 0
  puts : ∀ i, s.block.puts i = if s.block.cleared i = none then 0 else 1
  outside : ∀ i, i ∉ s.posted → s.block.cleared i = none
  done : ∀ i, s.block.cleared i ≠ none → s.block.done i = true
  waits : ∀ i ∈ s.posted, s.block.done i = false → (s.block.wr.cell i).state = .postRead ∧
    (s.block.wr.cell i).waitDone = false ∧ s.block.arrived i = false ∧ s.place.dmaOps i ≠ .memdev

theorem Inv.mem_head (hi : Inv s h) : h ∈ s.posted := List.mem_of_head? hi.head

theorem Inv.hangs (hi : Inv s h) {i : ℕ} (hm : i ∈ s.posted) : Hangs s.block h i := by
  obtain ⟨hh, hc, -, hg, -⟩ := hi.cells i hm
  obtain ⟨-, -, he, hgh, -⟩ := hi.cells h hi.mem_head
  exact ⟨hh, hc, hg, hgh, he⟩

/-- A wait that ends is for a read that is over. -/
theorem Inv.done_of_waitEnds (hi : Inv s h) {i : ℕ} (hm : i ∈ s.posted)
    (hw : s.block.waitEnds s.place i = true) : s.block.done i = true := by
  by_contra hd
  have hd : s.block.done i = false := by simpa using hd
  obtain ⟨hst, hwd, harr, hmem⟩ := hi.waits i hm hd
  obtain ⟨-, hc, -, hg, hops⟩ := hi.cells i hm
  rw [FetchedBlock.waitEnds, hops] at hw
  cases ho : s.place.dmaOps i with
  | rdma => simp [ho, FetchedBlock.isWrReadReady, hst, hc, hg, harr] at hw
  | nvme => simp [ho, hwd] at hw
  | memdev => exact hmem ho

/-- A poll that does not answer zero is for a read that is over, but for a block device. -/
theorem Inv.done_of_tryWaitRead (hi : Inv s h) {i : ℕ} (hm : i ∈ s.posted)
    (hok : ¬ s.InFlight .nvme i) (hw : s.block.tryWaitRead s.place i ≠ 0) :
    s.block.done i = true := by
  by_contra hd
  have hd : s.block.done i = false := by simpa using hd
  obtain ⟨hst, hwd, harr, hmem⟩ := hi.waits i hm hd
  obtain ⟨-, hc, -, hg, hops⟩ := hi.cells i hm
  rw [FetchedBlock.tryWaitRead, hops] at hw
  cases ho : s.place.dmaOps i with
  | rdma => simp [ho, FetchedBlock.isWrReadReady, hst, hc, hg, harr] at hw
  | nvme => exact hok ⟨hm, ho, hd⟩
  | memdev => exact hmem ho

/-- A read that the device has not reported is alive. -/
theorem Inv.frees_of_not_done (hi : Inv s h) {i : ℕ} (hd : s.block.done i = false) :
    s.block.wr.frees i = 0 := by
  rw [hi.frees, if_neg]
  rintro ⟨-, hcl, -⟩
  rw [hi.done i hcl] at hd
  cases hd

/-! ## Clearing a subblock -/

/-- Subblock `i`, which points to its own request, is cleared. -/
def clearAt (s : FetchRun) (consume : Bool) (i : ℕ) : FetchRun :=
  { s with block := s.block.clearSubblock consume i i }

section ClearAt

variable {i v : ℕ} {consume : Bool}

@[simp] theorem posted_clearAt : (s.clearAt consume i).posted = s.posted := rfl

theorem mem_left : i ∈ s.left ↔ i ∈ s.posted ∧ s.block.cleared i = none := by
  simp [left]

theorem cleared_clearAt (consume : Bool) (hi : Inv s h) (hm : i ∈ s.posted) :
    (s.clearAt consume i).block.cleared = Function.update s.block.cleared i (some consume) := by
  show Function.update (s.block.clearFetchingWorkRequest consume i).cleared i _ = _
  rw [(clearFetchingWorkRequest_same consume (hi.hangs hm)).2.2.1]

theorem left_clearAt (hi : Inv s h) (hm : i ∈ s.posted) :
    (s.clearAt consume i).left = s.left.erase i := by
  have hn : s.left.Nodup := List.filter_sublist.nodup hi.nodup
  rw [hn.erase_eq_filter, left, left, cleared_clearAt consume hi hm, List.filter_filter]
  refine List.filter_congr fun j _ => ?_
  by_cases hj : j = i
  · subst hj
    simp
  · simp [hj]

/-- The last subblock is cleared. -/
theorem left_clearAt_eq_nil (hi : Inv s h) (hl : i ∈ s.left) :
    (s.clearAt consume i).left = [] ↔ s.left = [i] := by
  rw [left_clearAt hi (mem_left.mp hl).1]
  constructor
  · intro h1
    have hlen := List.length_erase_of_mem hl
    have hpos := List.length_pos_of_mem hl
    rw [h1, List.length_nil] at hlen
    obtain ⟨j, hj⟩ := List.length_eq_one_iff.mp (by omega : s.left.length = 1)
    rw [hj] at hl ⊢
    rw [List.mem_singleton.mp hl]
  · intro h1
    simp [h1]

theorem refc_eq_one_iff (hi : Inv s h) (hl : i ∈ s.left) :
    (s.block.wr.cell h).wrRefc = 1 ↔ s.left = [i] := by
  rw [hi.refc]
  constructor
  · intro h1
    obtain ⟨j, hj⟩ := List.length_eq_one_iff.mp (by omega : s.left.length = 1)
    rw [hj] at hl ⊢
    rw [List.mem_singleton.mp hl]
  · intro h1
    rw [h1]
    rfl

/-- The head was cleared before, if another subblock is the last. -/
theorem cleared_head (hi : Inv s h) (h1 : s.left = [i]) (hne : h ≠ i) :
    s.block.cleared h ≠ none := by
  intro hcn
  have hmem : h ∈ s.left := mem_left.mpr ⟨hi.mem_head, hcn⟩
  rw [h1] at hmem
  exact hne (List.mem_singleton.mp hmem)

/-- What is released before a subblock is cleared is neither that one nor the head. -/
theorem Released.ne (hr : s.Released h v) (hl : i ∈ s.left) : v ≠ i ∧ v ≠ h := by
  obtain ⟨-, hcn, hnil⟩ := hr
  exact ⟨fun e => hcn (e ▸ (mem_left.mp hl).2), fun e => List.ne_nil_of_mem hl (hnil e)⟩

theorem released_clearAt (hi : Inv s h) (hl : i ∈ s.left) :
    (s.clearAt consume i).Released h v ↔
      s.Released h v ∨ (v = i ∧ i ≠ h) ∨ (v = h ∧ s.left = [i]) := by
  obtain ⟨hm, hc⟩ := mem_left.mp hl
  have hold : s.left ≠ [] := List.ne_nil_of_mem hl
  unfold Released
  rw [left_clearAt_eq_nil hi hl, cleared_clearAt consume hi hm, posted_clearAt]
  by_cases hv : v = i
  · subst hv
    by_cases hvh : v = h
    · subst hvh
      simp [hm, hc]
    · simp [hvh, hm]
  · by_cases hvh : v = h
    · subst hvh
      have hcl := fun h1 => cleared_head hi (i := i) h1 hv
      simp only [Function.update_of_ne hv, hi.mem_head, hold, true_and, forall_const, hv,
        false_and, false_or, and_false]
      exact ⟨fun h1 => h1.2, fun h1 => ⟨hcl h1, h1⟩⟩
    · simp [hv, hvh]

theorem inv_clearAt (hi : Inv s h) (hl : i ∈ s.left) (hd : s.block.done i = true)
    (hlast : ∀ c, s.left = [i] → s.block.cleared h = some c → c = consume) :
    Inv (s.clearAt consume i) h := by
  obtain ⟨hm, hc⟩ := mem_left.mp hl
  have hb := hi.hangs hm
  have hone := refc_eq_one_iff hi hl
  have hcell : (s.clearAt consume i).block.wr.cell = Function.update s.block.wr.cell h
      { s.block.wr.cell h with wrRefc := (s.block.wr.cell h).wrRefc - 1 } :=
    cell_clearFetchingWorkRequest consume hb
  have hfields : ∀ v, ∃ n, (s.clearAt consume i).block.wr.cell v =
      { s.block.wr.cell v with wrRefc := n } := by
    intro v
    rw [hcell]
    by_cases hv : v = h
    · subst hv
      exact ⟨_, Function.update_self ..⟩
    · exact ⟨_, Function.update_of_ne hv ..⟩
  obtain ⟨hw, hputs, -, hdone, harr⟩ := clearFetchingWorkRequest_same consume hb
  have hcl := cleared_clearAt consume hi hm
  refine ⟨hi.head, hi.nodup, fun v hv => ?_, fun v => ?_, ?_, fun v => ?_, ?_, fun v => ?_,
    fun v => ?_, fun v hv => ?_, fun v hv => ?_, fun v hv hdv => ?_⟩
  · obtain ⟨n, hn⟩ := hfields v
    rw [hn]
    exact hi.cells v hv
  · show Function.update (s.block.clearFetchingWorkRequest consume i).w i none v = _
    rw [hw, hcl]
    by_cases hv : v = i
    · subst hv
      simp
    · simpa [hv] using hi.w v
  · rw [hcell, Function.update_self, left_clearAt hi hm, List.length_erase_of_mem hl, hi.refc]
    have hpos := List.length_pos_of_mem hl
    show (s.left.length : ℤ) - 1 = ((s.left.length - 1 : ℕ) : ℤ)
    omega
  · show (s.block.clearFetchingWorkRequest consume i).wr.frees v = _
    rw [frees_clearFetchingWorkRequest consume hb, hi.frees]
    simp only [released_clearAt hi hl, hone]
    by_cases h1 : s.Released h v
    · obtain ⟨hvi, hvh⟩ := h1.ne hl
      simp [h1, hvi, hvh]
    · by_cases hvi : v = i
      · subst hvi
        by_cases hvh : v = h
        · subst hvh
          simp [h1]
        · simp [h1, hvh]
      · simp [h1, hvi]
  · show (s.block.clearFetchingWorkRequest consume i).wr.stale = _
    rw [stale_clearFetchingWorkRequest consume hb, hi.stale]
    · rw [hi.frees, if_neg fun h1 => (h1.ne hl).1 rfl]
    · rw [hi.frees, if_neg fun h1 => (h1.ne hl).2 rfl]
  · show (s.block.clearFetchingWorkRequest consume i).gaveUp v = _
    rw [gaveUp_clearFetchingWorkRequest consume hb, hi.gaveUp, hcl]
    simp only [released_clearAt hi hl, hone]
    by_cases h1 : s.Released h v
    · obtain ⟨hvi, hvh⟩ := h1.ne hl
      simp [h1, hvi, hvh]
    · by_cases hvi : v = i
      · subst hvi
        by_cases hvh : v = h
        · subst hvh
          simp [h1]
        · simp [h1, hvh]
      · by_cases hvh : v = h
        · subst hvh
          by_cases h2 : s.left = [i]
          · obtain ⟨c, hcv⟩ := Option.ne_none_iff_exists'.mp (cleared_head hi h2 hvi)
            simp [h1, hvi, h2, hcv, hlast c h2 hcv]
          · simp [h1, hvi, h2]
        · simp [h1, hvi, hvh]
  · show Function.update (s.block.clearFetchingWorkRequest consume i).puts i _ v = _
    rw [hputs, hcl]
    by_cases hv : v = i
    · subst hv
      simp [hi.puts, hc]
    · simpa [hv] using hi.puts v
  · have hvi : v ≠ i := fun e => hv (e ▸ hm)
    rw [hcl, Function.update_of_ne hvi]
    exact hi.outside v hv
  · show (s.block.clearFetchingWorkRequest consume i).done v = true
    rw [hdone]
    by_cases hvi : v = i
    · rw [hvi]
      exact hd
    · rw [hcl, Function.update_of_ne hvi] at hv
      exact hi.done v hv
  · obtain ⟨n, hn⟩ := hfields v
    have hdv : (s.block.clearFetchingWorkRequest consume i).done v = false := hdv
    rw [hdone] at hdv
    rw [hn]
    show _ ∧ _ ∧ (s.block.clearFetchingWorkRequest consume i).arrived v = false ∧ _
    rw [harr]
    exact hi.waits v hv hdv

end ClearAt

/-! ## Steps -/

/-- What a device reports is not among what the requests are counted by. -/
theorem inv_report (hi : Inv s h) {b : FetchedBlock}
    (hcell : ∀ v, ∃ st e d, b.wr.cell v =
      { s.block.wr.cell v with state := st, errno := e, waitDone := d })
    (hfrees : b.wr.frees = s.block.wr.frees) (hstale : b.wr.stale = s.block.wr.stale)
    (hw : b.w = s.block.w) (hputs : b.puts = s.block.puts) (hg : b.gaveUp = s.block.gaveUp)
    (hcl : b.cleared = s.block.cleared) (hd : ∀ v, s.block.done v = true → b.done v = true)
    (hwaits : ∀ v, b.done v = false → (b.wr.cell v).state = (s.block.wr.cell v).state ∧
      (b.wr.cell v).waitDone = (s.block.wr.cell v).waitDone ∧
      b.arrived v = s.block.arrived v) :
    Inv { s with block := b } h := by
  have hleft : left { s with block := b } = s.left := by simp only [left, hcl]
  have hrel : ∀ v, Released { s with block := b } h v ↔ s.Released h v := fun v => by
    simp only [Released, hleft, hcl]
  refine ⟨hi.head, hi.nodup, fun v hv => ?_, fun v => ?_, ?_, fun v => ?_, hstale.trans hi.stale,
    fun v => ?_, fun v => ?_, fun v hv => ?_, fun v hv => ?_, fun v hv hdv => ?_⟩
  · obtain ⟨st, e, d, hc⟩ := hcell v
    rw [hc]
    exact hi.cells v hv
  · rw [hw, hcl]
    exact hi.w v
  · obtain ⟨st, e, d, hc⟩ := hcell h
    rw [hc, hleft]
    exact hi.refc
  · simp only [hfrees, hrel]
    exact hi.frees v
  · simp only [hg, hcl, hrel]
    exact hi.gaveUp v
  · rw [hputs, hcl]
    exact hi.puts v
  · rw [hcl]
    exact hi.outside v hv
  · rw [hcl] at hv
    exact hd v (hi.done v hv)
  · obtain ⟨h1, h2, h3⟩ := hwaits v hdv
    rw [h1, h2, h3]
    refine hi.waits v hv ?_
    cases hdv' : s.block.done v with
    | true => rw [hd v hdv'] at hdv; cases hdv
    | false => rfl

theorem inv_complete (hi : Inv s h) {w : ℕ} {ok : Bool} (hf : s.InFlight .rdma w) :
    Inv { s with block := s.block.handleRdmaRead w ok } h := by
  obtain ⟨hm, -, hd⟩ := hf
  have hfr := hi.frees_of_not_done hd
  have hwr : (s.block.handleRdmaRead w ok).wr = (s.block.wr.touch w).modify w fun r =>
      { r with state := if ok then .ready else .prFailed } := by
    simp [FetchedBlock.handleRdmaRead, (hi.cells w hm).2.1]
  have hcell : ∀ v, (s.block.handleRdmaRead w ok).wr.cell v =
      if v = w then { s.block.wr.cell w with state := if ok then .ready else .prFailed }
      else s.block.wr.cell v := by
    intro v
    rw [hwr]
    by_cases hv : v = w
    · subst hv
      simp
    · simp [hv]
  refine inv_report hi (fun v => ?_) ?_ ?_ rfl rfl rfl rfl (fun v hv => ?_) fun v hv => ?_
  · rw [hcell]
    by_cases hvw : v = w
    · subst hvw
      exact ⟨_, _, _, if_pos rfl⟩
    · exact ⟨_, _, _, if_neg hvw⟩
  · rw [hwr]
    rfl
  · rw [hwr, Heap.stale_modify (by simpa using hfr), Heap.stale_touch hfr]
  · show Function.update s.block.done w true v = true
    by_cases hvw : v = w <;> simp [hvw, hv]
  · have hv : Function.update s.block.done w true v = false := hv
    have hvw : v ≠ w := by
      rintro rfl
      simp at hv
    rw [hcell, if_neg hvw]
    exact ⟨rfl, rfl, rfl⟩

theorem inv_arrive (hi : Inv s h) (i : ℕ) (differs : Bool) :
    Inv { s with block := s.block.arrive i differs } h := by
  refine inv_report hi (fun v => ⟨_, _, _, rfl⟩) rfl rfl rfl rfl rfl rfl (fun v hv => ?_)
    fun v hv => ?_
  · show Function.update s.block.done i true v = true
    by_cases hvi : v = i <;> simp [hvi, hv]
  · have hv : Function.update s.block.done i true v = false := hv
    have hvi : v ≠ i := by
      rintro rfl
      simp at hv
    exact ⟨rfl, rfl, Function.update_of_ne hvi ..⟩

theorem inv_endIo (hi : Inv s h) {w errno : ℕ} (hf : s.InFlight .nvme w) :
    Inv { s with block := s.block.bdevEndIo w errno } h := by
  have hfr := hi.frees_of_not_done hf.2.2
  have hcell : ∀ v, (s.block.bdevEndIo w errno).wr.cell v =
      if v = w then { s.block.wr.cell w with errno := errno, waitDone := true }
      else s.block.wr.cell v := by
    intro v
    by_cases hv : v = w
    · subst hv
      simp [FetchedBlock.bdevEndIo]
    · simp [FetchedBlock.bdevEndIo, hv]
  refine inv_report hi (fun v => ?_) rfl (Heap.stale_modify hfr) rfl rfl rfl rfl (fun v hv => ?_)
    fun v hv => ?_
  · rw [hcell]
    by_cases hvw : v = w
    · subst hvw
      exact ⟨_, _, _, if_pos rfl⟩
    · exact ⟨_, _, _, if_neg hvw⟩
  · show Function.update s.block.done w true v = true
    by_cases hvw : v = w <;> simp [hvw, hv]
  · have hv : Function.update s.block.done w true v = false := hv
    have hvw : v ≠ w := by
      rintro rfl
      simp at hv
    simp [FetchedBlock.bdevEndIo, hvw]

/-- A field that points to a request points to the subblock's own. -/
theorem Inv.w_eq (hi : Inv s h) {i w : ℕ} (hw : s.block.w i = some w) : w = i ∧ i ∈ s.left := by
  rw [hi.w, Option.ite_none_right_eq_some] at hw
  exact ⟨(Option.some.inj hw.2).symm, mem_left.mpr hw.1⟩

/-- A poll, whoever asks. -/
theorem inv_poll (hi : Inv s h) {i : ℕ} (hpoll : s.block.w i ≠ none → ¬ s.InFlight .nvme i)
    (hlast : s.block.tryWaitRead s.place i ≠ 0 → ∀ c, s.left = [i] →
      s.block.cleared h = some c → c = true) :
    Inv { s with block := s.block.tryWaitReadAsync s.place i } h := by
  unfold FetchedBlock.tryWaitReadAsync
  cases hw : s.block.w i with
  | none => exact hi
  | some w =>
      obtain ⟨rfl, hl⟩ := hi.w_eq hw
      have hm := (mem_left.mp hl).1
      by_cases hz : s.block.tryWaitRead s.place w = 0
      · simp only [if_pos hz]
        refine inv_report hi (fun v => ⟨_, _, _, rfl⟩) rfl (Heap.stale_touch ?_) rfl rfl rfl rfl
          (fun _ hv => hv) fun _ _ => ⟨rfl, rfl, rfl⟩
        rw [hi.frees, if_neg fun h1 => (h1.ne hl).1 rfl]
      · simp only [if_neg hz]
        exact inv_clearAt hi hl
          (hi.done_of_tryWaitRead hm (hpoll (by rw [hw]; exact Option.some_ne_none w)) hz)
          (hlast hz)

theorem inv_wait (hi : Inv s h) {i : ℕ} {b : FetchedBlock} {consume : Bool}
    (hlast : ∀ c, s.left = [i] → s.block.cleared h = some c → c = consume)
    (hs : (match s.block.w i with
      | some w =>
          if s.block.waitEnds s.place w then some (s.block.clearSubblock consume i w) else none
      | none => some s.block) = some b) : Inv { s with block := b } h := by
  cases hw : s.block.w i with
  | none =>
      rw [hw] at hs
      obtain rfl := Option.some.inj hs
      exact hi
  | some w =>
      obtain ⟨rfl, hl⟩ := hi.w_eq hw
      simp only [hw] at hs
      obtain ⟨hends, rfl⟩ := Transition.of_guard hs
      exact inv_clearAt hi hl (hi.done_of_waitEnds (mem_left.mp hl).1 hends) hlast

theorem inv_of_step (hi : Inv s h) {e : FetchEvent} (hok : s.Sound e) (hs : step s e = some s') :
    Inv s' h := by
  unfold step at hs
  cases e with
  | complete w ok =>
      obtain ⟨⟨hf, -⟩, rfl⟩ := Transition.of_guard hs
      exact inv_complete hi hf
  | arrive i differs =>
      obtain ⟨-, rfl⟩ := Transition.of_guard hs
      exact inv_arrive hi i differs
  | endIo w errno =>
      obtain ⟨hf, rfl⟩ := Transition.of_guard hs
      exact inv_endIo hi hf
  | wait i =>
      obtain ⟨b, hb, rfl⟩ := Option.map_eq_some_iff.mp hs
      exact inv_wait hi (fun c hl hc => hok.last i true h c rfl hl hi.head hc) hb
  | poll i =>
      obtain rfl := Option.some.inj hs
      exact inv_poll hi (hok.polls i (.inl rfl))
        fun hz c hl hc => hok.last i true h c (if_pos hz) hl hi.head hc
  | demand i overwritten =>
      obtain rfl := Option.some.inj hs
      cases overwritten with
      | true => exact hi
      | false =>
          exact inv_poll hi (hok.polls i (.inr rfl))
            fun hz c hl hc => hok.last i true h c (if_pos hz) hl hi.head hc
  | cancel i =>
      obtain ⟨b, hb, rfl⟩ := Option.map_eq_some_iff.mp hs
      exact inv_wait hi (fun c hl hc => hok.last i false h c rfl hl hi.head hc) hb

/-! ## Posting -/

/-- Nothing has been reported or cleared. -/
structure Posting (s : FetchRun) : Prop where
  cleared : s.block.cleared = fun _ => none
  arrived : s.block.arrived = fun _ => false

theorem Posting.left (hp : Posting s) : s.left = s.posted := by
  simp [FetchRun.left, hp.cleared]

theorem Posting.frees (hi : Inv s h) (hp : Posting s) (v : ℕ) : s.block.wr.frees v = 0 := by
  rw [hi.frees, if_neg]
  rintro ⟨-, hcn, -⟩
  exact hcn (by rw [hp.cleared])

/-- The head is posted. -/
theorem inv_postHead (p : ReadPlace) (d : ℕ) :
    Inv ⟨p, [d], FetchedBlock.unread.postRead p none d⟩ d ∧
      Posting ⟨p, [d], FetchedBlock.unread.postRead p none d⟩ := by
  set s : FetchRun := ⟨p, [d], FetchedBlock.unread.postRead p none d⟩ with hs
  have hcell : s.block.wr.cell d = { FetchedBlock.postedRequest p none d with wrRefc := 1 } := by
    simp [hs, FetchedBlock.postRead, FetchedBlock.postedRequest]
  have hrel : ∀ v, ¬ s.Released d v := fun v hv => hv.2.1 rfl
  refine ⟨⟨rfl, List.nodup_singleton d, fun i hi => ?_, fun i => ?_, ?_, fun i => ?_, rfl,
    fun i => ?_, fun i => rfl, fun i _ => rfl, fun i hi => absurd rfl hi, fun i hi hd => ?_⟩,
    rfl, rfl⟩
  · obtain rfl := List.mem_singleton.mp hi
    rw [hcell]
    exact ⟨rfl, rfl, rfl, rfl, rfl⟩
  · show Function.update _ d _ i = _
    by_cases hid : i = d
    · subst hid
      simp [hs, FetchedBlock.postRead, FetchedBlock.unread]
    · simp [hs, hid, FetchedBlock.unread]
  · rw [hcell, Posting.left ⟨rfl, rfl⟩]
    rfl
  · rw [if_neg (hrel i)]
    rfl
  · rw [if_neg fun h1 => hrel i h1.1]
    rfl
  · obtain rfl := List.mem_singleton.mp hi
    have hd : (p.dmaOps i == .memdev) = false := by
      simpa [hs, FetchedBlock.postRead] using hd
    have hne : p.dmaOps i ≠ .memdev := by simpa using hd
    rw [hcell]
    exact ⟨if_neg hne, rfl, rfl, hne⟩

/-- Another subblock is posted. -/
theorem inv_postRead (hi : Inv s h) (hp : Posting s) {i : ℕ} (hnew : i ∉ s.posted) :
    Inv { s with
      posted := s.posted ++ [i]
      block := s.block.postRead s.place (some h) i } h ∧
      Posting { s with
        posted := s.posted ++ [i]
        block := s.block.postRead s.place (some h) i } := by
  set t : FetchRun := { s with
    posted := s.posted ++ [i]
    block := s.block.postRead s.place (some h) i } with ht
  have hih : i ≠ h := fun e => hnew (e ▸ hi.mem_head)
  have hpt : Posting t := ⟨hp.cleared, hp.arrived⟩
  have hcell : ∀ v, t.block.wr.cell v =
      if v = i then FetchedBlock.postedRequest s.place (some h) i
      else if v = h then { s.block.wr.cell h with wrRefc := (s.block.wr.cell h).wrRefc + 1 }
      else s.block.wr.cell v := by
    intro v
    by_cases hvi : v = i
    · subst hvi
      simp [ht, FetchedBlock.postRead, hih]
    · by_cases hvh : v = h
      · subst hvh
        simp [ht, FetchedBlock.postRead, hvi]
      · simp [ht, FetchedBlock.postRead, hvi, hvh]
  have hold : ∀ v ∈ s.posted, ∃ n, t.block.wr.cell v = { s.block.wr.cell v with wrRefc := n } := by
    intro v hv
    have hvi : v ≠ i := fun e => hnew (e ▸ hv)
    rw [hcell, if_neg hvi]
    by_cases hvh : v = h
    · subst hvh
      exact ⟨_, if_pos rfl⟩
    · exact ⟨_, if_neg hvh⟩
  have hfr : ∀ v, s.block.wr.frees v = 0 := fun v => hp.frees hi v
  have hrel : ∀ v, ¬ t.Released h v := fun v hv => hv.2.1 (by rw [hpt.cleared])
  refine ⟨⟨?_, ?_, fun v hv => ?_, fun v => ?_, ?_, fun v => ?_, ?_, fun v => ?_, hi.puts,
    fun v _ => by rw [hpt.cleared], fun v hv => absurd (by rw [hpt.cleared]) hv,
    fun v hv hd => ?_⟩, hpt⟩
  · show (s.posted ++ [i]).head? = some h
    rw [List.head?_append, show s.posted.head? = some h from hi.head]
    rfl
  · exact List.nodup_append.mpr ⟨hi.nodup, List.nodup_singleton i, fun a ha b hb e => by
      rw [List.mem_singleton.mp hb] at e
      exact hnew (e ▸ ha)⟩
  · rcases List.mem_append.mp hv with hv | hv
    · obtain ⟨n, hn⟩ := hold v hv
      rw [hn]
      exact hi.cells v hv
    · obtain rfl := List.mem_singleton.mp hv
      rw [hcell, if_pos rfl]
      exact ⟨rfl, rfl, rfl, rfl, rfl⟩
  · show Function.update s.block.w i (some i) v = _
    by_cases hvi : v = i
    · subst hvi
      rw [Function.update_self, hpt.cleared,
        if_pos ⟨List.mem_append_right _ List.mem_cons_self, rfl⟩]
    · rw [Function.update_of_ne hvi, hi.w, hp.cleared, hpt.cleared]
      simp [ht, hvi]
  · rw [hcell, if_neg (Ne.symm hih), if_pos rfl, hpt.left]
    show (s.block.wr.cell h).wrRefc + 1 = ((s.posted ++ [i]).length : ℤ)
    rw [hi.refc, hp.left, List.length_append]
    rfl
  · rw [if_neg (hrel v)]
    exact hfr v
  · show ((s.block.wr.modify i _).modify h _).stale = false
    rw [Heap.stale_modify (by simpa using hfr h), Heap.stale_modify (hfr i)]
    exact hi.stale
  · rw [if_neg fun h1 => hrel v h1.1]
    show s.block.gaveUp v = 0
    rw [hi.gaveUp, if_neg]
    rintro ⟨⟨-, hcn, -⟩, -⟩
    exact hcn (by rw [hp.cleared])
  · have hd : Function.update s.block.done i (s.place.dmaOps i == .memdev) v = false := hd
    by_cases hvi : v = i
    · subst hvi
      rw [Function.update_self] at hd
      have hne : s.place.dmaOps v ≠ .memdev := by simpa using hd
      rw [hcell, if_pos rfl]
      exact ⟨if_neg hne, rfl, by rw [hpt.arrived], hne⟩
    · rw [Function.update_of_ne hvi] at hd
      have hv : v ∈ s.posted := by
        rcases List.mem_append.mp hv with hv | hv
        · exact hv
        · exact absurd (List.mem_singleton.mp hv) hvi
      obtain ⟨n, hn⟩ := hold v hv
      rw [hn]
      exact hi.waits v hv hd

/-- All reads of a block are posted. -/
theorem inv_postReads (p : ReadPlace) (d : ℕ) {rest : List ℕ} (hn : (d :: rest).Nodup) :
    Inv ⟨p, d :: rest, FetchedBlock.unread.postReads p (d :: rest)⟩ d ∧
      Posting ⟨p, d :: rest, FetchedBlock.unread.postReads p (d :: rest)⟩ := by
  induction rest using List.reverseRecOn with
  | nil => exact inv_postHead p d
  | append_singleton rest i ih =>
      rw [← List.cons_append] at hn
      obtain ⟨hn', -, hdis⟩ := List.nodup_append.mp hn
      obtain ⟨hi, hp⟩ := ih hn'
      have hnew : i ∉ d :: rest := fun hm => hdis i hm i (List.mem_singleton.mpr rfl) rfl
      have heq : FetchedBlock.unread.postReads p (d :: (rest ++ [i])) =
          (FetchedBlock.unread.postReads p (d :: rest)).postRead p (some d) i := by
        simp [FetchedBlock.postReads]
      rw [heq]
      exact inv_postRead hi hp hnew

theorem nodup_fetchOrder (n demand : ℕ) : (fetchOrder n demand).Nodup :=
  List.nodup_cons.mpr ⟨by simp, List.filter_sublist.nodup List.nodup_range⟩

theorem posting_of_start (hs : Start s) : ∃ h, Inv s h ∧ Posting s := by
  obtain ⟨⟨n, demand, k, -, hposted⟩, hblock⟩ := hs
  have hcons : s.posted = demand :: ((List.range n).filter (· ≠ demand)).take k := hposted
  have hn : s.posted.Nodup := by
    rw [hposted]
    exact (List.take_sublist _ _).nodup (nodup_fetchOrder n demand)
  rw [hcons] at hn
  obtain ⟨p, l, b⟩ := s
  obtain rfl : b = FetchedBlock.unread.postReads p l := hblock
  obtain rfl : l = _ := hcons
  exact ⟨demand, inv_postReads p demand hn⟩

theorem inv_of_start (hs : Start s) : ∃ h, Inv s h :=
  (posting_of_start hs).imp fun _ => And.left

/-! ## Runs -/

theorem fetchOk_of_inv (hi : Inv s h) : s.FetchOk := by
  have hhead : ∀ {v}, s.IsHead v → v = h := fun hv =>
    Option.some.inj ((show s.posted.head? = some _ from hv).symm.trans hi.head)
  have hall : s.left = [] → ∀ i ∈ s.posted, s.Released h i := by
    intro hl i hm
    refine ⟨hm, fun hc => ?_, fun _ => hl⟩
    have hmem : i ∈ s.left := mem_left.mpr ⟨hm, hc⟩
    rw [hl] at hmem
    cases hmem
  refine ⟨fun w => ?_, hi.stale, fun v hv hf => ?_, fun v hv i hm hne => ?_, fun hl i hm => ?_,
    fun i w hw => ?_, fun i => ⟨?_, fun hc => ?_⟩, fun i hm hc => ?_, fun hl i hm hc => ?_, hi.puts⟩
  · rw [hi.frees]
    split_ifs <;> omega
  · obtain rfl := hhead hv
    rw [hi.frees] at hf
    by_contra hl
    exact hf (if_neg fun h1 => hl (h1.2.2 rfl))
  · obtain rfl := hhead hv
    rw [hi.frees]
    have hiff : s.Released v i ↔ s.block.cleared i ≠ none :=
      ⟨fun h1 => h1.2.1, fun h1 => ⟨hm, h1, fun e => absurd e hne⟩⟩
    simp [hiff]
  · rw [hi.frees, if_pos (hall hl i hm)]
  · obtain ⟨rfl, hl⟩ := hi.w_eq hw
    rw [hi.frees, if_neg fun h1 => (h1.ne hl).1 rfl]
  · rw [hi.gaveUp]
    split_ifs <;> omega
  · rw [hi.gaveUp, if_neg fun h1 => hc h1.2]
  · by_cases hih : i = h
    · left
      rw [hih]
      exact hi.head
    · right
      rw [hi.gaveUp,
        if_pos ⟨⟨hm, by rw [hc]; exact Option.some_ne_none _, fun e => absurd e hih⟩, hc⟩]
  · rw [hi.gaveUp, if_pos ⟨hall hl i hm, hc⟩]

/-- A block of `n` subblocks on one kind of donor, right after its fetch. -/
def fetched (ops : DmaOps) (n demand : ℕ) : FetchRun :=
  ⟨⟨fun _ => ops, fun _ => false, fun _ => 0⟩, fetchOrder n demand,
    FetchedBlock.unread.postReads ⟨fun _ => ops, fun _ => false, fun _ => 0⟩ (fetchOrder n demand)⟩

theorem start_fetched (ops : DmaOps) {n demand : ℕ} (hd : demand < n) :
    Start (fetched ops n demand) := by
  refine ⟨⟨n, demand, n, hd, ?_⟩, rfl⟩
  have hlen : (fetchOrder n demand).length ≤ n + 1 := by
    have := List.length_filter_le (· ≠ demand) (List.range n)
    simp only [List.length_range] at this
    simp only [fetchOrder, List.length_cons]
    omega
  exact (List.take_of_length_le hlen).symm

/-- The demanded subblock is waited for, another one polled before and after its completion. -/
def waitAndPoll : List FetchEvent :=
  [.complete 1 true, .wait 1, .poll 0, .complete 0 true, .poll 0]

end FetchRun

end Emp
