import Emp.DonorMemRw
import Emp.Lib.Transition

/-!
# Transfers of any blocks, in any order

The posts, completions, waits, polls, cancellations and clears of all blocks on all
connections, one request at a time.  A block is named by its head request.  Its requests
are posted one after the other; then the block is closed, a chain being handed to the
device at that moment; then its requests complete and are cleared.  The completions that
a poll or a wait takes out of a queue are steps of their own.

The guards say what the callers see to: a block is cleared only after its last post and
each of its requests once, with the block's lock held; a block of chained requests stays
on one context; the connection of a region has that region as its `memreg`.  A fetch
that failed halfway is cancelled, any other is cleared; and one caller clears the whole
of a writeback, with one `do_reclaim`.

## Main definitions

* `DmaSys` — the records and what happened to each request.
* `Event`, `DmaSys.step` — the steps.
-/

namespace Emp

/-- A read, a write, or a request that carries no subblock: one that only signals
memory-polled reads, or that a full send queue refused. -/
inductive Kind
  | read
  | write
  | other
  deriving DecidableEq, Repr

/-- The state of all transfers.  The requests below `next` have been allocated; `closed`,
`unwind`, `reclaim` and `refused` are by head: the block's posting has ended, it failed,
the `do_reclaim` it is cleared with, and how many of its posts were refused. -/
structure DmaSys where
  dma : Dma
  next : ℕ
  kind : ℕ → Kind
  closed : ℕ → Bool
  unwind : ℕ → Bool
  reclaim : ℕ → Option Bool
  refused : ℕ → ℕ
  cleared : ℕ → Bool
  /-- Whether the transfer succeeded, once the device has said so. -/
  outcome : ℕ → Option Bool

inductive Event
  | postRead (place : Place) (head : Option ℕ) (errno : ℕ)
  | postWrite (place : Place) (head : Option ℕ) (full : Bool) (errno : ℕ)
  | endPosts (h : ℕ) (unwind : Bool)
  | signal (m gpa c : ℕ)
  | signalDone (w : ℕ) (n : ℤ)
  | complete (w : ℕ) (ok : Bool)
  | arrive (w : ℕ) (differs : Bool)
  | endIo (w errno : ℕ)
  | clearRead (w : ℕ)
  | pollRead (w : ℕ)
  | cancelRead (w : ℕ)
  | clearWrite (w : ℕ) (doReclaim : Bool)

namespace DmaSys

variable (s : DmaSys)

/-- The request through which `w` is waited for and counted on its head. -/
def unit (w : ℕ) : ℕ := if (s.dma.wr w).chainedOps then (s.dma.wr w).headWr else w

/-- Whether a post is left for a chain. -/
def chains (kind : Kind) (place : Place) : Bool :=
  kind == .write && place.ops == .rdma && (s.dma.context place.context).chainedOps

/-- The post starts a block, or goes on with one of its kind. -/
def canPost (kind : Kind) (place : Place) (head : Option ℕ) : Bool :=
  place.memreg == place.mrid &&
    match head with
    | none => true
    | some h =>
        decide (h < s.next) && (s.dma.wr h).headWr == h && s.kind h == kind && !s.closed h &&
          s.chains kind place == (s.dma.wr h).chainedOps &&
          (!(s.dma.wr h).chainedOps || place.context == (s.dma.wr h).context)

/-- The next request has been allocated and posted. -/
def posted (kind : Kind) (outcome : Option Bool) (dma : Dma) : DmaSys :=
  { s with
    dma := dma
    next := s.next + 1
    kind := Function.update s.kind s.next kind
    outcome := Function.update s.outcome s.next outcome }

/-- The next request carries nothing that is ever waited for. -/
def spare (dma : Dma) : DmaSys :=
  { s.posted .other none dma with cleared := Function.update s.cleared s.next true }

/-- A transfer to or from a memory device is over when it is posted. -/
def postOutcome (place : Place) (errno : ℕ) : Option Bool :=
  if place.ops = .memdev then some (errno == 0) else none

/-- `link_entangled_writeback` of a request that is not the head. -/
def linkEntangled (dma : Dma) (w : ℕ) : Dma :=
  let h := (dma.wr w).headWr
  if (dma.wr w).chainedOps && w ≠ h then
    dma.setWr h { dma.wr h with remotePages := (dma.wr h).remotePages ++ [w] }
  else dma

/-- A turn of the loop of `evict_block`, with the retry after a full queue left to the
next turn. -/
def stepPostWrite (place : Place) (head : Option ℕ) (full : Bool) (errno : ℕ) : DmaSys :=
  let r := postWrite s.dma place s.next head full errno
  match r.2 with
  | some w => s.posted .write (postOutcome place errno) (linkEntangled r.1 w)
  | none =>
      let t := s.spare r.1
      match head with
      | none => t
      | some h => { t with refused := Function.update s.refused h (s.refused h + 1) }

/-- The end of a block's posts; a chain is handed over, from its head to the request
that was linked last. -/
def stepEndPosts (h : ℕ) (unwind : Bool) : DmaSys :=
  { s with
    closed := Function.update s.closed h true
    unwind := Function.update s.unwind h unwind
    dma :=
      if (s.dma.wr h).chainedOps then
        rdmaPostWorkReq s.dma h ((s.dma.wr h).remotePages.getLast?.getD h) h
          ((s.dma.wr h).remotePages.length + 1)
      else s.dma }

/-- The requests of the chain of `w`. -/
def inChain (w v : ℕ) : Bool :=
  decide (v < s.next) && s.kind v == .write && s.unit v == s.unit w

/-- The device reports request `w`, of a chain at its end if it succeeded. -/
def canComplete (w : ℕ) (ok : Bool) : Bool :=
  decide (w < s.next) && s.kind w != .other && (s.dma.wr w).dmaOps == .rdma &&
    (s.outcome w).isNone && (!ok || (s.dma.wr w).signaled) &&
    (!(s.dma.wr w).chainedOps || s.closed (s.dma.wr w).headWr &&
      if ok then decide (∀ v < s.next, s.inChain w v = true → s.outcome v = none)
      else decide (∀ v < s.next, s.inChain w v = true → s.outcome v ≠ some true))

def stepComplete (w : ℕ) (ok : Bool) : DmaSys :=
  { s with
    dma := if s.kind w = .write then handleRdmaWrite s.dma w ok else handleRdmaRead s.dma w ok
    outcome :=
      if ok && (s.dma.wr w).chainedOps then
        fun v => if s.inChain w v then some true else s.outcome v
      else Function.update s.outcome w (some ok) }

/-- A fetched subblock, still locked, of a block that is not unwound. -/
def canClear (kind : Kind) (w : ℕ) : Bool :=
  decide (w < s.next) && s.kind w == kind && !s.cleared w && s.closed (s.dma.wr w).headWr &&
    s.unit w == w

def setCleared (w : ℕ) (dma : Dma) : DmaSys :=
  { s with dma := dma, cleared := Function.update s.cleared w true }

/-- One step; `none` if it is not possible. -/
def step : DmaSys → Event → Option DmaSys
  | s, .postRead place head errno =>
      if s.canPost .read place head then
        some (s.posted .read (postOutcome place errno)
          (Emp.postRead s.dma place s.next head false errno))
      else none
  | s, .postWrite place head full errno =>
      if s.canPost .write place head then some (s.stepPostWrite place head full errno) else none
  | s, .endPosts h unwind =>
      if decide (h < s.next) && s.kind h != .other && (s.dma.wr h).headWr == h && !s.closed h &&
          (!unwind || s.kind h == .read) then
        some (s.stepEndPosts h unwind)
      else none
  | s, .signal m gpa c => some (s.spare (allocSignal s.dma s.next m gpa c))
  | s, .signalDone w n =>
      if decide (w < s.next) && s.kind w == .other && (s.dma.wr w).live then
        some { s with dma := handleRdmaReadMempoll s.dma w n }
      else none
  | s, .complete w ok => if s.canComplete w ok then some (s.stepComplete w ok) else none
  | s, .arrive w differs =>
      if decide (w < s.next) && s.kind w == .read && (s.dma.wr w).dmaOps == .rdma &&
          (s.dma.context (s.dma.wr w).context).mempoll && (s.outcome w).isNone then
        some { s with
          dma := s.dma.setWr w { s.dma.wr w with arrived := some differs }
          outcome := Function.update s.outcome w (some true) }
      else none
  | s, .endIo w errno =>
      if decide (w < s.next) && s.kind w != .other && (s.dma.wr w).dmaOps == .nvme &&
          (s.outcome w).isNone then
        some { s with
          dma := bdevEndIo s.dma w errno
          outcome := Function.update s.outcome w (some (errno == 0)) }
      else none
  | s, .clearRead w =>
      if s.canClear .read w && !s.unwind (s.dma.wr w).headWr then
        (waitReadAsync s.dma w).map (s.setCleared w)
      else none
  | s, .pollRead w =>
      if s.canClear .read w && !s.unwind (s.dma.wr w).headWr then
        let r := tryWaitReadAsync s.dma w ⟨[], []⟩
        some (if r.2 then s.setCleared w r.1 else { s with dma := r.1 })
      else none
  | s, .cancelRead w =>
      if s.canClear .read w && s.unwind (s.dma.wr w).headWr then
        (cancelReadAsync s.dma w).map (s.setCleared w)
      else none
  | s, .clearWrite w doReclaim =>
      let h := (s.dma.wr w).headWr
      if s.canClear .write w && (s.reclaim h).getD doReclaim == doReclaim then
        (clearWritebackWorkRequest s.dma w doReclaim).map fun dma =>
          { s.setCleared w dma with reclaim := Function.update s.reclaim h (some doReclaim) }
      else none

/-- Nothing was allocated, on contexts that may allow chains or not. -/
def Start (s : DmaSys) : Prop :=
  s.next = 0 ∧
    (∀ w, s.dma.wr w = quiet.wr w ∧ s.kind w = .other ∧ s.closed w = false ∧
      s.unwind w = false ∧ s.reclaim w = none ∧ s.refused w = 0 ∧ s.cleared w = false ∧
      s.outcome w = none ∧ s.dma.gaveUp w = false ∧ s.dma.mappable w = false ∧
      s.dma.finished w = false ∧ s.dma.reclaimed w = false) ∧
    (∀ c, (s.dma.context c).wrLen = 0) ∧ ∀ m, s.dma.mrWrLen m = 0

/-- Nothing was allocated, and the contexts allow chains or not. -/
def blank (chained : Bool) : DmaSys where
  dma := { quiet with context := fun _ => ⟨0, 0, chained, false⟩ }
  next := 0
  kind _ := .other
  closed _ := false
  unwind _ := false
  reclaim _ := none
  refused _ := 0
  cleared _ := false
  outcome _ := none

theorem start_blank (chained : Bool) : (blank chained).Start :=
  ⟨rfl, fun _ => ⟨rfl, rfl, rfl, rfl, rfl, rfl, rfl, rfl, rfl, rfl, rfl, rfl⟩, fun _ => rfl,
    fun _ => rfl⟩

end DmaSys

end Emp
