import Emp.Lib.Heap
import Emp.WorkRequest

/-!
# The requests of a block that is fetched

`fetch_block` posts a read for each subblock.  The first one, of the demanded subblock, is the
head: it counts the requests that have not been cleared.  The subblocks are then cleared one by
one, by a wait, a poll, the wait for a demand page, or a cancel; a request is freed when it is
cleared, the head with the last of the block.

Reads are never chained, since nobody passes a tail to `fetch_subblock`; the branches for chains
are kept as they are.

## Main definitions

* `ReadRequest`, `FetchedBlock` — a request, and the block with its requests.
* `FetchedBlock.clearFetchingWorkRequest` — what is done with a request that was waited for.
* `FetchedBlock.waitReadAsync`, `tryWaitReadAsync`, `waitReadAsyncDemandPage`, `cancelReadAsync`.
-/

namespace Emp

/-- A work request of a fetch. -/
structure ReadRequest where
  gpa : ℕ
  dmaOps : DmaOps
  headWr : ℕ
  ehWr : Option ℕ
  chainedOps : Bool
  wrRefc : ℤ
  state : WrState
  /-- `errors` or `m_errors`, without the sign. -/
  errno : ℕ
  /-- Whether `wait` of a block device request has been completed. -/
  waitDone : Bool
  deriving DecidableEq, Repr

/-- The donors that a block is read from. -/
structure ReadPlace where
  dmaOps : ℕ → DmaOps
  /-- `poll_context == POLL_CONTEXT_MEMPOLL`, of an RDMA context. -/
  mempoll : ℕ → Bool
  /-- The error of a copy from a memory device. -/
  errno : ℕ → ℕ

/-- A block and the requests of its fetch, named by their subblocks.  `w` is the field of the local
page.  The last group counts what has been done: `emp_put_subblock`, and the remote pages that
were given up; and it says how a subblock was cleared, with its remote page consumed or kept, and
whether the device is done with its read, whose last word has arrived. -/
structure FetchedBlock where
  wr : Heap ReadRequest
  w : ℕ → Option ℕ
  puts : ℕ → ℕ
  gaveUp : ℕ → ℕ
  cleared : ℕ → Option Bool
  done : ℕ → Bool
  arrived : ℕ → Bool

/-- The order in which `fetch_block` posts the reads of a block of `n` subblocks. -/
def fetchOrder (n demand : ℕ) : List ℕ := demand :: (List.range n).filter (· ≠ demand)

namespace FetchedBlock

variable (p : ReadPlace) (b : FetchedBlock)

/-- The request of subblock `i` as `ops->post_read` leaves it. -/
def postedRequest (headWr : Option ℕ) (i : ℕ) : ReadRequest where
  gpa := i
  dmaOps := p.dmaOps i
  headWr := headWr.getD i
  ehWr := none
  chainedOps := false
  wrRefc := 0
  state := if p.dmaOps i = .memdev then (if p.errno i = 0 then .ready else .prFailed) else .postRead
  errno := if p.dmaOps i = .memdev then p.errno i else 0
  waitDone := false

/-- `fetch_subblock` of subblock `i`, once its read is posted. -/
def postRead (headWr : Option ℕ) (i : ℕ) : FetchedBlock :=
  { b with
    wr := (b.wr.modify i fun _ => postedRequest p headWr i).modify (headWr.getD i) fun r =>
      { r with wrRefc := r.wrRefc + 1 }
    w := Function.update b.w i (some i)
    done := Function.update b.done i (p.dmaOps i == .memdev) }

/-- `fetch_block`: the demanded subblock first, which is the head, and the others after it. -/
def postReads : List ℕ → FetchedBlock
  | [] => b
  | demand :: rest =>
      rest.foldl (fun b i => b.postRead p (some demand) i) (b.postRead p none demand)

/-- A block with its local pages and nothing posted. -/
def unread : FetchedBlock where
  wr := ⟨fun _ => ⟨0, .rdma, 0, none, false, 0, .init, 0, false⟩, fun _ => 0, false⟩
  w _ := none
  puts _ := 0
  gaveUp _ := 0
  cleared _ := none
  done _ := false
  arrived _ := false

/-! ## Waiting -/

/-- `is_wr_read_ready`. -/
def isWrReadReady (w : ℕ) : Bool :=
  let r := b.wr.cell w
  r.state == .ready ||
    (r.chainedOps && (match (b.wr.cell r.headWr).ehWr with
      | some eh => (b.wr.cell eh).state == .ready
      | none => false)) ||
    (p.mempoll r.gpa && b.arrived r.gpa)

/-- The wait of `ops->wait_read` for request `w` would end. -/
def waitEnds (w : ℕ) : Bool :=
  match (b.wr.cell w).dmaOps with
  | .rdma => b.isWrReadReady p w || (b.wr.cell w).state == .prFailed
  | .nvme => (b.wr.cell w).waitDone
  | .memdev => true

/-- What `ops->try_wait_read` returns. -/
def tryWaitRead (w : ℕ) : ℤ :=
  match (b.wr.cell w).dmaOps with
  | .rdma => if b.isWrReadReady p w then 1 else if (b.wr.cell w).state = .prFailed then -1 else 0
  | .nvme => if (b.wr.cell w).waitDone then -(b.wr.cell w).errno else -1
  | .memdev => -(b.wr.cell w).errno

/-! ## Clearing -/

/-- `__clear_fetching_work_request`, or `free_work_request` alone. -/
def releaseRequest (consume : Bool) (w : ℕ) : FetchedBlock :=
  let i := (b.wr.cell w).gpa
  { b with
    wr := b.wr.free w
    gaveUp := if consume then Function.update b.gaveUp i (b.gaveUp i + 1) else b.gaveUp }

/-- `atomic_dec(&head_wr->wr_refc)`. -/
def decRefc (h : ℕ) : FetchedBlock :=
  { b with wr := b.wr.modify h fun r => { r with wrRefc := r.wrRefc - 1 } }

/-- Whether a request is released when it is cleared; the head and the first request of a chain
are kept for the last one. -/
def releasedAlone (w : ℕ) : Bool :=
  let r := b.wr.cell w
  w ≠ r.headWr && (!r.chainedOps || some w ≠ (b.wr.cell r.headWr).ehWr)

/-- `_clear_fetching_work_request`, and the same code in `cancel_read_async`, which keeps the remote
page. -/
def clearFetchingWorkRequest (consume : Bool) (w : ℕ) : FetchedBlock :=
  let h := (b.wr.cell w).headWr
  let b := { b with wr := b.wr.touch w }
  let b := if b.releasedAlone w then b.releaseRequest consume w else b
  let b := b.decRefc h
  if (b.wr.cell h).wrRefc = 0 then
    let b := match (b.wr.cell h).ehWr with
      | some eh => b.releaseRequest consume eh
      | none => b
    b.releaseRequest consume h
  else b

/-- Subblock `i` is cleared: its request `w`, `emp_put_subblock`, and the field of the local
page. -/
def clearSubblock (consume : Bool) (i w : ℕ) : FetchedBlock :=
  let b := b.clearFetchingWorkRequest consume w
  { b with
    puts := Function.update b.puts i (b.puts i + 1)
    w := Function.update b.w i none
    cleared := Function.update b.cleared i (some consume) }

/-- `wait_read_async`; `none` if the wait goes on. -/
def waitReadAsync (i : ℕ) : Option FetchedBlock :=
  match b.w i with
  | some w => if b.waitEnds p w then some (b.clearSubblock true i w) else none
  | none => some b

/-- `try_wait_read_async`. -/
def tryWaitReadAsync (i : ℕ) : FetchedBlock :=
  match b.w i with
  | some w =>
      if b.tryWaitRead p w = 0 then { b with wr := b.wr.touch w } else b.clearSubblock true i w
  | none => b

/-- A turn of the loop of `clear_fetching_demand_page`: the demand page has been overwritten, or the
request is polled. -/
def waitReadAsyncDemandPage (i : ℕ) (overwritten : Bool) : FetchedBlock :=
  if overwritten then b else b.tryWaitReadAsync p i

/-- `cancel_read_async`; `none` if the wait goes on. -/
def cancelReadAsync (i : ℕ) : Option FetchedBlock :=
  match b.w i with
  | some w => if b.waitEnds p w then some (b.clearSubblock false i w) else none
  | none => some b

/-! ## The device -/

/-- `handle_rdma_read`. -/
def handleRdmaRead (w : ℕ) (ok : Bool) : FetchedBlock :=
  let v :=
    if ok && (b.wr.cell w).chainedOps then
      ((b.wr.cell (b.wr.cell w).headWr).ehWr.getD (b.wr.cell w).headWr)
    else w
  { b with
    wr := (b.wr.touch w).modify v fun r => { r with state := if ok then .ready else .prFailed }
    done := Function.update b.done w true }

/-- The last word of a page has been written that is read on a memory-polled context; `differs`
if it is not the marker itself. -/
def arrive (i : ℕ) (differs : Bool) : FetchedBlock :=
  { b with
    arrived := Function.update b.arrived i differs
    done := Function.update b.done i true }

/-- `bdev_end_io_read_page`. -/
def bdevEndIo (w errno : ℕ) : FetchedBlock :=
  { b with
    wr := b.wr.modify w fun r => { r with errno := errno, waitDone := true }
    done := Function.update b.done w true }

end FetchedBlock

end Emp
