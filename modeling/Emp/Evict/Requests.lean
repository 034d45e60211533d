import Emp.Lib.Heap
import Emp.Reclaim.Block
import Emp.WorkRequest

/-!
# The requests of a block that is written back

`evict_block` posts one request for each subblock.  The first one is the head: it counts the
requests that are waited for one by one, and the others hang from it, as siblings if they are
independent and on the list `remote_pages` if they are chained.  Whoever clears the block waits
for the siblings and then for the head; the last one that is waited for unlocks the subblocks,
gives up their local pages or their pointers, and frees all requests.

The request of a subblock is named by the subblock's index in the block, the head by `0`.  What
a refused post leaves behind is its count on the head; its request is freed on the spot.  The
counters of the donor's contexts and regions and the mapping of pages for the device are the
subject of `Emp.Udma`.

## Main definitions

* `WbRequest`, `EvictedBlock` — a request, and the block with its requests.
* `EvictedBlock.postWritebackAsync` — a turn of the loop that posts.
* `EvictedBlock.clearWritebackWorkRequest` — what is done with a request that was waited for.
-/

namespace Emp

/-- A work request of a writeback. -/
structure WbRequest where
  gpa : ℕ
  dmaOps : DmaOps
  headWr : ℕ
  ehWr : Option ℕ
  chainedOps : Bool
  wrRefc : ℤ
  state : WrState
  /-- Whether `wait` of a block device request has been completed. -/
  waitDone : Bool
  /-- The requests that hang from this one as siblings. -/
  subsibling : List ℕ
  /-- The requests that are freed with this one. -/
  remotePages : List ℕ
  deriving DecidableEq, Repr

/-- What the field `w` of a local page points to. -/
inductive LocalW
  | null
  | wr (w : ℕ)
  | eager
  deriving DecidableEq, Repr

/-- The donors that a block is written to; all of its requests are chained or none is. -/
structure EvictPlace where
  /-- `num_subblock_in_block`. -/
  numSubblock : ℕ
  dmaOps : ℕ → DmaOps
  chainedOps : Bool
  /-- `eager_evict`. -/
  eager : Bool

/-- A block and the requests of its writeback.  `headWr` and `posted` are the head and the
number of posted requests in the loop of `evict_block`, and `eagerW` is the request that the
handle of an eager writeback holds.  The last group counts by subblock what has been done:
`emp_get_subblock`, `emp_put_subblock`, `emp_lock_subblock`, `emp_unlock_subblock`,
`set_gpa_remote`, and `wait_write` or `destroy_write` of its request; and it says whether the
device is done with its write. -/
structure EvictedBlock where
  wr : Heap WbRequest
  headWr : Option ℕ
  posted : ℕ
  localPage : ℕ → Bool
  w : ℕ → LocalW
  rState : ℕ → GpaState
  eagerWbr : Bool
  eagerW : Option ℕ
  onList : Bool
  gets : ℕ → ℕ
  puts : ℕ → ℕ
  locks : ℕ → ℕ
  unlocks : ℕ → ℕ
  reclaims : ℕ → ℕ
  ends : ℕ → ℕ
  done : ℕ → Bool

namespace EvictPlace

variable (p : EvictPlace)

/-- The request of subblock `i` as `ops->post_write` leaves it; `failed` is the result of a copy
to a memory device. -/
def postedRequest (i : ℕ) (headWr : Option ℕ) (failed : Bool) : WbRequest where
  gpa := i
  dmaOps := p.dmaOps i
  headWr := headWr.getD i
  ehWr := none
  chainedOps := p.chainedOps
  wrRefc := 0
  state := if p.dmaOps i = .memdev then (if failed then .pwFailed else .ready) else .postWrite
  waitDone := false
  subsibling := []
  remotePages := []

end EvictPlace

namespace EvictedBlock

variable (p : EvictPlace) (b : EvictedBlock)

/-- `atomic_add(n, &head_wr->wr_refc)`. -/
def addRefc (h : ℕ) (n : ℤ) : EvictedBlock :=
  { b with wr := b.wr.modify h fun r => { r with wrRefc := r.wrRefc + n } }

/-- `emp_get_subblock` and `emp_lock_subblock` of subblock `i`. -/
def takeSubblock (i : ℕ) : EvictedBlock :=
  { b with
    gets := Function.update b.gets i (b.gets i + 1)
    locks := Function.update b.locks i (b.locks i + 1) }

/-- `emp_unlock_subblock` and `emp_put_subblock` of subblock `i`. -/
def releaseSubblock (i : ℕ) : EvictedBlock :=
  { b with
    puts := Function.update b.puts i (b.puts i + 1)
    unlocks := Function.update b.unlocks i (b.unlocks i + 1) }

/-- The posts that a full send queue refuses.  `rdma_post_write` counts a request on its head
before it tries to post it, and does not take it off again when it frees the request. -/
def refusePosts (full : ℕ) : EvictedBlock :=
  match b.headWr with
  | some h => b.addRefc h full
  | none => b

/-- `ops->post_write` of subblock `i`.  A chain is counted once, for its head. -/
def postWrite (i : ℕ) (failed : Bool) : EvictedBlock :=
  let h := b.headWr.getD i
  let b := { b with
    wr := b.wr.modify i fun _ => p.postedRequest i b.headWr failed
    done := Function.update b.done i (p.dmaOps i == .memdev) }
  if b.headWr.isNone || !p.chainedOps then b.addRefc h 1 else b

/-- `link_entangled_writeback`, or the list of siblings. -/
def linkRequest (i : ℕ) : EvictedBlock :=
  match b.headWr with
  | some h =>
      { b with
        wr := b.wr.modify h fun r =>
          if p.chainedOps then { r with remotePages := r.remotePages ++ [i] }
          else { r with subsibling := r.subsibling ++ [i] } }
  | none => b

/-- A turn of the loop of `evict_block` in which the post succeeds, after `full` posts were
refused; `failed` is the result of a copy to a memory device. -/
def postSubblock (full : ℕ) (failed : Bool) : EvictedBlock :=
  let i := b.posted
  let b := ((b.takeSubblock i).refusePosts full).postWrite p i failed
  let b :=
    if p.eager then b
    else
      { b with
        rState := Function.update b.rState i .wb
        w := Function.update b.w i (.wr i) }
  let b := b.linkRequest p i
  { b with headWr := some (b.headWr.getD i), posted := i + 1 }

/-- `evict_block` after its loop, and what `do_eager_writeback` does with the result. -/
def endPosts : EvictedBlock :=
  match b.headWr with
  | some h =>
      let b :=
        if p.chainedOps then { b with wr := b.wr.modify h fun r => { r with ehWr := some h } }
        else b
      if p.eager then
        { b with w := Function.update b.w 0 .eager, eagerW := some h, eagerWbr := true }
      else { b with rState := Function.update b.rState 0 .wb, onList := true }
  | none => b

/-- The wait of `ops->wait_write` for request `w` would end. -/
def waitEnds (w : ℕ) : Bool :=
  match (b.wr.cell w).dmaOps with
  | .rdma => (b.wr.cell w).state == .ready || (b.wr.cell w).state == .pwFailed
  | .nvme => (b.wr.cell w).waitDone
  | .memdev => true

/-- What `clear_writeback_work_request` does with one subblock. -/
def clearSubblock (doReclaim : Bool) (i : ℕ) : EvictedBlock :=
  let b := b.releaseSubblock i
  let b := { b with w := Function.update b.w i .null }
  if doReclaim then
    { b with
      localPage := Function.update b.localPage i false
      rState := Function.update b.rState i .init
      reclaims := Function.update b.reclaims i (b.reclaims i + 1) }
  else b

/-- `free_work_requests`. -/
def freeWorkRequests (h : ℕ) : EvictedBlock :=
  { b with
    wr := ((b.wr.modify h fun r => { r with remotePages := [] }).freeAll
      (b.wr.cell h).remotePages).free h }

/-- `wait_write` of request `w` once it ends, or `destroy_write`. -/
def endWrite (w : ℕ) : EvictedBlock :=
  { b with wr := b.wr.touch w, ends := Function.update b.ends w (b.ends w + 1) }

/-- `clear_writeback_work_request` once its wait ends. -/
def clearWritebackWorkRequest (w : ℕ) (doReclaim : Bool) : EvictedBlock :=
  let h := (b.wr.cell w).headWr
  let b := b.endWrite w
  let b :=
    if (b.wr.cell w).chainedOps = false ∧ w ≠ h then
      { b with wr := b.wr.modify h fun r => { r with remotePages := r.remotePages ++ [w] } }
    else b
  let b := b.addRefc h (-1)
  if (b.wr.cell h).wrRefc = 0 then
    ((List.range p.numSubblock).reverse.foldl (fun b i => b.clearSubblock doReclaim i)
      b).freeWorkRequests h
  else b

/-- The completion handler of RDMA: a failure is recorded at the head, a success at the request
itself or, of a chain, at the first request. -/
def handleRdmaWrite (w : ℕ) (ok : Bool) : EvictedBlock :=
  let h := (b.wr.cell w).headWr
  let wr := (b.wr.touch w).touch h
  if ok then
    let v := if (b.wr.cell w).chainedOps then ((b.wr.cell h).ehWr.getD h) else w
    { b with wr := wr.modify v fun r => { r with state := .ready } }
  else { b with wr := wr.modify h fun r => { r with state := .pwFailed } }

/-- `bdev_end_io_write_page`. -/
def bdevEndIo (w : ℕ) : EvictedBlock :=
  { b with wr := b.wr.modify w fun r => { r with waitDone := true } }

/-- A block with its local pages and nothing posted. -/
def unposted (rState : GpaState) : EvictedBlock where
  wr := ⟨fun _ => ⟨0, .rdma, 0, none, false, 0, .init, false, [], []⟩, fun _ => 0, false⟩
  headWr := none
  posted := 0
  localPage _ := true
  w _ := .null
  rState _ := rState
  eagerWbr := false
  eagerW := none
  onList := false
  gets _ := 0
  puts _ := 0
  locks _ := 0
  unlocks _ := 0
  reclaims _ := 0
  ends _ := 0
  done _ := false

end EvictedBlock

end Emp
