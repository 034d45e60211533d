import Emp.Rdma

/-!
# Posts and waits of all donors

The layer that the rest of the program uses.  It allocates the request, counts it on
its context, maps the local page for the device, and calls the donor's own operation;
a wait undoes the last two.

The integers that the donors' waits return are kept as they are: a block device
answers `-1` for a read in flight and its error code, `0` for none, for a finished one;
a memory device, whose transfers are over when they are posted, answers its error code;
RDMA answers `1`, `0` and `-1` for finished, in flight and failed.

## Main definitions

* `postRead`, `postWrite` — the posts.
* `waitRead`, `tryWaitRead`, `waitWrite` — the waits; `none` stands for one that has to
  go on waiting.
-/

namespace Emp

/-! ## Block device -/

/-- The record that `emp_bdev_post_read` and `emp_bdev_post_write` write. -/
def empBdevPosted (s : Dma) (w c : ℕ) (headWr : Option ℕ) (state : WrState) : WorkRequest :=
  { s.wr w with
    wrRefc := 0
    state := state
    context := c
    headWr := headWr.getD w
    entangledWrLen := 1
    ehWr := none
    chainedOps := false }

/-- `emp_bdev_post_read` and `emp_bdev_post_write`; a refused submission is retried in
place. -/
def empBdevPost (s : Dma) (w c : ℕ) (headWr : Option ℕ) (state : WrState) : Dma :=
  (s.setWr w (empBdevPosted s w c headWr state)).addRefc (headWr.getD w) 1

/-- `bdev_end_io_read_page` and `bdev_end_io_write_page`. -/
def bdevEndIo (s : Dma) (w errno : ℕ) : Dma :=
  s.setWr w { s.wr w with errno := errno, waitDone := true }

/-- `emp_wr_blk_poll`: the requests that the device has finished. -/
def empWrBlkPoll (s : Dma) (found : List (ℕ × ℕ)) : Dma :=
  found.foldl (fun s e => bdevEndIo s e.1 e.2) s

theorem recorded_bdevEndIo (s : Dma) (w errno : ℕ) : s.Recorded (bdevEndIo s w errno) := by
  refine ⟨?_, fun c => ⟨(s.context c).pending, rfl⟩, rfl, rfl, rfl, rfl, rfl⟩
  intro v
  by_cases h : v = w
  · subst h
    exact ⟨(s.wr v).state, errno, true, by simp [bdevEndIo]⟩
  · exact ⟨(s.wr v).state, (s.wr v).errno, (s.wr v).waitDone, by simp [bdevEndIo, h]⟩

theorem recorded_empWrBlkPoll (s : Dma) (found : List (ℕ × ℕ)) :
    s.Recorded (empWrBlkPoll s found) := by
  apply Dma.Recorded.foldl
  intro s e
  exact recorded_bdevEndIo s e.1 e.2

/-- `emp_bdev_wait_rw` once the request is finished. -/
def empBdevWaitRw (s : Dma) (w : ℕ) : Option (Dma × ℤ) :=
  if (s.wr w).waitDone then
    if (s.wr w).errno ≠ 0 then some (s, -1) else some (s.setState w .ready, -(s.wr w).errno)
  else none

/-- `emp_bdev_try_wait_rw`. -/
def empBdevTryWaitRw (s : Dma) (w : ℕ) (found : List (ℕ × ℕ)) : Dma × ℤ :=
  let s := empWrBlkPoll s found
  if (s.wr w).waitDone then (s.setState w .ready, -(s.wr w).errno) else (s, -1)

/-! ## Memory device -/

/-- The record that `emp_memdev_post_read` and `emp_memdev_post_write` write, with the
error of the copy. -/
def empMemdevPosted (s : Dma) (w c : ℕ) (headWr : Option ℕ) (failed : WrState) (errno : ℕ) :
    WorkRequest :=
  { s.wr w with
    wrRefc := 0
    state := if errno = 0 then .ready else failed
    context := c
    headWr := headWr.getD w
    entangledWrLen := 1
    ehWr := none
    chainedOps := false
    errno := errno }

/-- `emp_memdev_post_read` and `emp_memdev_post_write`. -/
def empMemdevPost (s : Dma) (w c : ℕ) (headWr : Option ℕ) (failed : WrState) (errno : ℕ) : Dma :=
  (s.setWr w (empMemdevPosted s w c headWr failed errno)).addRefc (headWr.getD w) 1

/-- `emp_memdev_wait_read`, `emp_memdev_try_wait_read` and `emp_memdev_wait_write`. -/
def empMemdevWait (s : Dma) (w : ℕ) : Dma × ℤ := (s, -(s.wr w).errno)

/-! ## All donors -/

/-- Where a transfer goes: the donor's operations, the region whose cache the request
comes from, the region that the remote page word names, the context, and the subblock. -/
structure Place where
  ops : DmaOps
  memreg : ℕ
  mrid : ℕ
  context : ℕ
  gpa : ℕ

/-- `ops->setup_local_page`, empty but for RDMA. -/
def setupLocalPage (s : Dma) (w : ℕ) : Dma :=
  if (s.wr w).dmaOps = .rdma then s.setWr w { s.wr w with mapped := true } else s

/-- `ops->destroy_local_page`, empty but for RDMA. -/
def destroyLocalPage (s : Dma) (w : ℕ) : Dma :=
  if (s.wr w).dmaOps = .rdma then s.setWr w { s.wr w with mapped := false } else s

theorem wr_setupLocalPage (s : Dma) (w : ℕ) : ∃ m, (setupLocalPage s w).wr =
    Function.update s.wr w { s.wr w with mapped := m } := by
  simp only [setupLocalPage]
  split
  · exact ⟨true, rfl⟩
  · exact ⟨(s.wr w).mapped, (Function.update_eq_self w s.wr).symm⟩

@[simp] theorem context_setupLocalPage (s : Dma) (w : ℕ) :
    (setupLocalPage s w).context = s.context := by
  simp only [setupLocalPage]
  split <;> rfl

@[simp] theorem mrWrLen_setupLocalPage (s : Dma) (w : ℕ) :
    (setupLocalPage s w).mrWrLen = s.mrWrLen := by
  simp only [setupLocalPage]
  split <;> rfl

/-- What `post_read` and `post_write` do before they call the donor. -/
def preparePost (s : Dma) (place : Place) (w : ℕ) : Dma :=
  let s := allocWorkRequest s place.ops w place.memreg place.mrid place.gpa
  setupLocalPage (s.addWrLen place.context 1) w

/-- `post_read`.  `errno` is the error of a copy from a memory device. -/
def postRead (s : Dma) (place : Place) (w : ℕ) (headWr : Option ℕ) (tail : Bool) (errno : ℕ) :
    Dma :=
  let s := preparePost s place w
  match place.ops with
  | .rdma => rdmaPostRead s w place.context headWr tail
  | .nvme => empBdevPost s w place.context headWr .postRead
  | .memdev => empMemdevPost s w place.context headWr .prFailed errno

/-- `post_write`; `full` says that the send queue is. -/
def postWrite (s : Dma) (place : Place) (w : ℕ) (headWr : Option ℕ) (full : Bool) (errno : ℕ) :
    Dma × Option ℕ :=
  let s := preparePost s place w
  match place.ops with
  | .rdma => rdmaPostWrite s w place.context headWr full
  | .nvme => (empBdevPost s w place.context headWr .postWrite, some w)
  | .memdev => (empMemdevPost s w place.context headWr .pwFailed errno, some w)

/-- The end of every wait: unmap the local page and take `n` requests off the context. -/
def endWait (s : Dma) (w : ℕ) (n : ℤ) : Dma :=
  (destroyLocalPage s w).addWrLen (s.wr w).context (-n)

/-- `ops->wait_read`. -/
def opsWaitRead (s : Dma) (w : ℕ) : Option (Dma × ℤ) :=
  match (s.wr w).dmaOps with
  | .rdma => (rdmaWaitRead s w).map fun ret => (if ret = 0 then keepMarker s w else s, ret)
  | .nvme => empBdevWaitRw s w
  | .memdev => some (empMemdevWait s w)

/-- `ops->wait_write`. -/
def opsWaitWrite (s : Dma) (w : ℕ) : Option (Dma × ℤ) :=
  match (s.wr w).dmaOps with
  | .rdma => (rdmaWaitWrite s w).map fun ret => (s, ret)
  | .nvme => empBdevWaitRw s w
  | .memdev => some (empMemdevWait s w)

/-- What a poll finds: completions in the queue, and finished block requests. -/
structure Found where
  cq : List (ℕ × Bool)
  blk : List (ℕ × ℕ)

/-- `ops->try_wait_read`. -/
def opsTryWaitRead (s : Dma) (w : ℕ) (found : Found) : Dma × ℤ :=
  match (s.wr w).dmaOps with
  | .rdma => rdmaTryWaitRead s w found.cq
  | .nvme => empBdevTryWaitRw s w found.blk
  | .memdev => empMemdevWait s w

/-- `wait_read`. -/
def waitRead (s : Dma) (w : ℕ) : Option (Dma × ℤ) :=
  (opsWaitRead s w).map fun r => (endWait r.1 w 1, r.2)

/-- `try_wait_read`. -/
def tryWaitRead (s : Dma) (w : ℕ) (found : Found) : Dma × ℤ :=
  let r := opsTryWaitRead s w found
  (if r.2 = 1 then endWait r.1 w 1 else r.1, r.2)

/-- `wait_write`: the head's count covers a whole chain. -/
def waitWrite (s : Dma) (w : ℕ) : Option (Dma × ℤ) :=
  (opsWaitWrite s w).map fun r => (endWait r.1 w (s.wr (s.wr w).headWr).entangledWrLen, r.2)

end Emp
