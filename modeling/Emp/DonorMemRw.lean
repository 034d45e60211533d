import Emp.Udma

/-!
# Clearing of finished transfers

A fetch is cleared request by request: the request and the remote page it read are
given up, the head's and, of a chain, the first request's only with the last of the
block.  A writeback is cleared through its head in the same way; its local pages are
reclaimed with the last request.

None of the functions looks at the status of a transfer: the value that the wait
returns is dropped, and a poll only tells `0` from everything else.

## Main definitions

* `clearFetchingWorkRequest`, `tryClearFetchingWorkRequest`, `cancelReadAsync`.
* `clearWritebackWorkRequest`.
-/

namespace Emp

/-- `__clear_fetching_work_request`: give up the remote page, free the request. -/
def giveUpFetch (s : Dma) (w : ℕ) : Dma :=
  freeWorkRequest { s with gaveUp := Function.update s.gaveUp w true } w

/-- Whether a request of a fetch is released when it is cleared; the head and the
first request of a chain are kept for the last one. -/
def releasedAlone (s : Dma) (w : ℕ) : Bool :=
  w ≠ (s.wr w).headWr &&
    (!(s.wr w).chainedOps || some w ≠ (s.wr (s.wr w).headWr).ehWr)

/-- `_clear_fetching_work_request`, with `release` for what is done to each request. -/
def putFetch (release : Dma → ℕ → Dma) (s : Dma) (w : ℕ) : Dma :=
  let h := (s.wr w).headWr
  let s := if releasedAlone s w then release s w else s
  let s := s.addRefc h (-1)
  if (s.wr h).wrRefc = 0 then
    let s := match (s.wr h).ehWr with
      | some eh => release s eh
      | none => s
    release s h
  else s

/-- `_clear_fetching_work_request`. -/
def putFetchingWorkRequest (s : Dma) (w : ℕ) : Dma := putFetch giveUpFetch s w

/-- `clear_fetching_work_request`. -/
def clearFetchingWorkRequest (s : Dma) (w : ℕ) : Option Dma :=
  (waitRead s w).map fun r => putFetchingWorkRequest r.1 w

/-- `try_clear_fetching_work_request`: the state, and whether the request was cleared. -/
def tryClearFetchingWorkRequest (s : Dma) (w : ℕ) (found : Found) : Dma × Bool :=
  let r := tryWaitRead s w found
  if r.2 = 0 then (r.1, false) else (putFetchingWorkRequest r.1 w, true)

/-- `gpa->local_page->w = NULL` after a fetch. -/
def setMappable (s : Dma) (w : ℕ) : Dma :=
  { s with mappable := Function.update s.mappable w true }

/-- `wait_read_async`. -/
def waitReadAsync (s : Dma) (w : ℕ) : Option Dma :=
  (clearFetchingWorkRequest s w).map fun s => setMappable s w

/-- `try_wait_read_async`. -/
def tryWaitReadAsync (s : Dma) (w : ℕ) (found : Found) : Dma × Bool :=
  let r := tryClearFetchingWorkRequest s w found
  if r.2 then (setMappable r.1 w, true) else (r.1, false)

/-- `cancel_read_async`: as `_clear_fetching_work_request`, but the remote page stays.
The caller frees the local page. -/
def cancelReadAsync (s : Dma) (w : ℕ) : Option Dma :=
  (waitRead s w).map fun r => putFetch freeWorkRequest r.1 w

/-- `free_work_requests`. -/
def freeWorkRequests (s : Dma) (w : ℕ) : Dma :=
  freeWorkRequest ((s.wr w).remotePages.foldl freeWorkRequest
    (s.setWr w { s.wr w with remotePages := [] })) w

/-- What `clear_writeback_work_request` does after the wait. -/
def putWriteback (s : Dma) (w : ℕ) (doReclaim : Bool) : Dma :=
  let h := (s.wr w).headWr
  let s :=
    if !(s.wr w).chainedOps && w ≠ h then
      s.setWr h { s.wr h with remotePages := (s.wr h).remotePages ++ [w] }
    else s
  let s := s.addRefc h (-1)
  if (s.wr h).wrRefc = 0 then
    freeWorkRequests
      { s with
        finished := Function.update s.finished h true
        reclaimed := Function.update s.reclaimed h (s.reclaimed h || doReclaim) } h
  else s

/-- `clear_writeback_work_request`. -/
def clearWritebackWorkRequest (s : Dma) (w : ℕ) (doReclaim : Bool) : Option Dma :=
  (waitWrite s w).map fun r => putWriteback r.1 w doReclaim

end Emp
