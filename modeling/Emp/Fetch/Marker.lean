import Emp.Lib.Transition
import Emp.WorkRequest
import Mathlib

/-!
# Reads whose end is told by a marker

`_alloc_pages` writes the word `EMPTY_PAGE` at the end of each page, if `mark_empty_page` is on.
The adapter overwrites the pages from their start on, so a last word that differs tells that its
page has arrived.  On a memory-polled context a read has no other sign of its end; the critical
page is mapped ahead on the same sign, and there the completion of the read is the fallback.

The settings are read when pages are allocated, when a fault turns to its demand page and when the
wait for it begins, and can be switched in between.  `fetch_block` posts its reads one by one, so
none of them is in a chain.

## Main definitions

* `MarkedRead`, `MarkedSys` — a subblock with its read; all of them with the settings.
* `MarkedSys.isWrReadReady`, `rdmaWaitRead`, `rdmaTryWaitRead` — the polls.
* `MarkedSys.clearFetchingDemandPage`, `demandLook` — the wait for a demand page.
* `MarkedSys.step` — the system.
-/

namespace Emp

/-- `EMPTY_PAGE`. -/
def emptyPage : UInt64 := 0xDEADBEEF

/-- The words of a page. -/
def pageWords : ℕ := 512

/-- The last word of page `p` of a subblock. -/
def lastWord (p : ℕ) : ℕ := pageWords * p + (pageWords - 1)

/-- The loop of `mark_empty_page` over the first `k` pages. -/
def markPages : ℕ → (ℕ → UInt64) → ℕ → UInt64
  | 0, mem => mem
  | k + 1, mem => Function.update (markPages k mem) (lastWord k) emptyPage

/-- Whether the pages of a subblock are there, and then whether its read has been posted. -/
inductive ReadStage
  | absent
  | allocated
  | posted
  deriving DecidableEq, Repr

/-- The wait for a page of a subblock: a fault has turned to it, or the loop looks at it. -/
inductive DemandWait
  | idle
  | entered (page : ℕ)
  | looping (page retry : ℕ)
  deriving DecidableEq, Repr

/-- A subblock and its read.  `data` are the words to be read, `mem` those of the local page, of
which the adapter has written the first `arrived`.  `w` is the state of the request in the field
of the local page, and `mapped` are the pages that were mapped ahead. -/
structure MarkedRead where
  stage : ReadStage
  data : ℕ → UInt64
  mem : ℕ → UInt64
  arrived : ℕ
  w : Option WrState
  context : ℕ
  demand : DemandWait
  mapped : ℕ → Bool

/-- A connection context.  `signaled` is `pending_signaled`, with `wr_size` of the request that
stands for the reads before it. -/
structure MarkedContext where
  mempoll : Bool
  pending : ℤ
  pendingThres : ℤ
  signaled : Option ℤ

structure MarkedSys where
  sbOrder : ℕ
  markEmptyPage : Bool
  criticalSubblockFirst : Bool
  criticalPageFirst : Bool
  context : ℕ → MarkedContext
  read : ℕ → MarkedRead

namespace MarkedSys

variable (s : MarkedSys) (i : ℕ)

def setRead (r : MarkedRead) : MarkedSys := { s with read := Function.update s.read i r }

def setContext (c : ℕ) (x : MarkedContext) : MarkedSys :=
  { s with context := Function.update s.context c x }

/-- `WRITE_ONCE(w->state, next)`. -/
def setState (next : WrState) : MarkedSys := s.setRead i { s.read i with w := some next }

def numPages : ℕ := 2 ^ s.sbOrder

def numWords : ℕ := pageWords * s.numPages

/-- The read is on a memory-polled context. -/
def mempoll : Bool := (s.context (s.read i).context).mempoll

/-- `_alloc_pages` for a subblock; `stale` is what the pages hold. -/
def allocPages (stale : ℕ → UInt64) : MarkedSys :=
  s.setRead i { s.read i with
    stage := .allocated
    mem := if s.markEmptyPage then markPages s.numPages stale else stale
    arrived := 0
    mapped := fun _ => false }

/-- `rdma_post_read` on context `c`; `alloc` tells whether there is a request for the completion
that stands for the pending reads of a memory-polled context. -/
def rdmaPostRead (c : ℕ) (data : ℕ → UInt64) (alloc : Bool) : MarkedSys :=
  let x := s.context c
  let signal := x.mempoll && decide (x.pendingThres < x.pending) && x.signaled.isNone && alloc
  (s.setRead i { s.read i with
    stage := .posted
    data := data
    w := some .postRead
    context := c }).setContext c { x with
      pending := x.pending + 1
      signaled := if signal then some x.pending else x.signaled }

/-- The adapter writes the next word. -/
def deliver : MarkedSys :=
  let r := s.read i
  s.setRead i { r with
    mem := Function.update r.mem r.arrived (r.data r.arrived)
    arrived := r.arrived + 1 }

/-- `handle_rdma_read`. -/
def handleRdmaRead (ok : Bool) : MarkedSys :=
  let c := (s.read i).context
  let x := s.context c
  (s.setContext c { x with pending := x.pending - 1 }).setState i (if ok then .ready else .prFailed)

/-- `handle_rdma_read_mempoll`. -/
def handleRdmaReadMempoll (c : ℕ) (size : ℤ) : MarkedSys :=
  let x := s.context c
  s.setContext c { x with pending := x.pending - size, signaled := none }

/-! ### Polls -/

/-- `is_wr_read_ready`; an arrival that was seen is kept in the state. -/
def isWrReadReady : MarkedSys × Bool :=
  if (s.read i).w = some .ready then (s, true)
  else if s.mempoll i && (s.read i).mem (s.numWords - 1) != emptyPage then
    (s.setState i .ready, true)
  else (s, false)

/-- One turn of the loop of `rdma_wait_read`; `none` if there is another. -/
def rdmaWaitRead : MarkedSys × Option ℤ :=
  let (s, ready) := s.isWrReadReady i
  if ready then (s, some 0)
  else if (s.read i).w = some .prFailed then (s, some (-1))
  else (s, none)

/-- `emp_process_cq`; `found` is the completion of the read, if the queue has it. -/
def empProcessCq (found : Option Bool) : MarkedSys :=
  match found with
  | some ok => s.handleRdmaRead i ok
  | none => s

/-- `rdma_try_wait_read`. -/
def rdmaTryWaitRead (found : Option Bool) : MarkedSys × ℤ :=
  let (s, ready) := s.isWrReadReady i
  if ready then (s, 1)
  else if (s.read i).w = some .prFailed then (s, -1)
  else
    let (s, ready) := (s.empProcessCq i found).isWrReadReady i
    if ready then (s, 1) else (s, 0)

/-- The request is freed, and `w` of the local page is null. -/
def clearRequest : MarkedSys := s.setRead i { s.read i with w := none }

/-- `wait_read_async`, in one turn of the wait. -/
def waitReadAsync : MarkedSys :=
  let (s, done) := s.rdmaWaitRead i
  if done.isSome then s.clearRequest i else s

/-- `try_wait_read_async`. -/
def tryWaitReadAsync (found : Option Bool) : MarkedSys :=
  let (s, done) := s.rdmaTryWaitRead i found
  if done ≠ 0 then s.clearRequest i else s

/-! ### The demand page -/

def setDemand (d : DemandWait) : MarkedSys := s.setRead i { s.read i with demand := d }

/-- The barrier is over, and the pages are mapped. -/
def mapAhead (p : ℕ → Bool) : MarkedSys :=
  s.setRead i { s.read i with
    demand := .idle
    mapped := fun q => p q || (s.read i).mapped q }

/-- The begin of `wait_read_async_demand_page` and `clear_fetching_demand_page`. -/
def clearFetchingDemandPage (p : ℕ) : MarkedSys :=
  if (s.read i).w = none ∨ s.markEmptyPage = false ∨ s.criticalPageFirst = false then
    s.mapAhead i (· == p)
  else s.setDemand i (.looping p 10)

/-- One turn of the loop of `clear_fetching_demand_page`. -/
def demandLook (p retry : ℕ) (found : Option Bool) : MarkedSys :=
  if (s.read i).mem (lastWord p) ≠ emptyPage then s.mapAhead i (· == p)
  else if retry = 0 then
    -- the fallback to the completion of the read
    let (s, done) := s.rdmaTryWaitRead i found
    if done ≠ 0 then (s.clearRequest i).mapAhead i (decide <| · < s.numPages)
    else s.setDemand i (.looping p 10)
  else s.setDemand i (.looping p (retry - 1))

/-- The turns of the loop while nothing else happens. -/
def demandLooks : ℕ → MarkedSys → MarkedSys
  | 0, s => s
  | k + 1, s =>
    match (s.read i).demand with
    | .looping p retry => demandLooks k (s.demandLook i p retry none)
    | _ => s

end MarkedSys

/-! ### Runs -/

inductive MarkedEvent
  | setMark (v : Bool)
  | setCsf (v : Bool)
  | setCpf (v : Bool)
  | alloc (i : ℕ) (stale : ℕ → UInt64)
  | post (i c : ℕ) (data : ℕ → UInt64) (alloc : Bool)
  | deliver (i : ℕ)
  | complete (i : ℕ) (ok : Bool)
  | completeShared (c : ℕ)
  | wait (i : ℕ)
  | tryWait (i : ℕ) (found : Option Bool)
  | enterDemand (i p : ℕ)
  | startDemand (i : ℕ)
  | demandLook (i : ℕ) (found : Option Bool)

namespace MarkedSys

variable (s : MarkedSys) (i : ℕ)

/-- The adapter can complete the read with this status, or there is no completion. -/
def Due : Option Bool → Prop
  | some ok => (s.read i).w = some .postRead ∧ s.mempoll i = false ∧
      (ok = true → (s.read i).arrived = s.numWords)
  | none => True

instance (found : Option Bool) : Decidable (s.Due i found) :=
  match found with
  | some _ => inferInstanceAs (Decidable (_ ∧ _))
  | none => inferInstanceAs (Decidable True)

/-- One step.  A fault on a block holds its lock until the demand page is mapped; the switch of
`critical_page_first` asks for the other two. -/
def step : MarkedEvent → Option MarkedSys
  | .setMark v => some { s with markEmptyPage := v }
  | .setCsf v => some { s with criticalSubblockFirst := v }
  | .setCpf v =>
    if v && (!s.criticalSubblockFirst || !s.markEmptyPage) then some s
    else some { s with criticalPageFirst := v }
  | .alloc i stale =>
    if (s.read i).w = none ∧ (s.read i).demand = .idle then some (s.allocPages i stale) else none
  | .post i c data alloc =>
    if (s.read i).stage = .allocated then some (s.rdmaPostRead i c data alloc) else none
  | .deliver i =>
    if (s.read i).stage = .posted ∧ (s.read i).arrived < s.numWords then some (s.deliver i)
    else none
  | .complete i ok => if s.Due i (some ok) then some (s.handleRdmaRead i ok) else none
  | .completeShared c => (s.context c).signaled.map (s.handleRdmaReadMempoll c)
  | .wait i =>
    if (s.read i).w ≠ none ∧ (s.read i).demand = .idle then some (s.waitReadAsync i) else none
  | .tryWait i found =>
    if (s.read i).w ≠ none ∧ (s.read i).demand = .idle ∧ s.Due i found then
      some (s.tryWaitReadAsync i found)
    else none
  | .enterDemand i p =>
    if s.criticalSubblockFirst ∧ s.criticalPageFirst ∧ (s.read i).w ≠ none ∧
        (s.read i).demand = .idle ∧ p < s.numPages then
      some (s.setDemand i (.entered p))
    else none
  | .startDemand i =>
    match (s.read i).demand with
    | .entered p => some (s.clearFetchingDemandPage i p)
    | _ => none
  | .demandLook i found =>
    match (s.read i).demand with
    | .looping p retry => if s.Due i found then some (s.demandLook i p retry found) else none
    | _ => none

end MarkedSys

end Emp
