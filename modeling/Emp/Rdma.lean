import Emp.WorkRequest

/-!
# The RDMA donor

Posting of reads and writes, the completion handlers, and the wait loops.  A loop
that waits for a state is given by the condition under which it is left and the
value it then returns; `none` stands for another turn.

A read posted on a memory-polled context has no completion of its own: the poller
looks at the last word of the page instead.

## Main definitions

* `rdmaPostRead`, `rdmaPostWrite`, `rdmaPostWorkReq` — the posts.
* `handleRdmaRead`, `handleRdmaWrite` — the completion handlers.
* `rdmaWaitRead`, `rdmaTryWaitRead`, `rdmaWaitWrite` — the waits.
-/

namespace Emp

/-- The record that `rdma_post_read` writes; `chain` says that the request is left for
a chain. -/
def postedRead (s : Dma) (w c : ℕ) (headWr : Option ℕ) (chain : Bool) : WorkRequest :=
  { s.wr w with
    wrRefc := 0
    state := .postRead
    context := c
    headWr := headWr.getD w
    entangledWrLen := if chain then 0 else 1
    ehWr := if chain then (s.wr w).ehWr else none
    chainedOps := chain
    signaled := !chain && !(s.context c).mempoll }

/-- `rdma_post_read` on context `c`.  `tail` says that the caller gathers a chain.  A
full send queue is retried in place. -/
def rdmaPostRead (s : Dma) (w c : ℕ) (headWr : Option ℕ) (tail : Bool) : Dma :=
  let chain := tail && (s.context c).chainedOps
  let posted := (s.setWr w (postedRead s w c headWr chain)).addRefc (headWr.getD w) 1
  if chain then posted else posted.addPending c 1

/-- The record that `rdma_post_write` writes. -/
def postedWrite (s : Dma) (w c : ℕ) (headWr : Option ℕ) : WorkRequest :=
  { s.wr w with
    wrRefc := 0
    state := .postWrite
    context := c
    headWr := headWr.getD w
    entangledWrLen := if (s.context c).chainedOps then 0 else 1
    chainedOps := (s.context c).chainedOps
    signaled := !(s.context c).chainedOps }

/-- `rdma_post_write` on context `c`; `full` says that `ib_post_send` answers
`-ENOMEM`.  The request that was posted, or `none` with the request freed.  Of a chain
only the head is counted. -/
def rdmaPostWrite (s : Dma) (w c : ℕ) (headWr : Option ℕ) (full : Bool) : Dma × Option ℕ :=
  let chain := (s.context c).chainedOps
  let set := s.setWr w (postedWrite s w c headWr)
  let posted := if headWr.isNone || !chain then set.addRefc (headWr.getD w) 1 else set
  if chain then (posted, some w)
  else if full then (freeWorkRequest posted w, none)
  else (posted.addPending c 1, some w)

/-- `mark_end_of_entangled_work_request`. -/
def markEndOfEntangledWorkRequest (s : Dma) (tail eh head : ℕ) (ehLen : ℤ) : Dma :=
  let s₁ := s.setWr tail { s.wr tail with signaled := true, ehWr := some eh }
  let s₂ :=
    if (s.wr eh).state = .postRead then
      s₁.setWr tail { s₁.wr tail with entangledWrLen := ehLen }
    else s₁.setWr head { s₁.wr head with entangledWrLen := ehLen }
  s₂.setWr head { s₂.wr head with ehWr := some eh }

/-- `rdma_post_work_req`; a full send queue is retried in place. -/
def rdmaPostWorkReq (s : Dma) (eh tail head : ℕ) (ehLen : ℤ) : Dma :=
  let c := (s.wr eh).context
  (markEndOfEntangledWorkRequest s tail eh head ehLen).addPending c ehLen

section Post

variable (s : Dma) (w c : ℕ) (headWr : Option ℕ) (tail : Bool)

@[simp] theorem wr_rdmaPostRead : (rdmaPostRead s w c headWr tail).wr =
    ((s.setWr w (postedRead s w c headWr (tail && (s.context c).chainedOps))).addRefc
      (headWr.getD w) 1).wr := by
  simp only [rdmaPostRead]
  split <;> rfl

theorem context_rdmaPostRead : (rdmaPostRead s w c headWr tail).context =
    if tail && (s.context c).chainedOps then s.context else (s.addPending c 1).context := by
  simp only [rdmaPostRead]
  split <;> rfl

theorem wr_rdmaPostWrite : (rdmaPostWrite s w c headWr false).1.wr =
    if headWr.isNone || !(s.context c).chainedOps then
      ((s.setWr w (postedWrite s w c headWr)).addRefc (headWr.getD w) 1).wr
    else (s.setWr w (postedWrite s w c headWr)).wr := by
  cases headWr <;> cases hc : (s.context c).chainedOps <;>
    simp [rdmaPostWrite, Dma.addPending, hc]

theorem context_rdmaPostWrite : (rdmaPostWrite s w c headWr false).1.context =
    if (s.context c).chainedOps then s.context else (s.addPending c 1).context := by
  cases headWr <;> cases hc : (s.context c).chainedOps <;>
    simp [rdmaPostWrite, Dma.addPending, Dma.addRefc, hc]

theorem mrWrLen_rdmaPostWrite :
    (rdmaPostWrite s w c headWr false).1.mrWrLen = s.mrWrLen := by
  cases headWr <;> cases hc : (s.context c).chainedOps <;>
    simp [rdmaPostWrite, Dma.addPending, Dma.addRefc, hc]

/-- A write is posted, or refused because the queue is full and freed. -/
theorem rdmaPostWrite_cases (full : Bool) :
    rdmaPostWrite s w c headWr full = ((rdmaPostWrite s w c headWr false).1, some w) ∨
      (s.context c).chainedOps = false ∧ rdmaPostWrite s w c headWr full =
        (freeWorkRequest ((s.setWr w (postedWrite s w c headWr)).addRefc (headWr.getD w) 1) w,
          none) := by
  cases hc : (s.context c).chainedOps <;> cases full <;> simp [rdmaPostWrite, hc]

/-- What marking the end of a chain leaves alone. -/
theorem markEnd_fields (tail eh head : ℕ) (ehLen : ℤ) (i : ℕ) :
    ((markEndOfEntangledWorkRequest s tail eh head ehLen).wr i).state = (s.wr i).state ∧
      ((markEndOfEntangledWorkRequest s tail eh head ehLen).wr i).headWr = (s.wr i).headWr ∧
      ((markEndOfEntangledWorkRequest s tail eh head ehLen).wr i).context = (s.wr i).context ∧
      ((markEndOfEntangledWorkRequest s tail eh head ehLen).wr i).chainedOps =
        (s.wr i).chainedOps ∧
      ((markEndOfEntangledWorkRequest s tail eh head ehLen).wr i).signaled =
        (decide (i = tail) || (s.wr i).signaled) := by
  simp only [markEndOfEntangledWorkRequest]
  by_cases ht : i = tail <;> by_cases hh : i = head <;> split <;>
    by_cases hth : head = tail <;> simp_all

/-- The chain's length goes to the tail of a read and to the head of a write. -/
theorem markEnd_entangled (tail eh head : ℕ) (ehLen : ℤ) (i : ℕ) :
    ((markEndOfEntangledWorkRequest s tail eh head ehLen).wr i).entangledWrLen =
      if i = (if (s.wr eh).state = .postRead then tail else head) then ehLen
      else (s.wr i).entangledWrLen := by
  simp only [markEndOfEntangledWorkRequest]
  by_cases ht : i = tail <;> by_cases hh : i = head <;> split <;>
    by_cases hth : head = tail <;> simp_all

theorem markEnd_ehWr (tail eh head : ℕ) (ehLen : ℤ) :
    ((markEndOfEntangledWorkRequest s tail eh head ehLen).wr head).ehWr = some eh := by
  simp [markEndOfEntangledWorkRequest]

@[simp] theorem context_markEnd (tail eh head : ℕ) (ehLen : ℤ) :
    (markEndOfEntangledWorkRequest s tail eh head ehLen).context = s.context := by
  simp only [markEndOfEntangledWorkRequest]
  split <;> rfl

end Post

/-! ## Completions -/

/-- `update_wr_state`. -/
def updateWrState (s : Dma) (w : ℕ) (next : WrState) : Dma :=
  if next = .ready then
    if (s.wr w).chainedOps then
      s.setState ((s.wr (s.wr w).headWr).ehWr.getD (s.wr w).headWr) next
    else s.setState w next
  else if next = .prFailed then s.setState w next
  else s.setState (s.wr w).headWr next

/-- The request whose state `update_wr_state` writes. -/
def outcomeCell (s : Dma) (w : ℕ) (next : WrState) : ℕ :=
  if next = .ready then
    if (s.wr w).chainedOps then (s.wr (s.wr w).headWr).ehWr.getD (s.wr w).headWr else w
  else if next = .prFailed then w
  else (s.wr w).headWr

theorem updateWrState_eq (s : Dma) (w : ℕ) (next : WrState) :
    updateWrState s w next = s.setState (outcomeCell s w next) next := by
  simp only [updateWrState, outcomeCell]
  split
  · split
    · rfl
    · rfl
  · split
    · rfl
    · rfl

/-- `handle_rdma_read`; `ok` is `wc->status == IB_WC_SUCCESS`. -/
def handleRdmaRead (s : Dma) (w : ℕ) (ok : Bool) : Dma :=
  let s := s.addPending (s.wr w).context (-(s.wr w).entangledWrLen)
  updateWrState s w (if ok then .ready else .prFailed)

/-- `handle_rdma_write`. -/
def handleRdmaWrite (s : Dma) (w : ℕ) (ok : Bool) : Dma :=
  let s :=
    if (s.wr w).signaled then
      s.addPending (s.wr w).context (-(s.wr (s.wr w).headWr).entangledWrLen)
    else s
  updateWrState s w (if ok then .ready else .pwFailed)

theorem recorded_updateWrState (s : Dma) (w : ℕ) (next : WrState) :
    s.Recorded (updateWrState s w next) := by
  rw [updateWrState_eq]
  exact Dma.Recorded.setState s _ next

theorem recorded_handleRdmaRead (s : Dma) (w : ℕ) (ok : Bool) :
    s.Recorded (handleRdmaRead s w ok) :=
  (Dma.Recorded.addPending s _ _).trans (recorded_updateWrState _ _ _)

theorem recorded_handleRdmaWrite (s : Dma) (w : ℕ) (ok : Bool) :
    s.Recorded (handleRdmaWrite s w ok) := by
  simp only [handleRdmaWrite]
  split
  · exact (Dma.Recorded.addPending s _ _).trans (recorded_updateWrState _ _ _)
  · exact recorded_updateWrState _ _ _

/-- `rdma_post_read` on a memory-polled context with many reads pending: the request
whose completion takes them off `pending`. -/
def allocSignal (s : Dma) (w m gpa c : ℕ) : Dma :=
  let s := allocWorkRequest s .rdma w m m gpa
  s.setWr w { s.wr w with context := c }

/-- `handle_rdma_read_mempoll`, for a request that stands for `n` reads. -/
def handleRdmaReadMempoll (s : Dma) (w : ℕ) (n : ℤ) : Dma :=
  freeWorkRequest (s.addPending (s.wr w).context (-n)) w

/-! ## Waits -/

/-- `WR_READY` of a request or of its chain. -/
def wrReady (s : Dma) (w : ℕ) : Bool :=
  (s.wr w).state = .ready ||
    (s.wr w).chainedOps && (match (s.wr (s.wr w).headWr).ehWr with
      | some eh => decide ((s.wr eh).state = .ready)
      | none => false)

/-- The result of `is_wr_read_ready`. -/
def isWrReadReady (s : Dma) (w : ℕ) : Bool :=
  wrReady s w ||
    (s.context (s.wr w).context).mempoll && (s.wr w).arrived = some true

/-- What `is_wr_read_ready` writes when it answers yes: a marker that was seen is kept
in the state. -/
def keepMarker (s : Dma) (w : ℕ) : Dma :=
  if wrReady s w then s else s.setState w .ready

/-- The loop of `rdma_wait_read`. -/
def rdmaWaitRead (s : Dma) (w : ℕ) : Option ℤ :=
  if isWrReadReady s w then some 0
  else if (s.wr w).state = .prFailed then some (-1)
  else none

/-- The loop of `rdma_wait_write`. -/
def rdmaWaitWrite (s : Dma) (w : ℕ) : Option ℤ :=
  if (s.wr w).state = .ready then some 0
  else if (s.wr w).state = .pwFailed then some (-1)
  else none

/-- `emp_process_cq`: the read completions that are in the queue, in order. -/
def empProcessCq (s : Dma) (cq : List (ℕ × Bool)) : Dma :=
  cq.foldl (fun s e => handleRdmaRead s e.1 e.2) s

theorem recorded_empProcessCq (s : Dma) (cq : List (ℕ × Bool)) :
    s.Recorded (empProcessCq s cq) := by
  apply Dma.Recorded.foldl
  intro s e
  exact recorded_handleRdmaRead s e.1 e.2

theorem recorded_keepMarker (s : Dma) (w : ℕ) : s.Recorded (keepMarker s w) := by
  simp only [keepMarker]
  split
  · exact Dma.Recorded.refl s
  · exact Dma.Recorded.setState s w .ready

/-- `rdma_try_wait_read`, when `emp_process_cq` would find the completions `cq`: the
state after it and the value returned. -/
def rdmaTryWaitRead (s : Dma) (w : ℕ) (cq : List (ℕ × Bool)) : Dma × ℤ :=
  if isWrReadReady s w then (keepMarker s w, 1)
  else if (s.wr w).state = .prFailed then (s, -1)
  else
    let s := empProcessCq s cq
    if isWrReadReady s w then (keepMarker s w, 1) else (s, 0)

end Emp
