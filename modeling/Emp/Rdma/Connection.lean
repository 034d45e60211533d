import Mathlib.Data.Int.Notation
import Mathlib.Data.List.Range
import Mathlib.Data.Nat.Notation
import Mathlib.Logic.Function.Basic
import Emp.Lib.Transition

/-!
# Setting up the connection to a donor

A connection has one context for each of its queues.  A context resolves the donor's
address, connects, sends a message and receives one that names the donor's memory; the
connection manager reports each step to `emp_cm_event_handler`, the completion queues
report the messages, and the thread that created the connection waits for its contexts.
All of them write `ctrl_state`.

The connection manager is known by what it documents: it reports one event of an
identifier at a time and in the order of the connection's phases, and destroys the
identifier when the handler answers with an error.

## Main definitions

* `RdmaContext`, `RdmaConn` — the records.  Contexts are named by numbers that stand for
  their addresses.
* `ConnEvent`, `RdmaConn.step` — the steps.
-/

namespace Emp

/-! The enumeration `ctrl_state`.  The handlers add one to it, so it is kept as the number that
it is. -/

abbrev contextConnecting : ℕ := 0
abbrev contextSend : ℕ := 1
abbrev contextSendComplete : ℕ := 2
abbrev contextReady : ℕ := 3
abbrev contextInvlSize : ℕ := 4
abbrev contextAddrError : ℕ := 5
abbrev contextRejected : ℕ := 6
abbrev contextDestroying : ℕ := 7

/-- `N_RDMA_QUEUES`. -/
def nRdmaQueues : ℕ := 3

/-- The message of the donor. -/
structure Message where
  addr : ℕ
  rkey : ℕ
  size : ℕ
  dpid : ℕ
  maxConns : ℕ
  deriving DecidableEq, Repr

/-- How far the connection manager is with the identifier of a context.  `established` and
`sending` are inside of the handler of that event: before the message is posted, and waiting
for it to be sent. -/
inductive CmPhase
  | resolveAddr
  | resolveRoute
  | connect
  | established
  | sending
  | up
  | destroyed
  deriving DecidableEq, Repr

/-- A message on its way. -/
inductive Transfer
  | idle
  | refused
  | posted
  | failed
  | completed
  deriving DecidableEq, Repr

/-- A context.  `phase`, `sendMsg`, `recvDone` and `scheduled` say what has happened to it:
`sendMsg` and `recvDone` to the two messages, and whether `destroy_context_work` has been
scheduled. -/
structure RdmaContext where
  live : Bool
  id : ℕ
  isConnected : ℕ
  ctrlState : ℕ
  /-- `poll_context == POLL_CONTEXT_MEMPOLL`. -/
  mempoll : Bool
  rdmaSize : ℕ
  rdmaAddr : ℕ
  rdmaRkey : ℕ
  wrLen : ℤ
  pending : ℤ
  recvMsg : Message
  phase : CmPhase
  sendMsg : Transfer
  recvDone : Transfer
  scheduled : Bool
  deriving DecidableEq, Repr

/-- A connection and the memory that its contexts are in; `created` turns of the loop of
`rdma_create_conn` are over. -/
structure RdmaConn where
  refcount : ℤ
  nContexts : ℤ
  contexts : ℕ → Option ℕ
  context : ℕ → RdmaContext
  next : ℕ
  created : ℕ
  dpid : ℕ
  maxConns : ℕ
  /-- The donor's size as it was asked for. -/
  size : ℕ
  /-- `bvma_mem_poll`. -/
  memPoll : Bool

namespace RdmaContext

variable (c : RdmaContext)

/-- What `rdma_create_context` writes, with the identifier resolving the address. -/
def create (id size : ℕ) (mempoll : Bool) : RdmaContext where
  live := true
  id := id
  isConnected := 0
  ctrlState := contextConnecting
  mempoll := mempoll
  rdmaSize := size
  rdmaAddr := 0
  rdmaRkey := 0
  wrLen := 0
  pending := 0
  recvMsg := ⟨0, 0, 0, 0, 0⟩
  phase := .resolveAddr
  sendMsg := .idle
  recvDone := .idle
  scheduled := false

/-- `post_recv_msg`. -/
def postRecvMsg (ok : Bool) : RdmaContext :=
  if ok then { c with wrLen := c.wrLen + 1, pending := c.pending + 1, recvDone := .posted }
  else { c with recvDone := .refused }

/-- `RDMA_CM_EVENT_ADDR_RESOLVED`; the three calls that can fail are `setup_context`,
`ib_post_recv` and `rdma_resolve_route`. -/
def addrResolved (setup recv route : Bool) : RdmaContext :=
  if setup then
    let c := c.postRecvMsg recv
    { c with phase := if recv && route then .resolveRoute else .destroyed }
  else { c with phase := .destroyed }

/-- `RDMA_CM_EVENT_ROUTE_RESOLVED`. -/
def routeResolved (ok : Bool) : RdmaContext :=
  { c with phase := if ok then .connect else .destroyed }

/-- `RDMA_CM_EVENT_ESTABLISHED` up to `post_send_msg`. -/
def establish : RdmaContext :=
  { c with isConnected := c.isConnected + 1, phase := .established }

/-- `post_send_msg` up to its wait for the completion.  The state is advanced before the
message is posted. -/
def postSendMsg (ok : Bool) : RdmaContext :=
  let c := { c with ctrlState := c.ctrlState + 1 }
  if ok then
    { c with wrLen := c.wrLen + 1, pending := c.pending + 1, sendMsg := .posted, phase := .sending }
  else { c with sendMsg := .refused, phase := .destroyed }

/-- The rest of `post_send_msg` and of the handler. -/
def sendReturned : RdmaContext := { c with wrLen := c.wrLen - 1, phase := .up }

/-- `handle_send_msg`. -/
def handleSendMsg (ok : Bool) : RdmaContext :=
  let c := { c with pending := c.pending - 1 }
  if ok then { c with ctrlState := c.ctrlState + 1, sendMsg := .completed }
  else { c with sendMsg := .failed }

/-- `handle_recv_msg` of a receive that failed or found a message. -/
def handleRecvMsg : Option Message → RdmaContext
  | none => { c with pending := c.pending - 1, wrLen := c.wrLen - 1, recvDone := .failed }
  | some m =>
      let c := { c with
        pending := c.pending - 1, wrLen := c.wrLen - 1, recvDone := .completed, recvMsg := m }
      if c.isConnected = 0 then c
      else if c.rdmaSize = m.size then
        { c with rdmaAddr := m.addr, rdmaRkey := m.rkey, ctrlState := c.ctrlState + 1 }
      else { c with ctrlState := contextInvlSize }

/-- `schedule_destroy_context`. -/
def scheduleDestroyContext : RdmaContext :=
  if c.isConnected = 1 then
    { c with isConnected := 0, ctrlState := contextDestroying, scheduled := true }
  else c

/-- The handler answers with an error, after it has stored one. -/
def reportError (state : ℕ) : RdmaContext :=
  { c with ctrlState := state, phase := .destroyed }

/-- `__destroy_context` waits for the queues and, unless a signal interrupts it, for the
requests. -/
def drained : Bool := (c.mempoll || decide (c.pending ≤ 0)) && decide (c.wrLen = 0)

end RdmaContext

inductive ConnEvent
  | create (alloc cmId resolve : Bool)
  | addrResolved (x : ℕ) (setup recv route : Bool)
  | routeResolved (x : ℕ) (ok : Bool)
  | established (x : ℕ)
  | postSendMsg (x : ℕ) (ok : Bool)
  | sendReturned (x : ℕ)
  | disconnected (x : ℕ)
  | addrError (x : ℕ)
  | routeError (x : ℕ)
  | rejected (x : ℕ)
  | otherEvent (x : ℕ)
  | sendDone (x : ℕ) (ok : Bool)
  | recvDone (x : ℕ) (msg : Option Message)
  | destroyContextWork (x : ℕ)
  | waitForContext (i : ℕ)
  deriving DecidableEq, Repr

namespace RdmaConn

variable (s : RdmaConn)

def setContext (x : ℕ) (c : RdmaContext) : RdmaConn :=
  { s with context := Function.update s.context x c }

/-- The first slot of `contexts` that is free, or the number of slots. -/
def freeSlot : ℕ :=
  ((List.range nRdmaQueues).find? fun i => (s.contexts i).isNone).getD nRdmaQueues

/-- `emp_kfree` of context `x`. -/
def free (x : ℕ) : RdmaConn := s.setContext x { s.context x with live := false }

/-- `poll_contexts[i]` is `POLL_CONTEXT_MEMPOLL`. -/
def pollsMemory (i : ℕ) : Bool := s.memPoll && decide (i < 2)

/-- The context that `rdma_create_context` allocates, put into its slot. -/
def addContext : RdmaConn :=
  let i := s.freeSlot
  { s with
    context := Function.update s.context s.next
      (.create i s.size (s.pollsMemory s.created))
    next := s.next + 1
    contexts :=
      if i < nRdmaQueues then Function.update s.contexts i (some s.next) else s.contexts
    nContexts := if i < nRdmaQueues then s.nContexts + 1 else s.nContexts }

/-- `rdma_create_context`; the allocation, `rdma_create_id` and `rdma_resolve_addr` can fail.
The last two leave the slot as it is. -/
def rdmaCreateContext (alloc cmId resolve : Bool) : RdmaConn :=
  if alloc then
    if cmId && resolve then s.addContext else s.addContext.free s.next
  else s

/-- A turn of the loop of `rdma_create_conn`, which does not look at the result. -/
def createContext (alloc cmId resolve : Bool) : RdmaConn :=
  { s.rdmaCreateContext alloc cmId resolve with
    refcount := s.refcount + 1
    created := s.created + 1 }

/-- A context is taken out of its slot, destroyed and freed, and its reference dropped. -/
def destroy (x : ℕ) : RdmaConn :=
  { s.free x with
    contexts := Function.update s.contexts (s.context x).id none
    nContexts := s.nContexts - 1
    refcount := s.refcount - 1 }

/-- The end of `__rdma_wait_for_context` for context `x`, by the state that it has read. -/
def rdmaWaitForContext (x : ℕ) : RdmaConn :=
  let state := (s.context x).ctrlState
  if state = contextAddrError ∨ state = contextRejected then s.destroy x else s

/-- A message that arrives on a connected context says which donor it is. -/
def recvMsg (x : ℕ) (msg : Option Message) : RdmaConn :=
  let c := s.context x
  let s := s.setContext x (c.handleRecvMsg msg)
  match msg with
  | some m =>
      if c.isConnected ≠ 0 ∧ c.rdmaSize = m.size then
        { s with dpid := m.dpid, maxConns := m.maxConns }
      else s
  | none => s

/-- An event of a context that has not been freed. -/
def onContext (x : ℕ) (p : RdmaContext → Bool) (f : RdmaContext → RdmaContext) :
    Option RdmaConn :=
  if decide (x < s.next) && (s.context x).live && p (s.context x) then
    some (s.setContext x (f (s.context x)))
  else none

/-- One step; `none` if it is not possible. -/
def step : RdmaConn → ConnEvent → Option RdmaConn
  | s, .create alloc cmId resolve =>
      if s.created < nRdmaQueues then some (s.createContext alloc cmId resolve) else none
  | s, .addrResolved x setup recv route =>
      s.onContext x (fun c => c.phase == .resolveAddr) fun c => c.addrResolved setup recv route
  | s, .routeResolved x ok =>
      s.onContext x (fun c => c.phase == .resolveRoute) fun c => c.routeResolved ok
  | s, .established x => s.onContext x (fun c => c.phase == .connect) fun c => c.establish
  | s, .postSendMsg x ok =>
      s.onContext x (fun c => c.phase == .established) fun c => c.postSendMsg ok
  | s, .sendReturned x =>
      s.onContext x (fun c => c.phase == .sending && decide (contextSendComplete ≤ c.ctrlState))
        fun c => c.sendReturned
  | s, .disconnected x =>
      s.onContext x (fun c => c.phase == .up || c.phase == .destroyed)
        fun c => c.scheduleDestroyContext
  | s, .addrError x =>
      s.onContext x (fun c => c.phase == .resolveAddr) fun c => c.reportError contextAddrError
  | s, .routeError x =>
      s.onContext x (fun c => c.phase == .resolveRoute) fun c => c.reportError contextAddrError
  | s, .rejected x =>
      s.onContext x (fun c => c.phase == .connect) fun c => c.reportError contextRejected
  | s, .otherEvent x =>
      s.onContext x (fun c => c.phase != .established && c.phase != .sending)
        fun c => { c with phase := .destroyed }
  | s, .sendDone x ok =>
      s.onContext x (fun c => c.sendMsg == .posted) fun c => c.handleSendMsg ok
  | s, .recvDone x msg =>
      if decide (x < s.next) && (s.context x).live && (s.context x).recvDone == .posted then
        some (s.recvMsg x msg)
      else none
  | s, .destroyContextWork x =>
      if decide (x < s.next) && (s.context x).live && (s.context x).scheduled &&
          (s.context x).drained then
        some (s.destroy x)
      else none
  | s, .waitForContext i =>
      match s.contexts i with
      | some x =>
          if contextReady ≤ (s.context x).ctrlState then some (s.rdmaWaitForContext x) else none
      | none => none

/-- A connection without contexts, to a donor that was asked for `size`. -/
def fresh (size : ℕ) (memPoll : Bool) : RdmaConn where
  refcount := 0
  nContexts := 0
  contexts _ := none
  context _ := { RdmaContext.create 0 size false with live := false }
  next := 0
  created := 0
  dpid := 0
  maxConns := 0
  size := size
  memPoll := memPoll

/-- The connection that `rdma_create_conn` starts with. -/
def Start (s : RdmaConn) : Prop := ∃ size memPoll, s = fresh size memPoll

end RdmaConn

end Emp
