import Emp.Lib.Transition
import Mathlib.Data.Int.Notation
import Mathlib.Data.List.Nodup
import Mathlib.Data.List.Perm.Basic
import Mathlib.Data.List.ReduceOption
import Mathlib.Logic.Function.Basic

/-!
# The connections of the donor daemon

The daemon serves up to `max_conns` connections, each in a slot of `conns`.  One loop takes the
events of the current event channel; a handler that does not return zero ends it, the listener and
the channel are destroyed, and the daemon listens on a new one.  Ids belong to the channel on which
they came, so a connection whose channel is gone gets no more events.

What the libraries decide (which calls fail, which pointers are handed out) is part of the event.

## Main definitions and results

* `Vmd` — the state of the daemon.
* `buildConnection`, `onEvent`, `Vmd.step` — the handlers and the loop.
* `Vmd.Consistent` — slots, count and live connections agree, and all connections are served.
* `Vmd.consistent_of_reach` — in which runs that holds.
-/

namespace Emp

open Transition

/-- `SEND_INIT`. -/
def sendInit : ℕ := 0

/-- What a connection has got: its `conn_t`, the region for transfers, the queue pair and the
registrations of both message buffers. -/
structure VmdRes where
  conn : Bool
  rdmaMr : Bool
  qp : Bool
  sendMr : Bool
  recvMr : Bool
  deriving DecidableEq, Repr

/-- Nothing, and everything. -/
def VmdRes.none : VmdRes := ⟨false, false, false, false, false⟩

def VmdRes.full : VmdRes := ⟨true, true, true, true, true⟩

/-- The state of the daemon: the slots `conns`, the count `n_conns`, what each `conn_t` holds, its
id and its send state, the `conn_t` of an id and the channel on which the id came, and the current
channel.  `live` are the ids that have been accepted and not disconnected, `seen` all ids so far. -/
structure Vmd where
  maxConns : ℕ
  conns : List (Option ℕ)
  nConns : ℤ
  res : ℕ → VmdRes
  connId : ℕ → ℕ
  sendState : ℕ → ℕ
  context : ℕ → ℕ
  chan : ℕ → ℕ
  channel : ℕ
  live : List ℕ
  seen : List ℕ

/-- The calls that may fail while a connection request is handled. -/
inductive VmdCall
  /-- the id has another device context -/
  | context
  | allocateConn
  | registerMemory
  | createQp
  | regSendMsg
  | regRecvMsg
  | postReceives
  | accept
  deriving DecidableEq, Repr

/-- What the loop gets from the channel, and a completion that the polling thread sees. -/
inductive VmdEvent
  /-- a request with a new id, for which `malloc` would give `conn` -/
  | connectRequest (id conn : ℕ) (fails : VmdCall → Bool)
  | established (id : ℕ) (posted : Bool)
  | disconnected (id : ℕ)
  /-- any other event -/
  | unknown
  | sendCompleted (conn : ℕ)

namespace Vmd

/-! ## Slots -/

/-- The loop of `allocate_conn_id`: the first free slot is taken. -/
def putFirst (conn : ℕ) : List (Option ℕ) → List (Option ℕ)
  | [] => []
  | none :: conns => some conn :: conns
  | some c :: conns => some c :: putFirst conn conns

/-- The loop of `free_conn_id`: the first slot of the connection is cleared. -/
def clearFirst (conn : ℕ) : List (Option ℕ) → List (Option ℕ)
  | [] => []
  | none :: conns => none :: clearFirst conn conns
  | some c :: conns => if c ≠ conn then some c :: clearFirst conn conns else none :: conns

attribute [grind =] putFirst clearFirst

/-- `allocate_conn_id`; `none` is `-1`. -/
def allocateConnId (s : Vmd) (conn : ℕ) : Option Vmd :=
  if s.nConns ≥ s.maxConns then none
  else some { s with conns := putFirst conn s.conns, nConns := s.nConns + 1 }

/-- `free_conn_id`. -/
def freeConnId (s : Vmd) (conn : ℕ) : Vmd :=
  { s with
    conns := clearFirst conn s.conns
    nConns := if some conn ∈ s.conns then s.nConns - 1 else s.nConns }

/-! ## Building and destroying a connection -/

/-- One thing that a connection has got changes. -/
def setRes (s : Vmd) (conn : ℕ) (f : VmdRes → VmdRes) : Vmd :=
  { s with res := Function.update s.res conn (f (s.res conn)) }

/-- `allocate_conn`, when it succeeds. -/
def allocateConn (s : Vmd) (conn : ℕ) : Vmd :=
  { s.setRes conn fun r => { r with conn := true } with
    sendState := Function.update s.sendState conn 0 }

/-- `free_conn`. -/
def freeConn (s : Vmd) (conn : ℕ) : Vmd := s.setRes conn fun r => { r with conn := false }

/-- `register_memory`, when it succeeds. -/
def registerMemory (s : Vmd) (conn : ℕ) : Vmd := s.setRes conn fun r => { r with rdmaMr := true }

/-- `unregister_memory`. -/
def unregisterMemory (s : Vmd) (conn : ℕ) : Vmd := s.setRes conn fun r => { r with rdmaMr := false }

/-- `rdma_create_qp`, when it succeeds, and what `build_connection` sets behind it. -/
def createQp (s : Vmd) (id conn : ℕ) : Vmd :=
  { s.setRes conn fun r => { r with qp := true } with
    context := Function.update s.context id conn
    connId := Function.update s.connId conn id
    sendState := Function.update s.sendState conn sendInit }

/-- `rdma_destroy_qp`. -/
def destroyQp (s : Vmd) (conn : ℕ) : Vmd := s.setRes conn fun r => { r with qp := false }

/-- `register_msg_memory`, when it succeeds; otherwise it keeps neither of the two. -/
def registerMsgMemory (s : Vmd) (conn : ℕ) : Vmd :=
  s.setRes conn fun r => { r with sendMr := true, recvMr := true }

/-- `unregister_msg_memory`. -/
def unregisterMsgMemory (s : Vmd) (conn : ℕ) : Vmd :=
  s.setRes conn fun r => { r with sendMr := false, recvMr := false }

/-- `build_connection`: the state, and whether it succeeded. -/
def buildConnection (s : Vmd) (id conn : ℕ) (fails : VmdCall → Bool) : Vmd × Bool :=
  if fails .context then (s, false)
  else if fails .allocateConn then (s, false)
  else
    let s₁ := s.allocateConn conn
    match s₁.allocateConnId conn with
    | none => (s₁.freeConn conn, false)
    | some s₂ =>
        if fails .registerMemory then ((s₂.freeConnId conn).freeConn conn, false)
        else
          let s₃ := s₂.registerMemory conn
          if fails .createQp then
            (((s₃.unregisterMemory conn).freeConnId conn).freeConn conn, false)
          else
            let s₄ := s₃.createQp id conn
            if fails .regSendMsg || fails .regRecvMsg then
              ((((s₄.destroyQp conn).unregisterMemory conn).freeConnId conn).freeConn conn, false)
            else
              let s₅ := s₄.registerMsgMemory conn
              if fails .postReceives then
                (((((s₅.unregisterMsgMemory conn).destroyQp conn).unregisterMemory conn).freeConnId
                  conn).freeConn conn, false)
              else (s₅, true)

/-- `destroy_connection`. -/
def destroyConnection (s : Vmd) (conn : ℕ) : Vmd :=
  ((((s.destroyQp conn).unregisterMsgMemory conn).unregisterMemory conn).freeConnId conn).freeConn
    conn

/-! ## The handlers -/

/-- `on_connect_request`: the state, and whether zero is returned.  Whatever `rdma_accept` says,
the connection keeps what it has. -/
def onConnectRequest (s : Vmd) (id conn : ℕ) (fails : VmdCall → Bool) : Vmd × Bool :=
  let built := s.buildConnection id conn fails
  if !built.2 then (built.1, false)
  else if fails .accept then (built.1, false)
  else ({ built.1 with live := id :: built.1.live }, true)

/-- `on_connection`, with `send_mr`. -/
def onConnection (s : Vmd) (conn : ℕ) (posted : Bool) : Vmd × Bool :=
  ({ s with sendState := Function.update s.sendState conn (s.sendState conn + 1) },
    s.sendState conn = sendInit && posted)

/-- `on_disconnect`. -/
def onDisconnect (s : Vmd) (id : ℕ) : Vmd × Bool :=
  let s' := s.destroyConnection (s.context id)
  ({ s' with live := s'.live.erase id }, !decide (s'.nConns = 0))

/-- What follows a handler that has not returned zero: the listener and the channel are destroyed,
and the daemon listens on a new one. -/
def restart (s : Vmd) : Vmd := { s with channel := s.channel + 1 }

/-- The end of an iteration of the event loop. -/
def finish (r : Vmd × Bool) : Vmd := if r.2 then r.1 else r.1.restart

/-- One event.  Events come for ids of the current channel only. -/
def step (s : Vmd) : VmdEvent → Option Vmd
  | .connectRequest id conn fails =>
      if id ∉ s.seen ∧ (s.res conn).conn = false then
        some (finish ({ s with
          chan := Function.update s.chan id s.channel
          seen := id :: s.seen }.onConnectRequest id conn fails))
      else none
  | .established id posted =>
      if id ∈ s.live ∧ s.chan id = s.channel then
        some (finish (s.onConnection (s.context id) posted))
      else none
  | .disconnected id =>
      if id ∈ s.live ∧ s.chan id = s.channel then some (finish (s.onDisconnect id)) else none
  | .unknown => some s.restart
  | .sendCompleted conn =>
      if (s.res conn).conn then
        some { s with sendState := Function.update s.sendState conn (s.sendState conn + 1) }
      else none

/-- The daemon listens for the first time. -/
structure Started (s : Vmd) : Prop where
  conns : s.conns = List.replicate s.maxConns none
  nConns : s.nConns = 0
  res : ∀ p, s.res p = .none
  live : s.live = []

/-! ## What should hold -/

/-- The connections that have a slot. -/
def occupied (s : Vmd) : List ℕ := s.conns.reduceOption

/-- The count is the number of occupied slots and that of the live connections; each live
connection has one slot, and each slot a live connection; a connection holds everything, and all
else nothing; and every live connection gets its events. -/
structure Consistent (s : Vmd) : Prop where
  slots : s.nConns = s.occupied.length
  lives : s.nConns = s.live.length
  one : ∀ id ∈ s.live, (s.occupied.map s.connId).count id = 1
  alive : ∀ p ∈ s.occupied, s.connId p ∈ s.live
  held : ∀ p, s.res p = if p ∈ s.occupied then .full else .none
  served : ∀ id ∈ s.live, s.chan id = s.channel

/-- A request is accepted, or it fails before the accept while no slot is occupied; the region is
sent to a new connection; and other events come while no slot is occupied. -/
def Safe (s : Vmd) : VmdEvent → Prop
  | .connectRequest _ _ fails =>
      (s.nConns < s.maxConns ∧ ∀ c, fails c = false) ∨
      (s.occupied = [] ∧ (s.maxConns = 0 ∨ ∃ c, c ≠ .accept ∧ fails c = true))
  | .established id posted => s.sendState (s.context id) = sendInit ∧ posted = true
  | .unknown => s.occupied = []
  | _ => True

/-! ## Slots, one by one -/

section Slots

variable {p : ℕ} {conns : List (Option ℕ)}

theorem length_putFirst : (putFirst p conns).length = conns.length := by
  induction conns with
  | nil => rfl
  | cons c conns ih =>
      cases c with
      | none => rfl
      | some c => simp [putFirst, ih]

theorem length_clearFirst : (clearFirst p conns).length = conns.length := by
  induction conns with
  | nil => rfl
  | cons c conns ih =>
      cases c with
      | none => simp [clearFirst, ih]
      | some c =>
          rw [clearFirst]
          split_ifs <;> simp [ih]

/-- Where a slot is free, the connection gets one. -/
theorem reduceOption_putFirst (h : conns.reduceOption.length < conns.length) :
    (putFirst p conns).reduceOption.Perm (p :: conns.reduceOption) := by
  induction conns with
  | nil => simp at h
  | cons c conns ih =>
      cases c with
      | none => simp [putFirst, List.reduceOption_cons_of_some, List.reduceOption_cons_of_none]
      | some c =>
          simp only [List.reduceOption_cons_of_some, List.length_cons] at h
          simp only [putFirst, List.reduceOption_cons_of_some]
          exact ((ih (by omega)).cons c).trans (List.Perm.swap p c _)

/-- Giving the slot back undoes it. -/
theorem clearFirst_putFirst (h : conns.reduceOption.length < conns.length) (hp : some p ∉ conns) :
    clearFirst p (putFirst p conns) = conns := by
  induction conns with
  | nil => simp at h
  | cons c conns ih =>
      cases c with
      | none => simp [putFirst, clearFirst]
      | some c =>
          simp only [List.reduceOption_cons_of_some, List.length_cons] at h
          simp only [List.mem_cons, Option.some.injEq, not_or] at hp
          rw [putFirst, clearFirst, if_pos (Ne.symm hp.1), ih (by omega) hp.2]

theorem some_mem_putFirst (h : conns.reduceOption.length < conns.length) :
    some p ∈ putFirst p conns := by
  have hmem : p ∈ (putFirst p conns).reduceOption :=
    (reduceOption_putFirst h).mem_iff.mpr List.mem_cons_self
  exact List.reduceOption_mem_iff.mp hmem

theorem reduceOption_clearFirst (hp : some p ∈ conns) :
    (p :: (clearFirst p conns).reduceOption).Perm conns.reduceOption := by
  induction conns with
  | nil => simp at hp
  | cons c conns ih =>
      cases c with
      | none =>
          simp only [clearFirst, List.reduceOption_cons_of_none]
          exact ih (by simpa using hp)
      | some c =>
          by_cases hc : c = p
          · subst hc
            simp [clearFirst, List.reduceOption_cons_of_some, List.reduceOption_cons_of_none]
          · have hp' : some p ∈ conns := by
              simpa [Ne.symm hc] using hp
            simp only [clearFirst, if_pos hc, List.reduceOption_cons_of_some]
            exact (List.Perm.swap c p _).trans ((ih hp').cons c)

end Slots

/-! ## A connection is built, or not -/

/-- What a request does not touch. -/
structure Beside (s s' : Vmd) (id conn : ℕ) : Prop where
  maxConns : s'.maxConns = s.maxConns
  res : ∀ p ≠ conn, s'.res p = s.res p
  connId : ∀ p ≠ conn, s'.connId p = s.connId p
  context : ∀ i ≠ id, s'.context i = s.context i
  chan : s'.chan = s.chan
  channel : s'.channel = s.channel
  live : s'.live = s.live
  seen : s'.seen = s.seen

/-- Nothing is left of a request that has failed. -/
structure Unbuilt (s s' : Vmd) (id conn : ℕ) : Prop extends Beside s s' id conn where
  conns : s'.conns = s.conns
  nConns : s'.nConns = s.nConns
  nothing : s'.res conn = .none

/-- The connection has its slot. -/
structure Slotted (s s' : Vmd) (id conn : ℕ) : Prop extends Beside s s' id conn where
  conns : s'.conns = putFirst conn s.conns
  nConns : s'.nConns = s.nConns + 1

/-- The connection has everything. -/
structure Built (s s' : Vmd) (id conn : ℕ) : Prop extends Slotted s s' id conn where
  everything : s'.res conn = .full
  hasId : s'.connId conn = id
  hasContext : s'.context id = conn

section Build

variable {s s' : Vmd} {id conn p : ℕ} {fails : VmdCall → Bool} {f : VmdRes → VmdRes}

theorem Beside.refl (s : Vmd) (id conn : ℕ) : Beside s s id conn :=
  ⟨rfl, fun _ _ => rfl, fun _ _ => rfl, fun _ _ => rfl, rfl, rfl, rfl, rfl⟩

theorem Beside.setRes (h : Beside s s' id conn) : Beside s (s'.setRes conn f) id conn := by
  refine { h with res := fun p hp => ?_ }
  exact (Function.update_of_ne hp ..).trans (h.res p hp)

theorem Slotted.setRes (h : Slotted s s' id conn) : Slotted s (s'.setRes conn f) id conn :=
  ⟨h.toBeside.setRes, h.conns, h.nConns⟩

theorem Slotted.createQp (h : Slotted s s' id conn) : Slotted s (s'.createQp id conn) id conn := by
  have hres : Beside s (s'.setRes conn fun r => { r with qp := true }) id conn := h.toBeside.setRes
  refine ⟨{ hres with connId := fun p hp => ?_, context := fun i hi => ?_ }, h.conns, h.nConns⟩
  · exact (Function.update_of_ne hp ..).trans (h.connId p hp)
  · exact (Function.update_of_ne hi ..).trans (h.context i hi)

@[simp] theorem res_setRes (s : Vmd) (conn : ℕ) (f : VmdRes → VmdRes) :
    (s.setRes conn f).res conn = f (s.res conn) := Function.update_self ..

@[simp] theorem res_createQp (s : Vmd) (id conn : ℕ) :
    (s.createQp id conn).res conn = { s.res conn with qp := true } :=
  res_setRes s conn fun r => { r with qp := true }

/-- Giving back the slot and the `conn_t` leaves nothing, if these two are what was left. -/
theorem Slotted.unbuilt (h : Slotted s s' id conn)
    (hlt : s.conns.reduceOption.length < s.conns.length) (hno : some conn ∉ s.conns)
    (hres : s'.res conn = { VmdRes.none with conn := true }) :
    Unbuilt s ((s'.freeConnId conn).freeConn conn) id conn := by
  have hfree : Beside s (s'.freeConnId conn) id conn := { h.toBeside with }
  have hmem : some conn ∈ s'.conns := h.conns ▸ some_mem_putFirst hlt
  refine ⟨hfree.setRes, ?_, ?_, ?_⟩
  · exact (congrArg (clearFirst conn) h.conns).trans (clearFirst_putFirst hlt hno)
  · have hn : (s'.freeConnId conn).nConns = s'.nConns - 1 := if_pos hmem
    have hsame : ((s'.freeConnId conn).freeConn conn).nConns = (s'.freeConnId conn).nConns := rfl
    rw [hsame, hn, h.nConns]
    omega
  · rw [freeConn, res_setRes]
    exact congrArg (fun r : VmdRes => { r with conn := false }) hres

/-- Every call but the accept succeeds, and there is a slot. -/
def Buildable (s : Vmd) (fails : VmdCall → Bool) : Prop :=
  s.nConns < s.maxConns ∧ ∀ c, c ≠ .accept → fails c = false

/-- Either everything is built, or nothing is left. -/
theorem buildConnection_spec (id : ℕ) (fails : VmdCall → Bool) (hsize : s.conns.length = s.maxConns)
    (hcount : s.nConns = s.occupied.length) (hconn : conn ∉ s.occupied)
    (hres : s.res conn = .none) :
    ((s.buildConnection id conn fails).2 = false ∧ ¬ s.Buildable fails ∧
      Unbuilt s (s.buildConnection id conn fails).1 id conn) ∨
    ((s.buildConnection id conn fails).2 = true ∧ s.Buildable fails ∧
      Built s (s.buildConnection id conn fails).1 id conn) := by
  have hno : some conn ∉ s.conns := fun h => hconn (List.reduceOption_mem_iff.mpr h)
  have hfail : ∀ {c}, c ≠ .accept → fails c = true → ¬ s.Buildable fails := fun hc h hb =>
    absurd ((hb.2 _ hc).symm.trans h) Bool.false_ne_true
  have hmade : Beside s (s.setRes conn fun r => { r with conn := true }) id conn :=
    (Beside.refl s id conn).setRes
  have hfirst : Beside s (s.allocateConn conn) id conn := { hmade with }
  have hres₁ : (s.allocateConn conn).res conn = { VmdRes.none with conn := true } := by
    rw [← hres]
    exact res_setRes s conn fun r => { r with conn := true }
  rw [buildConnection]
  by_cases hctx : fails .context = true
  · rw [if_pos hctx]
    exact .inl ⟨rfl, hfail (by simp) hctx, .refl s id conn, rfl, rfl, hres⟩
  rw [if_neg hctx]
  by_cases hmalloc : fails .allocateConn = true
  · rw [if_pos hmalloc]
    exact .inl ⟨rfl, hfail (by simp) hmalloc, .refl s id conn, rfl, rfl, hres⟩
  rw [if_neg hmalloc]
  by_cases hfull : s.nConns ≥ s.maxConns
  · have hnone : (s.allocateConn conn).allocateConnId conn = none := if_pos hfull
    simp only [hnone]
    refine .inl ⟨trivial, fun hb => absurd hb.1 (by omega), hfirst.setRes, rfl, rfl, ?_⟩
    rw [freeConn, res_setRes, hres₁]
    rfl
  have hlt : s.conns.reduceOption.length < s.conns.length := by
    rw [occupied] at hcount
    omega
  obtain ⟨s₂, hs₂, hslot, hres₂⟩ : ∃ s₂, (s.allocateConn conn).allocateConnId conn = some s₂ ∧
      Slotted s s₂ id conn ∧ s₂.res conn = { VmdRes.none with conn := true } :=
    ⟨_, if_neg hfull, ⟨{ hfirst with }, rfl, rfl⟩, hres₁⟩
  have hslot₃ : Slotted s (s₂.registerMemory conn) id conn := hslot.setRes
  have hslot₄ : Slotted s ((s₂.registerMemory conn).createQp id conn) id conn := hslot₃.createQp
  have hslot₅ : Slotted s (((s₂.registerMemory conn).createQp id conn).registerMsgMemory conn) id
      conn := hslot₄.setRes
  have hres₃ : (s₂.registerMemory conn).res conn =
      { VmdRes.none with conn := true, rdmaMr := true } := by
    rw [registerMemory, res_setRes, hres₂]
  have hres₄ : ((s₂.registerMemory conn).createQp id conn).res conn =
      { VmdRes.none with conn := true, rdmaMr := true, qp := true } := by
    rw [res_createQp, hres₃]
  have hres₅ : (((s₂.registerMemory conn).createQp id conn).registerMsgMemory conn).res conn =
      .full := by
    rw [registerMsgMemory, res_setRes, hres₄]
    rfl
  simp only [hs₂]
  by_cases hreg : fails .registerMemory = true
  · rw [if_pos hreg]
    exact .inl ⟨rfl, hfail (by simp) hreg, hslot.unbuilt hlt hno hres₂⟩
  rw [if_neg hreg]
  by_cases hqp : fails .createQp = true
  · rw [if_pos hqp]
    refine .inl ⟨rfl, hfail (by simp) hqp, hslot₃.setRes.unbuilt hlt hno ?_⟩
    rw [res_setRes, hres₃]
    rfl
  rw [if_neg hqp]
  by_cases hmsg : (fails .regSendMsg || fails .regRecvMsg) = true
  · rw [if_pos hmsg]
    refine .inl ⟨rfl, ?_, hslot₄.setRes.setRes.unbuilt hlt hno ?_⟩
    · rcases Bool.or_eq_true_iff.mp hmsg with h | h
      · exact hfail (by simp) h
      · exact hfail (by simp) h
    · rw [res_setRes, res_setRes, hres₄]
      rfl
  rw [if_neg hmsg]
  by_cases hpost : fails .postReceives = true
  · rw [if_pos hpost]
    refine .inl ⟨rfl, hfail (by simp) hpost,
      hslot₅.setRes.setRes.setRes.unbuilt hlt hno ?_⟩
    rw [res_setRes, res_setRes, res_setRes, hres₅]
    rfl
  rw [if_neg hpost]
  refine .inr ⟨rfl, ⟨by omega, fun c hc => ?_⟩, hslot₅, hres₅, ?_, ?_⟩
  · simp only [Bool.or_eq_true, not_or, Bool.not_eq_true] at hctx hmalloc hreg hqp hmsg hpost
    cases c with
    | context => exact hctx
    | allocateConn => exact hmalloc
    | registerMemory => exact hreg
    | createQp => exact hqp
    | regSendMsg => exact hmsg.1
    | regRecvMsg => exact hmsg.2
    | postReceives => exact hpost
    | accept => exact absurd rfl hc
  · exact Function.update_self ..
  · exact Function.update_self ..

end Build

/-! ## The invariant -/

/-- The slots and the live connections agree. -/
structure Inv (s : Vmd) : Prop where
  size : s.conns.length = s.maxConns
  count : s.nConns = s.occupied.length
  ids : (s.occupied.map s.connId).Perm s.live
  distinct : s.live.Nodup
  held : ∀ p, s.res p = if p ∈ s.occupied then .full else .none
  context : ∀ p ∈ s.occupied, s.context (s.connId p) = p
  served : ∀ id ∈ s.live, s.chan id = s.channel
  seen : ∀ id ∈ s.live, id ∈ s.seen

section Invariant

variable {s s' : Vmd} {id conn p : ℕ} {fails : VmdCall → Bool} {posted : Bool}
  {e : VmdEvent}

theorem Inv.nodup (h : s.Inv) : s.occupied.Nodup :=
  List.Nodup.of_map s.connId (h.ids.nodup_iff.mpr h.distinct)

theorem Inv.alive (h : s.Inv) (hp : p ∈ s.occupied) : s.connId p ∈ s.live :=
  h.ids.mem_iff.mp (List.mem_map_of_mem hp)

theorem Inv.context_mem (h : s.Inv) (hid : id ∈ s.live) :
    s.context id ∈ s.occupied ∧ s.connId (s.context id) = id := by
  obtain ⟨p, hp, rfl⟩ := List.mem_map.mp (h.ids.mem_iff.mpr hid)
  rw [h.context p hp]
  exact ⟨hp, rfl⟩

/-- The invariant says what it should. -/
theorem Inv.consistent (h : s.Inv) : s.Consistent := by
  refine ⟨h.count, ?_, fun id hid => ?_, fun p hp => h.alive hp, h.held, h.served⟩
  · rw [h.count, ← h.ids.length_eq, List.length_map]
  · rw [h.ids.count_eq]
    exact List.count_eq_one_of_mem h.distinct hid

theorem inv_of_started (h : s.Started) : s.Inv := by
  have hocc : s.occupied = [] := by
    rw [occupied, h.conns, List.reduceOption_replicate_none]
  refine ⟨?_, ?_, ?_, ?_, ?_, ?_, ?_, ?_⟩
  · rw [h.conns, List.length_replicate]
  · rw [hocc, h.nConns]
    rfl
  · rw [hocc, h.live]
    exact List.Perm.nil
  · simp [h.live]
  · simp [hocc, h.res]
  · simp [hocc]
  · simp [h.live]
  · simp [h.live]

theorem Inv.not_occupied (h : s.Inv) (hp : (s.res p).conn = false) :
    p ∉ s.occupied ∧ s.res p = .none := by
  have hheld := h.held p
  split_ifs at hheld with hmem
  · rw [hheld] at hp
    exact absurd hp (by decide)
  · exact ⟨hmem, hheld⟩

/-- A request that has failed leaves the connections as they were. -/
theorem Inv.unbuilt (h : s.Inv) (hconn : conn ∉ s.occupied) (hid : id ∉ s.live)
    (hu : Unbuilt s s' id conn) : s'.Inv := by
  have hocc : s'.occupied = s.occupied := congrArg List.reduceOption hu.conns
  have hne : ∀ {p}, p ∈ s.occupied → p ≠ conn := fun hp heq => hconn (heq ▸ hp)
  have hmap : s'.occupied.map s'.connId = s.occupied.map s.connId := by
    rw [hocc]
    exact List.map_congr_left fun p hp => hu.connId p (hne hp)
  refine ⟨?_, ?_, ?_, ?_, fun p => ?_, fun p hp => ?_, ?_, ?_⟩
  · rw [hu.conns, hu.maxConns, h.size]
  · rw [hu.nConns, hocc, h.count]
  · rw [hmap, hu.live]
    exact h.ids
  · rw [hu.live]
    exact h.distinct
  · rw [hocc]
    by_cases hp : p = conn
    · rw [hp, hu.nothing, if_neg hconn]
    · rw [hu.res p hp, h.held]
  · rw [hocc] at hp
    have hlive : s.connId p ≠ id := fun heq => hid (heq ▸ h.alive hp)
    rw [hu.connId p (hne hp), hu.context _ hlive, h.context p hp]
  · rw [hu.live, hu.chan, hu.channel]
    exact h.served
  · rw [hu.live, hu.seen]
    exact h.seen

/-- The connection that has been built has the slot that was free. -/
theorem Inv.occupied_built (h : s.Inv) (hlt : s.nConns < s.maxConns) (hb : Slotted s s' id conn) :
    s'.occupied.Perm (conn :: s.occupied) := by
  rw [occupied, hb.conns]
  refine reduceOption_putFirst ?_
  have hcount := h.count
  have hsize := h.size
  rw [occupied] at hcount
  omega

/-- An accepted request. -/
theorem Inv.built (h : s.Inv) (hconn : conn ∉ s.occupied) (hid : id ∉ s.live)
    (hseen : id ∈ s.seen) (hchan : s.chan id = s.channel) (hlt : s.nConns < s.maxConns)
    (hb : Built s s' id conn) : Inv { s' with live := id :: s'.live } := by
  have hocc := h.occupied_built hlt hb.toSlotted
  have hne : ∀ {p}, p ∈ s.occupied → p ≠ conn := fun hp heq => hconn (heq ▸ hp)
  have hlen := hocc.length_eq
  refine ⟨?_, ?_, ?_, ?_, fun p => ?_, fun p hp => ?_, fun i hi => ?_, fun i hi => ?_⟩
  · exact (congrArg List.length hb.conns).trans
      (length_putFirst.trans (h.size.trans hb.maxConns.symm))
  · have hn := hb.nConns
    have hsame : occupied { s' with live := id :: s'.live } = s'.occupied := rfl
    rw [h.count] at hn
    rw [hsame, hlen, List.length_cons]
    exact hn
  · refine (hocc.map s'.connId).trans ?_
    rw [List.map_cons, hb.hasId, hb.live]
    refine List.Perm.cons id (?_ : (s.occupied.map s'.connId).Perm s.live)
    rw [List.map_congr_left fun p hp => hb.connId p (hne hp)]
    exact h.ids
  · rw [hb.live]
    exact List.nodup_cons.mpr ⟨hid, h.distinct⟩
  · have hmem : p ∈ occupied { s' with live := id :: s'.live } ↔ p = conn ∨ p ∈ s.occupied :=
      hocc.mem_iff.trans List.mem_cons
    simp only [hmem]
    by_cases hp : p = conn
    · rw [hp, hb.everything, if_pos (.inl rfl)]
    · rw [hb.res p hp, h.held]
      simp [hp]
  · rcases List.mem_cons.mp (hocc.mem_iff.mp hp) with rfl | hp
    · exact (congrArg s'.context hb.hasId).trans hb.hasContext
    · have hlive : s.connId p ≠ id := fun heq => hid (heq ▸ h.alive hp)
      simp only [hb.connId p (hne hp), hb.context _ hlive, h.context p hp]
  · simp only [hb.live, List.mem_cons] at hi
    simp only [hb.chan, hb.channel]
    rcases hi with rfl | hi
    · exact hchan
    · exact h.served i hi
  · simp only [hb.live, List.mem_cons] at hi
    simp only [hb.seen]
    rcases hi with rfl | hi
    · exact hseen
    · exact h.seen i hi

/-- What is left when a connection is destroyed. -/
theorem Inv.destroyed (h : s.Inv) (hid : id ∈ s.live) :
    Inv { s.destroyConnection (s.context id) with
      live := (s.destroyConnection (s.context id)).live.erase id } := by
  obtain ⟨hmem, hback⟩ := h.context_mem hid
  generalize s.context id = conn at hmem hback
  have hslot : some conn ∈ s.conns := List.reduceOption_mem_iff.mp hmem
  have hocc : (conn :: (s.destroyConnection conn).occupied).Perm s.occupied :=
    reduceOption_clearFirst hslot
  have hnd := List.nodup_cons.mp (hocc.nodup_iff.mpr h.nodup)
  have hn : (s.destroyConnection conn).nConns = s.nConns - 1 := if_pos hslot
  have hne : ∀ {p}, p ∈ (s.destroyConnection conn).occupied → p ≠ conn := fun hp heq =>
    hnd.1 (heq ▸ hp)
  have hold : ∀ {p}, p ∈ (s.destroyConnection conn).occupied → p ∈ s.occupied := fun hp =>
    hocc.mem_iff.mp (List.mem_cons_of_mem conn hp)
  have hres : (s.destroyConnection conn).res conn = .none := by
    have hfull := h.held conn
    rw [if_pos hmem] at hfull
    simp [destroyConnection, freeConn, freeConnId, unregisterMemory, unregisterMsgMemory, destroyQp,
      setRes, hfull, VmdRes.full, VmdRes.none]
  have hother : ∀ p ≠ conn, (s.destroyConnection conn).res p = s.res p := by
    intro p hp
    simp [destroyConnection, freeConn, freeConnId, unregisterMemory, unregisterMsgMemory, destroyQp,
      setRes, hp]
  have hlen := hocc.length_eq
  refine ⟨length_clearFirst.trans h.size, ?_, ?_, h.distinct.erase id, fun p => ?_, fun p hp => ?_,
    fun i hi => h.served i (List.mem_of_mem_erase hi),
    fun i hi => h.seen i (List.mem_of_mem_erase hi)⟩
  · have hsame : occupied { s.destroyConnection conn with
        live := (s.destroyConnection conn).live.erase id } =
        (s.destroyConnection conn).occupied := rfl
    have hcount := h.count
    rw [List.length_cons] at hlen
    rw [hsame]
    exact hn.trans (by omega)
  · have hperm : (id :: (s.destroyConnection conn).occupied.map s.connId).Perm
        (id :: s.live.erase id) := by
      have hmap := hocc.map s.connId
      rw [List.map_cons, hback] at hmap
      exact (hmap.trans h.ids).trans (List.perm_cons_erase hid)
    exact (List.perm_cons id).mp hperm
  · by_cases hp : p = conn
    · refine Eq.trans ?_ (if_neg fun hmem => hne hmem hp).symm
      exact hp ▸ hres
    · refine (hother p hp).trans ((h.held p).trans ?_)
      have hiff : p ∈ s.occupied ↔ p ∈ (s.destroyConnection conn).occupied := by
        rw [← hocc.mem_iff, List.mem_cons]
        exact or_iff_right hp
      simp only [hiff]
      rfl
  · exact h.context p (hold hp)

/-- A new channel is no harm where no connection lives. -/
theorem Inv.restart (h : s.Inv) (hocc : s.occupied = []) : s.restart.Inv := by
  have hlive : s.live = [] := by
    have hlen := h.ids.length_eq
    rw [hocc] at hlen
    exact List.length_eq_zero_iff.mp hlen.symm
  refine ⟨h.size, h.count, h.ids, h.distinct, h.held, h.context, fun id hid => ?_, h.seen⟩
  have hid' : id ∈ s.live := hid
  rw [hlive] at hid'
  exact absurd hid' List.not_mem_nil

/-- A connection whose channel is gone is not served any more. -/
theorem not_consistent_restart (hid : id ∈ s.live) (hchan : s.chan id = s.channel) :
    ¬ s.restart.Consistent := by
  intro h
  have hnew : s.chan id = s.channel + 1 := h.served id hid
  omega

theorem Inv.exists_live (h : s.Inv) (hocc : s.occupied ≠ []) :
    ∃ id ∈ s.live, s.chan id = s.channel := by
  obtain ⟨p, hp⟩ := List.exists_mem_of_ne_nil _ hocc
  exact ⟨_, h.alive hp, h.served _ (h.alive hp)⟩

/-- The state in which a request is handled. -/
theorem Inv.request (h : s.Inv) (hid : id ∉ s.seen) : Inv { s with
    chan := Function.update s.chan id s.channel
    seen := id :: s.seen } := by
  refine ⟨h.size, h.count, h.ids, h.distinct, h.held, h.context, fun i hi => ?_, fun i hi => ?_⟩
  · have hne : i ≠ id := fun heq => hid (heq ▸ h.seen i hi)
    exact (Function.update_of_ne hne ..).trans (h.served i hi)
  · exact List.mem_cons_of_mem id (h.seen i hi)

/-- A request that can be served, or that fails where no slot is occupied. -/
theorem Inv.safe_iff (h : s.Inv) : s.Safe (.connectRequest id conn fails) ↔
    (s.Buildable fails ∧ fails .accept = false) ∨ (s.occupied = [] ∧ ¬ s.Buildable fails) := by
  have hcount := h.count
  have hall : (∀ c, fails c = false) ↔
      (∀ c, c ≠ .accept → fails c = false) ∧ fails .accept = false := by
    refine ⟨fun h => ⟨fun c _ => h c, h _⟩, fun h c => ?_⟩
    by_cases hc : c = .accept
    · exact hc ▸ h.2
    · exact h.1 c hc
  rw [Safe, hall, Buildable, and_assoc]
  refine or_congr_right (and_congr_right fun hocc => ?_)
  rw [hocc, List.length_nil] at hcount
  rw [not_and, hcount]
  constructor
  · rintro (hmax | ⟨c, hc, hf⟩) hlt hno
    · omega
    · exact absurd ((hno c hc).symm.trans hf) Bool.false_ne_true
  · intro himp
    by_cases hmax : s.maxConns = 0
    · exact .inl hmax
    · obtain ⟨c, hc⟩ := not_forall.mp (himp (by omega))
      rw [Classical.not_imp, Bool.not_eq_false] at hc
      exact .inr ⟨c, hc⟩

theorem Inv.connectRequest (h : s.Inv) (hid : id ∉ s.seen) (hfree : (s.res conn).conn = false)
    (hs : finish ({ s with
      chan := Function.update s.chan id s.channel
      seen := id :: s.seen }.onConnectRequest id conn fails) = s') :
    (s.Safe (.connectRequest id conn fails) → s'.Inv) ∧
      (¬ s.Safe (.connectRequest id conn fails) → ¬ s'.Consistent) := by
  obtain ⟨hconn, hres⟩ := h.not_occupied hfree
  have hlive : id ∉ s.live := fun hmem => hid (h.seen id hmem)
  have ht := h.request hid
  have hchan : (Function.update s.chan id s.channel) id = s.channel := Function.update_self ..
  rw [h.safe_iff]
  generalize hu : ({ s with
    chan := Function.update s.chan id s.channel
    seen := id :: s.seen } : Vmd) = u at hs ht
  have hocc : u.occupied = s.occupied := by rw [← hu]; rfl
  have hulive : u.live = s.live := by rw [← hu]
  have hbuildable : u.Buildable fails ↔ s.Buildable fails := by rw [← hu]; rfl
  have huchan : u.chan id = u.channel := by
    rw [← hu]
    exact hchan
  have hures : u.res conn = .none := by rw [← hu]; exact hres
  have hseen : id ∈ u.seen := by rw [← hu]; exact List.mem_cons_self
  rw [← hocc] at hconn
  rw [← hulive] at hlive
  rw [← hbuildable, ← hocc]
  rcases buildConnection_spec id fails ht.size ht.count hconn hures with
    ⟨hret, hno, hspec⟩ | ⟨hret, hyes, hspec⟩
  · have hfail : u.onConnectRequest id conn fails =
        ((u.buildConnection id conn fails).1, false) := by
      simp only [onConnectRequest, hret, Bool.not_false, if_true]
    have hinv := ht.unbuilt hconn hlive hspec
    have hsame : (u.buildConnection id conn fails).1.occupied = u.occupied :=
      congrArg List.reduceOption hspec.conns
    rw [hfail, finish, if_neg (by simp)] at hs
    rw [← hs]
    refine ⟨fun hok => hinv.restart ?_, fun hbad => ?_⟩
    · rcases hok with hok | hok
      · exact absurd hok.1 hno
      · exact hsame.trans hok.1
    · have hocc' : (u.buildConnection id conn fails).1.occupied ≠ [] := fun hnil =>
        hbad (.inr ⟨hsame.symm.trans hnil, hno⟩)
      obtain ⟨i, hi, hc⟩ := hinv.exists_live hocc'
      exact not_consistent_restart hi hc
  · by_cases hacc : fails .accept = true
    · have hfail : u.onConnectRequest id conn fails =
          ((u.buildConnection id conn fails).1, false) := by
        simp only [onConnectRequest, hret, hacc, Bool.not_true, Bool.false_eq_true, if_true,
          if_false]
      rw [hfail, finish, if_neg (by simp)] at hs
      rw [← hs]
      refine ⟨fun hok => ?_, fun _ hcons => ?_⟩
      · rcases hok with hok | hok
        · exact absurd (hok.2.symm.trans hacc) Bool.false_ne_true
        · exact absurd hyes hok.2
      · -- the slot is occupied, and no connection lives in it
        have hlives : (u.buildConnection id conn fails).1.nConns =
            (u.buildConnection id conn fails).1.live.length := hcons.lives
        have hold := ht.consistent.lives
        rw [hspec.nConns, hspec.live] at hlives
        omega
    · have hok : u.onConnectRequest id conn fails =
          ({ (u.buildConnection id conn fails).1 with
            live := id :: (u.buildConnection id conn fails).1.live }, true) := by
        simp only [onConnectRequest, hret, hacc, Bool.not_true, Bool.false_eq_true, if_false]
      rw [hok, finish, if_pos rfl] at hs
      rw [← hs]
      refine ⟨fun _ => ht.built hconn hlive hseen huchan hyes.1 hspec, fun hbad => ?_⟩
      exact absurd (.inl ⟨hyes, Bool.eq_false_iff.mpr hacc⟩) hbad

/-- **One event.**  Where all is consistent, it stays so exactly if the event is safe. -/
theorem inv_of_step (h : s.Inv) (hs : s.step e = some s') :
    (s.Safe e → s'.Inv) ∧ (¬ s.Safe e → ¬ s'.Consistent) := by
  unfold step at hs
  cases e with
  | connectRequest id conn fails =>
      obtain ⟨⟨hid, hfree⟩, heq⟩ := of_guard hs
      exact h.connectRequest hid hfree heq
  | established id posted =>
      obtain ⟨⟨hid, hchan⟩, rfl⟩ := of_guard hs
      have hinv : (s.onConnection (s.context id) posted).1.Inv :=
        ⟨h.size, h.count, h.ids, h.distinct, h.held, h.context, h.served, h.seen⟩
      have hret : (s.onConnection (s.context id) posted).2 = true ↔
          s.sendState (s.context id) = sendInit ∧ posted = true := by
        simp only [onConnection, Bool.and_eq_true, decide_eq_true_eq]
      refine ⟨fun hok => ?_, fun hbad => ?_⟩
      · rw [finish, if_pos (hret.mpr hok)]
        exact hinv
      · rw [finish, if_neg fun ht => hbad (hret.mp ht)]
        exact not_consistent_restart hid hchan
  | disconnected id =>
      obtain ⟨⟨hid, -⟩, rfl⟩ := of_guard hs
      have hinv : (s.onDisconnect id).1.Inv := h.destroyed hid
      refine ⟨fun _ => ?_, fun hbad => absurd trivial hbad⟩
      by_cases hlast : (s.onDisconnect id).1.nConns = 0
      · have hret : (s.onDisconnect id).2 = false := by
          simp only [onDisconnect, Bool.not_eq_false', decide_eq_true_eq]
          exact hlast
        have hcount := hinv.count
        rw [finish, if_neg (by simp [hret])]
        exact hinv.restart (List.length_eq_zero_iff.mp (by omega))
      · have hret : (s.onDisconnect id).2 = true := by
          simp only [onDisconnect, Bool.not_eq_true', decide_eq_false_iff_not]
          exact hlast
        rw [finish, if_pos hret]
        exact hinv
  | unknown =>
      rw [← Option.some.inj hs]
      refine ⟨fun hok => h.restart hok, fun hbad => ?_⟩
      obtain ⟨id, hid, hchan⟩ := h.exists_live hbad
      exact not_consistent_restart hid hchan
  | sendCompleted conn =>
      obtain ⟨-, rfl⟩ := of_guard hs
      exact ⟨fun _ => ⟨h.size, h.count, h.ids, h.distinct, h.held, h.context, h.served, h.seen⟩,
        fun hbad => absurd trivial hbad⟩

/-- In every run in which requests are served, or fail where no slot is occupied, the daemon is in
order; and an event leaves it so exactly if it is safe. -/
theorem consistent_of_reach (h : ReachWhen Started step Safe s) :
    s.Consistent ∧ ∀ e s', s.step e = some s' → (s'.Consistent ↔ s.Safe e) := by
  have hinv : s.Inv := h.invariant (fun _ => inv_of_started) fun u e u' hu hok hs =>
    (inv_of_step hu hs).1 hok
  refine ⟨hinv.consistent, fun e s' hs => ⟨fun hc => ?_, fun hok => ?_⟩⟩
  · by_contra hbad
    exact (inv_of_step hinv hs).2 hbad hc
  · exact ((inv_of_step hinv hs).1 hok).consistent

end Invariant

/-! ### Two runs -/

/-- The daemon with so many slots. -/
def idle (maxConns : ℕ) : Vmd where
  maxConns := maxConns
  conns := List.replicate maxConns none
  nConns := 0
  res := fun _ => .none
  connId := fun _ => 0
  sendState := fun _ => 0
  context := fun _ => 0
  chan := fun _ => 0
  channel := 0
  live := []
  seen := []

theorem started_idle (maxConns : ℕ) : (idle maxConns).Started := ⟨rfl, rfl, fun _ => rfl, rfl⟩

/-- Two clients come, and one goes. -/
def clients : List VmdEvent :=
  [.connectRequest 1 11 fun _ => false, .established 1 true, .connectRequest 2 12 fun _ => false,
    .established 2 true, .disconnected 1]

def served : Vmd := (exec step (idle 2) clients).getD (idle 2)

theorem consistent_of_reach_served : served.live = [2] ∧ served.Consistent ∧
    ∀ e s', served.step e = some s' → (s'.Consistent ↔ served.Safe e) := by
  have hexec : exec step (idle 2) clients = some served := rfl
  refine ⟨rfl, consistent_of_reach ((ReachWhen.start (started_idle 2)).exec ?_ hexec)⟩
  exact ⟨.inl ⟨by decide, fun _ => rfl⟩, ⟨rfl, rfl⟩, .inl ⟨by decide, fun _ => rfl⟩, ⟨rfl, rfl⟩,
    trivial, trivial⟩

/-- The only slot is taken when a second client comes. -/
def refused : Vmd :=
  (exec step (idle 1) [.connectRequest 1 11 fun _ => false, .established 1 true,
    .connectRequest 2 12 fun _ => false]).getD (idle 1)

theorem not_consistent_refused : ¬ ∀ s, Reach Started step s → s.Consistent := by
  intro h
  have hexec : exec step (idle 1) [.connectRequest 1 11 fun _ => false, .established 1 true,
      .connectRequest 2 12 fun _ => false] = some refused := rfl
  have hserved : refused.chan 1 = refused.channel :=
    (h refused (Reach.exec (.start (started_idle 1)) hexec)).served 1 List.mem_cons_self
  exact absurd hserved (by decide)

end Vmd

end Emp
