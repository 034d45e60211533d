import Emp.Lib.Tally
import Emp.Lib.Transition
import Emp.Reclaim.Block

/-!
# The writeback lists and their page counts

A block whose writeback has been posted waits on the writeback list of a cpu.  It leaves
that list through an asynchronous wait of its own or of a stealing cpu, through a fault that
takes it back, or when it is split or closed.  Its pages stay counted as inactive until the
writeback has been cleared; a second counter, `inflight_writeback_page_len`, is to tell how
many of the inactive pages are on the writeback lists.

The two waits of `__wait_writeback_async`, the dequeue under the list lock and the clearing
after it, are steps of their own, and so are the two reads of `get_pressure_of_inactive_list`.

## Main definitions

* `WbBlock`, `WbSys` — a block, and all blocks with the counters.
* `WbEvent`, `WbSys.step` — the steps.
-/

namespace Emp

/-- Who clears a writeback: a cpu waiting for the block, a fault on it, or the split or close
of its range. -/
inductive WbActor
  | wait
  | fault
  | discard
  deriving DecidableEq, Repr

/-- Where a block is.  `off` is a block without local pages or between two lists; `inactive` is
counted as inactive and may be posted; `queued` is on the writeback list of a cpu; `taken` has
been dequeued to be cleared. -/
inductive LruPlace
  | off
  | active
  | proactive
  | pin
  | inactive
  | queued (cpu : ℕ)
  | taken (actor : WbActor)
  deriving DecidableEq, Repr

/-- A block: its flags, its size in pages, and whether its local pages are there.  `marked`
tells whether a prefetch or a pin has asked to keep the block since its write was posted. -/
structure WbBlock where
  rState : GpaState
  place : LruPlace
  size : ℕ
  resident : Bool
  done : Bool
  promote : Bool
  pinned : Bool
  proactive : Bool
  marked : Bool

/-- What clearing the writeback of a block came to: who cleared it, whether it was marked,
the block after it, and by how much the page counts moved. -/
structure Clearing where
  actor : WbActor
  marked : Bool
  after : WbBlock
  inactiveMoved : ℤ
  activeMoved : ℤ
  proactiveMoved : ℤ
  pinMoved : ℤ

/-- All blocks and the counters.  `reads` holds what a cpu has read of the in-flight counter
when it computes the pressure, `wrapped` whether such a computation went below zero. -/
structure WbSys where
  block : ℕ → WbBlock
  inflightWritebackPageLen : ℤ
  inactivePageLen : ℤ
  activePageLen : ℤ
  proactivePageLen : ℤ
  curPinPages : ℤ
  reads : ℕ → Option ℤ
  wrapped : Bool
  cleared : List Clearing

inductive WbEvent
  | fetch (b size : ℕ) (proactive : Bool)
  | deactivate (b : ℕ)
  | orphan (b : ℕ)
  | promoteVictim (b : ℕ)
  | drop (b : ℕ)
  | post (b cpu : ℕ)
  | reduce (b buddy size : ℕ)
  | setPromote (b : ℕ)
  | pin (b : ℕ)
  | dontNeed (b : ℕ)
  | complete (b : ℕ)
  | take (b : ℕ) (actor : WbActor)
  | clear (b : ℕ)
  | readInflight (cpu : ℕ)
  | readInactive (cpu : ℕ)

namespace WbSys

variable (s : WbSys) (b : ℕ)

def setBlock (r : WbBlock) : WbSys := { s with block := Function.update s.block b r }

/-- `sub_inactive_list_page_len`. -/
def subInactive : WbSys := { s with inactivePageLen := s.inactivePageLen - (s.block b).size }

/-- `add_gpas_to_active_list` of one head that is on no list. -/
def addGpasToActiveList (proactive : Bool) : WbSys :=
  let r := s.block b
  if r.pinned then
    { s.setBlock b { r with rState := .active, place := .pin, proactive := true } with
      proactivePageLen := s.proactivePageLen + r.size
      curPinPages := s.curPinPages + r.size }
  else if proactive then
    { s.setBlock b { r with rState := .active, place := .proactive, proactive := true } with
      proactivePageLen := s.proactivePageLen + r.size }
  else
    { s.setBlock b { r with rState := .active, place := .active } with
      activePageLen := s.activePageLen + r.size }

/-- `remove_gpa_from_lru` and the other ways an active block leaves its list. -/
def removeFromActive : WbSys :=
  let r := s.block b
  let t := s.setBlock b { r with place := .off, proactive := false }
  match r.place with
  | .active => { t with activePageLen := s.activePageLen - r.size }
  | .proactive => { t with proactivePageLen := s.proactivePageLen - r.size }
  | .pin =>
      { t with
        proactivePageLen := s.proactivePageLen - r.size
        curPinPages := s.curPinPages - r.size }
  | _ => s

/-- `set_gpa_remote` of the whole block: the pages go, and the flags but the pin. -/
def setGpaRemote : WbSys :=
  let r := s.block b
  s.setBlock b { r with
    rState := .init, place := .off, resident := false, promote := false, proactive := false }

/-- `push_writeback_request`, after `evict_block` has posted the writes. -/
def pushWritebackRequest (cpu : ℕ) : WbSys :=
  let r := s.block b
  { s.setBlock b { r with rState := .wb, place := .queued cpu, done := false, marked := false } with
    inflightWritebackPageLen := s.inflightWritebackPageLen + r.size }

/-- The dequeue from a writeback list: in `__wait_writeback_async`, or in
`clear_writeback_block` of a block that is `on_list`. -/
def dequeue (actor : WbActor) : WbSys :=
  let t := s.setBlock b { s.block b with place := .taken actor }
  match actor with
  | .wait => t
  | .fault | .discard =>
      { t with inflightWritebackPageLen := s.inflightWritebackPageLen - (s.block b).size }

/-- `clear_writeback_work_request` with `do_reclaim`. -/
def clearAndReclaim : WbSys := (s.setGpaRemote b).subInactive b

/-- `__promote_gpa`. -/
def promoteGpa : WbSys :=
  let r := s.block b
  { s.setBlock b { r with rState := .active, place := .active } with
    activePageLen := s.activePageLen + r.size }

/-- What `__wait_writeback_async` does with a block it has dequeued. -/
def clearByWait : WbSys :=
  let t := s.clearAndReclaim b
  if (t.block b).promote then t.promoteGpa b else t

/-- `_handle_writeback_fault` and the insertion after it. -/
def clearByFault : WbSys :=
  ((s.setBlock b { s.block b with place := .off }).subInactive b).addGpasToActiveList b true

/-- The clearing of a block that was dequeued. -/
def clearBy : WbActor → WbSys
  | .wait => s.clearByWait b
  | .fault => s.clearByFault b
  | .discard => s.clearAndReclaim b

/-- The record of a clearing of `b` that leads from `s` to `t`. -/
def clearing (actor : WbActor) (t : WbSys) : Clearing :=
  ⟨actor, (s.block b).marked, t.block b,
    t.inactivePageLen - s.inactivePageLen, t.activePageLen - s.activePageLen,
    t.proactivePageLen - s.proactivePageLen, t.curPinPages - s.curPinPages⟩

/-- The state after the clearing, with its record. -/
def log (actor : WbActor) (t : WbSys) : WbSys :=
  { t with cleared := s.clearing b actor t :: s.cleared }

/-- A block is on the list of some cpu. -/
def queued : Bool :=
  match (s.block b).place with
  | .queued _ => true
  | _ => false

/-- A block is being cleared, so that its lock is held. -/
def isTaken : Bool :=
  match (s.block b).place with
  | .taken _ => true
  | _ => false

/-- One step of `n` descriptors; `none` if it is not possible. -/
def step (n : ℕ) : WbSys → WbEvent → Option WbSys
  | s, .fetch b size proactive =>
      if b < n ∧ (s.block b).place = .off then
        some ((s.setBlock b { s.block b with size := size, resident := true }).addGpasToActiveList b
          proactive)
      else none
  | s, .deactivate b =>
      if b < n ∧ (s.block b).place ∈ [LruPlace.active, .proactive, .pin] ∧
          (s.block b).pinned = false then
        let t := s.removeFromActive b
        some { t.setBlock b { t.block b with rState := .inactive, place := .inactive } with
          inactivePageLen := s.inactivePageLen + (s.block b).size }
      else none
  | s, .orphan b =>
      -- `remove_gpa_from_lru`, then counted as inactive to be written back
      if b < n ∧ (s.block b).place ∈ [LruPlace.active, .proactive, .pin] then
        let t := s.removeFromActive b
        some { t.setBlock b { t.block b with place := .inactive } with
          inactivePageLen := s.inactivePageLen + (s.block b).size }
      else none
  | s, .promoteVictim b =>
      if b < n ∧ (s.block b).place = .inactive then
        some (((s.setBlock b { s.block b with place := .off, promote := false }).subInactive
          b).addGpasToActiveList b true)
      else none
  | s, .drop b =>
      if b < n ∧ (s.block b).place = .inactive then some (s.clearAndReclaim b) else none
  | s, .post b cpu =>
      if b < n ∧ (s.block b).place = .inactive then some (s.pushWritebackRequest b cpu) else none
  | s, .reduce b buddy size =>
      if b < n ∧ buddy < n ∧ b ≠ buddy ∧ (s.block b).place = .inactive ∧
          (s.block buddy).place = .off ∧ size ≤ (s.block b).size then
        some ((s.setBlock buddy { s.block b with size := (s.block b).size - size }).setBlock b
          { s.block b with size := size })
      else none
  | s, .setPromote b =>
      if b < n ∧ (s.block b).place ≠ .off ∧ ¬ s.isTaken b then
        some (s.setBlock b { s.block b with promote := true, marked := true })
      else none
  | s, .pin b =>
      if b < n ∧ ¬ s.isTaken b then
        some (s.setBlock b { s.block b with
          pinned := true
          promote := (s.block b).promote || (s.block b).rState == .wb
          marked := (s.block b).marked || (s.block b).rState == .wb })
      else none
  | s, .dontNeed b =>
      -- `__emp_blk_move_to_inactive` takes both marks back, whatever the state
      if b < n ∧ ¬ s.isTaken b then
        some (s.setBlock b { s.block b with pinned := false, promote := false, marked := false })
      else none
  | s, .complete b =>
      if b < n ∧ (s.block b).rState = .wb then
        some (s.setBlock b { s.block b with done := true })
      else none
  | s, .take b actor => if b < n ∧ s.queued b then some (s.dequeue b actor) else none
  | s, .clear b =>
      match (s.block b).place with
      | .taken actor =>
          if b < n ∧ (s.block b).done then some (s.log b actor (s.clearBy b actor)) else none
      | _ => none
  | s, .readInflight cpu =>
      some { s with reads := Function.update s.reads cpu (some s.inflightWritebackPageLen) }
  | s, .readInactive cpu =>
      (s.reads cpu).map fun wb =>
        { s with
          reads := Function.update s.reads cpu none
          wrapped := s.wrapped || decide (s.inactivePageLen < wb) }

/-- A block that holds nothing. -/
def blankBlock : WbBlock := ⟨.init, .off, 0, false, false, false, false, false, false⟩

/-- No block has local pages. -/
def Start (s : WbSys) : Prop :=
  (∀ b, (s.block b).place = .off) ∧ s.inflightWritebackPageLen = 0 ∧ s.inactivePageLen = 0 ∧
    (∀ cpu, s.reads cpu = none) ∧ s.wrapped = false ∧ s.cleared = []

def blank : WbSys := ⟨fun _ => blankBlock, 0, 0, 0, 0, 0, fun _ => none, false, []⟩

theorem start_blank : blank.Start := ⟨fun _ => rfl, rfl, rfl, fun _ => rfl, rfl, rfl⟩

end WbSys

end Emp
