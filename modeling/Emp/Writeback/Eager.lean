import Emp.Fetch.Block
import Mathlib.Logic.Function.Basic

/-!
# The work request field of a local page

The field `w` of a head's local page holds a fetch request, a writeback request or the handle of
an eager writeback, and the flags and the state of the block say which.  A block that becomes
inactive is written back eagerly: the handle waits in `w` under `GPA_EAGER_WBR`.  Each path on
which the block leaves the inactive list has to settle it.

The steps below are taken under the lock of the block.  What is stretched, reduced or split is
left out, and so are the lists, but for the states that stand for them.

## Main definitions

* `FieldUse`, `EagerBlock` — what the field holds, and a block.
* `EagerBlock.checkEagerWbr`, `clearBlockW`, `waitForPrefetchedBlock` — who reads the field.
* `EagerBlock.pageFault`, `inactiveVictim`, `dupCow`, `close`, … — the paths.
* `EagerSys.step` — the system of blocks.
-/

namespace Emp

/-- What the field `w` of a local page holds. -/
inductive FieldUse
  | empty
  | fetch
  | writeback
  | eager
  deriving DecidableEq, Repr

/-- The states of a block between two steps. -/
inductive EagerState
  | init
  | active
  | inactive
  | wb
  deriving DecidableEq, Repr

/-- A block.  `flags` are the head's, `demandSb` is the subblock of `demand_offset`, and `backed`
says that `is_block_remote_page_valid`.  `armed` and `settled` count the handles that were stored,
and those that were waited for and freed; `misread` records that a handle was taken for a request
or the other way round. -/
structure EagerBlock where
  numSubblock : ℕ
  rState : EagerState
  flags : GpaFlag → Bool
  w : ℕ → FieldUse
  demandSb : ℕ
  backed : Bool
  armed : ℕ
  settled : ℕ
  misread : Bool

/-- What a barrier waits for: the demanded subblock, one page of it, or all subblocks but those to
skip. -/
inductive BarrierWait
  | demand (i : ℕ)
  | page (i : ℕ) (fallback : Bool)
  | rest (skip : ℕ → Bool)

/-- What the rest of the system decides. -/
structure EagerLuck where
  /-- the subblocks whose reads a fetch posts, and whether the fetch succeeds -/
  posted : ℕ → Bool
  fetched : Bool
  /-- what the barriers wait for, for a prefetched block and for the fault itself -/
  resume : BarrierWait
  barrier : BarrierWait
  /-- the fault is on the host's page table; an active block needs no installation -/
  hva : Bool
  handled : Bool
  write : Bool
  /-- `check_block_free` -/
  free : Bool
  /-- `eager_writeback` is on and the handle is allocated -/
  eagerWriteback : Bool
  /-- the remote pages are allocated and the writes are posted -/
  posts : Bool
  /-- clean blocks need no writeback: `remote_reuse`, and the optimisation is on -/
  reuse : Bool
  /-- the faulting process and no other maps all of the block -/
  alone : Bool
  /-- another process owns or maps the block -/
  owned : Bool
  /-- another process has the descriptor -/
  shared : Bool

namespace EagerBlock

variable (l : EagerLuck)

/-- `set_gpa_flags_if_unset` or `clear_gpa_flags_if_set` of one flag. -/
def setFlag (f : GpaFlag) (v : Bool) (s : EagerBlock) : EagerBlock :=
  { s with flags := Function.update s.flags f v }

/-- `GPA_PREFETCHED_MASK` is set. -/
def prefetched (s : EagerBlock) : Bool :=
  s.flags .prefetchedCsf || s.flags .prefetchedCpf || s.flags .prefetchedBlk

/-- `clear_gpa_flags_if_set(head, GPA_PREFETCHED_MASK)`. -/
def clearPrefetched (s : EagerBlock) : EagerBlock :=
  ((s.setFlag .prefetchedCsf false).setFlag .prefetchedCpf false).setFlag .prefetchedBlk false

/-! ### Readers of the field -/

/-- `wait_read_async`. -/
def waitReadAsync (i : ℕ) (s : EagerBlock) : EagerBlock :=
  if s.w i = .empty then s
  else { s with w := Function.update s.w i .empty, misread := s.misread || s.w i == .eager }

/-- `wait_read_async` of the first `k` subblocks but those to skip. -/
def waitReads (skip : ℕ → Bool) : ℕ → EagerBlock → EagerBlock
  | 0, s => s
  | k + 1, s =>
    let s := waitReads skip k s
    if skip k then s else s.waitReadAsync k

/-- `wait_read_async_demand_page`: the request is read, and cleared if the wait falls back. -/
def waitDemandPage (i : ℕ) (fallback : Bool) (s : EagerBlock) : EagerBlock :=
  if fallback then s.waitReadAsync i else { s with misread := s.misread || s.w i == .eager }

/-- `clear_writeback_block` of a block that stays local. -/
def clearWriteback (s : EagerBlock) : EagerBlock :=
  { s with w := fun _ => .empty, misread := s.misread || s.w 0 == .eager }

/-- `check_eager_wbr`. -/
def checkEagerWbr (s : EagerBlock) : EagerBlock :=
  if s.flags .eagerWbr then
    { ((s.setFlag .eagerWbr false).setFlag .dirty false) with
      w := fun _ => .empty
      settled := if s.w 0 = .eager then s.settled + 1 else s.settled
      misread := s.misread || s.w 0 != .eager }
  else s

/-- `wait_for_prefetched_block`. -/
def waitForPrefetchedBlock (s : EagerBlock) : EagerBlock :=
  { (s.waitReads (fun i => s.flags .prefetchedCsf && i == s.demandSb) s.numSubblock).clearPrefetched
    with demandSb := 0 }

/-- `clear_block_w`. -/
def clearBlockW (s : EagerBlock) : EagerBlock :=
  if s.w 0 = .empty ∧ s.prefetched = false then s
  else
    let s := s.checkEagerWbr
    if s.rState = .wb then if s.w 0 = .empty then s else s.clearWriteback
    else if s.prefetched then s.waitForPrefetchedBlock
    else s

/-- `emp_hpt_fetch_barrier`, or `emp_fetch_barrier` for a guest. -/
def fetchBarrier (hva : Bool) (b : BarrierWait) (s : EagerBlock) : EagerBlock :=
  let s := (({ s with rState := .active }).setFlag (if hva then .hpt else .ept) true).setFlag
    .remote false
  match b with
  | .demand i =>
    ((s.waitReadAsync i).setFlag .prefetchedCsf true).setFlag .prefetchOnce true
  | .page i fallback =>
    ((s.waitDemandPage i fallback).setFlag
      (if fallback then .prefetchedCsf else .prefetchedCpf) true).setFlag .prefetchOnce true
  | .rest skip => s.waitReads skip s.numSubblock

/-! ### Writeback -/

/-- `free_gpa` of all subblocks: the local pages are freed, with their fields. -/
def freeGpas (s : EagerBlock) : EagerBlock :=
  { s with
    rState := .init
    flags := fun f => f.keep && s.flags f
    w := fun _ => .empty }

/-- `set_gpa_remote` of all subblocks. -/
def setRemote (s : EagerBlock) : EagerBlock := s.freeGpas.setFlag .remote true

/-- `evict_block`: the field is drained, the remote pages are allocated and the writes posted;
`use` is what the caller then stores in the field. -/
def evictBlock (use : FieldUse) (s : EagerBlock) : EagerBlock :=
  let s := s.clearBlockW
  if l.posts then
    { s with w := Function.update s.w 0 use, backed := true }
  else { s with backed := false }

/-- `emp_writeback_block`; a block whose write cannot be posted keeps its state. -/
def empWritebackBlock (s : EagerBlock) : EagerBlock :=
  if l.reuse && s.backed && !s.flags .dirty then s.setRemote
  else
    let dirty := !(l.reuse && s.backed) && s.flags .dirty
    let s := (s.setFlag .dirty dirty).evictBlock l .writeback
    if l.posts then { s with rState := .wb } else s

/-- `add_gpas_to_inactive`, with `do_eager_writeback`. -/
def addToInactive (s : EagerBlock) : EagerBlock :=
  let s := { s with rState := .inactive }
  if l.eagerWriteback && l.free then
    let s := s.evictBlock l .eager
    if l.posts then { (s.setFlag .eagerWbr true) with armed := s.armed + 1 } else s
  else s

/-! ### Paths -/

/-- `fetch_block`; a failed one waits for what it has posted. -/
def remoteFault (s : EagerBlock) : EagerBlock :=
  let s := { s with w := fun i => if l.posted i then .fetch else .empty }
  if l.fetched then { s with rState := .active }
  else s.waitReads (fun _ => false) s.numSubblock

/-- `_handle_gpa_on_inactive_fault`, and the list that the block goes to. -/
def inactiveFault (s : EagerBlock) : EagerBlock :=
  { s.clearBlockW with rState := .active }

/-- `_handle_writeback_fault`. -/
def writebackFault (s : EagerBlock) : EagerBlock :=
  { s.clearWriteback with rState := .active, backed := false }

/-- The begin of a fault on a block that was prefetched; only the fault on the host's page table
drains the field first. -/
def resumePrefetch (s : EagerBlock) : EagerBlock :=
  if s.prefetched && (!l.hva || s.rState == .active) then
    let s := if l.hva then s.clearBlockW else s
    let s :=
      if s.flags .hpt then s.fetchBarrier true l.resume
      else if s.flags .ept then s.fetchBarrier false l.resume
      else s
    s.clearPrefetched
  else s

/-- `emp_page_fault_hva`, or `emp_page_fault_gpa`. -/
def pageFault (s : EagerBlock) : EagerBlock :=
  let s := s.resumePrefetch l
  let written (s : EagerBlock) := if l.write then s.setFlag .dirty true else s
  match s.rState with
  | .init =>
    if l.fetched then written ((s.remoteFault l).fetchBarrier l.hva l.barrier)
    else s.remoteFault l
  | .active => if l.handled then s else written (s.fetchBarrier l.hva l.barrier)
  | .inactive => written (s.inactiveFault.fetchBarrier l.hva l.barrier)
  | .wb => written (s.writebackFault.fetchBarrier l.hva l.barrier)

/-- `handle_remote_prefetch`. -/
def remotePrefetch (s : EagerBlock) : EagerBlock :=
  let s := s.remoteFault l
  if l.fetched then (s.setFlag .prefetchedBlk true).setFlag .prefetchOnce true else s

/-- `__emp_blk_prefetch`. -/
def blkPrefetch (s : EagerBlock) : EagerBlock :=
  if s.prefetched || s.flags .prefetchOnce then s.setFlag .promote true
  else if s.flags .staleBlock || s.flags .promote then s
  else if s.rState = .init then
    let s := s.remotePrefetch l
    if l.fetched then s.setFlag .hpt true else s
  else s.setFlag .promote true

/-- `clear_gpa_prefetched_hpt`, and the flags that go with it. -/
def finishPrefetch (s : EagerBlock) : EagerBlock :=
  if s.prefetched then
    (if s.flags .hpt then s.fetchBarrier true l.resume else s).clearPrefetched
  else s

/-- `__emp_blk_prefetch_complete`. -/
def blkPrefetchComplete (s : EagerBlock) : EagerBlock :=
  let s := s.finishPrefetch l
  if s.rState = .init then
    let s := s.remotePrefetch l
    if l.fetched then s.setFlag .promote true else s
  else s.setFlag .promote true

/-- A victim of the active list: it goes to the pin list or to the proactive list, or it is unmapped
and becomes inactive. -/
def activeVictim (s : EagerBlock) : EagerBlock :=
  if s.flags .pinned then s.setFlag .proactive true
  else if s.flags .promote then (s.setFlag .promote false).setFlag .proactive true
  else
    let s := if s.prefetched then s.waitForPrefetchedBlock else s
    s.addToInactive l

/-- `__emp_blk_move_to_inactive`. -/
def blkDontneed (s : EagerBlock) : EagerBlock :=
  if s.prefetched then s
  else
    let s := (s.setFlag .promote false).setFlag .pinned false
    if s.rState = .active then (s.setFlag .proactive false).addToInactive l else s

/-- `__move_to_pin_list` of a block that is not mapped. -/
def moveToPinList (s : EagerBlock) : EagerBlock :=
  let s := (({ s with rState := .active }).setFlag .proactive true).setFlag .prefetchedBlk true
  (s.setFlag .prefetchOnce true).setFlag .hpt true

/-- `__promote_gpas` of a block that is not mapped. -/
def promoteGpas (s : EagerBlock) : EagerBlock :=
  let s := ({ s with rState := .active }).setFlag .proactive true
  (s.setFlag .prefetchedBlk true).setFlag .prefetchOnce true

/-- A victim of the inactive list, from `select_victims_inactive_list` to `update_inactive_list`. -/
def inactiveVictim (s : EagerBlock) : EagerBlock :=
  if s.flags .pinned then s.moveToPinList
  else if s.flags .promote then ((s.setFlag .promote false).checkEagerWbr).promoteGpas
  else if l.free then (s.checkEagerWbr).empWritebackBlock l
  else s

/-- `__wait_writeback_async` for a block whose write has completed. -/
def writebackDone (s : EagerBlock) : EagerBlock :=
  let s := s.clearWriteback.setRemote
  if s.flags .promote then
    let s := ({ s with rState := .active }).setFlag .prefetchedBlk true
    (s.setFlag .prefetchOnce true).setFlag .hpt true
  else s

/-- The descriptor that `__dup_cow_gpadesc` makes, with its own local pages or, for a block that is
not local, with none. -/
def copied (s : EagerBlock) : EagerBlock :=
  { s with
    rState := if s.rState = .init then .init else .active
    flags := fun f =>
      if f = .remote then s.rState == .init
      else if f = .wprotect then false
      else f == .hpt && s.rState != .init || s.flags f
    w := fun _ => .empty
    backed := false
    armed := 0
    settled := 0
    misread := false }

/-- `dup_cow_gpadesc` for a block that a group of descriptors holds, behind `__clear_gpa_for_cow` or
`clear_block_for_reduction`: the old block and the new one. -/
def dupCow (s : EagerBlock) : EagerBlock × EagerBlock :=
  let s := s.finishPrefetch l
  let new := s.copied
  if s.rState = .init then (s, new)
  else if s.rState == .active && l.alone && s.backed &&
      !(s.flags .dirty || s.flags .partialMap || s.flags .staleBlock) then
    -- the pages are handed over
    (s.setRemote, new)
  else if l.owned || s.rState == .wb then (s, new)
  else
    -- nobody is left who owns the old block
    (s.empWritebackBlock l, new)

/-- `free_gpa_dir_region` for a block: `__wait_for_prefetch_max_block`, `__put_max_block` and
`flush_gpa`. -/
def close (s : EagerBlock) : EagerBlock :=
  let s := if s.prefetched then s.waitForPrefetchedBlock else s
  let s := s.checkEagerWbr
  match s.rState with
  | .init => s
  | .wb => if l.shared then s else s.clearWriteback.freeGpas
  | .inactive | .active =>
    if l.owned then s else if l.shared then s.empWritebackBlock l else s.freeGpas

end EagerBlock

/-! ### Systems of blocks -/

/-- The flags that say nothing of the field; other code sets and clears them. -/
def FreeFlag (f : GpaFlag) : Prop :=
  f ≠ .eagerWbr ∧ f ≠ .prefetchedCsf ∧ f ≠ .prefetchedCpf ∧ f ≠ .prefetchedBlk

instance : DecidablePred FreeFlag := fun _ => inferInstanceAs (Decidable (_ ∧ _))

/-- The paths of one block. -/
inductive EagerPath
  | setFlag (f : GpaFlag) (v : Bool)
  | pageFault
  | prefetch
  | prefetchComplete
  | activeVictim
  | dontneed
  | inactiveVictim
  | writebackDone
  | close

/-- A path, where it is possible. -/
def EagerBlock.path (l : EagerLuck) (s : EagerBlock) : EagerPath → Option EagerBlock
  | .setFlag f v => if FreeFlag f then some (s.setFlag f v) else none
  | .pageFault => some (s.pageFault l)
  | .prefetch => some (s.blkPrefetch l)
  | .prefetchComplete => some (s.blkPrefetchComplete l)
  | .activeVictim => if s.rState = .active then some (s.activeVictim l) else none
  | .dontneed => some (s.blkDontneed l)
  | .inactiveVictim => if s.rState = .inactive then some (s.inactiveVictim l) else none
  | .writebackDone => if s.rState = .wb then some s.writebackDone else none
  | .close => some (s.close l)

/-- The blocks of all descriptors; those from `next` on do not exist yet. -/
structure EagerSys where
  block : ℕ → EagerBlock
  next : ℕ

inductive EagerEvent
  | path (b : ℕ) (p : EagerPath) (l : EagerLuck)
  | cow (b : ℕ) (l : EagerLuck)

namespace EagerSys

def setBlock (s : EagerSys) (b : ℕ) (g : EagerBlock) : EagerSys :=
  { s with block := Function.update s.block b g }

def addBlock (s : EagerSys) (g : EagerBlock) : EagerSys where
  block := Function.update s.block s.next g
  next := s.next + 1

/-- One step of one block, or a copy on write, which makes another. -/
def step (s : EagerSys) : EagerEvent → Option EagerSys
  | .path b p l => if b < s.next then ((s.block b).path l p).map (s.setBlock b) else none
  | .cow b l =>
    let (old, new) := (s.block b).dupCow l
    if b < s.next then some ((s.setBlock b old).addBlock new) else none

end EagerSys

end Emp
