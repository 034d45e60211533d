import Mathlib.Data.Nat.Notation
import Mathlib.Data.Option.Basic
import Mathlib.Logic.Function.Basic
import Emp.Lib.Transition

/-!
# A block on its way in and out of local memory

One block of subblocks, the faults that fetch and map it, the stores through its mapping,
and the reclaimer that unmaps it, writes it back ahead of eviction, promotes it, evicts it
and drops its local pages.  Every step but a store and the end of a transfer is taken under
the block's lock.  A wait for transfers is a step that is possible once they are over; a
fetch, whose pages nobody sees before they have arrived, is one step.

Pinning, stale hints and the resizing of blocks are left out.

## Main definitions

* `CachedBlock` — the block, the remote memory and what was dropped or refused.
* `CachedBlock.evictBlock`, `CachedBlock.empWritebackBlock` — the writeback.
* `ReclaimEvent`, `CachedBlock.step` — the steps.
-/

namespace Emp

/-- The states of a block that is not locked for a fetch. -/
inductive GpaState
  | init
  | active
  | inactive
  | transIl
  | wb
  deriving DecidableEq, Repr

/-- `num_subblock_in_block` and the two options that decide about writebacks. -/
structure ReclaimConfig where
  numSubblock : ℕ
  remoteReuse : Bool
  writebackOptimizationDisable : Bool

/-- The local pages that were dropped, and what the remote pages held then. -/
structure Drop (V : Type*) where
  localPage : ℕ → V
  remote : ℕ → Option V

/-- A writeback that could not be posted: whether the local pages stayed, and the dirty
flag when it was asked for and after it. -/
structure Refusal where
  kept : Bool
  dirtyBefore : Bool
  dirtyAfter : Bool

/-- A block and the remote memory.  `remotePage` is the word of each subblock (`none` is the
free word), `inflight` the page each subblock is being written to; `pteDirty` is the dirty
bits of the page table entries; `drops` and `refusals` record what happened. -/
structure CachedBlock (V : Type*) where
  rState : GpaState
  touched : Bool
  dirty : Bool
  eagerWbr : Bool
  promote : Bool
  mapped : Bool
  pteDirty : Bool
  localPage : Option (ℕ → V)
  remotePage : ℕ → Option ℕ
  inflight : ℕ → Option ℕ
  mem : ℕ → V
  drops : List (Drop V)
  refusals : List Refusal

inductive ReclaimEvent (V : Type*)
  | fault (write : Bool)
  | store (i : ℕ) (v : V)
  | setPromote
  | unmap
  | eager (alloc : ℕ → Option ℕ) (posted : ℕ)
  | promoteVictim
  | evict (alloc : ℕ → Option ℕ) (posted : ℕ)
  | dma (i : ℕ) (stray : V)
  | reclaim
  | foreign (p : ℕ) (v : V)

namespace CachedBlock

variable {V : Type*} [Zero V] (c : ReclaimConfig) (b : CachedBlock V)

/-- What the local pages hold. -/
def contents (i : ℕ) : V := (b.localPage.getD fun _ => 0) i

/-- What the block holds on its remote pages, an untouched block being all zero. -/
def remote (i : ℕ) : Option V := if b.touched then (b.remotePage i).map b.mem else some 0

/-- No transfer of the block is in flight. -/
def Idle : Prop := ∀ i < c.numSubblock, b.inflight i = none

instance : Decidable (b.Idle c) := inferInstanceAs (Decidable (∀ i < c.numSubblock, _))

/-- No subblock has a free word. -/
def Named : Prop := ∀ i < c.numSubblock, (b.remotePage i).isSome = true

instance : Decidable (b.Named c) := inferInstanceAs (Decidable (∀ i < c.numSubblock, _))

/-- `is_block_remote_page_valid`. -/
def isBlockRemotePageValid : Bool :=
  if !b.touched then true
  else if b.rState == .wb then false
  else decide (b.Named c)

/-- `free_remote_page` of all subblocks; with `remote_reuse` the words stay. -/
def freeRemotePage : CachedBlock V :=
  if c.remoteReuse then b
  else { b with remotePage := fun i => if i < c.numSubblock then none else b.remotePage i }

/-- `alloc_remote_page`, with the pages that the allocator found for free words. -/
def allocRemotePage (alloc : ℕ → Option ℕ) : CachedBlock V :=
  { b with remotePage := fun i =>
      if i < c.numSubblock then (b.remotePage i).or (alloc i) else b.remotePage i }

/-- The allocator gives no page out twice, and none that the block has. -/
def Fresh (alloc : ℕ → Option ℕ) : Prop :=
  ∀ i < c.numSubblock, ∀ j < c.numSubblock, (alloc i).isSome = true →
    b.remotePage j ≠ alloc i ∧ (alloc j = alloc i → i = j)

instance (alloc : ℕ → Option ℕ) : Decidable (b.Fresh c alloc) :=
  inferInstanceAs (Decidable (∀ i < c.numSubblock, ∀ j < c.numSubblock, _))

/-- The wait of `check_eager_wbr` is over. -/
def canClearBlockW : Bool := !b.eagerWbr || decide (b.Idle c)

/-- `check_eager_wbr`, after its wait. -/
def checkEagerWbr : CachedBlock V :=
  if b.eagerWbr then { b with eagerWbr := false, dirty := false } else b

/-- `set_gpa_remote` of all subblocks: the local pages go, and with them all flags that
`GPA_CLEANUP_MASK` names. -/
def setGpaRemote : CachedBlock V :=
  { b with
    rState := .init
    dirty := false
    eagerWbr := false
    promote := false
    localPage := none
    drops := ⟨b.contents, b.remote⟩ :: b.drops }

/-- `fetch_block` and the wait for it. -/
def fetchBlock : CachedBlock V :=
  let t := { b with localPage := some fun i => (b.remote i).getD 0 }
  if b.touched then t.freeRemotePage c else { t with touched := true }

/-- The writes of the first `k` subblocks have been posted. -/
def post (k : ℕ) : CachedBlock V :=
  { b with inflight := fun i => if i < c.numSubblock ∧ i < k then b.remotePage i else b.inflight i }

/-- Whether `evict_block` fails: a word is still free, or a post was refused. -/
def refuses (alloc : ℕ → Option ℕ) (posted : ℕ) : Bool :=
  !decide ((b.allocRemotePage c alloc).Named c) || decide (posted < c.numSubblock)

/-- The clean-up of a failed `evict_block`.  Requests that were posted stay in flight: the
loop that would wait for them runs while their list is empty. -/
def unwind (alloc : ℕ → Option ℕ) (posted : ℕ) : CachedBlock V :=
  let t := b.allocRemotePage c alloc
  if t.Named c then (t.post c posted).freeRemotePage c else t.freeRemotePage c

/-- `evict_block`, after `clear_block_w`. -/
def evictBlock (eagerEvict : Bool) (alloc : ℕ → Option ℕ) (posted : ℕ) : Bool × CachedBlock V :=
  if b.refuses c alloc posted then (false, b.unwind c alloc posted)
  else
    let t := (b.allocRemotePage c alloc).post c c.numSubblock
    (true, if eagerEvict then { t with eagerWbr := true } else { t with rState := .wb })

/-- A failed writeback of `b`, whose dirty flag was `dirty` when it was asked for, left `t`. -/
def refused (dirty : Bool) (t : CachedBlock V) : CachedBlock V :=
  { t with refusals := ⟨t.localPage.isSome, dirty, t.dirty⟩ :: t.refusals }

/-- `check_need_writeback`. -/
def checkNeedWriteback : Bool × CachedBlock V :=
  if c.writebackOptimizationDisable then (true, b)
  else if !c.remoteReuse then (true, b)
  else if !b.isBlockRemotePageValid c then (true, b)
  else (b.dirty, { b with dirty := false })

/-- `emp_writeback_block`. -/
def empWritebackBlock (alloc : ℕ → Option ℕ) (posted : ℕ) : CachedBlock V :=
  let r := b.checkNeedWriteback c
  if c.writebackOptimizationDisable || r.1 then
    let e := r.2.evictBlock c false alloc posted
    if e.1 then e.2 else refused b.dirty e.2
  else r.2.setGpaRemote

/-- A turn of `do_eager_writeback`. -/
def doEagerWriteback (alloc : ℕ → Option ℕ) (posted : ℕ) : CachedBlock V :=
  let t := b.checkEagerWbr
  let e := t.evictBlock c true alloc posted
  if e.1 then e.2 else refused t.dirty e.2

/-- The block is active and mapped, and a write fault has marked it. -/
def map (write : Bool) : CachedBlock V :=
  { b with rState := .active, mapped := true, dirty := b.dirty || write }

/-- A fault; a block in `GPA_TRANS_IL` is a bug. -/
def fault (write : Bool) : Option (CachedBlock V) :=
  match b.rState with
  | .init =>
      -- a free word names no region to fetch from
      if b.touched && !decide (b.Named c) then none else some ((b.fetchBlock c).map write)
  | .active => some (b.map write)
  | .inactive => if b.canClearBlockW c then some (b.checkEagerWbr.map write) else none
  | .wb => if b.Idle c then some ((b.freeRemotePage c).map write) else none
  | .transIl => none

/-- One step; `none` if it is not possible. -/
def step (c : ReclaimConfig) : CachedBlock V → ReclaimEvent V → Option (CachedBlock V)
  | b, .fault write => b.fault c write
  | b, .store i v =>
      if b.mapped && decide (i < c.numSubblock) then
        some { b with
          localPage := some (Function.update b.contents i v)
          pteDirty := true }
      else none
  | b, .setPromote => if b.rState == .init then none else some { b with promote := true }
  | b, .unmap =>
      if b.rState == .active then
        some { b with
          rState := .inactive
          mapped := false
          dirty := b.dirty || b.pteDirty
          pteDirty := false }
      else none
  | b, .eager alloc posted =>
      if b.rState == .inactive && b.canClearBlockW c && decide (b.Fresh c alloc) then
        some (b.doEagerWriteback c alloc posted)
      else none
  | b, .promoteVictim =>
      if b.rState == .inactive && b.promote && b.canClearBlockW c then
        some { b.checkEagerWbr with rState := .active, promote := false }
      else none
  | b, .evict alloc posted =>
      if b.rState == .inactive && !b.promote && b.canClearBlockW c &&
          decide (b.Fresh c alloc) then
        some ({ b with rState := .transIl }.checkEagerWbr.empWritebackBlock c alloc posted)
      else none
  | b, .dma i stray =>
      if i < c.numSubblock then
        (b.inflight i).map fun p =>
          { b with
            mem := Function.update b.mem p (if b.localPage.isSome then b.contents i else stray)
            inflight := Function.update b.inflight i none }
      else none
  | b, .reclaim => if b.rState == .wb && decide (b.Idle c) then some b.setGpaRemote else none
  | b, .foreign p v =>
      if ∀ i < c.numSubblock, b.remotePage i ≠ some p then
        some { b with mem := Function.update b.mem p v }
      else none

/-- A block that nobody has touched. -/
def Start (b : CachedBlock V) : Prop :=
  b.rState = .init ∧ b.touched = false ∧ b.dirty = false ∧ b.eagerWbr = false ∧
    b.mapped = false ∧ b.pteDirty = false ∧ (∀ i, b.remotePage i = none) ∧
    (∀ i, b.inflight i = none) ∧ b.drops = [] ∧ b.refusals = []

/-- An untouched block in a remote memory that is all zero. -/
def blank : CachedBlock V where
  rState := .init
  touched := false
  dirty := false
  eagerWbr := false
  promote := false
  mapped := false
  pteDirty := false
  localPage := none
  remotePage _ := none
  inflight _ := none
  mem _ := 0
  drops := []
  refusals := []

theorem start_blank : (blank : CachedBlock V).Start :=
  ⟨rfl, rfl, rfl, rfl, rfl, rfl, fun _ => rfl, fun _ => rfl, rfl, rfl⟩

end CachedBlock

end Emp
