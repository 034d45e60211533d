import Emp.Slru.Victims

/-!
# What threads do with blocks

Faults, prefetches, pins and the close of a mapping lock a block and change the list that it is on.

The thread that comes across a block whose eviction or whose fault has failed does not go on: a
fault ends in a `BUG`, and the block may be on no list.  The walk over the range of a call is in
`Emp.Madvise.Walk`; here the blocks are given.  Mappings, owners and contents are left out.

## Main definitions

* `empPageFault` — a fault.
* `empMadvPin`, `empMadvUnpin`, `empBlkPrefetch`, `empBlkMoveToInactive` — the calls of madvise.
* `closeBlock` — a block whose mapping is closed.
* `Call`, `Call.body` — what a thread can be called for.
-/

namespace Emp

namespace Slru

open Program SlruSys

variable {A : Type} (a : A) (cpu : ℤ)

/-- The thread stops. -/
def bug {α : Type} : SlruProg A α := atomic fun _ _ => none

/-- `emp_lock_block`. -/
def lockBlock (b : ℕ) : SlruProg A Unit :=
  atomic fun _ s => if s.lock b = none ∧ b < s.config.numBlocks ∧ b ∉ s.failed then some ((), s.hold a b) else none

/-- `emp_trylock_block`. -/
def trylockBlock (b : ℕ) : SlruProg A Bool :=
  atomic fun _ s =>
    if s.config.numBlocks ≤ b ∨ b ∈ s.failed then none
    else if s.lock b = none then some (true, s.hold a b) else some (false, s)

/-! ### Faults -/

/-- `_handle_gpa_on_inactive_fault`, with `clear_block_w` of a block without requests. -/
def handleGpaOnInactiveFault (b : ℕ) : SlruProg A Unit := do
  modify fun s => s.delist b (getListPtrInactive (s.gpa b).cpu)
  modify (checkEagerWbr [b])
  modify fun s => s.setGpa b { (s.gpa b).clearPrefetched with rState := .init }
  modify fun s => s.addPageLen .inactive (-s.config.blockSize b)

/-- `handle_inactive_fault`. -/
def handleInactiveFault (b : ℕ) : SlruProg A Bool := do
  handleGpaOnInactiveFault b
  let _ ← addGpasToActiveList a true cpu [b]
  pure true

/-- The part of `clear_writeback_block` that takes the block off its list. -/
def clearWritebackBlock (b : ℕ) (s : SlruSys A) : SlruSys A :=
  let s := s.delist b (.writeback (s.gpa b).cpu)
  { s with inflightWritebackPageLen := s.inflightWritebackPageLen - s.config.blockSize b }

/-- `handle_writeback_fault`. -/
def handleWritebackFault (cpus : List ℤ) (b : ℕ) : SlruProg A Bool := do
  modify (clearWritebackBlock b)
  modify fun s => s.addPageLen .inactive (-s.config.blockSize b)
  let ret ← updateLruListsReref a cpu cpus [b]
  pure ret.isSome

/-- `handle_remote_fault`, and the end of the fetch in `emp_page_fault_gpa`.  A thread of the host
makes the block active at once. -/
def handleRemoteFault (cpus : List ℤ) (pressure : ℕ) (b : ℕ) : SlruProg A Bool := do
  let fetch ← ask SlruLuck.fetch
  if fetch = .failed then pure false
  else do
    modify fun s => s.setGpa b { s.gpa b with
      rState := if fetch = .inProgress ∧ 0 ≤ cpu then .fetching else .active }
    let ret ← updateLruLists a cpu cpus [b] pressure
    match ret with
    | none => do
        modify fun s => { s with failed := b :: s.failed }
        pure false
    | some _ => do
        modify fun s => s.setGpa b { s.gpa b with rState := .active }
        pure true

/-- `emp_page_fault_gpa` and its sibling for the host; `pressure` is the size that the caller passes
on. -/
def empPageFault (cpus : List ℤ) (pressure b : ℕ) : SlruProg A Unit := do
  let _ ← empWaitForWriteback a cpus pressure
  lockBlock a b
  let rState ← read fun s => (s.gpa b).rState
  let _ ← (match rState with
    | .init => handleRemoteFault a cpu cpus pressure b
    | .active => pure true
    | .inactive => handleInactiveFault a cpu b
    | .wb => handleWritebackFault a cpu cpus b
    | _ => bug : SlruProg A Bool)
  modify fun s => s.release b

/-! ### Removal -/

/-- `remove_gpa_from_lru`.  `GPA_PROACTIVE` is cleared before, and the flags of the list after. -/
def removeGpaFromLru (b : ℕ) : SlruProg A Unit := do
  let g ← read fun s => s.gpa b
  if g.rState = .active then
    if g.flags .proactive then do
      whenever (g.on = some .pin) (modify fun s => s.addPageLen .pin (-s.config.blockSize b))
      modify fun s => (s.setGpa b ((s.gpa b).setFlag .proactive false)).delist b (match g.on with
        | some .pin => s.getListPtrPin g.cpu
        | some .mru => getListPtrMru true g.cpu
        | some .lru => getListPtrLru true g.cpu
        | _ => globalList true)
      modify fun s => s.addPageLen .proactive (-s.config.blockSize b)
    else do
      modify fun s => s.delist b (match g.on with
        | some .mru => getListPtrMru false g.cpu
        | some .lru => getListPtrLru false g.cpu
        | _ => globalList false)
      modify fun s => s.addPageLen .active (-s.config.blockSize b)
  else
    whenever (g.rState = .inactive ∧ g.on ≠ none ∧ g.on ≠ some .pin) do
      modify fun s => s.delist b (getListPtrInactive g.cpu)
      modify fun s => s.addPageLen .inactive (-s.config.blockSize b)

/-- A block whose mapping is closed, in `__put_max_block` and `flush_gpa`: `kept` tells whether it
stays as it is, `orphan` whether others still have it. -/
def closeBlock (b : ℕ) (kept orphan : Bool) : SlruProg A Unit := do
  lockBlock a b
  modify (checkEagerWbr [b])
  let rState ← read fun s => (s.gpa b).rState
  (match rState with
    | .init => pure ()
    | .wb =>
        whenever (orphan = false) do
          modify (clearWritebackBlock b)
          modify fun s => s.setGpa b (setGpaRemote (s.gpa b))
          modify fun s => s.addPageLen .inactive (-s.config.blockSize b)
    | .inactive | .active =>
        whenever (kept = false) do
          removeGpaFromLru b
          if orphan then do
            modify fun s => s.addPageLen .inactive (s.config.blockSize b)
            let ok ← empWritebackBlock cpu b
            whenever (ok = false) (modify fun s =>
              if (s.gpa b).rState = .wb then s else { s with leaked := b :: s.leaked })
          else modify fun s => s.setGpa b { s.gpa b with rState := .init }
    | _ => bug : SlruProg A Unit)
  modify fun s => s.release b

/-! ### Advice -/

/-- The body of the loop of `emp_madv_pin`, for each block. -/
def empMadvPin : List ℕ → SlruProg A Unit
  | [] => pure ()
  | b :: bs => do
      lockBlock a b
      modify fun s =>
        let g := (s.gpa b).setFlag .pinned true
        s.setGpa b (if g.rState = .wb then g.setFlag .promote true else g)
      modify fun s => s.release b
      empMadvPin bs

/-- `____flush_to_proactive`. -/
def flushToProactive (lps : List ℕ) : SlruProg A Unit := do
  let pages ← read fun s => s.pagesOf lps
  modify fun s => s.putBack (fun s b => s.enlist b (getListPtrMru true cpu) cpu .mru) lps
  modify fun s => s.addPageLen .pin (-pages)

/-- `emp_madv_unpin`, with the blocks that it has taken off the pin lists. -/
def empMadvUnpin : List ℕ → List ℕ → SlruProg A Unit
  | [], lps => whenever (lps ≠ []) (flushToProactive cpu lps)
  | b :: bs, lps => do
      lockBlock a b
      modify fun s => s.setGpa b ((s.gpa b).setFlag .pinned false)
      let g ← read fun s => s.gpa b
      if g.flags .proactive ∧ g.on = some .pin then do
        modify fun s => s.delist b (s.getListPtrPin g.cpu)
        if numVictimCluster ≤ lps.length + 1 then do
          flushToProactive cpu (lps ++ [b])
          empMadvUnpin bs []
        else empMadvUnpin bs (lps ++ [b])
      else do
        modify fun s => s.release b
        empMadvUnpin bs lps

/-- `blks_ctx_flush_prefetch`; `size_heads` is negative in the call. -/
def flushPrefetch (cpus : List ℤ) (heads : List ℕ) : SlruProg A Unit := do
  let pages ← read fun s => s.pagesOf heads
  let _ ← updateLruLists a cpu cpus heads (-pages)
  unlockBlocks heads

/-- What `__emp_blk_prefetch` does with a block that it has locked: it is unlocked again unless it
is fetched. -/
def prefetchBlock (b : ℕ) : SlruProg A Bool := do
  let g ← read fun s => s.gpa b
  let setPromote : SlruProg A Bool := do
    modify fun s => s.setGpa b ((s.gpa b).setFlag .promote true)
    modify fun s => s.release b
    pure false
  let unlock : SlruProg A Bool := do
    modify fun s => s.release b
    pure false
  if g.prefetched ∨ g.flags .prefetchOnce then setPromote
  else if g.flags .staleBlock ∨ g.flags .promote then unlock
  else if g.rState = .init then do
    let fetch ← ask SlruLuck.fetch
    if fetch = .failed then unlock
    else do
      modify fun s => s.setGpa b
        { (s.gpa b).setPrefetched.setFlag .hpt true with rState := .active }
      pure true
  else setPromote

/-- `emp_blk_prefetch`, with the heads that are fetched and locked.  The end of a walk after an
error is a shorter list. -/
def empBlkPrefetch (cpus : List ℤ) : List ℕ → List ℕ → SlruProg A Unit
  | [], heads => flushPrefetch a cpu cpus heads
  | b :: bs, heads => do
      let ok ← trylockBlock a b
      if ok then do
        let fetched ← prefetchBlock b
        if fetched = false then empBlkPrefetch cpus bs heads
        else if numVictimCluster ≤ heads.length + 1 then do
          flushPrefetch a cpu cpus (heads ++ [b])
          empBlkPrefetch cpus bs []
        else empBlkPrefetch cpus bs (heads ++ [b])
      else empBlkPrefetch cpus bs heads

/-- `blks_ctx_flush_dontneed`. -/
def flushDontneed (heads : List ℕ) : SlruProg A Unit := do
  let _ ← addGpasToInactive cpu heads
  unlockBlocks heads

/-- `emp_blk_move_to_inactive`, with the heads that it has taken off their lists. -/
def empBlkMoveToInactive : List ℕ → List ℕ → SlruProg A Unit
  | [], heads => flushDontneed cpu heads
  | b :: bs, heads => do
      let ok ← trylockBlock a b
      if ok then do
        let g ← read fun s => s.gpa b
        if g.prefetched then do
          modify fun s => s.release b
          empBlkMoveToInactive bs heads
        else do
          modify fun s => s.setGpa b (((s.gpa b).setFlag .promote false).setFlag .pinned false)
          let acquired ← ask fun luck => luck.gpaAcquire b
          if g.rState = .active ∧ acquired then do
            removeGpaFromLru b
            modify fun s => s.setGpa b { s.gpa b with rState := .transAl }
            if numVictimCluster ≤ heads.length + 1 then do
              flushDontneed cpu (heads ++ [b])
              empBlkMoveToInactive bs []
            else empBlkMoveToInactive bs (heads ++ [b])
          else do
            modify fun s => s.release b
            empBlkMoveToInactive bs heads
      else empBlkMoveToInactive bs heads

/-! ### Calls -/

/-- What a thread can be called for: `cpus` are all cpus from the own one on, `bs` the blocks of a
range. -/
inductive Call
  | fault (cpu : ℤ) (cpus : List ℤ) (pressure b : ℕ)
  | reclaim (cpu : ℤ) (cpus : List ℤ) (pressure : ℤ)
  | close (cpu : ℤ) (b : ℕ) (kept orphan : Bool)
  | pin (bs : List ℕ)
  | unpin (cpu : ℤ) (bs : List ℕ)
  | prefetch (cpu : ℤ) (cpus : List ℤ) (bs : List ℕ)
  | moveToInactive (cpu : ℤ) (bs : List ℕ)

/-- The program of a call. -/
def Call.body (a : A) : Call → SlruProg A Unit
  | .fault cpu cpus pressure b => empPageFault a cpu cpus pressure b
  | .reclaim cpu cpus pressure => do
      let _ ← reclaimEmpPages a cpu cpus pressure
      pure ()
  | .close cpu b kept orphan => closeBlock a cpu b kept orphan
  | .pin bs => empMadvPin a bs
  | .unpin cpu bs => empMadvUnpin a cpu bs []
  | .prefetch cpu cpus bs => empBlkPrefetch a cpu cpus bs []
  | .moveToInactive cpu bs => empBlkMoveToInactive a cpu bs []

end Slru

end Emp
