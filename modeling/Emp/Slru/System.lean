import Emp.Els.Merging
import Emp.Lib.Sections

/-!
# The replacement lists

A block that is in local memory is on one of the lists of the replacement policy: a per-cpu or the
global list of the proactive or the active chain, the list of the pinned blocks of a cpu, or the
inactive or the writeback list of a cpu.  The local page records the cpu and which kind of list it
is; the state of the block and `GPA_PROACTIVE` tell the rest.

Threads move blocks between the lists.  Each list has a lock, each block has one, and a scan only
takes the blocks whose lock is free.  What happens under the lock of a list is one section; the page
counts of the chains are atomic counters, updated in sections of their own.

The fields of a block are those of its owner, the thread that has it locked; what the owner writes
next to a change of a list is part of that section.  The blocks and their sizes do not change.  A
block has one lock, that of its head.  Whoever waits for a lock that the thread holds itself waits
for ever.

## Main definitions

* `LocalList`, `SlruGpa`, `SlruSys` — the lists, a block, and all of them.
* `scanList` — the loop over a list that skips what is locked.
* `refillLruBuf`, `flushActiveMru`, `addGpasToActiveList`, `promoteGpas`, `moveToPinList` — how
  blocks get to the lists of a chain.
-/

namespace Emp

/-- The lists that the local page of a head can be on. -/
inductive LocalList
  | slru (l : SlruList)
  | inactive (cpu : ℤ)
  | writeback (cpu : ℤ)
  deriving DecidableEq, Repr

/-- The `page_len` of the three chains, and `cur_pin_pages`. -/
inductive SlruCount
  | proactive
  | active
  | inactive
  | pin
  deriving DecidableEq, Repr

/-- The chain that a list of the proactive or the active one belongs to. -/
def SlruCount.ofChain (proactive : Bool) : SlruCount := if proactive then .proactive else .active

/-- A block: its head, and the local page of the head. -/
structure SlruGpa where
  rState : BlockState
  flags : GpaFlag → Bool
  cpu : ℤ
  on : Option OnList

/-- The blocks are those below `numBlocks`; the rest are the lengths at which a chain is full. -/
structure SlruConfig where
  possibleCpus : ℤ
  numBlocks : ℕ
  blockSize : ℕ → ℕ
  proactivePagesLen : ℕ
  activePagesLen : ℕ
  inactivePagesLen : ℕ
  inactiveKeepPagesLen : ℕ

/-- The blocks, their locks with the thread that has them, the lists from the first to the last
entry, and the counters.  `failed` are the blocks whose eviction or whose fault has failed, `leaked`
those among them that had been counted as inactive before. -/
structure SlruSys (A : Type) where
  config : SlruConfig
  gpa : ℕ → SlruGpa
  lock : ℕ → Option A
  lists : LocalList → List ℕ
  pageLen : SlruCount → ℤ
  inflightWritebackPageLen : ℤ
  epsilon : ℤ
  divider : ℤ
  failed : List ℕ
  leaked : List ℕ

/-- How the eviction of a block ends: its writeback is posted, the donor has its contents, or a
request fails, when that of the head may have been posted. -/
inductive Eviction
  | posted
  | clean
  | failed (headPosted : Bool)
  deriving DecidableEq, Repr

/-- How the fetch of a block ends. -/
inductive SlruFetch
  | inProgress
  | done
  | failed
  deriving DecidableEq, Repr

/-- What a section meets outside the lists: whether the lock of a global list is free, which blocks
`gpa_acquire` and `check_block_free` find unused, how transfers end, and the free pages of the cpu. -/
structure SlruLuck where
  globalFree : Bool
  gpaAcquire : ℕ → Bool
  checkBlockFree : ℕ → Bool
  eviction : Eviction
  fetch : SlruFetch
  eagerWritebackFails : Bool
  localFreePages : ℤ

namespace SlruGpa

variable (g : SlruGpa)

def setFlag (f : GpaFlag) (v : Bool) : SlruGpa := { g with flags := Function.update g.flags f v }

/-- The list that a block tells of. -/
def list (possibleCpus : ℤ) : Option LocalList :=
  g.on.map fun
    | .mru => if g.rState = .inactive then .inactive g.cpu
        else .slru (.mru (g.flags .proactive) g.cpu)
    | .lru => if g.rState = .wb then .writeback g.cpu else .slru (.lru (g.flags .proactive) g.cpu)
    | .global => .slru (.global (g.flags .proactive))
    | .pin => .slru (.pin (possibleCpus + g.cpu))

/-- `GPA_PREFETCHED_BLK` and `GPA_PREFETCH_ONCE` of a block that is active without a mapping. -/
def setPrefetched : SlruGpa := (g.setFlag .prefetchedBlk true).setFlag .prefetchOnce true

/-- One of `GPA_PREFETCHED_MASK`. -/
def prefetched : Bool :=
  g.flags .prefetchedCsf || g.flags .prefetchedCpf || g.flags .prefetchedBlk

/-- `GPA_PREFETCHED_MASK` is cleared. -/
def clearPrefetched : SlruGpa :=
  ((g.setFlag .prefetchedCsf false).setFlag .prefetchedCpf false).setFlag .prefetchedBlk false

end SlruGpa

namespace SlruSys

variable {A : Type} (s : SlruSys A) (a : A) (b : ℕ)

def setGpa (g : SlruGpa) : SlruSys A := { s with gpa := Function.update s.gpa b g }

/-- `emp_trylock_local_page`, where it succeeds. -/
def hold : SlruSys A := { s with lock := Function.update s.lock b (some a) }

/-- `emp_unlock_block`. -/
def release : SlruSys A := { s with lock := Function.update s.lock b none }

/-- `emp_list_del` of a block, and its flag. -/
def delist (l : LocalList) : SlruSys A :=
  { s.setGpa b { s.gpa b with on := none } with
    lists := Function.update s.lists l ((s.lists l).erase b) }

/-- `set_local_page_cpu_mru` or one of its siblings, and `emp_list_add_tail`. -/
def enlist (l : LocalList) (cpu : ℤ) (on : OnList) : SlruSys A :=
  { s.setGpa b { s.gpa b with cpu := cpu, on := some on } with
    lists := Function.update s.lists l (s.lists l ++ [b]) }

/-- `atomic_add` to, or `atomic_sub` from, a counter. -/
def addPageLen (c : SlruCount) (n : ℤ) : SlruSys A :=
  { s with pageLen := Function.update s.pageLen c (s.pageLen c + n) }

/-- The pages of blocks. -/
def pagesOf (bs : List ℕ) : ℤ := (bs.map fun b => (s.config.blockSize b : ℤ)).sum

/-- `emp_list_for_each_safe` with a trylock of each block: `fail` counts the blocks that are locked,
`visit` is given a block that it now holds; both tell whether the loop goes on. -/
def scanList {O : Type} (fail : O → O × Bool) (visit : ℕ → O → SlruSys A → O × SlruSys A × Bool) :
    List ℕ → O → SlruSys A → O × SlruSys A
  | [], o, s => (o, s)
  | b :: rest, o, s =>
      match s.lock b with
      | some _ =>
          match fail o with
          | (o, true) => scanList fail visit rest o s
          | (o, false) => (o, s)
      | none =>
          match visit b o (s.hold a b) with
          | (o, s, true) => scanList fail visit rest o s
          | (o, s, false) => (o, s)

/-- The blocks of a temporary list go to the tail of a list, as `enlist` says, and are unlocked. -/
def putBack (put : SlruSys A → ℕ → SlruSys A) (bs : List ℕ) : SlruSys A :=
  bs.foldl (fun s b => (put s b).release b) s

/-- `emp_list_splice_tail` of a temporary list. -/
def spliceTail (l : LocalList) (bs : List ℕ) : SlruSys A :=
  { s with lists := Function.update s.lists l (s.lists l ++ bs) }

/-- `get_list_ptr_pin`. -/
def getListPtrPin (cpu : ℤ) : LocalList := .slru (.pin (s.config.possibleCpus + cpu))

/-- A counter as `size_t`. -/
def sizeT (n : ℤ) : ℕ := (n % 2 ^ 64).toNat

/-- `is_proactive_list_full`. -/
def isProactiveListFull : Bool := s.config.proactivePagesLen ≤ sizeT (s.pageLen .proactive)

/-- `is_active_list_full`. -/
def isActiveListFull : Bool := s.config.activePagesLen ≤ sizeT (s.pageLen .active)

/-- `get_pressure_of_inactive_list`: the hard and the soft pressure. -/
def getPressureOfInactiveList (hardPressure : ℤ) : ℤ × ℤ :=
  let wbLen := sizeT s.inflightWritebackPageLen
  let inactiveLen := sizeT (s.pageLen .inactive)
  let softLen := sizeT (inactiveLen - wbLen + hardPressure)
  let hardLen := sizeT (inactiveLen + hardPressure)
  (if s.config.inactivePagesLen < hardLen then hardLen - s.config.inactivePagesLen else 0,
    if s.config.inactiveKeepPagesLen < softLen then softLen - s.config.inactiveKeepPagesLen else 0)

end SlruSys

namespace Slru

open Program SlruSys

/-- A program of a thread. -/
abbrev SlruProg (A α : Type) : Type 1 := Program (SlruSys A) SlruLuck α

/-- `MRU_QUEUE_DEPTH` and `LRU_QUEUE_DEPTH`. -/
def slruQueueDepth : ℕ := 64

/-- `get_list_ptr_mru` of the proactive or the active list. -/
def getListPtrMru (proactive : Bool) (cpu : ℤ) : LocalList := .slru (.mru proactive cpu)

/-- `get_list_ptr_lru` of the proactive or the active list. -/
def getListPtrLru (proactive : Bool) (cpu : ℤ) : LocalList := .slru (.lru proactive cpu)

/-- The global list of a chain. -/
def globalList (proactive : Bool) : LocalList := .slru (.global proactive)

variable {A : Type} (a : A) (proactive : Bool) (cpu : ℤ)

/-- A loop of `refill_lru_buf`, over the list `l`: what it pops, and `num_fail`. -/
def popSome (l : LocalList) (lbSize : ℕ) (s : SlruSys A) : (List ℕ × ℕ) × SlruSys A :=
  s.scanList a (fun o => ((o.1, o.2 + 1), o.2 + 1 < lbSize))
    (fun b o s => ((o.1 ++ [b], o.2), s.delist b l, o.1.length + 1 < lbSize)) (s.lists l) ([], 0)

/-- `refill_lru_buf`; it returns `num_pop`. -/
def refillLruBuf (lbSize : ℕ) : SlruProg A ℕ := do
  let global ← act fun _ s => popSome a (globalList proactive) lbSize s
  let pops ← (if global.1 = [] then act fun _ s => popSome a (getListPtrMru proactive cpu) lbSize s
    else pure global : SlruProg A (List ℕ × ℕ))
  modify fun s => s.putBack (fun s b => s.enlist b (getListPtrLru proactive cpu) cpu .lru) pops.1
  pure pops.1.length

/-- `flush_active_mru`, under the lock of the mru list: the blocks that it takes to the global list;
they go back when the lock of that is not free. -/
def takeMru (mruSize : ℕ) (luck : SlruLuck) (s : SlruSys A) : List ℕ × SlruSys A :=
  let mru := getListPtrMru proactive cpu
  match s.scanList a (fun o => (o, true)) (fun b o s => (o ++ [b], s.delist b mru, true))
      (s.lists mru) [] with
  | (moved, s) =>
      if mruSize * 2 < (s.lists mru).length ∨ luck.globalFree then (moved, s)
      else ([], s.putBack (fun s b => s.enlist b mru cpu .mru) moved)

/-- `flush_active_mru`. -/
def flushActiveMru (mruSize : ℕ) : SlruProg A Unit := do
  let moved ← act (takeMru a proactive cpu mruSize)
  modify fun s => s.putBack
    (fun s b => s.enlist b (globalList proactive) (s.gpa b).cpu .global) moved

/-- What the loop of `add_gpas_to_active_list` makes of a head. -/
def addedHead (g : SlruGpa) : SlruGpa :=
  let g := if g.rState = .fetching then g else { g with rState := .active }
  if g.flags .pinned then { g.setFlag .proactive true with cpu := cpu, on := some .pin }
  else { if proactive then g.setFlag .proactive true else g with cpu := cpu, on := some .mru }

/-- The loop of `add_gpas_to_active_list`: `temp_mru` and `temp_pin`. -/
def addHeads (gpas : List ℕ) (s : SlruSys A) : (List ℕ × List ℕ) × SlruSys A :=
  ((gpas.filter fun b => !(s.gpa b).flags .pinned, gpas.filter fun b => (s.gpa b).flags .pinned),
    gpas.foldl (fun s b => s.setGpa b (addedHead proactive cpu (s.gpa b))) s)

/-- `add_gpas_to_active_list`. -/
def addGpasToActiveList (gpas : List ℕ) : SlruProg A ℤ := do
  let temp ← act fun _ s => addHeads proactive cpu gpas s
  let newMruLen ← read fun s => s.pagesOf temp.1
  let newPinLen ← read fun s => s.pagesOf temp.2
  whenever (0 < newMruLen) do
    modify fun s => s.spliceTail (getListPtrMru proactive cpu) temp.1
    let len ← read fun s => (s.lists (getListPtrMru proactive cpu)).length
    whenever (slruQueueDepth ≤ len) (flushActiveMru a proactive cpu slruQueueDepth)
    modify fun s => s.addPageLen (.ofChain proactive) newMruLen
  whenever (0 < newPinLen) do
    modify fun s => s.spliceTail (s.getListPtrPin cpu) temp.2
    modify fun s => s.addPageLen .proactive newPinLen
    modify fun s => s.addPageLen .pin newPinLen
  pure (newMruLen + newPinLen)

/-- A turn of the loop of `__promote_gpas`. -/
def promoteGpa (mapped : Bool) (s : SlruSys A) (b : ℕ) : SlruSys A :=
  let s := s.enlist b (getListPtrMru true cpu) cpu .mru
  let g := { (s.gpa b).setFlag .proactive true with rState := .active }
  s.setGpa b (if mapped then g else g.setPrefetched)

/-- `__promote_gpas`. -/
def promoteGpas (lps : List ℕ) (pagesLen : ℤ) (mapped : Bool) : SlruProg A Unit := do
  modify fun s => s.putBack (promoteGpa cpu mapped) lps
  modify fun s => s.addPageLen .proactive pagesLen
  let len ← read fun s => (s.lists (getListPtrMru true cpu)).length
  whenever (slruQueueDepth ≤ len) (flushActiveMru a true cpu slruQueueDepth)

/-- A turn of the loop of `__move_to_pin_list`. -/
def moveToPin (fromProactive mapped : Bool) (s : SlruSys A) (b : ℕ) : SlruSys A :=
  let s := s.enlist b (s.getListPtrPin cpu) cpu .pin
  let g := if fromProactive then s.gpa b else (s.gpa b).setFlag .proactive true
  s.setGpa b (if mapped then g else { g.setPrefetched.setFlag .hpt true with rState := .active })

/-- `__move_to_pin_list`. -/
def moveToPinList (lps : List ℕ) (fromProactive mapped : Bool) : SlruProg A Unit := do
  let pages ← read fun s => s.pagesOf lps
  modify fun s => s.putBack (moveToPin cpu fromProactive mapped) lps
  whenever (fromProactive = false) (modify fun s => s.addPageLen .proactive pages)
  modify fun s => s.addPageLen .pin pages

end Slru

end Emp
