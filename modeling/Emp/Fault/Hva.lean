import Emp.Mapper.Install
import Emp.Writeback.Eager

/-!
# A fault on the host's page table

`emp_page_fault_hva` locks the block of the faulting address, copies it where a write hits a block
that a fork has shared, finishes a prefetch that is in flight, and then goes by the state of the
block: an active block may be mapped already, an inactive one and one in writeback are taken back,
and any other is fetched and perhaps merged with its buddy.  Then the block is mapped, and a write
marks it dirty.

A pte maps the page of the block at its own offset, as in `HptBlock`.  The pages themselves, the
requests and the lists are left out: `RemoteBlock` has the fetch, `BarrierBlock` the barrier and
`EagerBlock` the field `w`.  A copy on write is followed on the side of the faulting process.

## Main definitions

* `HvaBlock`, `HvaFault`, `HvaLuck` — a block, a fault, and what comes from outside.
* `HvaBlock.fetchBarrier`, `installHptes`, `hptesMap` — the mapping of a block.
* `HvaBlock.handOver`, `copyLocal`, `dupCow` — the copy on write.
* `HvaBlock.empPageFaultHva` — the fault.
-/

namespace Emp

/-- The settings of the prefetch. -/
structure HvaConf where
  csf : Bool
  cpf : Bool
  markEmptyPage : Bool
  transitionCsf : Bool

/-- A block; `map` is what the installation works on.  For the subblock `i`, `pending i` says that
its read has not been waited for, and `arrived i o` that the contents of its page `o` are there.
`handle` says that `w` holds the handle of an eager writeback, and `shared` that another directory
refers to the block. -/
structure HvaBlock (V P : Type*) where
  map : HptBlock V P
  rState : EagerState
  hpt : Bool
  ept : Bool
  prefetchedBlk : Bool
  prefetchOnce : Bool
  stretched : Bool
  stale : Bool
  partialMap : Bool
  eagerWbr : Bool
  handle : Bool
  shared : Bool
  pending : ℕ → Bool
  arrived : ℕ → ℕ → Bool

/-- A fault of `vmr` on the page `page` of the subblock `demand`. -/
structure HvaFault (V : Type*) where
  vmr : V
  demand : ℕ
  page : ℕ
  write : Bool
  privateVma : Bool

/-- What comes from outside. -/
structure HvaLuck (V P : Type*) where
  /-- the outcomes of the allocations of mapping records -/
  alloc : ℕ → Bool
  /-- the contents of a subblock are there when its request is cleared -/
  readOk : ℕ → Bool
  /-- the wait for a demand page ends since its last word has changed; and the page is there -/
  overwritten : Bool
  pageArrived : Bool
  /-- `try_wait_read_async` finds the read of the demanded subblock over -/
  transition : Bool
  /-- `get_populated_pmd`, for a prefetch that is finished, for a copy and for the fault -/
  resumePmd : Option P
  copyPmd : Option P
  pmd : Option P
  /-- the descriptors and the pages of a copy are allocated; so are the local pages of a handover -/
  copied : Bool
  handedOver : Bool
  /-- `is_block_remote_page_valid`, when the block is copied -/
  remoteValid : Bool
  /-- `handle_remote_fault`: an error, or whether reads were posted -/
  fetched : Option Bool
  /-- the eviction that a writeback fault begins has no error -/
  evicted : Bool
  /-- the buddy that the fetched block is merged with, and whether it is the lower one -/
  buddy : Option (Bool × HvaBlock V P)

/-- What the fault returns. -/
inductive HvaRet
  | noPage
  | oom
  | sigbus
  deriving DecidableEq, Repr

/-- The block after a fault, with the index of the demanded subblock in it. -/
structure HvaResult (V P : Type*) where
  block : HvaBlock V P
  demand : ℕ
  ret : HvaRet

namespace HvaBlock

variable {V P : Type*} [DecidableEq V] (c : HvaConf) (l : HvaLuck V P) (f : HvaFault V)

/-- `GPA_PREFETCHED_MASK` is set. -/
def prefetched (s : HvaBlock V P) : Bool :=
  s.map.prefetchedCsf || s.map.prefetchedCpf || s.prefetchedBlk

/-- `clear_gpa_flags_if_set(head, GPA_PREFETCHED_MASK)`. -/
def clearPrefetched (s : HvaBlock V P) : HvaBlock V P :=
  { s with
    map := { s.map with prefetchedCsf := false, prefetchedCpf := false }
    prefetchedBlk := false }

/-- The subblock that `demand_offset` lies in. -/
def demandSb (s : HvaBlock V P) : ℕ := s.map.demandOffset / s.map.subblockSize

/-! ### Waits -/

/-- `wait_read_async`. -/
def waitReadAsync (i : ℕ) (s : HvaBlock V P) : HvaBlock V P :=
  if s.pending i then
    { s with
      pending := Function.update s.pending i false
      arrived := Function.update s.arrived i fun o => s.arrived i o || l.readOk i }
  else s

/-- `wait_read_async` of the first `k` subblocks but those to skip. -/
def waitReads (skip : ℕ → Bool) : ℕ → HvaBlock V P → HvaBlock V P
  | 0, s => s
  | k + 1, s =>
    let s := waitReads skip k s
    if skip k then s else s.waitReadAsync l k

/-- `wait_read_async_demand_page`. -/
def waitDemandPage (s : HvaBlock V P) : HvaBlock V P × ℕ :=
  if !s.pending f.demand || !(c.markEmptyPage && c.cpf) then (s, 0)
  else if l.overwritten then
    ({ s with arrived := Function.update s.arrived f.demand (Function.update (s.arrived f.demand)
        f.page (s.arrived f.demand f.page || l.pageArrived)) }, 1)
  else (s.waitReadAsync l f.demand, 2)

/-- `check_eager_wbr`. -/
def checkEagerWbr (s : HvaBlock V P) : HvaBlock V P :=
  if s.eagerWbr then
    { s with map := { s.map with dirty := false }, eagerWbr := false, handle := false }
  else s

/-- `wait_for_prefetched_block`. -/
def waitForPrefetchedBlock (s : HvaBlock V P) : HvaBlock V P :=
  let t := (s.waitReads l (fun i => s.map.prefetchedCsf && i == s.demandSb)
    s.map.descSize).clearPrefetched
  { t with map := { t.map with demandOffset := 0 } }

/-- `clear_block_w`, of a block that is not in writeback. -/
def clearBlockW (s : HvaBlock V P) : HvaBlock V P :=
  if !(s.handle || s.pending 0) && !s.prefetched then s
  else
    let s := s.checkEagerWbr
    if s.prefetched then s.waitForPrefetchedBlock l else s

/-! ### Mapping -/

/-- What `emp_hpt_fetch_barrier` begins with. -/
def activate (s : HvaBlock V P) : HvaBlock V P := { s with rState := .active, hpt := true }

/-- The fault waits for the demanded subblock or page alone. -/
def demandOnly (prefetchedSb : Option ℕ) (fetch : Bool) (s : HvaBlock V P) : Bool :=
  c.csf && fetch && prefetchedSb.isNone && !s.prefetchOnce

/-- `emp_hpt_fetch_barrier`. -/
def fetchBarrier (prefetchedSb : Option ℕ) (fetch : Bool) (s : HvaBlock V P) : HvaBlock V P :=
  let s := s.activate
  let offset := f.demand * s.map.subblockSize + f.page
  if s.demandOnly c prefetchedSb fetch then
    if c.cpf then
      let (s, fallback) := s.waitDemandPage c l f
      { s with
        map := { s.map with
          demandOffset := offset
          prefetchedCsf := s.map.prefetchedCsf || decide (1 < fallback)
          prefetchedCpf := s.map.prefetchedCpf || decide (fallback ≤ 1) }
        prefetchOnce := true }
    else
      let s := s.waitReadAsync l f.demand
      if s.map.descSize ≠ 1 then
        { s with
          map := { s.map with demandOffset := offset, prefetchedCsf := true }
          prefetchOnce := true }
      else s
  else
    s.waitReads l (fun i => fetch && s.map.prefetchedCsf && prefetchedSb == some i ||
      (s.map.lp i).empLpLookupVmr f.vmr) s.map.descSize

/-- `emp_install_hptes`. -/
def installHptes (hit : Bool) (p : P) (s : HvaBlock V P) : HvaBlock V P :=
  let arrived := c.transitionCsf && s.pending f.demand && l.transition
  let s := if !hit && s.map.prefetchedCpf && arrived then s.waitReadAsync l f.demand else s
  { s with map := s.map.empInstallHptes l.alloc f.vmr f.demand p hit f.write arrived }

/-- `sync_hpt_map_in_block`, for a block that was stretched or prefetched; the rounds of its walks
suffice, so nothing is left undone. -/
def syncHpt (hit : Bool) (s : HvaBlock V P) : HvaBlock V P :=
  if s.stretched || hit then
    { s with
      map := (s.map.syncHptMapInBlock l.alloc f.write).getD s.map
      stretched := false }
  else s

/-- The subblock that a prefetch has mapped ahead. -/
def prefetchedSb (hit : Bool) (s : HvaBlock V P) : Option ℕ := if hit then some s.demandSb else none

/-- `emp_page_fault_hptes_map`. -/
def hptesMap (fetch hit : Bool) (pmd : Option P) (s : HvaBlock V P) : HvaBlock V P × HvaRet :=
  let s := (s.fetchBarrier c l f (s.prefetchedSb hit) fetch).syncHpt l f hit
  match pmd with
  | none => (s, .oom)
  | some p => (s.installHptes c l f hit p, .noPage)

/-! ### Copy on write -/

/-- `__clear_gpa_for_cow`, with `clear_gpa_prefetched_hpt`, which maps the block for the subblock
that was prefetched. -/
def clearGpaForCow (s : HvaBlock V P) : HvaBlock V P :=
  if s.prefetched then
    let place := { f with demand := s.demandSb, page := 0, write := false }
    (if s.hpt then (s.hptesMap c l place true true l.resumePmd).1 else s).clearPrefetched
  else s

/-- `__block_mapped_by_only`. -/
def mappedByOnly (s : HvaBlock V P) : Bool :=
  (List.range s.map.descSize).all fun i =>
    (s.map.lp i).empLpCountPmd == 1 && (s.map.lp i).empLpOwner == some f.vmr

/-- The new descriptors of a block that is local; they belong to the faulting process alone, and
their local pages are new. -/
def ownCopy (map : HptBlock V P) (s : HvaBlock V P) : HvaBlock V P :=
  { s with
    map := { map with cow := fun _ => false, remote := fun _ => false, demandOffset := 0 }
    rState := .active
    handle := false
    shared := false
    pending := fun _ => false }

/-- The record of a subblock moves to a new local page. -/
def movedRecord (lp : MapperList V P) : MapperList V P :=
  match (lp.empLpPopPmd f.vmr).1 with
  | some p => ((MapperList.init (some f.vmr)).empLpInsertPmd f.vmr p true).2
  | none => MapperList.init (some f.vmr)

/-- `dup_cow_gpadesc_handoff`; `cow_mkwrite_pte` makes no entry present that was not. -/
def handOver (s : HvaBlock V P) : HvaBlock V P :=
  s.ownCopy { s.map with
    lp := fun i => movedRecord f (s.map.lp i)
    pte := fun i v o =>
      if v = f.vmr ∧ HptBlock.inRun (s.map.pageOff v) (s.map.pageLen v) o = true then
        (s.map.pte i v o).map fun q => ⟨q.write || s.map.vmWrite v, true⟩
      else s.map.pte i v o }

/-- What the copy adds to the RSS of the faulting process, for the first `k` subblocks. -/
def copyCharge (s : HvaBlock V P) : ℕ → ℤ
  | 0 => 0
  | k + 1 => s.copyCharge k +
    if (s.map.lp k).empLpLookupVmr f.vmr then 0
    else if (s.map.lp k).empLpOwner = some f.vmr then
      (s.map.pageLen f.vmr : ℤ) - s.map.subblockSize
    else s.map.pageLen f.vmr

/-- `dup_cow_gpadesc_local`, with the pages mapped under `p`. -/
def copyLocal (p : P) (s : HvaBlock V P) : HvaBlock V P :=
  { s.ownCopy { s.map with
      lp := fun _ => ((MapperList.init (some f.vmr)).empLpInsertPmd f.vmr p true).2
      pte := fun _ v o =>
        if v = f.vmr ∧ HptBlock.inRun (s.map.pageOff v) (s.map.pageLen v) o = true then
          some ⟨s.map.protWrite v || s.map.vmWrite v, true⟩
        else none
      pageDirty := fun _ => false
      mapRefs := fun _ => s.map.pageLen f.vmr
      rss := Function.update s.map.rss f.vmr
        (s.map.rss f.vmr + s.copyCharge f s.map.descSize) } with hpt := true }

/-- `dup_cow_gpadesc`, behind `__clear_gpa_for_cow`; `none` is an error. -/
def dupCow (s : HvaBlock V P) : Option (HvaBlock V P) :=
  let s := s.clearGpaForCow c l f
  if !l.copied then none
  else if s.rState = .init then
    -- the word of the remote page is shared
    some { s with
      map := { s.map with cow := fun _ => false, remote := fun _ => true }
      shared := false }
  else if !(s.partialMap || s.map.dirty || s.stale) && l.remoteValid && s.mappedByOnly f &&
      l.handedOver then
    some (s.handOver f)
  else
    let recorded := (List.range s.map.descSize).findSome? fun i =>
      (s.map.lp i).empLpLookupPmd f.vmr
    (recorded.or l.copyPmd).map fun p => s.copyLocal f p

/-- `handle_emp_cow_fault_hva`, for a write; `none` is an error. -/
def handleCowFault (s : HvaBlock V P) : Option (HvaBlock V P) :=
  if f.write && f.privateVma && s.map.cow 0 then
    if s.shared then s.dupCow c l f
    else some { s with map := { s.map with cow := fun _ => false } }
  else some s

/-! ### The fault -/

/-- A prefetch that is in flight is finished, for the host or for a guest. -/
def resumePrefetch (s : HvaBlock V P) : HvaBlock V P :=
  if s.rState = .active ∧ s.prefetched = true then
    let s := s.clearBlockW l
    if s.hpt then (s.hptesMap c l f true true l.resumePmd).1.clearPrefetched
    else if s.ept then
      let s := s.waitReads l (fun _ => false) s.map.descSize
      { s with map := { s.map with demandOffset := 0 } }.clearPrefetched
    else s.clearPrefetched
  else s

/-- `handle_active_fault`, and whether nothing is left to do; a fault of the host is always on the
processor of an I/O thread. -/
def handleActiveFault (s : HvaBlock V P) : HvaBlock V P × Bool :=
  if s.stale then ({ s with stale := false }, false)
  else if s.ept && !s.hpt then (s, false)
  else (s, (s.map.lp f.demand).empLpLookupVmr f.vmr)

/-- An unmapped block moves to the faulting process. -/
def takeOwner (s : HvaBlock V P) : HvaBlock V P :=
  let prev := (s.map.lp 0).empLpOwner
  if prev = some f.vmr then s
  else
    let size : ℤ := s.map.descSize * s.map.subblockSize
    { s with map := { s.map with
        lp := fun i => (s.map.lp i).empLpSetOwner f.vmr
        rss := fun v => s.map.rss v + (if v = f.vmr then size else 0) -
          if prev = some v then size else 0 } }

/-- `handle_inactive_fault`. -/
def handleInactiveFault (s : HvaBlock V P) : HvaBlock V P :=
  { (s.takeOwner f).clearBlockW l with rState := .active }

/-- `handle_writeback_fault`. -/
def handleWritebackFault (s : HvaBlock V P) : HvaBlock V P :=
  { s.takeOwner f with rState := .active, handle := false, pending := fun _ => false }

/-- `handle_remote_fault`, up to the stretch of the block; `fetch` says that reads were posted. -/
def handleRemoteFault (fetch : Bool) (s : HvaBlock V P) : HvaBlock V P :=
  { s with
    map := { s.map with
      lp := fun _ => MapperList.init (some f.vmr)
      pte := fun _ _ _ => none
      pageDirty := fun _ => false
      mapRefs := fun _ => 0
      rss := Function.update s.map.rss f.vmr
        (s.map.rss f.vmr + s.map.descSize * s.map.subblockSize)
      remote := fun i => fetch && s.map.remote i
      demandOffset := 0 }
    rState := .active
    stale := false
    pending := fun _ => fetch
    arrived := fun _ _ => !fetch }

/-- What two blocks have for their subblocks, side by side; `below` says that the other one is the
lower. -/
def beside {α : Type*} (below : Bool) (n m : ℕ) (own other : ℕ → α) (i : ℕ) : α :=
  if below then if i < m then other i else own (i - m)
  else if i < n then own i else other (i - n)

/-- `els_stretch_rep`, which merges a block with its buddy. -/
def stretch (below : Bool) (s b : HvaBlock V P) : HvaBlock V P :=
  let n := s.map.descSize
  let m := b.map.descSize
  { s with
    map := { s.map with
      descSize := n + m
      cow := beside below n m s.map.cow b.map.cow
      lp := beside below n m s.map.lp b.map.lp
      pte := beside below n m s.map.pte b.map.pte
      pageDirty := beside below n m s.map.pageDirty b.map.pageDirty
      mapRefs := beside below n m s.map.mapRefs b.map.mapRefs
      dirty := s.map.dirty || b.map.dirty
      remote := beside below n m s.map.remote b.map.remote
      demandOffset := if below then b.map.demandOffset else s.map.demandOffset }
    hpt := true
    prefetchOnce := true
    stretched := true
    pending := beside below n m s.pending b.pending
    arrived := beside below n m s.arrived b.arrived }

/-- The fault, with the index of the demanded subblock in the merged block. -/
def inStretched (below : Bool) (b : HvaBlock V P) : HvaFault V :=
  { f with demand := if below then f.demand + b.map.descSize else f.demand }

/-- The end of a fault: the block is mapped, and marked dirty by a write. -/
def mapFault (fetch : Bool) (s : HvaBlock V P) : HvaResult V P :=
  let (t, ret) := s.hptesMap c l f fetch false l.pmd
  ⟨if f.write then { t with map := { t.map with dirty := true } } else t, f.demand, ret⟩

/-- The fault on an active block. -/
def serveActive (s : HvaBlock V P) : HvaResult V P :=
  match s.handleActiveFault f with
  | (s, true) => ⟨s, f.demand, .noPage⟩
  | (s, false) => s.mapFault c l f false

/-- The fault on a block that is fetched. -/
def serveRemote (s : HvaBlock V P) : HvaResult V P :=
  match l.fetched with
  | none => ⟨s, f.demand, .sigbus⟩
  | some fetch =>
    let s := s.handleRemoteFault f fetch
    match if fetch then l.buddy else none with
    | none => s.mapFault c l f fetch
    | some (below, b) => (s.stretch below b).mapFault c l (inStretched f below b) fetch

/-- The fault by the state of the block. -/
def serve (s : HvaBlock V P) : HvaResult V P :=
  match s.rState with
  | .active => s.serveActive c l f
  | .inactive => (s.handleInactiveFault l f).mapFault c l f false
  | .wb =>
    if l.evicted then (s.handleWritebackFault f).mapFault c l f false
    else ⟨s, f.demand, .sigbus⟩
  | .init => s.serveRemote c l f

/-- `emp_page_fault_hva`. -/
def empPageFaultHva (s : HvaBlock V P) : HvaResult V P :=
  match s.handleCowFault c l f with
  | none => ⟨s, f.demand, .sigbus⟩
  | some s => (s.resumePrefetch c l f).serve c l f

end HvaBlock

end Emp
