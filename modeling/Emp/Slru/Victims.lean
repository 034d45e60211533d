import Emp.Slru.System

/-!
# The selection of victims

Blocks at the end of the proactive chain move to the active one, blocks at the end of the active
chain are unmapped and become inactive, and inactive blocks are evicted.  On the way, pinned blocks
are put on the pin list of the cpu, and blocks that were marked for it are promoted.

The transfers themselves, the unmapping and the reduction of elastic blocks are left out.

## Main definitions

* `Picked` — what a scan has taken off a list.
* `selectVictimsProactiveList`, `selectVictimsPinList`, `selectVictimsActiveList`,
  `selectVictimsInactiveList` — the scans.
* `updateLruListsCore` — `_update_lru_lists`.
* `reclaimEmpPages` — the reclaim of an allocation.
-/

namespace Emp

namespace Slru

open Program SlruSys

/-- What a scan has taken off its list. -/
structure Picked where
  vs : List ℕ
  toPin : List ℕ
  toPromote : List ℕ
  deriving Repr

/-- `NUM_VICTIM_CLUSTER`. -/
def numVictimCluster : ℕ := 8

/-- `get_list_ptr_inactive`. -/
def getListPtrInactive (cpu : ℤ) : LocalList := .inactive cpu

/-- A scan that leaves the blocks alone that it cannot lock. -/
def scanFree {A : Type} (a : A) (visit : ℕ → Picked → SlruSys A → Picked × SlruSys A × Bool)
    (l : LocalList) (o : Picked) (s : SlruSys A) : Picked × SlruSys A :=
  s.scanList a (fun o => (o, true)) visit (s.lists l) o

variable {A : Type} (a : A) (cpu : ℤ) (vsLen : ℕ)

/-! ### The proactive list -/

/-- A turn of the loop of `select_victims_proactive_list`. -/
def visitProactive (b : ℕ) (o : Picked) (s : SlruSys A) : Picked × SlruSys A × Bool :=
  let s := s.delist b (getListPtrLru true cpu)
  if (s.gpa b).flags .pinned then ({ o with toPin := o.toPin ++ [b] }, s, true)
  else
    ({ o with vs := o.vs ++ [b] },
      s.setGpa b { (s.gpa b).setFlag .proactive false with rState := .transPl },
      o.vs.length + 1 < vsLen)

/-- The part of `select_victims_proactive_list` from `retry_start` on; `again` is what follows when
the list has been refilled. -/
def proactiveRound (toPin : List ℕ) (again : List ℕ → SlruProg A Picked) : SlruProg A Picked := do
  let o ← act fun _ =>
    scanFree a (visitProactive cpu vsLen) (getListPtrLru true cpu) ⟨[], toPin, []⟩
  if o.vs ≠ [] then do
    modify fun s => s.addPageLen .proactive (-s.pagesOf o.vs)
    pure o
  else do
    let len ← read fun s => (s.lists (getListPtrLru true cpu)).length
    if len < slruQueueDepth then do
      let refill ← refillLruBuf a true cpu slruQueueDepth
      if refill ≠ 0 then again o.toPin else pure o
    else pure o

/-- `select_victims_proactive_list`. -/
def selectVictimsProactiveList : SlruProg A (List ℕ) := do
  -- one retry, and after that the list is filled for others
  let o ← proactiveRound a cpu vsLen [] fun toPin =>
    proactiveRound a cpu vsLen toPin fun toPin => pure ⟨[], toPin, []⟩
  whenever (o.toPin ≠ []) (moveToPinList cpu o.toPin true true)
  pure o.vs

/-- A turn of the loop of `select_victims_pin_list`. -/
def visitPin (b : ℕ) (o : Picked) (s : SlruSys A) : Picked × SlruSys A × Bool :=
  let s := s.delist b (s.getListPtrPin cpu)
  ({ o with vs := o.vs ++ [b] }, s.setGpa b ((s.gpa b).setFlag .pinned false),
    o.vs.length + 1 < vsLen)

/-- `select_victims_pin_list`; `num_pin_blocks` and its sibling are left out. -/
def selectVictimsPinList : SlruProg A ℕ := do
  let len ← read fun s => (s.lists (s.getListPtrPin cpu)).length
  if len = 0 then pure 0
  else do
    let o ← act fun _ s => scanFree a (visitPin cpu vsLen) (s.getListPtrPin cpu) ⟨[], [], []⟩ s
    if o.vs = [] then pure 0
    else do
      modify fun s => s.addPageLen .pin (-s.pagesOf o.vs)
      modify fun s => s.putBack (fun s b => s.enlist b (getListPtrMru true cpu) cpu .mru) o.vs
      pure o.vs.length

/-- A loop of `update_proactive_list` over the cpus, from the one at hand on; the second one tries
the pin list of each cpu before. -/
def proactiveLoop (unpin : Bool) : List ℤ → List ℕ → SlruProg A (List ℕ)
  | [], vs => pure vs
  | cpu :: cpus, vs => do
      let n ← (if unpin then selectVictimsPinList a cpu (vsLen - vs.length) else pure 1
        : SlruProg A ℕ)
      if n = 0 then proactiveLoop unpin cpus vs
      else do
        let more ← selectVictimsProactiveList a cpu (vsLen - vs.length)
        if vsLen ≤ (vs ++ more).length then pure (vs ++ more)
        else proactiveLoop unpin cpus (vs ++ more)

/-- `update_proactive_list`, over the cpus in the order of `for_all_vcpus_from`. -/
def updateProactiveList (cpus : List ℤ) : SlruProg A (List ℕ) := do
  let vs ← proactiveLoop a vsLen false cpus []
  let pinned ← read fun s => s.pageLen .pin
  if vs ≠ [] then pure vs
  else if pinned = 0 then pure vs
  else proactiveLoop a vsLen true cpus vs

/-! ### The active list -/

/-- A turn of the loop of `select_victims_active_list`. -/
def visitActive (luck : SlruLuck) (b : ℕ) (o : Picked) (s : SlruSys A) : Picked × SlruSys A × Bool :=
  let lru := getListPtrLru false cpu
  if (s.gpa b).flags .pinned then ({ o with toPin := o.toPin ++ [b] }, s.delist b lru, true)
  else if (s.gpa b).flags .promote then
    ({ o with toPromote := o.toPromote ++ [b] },
      (s.setGpa b ((s.gpa b).setFlag .promote false)).delist b lru, true)
  else if (s.gpa b).rState ≠ .fetching ∧ luck.gpaAcquire b then
    let s := s.delist b lru
    ({ o with vs := o.vs ++ [b] }, s.setGpa b { s.gpa b with rState := .transAl },
      o.vs.length + 1 < vsLen ∧ o.vs.length + 1 < numVictimCluster)
  else (o, s.release b, true)

/-- The part of `select_victims_active_list` from `retry_start` on. -/
def activeRound (o : Picked) (again : Picked → SlruProg A Picked) : SlruProg A Picked := do
  let o ← act fun luck => scanFree a (visitActive cpu vsLen luck) (getListPtrLru false cpu) o
  if o.vs ≠ [] then do
    modify fun s => s.addPageLen .active (-s.pagesOf o.vs)
    pure o
  else do
    let len ← read fun s => (s.lists (getListPtrLru false cpu)).length
    if len < slruQueueDepth then do
      let refill ← refillLruBuf a false cpu slruQueueDepth
      if refill ≠ 0 then again o else pure o
    else pure o

/-- `select_victims_active_list`. -/
def selectVictimsActiveList : SlruProg A (List ℕ) := do
  let o ← activeRound a cpu vsLen ⟨[], [], []⟩ fun o => activeRound a cpu vsLen o pure
  whenever (o.toPin ≠ []) do
    modify fun s => s.addPageLen .active (-s.pagesOf o.toPin)
    moveToPinList cpu o.toPin false true
  whenever (o.toPromote ≠ []) do
    let pages ← read fun s => s.pagesOf o.toPromote
    modify fun s => s.addPageLen .active (-pages)
    promoteGpas a cpu o.toPromote pages true
  pure o.vs

/-- The loop of `update_active_list` over the cpus. -/
def activeLoop : List ℤ → List ℕ → SlruProg A (List ℕ)
  | [], vs => pure vs
  | cpu :: cpus, vs => do
      let more ← selectVictimsActiveList a cpu (vsLen - vs.length)
      if vsLen ≤ (vs ++ more).length then pure (vs ++ more) else activeLoop cpus (vs ++ more)

/-- `wait_for_prefetched_blocks`. -/
def waitForPrefetchedBlocks (heads : List ℕ) (s : SlruSys A) : SlruSys A :=
  heads.foldl (fun s b =>
    if (s.gpa b).prefetched then s.setGpa b (s.gpa b).clearPrefetched else s) s

/-- `update_active_list`. -/
def updateActiveList (cpus : List ℤ) : SlruProg A (List ℕ) := do
  let vs ← activeLoop a vsLen cpus []
  whenever (vs ≠ []) (modify (waitForPrefetchedBlocks vs))
  pure vs

/-- `add_gpas_to_inactive`: the pages, or `none` when the eager writeback fails. -/
def addGpasToInactive (gpas : List ℕ) : SlruProg A (Option ℤ) := do
  modify fun s => gpas.foldl (fun s b =>
    let s := s.setGpa b { s.gpa b with rState := .inactive }
    s.enlist b (getListPtrInactive cpu) cpu .mru) s
  let pages ← read fun s => s.pagesOf gpas
  whenever (pages ≠ 0) (modify fun s => s.addPageLen .inactive pages)
  let fails ← ask SlruLuck.eagerWritebackFails
  pure (if fails then none else some pages)

/-- `emp_unlock_block` of each block. -/
def unlockBlocks : List ℕ → SlruProg A Unit
  | [] => pure ()
  | b :: bs => do
      modify fun s => s.release b
      unlockBlocks bs

/-! ### The inactive list -/

/-- A turn of the loop of `select_victims_inactive_list`. -/
def visitInactive (luck : SlruLuck) (b : ℕ) (o : Picked) (s : SlruSys A) :
    Picked × SlruSys A × Bool :=
  let list := getListPtrInactive cpu
  if (s.gpa b).flags .pinned then ({ o with toPin := o.toPin ++ [b] }, s.delist b list, true)
  else if (s.gpa b).flags .promote then
    ({ o with toPromote := o.toPromote ++ [b] },
      (s.setGpa b ((s.gpa b).setFlag .promote false)).delist b list, true)
  else if luck.checkBlockFree b then
    let s := s.delist b list
    ({ o with vs := o.vs ++ [b] }, s.setGpa b { s.gpa b with rState := .transIl },
      o.vs.length + 1 < vsLen)
  else (o, s.release b, true)

/-- `check_eager_wbr`. -/
def checkEagerWbr (bs : List ℕ) (s : SlruSys A) : SlruSys A :=
  bs.foldl (fun s b =>
    if (s.gpa b).flags .eagerWbr then
      s.setGpa b (((s.gpa b).setFlag .eagerWbr false).setFlag .dirty false)
    else s) s

/-- `select_victims_inactive_list`; what it takes from the pressure are the pages of the victims. -/
def selectVictimsInactiveList : SlruProg A (List ℕ) := do
  let o ← act fun luck =>
    scanFree a (visitInactive cpu vsLen luck) (getListPtrInactive cpu) ⟨[], [], []⟩
  whenever (o.toPin ≠ []) do
    modify fun s => s.addPageLen .inactive (-s.pagesOf o.toPin)
    moveToPinList cpu o.toPin false false
  whenever (o.toPromote ≠ []) do
    let pages ← read fun s => s.pagesOf o.toPromote
    modify fun s => s.addPageLen .inactive (-pages)
    modify (checkEagerWbr o.toPromote)
    promoteGpas a cpu o.toPromote pages false
  pure o.vs

/-- The first loop of `update_inactive_list`, over the cpus from the local one on. -/
def inactiveLoop : List ℤ → List ℕ → ℤ → ℤ → SlruProg A (List ℕ)
  | [], vs, _, _ => pure vs
  | cpu :: cpus, vs, hard, soft => do
      let len ← read fun s => (s.lists (getListPtrInactive cpu)).length
      if len = 0 then inactiveLoop cpus vs hard soft
      else do
        let more ← selectVictimsInactiveList a cpu (numVictimCluster - vs.length)
        let pages ← read fun s => s.pagesOf more
        if numVictimCluster ≤ (vs ++ more).length ∨ hard - pages ≤ 0 then pure (vs ++ more)
        else inactiveLoop cpus (vs ++ more) (hard - pages) (soft - pages)

/-- `set_gpa_remote` of a head. -/
def setGpaRemote (g : SlruGpa) : SlruGpa :=
  { g with
    rState := .init
    flags := fun f => (g.flags f && f.keep) || f = .remote }

/-- `push_writeback_request`. -/
def pushWritebackRequest (b : ℕ) (s : SlruSys A) : SlruSys A :=
  let s := s.enlist b (.writeback cpu) cpu .lru
  { s with inflightWritebackPageLen := s.inflightWritebackPageLen + s.config.blockSize b }

/-- `emp_writeback_block` of a block that nobody else holds; it tells whether it succeeds. -/
def empWritebackBlock (b : ℕ) : SlruProg A Bool := do
  modify (checkEagerWbr [b])
  let eviction ← ask SlruLuck.eviction
  match eviction with
  | .posted => do
      modify fun s => s.setGpa b { s.gpa b with rState := .wb }
      modify (pushWritebackRequest cpu b)
      pure true
  | .clean => do
      modify fun s => s.setGpa b (setGpaRemote (s.gpa b))
      modify fun s => s.addPageLen .inactive (-s.config.blockSize b)
      pure true
  | .failed headPosted => do
      modify fun s =>
        { s.setGpa b { s.gpa b with rState := if headPosted then .wb else (s.gpa b).rState } with
          failed := b :: s.failed }
      pure false

/-- The second loop of `update_inactive_list`; a failure ends it, and the blocks that are left are
unlocked. -/
def evictLoop : List ℕ → SlruProg A Bool
  | [] => pure true
  | b :: bs => do
      let ok ← empWritebackBlock cpu b
      if ok then do
        modify fun s => s.release b
        evictLoop bs
      else do
        modify fun s => { s with failed := bs ++ s.failed }
        unlockBlocks (b :: bs)
        pure false

/-- `update_inactive_list`: the pages of the victims, or `none` for an error. -/
def updateInactiveList (cpus : List ℤ) (hard soft : ℤ) : SlruProg A (Option ℤ) := do
  let vs ← inactiveLoop a cpus [] hard soft
  let pages ← read fun s => s.pagesOf vs
  let ok ← evictLoop cpu vs
  pure (if ok then some pages else none)

/-! ### All lists -/

/-- `_update_lru_lists`, with the cpus in the order of `for_all_vcpus_from`: the pages that it
releases, or `none` for an error. -/
def updateLruListsCore (cpus : List ℤ) (pressure : ℤ) : SlruProg A (Option ℤ) := do
  let full ← act fun _ s => (s.isProactiveListFull,
    if s.isProactiveListFull ∧ s.divider = 1 then { s with divider := 10 } else s)
  whenever full do
    let vs ← updateProactiveList a numVictimCluster cpus
    whenever (vs ≠ []) do
      let _ ← addGpasToActiveList a false cpu vs
      unlockBlocks vs
  let full ← read SlruSys.isActiveListFull
  let ok ← (if full then do
      let vs ← updateActiveList a numVictimCluster cpus
      if vs ≠ [] then do
        let ret ← addGpasToInactive cpu vs
        unlockBlocks vs
        pure ret.isSome
      else pure true
    else pure true : SlruProg A Bool)
  if ok then do
    let pressure ← read fun s => s.getPressureOfInactiveList pressure
    if 0 < pressure.2 then updateInactiveList a cpu cpus pressure.1 pressure.2 else pure (some 0)
  else pure none

/-- `PROACTIVE_FILTER`. -/
def proactiveFilter (s : SlruSys A) : Bool × SlruSys A :=
  ((s.epsilon + 1).tmod s.divider = 0, { s with epsilon := s.epsilon + 1 })

/-- `update_lru_lists`. -/
def updateLruLists (cpus : List ℤ) (newGs : List ℕ) (pressure : ℤ) : SlruProg A (Option ℤ) := do
  whenever (newGs ≠ []) do
    let proactive ← (if 0 ≤ pressure then act fun _ s => proactiveFilter s else pure true
      : SlruProg A Bool)
    let _ ← addGpasToActiveList a proactive cpu newGs
  updateLruListsCore a cpu cpus 0

/-- `update_lru_lists_reref`. -/
def updateLruListsReref (cpus : List ℤ) (newGs : List ℕ) : SlruProg A (Option ℤ) := do
  whenever (newGs ≠ []) do
    let _ ← addGpasToActiveList a true cpu newGs
  updateLruListsCore a cpu cpus 0

/-! ### The writeback lists -/

/-- A turn of the loop of `__wait_writeback_async` over a list. -/
def visitWriteback (pressure : ℤ) (b : ℕ) (o : List ℕ × ℤ) (s : SlruSys A) :
    (List ℕ × ℤ) × SlruSys A × Bool :=
  let t := s.delist b (.writeback cpu)
  if (s.gpa b).flags .promote then ((o.1 ++ [b], o.2), t, true)
  else ((o.1 ++ [b], o.2 + s.config.blockSize b), t, o.2 + s.config.blockSize b < pressure)

/-- The second loop of `__wait_writeback_async`.  The block becomes remote in any case, as
`set_gpa_remote` clears `GPA_PROMOTE`. -/
def clearLoop : List ℕ → SlruProg A Unit
  | [] => pure ()
  | b :: bs => do
      modify fun s => s.setGpa b (setGpaRemote (s.gpa b))
      modify fun s => s.addPageLen .inactive (-s.config.blockSize b)
      modify fun s => s.release b
      clearLoop bs

/-- `__wait_writeback_async`: the pages that it has reclaimed. -/
def waitWritebackAsync (pressure : ℤ) : SlruProg A ℤ := do
  let o ← act fun _ s => s.scanList a (fun o => (o, true)) (visitWriteback cpu pressure)
    (s.lists (.writeback cpu)) ([], 0)
  let pages ← read fun s => s.pagesOf o.1
  clearLoop o.1
  pure pages

/-- `wait_writeback_async` for the own list, and `wait_writeback_async_steal` for those of the other
cpus, until the pressure is met. -/
def waitLoop (pressure : ℤ) : List ℤ → ℤ → SlruProg A ℤ
  | [], reclaimed => pure reclaimed
  | cpu :: cpus, reclaimed =>
      if pressure ≤ reclaimed then pure reclaimed
      else do
        let more ← waitWritebackAsync a cpu (pressure - reclaimed)
        waitLoop pressure cpus (reclaimed + more)

/-- `emp_wait_for_writeback`, with the pages that the cpu has free. -/
def empWaitForWriteback (cpus : List ℤ) (pressure : ℤ) : SlruProg A ℤ := do
  let free ← ask SlruLuck.localFreePages
  waitLoop a pressure cpus free

/-- `reclaim_emp_pages`; `none` is an error. -/
def reclaimEmpPages (cpus : List ℤ) (pressure : ℤ) : SlruProg A (Option ℤ) := do
  let reclaimed ← empWaitForWriteback a cpus pressure
  if pressure ≤ reclaimed then pure (some reclaimed)
  else do
    let pressure := pressure - reclaimed
    let released ← updateInactiveList a cpu cpus pressure pressure
    match released with
    | none => pure none
    | some released => do
        let more ← (if released < pressure then
          updateLruListsCore a cpu cpus (pressure - released) else pure (some 0)
          : SlruProg A (Option ℤ))
        match more with
        | none => pure none
        | some more => do
            let rest ← empWaitForWriteback a cpus (released + more)
            pure (some (reclaimed + rest))

end Slru

end Emp
