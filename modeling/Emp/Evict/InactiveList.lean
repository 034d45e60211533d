import Emp.Evict.Failure
import Emp.Fetch.Block
import Emp.Lib.Tally

/-!
# The update of the inactive lists

`update_inactive_list` takes unused blocks off the inactive lists, locked and in the state
`GPA_TRANS_IL`, and evicts them one after the other, the sparsely referenced ones in pieces.
A block whose remote pages hold its contents becomes remote, any other one is posted and waits on
the writeback list of the cpu.  While a block is in hand its pages stay counted as inactive.

When an eviction fails the blocks that are left are unlocked and the error is returned.

What the requests of `evict_block` go through is in `Emp.Evict.Failure`; here it posts, fails, or
does not return.  The queues inside a list and the flushing of a full one are left out.

## Main definitions

* `LruGpa`, `InactiveSys` — a descriptor, and all of them with the lists and the page counts.
* `InactiveSys.selectVictims` — the selection from the lists of all cpus.
* `InactiveSys.reduceAndWriteback`, `InactiveSys.updateInactiveList` — the eviction.
-/

namespace Emp

/-- The lists that the local page of a head can be on. -/
inductive LruList
  | inactive (cpu : ℕ)
  | writeback (cpu : ℕ)
  | proactive (cpu : ℕ)
  | pin (cpu : ℕ)
  deriving DecidableEq, Repr

/-- `inactive_list.page_len`, `proactive_list.page_len` and `cur_pin_pages`. -/
inductive PageLen
  | inactive
  | proactive
  | pin
  deriving DecidableEq, Repr

/-- The page counts that include a list. -/
def LruList.countedBy : LruList → PageLen → Bool
  | .inactive _, k | .writeback _, k => k == .inactive
  | .proactive _, k => k == .proactive
  | .pin _, k => k != .inactive

/-- A descriptor.  `lock` tells whether the updater holds it, `w` whether the local page has a
request, `idle` whether nobody else refers to the page. -/
structure LruGpa where
  descOrder : ℕ
  rState : GpaState
  flags : GpaFlag → Bool
  list : Option LruList
  lock : Bool
  remotePageFree : Bool
  w : Bool
  idle : Bool

/-- The options that matter to an eviction. -/
structure EvictConfig where
  elsDisabled : Bool
  remoteReuse : Bool
  writebackOptimizationDisable : Bool

/-- The descriptors, the inactive list of each cpu from its first to its last block, and the page
counts.  `stray` tells whether a lock was released that was not held. -/
structure InactiveSys where
  config : EvictConfig
  sbPages : ℕ
  numDescs : ℕ
  gpa : ℕ → LruGpa
  inactive : ℕ → List ℕ
  pageLen : PageLen → ℤ
  stray : Bool

/-- What others do to the updater: which blocks they hold when it scans the lists, which
descriptors when a block is to be broken up or halved, and what the eviction of a head meets. -/
structure UpdateLuck where
  busy : ℕ → Bool
  held : ℕ → Bool
  heldBuddy : ℕ → Bool
  evict : ℕ → EvictedBlock.Luck

namespace LruGpa

variable (g : LruGpa)

def setFlag (f : GpaFlag) (b : Bool) : LruGpa := { g with flags := Function.update g.flags f b }

def clearW : LruGpa := { g with w := false }

/-- `post_writeback_async` of a subblock. -/
def posted : LruGpa := { g with rState := .wb, w := true, remotePageFree := false }

/-- `set_gpa_remote`. -/
def setGpaRemote : LruGpa :=
  { g with
    rState := .init
    flags := Function.update (fun f => f.keep && g.flags f) .remote true
    w := false }

/-- What promotes a head to the proactive list of cpu `c`. -/
def promote (c : ℕ) : LruGpa :=
  { ((g.setFlag .proactive true).setFlag .prefetchedBlk true).setFlag .prefetchOnce true with
    list := some (.proactive c), rState := .active }

/-- What moves a head to the pin list of cpu `c`. -/
def moveToPinList (c : ℕ) : LruGpa := { (g.promote c).setFlag .hpt true with list := some (.pin c) }

end LruGpa

namespace InactiveSys

variable (s : InactiveSys) (l : UpdateLuck) (p : ℕ)

/-- `num_subblock_in_block`. -/
def numSubblock : ℕ := 2 ^ (s.gpa p).descOrder

/-- `gpa_block_size`. -/
def blockSize : ℤ := s.sbPages * 2 ^ (s.gpa p).descOrder

def setGpa (g : LruGpa) : InactiveSys := { s with gpa := Function.update s.gpa p g }

/-- `for_each_gpas` of the block of `p`. -/
def mapBlock (f : LruGpa → LruGpa) : InactiveSys :=
  { s with gpa := fun d =>
      if p ≤ d ∧ d < p + s.numSubblock p then f (s.gpa d) else s.gpa d }

def addPageLen (k : PageLen) (n : ℤ) : InactiveSys :=
  { s with pageLen := Function.update s.pageLen k (s.pageLen k + n) }

/-- A lock that was tried for and obtained. -/
def lock : InactiveSys := s.setGpa p { s.gpa p with lock := true }

/-- `emp_unlock_block`. -/
def unlock : InactiveSys :=
  { s.setGpa p { s.gpa p with lock := false } with stray := s.stray || !(s.gpa p).lock }

/-- `check_eager_wbr`. -/
def checkEagerWbr : InactiveSys :=
  if (s.gpa p).flags .eagerWbr then
    let s := s.mapBlock p LruGpa.clearW
    s.setGpa p (((s.gpa p).setFlag .eagerWbr false).setFlag .dirty false)
  else s

/-! ### Selection -/

/-- `check_block_free`. -/
def checkBlockFree : Bool :=
  (List.range (s.numSubblock p)).all fun i => (s.gpa (p + i)).idle

/-- The local page of `p` leaves the inactive list of `c`. -/
def delist (c : ℕ) : InactiveSys :=
  { s.setGpa p { s.gpa p with list := none } with
    inactive := Function.update s.inactive c ((s.inactive c).erase p) }

/-- What a scan has taken off its list, and the pressure that remains. -/
structure Scan where
  sys : InactiveSys
  vs : List ℕ
  toPin : List ℕ
  toPromote : List ℕ
  pressure : ℤ

/-- A turn of the loop of `select_victims_inactive_list`, for a block that it has locked. -/
def scanBlock (c v : ℕ) (x : Scan) : Scan :=
  let s := x.sys.lock v
  if (s.gpa v).flags .pinned then
    { x with sys := s.delist v c, toPin := x.toPin ++ [v] }
  else if (s.gpa v).flags .promote then
    let s := s.setGpa v ((s.gpa v).setFlag .promote false)
    { x with sys := s.delist v c, toPromote := x.toPromote ++ [v] }
  else if s.checkBlockFree v then
    let s := s.delist v c
    { x with
      sys := s.setGpa v { s.gpa v with rState := .transIl }
      vs := x.vs ++ [v]
      pressure := x.pressure - s.blockSize v }
  else { x with sys := s.unlock v }

/-- The loop of `select_victims_inactive_list`. -/
def scanList (c vsLen : ℕ) : List ℕ → Scan → Scan
  | [], x => x
  | v :: rest, x =>
      if l.busy v then scanList c vsLen rest x
      else
        let x := scanBlock c v x
        if vsLen ≤ x.vs.length then x else scanList c vsLen rest x

/-- `__move_to_pin_list` of one block. -/
def moveToPinList (c : ℕ) (s : InactiveSys) (v : ℕ) : InactiveSys :=
  let s := s.addPageLen .inactive (-s.blockSize v)
  let s := s.setGpa v ((s.gpa v).moveToPinList c)
  ((s.addPageLen .proactive (s.blockSize v)).addPageLen .pin (s.blockSize v)).unlock v

/-- `__promote_gpas` of one block. -/
def promoteGpas (c : ℕ) (s : InactiveSys) (v : ℕ) : InactiveSys :=
  let s := (s.addPageLen .inactive (-s.blockSize v)).checkEagerWbr v
  let s := s.setGpa v ((s.gpa v).promote c)
  (s.addPageLen .proactive (s.blockSize v)).unlock v

/-- `select_victims_inactive_list`. -/
def selectVictimsInactiveList (c vsLen : ℕ) (pressure : ℤ) : Scan :=
  let x := scanList l c vsLen (s.inactive c) ⟨s, [], [], [], pressure⟩
  { x with sys := x.toPromote.foldl (promoteGpas c) (x.toPin.foldl (moveToPinList c) x.sys) }

/-- `NUM_VICTIM_CLUSTER`. -/
def numVictimCluster : ℕ := 8

/-- The first loop of `update_inactive_list`, over the cpus from the local one on. -/
def selectVictims : List ℕ → ℤ → ℤ → InactiveSys × List ℕ → InactiveSys × List ℕ
  | [], _, _, x => x
  | c :: cpus, hard, soft, (s, victims) =>
      if s.inactive c = [] then selectVictims cpus hard soft (s, victims)
      else
        let x := s.selectVictimsInactiveList l c (numVictimCluster - victims.length) soft
        let hard := hard - (soft - x.pressure)
        if numVictimCluster ≤ (victims ++ x.vs).length ∨ hard ≤ 0 then (x.sys, victims ++ x.vs)
        else selectVictims cpus hard x.pressure (x.sys, victims ++ x.vs)

/-! ### Eviction -/

/-- `clear_block_w` of a block that is not being written back. -/
def clearBlockW : InactiveSys :=
  let s := (s.checkEagerWbr p).mapBlock p LruGpa.clearW
  s.setGpa p ((s.gpa p).setFlag .prefetchedBlk false)

/-- The end of `evict_block` and `push_writeback_request` to the list of `cpu`. -/
def pushWritebackRequest (cpu : ℕ) : InactiveSys :=
  let s := s.mapBlock p LruGpa.posted
  s.setGpa p { s.gpa p with list := some (.writeback cpu) }

/-- The failure path of `evict_block` gives the remote pages back. -/
def freeRemotePages : InactiveSys :=
  s.mapBlock p fun g => { g with remotePageFree := !s.config.remoteReuse }

/-- `evict_block`, and whether it posted the writeback.  When the second post fails the failure
path finds the list of requests behind the head empty and does not end; when a later one does it
finds a request there and leaves the subblocks before as they are.  The words that a failed
allocation has filled are left out. -/
def evictBlock (cpu : ℕ) : Option (InactiveSys × Bool) :=
  let s := s.clearBlockW p
  if (l.evict p).alloc then
    match (List.range (s.numSubblock p)).find? (l.evict p).fails with
    | none => some (s.pushWritebackRequest p cpu, true)
    | some 0 => some (s.freeRemotePages p, false)
    | some 1 => none
    | some i =>
        let t := s.freeRemotePages p
        some ({ t with gpa := fun d =>
          if p ≤ d ∧ d < p + i then { t.gpa d with rState := .wb, w := true } else t.gpa d }, false)
  else some (s, false)

/-- `is_block_remote_page_valid`. -/
def isBlockRemotePageValid : Bool :=
  if !(s.gpa p).flags .touched then true
  else if (s.gpa p).rState == .wb then false
  else (List.range (s.numSubblock p)).all fun i => !(s.gpa (p + i)).remotePageFree

/-- `check_need_writeback`, but for the dirty flag that it clears. -/
def checkNeedWriteback : Bool :=
  if s.config.writebackOptimizationDisable then true
  else if !s.config.remoteReuse then true
  else if !s.isBlockRemotePageValid p then true
  else (s.gpa p).flags .dirty

/-- The dirty flag after `check_need_writeback`. -/
def clearDirty : InactiveSys :=
  if s.config.writebackOptimizationDisable || !s.config.remoteReuse ||
    !s.isBlockRemotePageValid p then s
  else s.setGpa p ((s.gpa p).setFlag .dirty false)

inductive WbResult
  | posted
  | clean
  | error
  deriving DecidableEq, Repr

/-- `emp_writeback_block`. -/
def empWritebackBlock (cpu : ℕ) : Option (InactiveSys × WbResult) :=
  if s.checkNeedWriteback p then
    ((s.clearDirty p).evictBlock l p cpu).map fun (s, posted) =>
      (s, if posted then .posted else .error)
  else
    let s := (s.clearDirty p).mapBlock p LruGpa.setGpaRemote
    some (s.addPageLen .inactive (-s.blockSize p), .clean)

/-- What a descriptor becomes that is made the head of a piece of the block of `p`. -/
def pieceHead (g : LruGpa) : LruGpa :=
  { g with flags := (s.gpa p).flags, rState := (s.gpa p).rState, lock := true }

/-- `els_tryreduce_complete`: the heads of the pieces, if all locks are obtained.  Each member has
its local page. -/
def elsTryreduceComplete : Option (InactiveSys × List ℕ) :=
  let n := s.numSubblock p
  if (List.range n).all fun i => i == 0 || !l.held (p + i) then
    some (s.mapBlock p fun g => { s.pieceHead p g with descOrder := 0 },
      (List.range n).map (p + ·))
  else none

/-- `els_reduce`: the two heads, if the lock of the buddy is obtained. -/
def elsReduce : Option (InactiveSys × List ℕ) :=
  let buddy := p + s.numSubblock p / 2
  if l.heldBuddy buddy then none
  else
    let t := s.mapBlock p fun g => { g with descOrder := (s.gpa p).descOrder - 1 }
    some (t.setGpa buddy (s.pieceHead p (t.gpa buddy)), [p, buddy])

/-- The block and its heads after the first part of `reduce_and_writeback`. -/
def reduceBlock : InactiveSys × List ℕ :=
  ((s.elsTryreduceComplete l p).or (s.elsReduce l p)).getD (s, [p])

/-- The loop of `reduce_and_writeback` with its error path: the pages that were posted, or
nothing if there was an error. -/
def writebackPieces (cpu : ℕ) : List ℕ → InactiveSys → ℤ → Option (InactiveSys × Option ℤ)
  | [], s, n => some (s, some n)
  | h :: hs, s, n =>
      match s.empWritebackBlock l h cpu with
      | none => none
      | some (s, .error) => some ((h :: hs).foldl unlock s, none)
      | some (s, .posted) => writebackPieces cpu hs (s.unlock h) (n + s.blockSize h)
      | some (s, .clean) => writebackPieces cpu hs (s.unlock h) n

/-- `reduce_and_writeback`. -/
def reduceAndWriteback (cpu : ℕ) : Option (InactiveSys × Option ℤ) :=
  let (s, hs) := s.reduceBlock l p
  writebackPieces l cpu hs s 0

/-- The number of referenced subblocks that `els_reduce_and_writeback_block` counts. -/
def refCount : ℕ :=
  ((List.range (s.numSubblock p)).filter fun i => (s.gpa (p + i)).flags .referenced).length

/-- `els_need_reduce`, the threshold being a quarter of the subblocks. -/
def elsNeedReduce : Bool :=
  !s.config.elsDisabled && decide (0 < (s.gpa p).descOrder) && !(s.gpa p).w &&
    decide (s.refCount p ≤ s.numSubblock p / 4)

/-- The second loop of `update_inactive_list` with its error path, and `n_victim_pages`. -/
def writebackVictims (cpu : ℕ) : List ℕ → InactiveSys → ℤ → Option (InactiveSys × Option ℤ)
  | [], s, n => some (s, some n)
  | v :: vs, s, n =>
      let s := s.checkEagerWbr v
      let n := n + s.blockSize v
      if s.elsNeedReduce v then
        match s.reduceAndWriteback l v cpu with
        | none => none
        | some (s, none) => some ((v :: vs).foldl unlock s, none)
        | some (s, some _) => writebackVictims cpu vs s n
      else
        match s.empWritebackBlock l v cpu with
        | none => none
        | some (s, .error) => some ((v :: vs).foldl unlock s, none)
        | some (s, _) => writebackVictims cpu vs (s.unlock v) n

/-- `update_inactive_list` on `cpu`, with the cpus in the order in which it scans them. -/
def updateInactiveList (cpu : ℕ) (cpus : List ℕ) (hard soft : ℤ) :
    Option (InactiveSys × Option ℤ) :=
  let (s, victims) := selectVictims l cpus hard soft (s, [])
  writebackVictims l cpu victims s 0

end InactiveSys

end Emp
