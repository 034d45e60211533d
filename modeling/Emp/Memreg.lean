import Emp.RemotePage
import Emp.Lib.BitSearch
import Emp.Lib.Transition
import Mathlib.Data.List.Range
import Mathlib.Tactic.Ring

/-!
# The remote memory allocator

A donor region keeps a bitmap of its subblock-sized pages (a set bit is a page
that may be handed out), two cursors into it and the number of pages in use.
`allocRemotePage` gives a page to every subblock of a block that has none, under
one of three policies; `freeRemotePage` returns the page of one subblock.

## Main definitions

* `Memreg`, `RemoteMem` — one region; all regions, the round-robin cursors and
  the words of the descriptors.
* `lockNextAvailMr` — the search for a region with room.
* `remotePagePolicySequential`, `remotePagePolicySameMr`,
  `remotePagePolicyDiffMr` — the three allocation loops.
* `allocRemotePage`, `freeRemotePage` — the two operations.
-/

namespace Emp

open BitSearch

/-- A donor region.  `allocBitmap` has one bit for each `1 << dmaOrder` pages. -/
structure Memreg where
  id : ℕ
  /-- The region's length in pages. -/
  size : ℕ
  dmaOrder : ℕ
  allocLen : ℤ
  allocBitmap : ℕ → Bool
  freeStart : ℕ
  allocNext : ℕ
  deriving Inhabited

/-- The region `create_mr` sets up for a donor of `mb` megabytes. -/
def createMr (id mb sbOrder : ℕ) : Memreg where
  id := id
  size := mb <<< 8
  dmaOrder := sbOrder
  allocLen := 0
  allocBitmap := fun _ => true
  freeStart := 0
  allocNext := 0

/-- The regions of an `emp_mm`, its allocation cursors, and the remote page words
of all descriptors.  A slot of `memregs` is `none` where the array holds NULL. -/
structure RemoteMem where
  memregs : ℕ → Option Memreg
  /-- The last region id in use, plus one. -/
  memregsLast : ℕ
  memregsNumAlloc : ℕ
  memregsLastAlloc : ℕ
  remotePage : ℕ → RemotePage

/-- `remote_policy_subblock`. -/
inductive RemotePolicySubblock
  | any
  | sameMr
  | diffMr
  deriving DecidableEq, Repr

/-- The fields of the configuration that the allocator reads. -/
structure AllocConfig where
  remotePolicySubblock : RemotePolicySubblock
  remotePolicyBlock : ℕ
  remoteReuse : Bool

namespace RemoteMem

/-- The region a non-NULL slot holds. -/
def mr (s : RemoteMem) (mrid : ℕ) : Memreg := (s.memregs mrid).getD default

def setMr (s : RemoteMem) (mrid : ℕ) (mr : Memreg) : RemoteMem :=
  { s with memregs := Function.update s.memregs mrid (some mr) }

def setWord (s : RemoteMem) (g : ℕ) (rp : RemotePage) : RemoteMem :=
  { s with remotePage := Function.update s.remotePage g rp }

end RemoteMem

/-! ## The search for a region -/

/-- The test of `__lock_next_avail_mr` on one slot. -/
def availMr (s : RemoteMem) (num mrid : ℕ) : Bool :=
  match s.memregs mrid with
  | some mr => decide (mr.allocLen + num ≤ mr.size)
  | none => false

/-- The `do … while (mrid != mrid_first)` loop. -/
def lockNextAvailMrLoop (s : RemoteMem) (mridFirst num : ℕ) : ℕ → ℕ → Option ℕ
  | 0, _ => none
  | fuel + 1, mrid =>
      if availMr s num mrid then some mrid
      else
        let next := (mrid + 1) % s.memregsLast
        if next = mridFirst then none else lockNextAvailMrLoop s mridFirst num fuel next

/-- `__lock_next_avail_mr`.  The loop is back at `mrid_first` after at most
`memregs_last` turns, see `lockNextAvailMrLoop_none`. -/
def lockNextAvailMr (s : RemoteMem) (prev : Option ℕ) (mridFirst num : ℕ) : Option ℕ :=
  if s.memregsLast = 0 then none
  else
    let start := match prev with
      | some id => (id + 1) % s.memregsLast
      | none => mridFirst
    lockNextAvailMrLoop s mridFirst num s.memregsLast start

/-! ## Taking one page -/

/-- The two searches of every policy: from `alloc_next`, then from `free_start`. -/
def findFree (mr : Memreg) (sbOrder : ℕ) : ℕ :=
  let offset := findNextBit mr.allocBitmap (mr.size >>> sbOrder) mr.allocNext
  if offset = mr.size >>> sbOrder then
    findNextBit mr.allocBitmap (mr.size >>> sbOrder) mr.freeStart
  else offset

/-- Clear the bit that was found and move the cursors past it. -/
def clearOffset (mr : Memreg) (offset : ℕ) : Memreg :=
  { mr with
    allocBitmap := Function.update mr.allocBitmap offset false
    allocNext := offset + 1
    freeStart := if mr.freeStart = offset then offset + 1 else mr.freeStart }

/-- Hand out the page at `offset` of the locked region to descriptor `g`. -/
def takeOffset (s : RemoteMem) (sbOrder mrid g offset : ℕ) : RemoteMem :=
  (s.setMr mrid (clearOffset (s.mr mrid) offset)).setWord g
    (.page (s.mr mrid).id (offset <<< sbOrder))

/-- `atomic64_add(n, &mr->alloc_len)`. -/
def addAllocLen (s : RemoteMem) (mrid : ℕ) (n : ℤ) : RemoteMem :=
  s.setMr mrid { s.mr mrid with allocLen := (s.mr mrid).allocLen + n }

/-! ## The three policies

Each takes the descriptors of the block in order and answers the number of
subblocks that it did not get to. -/

/-- The loop of `remote_page_policy_sequential`; `none` if the fuel runs out. -/
def sequentialLoop (sbOrder mridFirst : ℕ) :
    ℕ → RemoteMem → Option ℕ → List ℕ → Option (RemoteMem × Option ℕ × ℕ)
  | 0, _, _, _ => none
  | _ + 1, s, none, gs => some (s, none, gs.length)
  | _ + 1, s, some mrid, [] => some (s, some mrid, 0)
  | fuel + 1, s, some mrid, g :: gs =>
      if (s.remotePage g).isFree then
        let s' := addAllocLen s mrid (1 <<< sbOrder : ℕ)
        let offset := findFree (s'.mr mrid) sbOrder
        if offset = (s'.mr mrid).size >>> sbOrder then
          -- the region is used up: undo the reserve and try the next one
          let s'' := addAllocLen s' mrid (-(1 <<< sbOrder : ℕ))
          sequentialLoop sbOrder mridFirst fuel s''
            (lockNextAvailMr s'' (some (s''.mr mrid).id) mridFirst (1 <<< sbOrder)) (g :: gs)
        else
          sequentialLoop sbOrder mridFirst fuel (takeOffset s' sbOrder mrid g offset)
            (some mrid) gs
      else sequentialLoop sbOrder mridFirst fuel s (some mrid) gs

/-- `memregs_last_alloc = mr->id` for the region that is locked at the end. -/
def setLastAlloc (s : RemoteMem) : Option ℕ → RemoteMem
  | some mrid => { s with memregsLastAlloc := (s.mr mrid).id }
  | none => s

/-- `remote_page_policy_sequential`. -/
def remotePagePolicySequential (s : RemoteMem) (sbOrder : ℕ) (gs : List ℕ) (mridFirst : ℕ) :
    Option (RemoteMem × ℕ) :=
  (sequentialLoop sbOrder mridFirst (2 * gs.length + 2) s
    (lockNextAvailMr s none mridFirst (1 <<< sbOrder)) gs).map
    fun (s', mr, rem) => (setLastAlloc s' mr, rem)

/-- One turn of the loop of `remote_page_policy_same_mr`: the room was checked for
the whole block, so the offset is not looked at again. -/
def sameMrStep (sbOrder mrid : ℕ) (s : RemoteMem) (g : ℕ) : RemoteMem :=
  if (s.remotePage g).isFree then takeOffset s sbOrder mrid g (findFree (s.mr mrid) sbOrder)
  else s

/-- `remote_page_policy_same_mr`. -/
def remotePagePolicySameMr (s : RemoteMem) (sbOrder : ℕ) (gs : List ℕ) (mridFirst : ℕ) :
    RemoteMem × ℕ :=
  match lockNextAvailMr s none mridFirst (gs.length <<< sbOrder) with
  | none => (s, gs.length)
  | some mrid =>
      let s' := setLastAlloc (addAllocLen s mrid (gs.length <<< sbOrder : ℕ)) (some mrid)
      (gs.foldl (sameMrStep sbOrder mrid) s', 0)

/-- The loop of `remote_page_policy_diff_mr`.  It stays on the region when
`(mr->id + 1) % mrid_last` is the region itself, without a new check for room. -/
def diffMrLoop (sbOrder : ℕ) :
    RemoteMem → Option ℕ → List ℕ → RemoteMem × Option ℕ × ℕ
  | s, none, gs => (s, none, gs.length)
  | s, some mrid, [] => (s, some mrid, 0)
  | s, some mrid, g :: gs =>
      let s' :=
        if (s.remotePage g).isFree then
          let s₁ := addAllocLen s mrid (1 <<< sbOrder : ℕ)
          takeOffset s₁ sbOrder mrid g (findFree (s₁.mr mrid) sbOrder)
        else s
      let mridFirst := ((s'.mr mrid).id + 1) % s'.memregsLast
      if mridFirst ≠ (s'.mr mrid).id then
        diffMrLoop sbOrder s' (lockNextAvailMr s' none mridFirst 1) gs
      else diffMrLoop sbOrder s' (some mrid) gs

/-- `remote_page_policy_diff_mr`. -/
def remotePagePolicyDiffMr (s : RemoteMem) (sbOrder : ℕ) (gs : List ℕ) (mridFirst : ℕ) :
    RemoteMem × ℕ :=
  let (s', mr, rem) :=
    diffMrLoop sbOrder s (lockNextAvailMr s none mridFirst (1 <<< sbOrder)) gs
  (setLastAlloc s' mr, rem)

/-- The table `remote_page_policy`. -/
def remotePagePolicy (policy : RemotePolicySubblock) (s : RemoteMem) (sbOrder : ℕ)
    (gs : List ℕ) (mridFirst : ℕ) : Option (RemoteMem × ℕ) :=
  match policy with
  | .any => remotePagePolicySequential s sbOrder gs mridFirst
  | .sameMr => some (remotePagePolicySameMr s sbOrder gs mridFirst)
  | .diffMr => some (remotePagePolicyDiffMr s sbOrder gs mridFirst)

/-! ## Allocation and release -/

/-- `____free_remote_page` of a word that is not free: set the page's bit, lower
`alloc_len` and `free_start`, and free the word. -/
def freeRemotePage (s : RemoteMem) (g : ℕ) : RemoteMem :=
  match s.remotePage g with
  | .free => s
  | .page mrid offset =>
      let mr := s.mr mrid
      let pgoff := offset >>> mr.dmaOrder
      (s.setMr mrid
        { mr with
          allocLen := mr.allocLen - (1 <<< mr.dmaOrder : ℕ)
          allocBitmap := Function.update mr.allocBitmap pgoff true
          freeStart := if pgoff < mr.freeStart then pgoff else mr.freeStart }).setWord g .free

/-- `__free_remote_page_block`, and the same loop at the end of
`alloc_remote_page`: nothing is released when remote pages are reused. -/
def freeRemotePageBlock (cfg : AllocConfig) (s : RemoteMem) (gs : List ℕ) : RemoteMem :=
  if cfg.remoteReuse then s else gs.foldl freeRemotePage s

/-- `__check_mr_change`. -/
def checkMrChange (cfg : AllocConfig) (s : RemoteMem) : Bool × RemoteMem :=
  if cfg.remotePolicyBlock = 0 then (false, s)
  else (decide (s.memregsNumAlloc % cfg.remotePolicyBlock = 0),
    { s with memregsNumAlloc := s.memregsNumAlloc + 1 })

/-- The region where `__alloc_remote_page` starts to look. -/
def mridFirst (cfg : AllocConfig) (s : RemoteMem) : ℕ :=
  if (checkMrChange cfg s).1 then (s.memregsLastAlloc + 1) % s.memregsLast
  else s.memregsLastAlloc

/-- The call of the policy in `__alloc_remote_page`. -/
def runPolicy (cfg : AllocConfig) (sbOrder : ℕ) (s : RemoteMem) (gs : List ℕ) :
    Option (RemoteMem × ℕ) :=
  remotePagePolicy cfg.remotePolicySubblock (checkMrChange cfg s).2 sbOrder gs (mridFirst cfg s)

/-- `alloc_remote_page` on the block of descriptors `gs`: the new state and
whether it succeeded. -/
def allocRemotePage (cfg : AllocConfig) (sbOrder : ℕ) (s : RemoteMem) (gs : List ℕ) :
    Option (RemoteMem × Bool) :=
  if gs.any fun g => (s.remotePage g).isFree then
    (runPolicy cfg sbOrder s gs).map fun (s', rem) =>
      if rem = 0 then (s', true)
      else (freeRemotePageBlock cfg (freeRemotePageBlock cfg s' gs) gs, false)
  else some (s, true)

/-- The descriptors of the block of `1 << order` subblocks at `head`. -/
def gpasOf (head order : ℕ) : List ℕ := List.range' head (1 <<< order)

inductive AllocAction
  | alloc (cfg : AllocConfig) (head order : ℕ)
  | release (g : ℕ)

/-- One operation of the allocator. -/
def allocStep (sbOrder : ℕ) (s : RemoteMem) : AllocAction → Option RemoteMem
  | .alloc cfg head order => (allocRemotePage cfg sbOrder s (gpasOf head order)).map Prod.fst
  | .release g => some (freeRemotePage s g)

/-- The states before the first allocation: at least one region, each as
`create_mr` leaves it, and no word names a page.  A subblock is at most
`1 << DMA_OPERATION_MAX_ORDER` pages. -/
structure AllocInit (sbOrder : ℕ) (s : RemoteMem) : Prop where
  sbOrder_le : sbOrder ≤ 5
  last_pos : 0 < s.memregsLast
  lt_last : ∀ id, (s.memregs id).isSome → id < s.memregsLast
  last_some : (s.memregs (s.memregsLast - 1)).isSome
  fresh : ∀ id mr, s.memregs id = some mr → ∃ mb, mr = createMr id mb sbOrder
  lastAlloc : s.memregsLastAlloc < s.memregsLast
  words : ∀ g, s.remotePage g = .free

end Emp
