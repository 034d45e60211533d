import Emp.Fetch.Requests
import Emp.RemotePage

/-!
# Fetching a block

A remote fault takes one page for each subblock, gives each subblock its local page, the demanded
one first, and posts its read, unless the block is touched for the first time or marked stale.  If a
step fails, what was done is unwound: the reads in flight are waited for and cancelled, the local
pages are freed, and the flags of `GPA_CLEANUP_MASK` of these subblocks are cleared.

## Main definitions

* `GpaFlag`, `RemoteBlock` — the flags of a descriptor, and the block.
* `RemoteBlock.fetchSubblock`, `fetchBlock`, `unwindFetchBlock` — the fetch and its unwinding.
* `RemoteBlock.handleRemoteFault` — the fault.
-/

namespace Emp

/-- `enum gpa_flags`, without those of `CONFIG_EMP_IO`. -/
inductive GpaFlag
  | touched
  | dirty
  | access
  | ept
  | hpt
  | remote
  | prefetchedCsf
  | prefetchedCpf
  | prefetchedBlk
  | prefetchOnce
  | referenced
  | lowmemoryBlock
  | staleBlock
  | partialMap
  | promote
  | proactive
  | eagerWbr
  | stretched
  | pinned
  | wprotect
  deriving DecidableEq, Repr

/-- `GPA_KEEP_FLAGS_MASK`; all others are in `GPA_CLEANUP_MASK`. -/
def GpaFlag.keep : GpaFlag → Bool
  | .touched | .lowmemoryBlock | .partialMap | .pinned | .wprotect => true
  | _ => false

/-- The states of a block in a remote fault. -/
inductive RemoteState
  | init
  | active
  | fetching
  deriving DecidableEq, Repr

inductive FetchError
  | eintr
  | enomem
  | enxio
  deriving DecidableEq, Repr

/-- A block in a remote fault.  `posted` are the subblocks whose reads were posted, in order;
`isCow` says that a word is shared; `taken` and `pushed` count how often each page was taken for
the block and pushed to a free page list. -/
structure RemoteBlock where
  reads : FetchedBlock
  posted : List ℕ
  localPage : ℕ → Option ℕ
  remotePage : ℕ → RemotePage
  isCow : ℕ → Bool
  flags : ℕ → GpaFlag → Bool
  rState : RemoteState
  taken : ℕ → ℕ
  pushed : ℕ → ℕ
  rss : ℤ
  blockCount : ℤ

/-- The block of the fault, its donors, and the faulting thread. -/
structure FaultPlace where
  numSubblock : ℕ
  subblockSize : ℕ
  reads : ReadPlace
  remoteReuse : Bool
  ioThread : Bool

/-- What the rest of the kernel decides: a signal, the pages, the records and the posts of the
subblocks, and the outcome of the reads that are waited for. -/
structure FetchLuck where
  killed : Bool
  allocPages : ℕ → Option ℕ
  allocLocalPage : ℕ → Bool
  post : ℕ → Option FetchError
  readOk : ℕ → Bool
  errno : ℕ → ℕ

namespace RemoteBlock

variable (p : FaultPlace) (l : FetchLuck) (s : RemoteBlock)

/-- `set_gpa_flags_if_unset` or `clear_gpa_flags_if_set` of one flag of subblock `i`. -/
def setFlag (i : ℕ) (f : GpaFlag) (v : Bool) : RemoteBlock :=
  { s with flags := Function.update s.flags i (Function.update (s.flags i) f v) }

/-- `push_free_page_list`. -/
def pushPage (page : ℕ) : RemoteBlock :=
  { s with pushed := Function.update s.pushed page (s.pushed page + 1) }

/-- `free_block_pages`. -/
def freeBlockPages (pages : List ℕ) : RemoteBlock := pages.foldl pushPage s

/-- `_alloc_pages`. -/
def takePage (page : ℕ) : RemoteBlock :=
  { s with taken := Function.update s.taken page (s.taken page + 1) }

/-- The loop of `alloc_block` from the `i`-th page on: the pages, and whether all were found. -/
def allocBlockLoop : RemoteBlock → ℕ → ℕ → RemoteBlock × List ℕ × Bool
  | s, _, 0 => (s, [], true)
  | s, i, n + 1 =>
      match l.allocPages i with
      | some page =>
          let r := (s.takePage page).allocBlockLoop (i + 1) n
          (r.1, page :: r.2.1, r.2.2)
      | none => (s, [], false)

/-- `alloc_block`. -/
def allocBlock : RemoteBlock × Except FetchError (List ℕ) :=
  if l.killed then (s, .error .eintr)
  else
    let r := allocBlockLoop l s 0 p.numSubblock
    if r.2.2 then (r.1, .ok r.2.1) else (r.1.freeBlockPages r.2.1, .error .enomem)

/-- `fetch_subblock` with page `page`: whether a read was posted.  The word of a subblock that is
read names a remote page. -/
def fetchSubblock (noFetch : Bool) (i page : ℕ) : RemoteBlock × Except FetchError Bool :=
  if l.allocLocalPage i then
    let t := { s with
      localPage := Function.update s.localPage i (some page)
      rss := s.rss + p.subblockSize }
    if noFetch then (t, .ok false)
    else
      match l.post i with
      | some e =>
          let t := { t with
            localPage := Function.update t.localPage i none
            rss := t.rss - p.subblockSize }
          (t.pushPage page, .error e)
      | none =>
          ({ t with
            reads := t.reads.postRead p.reads t.posted.head? i
            posted := t.posted ++ [i] }, .ok true)
  else (s.pushPage page, .error .enomem)

/-- The calls of `fetch_subblock` for the subblocks of a list with their pages: the pages that no
subblock took, and the error if there was one. -/
def fetchSubblocks (noFetch : Bool) : RemoteBlock → List (ℕ × ℕ) →
    RemoteBlock × List ℕ × Option FetchError
  | s, [] => (s, [], none)
  | s, (i, page) :: rest =>
      match s.fetchSubblock p l noFetch i page with
      | (t, .ok _) => t.fetchSubblocks noFetch rest
      | (t, .error e) => (t, rest.map Prod.snd, some e)

/-- The device is done with the read of subblock `i`. -/
def endRead (b : FetchedBlock) (i : ℕ) : FetchedBlock :=
  match p.reads.dmaOps i with
  | .rdma =>
      if p.reads.mempoll i then b.arrive i true else b.handleRdmaRead i (l.readOk i)
  | .nvme => b.bdevEndIo i (l.errno i)
  | .memdev => b

/-- `cancel_read_async`, which waits until the device is done. -/
def cancelRead (i : ℕ) : RemoteBlock :=
  if s.reads.w i = none then s
  else { s with reads := ((endRead p l s.reads i).cancelReadAsync p.reads i).getD s.reads }

/-- `free_gpa`, of a subblock with a local page. -/
def freeGpa (i page : ℕ) : RemoteBlock :=
  { s with
    localPage := Function.update s.localPage i none
    flags := Function.update s.flags i fun f => f.keep && s.flags i f }.pushPage page

/-- What `__unwind_fetch_block` does with subblock `i`. -/
def unwindSubblock (i : ℕ) : RemoteBlock :=
  match s.localPage i with
  | some page =>
      let t := s.cancelRead p l i
      { t with rss := t.rss - p.subblockSize }.freeGpa i page
  | none => s

/-- `__unwind_fetch_block`. -/
def unwindFetchBlock (firstTouch : Bool) (pages : List ℕ) : RemoteBlock :=
  let t := ((List.range p.numSubblock).foldl (unwindSubblock p l) s).freeBlockPages pages
  if firstTouch then { t.setFlag 0 .touched false with blockCount := t.blockCount - 1 } else t

/-- `free_remote_page`. -/
def freeRemotePage (i : ℕ) : RemoteBlock :=
  if s.isCow i || p.remoteReuse then s
  else { s with remotePage := Function.update s.remotePage i .free }

/-- The marking of a first touch. -/
def markTouched (firstTouch : Bool) : RemoteBlock :=
  if firstTouch then { s.setFlag 0 .touched true with blockCount := s.blockCount + 1 } else s

/-- `fetch_block`: whether a read is in progress. -/
def fetchBlock (demand : ℕ) (noFetch isStale : Bool) : RemoteBlock × Except FetchError Bool :=
  match s.allocBlock p l with
  | (s, .error e) => (s, .error e)
  | (s, .ok pages) =>
      let firstTouch := !s.flags 0 .touched
      let noFetch := noFetch || firstTouch
      match (s.markTouched firstTouch).fetchSubblocks p l noFetch
        ((fetchOrder p.numSubblock demand).zip pages) with
      | (s, pages, some e) => (s.unwindFetchBlock p l firstTouch pages, .error e)
      | (s, _, none) =>
          let s :=
            if noFetch && !isStale then
              (List.range p.numSubblock).foldl (fun s i =>
                if s.flags i .remote then (s.setFlag i .remote false).freeRemotePage p i else s) s
            else s
          ({ s with rState := if p.ioThread || noFetch then .active else .fetching }, .ok !noFetch)

/-- `handle_remote_fault`, up to the stretch of the block. -/
def handleRemoteFault (demand : ℕ) : RemoteBlock × Except FetchError Bool :=
  let isStale := s.flags 0 .staleBlock
  match (s.setFlag 0 .staleBlock false).fetchBlock p l demand isStale isStale with
  | (s, .error e) => (s, .error e)
  | (s, .ok true) => (s, .ok true)
  | (s, .ok false) =>
      let s := if p.ioThread then s else { s with rState := .active }
      let s :=
        if isStale then
          (List.range p.numSubblock).foldl (fun s i =>
            (s.setFlag i .remote false).freeRemotePage p i) s
        else s
      (s, .ok false)

end RemoteBlock

end Emp
