import Emp.Lib.Inventory
import Mathlib.Data.Int.Notation

/-!
# The pages of the local cache

A page of the local cache is on the global free list, on the free list of a cpu, on a temporary
list on its way between the two, in the hands of a running operation, or attached to the local
page record of a subblock.  Pages on free lists are locked.

Operations run concurrently, in steps between which other operations take theirs; the locks of
blocks keep two operations off the same record.  What the kernel decides (which allocations and
requests succeed, whether a lock is free, which page the host hands out) is part of the step.
Pages are counted in subblocks on the lists and in base pages in `alloc_pages_len`.

## Main definitions

* `PageSys` — the lists, the locks and the counters, with the running operations.
* `PageSys.pushFreePageList`, `PageSys.allocPages` — giving pages back, and getting them.
* `Task`, `PageSys.run` — the steps of fetches, copy-on-write copies, evictions and closes.
* `PageEvent`, `PageSys.step` — the system.
-/

namespace Emp

/-- Where a page can be. -/
inductive PagePlace
  /-- `ftm.free_page_list` -/
  | global
  /-- `local_free_bufs` -/
  | buf (cpu : ℕ)
  /-- the temporary list of `push_free_page_list` -/
  | toGlobal (op : ℕ)
  /-- the temporary list of `pop_free_page_list_global` -/
  | pull (op : ℕ)
  /-- with a running operation -/
  | held (op : ℕ)
  /-- `gpa->local_page` -/
  | record (gpa : ℕ)
  deriving DecidableEq, Repr

/-- The free lists, and what is on its way between them. -/
def PagePlace.Free : PagePlace → Prop
  | .held _ => False
  | .record _ => False
  | _ => True

/-- Where `_alloc_pages` is. -/
inductive AllocPc
  | first
  | host
  | global
  | pulled
  | wait
  deriving DecidableEq, Repr

/-- One block of a group that a copy-on-write fault duplicates: by copying its pages, by handing
them over, or by sharing its remote pages. -/
inductive CowBlock
  | copy (news : List ℕ)
  | handoff (pairs : List (ℕ × ℕ))
  | remote
  deriving DecidableEq, Repr

/-- The rest of a copy-on-write fault: the descriptors of the new group, and the blocks to go. -/
structure CowJob where
  cpu : ℕ
  group : List ℕ
  rest : List CowBlock
  deriving DecidableEq, Repr

/-- What a page is allocated for. -/
inductive AllocUse
  /-- `alloc_block`, which needs `need` more pages for the block `gpas` -/
  | block (need : ℕ) (gpas : List ℕ)
  /-- `dup_subblock_pages` for the first of `todo` -/
  | dup (todo done : List ℕ) (job : CowJob)
  deriving DecidableEq, Repr

/-- What an operation does next. -/
inductive Task
  | idle
  /-- the locks of its blocks are released -/
  | finish
  | alloc (pc : AllocPc) (cpu : ℕ) (use : AllocUse)
  /-- `fetch_subblock` of `todo` -/
  | fetchBlock (cpu : ℕ) (todo gpas : List ℕ)
  | unwindFetchBlock (cpu : ℕ) (todo : List ℕ)
  | freeBlockPages (cpu : ℕ)
  /-- `set_gpa_remote` of a block that needs no writeback -/
  | setGpaRemote (cpu : ℕ) (todo : List ℕ)
  /-- `flush_gpa` of a group that no directory uses -/
  | flushGpa (todo group : List ℕ)
  | freeGpadesc (group : List ℕ)
  | cow (job : CowJob)
  /-- `alloc_local_page` for the copy of the first of `todo` -/
  | dupLocalPage (todo done : List ℕ) (job : CowJob)
  /-- the error path of `dup_block_local_page` -/
  | dupError (done : List ℕ) (job : CowJob)
  /-- the old block, if it is nobody's, goes to the writeback list -/
  | orphan (job : CowJob)
  | handoff (pairs : List (ℕ × ℕ)) (job : CowJob)
  | clearInFlight (cpu : ℕ) (todo : List ℕ)
  | evictBlock (todo done : List ℕ)
  /-- the error path of `evict_block` -/
  | evictError (done : List ℕ)
  | clearWriteback (cpu : ℕ) (todo : List ℕ) (doReclaim : Bool)
  /-- the second half of `push_free_page_list` -/
  | splice (cpu : Option ℕ) (next : Task)
  deriving DecidableEq, Repr

/-- What the kernel decides in a step. -/
structure Luck where
  /-- the allocation, the request, the wait or the trylock of the step succeeds -/
  ok : Bool
  /-- another free has taken the last of `free_pages_reclaim` between the two looks at it -/
  raced : Bool
  /-- the page that the host hands out -/
  page : ℕ
  /-- the cpu whose free list is found not empty -/
  victim : Option ℕ

structure PageSys where
  sbSize : ℕ
  sibSize : ℕ
  freeLpagesLen : ℕ
  localCacheMax : ℤ
  allocPagesLen : ℤ
  freePagesReclaim : ℤ
  /-- the pages taken from the host -/
  pages : List ℕ
  place : PagePlace → List ℕ
  pageLocked : ℕ → Bool
  /-- how often a page was unlocked that was not locked -/
  strayUnlocks : ℕ
  task : ℕ → Task
  /-- the operation that holds the block lock of a descriptor -/
  lockedBy : ℕ → Option ℕ
  inWriteback : ℕ → Bool
  /-- the descriptor has been freed -/
  freed : ℕ → Bool

namespace PageSys

variable (s : PageSys) (op : ℕ)

def setTask (t : Task) : PageSys := { s with task := Function.update s.task op t }

def move (c c' : PagePlace) (xs ys : List ℕ) : PageSys :=
  { s with place := Inventory.move s.place c c' xs ys }

/-- `_emp_lock_page` of a page that is not locked. -/
def lockPage (p : ℕ) : PageSys := { s with pageLocked := Function.update s.pageLocked p true }

/-- `_emp_unlock_page`. -/
def unlockPage (p : ℕ) : PageSys :=
  { s with
    pageLocked := Function.update s.pageLocked p false
    strayUnlocks := if s.pageLocked p then s.strayUnlocks else s.strayUnlocks + 1 }

/-- `emp_free_pages` of a page that leaves the place `c`, where `ys` stay. -/
def freePages (c : PagePlace) (p : ℕ) (ys : List ℕ) : PageSys :=
  { s with
    place := Function.update s.place c ys
    pages := s.pages.erase p
    allocPagesLen := s.allocPagesLen - s.sbSize }

/-- `push_free_page_list` of a page from the place `c`, where `ys` stay, up to the lock of the
global list. -/
def pushFreePageList (cpu : Option ℕ) (c : PagePlace) (p : ℕ) (ys : List ℕ) (raced : Bool)
    (next : Task) : PageSys :=
  if s.sbSize ≤ s.freePagesReclaim ∧ raced = false then
    let s' := { s with freePagesReclaim := s.freePagesReclaim - s.sbSize }
    ((s'.unlockPage p).freePages c p ys).setTask op next
  else
    match cpu with
    | none => (s.move c (.toGlobal op) [p] ys).setTask op (.splice none next)
    | some cpu =>
      let s' := s.move c (.buf cpu) [p] ys
      let l := s'.place (.buf cpu)
      if l.length ≤ s.freeLpagesLen then s'.setTask op next
      else
        -- cut the local free page list
        let cut := l.length - s.freeLpagesLen / 2
        (s'.move (.buf cpu) (.toGlobal op) (l.take cut) (l.drop cut)).setTask op
          (.splice (some cpu) next)

/-- The second half: the pages go to the global list, or back if its lock is taken and they are
few. -/
def spliceTail (cpu : Option ℕ) (trylock : Bool) (next : Task) : PageSys :=
  let cut := s.place (.toGlobal op)
  match cpu with
  | some cpu =>
    if cut.length < s.freeLpagesLen ∧ trylock = false then
      (s.move (.toGlobal op) (.buf cpu) cut []).setTask op next
    else (s.move (.toGlobal op) .global cut []).setTask op next
  | none => (s.move (.toGlobal op) .global cut []).setTask op next

/-! ### Getting a page -/

/-- What follows when the page is there. -/
def gotPage (cpu : ℕ) : AllocUse → Task
  | .block need gpas =>
    if 1 < need then .alloc .first cpu (.block (need - 1) gpas) else .fetchBlock cpu gpas gpas
  | .dup todo done job => .dupLocalPage todo done job

/-- What follows when there is none. -/
def noPage (cpu : ℕ) : AllocUse → Task
  | .block _ _ => .freeBlockPages cpu
  | .dup _ done job => .dupError done job

/-- A page of a free list is unlocked for the operation. -/
def takePage (c : PagePlace) (p : ℕ) (ys : List ℕ) (cpu : ℕ) (use : AllocUse) : PageSys :=
  ((s.unlockPage p).move c (.held op) [p] ys).setTask op (gotPage cpu use)

/-- `__alloc_subblock`, and the unlocking of the page. -/
def allocSubblock (p cpu : ℕ) (use : AllocUse) : PageSys :=
  let s' := { s with
    place := Function.update s.place (.held op) (s.place (.held op) ++ [p])
    pages := p :: s.pages
    allocPagesLen := s.allocPagesLen + s.sbSize }
  ((s'.lockPage p).unlockPage p).setTask op (gotPage cpu use)

/-- `pop_free_page_list_global` up to the list that the pages are pulled from. -/
def popFreePageListGlobal (cpu : ℕ) (use : AllocUse) (victim : Option ℕ) : Option PageSys :=
  let pullFrom (c : PagePlace) : PageSys :=
    (s.move c (.pull op) ((s.place c).take s.sibSize) ((s.place c).drop s.sibSize)).setTask op
      (.alloc .pulled cpu use)
  match s.place (.buf cpu) with
  | p :: ps => some (s.takePage op (.buf cpu) p ps cpu use)
  | [] =>
    if s.place .global ≠ [] then some (pullFrom .global)
    else match victim with
      | none => some (s.setTask op (.alloc .wait cpu use))
      | some v => if v ≠ cpu ∧ s.place (.buf v) ≠ [] then some (pullFrom (.buf v)) else none

/-- `_alloc_pages`. -/
def allocPages (pc : AllocPc) (cpu : ℕ) (use : AllocUse) (luck : Luck) : Option PageSys :=
  match pc with
  | .first =>
    match s.place (.buf cpu) with
    | p :: ps => some (s.takePage op (.buf cpu) p ps cpu use)
    | [] => some (s.setTask op (.alloc .host cpu use))
  | .host =>
    if s.allocPagesLen < s.localCacheMax ∧ luck.ok = true then
      if luck.page ∈ s.pages then none else some (s.allocSubblock op luck.page cpu use)
    else some (s.setTask op (.alloc .global cpu use))
  | .global => s.popFreePageListGlobal op cpu use luck.victim
  | .pulled =>
    match s.place (.pull op) with
    | p :: ps =>
      -- the first page is taken, the others go to the local list
      some ((s.takePage op (.pull op) p ps cpu use).move (.pull op) (.buf cpu) ps [])
    | [] => none
  | .wait => some (s.setTask op (if luck.ok then .alloc .host cpu use else noPage cpu use))

/-! ### The operations -/

/-- The locks of the blocks are released. -/
def finish : PageSys :=
  { s with
    task := Function.update s.task op .idle
    lockedBy := fun g => if s.lockedBy g = some op then none else s.lockedBy g }

/-- `fetch_subblock` of `g` with the next page of the block; if `alloc_local_page` or the read
fails, the page is pushed as it is. -/
def fetchSubblock (cpu g : ℕ) (rest gpas : List ℕ) (luck : Luck) : Option PageSys :=
  match s.place (.held op) with
  | [] => none
  | p :: ps =>
    some (if luck.ok then
        (s.move (.held op) (.record g) [p] ps).setTask op
          (if rest = [] then .finish else .fetchBlock cpu rest gpas)
      else s.pushFreePageList op (some cpu) (.held op) p ps luck.raced (.unwindFetchBlock cpu gpas))

/-- `free_block_pages`, one page. -/
def freeBlockPages (cpu : ℕ) (luck : Luck) : Option PageSys :=
  match s.place (.held op) with
  | [] => some (s.setTask op .finish)
  | p :: ps =>
    if s.pageLocked p then none
    else some ((s.lockPage p).pushFreePageList op (some cpu) (.held op) p ps luck.raced
      (.freeBlockPages cpu))

/-- `free_gpa`, if there is a local page. -/
def freeGpa (cpu : Option ℕ) (g : ℕ) (luck : Luck) (next : Task) : Option PageSys :=
  match s.place (.record g) with
  | [] => some (s.setTask op next)
  | p :: ps =>
    if s.pageLocked p then none
    else some ((s.lockPage p).pushFreePageList op cpu (.record g) p ps luck.raced next)

/-- A local page is freed and its page pushed as it is. -/
def pushUnlocked (cpu g : ℕ) (luck : Luck) (next : Task) : PageSys :=
  match s.place (.record g) with
  | [] => s.setTask op next
  | p :: ps => s.pushFreePageList op (some cpu) (.record g) p ps luck.raced next

/-- `dup_cow_gpadesc` of the next block of the group. -/
def dupCowGpadesc (job : CowJob) (luck : Luck) : Task :=
  match job.rest with
  | [] => .finish
  | .remote :: bs => if luck.ok then .cow { job with rest := bs } else .freeGpadesc job.group
  | .handoff pairs :: bs =>
    if luck.ok then .handoff pairs { job with rest := bs }
    -- a failed handoff changes nothing: copy instead
    else .cow { job with rest := .copy (pairs.map Prod.snd) :: bs }
  | .copy news :: bs =>
    if luck.ok then
      if news = [] then .orphan { job with rest := bs }
      else .alloc .first job.cpu (.dup news [] { job with rest := bs })
    else .freeGpadesc job.group

/-- `dup_block_local_page` from `alloc_local_page` for `g` on. -/
def dupBlockLocalPage (g : ℕ) (rest done : List ℕ) (job : CowJob) (luck : Luck) : Option PageSys :=
  match s.place (.held op) with
  | [] => none
  | p :: ps =>
    some (if luck.ok then
        (s.move (.held op) (.record g) [p] ps).setTask op
          (if rest = [] then .orphan job
            else .alloc .first job.cpu (.dup rest (done ++ [g]) job))
      else s.pushFreePageList op (some job.cpu) (.held op) p ps luck.raced (.dupError done job))

def setWriteback (g : ℕ) (b : Bool) : PageSys :=
  { s with inWriteback := Function.update s.inWriteback g b }

/-- `evict_block`: the page of `g` is locked and its write is posted. -/
def evictBlock (g : ℕ) (rest done : List ℕ) (luck : Luck) : Option PageSys :=
  match s.place (.record g) with
  | [] => none
  | p :: _ =>
    if s.pageLocked p then none
    else some (((s.lockPage p).setWriteback g true).setTask op
      (if luck.ok then .evictBlock rest (done ++ [g]) else .evictError (done ++ [g])))

/-- A writeback ends: `emp_unlock_subblock`. -/
def unlockSubblock (g : ℕ) (next : Task) : Option PageSys :=
  match s.place (.record g) with
  | [] => none
  | p :: _ => some (((s.unlockPage p).setWriteback g false).setTask op next)

/-- `clear_writeback_work_request`, one subblock. -/
def clearWriteback (cpu g : ℕ) (doReclaim : Bool) (luck : Luck) (next : Task) : Option PageSys :=
  (s.unlockSubblock op g next).bind fun s' =>
    if doReclaim then s'.freeGpa op (some cpu) g luck next else some s'

/-- The next step of a running operation. -/
def run (luck : Luck) : Option PageSys :=
  match s.task op with
  | .idle => none
  | .finish => some (s.finish op)
  | .alloc pc cpu use => s.allocPages op pc cpu use luck
  | .fetchBlock _ [] _ => some (s.setTask op .finish)
  | .fetchBlock cpu (g :: rest) gpas => s.fetchSubblock op cpu g rest gpas luck
  | .unwindFetchBlock cpu [] => some (s.setTask op (.freeBlockPages cpu))
  | .unwindFetchBlock cpu (g :: rest) => s.freeGpa op (some cpu) g luck (.unwindFetchBlock cpu rest)
  | .freeBlockPages cpu => s.freeBlockPages op cpu luck
  | .setGpaRemote _ [] => some (s.setTask op .finish)
  | .setGpaRemote cpu (g :: rest) => s.freeGpa op (some cpu) g luck (.setGpaRemote cpu rest)
  | .flushGpa [] group => some (s.setTask op (.freeGpadesc group))
  | .flushGpa (g :: rest) group => s.freeGpa op none g luck (.flushGpa rest group)
  | .freeGpadesc group =>
    let s' := { s with freed := fun g => decide (g ∈ group) || s.freed g }
    some (s'.setTask op .finish)
  | .cow job => some (s.setTask op (dupCowGpadesc job luck))
  | .dupLocalPage [] _ job => some (s.setTask op (.orphan job))
  | .dupLocalPage (g :: rest) done job => s.dupBlockLocalPage op g rest done job luck
  | .dupError [] job => some (s.setTask op (.freeGpadesc job.group))
  | .dupError (g :: rest) job => some (s.pushUnlocked op job.cpu g luck (.dupError rest job))
  | .orphan job => some (s.setTask op (if luck.ok then .cow job else .freeGpadesc job.group))
  | .handoff [] job => some (s.setTask op (.cow job))
  | .handoff ((old, new) :: rest) job =>
    some ((s.move (.record old) (.record new) (s.place (.record old)) []).setTask op
      (.handoff rest job))
  | .clearInFlight _ [] => some (s.setTask op .finish)
  | .clearInFlight cpu (g :: rest) =>
    -- `luck.ok`: a request is in flight
    some (if luck.ok then s.pushUnlocked op cpu g luck (.clearInFlight cpu rest)
      else s.setTask op (.clearInFlight cpu rest))
  | .evictBlock [] _ => some (s.setTask op .finish)
  | .evictBlock (g :: rest) done => s.evictBlock op g rest done luck
  | .evictError [] => some (s.setTask op .finish)
  | .evictError (g :: rest) => s.unlockSubblock op g (.evictError rest)
  | .clearWriteback _ [] _ => some (s.setTask op .finish)
  | .clearWriteback cpu (g :: rest) doReclaim =>
    s.clearWriteback op cpu g doReclaim luck (.clearWriteback cpu rest doReclaim)
  | .splice cpu next => some (s.spliceTail op cpu luck.ok next)

end PageSys

/-- What an operation is started for: a fetch, a writeback, its end, the drop of a clean block, a
close, a copy-on-write fault, and the clean-up after a failed fault. -/
inductive Job
  | fetchBlock (cpu : ℕ) (gpas : List ℕ)
  | evictBlock (gpas : List ℕ)
  | clearWriteback (cpu : ℕ) (gpas : List ℕ) (doReclaim : Bool)
  | setGpaRemote (cpu : ℕ) (gpas : List ℕ)
  | flushGpa (group : List ℕ)
  | cow (job : CowJob)
  | clearInFlight (cpu : ℕ) (gpas : List ℕ)

/-- The descriptors that get pages. -/
def CowBlock.news : CowBlock → List ℕ
  | .copy news => news
  | .handoff pairs => pairs.map Prod.snd
  | .remote => []

/-- The descriptors that give pages up. -/
def CowBlock.olds : CowBlock → List ℕ
  | .handoff pairs => pairs.map Prod.fst
  | _ => []

namespace Job

/-- The descriptors whose blocks are locked. -/
def gpas : Job → List ℕ
  | .fetchBlock _ gpas => gpas
  | .evictBlock gpas => gpas
  | .clearWriteback _ gpas _ => gpas
  | .setGpaRemote _ gpas => gpas
  | .flushGpa group => group
  | .cow job => job.group ++ job.rest.flatMap CowBlock.olds
  | .clearInFlight _ gpas => gpas

def task : Job → Task
  | .fetchBlock cpu gpas => .alloc .first cpu (.block gpas.length gpas)
  | .evictBlock gpas => .evictBlock gpas []
  | .clearWriteback cpu gpas doReclaim => .clearWriteback cpu gpas doReclaim
  | .setGpaRemote cpu gpas => .setGpaRemote cpu gpas
  | .flushGpa group => .flushGpa group group
  | .cow job => .cow job
  | .clearInFlight cpu gpas => .clearInFlight cpu gpas

/-- The state of the blocks that the operation is for. -/
def Ready (s : PageSys) : Job → Prop
  | .fetchBlock _ gpas => gpas ≠ [] ∧ ∀ g ∈ gpas, s.place (.record g) = []
  | .evictBlock gpas => ∀ g ∈ gpas, s.place (.record g) ≠ [] ∧ s.inWriteback g = false
  | .clearWriteback _ gpas _ => ∀ g ∈ gpas, s.inWriteback g = true
  | .setGpaRemote _ gpas => ∀ g ∈ gpas, s.inWriteback g = false
  | .flushGpa group => ∀ g ∈ group, s.inWriteback g = false
  | .cow job => (∀ g ∈ job.group, s.place (.record g) = []) ∧
      (job.rest.flatMap CowBlock.news).Nodup ∧ (∀ g ∈ job.rest.flatMap CowBlock.news, g ∈ job.group) ∧
      ∀ g ∈ job.rest.flatMap CowBlock.olds, s.inWriteback g = false
  | .clearInFlight _ gpas => ∀ g ∈ gpas, s.inWriteback g = false

instance (s : PageSys) (j : Job) : Decidable (j.Ready s) := by
  cases j <;> simp only [Ready] <;> infer_instance

end Job

inductive PageEvent
  | start (op : ℕ) (j : Job)
  | run (op : ℕ) (luck : Luck)
  | adjustLocalCacheSize (diff : ℤ)
  | flushLocalFreePages (cpu : ℕ)
  | allocExit

namespace PageSys

/-- An operation locks its blocks and starts. -/
def start (s : PageSys) (op : ℕ) (j : Job) : Option PageSys :=
  if s.task op = .idle ∧ j.gpas.Nodup ∧ (∀ g ∈ j.gpas, s.lockedBy g = none ∧ s.freed g = false) ∧
      j.Ready s then
    some { s with
      task := Function.update s.task op j.task
      lockedBy := fun g => if g ∈ j.gpas then some op else s.lockedBy g }
  else none

/-- The loop of `alloc_exit`. -/
def allocExitLoop : List ℕ → PageSys → PageSys
  | [], s => s
  | p :: ps, s => allocExitLoop ps ((s.unlockPage p).freePages .global p ps)

def step : PageSys → PageEvent → Option PageSys
  | s, .start op j => s.start op j
  | s, .run op luck => s.run op luck
  | s, .adjustLocalCacheSize diff => some { s with
      localCacheMax := s.localCacheMax + diff
      freePagesReclaim := if diff < 0 then s.freePagesReclaim - diff else s.freePagesReclaim }
  | s, .flushLocalFreePages cpu => some (s.move (.buf cpu) .global (s.place (.buf cpu)) [])
  | s, .allocExit => some (allocExitLoop (s.place .global) s)

/-- A memory that has been opened. -/
structure Start (s : PageSys) : Prop where
  pages : s.pages = []
  place : ∀ c, s.place c = []
  allocPagesLen : s.allocPagesLen = 0
  strayUnlocks : s.strayUnlocks = 0
  task : ∀ op, s.task op = .idle
  inWriteback : ∀ g, s.inWriteback g = false

/-- The pages of the local cache are accounted for. -/
structure Conserved (s : PageSys) : Prop where
  /-- `alloc_pages_len` counts the pages, each of which is in one place -/
  count : s.allocPagesLen = s.sbSize * s.pages.length
  partition : Inventory.Partitions s.place s.pages
  /-- a local page record has one page -/
  single : ∀ g, (s.place (.record g)).length ≤ 1
  /-- pages on free lists are locked, those taken off are not -/
  free : ∀ c, c.Free → ∀ p ∈ s.place c, s.pageLocked p = true
  taken : ∀ op, ∀ p ∈ s.place (.held op), s.pageLocked p = false
  /-- no page has been unlocked that was not locked -/
  unlocked : s.strayUnlocks = 0
  /-- an operation that has ended and a descriptor that has been freed keep no page -/
  ended : ∀ op, s.task op = .idle → s.place (.held op) = [] ∧ s.place (.pull op) = [] ∧
    s.place (.toGlobal op) = []
  freed : ∀ g, s.freed g = true → s.place (.record g) = []

/-- No step pushes a page that is not locked, or frees descriptors that have pages: no subblock
fails to be fetched once its page is there, no copy-on-write fault fails once a page is there for
one of the new descriptors or attached to one, and no fault leaves requests in flight. -/
def PushesLocked (s : PageSys) : PageEvent → Prop
  | .run op luck =>
    match s.task op with
    | .fetchBlock .. => luck.ok = true
    | .dupLocalPage .. => luck.ok = true
    | .alloc .wait _ (.dup _ _ job) => luck.ok = true ∨ ∀ g ∈ job.group, s.place (.record g) = []
    | .orphan job => luck.ok = true ∨ ∀ g ∈ job.group, s.place (.record g) = []
    | .cow job => luck.ok = true ∨ (∀ g ∈ job.group, s.place (.record g) = []) ∨
        ∃ pairs bs, job.rest = .handoff pairs :: bs
    | .clearInFlight _ (g :: _) => luck.ok = false ∨ s.place (.record g) = []
    | _ => True
  | _ => True

end PageSys

end Emp
