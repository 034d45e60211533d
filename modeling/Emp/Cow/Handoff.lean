import Emp.Cow.RemoteWord
import Emp.Els.Merging
import Emp.Mapper.Records

/-!
# Handing a block over to its copy

A write to a block that is shared after a private fork gets a block of its own.  When the writer
is the only one that maps the old block and the donor holds what the pages hold, nothing is copied:
the pages and the mapping records move to new local pages of the new block, and the old block
becomes remote.  When the handoff fails, the pages are copied.

The subblocks of the two blocks have the same numbers.  The contents of a subblock's pages and of a
donor page are one value.  The faulting vmr finds the new block in its directory, all other
processes find the old one.

## Main definitions

* `CowSys` — the two blocks, the pages, the records, the lists and the donors.
* `CowSys.dupCowGpadesc` — the duplication, `CowSys.dupCowGpadescHandoff` and
  `CowSys.dupCowGpadescLocal` its two ways for a block that is local.
* `CowSys.grantWrite`, `CowSys.write`, `CowSys.protect` — how a block becomes what a handoff finds.
-/

namespace Emp

/-- The block before a fault, and the one made for it. -/
inductive CowSide
  | old
  | new
  deriving DecidableEq, Repr

/-- A local page. -/
structure CowPage (V P : Type*) where
  page : ℕ
  mappers : MapperList V P
  pageMapCount : ℤ
  cpu : ℤ
  on : Option OnList

/-- A descriptor. -/
structure CowGpa (V P : Type*) where
  flags : GpaFlag → Bool
  rState : BlockState
  localPage : Option (CowPage V P)
  word : CowWord

/-- A pte: its page, and whether it may be written through it. -/
structure CowPte where
  page : ℕ
  writable : Bool
  deriving DecidableEq, Repr

/-- A fault: `vmr` is the faulting one, `pageLen` the pages of a subblock in its view, `alloc` tells
whether the local page of a subblock can be allocated, and `fresh` is the page that would be
allocated to copy a subblock. -/
structure CowTake (V : Type*) where
  vmr : V
  pageLen : ℤ
  alloc : ℕ → Bool
  fresh : ℕ → ℕ

/-- The two blocks and what they share with others: `backlink` is `page->private`, `head` how a
list names the head of a block, `shared` whether other directories have the old block, and `crp`
the pages of the wrappers. -/
structure CowSys (V P D : Type*) where
  numSubblock : ℕ
  blockSize : ℕ
  possibleCpus : ℤ
  gpa : CowSide → ℕ → CowGpa V P
  head : CowSide → ℕ
  shared : Bool
  backlink : ℕ → Option (CowSide × ℕ)
  lists : SlruList → List ℕ
  pageLen : Bool → ℤ
  curPinPages : ℤ
  rss : V → ℤ
  pte : V → ℕ → Option CowPte
  content : ℕ → D
  donor : RemotePage → D
  crp : ℕ → RemotePage
  zero : D

/-- `is_gpa_remote_page_free`: a word that points to a wrapper is not free. -/
def CowWord.isFree : CowWord → Bool
  | .plain rp => rp.isFree
  | .cow _ => false

namespace CowSys

variable {V P D : Type*} [DecidableEq V] (s : CowSys V P D) (c : CowTake V) (b : CowSide) (i : ℕ)

def setGpa (g : CowGpa V P) : CowSys V P D :=
  { s with gpa := Function.update s.gpa b (Function.update (s.gpa b) i g) }

/-! ### What a process reads -/

/-- What a fault fetches for a subblock without local page: zeros in a block that has not been
touched, and what the donor holds otherwise. -/
def refetch : D :=
  if (s.gpa b 0).flags .touched then
    s.donor (match (s.gpa b i).word with
      | .plain rp => rp
      | .cow k => s.crp k)
  else s.zero

/-- What a process reads in a subblock: through its pte, or after a fault. -/
def read (v u : V) : D :=
  match s.pte u i with
  | some q => s.content q.page
  | none =>
      match (s.gpa (if u = v then .new else .old) i).localPage with
      | some lp => s.content lp.page
      | none => s.refetch (if u = v then .new else .old) i

/-! ### The test -/

/-- `is_block_remote_page_valid`. -/
def isBlockRemotePageValid : Bool :=
  if !(s.gpa b 0).flags .touched then true
  else if (s.gpa b 0).rState = .wb then false
  else (List.range s.numSubblock).all fun i => !(s.gpa b i).word.isFree

/-- `__block_mapped_by_only` of the old block. -/
def blockMappedByOnly (v : V) : Bool :=
  (List.range s.numSubblock).all fun i =>
    match (s.gpa .old i).localPage with
    | none => false
    | some lp => !(lp.mappers.numPmds ≠ 1 || lp.mappers.empLpOwner ≠ some v)

/-- The test in front of a handoff. -/
def canHandOff (v : V) : Bool :=
  !((s.gpa .old 0).flags .partialMap || (s.gpa .old 0).flags .dirty ||
      (s.gpa .old 0).flags .staleBlock) &&
    s.isBlockRemotePageValid .old && s.blockMappedByOnly v

/-! ### The handoff -/

/-- `alloc_local_page` for a subblock of the new block, over the page of the old one. -/
def allocLocalPage (v : V) (page : ℕ) : CowSys V P D :=
  { s.setGpa .new i { s.gpa .new i with
      localPage := some ⟨page, MapperList.init (some v), 0, -32768, none⟩ } with
    backlink := Function.update s.backlink page (some (.new, i)) }

/-- The loop of `__handoff_block_local_page`, over `n` subblocks from the `i`-th on. -/
def handoffLoop : CowSys V P D → ℕ → ℕ → Bool × CowSys V P D
  | s, _, 0 => (true, s)
  | s, i, n + 1 =>
      match (s.gpa .old i).localPage with
      | none => (false, s)
      | some lp =>
          if c.alloc i then (s.allocLocalPage i c.vmr lp.page).handoffLoop (i + 1) n else (false, s)

/-- The loop behind its label `error`. -/
def undoLoop : CowSys V P D → ℕ → ℕ → CowSys V P D
  | s, _, 0 => s
  | s, i, n + 1 =>
      match (s.gpa .new i).localPage, (s.gpa .old i).localPage with
      | some _, some lp =>
          undoLoop { s.setGpa .new i { s.gpa .new i with localPage := none } with
            backlink := Function.update s.backlink lp.page (some (.old, i)) } (i + 1) n
      | _, _ => s

/-- `__handoff_block_local_page`. -/
def handoffBlockLocalPage : Bool × CowSys V P D :=
  match s.handoffLoop c 0 s.numSubblock with
  | (true, t) => (true, t)
  | (false, t) => (false, t.undoLoop 0 s.numSubblock)

/-- The list that `__remove_from_proactive` or `__remove_from_active_list` takes. -/
def listOf (proactive : Bool) (lp : CowPage V P) : SlruList :=
  match lp.on with
  | some .pin => if proactive then .pin (s.possibleCpus + lp.cpu) else .global false
  | some .mru => .mru proactive lp.cpu
  | some .lru => .lru proactive lp.cpu
  | _ => .global proactive

/-- `remove_gpa_from_lru` of the old block.  A block that is mapped is not on the inactive list. -/
def removeGpaFromLru : CowSys V P D :=
  let g := s.gpa .old 0
  match g.localPage with
  | none => s
  | some lp =>
      if g.rState = .active then
        let proactive := g.flags .proactive
        let l := s.listOf proactive lp
        { s.setGpa .old 0 { g with
            flags := Function.update g.flags .proactive false
            localPage := some { lp with on := none } } with
          lists := Function.update s.lists l ((s.lists l).erase (s.head .old))
          pageLen := Function.update s.pageLen proactive (s.pageLen proactive - s.blockSize)
          curPinPages := if proactive ∧ lp.on = some .pin then s.curPinPages - s.blockSize
            else s.curPinPages }
      else s

/-- The record of a subblock moves, and its old local page is freed. -/
def moveRecord (v : V) : CowSys V P D :=
  match (s.gpa .old i).localPage, (s.gpa .new i).localPage with
  | some lp, some lp' =>
      let mappers := match (lp.mappers.empLpPopPmd v).1 with
        | some p => (lp'.mappers.empLpInsertPmd v p true).2
        | none => lp'.mappers
      (s.setGpa .new i { s.gpa .new i with
        localPage := some { lp' with mappers := mappers } }).setGpa .old i
          { s.gpa .old i with localPage := none }
  | _, _ => s

/-- `cow_mkwrite_pte` of a block. -/
def cowMkwritePte (v : V) : CowSys V P D :=
  { s with pte := Function.update s.pte v fun i =>
      if i < s.numSubblock ∧ (((s.gpa b i).localPage.bind fun lp =>
          lp.mappers.empLpLookupPmd v).isSome) then
        (s.pte v i).map fun q => { q with writable := true }
      else s.pte v i }

/-- `__set_block_remote`. -/
def setBlockRemote : CowSys V P D :=
  { s with gpa := Function.update s.gpa .old fun i =>
      if i < s.numSubblock then
        { s.gpa .old i with
          flags := fun f => ((s.gpa .old i).flags f && f.keep) || f = .remote
          rState := .init }
      else s.gpa .old i }

/-- `dup_cow_gpadesc_handoff`; the mm's resident count is not touched. -/
def dupCowGpadescHandoff : Bool × CowSys V P D :=
  match s.handoffBlockLocalPage c with
  | (false, t) => (false, t)
  | (true, t) =>
      let u := (List.range s.numSubblock).foldl (fun u i => u.moveRecord i c.vmr) t.removeGpaFromLru
      (true, (u.cowMkwritePte .new c.vmr).setBlockRemote)

/-! ### The copy -/

/-- A subblock of `dup_cow_gpadesc_local`, when `v` alone maps the old block and everything can be
allocated: its pages are copied, the pte of `v` moves to the copy, and the old block keeps the
original, without owner. -/
def copySubblock (s : CowSys V P D) (i : ℕ) : CowSys V P D :=
  match (s.gpa .old i).localPage with
  | none => s
  | some lp =>
      let pop := lp.mappers.empLpPopPmd c.vmr
      let mappers := match pop.1 with
        | some p => ((MapperList.init (some c.vmr)).empLpInsertPmd c.vmr p true).2
        | none => MapperList.init (some c.vmr)
      let t := (s.setGpa .new i { s.gpa .new i with
        localPage := some ⟨c.fresh i, mappers, c.pageLen, -32768, none⟩ }).setGpa .old i
          { s.gpa .old i with localPage := some { lp with
            mappers := pop.2.empLpClearOwner
            pageMapCount := lp.pageMapCount - c.pageLen } }
      { t with
        content := Function.update s.content (c.fresh i)
          (if (s.gpa .old 0).flags .staleBlock then s.zero else s.content lp.page)
        backlink := Function.update s.backlink (c.fresh i) (some (.new, i))
        pte := Function.update s.pte c.vmr
          (Function.update (s.pte c.vmr) i (some ⟨c.fresh i, true⟩)) }

/-- `dup_cow_gpadesc_local`, up to the writeback of the old block, which nobody maps any more. -/
def dupCowGpadescLocal : CowSys V P D :=
  let t := (List.range s.numSubblock).foldl (copySubblock c) s
  t.setGpa .new 0 { t.gpa .new 0 with flags := Function.update (t.gpa .new 0).flags .hpt true }

/-! ### The duplication -/

/-- `__dup_cow_gpadesc`. -/
def initNew : CowSys V P D :=
  { s with gpa := Function.update s.gpa .new fun i =>
      if i < s.numSubblock then
        { s.gpa .new i with
          flags := fun f => (s.gpa .old i).flags f && f ≠ .remote && f ≠ .wprotect
          rState := (s.gpa .old i).rState
          word := .plain .free }
      else s.gpa .new i }

/-- `dup_cow_gpadesc` of a block that is local. -/
def dupCowGpadesc : CowSys V P D :=
  let t := s.initNew
  if t.canHandOff c.vmr then
    match t.dupCowGpadescHandoff c with
    | (true, u) => u
    | (false, u) => u.dupCowGpadescLocal c
  else t.dupCowGpadescLocal c

/-! ### What happens to a block before -/

/-- `cow_clear_wprotect_block`. -/
def clearWprotect : CowSys V P D :=
  { s with gpa := Function.update s.gpa .old fun i =>
      if i < s.numSubblock then
        { s.gpa .old i with flags := Function.update (s.gpa .old i).flags .wprotect false }
      else s.gpa .old i }

/-- `handle_emp_cow_fault_mmu` of a write that copies nothing, as the block is not protected or not
shared any more: `check_cow_fault_gpa` fails.  Otherwise a copy follows. -/
def grantWrite (v : V) : CowSys V P D :=
  if (s.gpa .old 0).flags .wprotect ∧ s.shared then s
  else
    let t := if (s.gpa .old 0).flags .wprotect then s.clearWprotect else s
    if (t.gpa .old 0).rState = .active ∧ (t.gpa .old 0).localPage.isSome then t.cowMkwritePte .old v
    else t

/-- A write of a process, through a pte that allows it. -/
def write (v : V) (x : D) : CowSys V P D :=
  match s.pte v i with
  | some q => if q.writable then { s with content := Function.update s.content q.page x } else s
  | none => s

/-- What a private fork of `v` does to the old block. -/
def protect (v : V) : CowSys V P D :=
  { s with
    gpa := Function.update s.gpa .old fun i =>
      { s.gpa .old i with flags := Function.update (s.gpa .old i).flags .wprotect true }
    shared := true
    pte := Function.update s.pte v fun i => (s.pte v i).map fun q => { q with writable := false } }

end CowSys

end Emp
