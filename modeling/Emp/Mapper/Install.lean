import Emp.Mapper.Refinement

/-!
# Installing and removing the ptes of a block

A fault maps a local block into the faulting process: each subblock gets page references, ptes
and a mapping record.  Before a block that was stretched or prefetched is mapped, its subblocks
are brought to one set of mappers.  An eviction walks the records and removes what each of them
stands for.

A pte here maps the page of the block at its own offset; one that maps anything else is a `BUG`
in `pte_install`.  Bits that say a page was accessed are left out, and so is the return value,
which is `VM_FAULT_NOPAGE` always.

## Main definitions

* `HptPte`, `HptBlock` — a pte, and a local block with its ptes, records, references and charges.
* `HptBlock.pteInstall`, `HptBlock.installHptes`, `HptBlock.empInstallHptes` — the installation.
* `HptBlock.syncHptMapInBlock` — the subblocks get the same mappers.
* `HptBlock.unmapPtes` — the removal.
-/

namespace Emp

/-- A pte that maps its page. -/
structure HptPte where
  write : Bool
  dirty : Bool
  deriving DecidableEq, Repr

/-- A local block.  For the subblock `i`, `lp i` holds the mapping records, `pte i v o` is the pte
of `v` for its page `o`, and `mapRefs i` counts the references taken for ptes.  `v` sees the
`pageLen v` pages from `pageOff v` on.  `allocs` counts the calls of `emp_lp_alloc_pmd`. -/
structure HptBlock (V P : Type*) where
  descSize : ℕ
  subblockSize : ℕ
  pageOff : V → ℕ
  pageLen : V → ℕ
  protWrite : V → Bool
  vmWrite : V → Bool
  cow : ℕ → Bool
  lp : ℕ → MapperList V P
  pte : ℕ → V → ℕ → Option HptPte
  pageDirty : ℕ → Bool
  mapRefs : ℕ → ℤ
  rss : V → ℤ
  prefetchedCpf : Bool
  prefetchedCsf : Bool
  dirty : Bool
  remote : ℕ → Bool
  demandOffset : ℕ
  allocs : ℕ

namespace HptBlock

variable {V P : Type*} [DecidableEq V]

/-- The page `o` is among the `len` pages from `off` on. -/
def inRun (off len o : ℕ) : Bool := decide (off ≤ o) && decide (o < off + len)

/-- `pte_install`; a pte that is there already stays. -/
def pteInstall (i : ℕ) (v : V) (off len : ℕ) (isWrite : Bool) (s : HptBlock V P) :
    HptBlock V P :=
  { s with
    pte := Function.update s.pte i (Function.update (s.pte i) v fun o =>
      if inRun off len o && (s.pte i v o).isNone then
        some ⟨(s.protWrite v || isWrite && s.vmWrite v) && !s.cow i, isWrite⟩
      else s.pte i v o)
    pageDirty := if isWrite then Function.update s.pageDirty i true else s.pageDirty }

/-- Inserting a record for `v` into the subblock `i` takes an allocation. -/
def asksAlloc (i : ℕ) (v : V) (s : HptBlock V P) : Bool :=
  (s.lp i).next.isSome && !(s.lp i).empLpLookupVmr v

/-- `emp_lp_insert_pmd`; the outcome of the `k`-th allocation is `alloc k`. -/
def insertPmd (alloc : ℕ → Bool) (i : ℕ) (v : V) (p : P) (s : HptBlock V P) : HptBlock V P :=
  { s with
    lp := Function.update s.lp i ((s.lp i).empLpInsertPmd v p (alloc s.allocs)).2
    allocs := if s.asksAlloc i v then s.allocs + 1 else s.allocs }

/-- `__emp_install_hptes`; the result of the insertion is dropped. -/
def installHptes (alloc : ℕ → Bool) (i : ℕ) (v : V) (p : P) (isWrite : Bool)
    (s : HptBlock V P) : HptBlock V P :=
  let prevOwner := if (s.lp i).empLpCountPmd = 0 then (s.lp i).empLpOwner else none
  let s' := insertPmd alloc i v p <| pteInstall i v (s.pageOff v) (s.pageLen v) isWrite
    { s with mapRefs := Function.update s.mapRefs i (s.mapRefs i + s.pageLen v) }
  { s' with
    rss := fun w => s.rss w + (if w = v then (s.pageLen v : ℤ) else 0) -
      if prevOwner = some w then (s.subblockSize : ℤ) else 0 }

/-- The loop of `emp_install_hptes` over the first `k` subblocks. -/
def installLoop (alloc : ℕ → Bool) (v : V) (p : P) (isWrite : Bool) :
    ℕ → HptBlock V P → HptBlock V P
  | 0, s => s
  | k + 1, s =>
    let s := installLoop alloc v p isWrite k s
    if (s.lp k).empLpLookupVmr v then s else s.installHptes alloc k v p isWrite

/-- `emp_install_hptes`; `arrived` is the outcome of `try_wait_read_async` where
`bvma_transition_csf` asks for it. -/
def empInstallHptes (alloc : ℕ → Bool) (v : V) (demand : ℕ) (p : P) (prefetchHit isWrite : Bool)
    (arrived : Bool) (s : HptBlock V P) : HptBlock V P :=
  if !prefetchHit && s.prefetchedCpf then
    if arrived then
      installHptes alloc demand v p isWrite
        { s with
          remote := Function.update s.remote demand false
          prefetchedCpf := false
          prefetchedCsf := true }
    else s.pteInstall demand v (s.demandOffset % s.subblockSize) 1 isWrite
  else if !prefetchHit && s.prefetchedCsf then s.installHptes alloc demand v p isWrite
  else s.installLoop alloc v p isWrite s.descSize

/-! ### One set of mappers -/

/-- `emp_lp_next_mapped_pmd`. -/
def nextMappedPmd (lp : MapperList V P) (r : MappedPmd V P) : Option (MappedPmd V P) :=
  (lp.records.dropWhile fun q => decide (q.vmr ≠ r.vmr)).tail.head?

/-- A loop of `__sync_hpt_map_in_block` over the records of `walked`, from a given one on: what it
names and `other` does not is installed everywhere.  The first component counts the
installations; `none` when the rounds do not suffice. -/
def syncWalk (alloc : ℕ → Bool) (isWrite : Bool) (walked other : ℕ) :
    ℕ → Option (MappedPmd V P) → ℕ × HptBlock V P → Option (ℕ × HptBlock V P)
  | _, none, t => some t
  | 0, some _, _ => none
  | rounds + 1, some r, (installed, s) =>
    let t := match r.vmr, r.pmd with
      | some v, some p =>
        if (s.lp other).empLpLookupVmr v then (installed, s)
        else (installed + 1, s.empInstallHptes alloc v 0 p true isWrite false)
      | _, _ => (installed, s)
    syncWalk alloc isWrite walked other rounds (nextMappedPmd (t.2.lp walked) r) t

/-- The walk over all records of a subblock. -/
def syncAll (alloc : ℕ → Bool) (isWrite : Bool) (walked other : ℕ) (s : HptBlock V P) :
    Option (ℕ × HptBlock V P) :=
  syncWalk alloc isWrite walked other (s.lp walked).records.length (s.lp walked).records.head?
    (0, s)

/-- `__sync_hpt_map_in_block` for the head and the subblock `j`. -/
def syncHptPair (alloc : ℕ → Bool) (isWrite : Bool) (j : ℕ) (s : HptBlock V P) :
    Option (HptBlock V P) :=
  if (s.lp 0).empLpCountPmd = 0 ∧ (s.lp j).empLpCountPmd = 0 then some s
  else if (s.lp 0).empLpCountPmd = 1 ∧ (s.lp j).empLpCountPmd = 1 ∧
      (s.lp 0).pmds.vmr = (s.lp j).pmds.vmr then some s
  else
    let more := if (s.lp j).empLpCountPmd ≤ (s.lp 0).empLpCountPmd then 0 else j
    let less := if (s.lp j).empLpCountPmd ≤ (s.lp 0).empLpCountPmd then j else 0
    (syncAll alloc isWrite more less s).bind fun t =>
      if (t.1 : ℤ) = (s.lp more).empLpCountPmd - (s.lp less).empLpCountPmd then some t.2
      else (syncAll alloc isWrite less more t.2).map Prod.snd

/-- `sync_hpt_map_in_block` for the subblocks up to `j`. -/
def syncLoop (alloc : ℕ → Bool) (isWrite : Bool) : ℕ → HptBlock V P → Option (HptBlock V P)
  | 0, s => some s
  | j + 1, s => (syncLoop alloc isWrite j s).bind (syncHptPair alloc isWrite (j + 1))

/-- `sync_hpt_map_in_block`. -/
def syncHptMapInBlock (alloc : ℕ → Bool) (isWrite : Bool) (s : HptBlock V P) :
    Option (HptBlock V P) :=
  syncLoop alloc isWrite (s.descSize - 1) s

/-! ### Removal -/

/-- The pages that `v` maps of the subblock `i`, among those it sees. -/
def mappedPages (s : HptBlock V P) (i : ℕ) (v : V) : List ℕ :=
  (List.range' (s.pageOff v) (s.pageLen v)).filter fun o => (s.pte i v o).isSome

/-- `__unmap_ptes` for one subblock.  The short cut for a subblock that nobody maps is this with
no pte to clear. -/
def unmapSubblock (v : V) (i : ℕ) (s : HptBlock V P) : HptBlock V P :=
  if (s.lp i).empLpLookupVmr v then
    let lp := ((s.lp i).empLpPopPmd v).2
    { s with
      lp := Function.update s.lp i lp
      pte := Function.update s.pte i (Function.update (s.pte i) v fun o =>
        if inRun (s.pageOff v) (s.pageLen v) o then none else s.pte i v o)
      mapRefs := Function.update s.mapRefs i (s.mapRefs i - (s.mappedPages i v).length)
      dirty := s.dirty || (s.mappedPages i v).any fun o => (s.pte i v o).any HptPte.dirty
      rss := Function.update s.rss v (s.rss v - s.pageLen v +
        if lp.empLpCountPmd = 0 then (s.subblockSize : ℤ) else 0) }
  else s

/-- `__unmap_ptes`, for the first `k` subblocks. -/
def unmapBlock (v : V) : ℕ → HptBlock V P → HptBlock V P
  | 0, s => s
  | k + 1, s => (unmapBlock v k s).unmapSubblock v k

/-- The loop of `unmap_ptes` over the records of the subblock `i`; `none` when the rounds do not
suffice. -/
def unmapRecords (i : ℕ) : ℕ → HptBlock V P → Option (HptBlock V P)
  | 0, s => if (s.lp i).records = [] then some s else none
  | rounds + 1, s =>
    match (s.lp i).records.head?.bind MappedPmd.vmr with
    | none => some s
    | some v => unmapRecords i rounds (s.unmapBlock v s.descSize)

/-- `unmap_ptes`, for the first `k` subblocks. -/
def unmapLoop : ℕ → HptBlock V P → Option (HptBlock V P)
  | 0, s => some s
  | k + 1, s => (unmapLoop k s).bind fun t => t.unmapRecords k (t.lp k).records.length

/-- `unmap_ptes`. -/
def unmapPtes (s : HptBlock V P) : Option (HptBlock V P) := s.unmapLoop s.descSize

end HptBlock

end Emp
