import Emp.View.Runs
import Mathlib

/-!
# Making a vmr

`emp_mmap` makes the first vmr of a new vmdesc; the open of a forked vma makes one of the child, and
a vma split makes one ahead, which the open that follows takes.  The steps register the vmr with the
memory, with the notifier of its mm and with a vmdesc, and any of them may fail.

Addresses are page numbers.  Pointers come from the allocations.  Of the directory, the slots and
the counts of the descriptors are kept; the blocks of the parent are given by the range of indexes
that each lies in.  What a split does to the blocks is left out (`Directory.splitVmdesc`).

## Main definitions

* `OpenVmr`, `OpenSys` — a vmr, and what a memory has registered.
* `OpenSys.empMmap`, `empVmaSplit`, `empVmaOpen` — the calls; `false` is an error.
* `OpenCall`, `OpenSys.run` — a call.
-/

namespace Emp

/-- `struct vm_area_struct`, as far as it is read. -/
structure HostVma where
  mm : ℕ
  vmStart : ℕ
  vmEnd : ℕ
  vmShared : Bool
  deriving DecidableEq, Repr

/-- `struct emp_vmr`; `notified` says that it holds a reference of the notifier of its mm, and
`opened` that it has a host vma. -/
structure OpenVmr where
  mm : ℕ
  vmStart : ℕ
  vmEnd : ℕ
  descs : Option ℕ
  notified : Bool
  wipeOnFork : Bool
  opened : Bool
  splitNew : Option ℕ
  splitPrev : Option ℕ
  deriving DecidableEq, Repr

/-- A memory: the vmrs and vmdescs that are allocated, the list of vmrs with its count, the
references of notifiers, and the counts of descriptors. -/
structure OpenSys where
  kvm : Bool
  lowmemVmr : Option ℕ
  vmr : ℕ → Option OpenVmr
  vmrsList : List ℕ
  numVmrs : ℤ
  desc : ℕ → Option Vmdesc
  gpaDir : ℕ → ℕ → Option ℕ
  refcnt : ℕ → ℤ
  notifierRefs : ℕ → ℤ
  sbOrder : ℕ

/-- What comes from outside: the checks that `emp_mmap` begins with, the pointers of a new vmr and
of a new vmdesc, the notifier, the directory and the entry of a view. -/
structure OpenMem where
  checked : Bool
  vmr : Option ℕ
  notifier : Bool
  vmdesc : Option ℕ
  dir : Bool
  node : Bool
  node' : Bool

/-- The vmas that `find_vma` returns in front of the parent's and of the child's, if they are EMP's,
and the blocks of the parent: the indexes of the block that an index lies in. -/
structure ForkPlace where
  pred : Option ℕ
  childPred : Option ℕ
  block : ℕ → ℕ × ℕ

inductive OpenCall
  | mmap (vma : HostVma) (base : ℕ) (mem : OpenMem)
  | split (prev : ℕ) (mem : OpenMem)
  | open (prev : ℕ) (vma : HostVma) (place : ForkPlace) (mem : OpenMem)

namespace OpenVmr

/-- The vmr as its views take it. -/
def view (v : OpenVmr) : Vmr := ⟨v.mm, v.vmStart, v.vmEnd, v.descs.getD 0, false, v.wipeOnFork⟩

/-- `__copy_vma_info`. -/
def copyVmaInfo (vma : HostVma) (v : OpenVmr) : OpenVmr :=
  { v with mm := vma.mm, vmStart := vma.vmStart, vmEnd := vma.vmEnd, opened := true }

/-- A vmr from `emp_kzalloc`. -/
def blank : OpenVmr := ⟨0, 0, 0, none, false, false, false, none, none⟩

end OpenVmr

namespace OpenSys

variable (mem : OpenMem) (p : ℕ) (s : OpenSys)

def setVmr (f : OpenVmr → OpenVmr) : OpenSys :=
  { s with vmr := Function.update s.vmr p ((s.vmr p).map f) }

def setDesc (d : ℕ) (f : Vmdesc → Vmdesc) : OpenSys :=
  { s with desc := Function.update s.desc d ((s.desc d).map f) }

/-- `create_vmr`, with `emp_vmr_register`. -/
def createVmr (vma : Option HostVma) : OpenSys :=
  { s with
    vmr := Function.update s.vmr p
      (some (match vma with | none => .blank | some a => OpenVmr.blank.copyVmaInfo a))
    vmrsList := s.vmrsList ++ [p]
    numVmrs := s.numVmrs + 1 }

/-- `emp_vmr_release`. -/
def empVmrRelease : OpenSys :=
  { s with
    lowmemVmr := if s.lowmemVmr = some p then none else s.lowmemVmr
    vmrsList := s.vmrsList.erase p
    numVmrs := s.numVmrs - 1 }

/-- `emp_kfree` of a vmr. -/
def freeVmr : OpenSys := { s with vmr := Function.update s.vmr p none }

/-- `emp_get_mmu_notifier`; `mmu_notifier_get_locked` takes a reference of the notifier. -/
def empGetMmuNotifier (v : OpenVmr) : OpenSys × Bool :=
  if v.notified then (s, true)
  else if mem.notifier then
    ({ s.setVmr p fun v => { v with notified := true } with
      notifierRefs := Function.update s.notifierRefs v.mm (s.notifierRefs v.mm + 1) }, true)
  else (s, false)

/-! ### `emp_mmap` -/

/-- `gpas_open` of a vmr that has no vmdesc; `base` is the `vm_base` that `allocate_gpas` sets. -/
def gpasOpen (v : OpenVmr) (base : ℕ) : OpenSys × Bool :=
  match mem.vmdesc with
  | none => (s, false)
  | some d =>
    if mem.dir then
      let desc := (Vmdesc.mk base 1 ViewList.empVmdescViewInit).addView v.view false mem.node
      ({ s.setVmr p fun v => { v with descs := some d } with
        desc := Function.update s.desc d (some desc)
        gpaDir := Function.update s.gpaDir d fun _ => none }, true)
    -- the directory could not be allocated, and the vmdesc is freed again
    else (s, false)

/-- `emp_mmap`; `gpas_close` has nothing to do for a vmr that has no vmdesc. -/
def empMmap (vma : HostVma) (base : ℕ) : OpenSys × Bool :=
  if !mem.checked then (s, false)
  else
    match mem.vmr with
    | none => (s, false)
    | some p =>
      let s := s.createVmr p (some vma)
      let s := if s.kvm && s.lowmemVmr.isNone then { s with lowmemVmr := some p } else s
      let v := OpenVmr.blank.copyVmaInfo vma
      let (s, registered) := if s.kvm then (s, true) else s.empGetMmuNotifier mem p v
      if !registered then (s, false)
      else
        match s.gpasOpen mem p v base with
        | (s, true) => (s, true)
        | (s, false) => (s.empVmrRelease p, false)

/-! ### Splits -/

/-- `finish_emp_vma_split`, with `emp_vmr_discard` of a vmr that was never opened. -/
def finishEmpVmaSplit : OpenSys :=
  let s := match (s.vmr p).bind OpenVmr.splitNew with
    | none => s
    | some q =>
      let s := (s.setVmr q fun v => { v with splitPrev := none }).setVmr p
        fun v => { v with splitNew := none }
      if (s.vmr q).any fun v => !v.opened then (s.empVmrRelease q).freeVmr q else s
  match (s.vmr p).bind OpenVmr.splitPrev with
  | none => s
  | some q => (s.setVmr q fun v => { v with splitNew := none }).setVmr p
      fun v => { v with splitPrev := none }

/-- `emp_vma_split`, which the kernel calls before it makes the second vma. -/
def empVmaSplit : OpenSys × Bool :=
  match mem.vmr with
  | none => (s, false)
  | some q =>
    let s := (s.createVmr q none).finishEmpVmaSplit p
    ((s.setVmr p fun v => { v with splitNew := some q }).setVmr q
      fun v => { v with splitPrev := some p }, true)

/-- `__emp_vma_split`: the halves share the vmdesc, and each gets its view. -/
def openSplit (prev new : ℕ) (v : OpenVmr) (vma : HostVma) : OpenSys :=
  let addr := if v.vmStart = vma.vmStart then vma.vmEnd else vma.vmStart
  let rest := if v.vmStart = vma.vmStart then { v with vmStart := vma.vmEnd }
    else { v with vmEnd := vma.vmStart }
  let s := s.setVmr prev fun _ => rest
  let s := s.setVmr new fun w =>
    { w.copyVmaInfo vma with descs := v.descs, wipeOnFork := v.wipeOnFork }
  let s := match v.descs with
    | none => s
    | some d => s.setDesc d fun desc =>
        desc.get.splitView v.view addr ⟨true, true, mem.node, mem.node'⟩
  s.finishEmpVmaSplit prev

/-! ### Forks -/

/-- `fork_find_sibling_vmdesc`. -/
def forkFindSiblingVmdesc (v : OpenVmr) (vma : HostVma) (place : ForkPlace) : Option ℕ :=
  if v.vmStart = 0 ∨ vma.vmStart = 0 then none
  else (place.pred.bind s.vmr).bind fun q =>
    if q.vmEnd = v.vmStart ∧ q.descs = v.descs then
      (place.childPred.bind s.vmr).bind fun r => if r.vmEnd = vma.vmStart then r.descs else none
    else none

/-- The slots that `__dup_vmdesc` copies: those of the blocks that meet `[start, finish)`. -/
def copied (dir : ℕ → Option ℕ) (block : ℕ → ℕ × ℕ) (start finish i : ℕ) : Bool :=
  (List.range' start (finish - start)).any fun j =>
    (dir j).isSome && decide ((block j).1 ≤ i) && decide (i < (block j).2)

/-- `__dup_vmdesc`: the slots of the child's directory `d`, each with a count of its descriptor. -/
def dupDir (d from_ : ℕ) (block : ℕ → ℕ × ℕ) (start finish : ℕ) : OpenSys :=
  let old := s.gpaDir from_
  let slots := (List.range (block (finish - 1)).2).filter (copied old block start finish)
  { s with
    gpaDir := Function.update s.gpaDir d fun i =>
      if i ∈ slots then (s.gpaDir d i).or (old i) else s.gpaDir d i
    refcnt := fun g => s.refcnt g + (slots.countP fun i => s.gpaDir d i = none ∧ old i = some g) }

/-- `dup_vmdesc`. -/
def dupVmdesc (new : ℕ) (v : OpenVmr) (vma : HostVma) (place : ForkPlace)
    (newVmdesc dup : Bool) : OpenSys × Bool :=
  let made : Option OpenSys :=
    if newVmdesc then
      match mem.vmdesc, v.descs.bind s.desc with
      | some d, some parent =>
        if mem.dir then
          let w := OpenVmr.blank.copyVmaInfo vma
          let desc := (Vmdesc.mk parent.vmBase 1 ViewList.empVmdescViewInit).addView w.view
            false mem.node
          some { s.setVmr new fun w => { w with descs := some d } with
            desc := Function.update s.desc d (some desc)
            gpaDir := Function.update s.gpaDir d fun _ => none }
        else none
      | _, _ => none
    else some s
  match made with
  | none => (s.setVmr new fun w => { w with descs := none }, false)
  | some s =>
    if dup then
      match (s.vmr new).bind OpenVmr.descs, v.descs with
      | some d, some from_ =>
        let base := ((s.desc d).map Vmdesc.vmBase).getD 0
        (s.dupDir d from_ place.block ((vma.vmStart - base) / 2 ^ s.sbOrder)
          ((vma.vmEnd - base + 2 ^ s.sbOrder - 1) / 2 ^ s.sbOrder), true)
      | _, _ => (s, true)
    else (s, true)

/-- `new_vmr` becomes a further vmr of the vmdesc `d`. -/
def attach (new d : ℕ) (vma : HostVma) (firstOrShared : Bool) : OpenSys :=
  let w := OpenVmr.blank.copyVmaInfo vma
  (s.setVmr new fun w => { w with descs := some d }).setDesc d
    fun desc => desc.get.addView w.view firstOrShared mem.node

/-- What `__emp_vma_open` does before `dup_vmdesc`, and the options of that call. -/
def prepare (new : ℕ) (v : OpenVmr) (vma : HostVma) (place : ForkPlace) :
    OpenSys × Bool × Bool :=
  if vma.vmShared then
    (match v.descs with | none => s | some d => s.attach mem new d vma true, false, false)
  else if v.wipeOnFork then (s, true, false)
  else
    match s.forkFindSiblingVmdesc v vma place with
    | some d => (s.attach mem new d vma false, false, true)
    | none => (s, true, true)

/-- `__emp_vma_open`. -/
def forkOpen (v : OpenVmr) (vma : HostVma) (place : ForkPlace) : OpenSys × Bool :=
  match mem.vmr with
  | none => (s, false)
  | some new =>
    let s := s.createVmr new (some vma)
    let w := OpenVmr.blank.copyVmaInfo vma
    let (s, registered) := if s.kvm then (s, true) else s.empGetMmuNotifier mem new w
    if !registered then (s.freeVmr new, false)
    else
      let s := s.setVmr new fun w => { w with wipeOnFork := v.wipeOnFork }
      let (s, newVmdesc, dup) := s.prepare mem new v vma place
      match s.dupVmdesc mem new v vma place newVmdesc dup with
      | (s, true) => (s, true)
      | (s, false) =>
        let s := if vma.vmShared || !newVmdesc then
            match (s.vmr new).bind OpenVmr.descs with
            | none => s
            | some d => s.setDesc d fun desc => (desc.delView w.view).put
          else s
        ((s.empVmrRelease new).freeVmr new, false)

/-- `emp_vma_open`, of a vma that was copied from that of `prev`. -/
def empVmaOpen (prev : ℕ) (vma : HostVma) (place : ForkPlace) : OpenSys × Bool :=
  match s.vmr prev with
  | none => (s, false)
  | some v =>
    match v.splitNew with
    | some new => (s.openSplit mem prev new v vma, true)
    | none => s.forkOpen mem v vma place

/-- A call. -/
def run : OpenCall → OpenSys × Bool
  | .mmap vma base mem => s.empMmap mem vma base
  | .split prev mem => s.empVmaSplit mem prev
  | .open prev vma place mem => s.empVmaOpen mem prev vma place

end OpenSys

end Emp
