import Emp.Els.RegionGrid
import Emp.View.Close
import Mathlib.Data.Int.Notation
import Mathlib.Data.Nat.Count

/-!
# Vmdescs that share descriptors

A private fork gives the child a vmdesc of its own, whose directory is filled from the parent's,
view by view: the walk finds the head of the next block, locks the block that this index lies in
by then, copies the slots of the block, and steps on by the size that the block has after it has
been unlocked.  Operations on blocks take place in between.  Every slot that points to a
descriptor counts in its `refcnt`.  A copy-on-write fault replaces a whole group, and the close
that takes a group's first descriptor down to zero frees the group.

The vmdescs are those that forks have made from one mapping, numbered in the order in which they
were made; they have the same regions, and share no descriptors with those of other mappings.  A
fork holds the mmap lock of the parent, and the child does not run before it is complete, so no
fault, split or close takes place on the two directories meanwhile.

## Main definitions

* `ForkTask`, `ForkSys` — a fork that has not ended, and the vmdescs with their groups.
* `ForkSys.walk`, `ForkSys.cow`, `ForkSys.closeAndFreeGpas` — a step of `__dup_vmdesc`, a
  copy-on-write fault, and a close.
* `ForkEvent`, `ForkSys.step` — the operations.
* `ForkSys.Grouped`, `ForkSys.FreedOnce` — the groups are shared as wholes, and freed once.
-/

namespace Emp

/-- Where the walk of `__dup_vmdesc` is. -/
inductive WalkPc
  /-- at `get_next_exist_head_gpadesc` from an index on -/
  | find (index : ℕ)
  /-- a head has been found at the index, and is not locked yet -/
  | lock (headIdx : ℕ)
  /-- the block has been unlocked, with `pos` its head -/
  | next (headIdx : ℕ) (pos : Slot)
  deriving DecidableEq, Repr

/-- A private fork: the vmdesc of the parent, the end of the view that is being walked, and the
vmrs of the child that are still to be opened. -/
structure ForkTask where
  parent : ℕ
  indexEnd : ℕ
  pc : WalkPc
  rest : List Vmr

/-- The vmdescs of a mapping and its forks, and the groups of descriptors that have been
allocated for them. -/
structure ForkSys where
  backing : Backing
  gpaSize : ℕ
  group : ℕ → Option Group
  refcnt : Slot → ℤ
  /-- `GPA_WPROTECT` -/
  wprotect : Slot → Bool
  /-- how often a group has been freed -/
  frees : ℕ → ℕ
  /-- frees of a descriptor that is not the first of its group -/
  strayFrees : ℕ
  /-- calls of `remove_gpa_dir` on an empty slot -/
  nullRemoved : ℕ
  numDescs : ℕ
  gpaDir : ℕ → ℕ → Option Slot
  desc : ℕ → Vmdesc
  vmrs : ℕ → List Vmr
  /-- the fork that fills the directory -/
  task : ℕ → Option ForkTask

/-- The indexes that `__dup_vmdesc` walks for a vmr. -/
def Backing.InView (m : Backing) (v : Vmr) (i : ℕ) : Prop :=
  m.indexOf v.vmStart ≤ i ∧ i < m.indexEnd v.vmEnd

instance (m : Backing) (v : Vmr) (i : ℕ) : Decidable (m.InView v i) :=
  inferInstanceAs (Decidable (_ ∧ _))

namespace ForkSys

variable (s : ForkSys) (d : ℕ)

/-- The directory of a vmdesc. -/
def dirAt : Directory := ⟨s.backing, s.gpaSize, s.group, s.gpaDir d, []⟩

/-- A vmdesc with its directory. -/
def view : VmdescDir := ⟨s.dirAt d, s.desc d, s.vmrs d, fun _ => 0, fun _ => 0⟩

/-- A fork fills the directory, or fills another one from it. -/
def busy : Bool :=
  (List.range s.numDescs).any fun c => match s.task c with
    | some t => c == d || t.parent == d
    | none => false

/-! ### First touches and splits -/

/-- The directory after slots have been populated by `set_gpa_dir_new`, with the group that has
been allocated for them, if it was. -/
def populate (alloc : Option (ℕ × ℕ)) (dir : Directory) : ForkSys :=
  { s with
    group := dir.group
    gpaDir := Function.update s.gpaDir d dir.gpaDir
    refcnt := match alloc.bind fun a => (dir.group a.1).map (a.1, ·) with
      | some (id, g) => fun x =>
          if x.group = id ∧ x.member < g.len ∧ s.gpaDir d (g.start + x.member) = none then
            s.refcnt x + 1
          else s.refcnt x
      | none => s.refcnt }

/-- `get_gpadesc`. -/
def getGpadesc (idx : ℕ) (alloc : Option (ℕ × ℕ)) : ForkSys :=
  s.populate d alloc ((s.dirAt d).getGpadesc idx alloc)

/-- `split_vmdesc`, with the views of the halves. -/
def splitVmdesc (v : Vmr) (addr : ℕ) (newIsFront : Bool) (alloc : Option (ℕ × ℕ)) (mem : Memory) :
    ForkSys :=
  let s' := s.populate d alloc
    ((s.dirAt d).splitVmdesc ⟨v.vmStart, v.vmEnd⟩ addr newIsFront alloc)
  { s' with
    desc := Function.update s.desc d ((s.desc d).get.splitView v addr mem)
    vmrs := Function.update s.vmrs d
      ({ v with vmEnd := addr } :: { v with vmStart := addr } :: (s.vmrs d).erase v) }

/-! ### Copy-on-write -/

/-- `free_gpadesc`: the address is that of the array only for its first descriptor. -/
def freeGpadesc (x : Slot) : ForkSys :=
  if x.member = 0 then { s with frees := Function.update s.frees x.group (s.frees x.group + 1) }
  else { s with strayFrees := s.strayFrees + 1 }

/-- `change_gpa_dir` of all slots of a group, from the group `old` to its copy `id`. -/
def changeGpaDir (id base : ℕ) (g : Group) (old start order : ℕ) : ForkSys :=
  let n := 2 ^ (order - s.backing.sbOrder)
  let dir := (s.dirAt d).copyGroup id base g start order
  { s with
    group := dir.group
    gpaDir := Function.update s.gpaDir d dir.gpaDir
    refcnt := fun x =>
      if x.group = id ∧ x.member < n then s.refcnt x + 1
      else if x.group = old ∧ x.member < n then s.refcnt x - 1 else s.refcnt x
    wprotect := fun x => if x.group = id then false else s.wprotect x }

/-- A copy-on-write fault at `idx`: the group is duplicated in a new array, block by block;
`fails` is the head of the block for which that fails. -/
def cow (idx id base : ℕ) (fails : Option ℕ) : Option ForkSys :=
  ((s.dirAt d).gpaAt idx).bind fun (x, g) => (s.backing.groupAt idx).bind fun (start, order) =>
    let head : Slot := ⟨x.group, g.member (g.empGetBlockHead x.member)⟩
    -- `check_cow_fault_gpa`
    if s.wprotect head = false then some s
    else if s.refcnt head ≤ 1 then
      some { s with
        wprotect := fun y =>
          if y.group = x.group ∧ head.member ≤ y.member ∧
              y.member < head.member + (g.gpa head.member).numSubblock then false
          else s.wprotect y }
    else match fails with
      | none => some (s.changeGpaDir d id base g x.group start order)
      | some m =>
        if g.IsHead m then
          let s' := { s with group := Function.update s.group id (some { g with base := base }) }
          some (s'.freeGpadesc ⟨id, m⟩)
        else none

/-! ### Forks -/

/-- `alloc_vmdesc` for a private fork: the vmr `v` of the parent gets a new vmdesc, which the
vmrs `vs` of the other halves share (`fork_find_sibling_vmdesc`). -/
def fork (mm : ℕ) (v : Vmr) (vs : List Vmr) : ForkSys :=
  let c := s.numDescs
  let child (w : Vmr) : Vmr := { w with mm := mm, descs := c }
  { s with
    numDescs := c + 1
    desc := Function.update s.desc c
      ((Vmdesc.mk s.backing.vmBase 1 ViewList.empVmdescViewInit).addView (child v) false true)
    vmrs := Function.update s.vmrs c [child v]
    task := Function.update s.task c
      (if v.wipeOnFork then none
        else some ⟨d, s.backing.indexEnd v.vmEnd, .find (s.backing.indexOf v.vmStart), vs.map child⟩) }

variable (c : ℕ) (t : ForkTask)

def setPc (pc : WalkPc) : ForkSys := { s with task := Function.update s.task c (some { t with pc := pc }) }

/-- The walk of one view has ended. -/
def nextView (alloc : Bool) : ForkSys :=
  match t.rest with
  | [] => { s with task := Function.update s.task c none }
  | w :: ws =>
    { s with
      desc := Function.update s.desc c ((s.desc c).get.addView w false alloc)
      vmrs := Function.update s.vmrs c (w :: s.vmrs c)
      task := Function.update s.task c (some
        ⟨t.parent, s.backing.indexEnd w.vmEnd, .find (s.backing.indexOf w.vmStart), ws⟩) }

/-- The loop over the `n` descriptors of a locked block, with `pos` its head: `set_gpa_dir_new` from
the slot `h` on. -/
def copyBlock (h : ℕ) (pos : Slot) (n : ℕ) : ForkSys :=
  { s with
    gpaDir := Function.update s.gpaDir c fun i =>
      if h ≤ i ∧ i < h + n ∧ s.gpaDir c i = none then some ⟨pos.group, pos.member + (i - h)⟩
      else s.gpaDir c i
    refcnt := fun x =>
      if x.group = pos.group ∧ pos.member ≤ x.member ∧ x.member < pos.member + n ∧
          s.gpaDir c (h + (x.member - pos.member)) = none then s.refcnt x + 1
      else s.refcnt x
    wprotect := fun x =>
      if x.group = pos.group ∧ pos.member ≤ x.member ∧ x.member < pos.member + n then true
      else s.wprotect x }

/-- A step of the walk of `__dup_vmdesc`. -/
def walk (alloc : Bool) : Option ForkSys :=
  (s.task c).bind fun t =>
    match t.pc with
    | .find index =>
      match (s.dirAt t.parent).getNextExistHead index with
      | some h => some (if h < t.indexEnd then s.setPc c t (.lock h) else s.nextView c t alloc)
      | none => some (s.nextView c t alloc)
    | .lock h => ((s.dirAt t.parent).gpaAt h).map fun (x, g) =>
      let head := g.member (g.empGetBlockHead x.member)
      -- the slots are filled from `h` on, whichever index the head has
      (s.copyBlock c h ⟨x.group, head⟩ (g.gpa head).numSubblock).setPc c t (.next h ⟨x.group, head⟩)
    | .next h pos => (s.group pos.group).map fun g =>
      s.setPc c t (.find (h + (g.gpa pos.member).numSubblock))

/-! ### Closes -/

/-- `remove_gpa_dir` of `n` slots. -/
def removeGpaDir (lo n : ℕ) : ForkSys :=
  { s with
    gpaDir := Function.update s.gpaDir d fun i =>
      if lo ≤ i ∧ i < lo + n then none else s.gpaDir d i
    refcnt := fun x => s.refcnt x - Nat.count (fun j => s.gpaDir d (lo + j) = some x) n
    nullRemoved := s.nullRemoved + Nat.count (fun j => s.gpaDir d (lo + j) = none) n }

/-- `__put_max_block` of a group that is released, and the free of the group. -/
def putMaxBlock (i n : ℕ) : ForkSys :=
  match s.gpaDir d i with
  | none => s
  | some maxHead =>
    if 0 < s.refcnt maxHead - 1 then s.removeGpaDir d i n
    else (s.removeGpaDir d i n).freeGpadesc maxHead

/-- The loop of `free_gpa_dir_region` from `i` on. -/
def freeGpaDirLoop (release : ℕ → Bool) (step finish : ℕ) : ℕ → ℕ → ForkSys → ForkSys
  | 0, _, s => s
  | fuel + 1, i, s =>
    if i < finish then
      freeGpaDirLoop release step finish fuel (i + step)
        (if release i then s.putMaxBlock d i step else s)
    else s

/-- `free_gpa_dir_region`: the walk of `[idxStart, idxEnd)` on the grid of the region. -/
def freeGpaDirRegion (release : ℕ → ℕ → Bool) (idxStart idxEnd : ℕ) (s : ForkSys)
    (r : GpadescRegion) : ForkSys :=
  let step := 2 ^ (r.allocOrder - s.backing.sbOrder)
  if idxEnd ≤ r.start ∨ r.finish ≤ idxStart then s
  else
    let start := if r.start < idxStart then r.start + alignDown (r.allocOrder - s.backing.sbOrder)
      (idxStart - r.start) else r.start
    let finish := if idxEnd < r.finish then r.start + alignDown (r.allocOrder - s.backing.sbOrder)
      (idxEnd - r.start + step - 1) else r.finish
    s.freeGpaDirLoop d (release step) step finish (finish - start) start

/-- The vmdesc without the vmr that closes. -/
def detach (v : Vmr) : ForkSys :=
  { s with
    desc := Function.update s.desc d ((s.desc d).delView v).put
    vmrs := Function.update s.vmrs d ((s.vmrs d).erase v) }

/-- `close_and_free_gpas`. -/
def closeAndFreeGpas (v : Vmr) : ForkSys :=
  let s' := s.detach d v
  let y := s'.view d
  if 0 < y.desc.refcount then
    s.backing.setGpadescRegions.foldl
      (freeGpaDirRegion d (y.releases v) (y.desc.viewStart v / y.sbSize)
        ((y.desc.viewEnd v + y.sbSize - 1) / y.sbSize)) s'
  else
    let s'' := s.backing.setGpadescRegions.foldl
      (freeGpaDirRegion d (fun _ _ => true) 0 s.backing.gpaLen) s'
    -- the directory itself is freed
    { s'' with gpaDir := Function.update s''.gpaDir d fun _ => none }

end ForkSys

/-- The operations: a first touch, an operation on a block of a group, a shared fork, the split of
a vma, a copy-on-write fault, a private fork, a step of its walk, and a close. -/
inductive ForkEvent
  | touch (d idx : ℕ) (alloc : Option (ℕ × ℕ))
  | els (id : ℕ) (e : ElsEvent)
  | attach (d : ℕ) (v : Vmr) (alloc : Bool)
  | split (d : ℕ) (v : Vmr) (addr : ℕ) (newIsFront : Bool) (alloc : Option (ℕ × ℕ)) (mem : Memory)
  | cow (d idx id base : ℕ) (fails : Option ℕ)
  | fork (d mm : ℕ) (v : Vmr) (vs : List Vmr)
  | walk (c : ℕ) (alloc : Bool)
  | close (d : ℕ) (v : Vmr)

namespace ForkSys

/-- One operation.  A vmr that is attached has the pages of one that is there. -/
def step : ForkSys → ForkEvent → Option ForkSys
  | s, .touch d idx alloc =>
      if s.busy d = false ∧ s.vmrs d ≠ [] ∧ (s.dirAt d).available idx alloc then
        some (s.getGpadesc d idx alloc)
      else none
  | s, .els id e =>
      if s.frees id = 0 then
        (s.group id).bind fun g => (g.step e).map fun g' =>
          { s with group := Function.update s.group id (some g') }
      else none
  | s, .attach d v alloc =>
      if s.busy d = false ∧ ∃ w ∈ s.vmrs d, w.vmStart = v.vmStart ∧ w.vmEnd = v.vmEnd then
        some { s with
          desc := Function.update s.desc d ((s.desc d).get.addView v true alloc)
          vmrs := Function.update s.vmrs d (v :: s.vmrs d) }
      else none
  | s, .split d v addr newIsFront alloc mem =>
      if s.busy d = false ∧ v ∈ s.vmrs d ∧ v.vmStart < addr ∧ addr < v.vmEnd ∧
          (s.dirAt d).available (s.backing.indexOf addr) alloc then
        some (s.splitVmdesc d v addr newIsFront alloc mem)
      else none
  | s, .cow d idx id base fails =>
      if s.busy d = false ∧ (s.dirAt d).available idx (some (id, base)) then
        s.cow d idx id base fails
      else none
  | s, .fork d mm v vs =>
      if s.busy d = false ∧ d < s.numDescs ∧
          (∀ w ∈ v :: vs, w ∈ s.vmrs d ∧ w.shared = false ∧ w.wipeOnFork = v.wipeOnFork) ∧
          (v.wipeOnFork = true → vs = []) then
        some (s.fork d mm v vs)
      else none
  | s, .walk c alloc => s.walk c alloc
  | s, .close d v => if s.busy d = false ∧ v ∈ s.vmrs d then some (s.closeAndFreeGpas d v) else none

/-- A new mapping. -/
structure Start (s : ForkSys) : Prop where
  valid : s.backing.Valid
  gpaSize : 0 < s.gpaSize
  group : ∀ id, s.group id = none
  refcnt : ∀ x, s.refcnt x = 0
  frees : ∀ id, s.frees id = 0
  strayFrees : s.strayFrees = 0
  nullRemoved : s.nullRemoved = 0
  numDescs : s.numDescs = 1
  gpaDir : ∀ d i, s.gpaDir d i = none
  view : ∃ v, VmdescDir.Inside s.backing v ∧ s.vmrs 0 = [v] ∧
    s.desc 0 = (Vmdesc.mk s.backing.vmBase 1 ViewList.empVmdescViewInit).addView v false true
  vmrs : ∀ d, 0 < d → s.vmrs d = []
  task : ∀ d, s.task d = none

/-- The groups are shared as wholes. -/
structure Grouped (s : ForkSys) : Prop where
  /-- the slots of a group are empty, or point to the members of one group in order, in every
  directory that no fork is filling -/
  slots : ∀ d, s.task d = none → ∀ i start order, i < s.backing.gpaLen →
    s.backing.groupAt i = some (start, order) →
    (∀ j, start ≤ j → j < start + 2 ^ (order - s.backing.sbOrder) → s.gpaDir d j = none) ∨
    ∃ id, ∀ j, start ≤ j → j < start + 2 ^ (order - s.backing.sbOrder) →
      s.gpaDir d j = some ⟨id, j - start⟩
  /-- the members of a group have the same `refcnt`, unless a fork is filling a directory with them -/
  refcnt : ∀ id g, s.group id = some g →
    (∀ d, s.task d ≠ none → ∀ i x, s.gpaDir d i = some x → x.group ≠ id) →
    ∀ m < g.len, s.refcnt ⟨id, m⟩ = s.refcnt ⟨id, 0⟩
  /-- no empty slot has been removed -/
  nullRemoved : s.nullRemoved = 0
  /-- the first touch of an empty slot populates it -/
  touched : ∀ d, s.task d = none → ∀ idx id base, idx < s.backing.gpaLen → s.gpaDir d idx = none →
    (s.dirAt d).available idx (some (id, base)) = true →
    ((s.getGpadesc d idx (some (id, base))).gpaDir d idx).isSome

/-- The groups are freed once. -/
structure FreedOnce (s : ForkSys) : Prop where
  once : ∀ id, s.frees id ≤ 1
  /-- only whole groups have been freed -/
  stray : s.strayFrees = 0
  /-- no slot points to a group that has been freed -/
  dangling : ∀ d i x, s.gpaDir d i = some x → s.frees x.group = 0
  /-- a group that no slot points to has been freed -/
  leak : ∀ id g, s.group id = some g → (∀ d i x, s.gpaDir d i = some x → x.group ≠ id) →
    s.frees id = 1
  /-- the first member decides for the group -/
  decision : ∀ id g, s.group id = some g →
    (s.refcnt ⟨id, 0⟩ = 0 ↔ ∀ d i x, s.gpaDir d i = some x → x.group ≠ id)
  /-- a vmdesc without vmrs has no slots -/
  closed : ∀ d, s.vmrs d = [] → ∀ i, s.gpaDir d i = none

/-- A fork copies whole groups: its views cut no populated group of the parent, and neither is a
block stretched to the front between the moments when the walk finds and locks its head, nor to
the back between those when it is copied and stepped over.  The low memory of a virtual machine,
if there is any, starts with a whole block when a view is closed. -/
def Uncut (s : ForkSys) : ForkEvent → Prop
  | .fork d _ v vs => v.wipeOnFork = true ∨ ∀ i j, s.backing.groupAt i = s.backing.groupAt j →
      (s.gpaDir d i).isSome → (∃ w ∈ v :: vs, s.backing.InView w i) →
      ∃ w ∈ v :: vs, s.backing.InView w j
  | .walk c _ => ∀ t, s.task c = some t → match t.pc with
    | .find _ => True
    | .lock h => ∀ x g, (s.dirAt t.parent).gpaAt h = some (x, g) → g.IsHead x.member
    | .next h pos => ∀ g, s.group pos.group = some g →
        ∀ j < (g.gpa pos.member).numSubblock, (s.gpaDir c (h + j)).isSome
  | .close _ _ => s.backing.LowMemoryAligned
  | _ => True

/-- Besides, no copy-on-write fault fails after the first block of its group. -/
def UncutFirst (s : ForkSys) (e : ForkEvent) : Prop :=
  s.Uncut e ∧ ∀ d idx id base m, e = .cow d idx id base (some m) → m = 0

end ForkSys

end Emp
