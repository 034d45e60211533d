import Emp.Els.Geometry
import Mathlib.Logic.Function.Basic

/-!
# The directory of a vmdesc, and the split of a vma

The slots of the directory point to the descriptors of the groups.  A group is made at the
first touch of one of its subblocks, a copy-on-write fault replaces a whole group by a copy,
and the operations on blocks work on the descriptors that the slots point to.  A vma split
populates the group of the subblock that holds the split address, walks the blocks of the new
vma, and cuts the one that holds the address.

Addresses are page numbers.  Looking up a block and locking it is one step of the walk.

## Main definitions

* `Slot`, `Directory` — a pointer to a descriptor, and the directory with its groups.
* `Directory.newGpadesc`, `Directory.getNextExistHead` — populating and walking the directory.
* `Directory.splitVmdesc` — the split of a vma.
* `DirEvent`, `Directory.step` — first touches, operations on blocks, copies and splits.
-/

namespace Emp

/-- The descriptor that a slot points to. -/
structure Slot where
  group : ℕ
  member : ℕ
  deriving DecidableEq, Repr

/-- The pages of a vma. -/
structure Vma where
  vmStart : ℕ
  vmEnd : ℕ

namespace Backing

variable (m : Backing)

/-- `GPN_OFFSET_TO_HVA`. -/
def gpnOffsetToHva (idx : ℕ) : ℕ := m.vmBase + idx * 2 ^ m.sbOrder

/-- The index of the subblock that holds a page. -/
def indexOf (addr : ℕ) : ℕ := (addr - m.vmBase) / 2 ^ m.sbOrder

/-- The index behind the subblocks of the pages below `addr`. -/
def indexEnd (addr : ℕ) : ℕ := (addr - m.vmBase + 2 ^ m.sbOrder - 1) / 2 ^ m.sbOrder

/-- `____gpa_to_hva_len_off`: the address of a subblock, how many of its pages the vma sees,
and the first of them. -/
def gpaToHvaLenOff (vma : Vma) (partialMap : Bool) (idx : ℕ) : ℕ × ℕ × ℕ :=
  let hva := m.gpnOffsetToHva idx
  let hvaEnd := hva + 2 ^ m.sbOrder
  if partialMap then
    let off := if hva < vma.vmStart then vma.vmStart - hva else 0
    let len := 2 ^ m.sbOrder - off
    (hva, if vma.vmEnd < hvaEnd then len - (hvaEnd - vma.vmEnd) else len, off)
  else (hva, 2 ^ m.sbOrder, 0)

/-- The tests of `__split_set_max_block_order` for a boundary at the start of a subblock that
the vma sees as a whole. -/
def isExact (vma : Vma) (partialMap : Bool) (boundary addr : ℕ) : Bool :=
  let (hva, len, off) := m.gpaToHvaLenOff vma partialMap boundary
  addr == hva && len == 2 ^ m.sbOrder && off == 0

end Backing

/-- The directory of a vmdesc with the groups of descriptors it can point to; `cuts` records
where vmas that view it have been split. -/
structure Directory where
  backing : Backing
  gpaSize : ℕ
  group : ℕ → Option Group
  gpaDir : ℕ → Option Slot
  cuts : List ℕ

namespace Directory

variable (d : Directory)

/-- The descriptor at an index, with its group. -/
def gpaAt (idx : ℕ) : Option (Slot × Group) :=
  (d.gpaDir idx).bind fun s => (d.group s.group).map (s, ·)

def setGroup (id : ℕ) (g : Group) : Directory :=
  { d with group := Function.update d.group id (some g) }

/-! ### Populating the directory -/

/-- A new array is not one of those in use, and is aligned to its size. -/
def available (idx : ℕ) : Option (ℕ × ℕ) → Bool
  | none => true
  | some (id, base) => (d.group id).isNone &&
      (d.backing.groupAt idx).all fun so => base % (d.gpaSize * 2 ^ (so.2 - d.backing.sbOrder)) == 0

/-- `new_gpadesc`, with the array that the allocation returns, if it does; a slot that is
populated stays as it is (`set_gpa_dir_new`). -/
def newGpadesc (idx : ℕ) : Option (ℕ × ℕ) → Directory
  | none => d
  | some (id, base) =>
    if d.backing.gpaLen ≤ idx then d
    else
      match Group.newGpadesc d.backing idx d.gpaSize base with
      | none => d
      | some g =>
        if (d.gpaDir g.start).isSome then d
        else { d with
          group := Function.update d.group id (some g)
          gpaDir := fun i =>
            if g.start ≤ i ∧ i < g.start + g.len ∧ d.gpaDir i = none then some ⟨id, i - g.start⟩
            else d.gpaDir i }

/-- `get_gpadesc`. -/
def getGpadesc (idx : ℕ) (alloc : Option (ℕ × ℕ)) : Directory :=
  if (d.gpaDir idx).isSome then d else d.newGpadesc idx alloc

/-- `__handle_emp_cow_fault_reduced`: copies of the descriptors take the slots of the whole
group, which starts at `start` and was allocated with the order `order`. -/
def copyGroup (id base : ℕ) (g : Group) (start order : ℕ) : Directory :=
  { d with
    group := Function.update d.group id (some { g with base := base })
    gpaDir := fun i =>
      if start ≤ i ∧ i < start + 2 ^ (order - d.backing.sbOrder) then some ⟨id, i - start⟩
      else d.gpaDir i }

/-! ### Walking the directory -/

/-- The loop of `__get_next_exist_head_gpadesc`, from group to group. -/
def nextExistHead : ℕ → ℕ → Option ℕ
  | 0, _ => none
  | fuel + 1, index =>
    if (d.gpaDir index).isSome then some index
    else (d.backing.getGpadescRegion index).bind fun r =>
      nextExistHead fuel (index + 2 ^ (r.allocOrder - d.backing.sbOrder))

/-- `get_next_exist_head_gpadesc`. -/
def getNextExistHead (index : ℕ) : Option ℕ :=
  match d.gpaAt index with
  | some (s, g) => some (d.backing.empGetBlockHeadIndex index (g.gpa s.member).descOrder)
  | none => (d.backing.getGpadescRegion index).bind fun r =>
      d.nextExistHead (d.backing.gpaLen + 1)
        (d.backing.empGetBlockHeadIndex index (r.allocOrder - d.backing.sbOrder) +
          2 ^ (r.allocOrder - d.backing.sbOrder))

/-! ### Splitting a vma -/

/-- `__split_gpadesc` of the block at `h`, if it holds the boundary. -/
def splitGpadesc (prev : Vma) (addr boundary h : ℕ) (s : Slot) (g : Group) : Directory :=
  let cut := s.member + (boundary - h)
  if h ≤ boundary ∧ boundary < h + (g.gpa s.member).numSubblock then
    d.setGroup s.group (g.splitGpadesc s.member cut
      (d.backing.isExact prev (g.gpa cut).partialMap boundary addr))
  else d

/-- The loop of `__split_vmdesc`, as far as the orders go. -/
def splitWalk (prev : Vma) (addr boundary indexEnd : ℕ) : ℕ → ℕ → Directory → Directory
  | 0, _, d => d
  | fuel + 1, index, d =>
    if index < indexEnd then
      match (d.getNextExistHead index).bind fun h => (d.gpaAt h).map (h, ·) with
      | none => d
      | some (h, s, g) =>
        splitWalk prev addr boundary indexEnd fuel (h + (g.gpa s.member).numSubblock)
          (d.splitGpadesc prev addr boundary h s g)
    else d

/-- `__split_vmdesc`: the vma is split at `addr`, and `prev` keeps one of the halves. -/
def splitVmdesc (vma : Vma) (addr : ℕ) (newIsFront : Bool) (alloc : Option (ℕ × ℕ)) : Directory :=
  let new : Vma := if newIsFront then ⟨vma.vmStart, addr⟩ else ⟨addr, vma.vmEnd⟩
  let prev : Vma := if newIsFront then ⟨addr, vma.vmEnd⟩ else ⟨vma.vmStart, addr⟩
  let indexStart := d.backing.indexOf new.vmStart
  let indexEnd := d.backing.indexEnd new.vmEnd
  let boundary := if newIsFront then d.backing.indexOf prev.vmStart else indexStart
  let stop := if boundary = indexEnd then indexEnd + 1 else indexEnd
  let d' := splitWalk prev addr boundary stop stop indexStart (d.getGpadesc boundary alloc)
  { d' with cuts := addr :: d'.cuts }

end Directory

/-- The operations: a first touch, an operation on a block of a group (through any directory
that shares the group), a copy-on-write fault, and the split of a vma. -/
inductive DirEvent
  | touch (idx : ℕ) (alloc : Option (ℕ × ℕ))
  | els (id : ℕ) (e : ElsEvent)
  | cow (idx id base : ℕ)
  | split (vma : Vma) (addr : ℕ) (newIsFront : Bool) (alloc : Option (ℕ × ℕ))

namespace Directory

def step : Directory → DirEvent → Option Directory
  | d, .touch idx alloc => if d.available idx alloc then some (d.getGpadesc idx alloc) else none
  | d, .els id e => (d.group id).bind fun g => (g.step e).map (d.setGroup id)
  | d, .cow idx id base =>
      if d.available idx (some (id, base)) then
        (d.gpaAt idx).bind fun sg => (d.backing.groupAt idx).map fun so =>
          d.copyGroup id base sg.2 so.1 so.2
      else none
  | d, .split vma addr newIsFront alloc =>
      if d.backing.vmStart ≤ vma.vmStart ∧ vma.vmStart < addr ∧ addr < vma.vmEnd ∧
          vma.vmEnd ≤ d.backing.vmEnd ∧ d.available (d.backing.indexOf addr) alloc then
        some (d.splitVmdesc vma addr newIsFront alloc)
      else none

variable (d : Directory)

/-- The directory of a new mapping. -/
def Start : Prop :=
  d.backing.Valid ∧ 0 < d.gpaSize ∧ (∀ id, d.group id = none) ∧ (∀ i, d.gpaDir i = none) ∧ d.cuts = []

/-- A member of a block at an index of the directory. -/
def SameBlock (i j : ℕ) : Prop :=
  ∃ s t g, d.gpaAt i = some (s, g) ∧ d.gpaAt j = some (t, g) ∧ s.group = t.group ∧
    g.empGetBlockHead s.member = g.empGetBlockHead t.member

/-- No block has subblocks on both sides of `addr`, and a subblock that holds `addr` inside is
a block of its own, marked `GPA_PARTIAL_MAP`. -/
structure SplitSafe (addr : ℕ) : Prop where
  apart : ∀ i j, d.SameBlock i j → d.backing.gpnOffsetToHva i < addr →
    addr < d.backing.gpnOffsetToHva (j + 1) → i = j
  alone : ∀ s g, d.gpaAt (d.backing.indexOf addr) = some (s, g) →
    d.backing.gpnOffsetToHva (d.backing.indexOf addr) ≠ addr →
      (g.gpa s.member).blockOrder = (g.gpa s.member).sbOrder ∧ (g.gpa s.member).partialMap = true

end Directory

end Emp
