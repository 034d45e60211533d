import Emp.Els.Region

/-!
# Descriptor groups and elastic blocks

The subblocks of a region are described by groups of descriptors, allocated as one aligned
array.  A group starts as one block; a block is stretched over its buddy, halved, broken up
into subblocks, or cut at the boundary of a vma split.  The head of a block is found from the
address of a member, which is aligned to the size of the block.

Whatever else decides about a stretch or a reduction (flags, states and locks) is part of the
operation.

## Main definitions

* `GpaDesc`, `Group` — a descriptor with its orders, and an allocated group.
* `Group.elsStretchRep`, `Group.elsReduce`, `Group.elsTryreduceComplete`,
  `Group.splitGpadesc` — the operations on a block.
* `ElsEvent`, `Group.step` — the operations as steps.
-/

namespace Emp

/-- The orders of a descriptor, and its `GPA_PARTIAL_MAP`. -/
structure GpaDesc where
  sbOrder : ℕ
  blockOrder : ℕ
  maxBlockOrder : ℕ
  descOrder : ℕ
  partialMap : Bool
  deriving DecidableEq, Repr

namespace GpaDesc

variable (g : GpaDesc) (order : ℕ)

/-- `set_gpa_block_order`. -/
def setBlockOrder : GpaDesc := { g with blockOrder := order, descOrder := order - g.sbOrder }

/-- `inc_gpa_block_order`. -/
def incBlockOrder : GpaDesc := g.setBlockOrder (g.blockOrder + 1)

/-- `set_gpa_max_block_order`. -/
def setMaxBlockOrder : GpaDesc := { g with maxBlockOrder := order }

/-- `num_subblock_in_block`. -/
def numSubblock : ℕ := 2 ^ (g.blockOrder - g.sbOrder)

/-- `emp_init_gpa` and `__set_gpadesc`, for a descriptor of a region. -/
def init (m : Backing) (r : GpadescRegion) : GpaDesc :=
  (((GpaDesc.mk m.sbOrder 0 0 0 r.partialMap).setBlockOrder blockMaxOrder).setBlockOrder
    r.allocOrder).setMaxBlockOrder r.allocOrder

end GpaDesc

/-- A group of descriptors: where its array lies, with `gpaSize` the size of a descriptor, which
directory index its first descriptor has, the order it was allocated with, and the descriptors. -/
structure Group where
  backing : Backing
  gpaSize : ℕ
  base : ℕ
  start : ℕ
  allocOrder : ℕ
  gpa : ℕ → GpaDesc

namespace Group

variable (g : Group) (k : ℕ)

/-- The number of descriptors. -/
def len : ℕ := 2 ^ (g.allocOrder - g.backing.sbOrder)

/-- The address of a descriptor. -/
def ptr : ℕ := g.base + k * g.gpaSize

/-- The descriptor at an address. -/
def member (addr : ℕ) : ℕ := (addr - g.base) / g.gpaSize

/-- `_emp_get_block_head`. -/
def headAt (addr order : ℕ) : ℕ := addr - addr % (g.gpaSize * 2 ^ order)

/-- `emp_get_block_head`. -/
def empGetBlockHead : ℕ := g.headAt (g.ptr k) (g.gpa k).descOrder

/-- The slots of the directory that hold the group. -/
def dir (index : ℕ) : Option ℕ :=
  if g.start ≤ index ∧ index < g.start + g.len then some (g.ptr (index - g.start)) else none

/-- `emp_get_block_head_index`. -/
def empGetBlockHeadIndex (index : ℕ) : ℕ :=
  if (g.gpa (index - g.start)).descOrder = 0 then index
  else g.backing.empGetBlockHeadIndex index (g.gpa (index - g.start)).descOrder

/-- `new_gpadesc`, with the address that the cache of the group's size returns. -/
def newGpadesc (m : Backing) (idx gpaSize base : ℕ) : Option Group :=
  (m.getGpadescRegion idx).map fun r =>
    ⟨m, gpaSize, base, m.empGetBlockHeadIndex idx (r.allocOrder - m.sbOrder), r.allocOrder,
      fun _ => GpaDesc.init m r⟩

/-- Update the descriptors from `lo` to `lo + n`. -/
def update (lo n : ℕ) (f : GpaDesc → GpaDesc) : Group :=
  { g with gpa := fun i => if lo ≤ i ∧ i < lo + n then f (g.gpa i) else g.gpa i }

/-! ### Stretching -/

/-- `els_get_super_head`. -/
def elsGetSuperHead : Option ℕ :=
  if (g.gpa k).maxBlockOrder ≤ (g.gpa k).blockOrder then none
  else some (g.member (g.headAt (g.ptr k) ((g.gpa k).descOrder + 1)))

/-- `_els_is_stretchable`: the buddy of the head `k` under the super head `s`; `ready` is the
outcome of the tests of states, flags and locks. -/
def elsIsStretchable (s : ℕ) (ready : Bool) : Option ℕ :=
  let maxOrder := if (g.gpa k).maxBlockOrder < (g.gpa s).maxBlockOrder then (g.gpa k).maxBlockOrder
    else (g.gpa s).maxBlockOrder
  if maxOrder ≤ (g.gpa s).blockOrder ∨ maxOrder ≤ (g.gpa k).blockOrder then none
  else
    let buddy := if s = k then s + (g.gpa s).numSubblock else s
    if (g.gpa buddy).maxBlockOrder ≤ (g.gpa buddy).blockOrder then none
    else if (g.gpa k).blockOrder ≠ (g.gpa buddy).blockOrder ∨ ready = false then none
    else some buddy

/-- `__els_stretch`. -/
def elsStretch (s : ℕ) : Group :=
  g.update s (2 ^ ((g.gpa s).blockOrder + 1 - (g.gpa s).sbOrder)) GpaDesc.incBlockOrder

/-- The loop of `els_stretch_rep`, one level for each of `ready`. -/
def elsStretchRep (g : Group) (k : ℕ) : List Bool → Group
  | [] => g
  | ready :: rest =>
    match g.elsGetSuperHead k with
    | none => g
    | some s =>
      match g.elsIsStretchable k s ready with
      | none => g
      | some _ => (g.elsStretch s).elsStretchRep s rest

/-! ### Reducing -/

/-- `els_reduce`; `locked` is the outcome of the try for the buddy's lock. -/
def elsReduce (s : ℕ) (locked : Bool) : Group :=
  if locked then
    g.update s (g.gpa s).numSubblock (·.setBlockOrder ((g.gpa s).blockOrder - 1))
  else g

/-- `els_tryreduce_complete`. -/
def elsTryreduceComplete (s : ℕ) (locked : Bool) : Group :=
  if locked then g.update s (g.gpa s).numSubblock (·.setBlockOrder (g.gpa s).sbOrder) else g

/-! ### Splitting -/

/-- The inner loop of `____split_set_max_block_order`: the largest order, up to that of the
block, that fits `size` descriptors from `off` on. -/
def pieceOrder (off size : ℕ) : ℕ → ℕ
  | 0 => 0
  | d + 1 => if size < 2 ^ (d + 1) ∨ off % 2 ^ (d + 1) ≠ 0 then pieceOrder off size d else d + 1

/-- `____split_set_max_block_order` of `size` descriptors from `i` on, `off` behind the head of
a block of desc order `d`; every round takes at least one of them. -/
def splitTile (g : Group) (d : ℕ) : ℕ → ℕ → ℕ → ℕ → Group
  | 0, _, _, _ => g
  | fuel + 1, i, off, size =>
    if size = 0 then g
    else
      let p := pieceOrder off size d
      (g.update i (2 ^ p) (·.setMaxBlockOrder (g.backing.sbOrder + p))).splitTile d fuel
        (i + 2 ^ p) (off + 2 ^ p) (size - 2 ^ p)

/-- The loop that looks for the largest order for which the head `s` is aligned. -/
def alignedOrder (s : ℕ) : ℕ → ℕ
  | 0 => 0
  | d + 1 => if g.headAt (g.ptr s) (d + 1) = g.ptr s then d + 1 else alignedOrder s d

/-- `__split_set_max_block_order` when the boundary is the start of the block at `s`. -/
def splitAligned (s : ℕ) : Group :=
  let maxOrder := g.backing.sbOrder + g.alignedOrder s ((g.gpa s).maxBlockOrder - g.backing.sbOrder)
  if maxOrder ≠ (g.gpa s).maxBlockOrder then
    g.update s (g.gpa s).numSubblock (·.setMaxBlockOrder maxOrder)
  else g

/-- `__split_set_max_block_order` when the block at `s` is cut at `boundary`; `exact` tells
whether the boundary is the start of a whole subblock. -/
def splitCut (s boundary : ℕ) (exact : Bool) : Group :=
  let d := (g.gpa s).blockOrder - g.backing.sbOrder
  let stop := s + (g.gpa s).numSubblock
  let before := g.splitTile d (boundary - s) s 0 (boundary - s)
  let next := if exact then boundary else boundary + 1
  let cut := if exact then before
    else before.update boundary 1 fun h =>
      { h.setMaxBlockOrder g.backing.sbOrder with partialMap := true }
  cut.splitTile d (stop - next) next (next - s) (stop - next)

/-- The reduction of `__split_gpadesc`: no member stays above its ceiling. -/
def reduceToMax (s n : ℕ) : Group :=
  g.update s n fun h =>
    if h.maxBlockOrder < h.blockOrder then h.setBlockOrder h.maxBlockOrder else h

/-- `__split_gpadesc`. -/
def splitGpadesc (s boundary : ℕ) (exact : Bool) : Group :=
  if s = boundary ∧ exact then g.splitAligned s
  else (g.splitCut s boundary exact).reduceToMax s (g.gpa s).numSubblock

end Group

/-- The operations on a block, given by its head. -/
inductive ElsEvent
  | stretch (k : ℕ) (ready : List Bool)
  | reduce (s : ℕ) (locked : Bool)
  | tryreduceComplete (s : ℕ) (locked : Bool)
  | split (s boundary : ℕ) (exact : Bool)

namespace Group

/-- `k` is the head of a block. -/
def IsHead (g : Group) (k : ℕ) : Prop := k < g.len ∧ g.empGetBlockHead k = g.ptr k

instance (g : Group) (k : ℕ) : Decidable (g.IsHead k) :=
  inferInstanceAs (Decidable (k < g.len ∧ g.empGetBlockHead k = g.ptr k))

/-- One operation on a locked head; a block of one subblock is not reduced
(`els_need_reduce`), and a split cuts the block that holds the boundary. -/
def step : Group → ElsEvent → Option Group
  | g, .stretch k ready => if g.IsHead k then some (g.elsStretchRep k ready) else none
  | g, .reduce s locked =>
      if g.IsHead s ∧ (g.gpa s).sbOrder < (g.gpa s).blockOrder then
        some (g.elsReduce s locked)
      else none
  | g, .tryreduceComplete s locked =>
      if g.IsHead s ∧ (g.gpa s).sbOrder < (g.gpa s).blockOrder then
        some (g.elsTryreduceComplete s locked)
      else none
  | g, .split s boundary exact =>
      if g.IsHead s ∧ s ≤ boundary ∧ boundary < s + (g.gpa s).numSubblock then
        some (g.splitGpadesc s boundary exact)
      else none

/-- A group that `new_gpadesc` has just made, in an array aligned to its size. -/
def Start (g : Group) : Prop :=
  ∃ m idx gpaSize base, m.Valid ∧ idx < m.gpaLen ∧ 0 < gpaSize ∧
    newGpadesc m idx gpaSize base = some g ∧ gpaSize * g.len ∣ base

end Group

end Emp
