import Emp.Els.Directory
import Emp.Lib.Tiling
import Emp.Lib.Transition

/-!
# The copy on write of a group that is split into blocks

A write to a block that is not its whole group replaces the group in the directory of the
process.  `__handle_emp_cow_fault_reduced` gives up the lock of the faulting block, locks all
blocks of the group from the first to the last, and looks again.  Meanwhile others may
reduce and stretch the blocks that it does not hold, share them by a fork or leave them, and
a fault of another thread of the process may replace the group.

Descriptors are given by their group and their place in it, and the slots of the directory by
their distance from the first slot of the group.  What others do under the lock of a block is
one step, and so is what the fault does once it holds all locks.

## Main definitions

* `CowFault` — the directory, the groups and the fault.
* `CowFaultEvent`, `CowFault.step` — the steps.
* `CowFault.handleReduced` — what follows when all blocks are locked.
-/

namespace Emp

/-- Where the fault comes from; both go on to release the lock of a block. -/
inductive CowCaller
  | hva
  | mmu
  deriving DecidableEq, Repr

/-- The slots `dir` of the range of a group, the groups with the orders of their members, and a
fault of a block of the group `old`.  `isCow` is what `check_cow_fault_gpa` finds for a
descriptor, `lock` are the locks that the fault holds, and groups from `next` on do not exist
yet.  The head of the faulting block was at `headIdx`, the subblock that was written is at
`faultIdx`, and `idx` is where the fault locks next.

When the fault is over, `ret` is its result and `released` the lock that its caller releases;
`copied` are the descriptors that were copied to the new group, `touched` the groups whose
descriptors were accessed, and `stray` tells whether a lock was released that was not held. -/
structure CowFault where
  maxOrder : ℕ
  dir : ℕ → Slot
  order : Slot → ℕ
  isCow : Slot → Bool
  lock : Slot → Bool
  next : ℕ
  caller : CowCaller
  old : ℕ
  headIdx : ℕ
  faultIdx : ℕ
  idx : ℕ
  ret : Option ℤ
  released : Option Slot
  copied : ℕ → Option Slot
  touched : List ℕ
  stray : Bool

/-- Whether a group can be allocated, and at which blocks the duplication fails. -/
structure DupLuck where
  alloc : Bool
  fails : ℕ → Bool

inductive CowFaultEvent
  | lockNext
  | reduce (h : Slot) (order : ℕ)
  | stretch (h : Slot)
  | share (h : Slot) (isCow : Bool)
  | replace
  | finish (l : DupLuck)

namespace CowFault

variable (s : CowFault) (l : DupLuck)

/-- The number of slots of a group. -/
def len : ℕ := 2 ^ s.maxOrder

/-- `emp_get_block_head`. -/
def blockHead (d : Slot) : Slot := ⟨d.group, alignDown (s.order d) d.member⟩

/-- `num_subblock_in_block`. -/
def numSubblock (d : Slot) : ℕ := 2 ^ s.order d

def touch (d : Slot) : CowFault := { s with touched := d.group :: s.touched }

/-- `emp_unlock_block`. -/
def unlock (d : Slot) : CowFault :=
  { s with lock := Function.update s.lock d false, stray := s.stray || !s.lock d }

/-! ### The exits -/

/-- The loops that unlock the blocks from slot `idx` on, but for `skip`.  The first head is `h`,
the others are found by `find`. -/
def unlockLoop (find : ℕ → Slot) (skip : Option Slot) : ℕ → ℕ → Slot → CowFault → CowFault
  | 0, _, _, s => s
  | fuel + 1, idx, h, s =>
      if s.len ≤ idx then s
      else
        let s := s.touch h
        let s := if some h = skip then s else s.unlock h
        let idx := idx + s.numSubblock h
        unlockLoop find skip fuel idx (find idx) s

/-- The blocks are unlocked but for the one at `demand`: from the group that the fault remembers
for the first one, and from the directory for the others. -/
def unlockExcept (demand : Slot) : CowFault :=
  unlockLoop s.dir (some demand) s.len 0 ⟨s.old, 0⟩ s

/-- The loop of `dup_cow_gpadesc` over the blocks of the group that the fault remembers. -/
def dupLoop : ℕ → ℕ → CowFault → CowFault × Bool
  | 0, _, s => (s, true)
  | fuel + 1, idx, s =>
      if s.len ≤ idx then (s, true)
      else
        let s := s.touch ⟨s.old, idx⟩
        if l.fails idx then (s, false)
        else
          let n := s.numSubblock ⟨s.old, idx⟩
          dupLoop fuel (idx + n) { s with copied := fun i =>
            if idx ≤ i ∧ i < idx + n then some ⟨s.old, i⟩ else s.copied i }

/-- The new group takes the slots, the old blocks are unlocked, and the new descriptors but for
the one at `demandIdx`. -/
def changeGpaDir (demandIdx : ℕ) : CowFault :=
  let new := s.next
  let s := { s with
    next := new + 1
    dir := fun i => ⟨new, i⟩
    order := fun d => if d.group = new then s.order ⟨s.old, d.member⟩ else s.order d
    isCow := fun d => if d.group = new then false else s.isCow d }
  let s := unlockLoop (⟨s.old, ·⟩) none s.len 0 ⟨s.old, 0⟩ s
  { s with lock := fun d =>
      if d.group = new then decide (d.member = demandIdx) else s.lock d }

/-- The end of `__handle_emp_cow_fault_reduced`, from the update of the demand head on. -/
def handleReduced : CowFault :=
  let demandIdx := (s.blockHead (s.dir s.headIdx)).member
  let demand := s.dir demandIdx
  if !s.isCow demand then { s.unlockExcept demand with ret := some 0 }
  else if !l.alloc then { s.unlockExcept demand with ret := some (-1) }
  else
    match dupLoop l s.len 0 s with
    | (s, false) => { s.unlockExcept demand with ret := some (-1) }
    | (s, true) => { s.changeGpaDir demandIdx with ret := some 1 }

/-- What the caller releases.  `handle_emp_cow_fault_mmu` looks up the head again unless there was
an error; `handle_emp_cow_fault_hva` and its caller always do. -/
def release : CowFault :=
  let head := s.blockHead (s.dir s.faultIdx)
  { s with released :=
      match s.caller, s.ret with
      | .mmu, some (-1) => some ⟨s.old, s.headIdx⟩
      | _, _ => some head }

/-! ### The steps -/

/-- Members `lo` to `hi` of group `g` get order `o`. -/
def setOrder (g lo hi o : ℕ) : CowFault :=
  { s with order := fun d =>
      if d.group = g ∧ lo ≤ d.member ∧ d.member < hi then o else s.order d }

/-- `h` is the head of a block of some group, and the fault does not hold it. -/
def OthersCan (h : Slot) : Prop :=
  h.group < s.next ∧ h.member < s.len ∧ s.blockHead h = h ∧ s.lock h = false

instance (h : Slot) : Decidable (s.OthersCan h) :=
  inferInstanceAs (Decidable (_ ∧ _ ∧ _ ∧ _))

def step (s : CowFault) : CowFaultEvent → Option CowFault
  | .lockNext =>
      if s.ret = none ∧ s.idx < s.len then
        let h := s.blockHead (s.dir s.idx)
        some { s with lock := Function.update s.lock h true, idx := s.idx + s.numSubblock h }
      else none
  | .reduce h o =>
      if s.ret = none ∧ s.OthersCan h ∧ o < s.order h then
        some (s.setOrder h.group h.member (h.member + s.numSubblock h) o)
      else none
  | .stretch h =>
      let o := s.order h
      let lo := alignDown (o + 1) h.member
      if s.ret = none ∧ o < s.maxOrder ∧ s.OthersCan ⟨h.group, lo⟩ ∧
          s.OthersCan ⟨h.group, lo + 2 ^ o⟩ ∧ s.order ⟨h.group, lo⟩ = o ∧
          s.order ⟨h.group, lo + 2 ^ o⟩ = o then
        some (s.setOrder h.group lo (lo + 2 ^ (o + 1)) (o + 1))
      else none
  | .share h b =>
      if s.ret = none ∧ s.OthersCan h then
        some { s with isCow := fun d => if s.blockHead d = h then b else s.isCow d }
      else none
  | .replace =>
      -- the other fault holds the locks of all blocks of the group
      if s.ret = none ∧ ∀ i < s.len, s.lock (s.blockHead (s.dir i)) = false then
        let g := (s.dir 0).group
        some { s with
          next := s.next + 1
          dir := fun i => ⟨s.next, i⟩
          order := fun d => if d.group = s.next then s.order ⟨g, d.member⟩ else s.order d
          isCow := fun d => if d.group = s.next then false else s.isCow d }
      else none
  | .finish l =>
      if s.ret = none ∧ s.len ≤ s.idx then some (s.handleReduced l).release else none

/-- The faulting block, a part of its group, has just been unlocked. -/
structure Start (s : CowFault) : Prop where
  dir : ∀ i, s.dir i = ⟨s.old, i⟩
  old_lt : s.old < s.next
  tiled : ∀ g < s.next, Tiled 0 s.len fun m => s.order ⟨g, m⟩
  lock : ∀ d, s.lock d = false
  faultIdx_lt : s.faultIdx < s.len
  head : s.blockHead (s.dir s.faultIdx) = s.dir s.headIdx
  part : s.order (s.dir s.headIdx) < s.maxOrder
  idx : s.idx = 0
  ret : s.ret = none
  touched : s.touched = []
  stray : s.stray = false

end CowFault

end Emp
