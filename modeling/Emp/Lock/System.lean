import Emp.Els.Heads

/-!
# Locking blocks

A block is locked at its head.  The head is derived from a descriptor before the lock is taken,
so whoever gets the lock looks again: `_emp_lock_block` at the slot of the directory and at the
head of the descriptor, `_emp_trylock_local_page` at the head only.  `emp_lock_range_pmd` locks the
blocks of the range of one pmd.

Other actors lock descriptors, change blocks, and replace the descriptors of a group by copies.
Whoever moves a descriptor to another head holds the locks of both heads; a copy-on-write fault
holds those of all heads of the group, and the copies are locked.  A change is one step.  The cut
of a vma is made up of first touches and of cuts of blocks.

## Main definitions

* `Directory.headOf` — `emp_get_block_head`.
* `LockCall`, `LockPc` — what a caller locks, and how far it is.
* `LockTask`, `LockSys` — what an actor does, and the actors with the directory and the locks.
* `LockSys.step` — a step of an actor.
* `LockSys.LockOk` — what the callers are promised.
-/

namespace Emp

/-- `emp_lock_block` and `emp_trylock_block` for an index, and `_emp_trylock_local_page` and
`_emp_trylock_work_request`, whose local page names the descriptor for good. -/
inductive LockCall
  | block (idx : ℕ) (wait : Bool)
  | localPage (work : Bool)
  deriving DecidableEq

/-- Where a caller is: at `relock`, at the lock of the head, at one of the two looks behind it, at
that of a work request, or about to release the lock and try again. -/
inductive LockPc
  | relock (gpa : Slot)
  | lock (gpa head : Slot)
  | checkSlot (gpa head : Slot)
  | checkHead (gpa head : Slot)
  | checkWork (gpa head : Slot)
  | unlock (gpa head : Slot)
  deriving DecidableEq

/-- The descriptor whose block is to be locked. -/
def LockPc.gpa : LockPc → Slot
  | .relock gpa => gpa
  | .lock gpa _ => gpa
  | .checkSlot gpa _ => gpa
  | .checkHead gpa _ => gpa
  | .checkWork gpa _ => gpa
  | .unlock gpa _ => gpa

/-- What an actor does.  `scan`, `range` and `undo` are in the loops of `emp_lock_range_pmd`, between
two locks, at the lock of a block, and at the release of blocks from `idx` on; `fast` is in front
of the lock of a block as large as the range. -/
inductive LockTask
  | other
  | call (c : LockCall) (pc : LockPc)
  | ret (c : LockCall) (gpa : Slot) (head : Option Slot)
  | fast (start : ℕ)
  | scan (start idx : ℕ)
  | range (start idx : ℕ) (fast : Bool) (pc : LockPc)
  | undo (start idx stop : ℕ)
  | locked (start : ℕ)
  | unlocked (start : ℕ)
  deriving DecidableEq

namespace Directory

variable (d : Directory)

/-- `emp_get_block_head`. -/
def headOf (s : Slot) : Slot :=
  match d.group s.group with
  | some g => ⟨s.group, g.member (g.empGetBlockHead s.member)⟩
  | none => s

/-- `num_subblock_in_block`. -/
def numSubblockOf (s : Slot) : ℕ :=
  match d.group s.group with
  | some g => (g.gpa s.member).numSubblock
  | none => 0

/-- `gpa_block_order`. -/
def blockOrderOf (s : Slot) : ℕ :=
  match d.group s.group with
  | some g => (g.gpa s.member).blockOrder
  | none => 0

/-- A descriptor of a group. -/
def IsDesc (s : Slot) : Prop := (d.group s.group).any fun g => decide (s.member < g.len)

instance (s : Slot) : Decidable (d.IsDesc s) := inferInstanceAs (Decidable (_ = true))

/-- The number of subblocks of a pmd. -/
def pmdLen : ℕ := 2 ^ (9 - d.backing.sbOrder)

end Directory

/-- The directory, the descriptors whose locks are set with the actor who has set them, and what
the actors do. -/
structure LockSys where
  dir : Directory
  locks : List (Slot × ℕ)
  task : ℕ → LockTask

/-- How a step of a caller ends. -/
inductive LockNext
  | go (pc : LockPc)
  | ret (head : Option Slot)

/-- The steps: a call with a descriptor, a call for the range of a pmd from a subblock on, the next
step of a call (`still` if the work request is still that of the local page), the release of a
range that is locked, and the end of a call; other actors lock and unlock a descriptor, and change
the directory. -/
inductive LockEvent
  | enter (t : ℕ) (c : LockCall) (gpa : Slot)
  | enterRange (t start : ℕ)
  | act (t : ℕ) (still : Bool)
  | unlockRange (t : ℕ)
  | leave (t : ℕ)
  | grab (t : ℕ) (p : Slot)
  | drop (t : ℕ) (p : Slot)
  | change (t : ℕ) (e : DirEvent)

namespace LockSys

variable (s : LockSys) (t : ℕ)

/-- Who holds the lock of a descriptor. -/
def owner (p : Slot) : Option ℕ := (s.locks.find? fun l => l.1 = p).map Prod.snd

/-- The lock of a descriptor is set. -/
def take (p : Slot) : LockSys := { s with locks := (p, t) :: s.locks }

/-- `____emp_gpa_unlock`. -/
def release (p : Slot) : LockSys := { s with locks := s.locks.filter fun l => l.1 ≠ p }

def setTask (k : LockTask) : LockSys := { s with task := Function.update s.task t k }

/-- One step of the locking of a block. -/
def lockStep (c : LockCall) (still : Bool) : LockPc → Option (LockSys × LockNext)
  | .relock gpa => some (s, .go (.lock gpa (s.dir.headOf gpa)))
  | .lock gpa head =>
    if s.owner head = none then
      some (s.take t head, .go (match c with
        | .block .. => .checkSlot gpa head
        | .localPage _ => .checkHead gpa head))
    else
      match c with
      | .block _ true => some (s, .go (.lock gpa head))
      | _ => some (s, .ret none)
  | .checkSlot gpa head =>
    match c with
    | .block idx _ =>
      (s.dir.gpaDir idx).map fun cur =>
        if cur = gpa then (s, .go (.checkHead gpa head)) else (s, .go (.unlock cur head))
    | .localPage _ => none
  | .checkHead gpa head =>
    if head = s.dir.headOf gpa then
      some (s, match c with
        | .localPage true => .go (.checkWork gpa head)
        | _ => .ret (some head))
    else some (s, .go (.unlock gpa head))
  | .checkWork _ head =>
    if still then some (s, .ret (some head)) else some (s.release head, .ret none)
  | .unlock gpa head => some (s.release head, .go (.relock gpa))

/-- `emp_lock_range_pmd` for the range from the subblock `start` on. -/
def rangeEntry (start : ℕ) : LockTask :=
  match s.dir.gpaDir start with
  | none => .unlocked start
  | some gpa => if s.dir.blockOrderOf gpa = 9 then .fast start else .scan start start

/-- Behind the lock of a block of a range. -/
def rangeNext (start idx : ℕ) (fast : Bool) : LockNext → LockTask
  | .go pc => .range start idx fast pc
  | .ret none => if fast then .unlocked start else .undo start start idx
  | .ret (some head) =>
    if fast then .locked start else .scan start (idx + s.dir.numSubblockOf head)

/-- The next step of an actor in a call.  `get_gpadesc` finds a slot that nobody could populate
empty. -/
def act (still : Bool) : LockTask → Option LockSys
  | .call c pc =>
    (s.lockStep t c still pc).map fun r => r.1.setTask t (match r.2 with
      | .go pc' => .call c pc'
      | .ret head => .ret c pc.gpa head)
  | .fast start =>
    match s.dir.gpaDir start with
    | none => some (s.setTask t (.unlocked start))
    | some gpa => some (s.setTask t (.range start start true (.relock gpa)))
  | .scan start idx =>
    if idx < start + s.dir.pmdLen then
      match s.dir.gpaDir idx with
      | none => some (s.setTask t (.undo start start idx))
      | some gpa => some (s.setTask t (.range start idx false (.relock gpa)))
    else some (s.setTask t (.locked start))
  | .range start idx fast pc =>
    (s.lockStep t (.block idx false) still pc).map fun r =>
      r.1.setTask t (s.rangeNext start idx fast r.2)
  | .undo start idx stop =>
    if idx < stop then
      (s.dir.gpaDir idx).map fun head =>
        (s.release head).setTask t (.undo start (idx + s.dir.numSubblockOf head) stop)
    else some (s.setTask t (.unlocked start))
  | _ => none

/-- Whether the actor holds the locks that the change needs. -/
def mayChange (d' : Directory) : DirEvent → Bool
  | .touch .. => true
  | .els id _ =>
    (s.dir.group id).any fun g => (List.range g.len).all fun k =>
      decide (s.dir.headOf ⟨id, k⟩ = d'.headOf ⟨id, k⟩ ∨
        s.owner (s.dir.headOf ⟨id, k⟩) = some t ∧ s.owner (d'.headOf ⟨id, k⟩) = some t)
  | .cow idx _ _ =>
    (s.dir.gpaAt idx).any fun sg => (List.range sg.2.len).all fun k =>
      decide (s.owner (s.dir.headOf ⟨sg.1.group, k⟩) = some t)
  | .split .. => false

/-- The locks that a change takes: the copies of a copy-on-write fault are locked. -/
def newLocks : DirEvent → List (Slot × ℕ)
  | .cow idx id _ => (s.dir.gpaAt idx).elim [] fun sg =>
      (List.range sg.2.len).map fun k => (⟨id, k⟩, t)
  | _ => []

/-- The actor holds no lock. -/
def Free : Prop := ∀ l ∈ s.locks, l.2 ≠ t

instance : Decidable (s.Free t) := inferInstanceAs (Decidable (∀ l ∈ s.locks, l.2 ≠ t))

def step (s : LockSys) : LockEvent → Option LockSys
  | .enter t c gpa =>
    if s.task t = .other ∧ s.Free t ∧ s.dir.IsDesc gpa then
      some (s.setTask t (.call c (.relock gpa)))
    else none
  | .enterRange t start =>
    if s.task t = .other ∧ s.Free t then some (s.setTask t (s.rangeEntry start)) else none
  | .act t still => s.act t still (s.task t)
  | .unlockRange t =>
    match s.task t with
    | .locked start => some (s.setTask t (.undo start start (start + s.dir.pmdLen)))
    | _ => none
  | .leave t =>
    match s.task t with
    | .ret .. | .locked _ | .unlocked _ => some (s.setTask t .other)
    | _ => none
  | .grab t p => if s.task t = .other ∧ s.owner p = none then some (s.take t p) else none
  | .drop t p => if s.task t = .other ∧ s.owner p = some t then some (s.release p) else none
  | .change t e =>
    if s.task t = .other then
      (s.dir.step e).bind fun d' =>
        if s.mayChange t d' e then some { s with dir := d', locks := s.newLocks t e ++ s.locks }
        else none
    else none

/-- Any directory, with no lock set. -/
def Start : Prop :=
  Transition.Reach Directory.Start Directory.step s.dir ∧ s.locks = [] ∧ ∀ t, s.task t = .other

/-- The actor holds the locks of these descriptors and no others. -/
def Holds (l : Slot → Prop) : Prop := ∀ p, s.owner p = some t ↔ l p

/-- What a caller is promised when a call returns.  The descriptor in the slot of the index, or the
one of the local page, has the locked one as its head; a range is populated, and the heads of its
subblocks are locked. -/
def Promised : LockTask → Prop
  | .ret c gpa (some head) =>
    (match c with
      | .block idx _ => s.dir.gpaDir idx = some gpa
      | .localPage _ => True) ∧ s.dir.headOf gpa = head ∧ s.Holds t (· = head)
  | .ret _ _ none => s.Holds t fun _ => False
  | .locked start =>
    (∀ i, start ≤ i → i < start + s.dir.pmdLen → (s.dir.gpaDir i).isSome) ∧
      s.Holds t fun p => ∃ i gpa, start ≤ i ∧ i < start + s.dir.pmdLen ∧
        s.dir.gpaDir i = some gpa ∧ s.dir.headOf gpa = p
  | .unlocked _ => s.Holds t fun _ => False
  | _ => True

def LockOk : Prop := ∀ t, s.Promised t (s.task t)

/-- The first block of a range that is locked starts with the range, and is as large as the range
still when it was before the lock. -/
def Whole (s : LockSys) : LockEvent → Prop
  | .act t _ =>
    match s.task t with
    | .range start idx fast (.checkHead gpa head) =>
      s.dir.headOf gpa = head → idx = start →
        gpa = head ∧ (fast → s.dir.numSubblockOf gpa = s.dir.pmdLen)
    | _ => True
  | _ => True

end LockSys

end Emp
