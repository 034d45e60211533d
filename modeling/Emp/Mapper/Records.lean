import Mathlib.Data.Int.Notation
import Mathlib.Data.List.Nodup
import Mathlib.Logic.Function.Basic
import Emp.Lib.Transition

/-!
# The mapping records of a local page

A local page records every vmr that maps it, with its pmd.  The first record is embedded in the
local page and names the owner of the page as well; it stays behind, without a pmd, when the last
mapping goes.  The other records are allocated and chained from the embedded one back to it.

## Main definitions

* `MappedPmd`, `MapperList` — a record, and the records of a local page.
* `MapperList.empLpInsertPmd`, `empLpPopPmd`, `empLpPromoteOwner`, `empLpSetOwner`,
  `empLpClearOwner`, `empLpLookupPmd` — the operations.
* `MapperOp`, `MapperList.call` — a call of one of them.
-/

namespace Emp

/-- `struct mapped_pmd`, without its link. -/
structure MappedPmd (V P : Type*) where
  vmr : Option V
  pmd : Option P

/-- The record is that of `v`. -/
def MappedPmd.isOf {V P : Type*} [DecidableEq V] (v : V) (r : MappedPmd V P) : Bool :=
  decide (r.vmr = some v)

/-- The records of a local page: the embedded one, the allocated ones that its link leads to before
it comes back (`none` is a null link), and the counter. -/
structure MapperList (V P : Type*) where
  pmds : MappedPmd V P
  next : Option (List (MappedPmd V P))
  numPmds : ℤ

/-- The operations; `alloc` tells whether a record can be allocated. -/
inductive MapperOp (V P : Type*)
  | insert (vmr : V) (pmd : P) (alloc : Bool)
  | pop (vmr : V)
  | promote (vmr : V)
  | setOwner (vmr : V)
  | clearOwner

/-- What an operation returns. -/
inductive MapperResult (P : Type*)
  | inserted (ok : Bool)
  | popped (pmd : Option P)
  | done

namespace MapperList

variable {V P : Type*}

/-- `INIT_MAPPED_PMD` with the owner that `emp_init_local_page` sets. -/
def init (owner : Option V) : MapperList V P := ⟨⟨owner, none⟩, none, 0⟩

/-- The records that `emp_lp_first_mapped_pmd` and `emp_lp_next_mapped_pmd` go through. -/
def records (s : MapperList V P) : List (MappedPmd V P) :=
  match s.next with
  | none => []
  | some l => s.pmds :: l

/-- `emp_lp_owner`. -/
def empLpOwner (s : MapperList V P) : Option V := s.pmds.vmr

/-- `emp_lp_count_pmd`. -/
def empLpCountPmd (s : MapperList V P) : ℤ := s.numPmds

/-- `emp_lp_set_owner`; it asserts that nothing is mapped. -/
def empLpSetOwner (v : V) (s : MapperList V P) : MapperList V P :=
  { s with pmds := { s.pmds with vmr := some v } }

/-- `emp_lp_clear_owner`; it asserts that nothing is mapped. -/
def empLpClearOwner (s : MapperList V P) : MapperList V P :=
  { s with pmds := { s.pmds with vmr := none } }

variable [DecidableEq V]

/-- `emp_lp_lookup_pmd`. -/
def empLpLookupPmd (v : V) (s : MapperList V P) : Option P :=
  (s.records.find? (MappedPmd.isOf v)).bind MappedPmd.pmd

/-- `emp_lp_lookup_vmr`. -/
def empLpLookupVmr (v : V) (s : MapperList V P) : Bool := s.records.any (MappedPmd.isOf v)

/-- `__emp_lp_insert_pmd`; a new record goes right behind the embedded one. -/
def empLpInsertPmd (v : V) (p : P) (alloc : Bool) (s : MapperList V P) : Bool × MapperList V P :=
  match s.next with
  | none => (true, ⟨⟨some v, some p⟩, some [], s.numPmds + 1⟩)
  | some l =>
      if (s.pmds :: l).any (MappedPmd.isOf v) then (true, s)
      else if alloc then
        (true, { s with next := some (⟨some v, some p⟩ :: l), numPmds := s.numPmds + 1 })
      else (false, s)

/-- `__emp_lp_pop_pmd`. -/
def empLpPopPmd (v : V) (s : MapperList V P) : Option P × MapperList V P :=
  match s.next with
  | none => (none, s)
  | some l =>
      if s.pmds.isOf v then
        match l with
        -- the next record moves into the embedded one
        | np :: l => (s.pmds.pmd, ⟨np, some l, s.numPmds - 1⟩)
        -- the owner stays
        | [] => (s.pmds.pmd, ⟨⟨s.pmds.vmr, none⟩, none, s.numPmds - 1⟩)
      else
        match l.find? (MappedPmd.isOf v) with
        | some p =>
            (p.pmd, { s with next := some (l.eraseP (MappedPmd.isOf v)), numPmds := s.numPmds - 1 })
        | none => (none, s)

/-- The search of `emp_lp_promote_owner`: the record of `v`, and the chain with the contents of `r`
in its place. -/
def swapRecord (v : V) (r : MappedPmd V P) :
    List (MappedPmd V P) → Option (MappedPmd V P × List (MappedPmd V P))
  | [] => none
  | p :: l =>
      if p.isOf v then some (p, r :: l)
      else (swapRecord v r l).map fun q => (q.1, p :: q.2)

/-- `emp_lp_promote_owner`; `none` is its `debug_BUG`, when `v` maps nothing. -/
def empLpPromoteOwner (v : V) (s : MapperList V P) : Option (MapperList V P) :=
  if s.pmds.isOf v then some s
  else s.next.bind fun l =>
    (swapRecord v s.pmds l).map fun q => { s with pmds := q.1, next := some q.2 }

/-- A call of an operation whose assertion holds. -/
def call (s : MapperList V P) : MapperOp V P → Option (MapperResult P × MapperList V P)
  | .insert v p alloc =>
      let r := s.empLpInsertPmd v p alloc
      some (.inserted r.1, r.2)
  | .pop v =>
      let r := s.empLpPopPmd v
      some (.popped r.1, r.2)
  | .promote v => (s.empLpPromoteOwner v).map fun t => (.done, t)
  | .setOwner v => if s.numPmds = 0 then some (.done, s.empLpSetOwner v) else none
  | .clearOwner => if s.numPmds = 0 then some (.done, s.empLpClearOwner) else none

def step (s : MapperList V P) (op : MapperOp V P) : Option (MapperList V P) :=
  (s.call op).map Prod.snd

end MapperList

end Emp
