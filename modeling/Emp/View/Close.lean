import Emp.Els.Directory
import Emp.View.Runs

/-!
# The close of a view

The close of a vmr walks the groups that its view meets, region by region.  While other vmrs
view the vmdesc, a group is released only if its slots lie in what `find_uncovered` has found to
be the one uncovered range of the view, rounded inward to whole subblocks, or, if there is no
such range, if no surviving view meets it.  The last close releases all.

Addresses are page numbers.  Closes of one vmdesc exclude each other (`is_closing`).

## Main definitions

* `ViewList.findUncovered`, `ViewList.isCovered` — the two questions to the view list.
* `VmdescDir` — a vmdesc with its directory and its vmrs; `made` and `removed` count how often
  each slot has been populated and released.
* `VmdescDir.closeAndFreeGpas` — the close of a vmr.
* `VmdescEvent`, `VmdescDir.step` — the life of a vmdesc.
-/

namespace Emp

namespace ViewList

/-- The loop of `emp_vmdesc_view_find_uncovered`: the range of `[start, finish)` that no view
covers, unless a view lies inside it. -/
def uncoveredFrom : List View → ℕ → ℕ → Option (ℕ × ℕ)
  | [], start, finish => some (start, finish)
  | v :: vs, start, finish =>
    if v.count = 0 ∨ v.finish ≤ start then uncoveredFrom vs start finish
    else if finish ≤ v.start then some (start, finish)
    else if v.start ≤ start ∧ finish ≤ v.finish then some (0, 0)
    else if start < v.start ∧ v.finish < finish then none
    else if v.start ≤ start then uncoveredFrom vs v.finish finish
    else some (start, v.start)

/-- The loop of `emp_vmdesc_view_is_covered`. -/
def coveredFrom : List View → ℕ → ℕ → Bool
  | [], _, _ => false
  | v :: vs, start, finish =>
    if v.count = 0 then coveredFrom vs start finish
    else if finish ≤ v.start then false
    else if start < v.finish then true
    else coveredFrom vs start finish

/-- `emp_vmdesc_view_find_uncovered`. -/
def findUncovered (l : ViewList) : ℕ → ℕ → Option (ℕ × ℕ) := uncoveredFrom (l.head :: l.next)

/-- `emp_vmdesc_view_is_covered`. -/
def isCovered (l : ViewList) : ℕ → ℕ → Bool := coveredFrom (l.head :: l.next)

end ViewList

/-- A vmdesc with its directory and the vmrs that view it. -/
structure VmdescDir where
  dir : Directory
  desc : Vmdesc
  vmrs : List Vmr
  made : ℕ → ℕ
  removed : ℕ → ℕ

namespace VmdescDir

variable (x : VmdescDir) (v : Vmr)

/-- The size of a subblock. -/
def sbSize : ℕ := 2 ^ x.dir.backing.sbOrder

/-- `remove_gpa_dir` of the slots of a group, in `__put_max_block`. -/
def removeGpaDir (lo n : ℕ) : VmdescDir :=
  { x with
    dir := { x.dir with gpaDir := fun i => if lo ≤ i ∧ i < lo + n then none else x.dir.gpaDir i }
    removed := fun i => if lo ≤ i ∧ i < lo + n then x.removed i + 1 else x.removed i }

/-- The loop of `free_gpa_dir_region` from `i` on. -/
def freeGpaDirLoop (release : ℕ → Bool) (step finish : ℕ) : ℕ → ℕ → VmdescDir → VmdescDir
  | 0, _, x => x
  | fuel + 1, i, x =>
    if i < finish then
      freeGpaDirLoop release step finish fuel (i + step)
        (if (x.dir.gpaDir i).isSome ∧ release i then x.removeGpaDir i step else x)
    else x

/-- `free_gpa_dir_region`: the walk of `[idxStart, idxEnd)` on the grid of the region. -/
def freeGpaDirRegion (release : ℕ → ℕ → Bool) (idxStart idxEnd : ℕ) (x : VmdescDir)
    (r : GpadescRegion) : VmdescDir :=
  let step := 2 ^ (r.allocOrder - x.dir.backing.sbOrder)
  if idxEnd ≤ r.start ∨ r.finish ≤ idxStart then x
  else
    let start := if r.start < idxStart then r.start + alignDown (r.allocOrder - x.dir.backing.sbOrder)
      (idxStart - r.start) else r.start
    let finish := if idxEnd < r.finish then r.start + alignDown (r.allocOrder - x.dir.backing.sbOrder)
      (idxEnd - r.start + step - 1) else r.finish
    x.freeGpaDirLoop (release step) step finish (finish - start) start

/-- Which groups `close_and_free_gpas` releases while other vmrs stay. -/
def releases (step i : ℕ) : Bool :=
  match x.desc.views.findUncovered (x.desc.viewStart v) (x.desc.viewEnd v) with
  | some (start, finish) =>
    if start < finish then
      (start + x.sbSize - 1) / x.sbSize ≤ i && i + step ≤ finish / x.sbSize
    else false
  | none => !x.desc.views.isCovered (i * x.sbSize) ((i + step) * x.sbSize)

/-- `close_and_free_gpas`. -/
def closeAndFreeGpas : VmdescDir :=
  let y := { x with desc := (x.desc.delView v).put, vmrs := x.vmrs.erase v }
  if 0 < y.desc.refcount then
    y.dir.backing.setGpadescRegions.foldl
      (freeGpaDirRegion (y.releases v) (y.desc.viewStart v / y.sbSize)
        ((y.desc.viewEnd v + y.sbSize - 1) / y.sbSize)) y
  else
    y.dir.backing.setGpadescRegions.foldl
      (freeGpaDirRegion (fun _ _ => true) 0 y.dir.backing.gpaLen) y

/-- The directory after an operation that populates slots. -/
def populate (d : Directory) : VmdescDir :=
  { x with
    dir := d
    made := fun i =>
      if (x.dir.gpaDir i).isNone ∧ (d.gpaDir i).isSome then x.made i + 1 else x.made i }

end VmdescDir

/-- What happens to a vmdesc: an operation on its directory, a further vmr (a shared fork, or
the other half of a private one), a vma split, and a close. -/
inductive VmdescEvent
  | dir (e : DirEvent)
  | attach (v : Vmr) (firstOrShared : Bool)
  | split (v : Vmr) (addr : ℕ) (newIsFront : Bool) (alloc : Option (ℕ × ℕ))
  | close (v : Vmr)

namespace VmdescDir

/-- A vmr views a part of the backing. -/
def Inside (m : Backing) (v : Vmr) : Prop :=
  m.vmStart ≤ v.vmStart ∧ v.vmStart < v.vmEnd ∧ v.vmEnd ≤ m.vmEnd

instance (m : Backing) (v : Vmr) : Decidable (Inside m v) :=
  inferInstanceAs (Decidable (m.vmStart ≤ v.vmStart ∧ v.vmStart < v.vmEnd ∧ v.vmEnd ≤ m.vmEnd))

/-- One operation; the entries that the view list asks for are allocated. -/
def step : VmdescDir → VmdescEvent → Option VmdescDir
  | _, .dir (.split ..) => none
  | x, .dir e => if x.vmrs = [] then none else (x.dir.step e).map x.populate
  | x, .attach v firstOrShared =>
      if x.vmrs ≠ [] ∧ Inside x.dir.backing v ∧
          (firstOrShared = true → ∃ w ∈ x.vmrs, x.desc.interval w = x.desc.interval v) then
        some { x with desc := x.desc.get.addView v firstOrShared true, vmrs := v :: x.vmrs }
      else none
  | x, .split v addr newIsFront alloc =>
      if v ∈ x.vmrs then
        (x.dir.step (.split ⟨v.vmStart, v.vmEnd⟩ addr newIsFront alloc)).map fun d =>
          { x.populate d with
            desc := x.desc.get.splitView v addr ⟨true, true, true, true⟩
            vmrs := { v with vmEnd := addr } :: { v with vmStart := addr } :: x.vmrs.erase v }
      else none
  | x, .close v => if v ∈ x.vmrs then some (x.closeAndFreeGpas v) else none

/-- The pages of `n` subblocks from `i` on meet the view of `v`. -/
def Meets (x : VmdescDir) (i n : ℕ) (v : Vmr) : Prop :=
  x.desc.viewStart v < (i + n) * x.sbSize ∧ i * x.sbSize < x.desc.viewEnd v

end VmdescDir

end Emp
