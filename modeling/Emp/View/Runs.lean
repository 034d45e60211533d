import Emp.Lib.Transition
import Emp.View.Views
import Mathlib.Data.List.Perm.Basic
import Mathlib.Logic.Function.Basic

/-!
# Views over the life of a vmdesc

`mmap` makes a vmdesc with one view, a fork adds a view to the parent's vmdesc, to the one a
sibling vma of the child has already made, or to a new one; a vma split trades one view for
two, and a close takes one away.  Each of these keeps a lifetime reference and a view for
every vmr, as long as the entry of the view can be allocated when one is asked for.

Addresses are page numbers.  What the kernel decides (the addresses, the fresh pointers, the
vmas that `find_vma` returns, and which allocations succeed) is part of the event.

## Main definitions

* `Vmr`, `Vmdesc`, `ViewSys` — the mappings, the vmdescs, and all of them.
* `ViewEvent`, `ViewSys.step` — the operations.
* `ViewSys.Conserved` — every vmdesc accounts for exactly the vmrs attached to it.
* `ViewSys.EntryAllocated` — the step gets the view entries it asks for.
-/

namespace Emp

/-- `struct emp_vmr` of a vma: its mm, its pages, its vmdesc, and how it forks. -/
structure Vmr where
  mm : ℕ
  vmStart : ℕ
  vmEnd : ℕ
  descs : ℕ
  shared : Bool
  wipeOnFork : Bool
  deriving DecidableEq, Repr

/-- `struct emp_vmdesc`. -/
structure Vmdesc where
  vmBase : ℕ
  refcount : ℕ
  views : ViewList

/-- The vmrs that have a vmdesc, and the vmdescs by their pointers. -/
structure ViewSys where
  vmrs : List Vmr
  desc : ℕ → Option Vmdesc

/-- Which allocations of an operation succeed: the vmr with its mmu notifier, the vmdesc with
its directory, and the entries for the view list. -/
structure Memory where
  vmr : Bool
  vmdesc : Bool
  node : Bool
  node' : Bool

inductive ViewEvent
  | mmap (mm vmStart vmEnd base d : ℕ) (shared : Bool) (mem : Memory)
  | fork (v : Vmr) (mm d : ℕ) (pred childPred : Option Vmr) (mem : Memory)
  | setForkPolicy (v : Vmr) (wipe : Bool)
  | split (v : Vmr) (addr : ℕ) (newIsFront : Bool) (mem : Memory)
  | close (v : Vmr)

namespace Vmdesc

variable (d : Vmdesc) (v : Vmr)

/-- `vmr_view_start`. -/
def viewStart : ℕ := v.vmStart - d.vmBase

/-- `vmr_view_end`. -/
def viewEnd : ℕ := v.vmEnd - d.vmBase

/-- The interval of the vmdesc that a vmr views. -/
def interval : Interval := toLex (d.viewStart v, d.viewEnd v)

/-- `emp_vmdesc_view_add` of the view of `v`, by a caller that goes on if it fails. -/
def addView (firstOrShared alloc : Bool) : Vmdesc :=
  { d with views := (d.views.empVmdescViewAdd (d.viewStart v) (d.viewEnd v) firstOrShared
      alloc).getD d.views }

/-- `emp_vmdesc_view_del` of the view of `v`. -/
def delView : Vmdesc :=
  { d with views := d.views.empVmdescViewDel (d.viewStart v) (d.viewEnd v) }

/-- `emp_vmdesc_view_split` of the view of `v`, by a caller that goes on if it fails. -/
def splitView (addr : ℕ) (mem : Memory) : Vmdesc :=
  { d with views := (d.views.empVmdescViewSplit (d.viewStart v) (d.viewEnd v) (addr - d.vmBase)
      mem.node mem.node').getD d.views }

def get : Vmdesc := { d with refcount := d.refcount + 1 }

def put : Vmdesc := { d with refcount := d.refcount - 1 }

end Vmdesc

namespace ViewSys

variable (s : ViewSys)

/-- `v` becomes a further vmr of the vmdesc `i`. -/
def attach (i : ℕ) (v : Vmr) (firstOrShared alloc : Bool) : ViewSys :=
  { vmrs := { v with descs := i } :: s.vmrs
    desc := Function.update s.desc i ((s.desc i).map fun d => d.get.addView v firstOrShared alloc) }

/-- `v` is the first vmr of the new vmdesc `i`: `gpas_open` and `dup_vmdesc` pass `NULL` for
the flag that no entry is needed. -/
def newVmdesc (i base : ℕ) (v : Vmr) (alloc : Bool) : ViewSys :=
  { vmrs := { v with descs := i } :: s.vmrs
    desc := Function.update s.desc i
      (some ((Vmdesc.mk base 1 ViewList.empVmdescViewInit).addView v false alloc)) }

/-- `fork_find_sibling_vmdesc`, given what `find_vma` returns in front of the parent's and in
front of the child's vma. -/
def forkFindSiblingVmdesc (prev new : Vmr) (pred childPred : Option Vmr) : Option ℕ :=
  if prev.vmStart = 0 then none
  else pred.bind fun p =>
    if p.vmEnd = prev.vmStart ∧ p.descs = prev.descs then
      childPred.bind fun q => if q.vmEnd = new.vmStart then some q.descs else none
    else none

/-- `dup_vmdesc` of a fork that makes a new vmdesc. -/
def dupVmdesc (prev new : Vmr) (i : ℕ) (mem : Memory) : ViewSys :=
  (s.desc prev.descs).elim s fun d =>
    if mem.vmdesc then s.newVmdesc i d.vmBase new mem.node else s

/-- `__emp_vma_open` in a fork. -/
def forkVmr (prev : Vmr) (mm i : ℕ) (pred childPred : Option Vmr) (mem : Memory) : ViewSys :=
  let new := { prev with mm := mm }
  if mem.vmr = false then s
  else if prev.shared then s.attach prev.descs new true mem.node
  else if prev.wipeOnFork then s.dupVmdesc prev new i mem
  else match forkFindSiblingVmdesc prev new pred childPred with
    | some j => s.attach j new false mem.node
    | none => s.dupVmdesc prev new i mem

/-- `emp_vma_split` and `__emp_vma_split`: the new vmr takes the pages in front of `addr` or
those from it on. -/
def splitVmr (prev : Vmr) (addr : ℕ) (newIsFront : Bool) (mem : Memory) : ViewSys :=
  let front := { prev with vmEnd := addr }
  let back := { prev with vmStart := addr }
  { vmrs := (if newIsFront then [front, back] else [back, front]) ++ s.vmrs.erase prev
    desc := Function.update s.desc prev.descs
      ((s.desc prev.descs).map fun d => d.get.splitView prev addr mem) }

/-- The close of a vmr; the last one frees the vmdesc. -/
def closeVmr (v : Vmr) : ViewSys :=
  { vmrs := s.vmrs.erase v
    desc := Function.update s.desc v.descs
      ((s.desc v.descs).bind fun d =>
        if d.refcount = 1 then none else some (d.delView v).put) }

/-- One operation; `none` if the kernel cannot ask for it. -/
def step : ViewSys → ViewEvent → Option ViewSys
  | s, .mmap mm vmStart vmEnd base i shared mem =>
      if vmStart < vmEnd ∧ base ≤ vmStart ∧ (s.desc i).isNone then
        some (if mem.vmr && mem.vmdesc then
          s.newVmdesc i base ⟨mm, vmStart, vmEnd, i, shared, false⟩ mem.node else s)
      else none
  | s, .fork v mm i pred childPred mem =>
      if v ∈ s.vmrs ∧ (s.desc i).isNone ∧ (∀ p ∈ pred, p ∈ s.vmrs) ∧
          (∀ q ∈ childPred, q ∈ s.vmrs) then
        some (s.forkVmr v mm i pred childPred mem)
      else none
  | s, .setForkPolicy v wipe =>
      if v ∈ s.vmrs then
        some { s with vmrs := { v with wipeOnFork := wipe } :: s.vmrs.erase v }
      else none
  | s, .split v addr newIsFront mem =>
      if v ∈ s.vmrs ∧ v.vmStart < addr ∧ addr < v.vmEnd then
        some (if mem.vmr then s.splitVmr v addr newIsFront mem else s)
      else none
  | s, .close v => if v ∈ s.vmrs then some (s.closeVmr v) else none

/-- Nothing is mapped. -/
def Start (s : ViewSys) : Prop := s.vmrs = [] ∧ ∀ i, s.desc i = none

def blank : ViewSys := ⟨[], fun _ => none⟩

theorem start_blank : blank.Start := ⟨rfl, fun _ => rfl⟩

/-- The vmrs that use a vmdesc. -/
def attached (i : ℕ) : List Vmr := s.vmrs.filter (·.descs = i)

end ViewSys

/-- The vmdesc accounts for exactly the vmrs `vs`: its view list is in order, its counts sum
up to its refcount, which is the number of the vmrs, and they count the intervals of the vmrs. -/
structure Vmdesc.Accounts (d : Vmdesc) (vs : List Vmr) : Prop where
  wellFormed : d.views.WellFormed
  counts : (d.views.entries.map Prod.snd).sum = d.refcount
  refcount : d.refcount = vs.length
  intervals : d.views.units.Perm (vs.map d.interval)

namespace ViewSys

variable {s t : ViewSys} {i : ℕ} {v : Vmr}

/-- Every vmdesc accounts for exactly the vmrs attached to it. -/
def Conserved (s : ViewSys) : Prop := ∀ i d, s.desc i = some d → d.Accounts (s.attached i)

/-- The step gets the view entries it asks for. -/
def EntryAllocated (_ : ViewSys) : ViewEvent → Prop
  | .mmap _ _ _ _ _ _ mem => mem.vmr = true → mem.vmdesc = true → mem.node = true
  | .fork v mm _ pred childPred mem => mem.vmr = true → v.shared = false →
      (v.wipeOnFork = true ∨ forkFindSiblingVmdesc v { v with mm := mm } pred childPred = none →
        mem.vmdesc = true) → mem.node = true
  | .split _ _ _ mem => mem.vmr = true → mem.node = true ∧ mem.node' = true
  | _ => True

end ViewSys

/-! ### One vmdesc -/

namespace Vmdesc

variable {d : Vmdesc} {v : Vmr} {vs vs' : List Vmr}

/-- The counts add up by themselves. -/
theorem accounts_mk (hwf : d.views.WellFormed) (href : d.refcount = vs.length)
    (hunits : d.views.units.Perm (vs.map d.interval)) : d.Accounts vs := by
  refine ⟨hwf, ?_, href, hunits⟩
  rw [← Counted.length_units, href]
  simpa [ViewList.units] using hunits.length_eq

theorem Accounts.perm (h : d.Accounts vs) (hp : vs.Perm vs') : d.Accounts vs' :=
  ⟨h.wellFormed, h.counts, h.refcount.trans hp.length_eq, h.intervals.trans (hp.map _)⟩

/-- A view is added, with an entry allocated for it or one there already. -/
theorem accounts_addView {firstOrShared alloc : Bool} (h : d.Accounts vs)
    (hentry : firstOrShared = true ∧ d.interval v ∈ d.views.units ∨
      firstOrShared = false ∧ alloc = true) :
    (d.get.addView v firstOrShared alloc).Accounts (v :: vs) := by
  obtain ⟨l, hl, hwf, hentries⟩ : ∃ l, d.views.empVmdescViewAdd (d.viewStart v) (d.viewEnd v)
      firstOrShared alloc = some l ∧ l.WellFormed ∧
      l.entries = Counted.bump (d.interval v) d.views.entries := by
    rcases hentry with ⟨rfl, hmem⟩ | ⟨rfl, rfl⟩
    · exact ViewList.addUnderLock_spec h.wellFormed (.inr (.inr hmem))
    · exact ViewList.addUnderLock_spec h.wellFormed (.inl rfl)
  have hviews : (d.get.addView v firstOrShared alloc).views = l :=
    congrArg (Option.getD · d.views) hl
  refine accounts_mk (hviews ▸ hwf) ?_ ?_
  · exact congrArg (· + 1) h.refcount
  · rw [hviews, ViewList.units, hentries]
    exact (Counted.units_bump _ _).trans (h.intervals.cons _)

/-- The first view of a new vmdesc. -/
theorem accounts_new (base : ℕ) (v : Vmr) :
    ((Vmdesc.mk base 1 ViewList.empVmdescViewInit).addView v false true).Accounts [v] := by
  refine accounts_mk ⟨?_, fun _ => rfl⟩ rfl (List.Perm.refl _)
  exact Counted.wellFormed_nil.cons (fun _ he => by cases he) Nat.one_pos

/-- A vmr is closed and others stay. -/
theorem accounts_delView (h : d.Accounts (v :: vs)) : (d.delView v).put.Accounts vs := by
  have hmem : d.interval v ∈ d.views.units := h.intervals.mem_iff.mpr (List.mem_cons_self ..)
  obtain ⟨hwf, hentries⟩ := ViewList.empVmdescViewDel_spec h.wellFormed hmem
  refine accounts_mk hwf ?_ ?_
  · exact congrArg (· - 1) h.refcount
  · have hunits : (d.interval v ::
        (d.views.empVmdescViewDel (d.viewStart v) (d.viewEnd v)).units).Perm d.views.units := by
      rw [ViewList.units, hentries]
      exact Counted.units_drop h.wellFormed.counted hmem
    exact (hunits.trans h.intervals).cons_inv

/-- One vmr becomes two, whose views meet at the split address. -/
theorem accounts_splitView {addr : ℕ} {mem : Memory} (h : d.Accounts (v :: vs))
    (hmem : mem.node = true ∧ mem.node' = true) :
    (d.get.splitView v addr mem).Accounts
      ({ v with vmEnd := addr } :: { v with vmStart := addr } :: vs) := by
  have hview : d.interval v ∈ d.views.units := h.intervals.mem_iff.mpr (List.mem_cons_self ..)
  obtain ⟨l, hl, hwf, hunits⟩ : ∃ l, d.views.empVmdescViewSplit (d.viewStart v) (d.viewEnd v)
      (addr - d.vmBase) true true = some l ∧ l.WellFormed ∧ (d.interval v :: l.units).Perm
        (toLex (addr - d.vmBase, d.viewEnd v) :: toLex (d.viewStart v, addr - d.vmBase) ::
          d.views.units) :=
    ViewList.empVmdescViewSplit_spec h.wellFormed hview
  have hviews : (d.get.splitView v addr mem).views = l := by
    simp only [splitView, hmem.1, hmem.2]
    exact congrArg (Option.getD · d.views) hl
  refine accounts_mk (hviews ▸ hwf) ?_ ?_
  · exact congrArg (· + 1) h.refcount
  · rw [hviews]
    have hold : (d.interval v :: l.units).Perm (d.interval v ::
        toLex (addr - d.vmBase, d.viewEnd v) :: toLex (d.viewStart v, addr - d.vmBase) ::
          vs.map d.interval) := by
      have hsplit := hunits.trans ((h.intervals.cons _).cons _)
      have hmiddle : ([toLex (addr - d.vmBase, d.viewEnd v),
          toLex (d.viewStart v, addr - d.vmBase)] ++ d.interval v :: vs.map d.interval).Perm
          (d.interval v :: ([toLex (addr - d.vmBase, d.viewEnd v),
            toLex (d.viewStart v, addr - d.vmBase)] ++ vs.map d.interval)) := List.perm_middle
      exact hsplit.trans hmiddle
    exact hold.cons_inv.trans (List.Perm.swap ..)

end Vmdesc

/-! ### All of them -/

namespace ViewSys

variable {s t : ViewSys} {i : ℕ} {v : Vmr}

/-- The vmdesc of every vmr exists. -/
def Linked (s : ViewSys) : Prop := ∀ v ∈ s.vmrs, (s.desc v.descs).isSome

/-- The invariant. -/
structure Accounted (s : ViewSys) : Prop where
  linked : s.Linked
  conserved : s.Conserved

theorem attached_eq_nil (h : s.Linked) (hi : s.desc i = none) : s.attached i = [] := by
  rw [attached, List.filter_eq_nil_iff]
  intro v hv hvi
  have hsome := h v hv
  rw [of_decide_eq_true hvi, hi] at hsome
  cases hsome

/-- What is attached to the vmdesc of a vmr, the vmr first. -/
theorem attached_perm (hv : v ∈ s.vmrs) :
    (s.attached v.descs).Perm (v :: (s.vmrs.erase v).filter (·.descs = v.descs)) := by
  have hp := (List.perm_cons_erase hv).filter (fun w => decide (w.descs = v.descs))
  rwa [List.filter_cons_of_pos (by simp)] at hp

theorem attached_perm_of_ne (hv : v ∈ s.vmrs) (hi : v.descs ≠ i) :
    (s.attached i).Perm ((s.vmrs.erase v).filter (·.descs = i)) := by
  have hp := (List.perm_cons_erase hv).filter (fun w => decide (w.descs = i))
  rwa [List.filter_cons_of_neg (by simpa using hi)] at hp

/-- An operation on one vmdesc. -/
theorem conserved_update {od : Option Vmdesc} (h : s.Conserved)
    (hdesc : t.desc = Function.update s.desc i od)
    (hrest : ∀ j, j ≠ i → (s.attached j).Perm (t.attached j))
    (hi : ∀ d, od = some d → d.Accounts (t.attached i)) : t.Conserved := by
  intro j d hd
  rw [hdesc] at hd
  by_cases hj : j = i
  · rw [hj, Function.update_self] at hd
    exact hj ▸ hi d hd
  · rw [Function.update_of_ne hj] at hd
    exact (h j d hd).perm (hrest j hj)

/-- The vmdescs of all vmrs exist after an operation on one of them. -/
theorem linked_update {od : Option Vmdesc} (h : s.Linked)
    (hdesc : t.desc = Function.update s.desc i od)
    (hvmrs : ∀ w ∈ t.vmrs, w.descs = i ∧ od.isSome ∨ w.descs ≠ i ∧ ∃ u ∈ s.vmrs,
      u.descs = w.descs) : t.Linked := by
  intro w hw
  rw [hdesc]
  rcases hvmrs w hw with ⟨hi, hsome⟩ | ⟨hi, u, hu, hsame⟩
  · rwa [hi, Function.update_self]
  · rw [Function.update_of_ne hi, ← hsame]
    exact h u hu

theorem accounted_attach {firstOrShared alloc : Bool} {d : Vmdesc} (h : s.Accounted)
    (hd : s.desc i = some d) (hentry : firstOrShared = true ∧ d.interval v ∈ d.views.units ∨
      firstOrShared = false ∧ alloc = true) : (s.attach i v firstOrShared alloc).Accounted := by
  refine ⟨linked_update h.linked rfl fun w hw => ?_,
    conserved_update h.conserved rfl (fun j hj => ?_) fun d' hd' => ?_⟩
  · by_cases hi : w.descs = i
    · exact .inl ⟨hi, by rw [hd]; rfl⟩
    · rcases List.mem_cons.mp hw with rfl | hw
      · exact absurd rfl hi
      · exact .inr ⟨hi, w, hw, rfl⟩
  · rw [attached, attached, attach, List.filter_cons_of_neg (by simpa using Ne.symm hj)]
  · rw [hd] at hd'
    cases hd'
    rw [attached, attach, List.filter_cons_of_pos (by simp)]
    exact Vmdesc.accounts_addView (v := { v with descs := i }) (h.conserved i d hd) hentry

theorem accounted_newVmdesc {base : ℕ} (h : s.Accounted) (hi : s.desc i = none) :
    (s.newVmdesc i base v true).Accounted := by
  refine ⟨linked_update h.linked rfl fun w hw => ?_,
    conserved_update h.conserved rfl (fun j hj => ?_) fun d' hd' => ?_⟩
  · by_cases hwi : w.descs = i
    · exact .inl ⟨hwi, rfl⟩
    · rcases List.mem_cons.mp hw with rfl | hw
      · exact absurd rfl hwi
      · exact .inr ⟨hwi, w, hw, rfl⟩
  · rw [attached, attached, newVmdesc, List.filter_cons_of_neg (by simpa using Ne.symm hj)]
  · cases hd'
    have hnil : s.vmrs.filter (·.descs = i) = [] := attached_eq_nil h.linked hi
    rw [attached, newVmdesc, List.filter_cons_of_pos (by simp), hnil]
    exact Vmdesc.accounts_new base { v with descs := i }

/-- The vmdesc of a vmr, with that vmr first among the attached ones. -/
theorem accounts_of_mem (h : s.Accounted) (hv : v ∈ s.vmrs) : ∃ d, s.desc v.descs = some d ∧
    d.Accounts (v :: (s.vmrs.erase v).filter (·.descs = v.descs)) := by
  obtain ⟨d, hd⟩ := Option.isSome_iff_exists.mp (h.linked v hv)
  exact ⟨d, hd, (h.conserved _ d hd).perm (attached_perm hv)⟩

theorem accounted_splitVmr {addr : ℕ} {newIsFront : Bool} {mem : Memory} (h : s.Accounted)
    (hv : v ∈ s.vmrs) (hmem : mem.node = true ∧ mem.node' = true) :
    (s.splitVmr v addr newIsFront mem).Accounted := by
  obtain ⟨d, hd, hacc⟩ := accounts_of_mem h hv
  have hperm : (s.splitVmr v addr newIsFront mem).vmrs.Perm
      ({ v with vmEnd := addr } :: { v with vmStart := addr } :: s.vmrs.erase v) := by
    cases newIsFront
    · exact List.Perm.swap ..
    · exact List.Perm.refl _
  refine ⟨linked_update h.linked rfl fun w hw => ?_,
    conserved_update h.conserved rfl (fun j hj => ?_) fun d' hd' => ?_⟩
  · by_cases hi : w.descs = v.descs
    · exact .inl ⟨hi, by rw [hd]; rfl⟩
    · refine .inr ⟨hi, w, ?_, rfl⟩
      rcases List.mem_cons.mp (hperm.mem_iff.mp hw) with rfl | hw
      · exact absurd rfl hi
      · rcases List.mem_cons.mp hw with rfl | hw
        · exact absurd rfl hi
        · exact List.mem_of_mem_erase hw
  · refine (attached_perm_of_ne hv (Ne.symm hj)).trans (List.Perm.symm ?_)
    have hfilter := hperm.filter (fun w => decide (w.descs = j))
    rwa [List.filter_cons_of_neg (by simpa using Ne.symm hj),
      List.filter_cons_of_neg (by simpa using Ne.symm hj)] at hfilter
  · rw [hd] at hd'
    cases hd'
    have hfilter := hperm.filter (fun w => decide (w.descs = v.descs))
    rw [List.filter_cons_of_pos (by simp), List.filter_cons_of_pos (by simp)] at hfilter
    exact (Vmdesc.accounts_splitView hacc hmem).perm hfilter.symm

theorem accounted_closeVmr (h : s.Accounted) (hv : v ∈ s.vmrs) : (s.closeVmr v).Accounted := by
  obtain ⟨d, hd, hacc⟩ := accounts_of_mem h hv
  refine ⟨linked_update h.linked rfl fun w hw => ?_,
    conserved_update h.conserved rfl (fun j hj => ?_) fun d' hd' => ?_⟩
  · by_cases hi : w.descs = v.descs
    · refine .inl ⟨hi, ?_⟩
      have hmem : w ∈ (s.vmrs.erase v).filter (·.descs = v.descs) :=
        List.mem_filter.mpr ⟨hw, by simpa using hi⟩
      have hpos := List.length_pos_of_mem hmem
      have href := hacc.refcount
      rw [List.length_cons] at href
      rw [hd, Option.bind_some, if_neg (by omega)]
      rfl
    · exact .inr ⟨hi, w, List.mem_of_mem_erase hw, rfl⟩
  · exact attached_perm_of_ne hv (Ne.symm hj)
  · rw [hd, Option.bind_some] at hd'
    split_ifs at hd'
    cases hd'
    exact Vmdesc.accounts_delView hacc

theorem mem_of_sibling {prev new : Vmr} {pred childPred : Option Vmr} {j : ℕ}
    (h : forkFindSiblingVmdesc prev new pred childPred = some j) :
    ∃ q ∈ childPred, q.descs = j := by
  rw [forkFindSiblingVmdesc] at h
  split_ifs at h
  obtain ⟨p, -, hp⟩ := Option.bind_eq_some_iff.mp h
  split_ifs at hp
  obtain ⟨q, hq, hj⟩ := Option.bind_eq_some_iff.mp hp
  exact ⟨q, hq, (Transition.of_guard hj).2⟩

theorem accounted_forkVmr {mm : ℕ} {pred childPred : Option Vmr} {mem : Memory}
    (h : s.Accounted) (hv : v ∈ s.vmrs) (hi : s.desc i = none)
    (hchild : ∀ q ∈ childPred, q ∈ s.vmrs)
    (hok : s.EntryAllocated (.fork v mm i pred childPred mem)) :
    (s.forkVmr v mm i pred childPred mem).Accounted := by
  obtain ⟨d, hd, hacc⟩ := accounts_of_mem h hv
  have hfresh : (mem.vmdesc = true → mem.node = true) →
      (s.dupVmdesc v { v with mm := mm } i mem).Accounted := by
    intro hnode
    rw [dupVmdesc, hd, Option.elim_some]
    split_ifs with hdesc
    · rw [hnode hdesc]
      exact accounted_newVmdesc h hi
    · exact h
  simp only [forkVmr]
  split_ifs with hvmr hshared hwipe
  · exact h
  · -- the parent's interval is viewed already
    have hview : d.interval v ∈ d.views.units :=
      hacc.intervals.mem_iff.mpr (List.mem_cons_self ..)
    exact accounted_attach h hd (.inl ⟨rfl, hview⟩)
  · exact hfresh fun hdesc => hok (by simpa using hvmr) (by simpa using hshared) fun _ => hdesc
  · cases hsib : forkFindSiblingVmdesc v { v with mm := mm } pred childPred with
    | none =>
        exact hfresh fun hdesc => hok (by simpa using hvmr) (by simpa using hshared) fun _ => hdesc
    | some j =>
        obtain ⟨q, hq, rfl⟩ := mem_of_sibling hsib
        obtain ⟨dq, hdq⟩ := Option.isSome_iff_exists.mp (h.linked q (hchild q hq))
        refine accounted_attach h hdq (.inr ⟨rfl, ?_⟩)
        refine hok (by simpa using hvmr) (by simpa using hshared) fun hor => ?_
        rcases hor with hw | hn
        · exact absurd hw hwipe
        · rw [hsib] at hn
          cases hn

theorem accounted_setForkPolicy {wipe : Bool} (h : s.Accounted) (hv : v ∈ s.vmrs) :
    Accounted { s with vmrs := { v with wipeOnFork := wipe } :: s.vmrs.erase v } := by
  refine ⟨fun w hw => ?_, fun i d hd => ?_⟩
  · rcases List.mem_cons.mp hw with rfl | hw
    · exact h.linked v hv
    · exact h.linked w (List.mem_of_mem_erase hw)
  · have hacc := h.conserved i d hd
    by_cases hi : v.descs = i
    · subst hi
      have hacc' := hacc.perm (attached_perm hv)
      rw [attached, List.filter_cons_of_pos (by simp)]
      exact ⟨hacc'.wellFormed, hacc'.counts, hacc'.refcount, hacc'.intervals⟩
    · rw [attached, List.filter_cons_of_neg (by simpa using hi)]
      exact hacc.perm (attached_perm_of_ne hv hi)

theorem accounted_of_step {e : ViewEvent} (h : s.Accounted) (hok : s.EntryAllocated e)
    (hs : step s e = some t) : t.Accounted := by
  cases e with
  | mmap mm vmStart vmEnd base i shared mem =>
      obtain ⟨⟨-, -, hi⟩, rfl⟩ := Transition.of_guard hs
      split_ifs with hmem
      · rw [Bool.and_eq_true] at hmem
        rw [hok hmem.1 hmem.2]
        exact accounted_newVmdesc h (Option.isNone_iff_eq_none.mp hi)
      · exact h
  | fork v mm i pred childPred mem =>
      obtain ⟨⟨hv, hi, -, hchild⟩, rfl⟩ := Transition.of_guard hs
      exact accounted_forkVmr h hv (Option.isNone_iff_eq_none.mp hi) hchild hok
  | setForkPolicy v wipe =>
      obtain ⟨hv, rfl⟩ := Transition.of_guard hs
      exact accounted_setForkPolicy h hv
  | split v addr newIsFront mem =>
      obtain ⟨⟨hv, -⟩, rfl⟩ := Transition.of_guard hs
      split_ifs with hmem
      · exact accounted_splitVmr h hv (hok hmem)
      · exact h
  | close v =>
      obtain ⟨hv, rfl⟩ := Transition.of_guard hs
      exact accounted_closeVmr h hv

theorem accounted_of_start (h : s.Start) : s.Accounted := by
  refine ⟨fun v hv => ?_, fun i d hd => ?_⟩
  · rw [h.1] at hv
    cases hv
  · rw [h.2 i] at hd
    cases hd

/-- In every run in which no view entry that is asked for fails to be allocated, whatever
other allocation fails, every vmdesc accounts for exactly the vmrs attached to it. -/
theorem viewsConserved_of_reach (h : Transition.ReachWhen Start step EntryAllocated s) :
    s.Conserved := by
  have hacc : s.Accounted :=
    h.invariant (fun _ => accounted_of_start) fun _ _ _ ha hok hs => accounted_of_step ha hok hs
  exact hacc.conserved

/-- Every allocation succeeds. -/
def plenty : Memory := ⟨true, true, true, true⟩

/-- Eight pages of mm 0. -/
def eightPages : Vmr := ⟨0, 0, 8, 0, false, false⟩

/-- The pages are mapped and split at `addr`. -/
def mapAndSplit (addr : ℕ) (mem : Memory) : List ViewEvent :=
  [.mmap 0 0 8 0 0 false plenty, .split eightPages addr true mem]

/-- A region is mapped, split in the middle and forked half by half, the second half finding
the vmdesc of the first; then the front half is closed. -/
theorem conserved_splitAndFork : ∃ s, Transition.exec step blank
    (mapAndSplit 4 plenty ++
      [.fork ⟨0, 0, 4, 0, false, false⟩ 1 1 none none plenty,
        .fork ⟨0, 4, 8, 0, false, false⟩ 1 2 (some ⟨0, 0, 4, 0, false, false⟩)
          (some ⟨1, 0, 4, 1, false, false⟩) plenty,
        .close ⟨0, 0, 4, 0, false, false⟩]) = some s ∧ s.Conserved := by
  have hok : Transition.Allowed step EntryAllocated blank (mapAndSplit 4 plenty ++
      [.fork ⟨0, 0, 4, 0, false, false⟩ 1 1 none none plenty,
        .fork ⟨0, 4, 8, 0, false, false⟩ 1 2 (some ⟨0, 0, 4, 0, false, false⟩)
          (some ⟨1, 0, 4, 1, false, false⟩) plenty,
        .close ⟨0, 0, 4, 0, false, false⟩]) :=
    ⟨fun _ _ => rfl, fun _ => ⟨rfl, rfl⟩, fun _ _ _ => rfl, fun _ _ _ => rfl, trivial, trivial⟩
  exact ⟨_, rfl, viewsConserved_of_reach (.exec (.start start_blank) hok rfl)⟩

/-- When an entry of the split cannot be allocated, two vmrs and two references stand against
one view of the whole interval. -/
theorem not_conserved_split : ∃ s, Transition.exec step blank
    (mapAndSplit 4 { plenty with node' := false }) = some s ∧
      Transition.Reach Start step s ∧ (s.attached 0).length = 2 ∧
      (s.desc 0).map (·.refcount) = some 2 ∧
      (s.desc 0).map (·.views.units) = some [toLex (0, 8)] ∧ ¬ s.Conserved := by
  have hrun : ∀ s, Transition.exec step blank
      (mapAndSplit 4 { plenty with node' := false }) = some s → Transition.Reach Start step s :=
    fun _ he => Transition.Reach.exec (.start start_blank) he
  refine ⟨_, rfl, hrun _ rfl, rfl, rfl, rfl, fun h => ?_⟩
  have hcounts := (h 0 _ rfl).counts
  cases hcounts

/-- The first view of a mapping is lost too when its entry cannot be allocated, although the
embedded entry is free. -/
example : ∃ s, Transition.exec step blank
    [.mmap 0 0 8 0 0 false { plenty with node := false }] = some s ∧
      (s.desc 0).map (fun d => (d.refcount, d.views.units)) = some (1, []) := ⟨_, rfl, rfl⟩

end ViewSys

end Emp
