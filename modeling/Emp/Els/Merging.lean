import Emp.Els.Region
import Emp.Fetch.Block
import Emp.Lib.Tally
import Emp.Madvise.Prefetch

/-!
# Stretching and reducing a block

After a fetch, a fault tries to merge its block with the buddy.  The head of the merged block is
the lower of the two heads, which may be the one that is on a list of blocks in use or the one of
the fault: what is known of the other head has to be moved to it.  Before a writeback, a block is
taken apart again.

Descriptors are numbered within their aligned group, so that the head of a block is found from
the number of a member.  An order is a number of subblocks, as `gpa_desc_order` counts; adding the
order of a subblock gives `gpa_block_order`.  Another thread appears only through the locks that it
holds.  Every member of a block that is merged has its local page; where there is none, the code
below passes over it.

## Main definitions

* `SlruList`, `ElasticGpa`, `ElasticSys` — the lists, a descriptor, and the whole.
* `ElasticSys.elsStretchRep` — the stretch.
* `ElasticSys.elsReduce`, `ElasticSys.elsTryreduceComplete` — the two reductions.
-/

namespace Emp

/-- The lists of blocks in use: those of `active_list` and, with `true`, of `proactive_list`, and
the lists of pinned blocks. -/
inductive SlruList
  | mru (proactive : Bool) (cpu : ℤ)
  | lru (proactive : Bool) (cpu : ℤ)
  | global (proactive : Bool)
  | pin (pcpu : ℤ)
  deriving DecidableEq, Repr

/-- Whether `page_len` of the proactive list includes a list; that of the active list includes it
otherwise. -/
def SlruList.proactive : SlruList → Bool
  | .mru p _ | .lru p _ | .global p => p
  | .pin _ => true

/-- `enum local_page_flags`; at most one of them is set. -/
inductive OnList
  | mru
  | lru
  | global
  | pin
  deriving DecidableEq, Repr

/-- A local page: `owned` tells whether `emp_lp_owner` finds a vmr, `sptep` is zero for `NULL`. -/
structure SlruPage where
  cpu : ℤ
  on : Option OnList
  owned : Bool
  sptep : ℕ
  deriving DecidableEq, Repr

/-- A descriptor. -/
structure ElasticGpa where
  flags : GpaFlag → Bool
  rState : BlockState
  order : ℕ
  maxOrder : ℕ
  localPage : Option SlruPage

/-- The descriptors, the locks that we and that others hold, the lists, and the counters:
`pageLen` of the proactive list is that of `true`. -/
structure ElasticSys where
  numGpa : ℕ
  sbOrder : ℕ
  possibleCpus : ℤ
  gpa : ℕ → ElasticGpa
  mine : ℕ → Bool
  others : ℕ → Bool
  lists : SlruList → List ℕ
  pageLen : Bool → ℤ
  curPinPages : ℤ

/-- What `els_stretch_rep` is called with and finds: whether elastic blocks are disabled, the
flags of the fault, the cpu, and whether the lock of a global list is free. -/
structure StretchCall where
  elsDisabled : Bool
  noFetch : Bool
  fetchInProgress : Bool
  readOnly : Bool
  hvaFault : Bool
  cpu : ℤ
  aggressiveness : ℕ
  globalFree : Bool

/-- A fault of a thread that `IS_IOTHREAD_VCPU` is one of the host. -/
def StretchCall.faulted (c : StretchCall) : StretchCall :=
  { c with hvaFault := c.hvaFault || c.cpu < 0 }

namespace ElasticGpa

variable (d : ElasticGpa)

/-- `set_gpa_flags_if_unset` or `clear_gpa_flags_if_set` of one flag. -/
def setFlag (f : GpaFlag) (v : Bool) : ElasticGpa :=
  { d with flags := Function.update d.flags f v }

/-- The local page, with another list. -/
def setOn (cpu : ℤ) (on : Option OnList) : ElasticGpa :=
  { d with localPage := d.localPage.map fun lp => { lp with cpu := cpu, on := on } }

/-- `is_local_page_on_list`. -/
def isLocalPageOnList : Bool :=
  match d.localPage with
  | none => false
  | some lp => lp.on = some .mru ∨ lp.on = some .lru ∨ lp.on = some .global

/-- The list that a descriptor and its local page tell of, chosen by `GPA_PROACTIVE`. -/
def list (possibleCpus : ℤ) : Option SlruList :=
  d.localPage.bind fun lp => lp.on.map fun
    | .mru => .mru (d.flags .proactive) lp.cpu
    | .lru => .lru (d.flags .proactive) lp.cpu
    | .global => .global (d.flags .proactive)
    | .pin => .pin (possibleCpus + lp.cpu)

/-- One of `GPA_PREFETCHED_MASK`. -/
def prefetched : Bool :=
  d.flags .prefetchedCsf || d.flags .prefetchedCpf || d.flags .prefetchedBlk

end ElasticGpa

namespace ElasticSys

variable (s : ElasticSys) (c : StretchCall) (k : ℕ)

/-- `gpa_block_size`. -/
def blockSize : ℕ := 2 ^ (s.sbOrder + (s.gpa k).order)

/-- `emp_get_block_head`. -/
def empGetBlockHead : ℕ := alignDown (s.gpa k).order k

def setGpa (d : ElasticGpa) : ElasticSys := { s with gpa := Function.update s.gpa k d }

/-- `__emp_trylock_block`. -/
def empTrylockBlock : Option ElasticSys :=
  if s.mine k ∨ s.others k then none else some { s with mine := Function.update s.mine k true }

/-- `__emp_unlock_block`. -/
def empUnlockBlock : ElasticSys := { s with mine := Function.update s.mine k false }

/-- `atomic_add` to, or `atomic_sub` from, a `page_len`. -/
def addPageLen (proactive : Bool) (n : ℤ) : ElasticSys :=
  { s with pageLen := Function.update s.pageLen proactive (s.pageLen proactive + n) }

/-! ### Stretching -/

/-- `els_get_super_head`. -/
def elsGetSuperHead : Option ℕ :=
  if (s.gpa k).maxOrder ≤ (s.gpa k).order then none
  else some (alignDown ((s.gpa k).order + 1) k)

/-- `els_is_stretchable`: the buddy of the head `k` under the super head, locked.  What is tested
before and after the lock is written once; a buddy that then fails is unlocked again. -/
def elsIsStretchable (super : ℕ) : Option (ℕ × ElasticSys) :=
  let maxOrder := if (s.gpa k).maxOrder < (s.gpa super).maxOrder then (s.gpa k).maxOrder
    else (s.gpa super).maxOrder
  if maxOrder ≤ (s.gpa super).order ∨ maxOrder ≤ (s.gpa k).order then none
  else
    let buddy := if super = k then super + 2 ^ (s.gpa super).order else super
    let b := s.gpa buddy
    if b.maxOrder ≤ b.order then none
    else if b.prefetched ∨ b.flags .pinned then none
    else if b.rState ≠ .active ∨ (s.gpa k).order ≠ b.order then none
    else (s.empTrylockBlock buddy).bind fun t =>
      if c.readOnly = b.flags .dirty ∨ b.flags .hpt ≠ c.hvaFault ∨ b.flags .ept = c.hvaFault ∨
          (s.gpa k).flags .wprotect ≠ b.flags .wprotect ∨ b.flags .stretched then none
      else some (buddy, t)

/-- `els_update_gpa_flags`, with `super` for `s`. -/
def elsUpdateGpaFlags (super p : ℕ) : ElasticSys :=
  let a := s.gpa super
  if super ≠ p then
    let b := s.gpa p
    (s.setGpa super { a with
        flags := fun f => a.flags f || (b.flags f && f ≠ .proactive && f ≠ .promote) }).setGpa p
      { b with
        rState := .init
        flags := fun f => b.flags f && f ≠ .ept && f ≠ .hpt && f ≠ .promote && f ≠ .referenced &&
          f ≠ .dirty }
  else
    let member := super + 2 ^ (a.order - 1)
    let b := s.gpa member
    (s.setGpa super { a with
        rState := b.rState
        flags := fun f => a.flags f || (f = .dirty && b.flags .dirty) }).setGpa member
      { b.setFlag .dirty false with
        rState := .init
        localPage := b.localPage.map fun lp => { lp with sptep := 0 } }

/-- The loop of `__els_stretch` over the members of the merged block. -/
def incBlockOrder (super n : ℕ) : ElasticSys :=
  { s with gpa := fun g =>
      if super ≤ g ∧ g < super + n then { s.gpa g with order := (s.gpa g).order + 1 }
      else s.gpa g }

/-- `__els_stretch`. -/
def elsStretch (super p : ℕ) : ElasticSys :=
  (s.incBlockOrder super (2 ^ ((s.gpa super).order + 1))).elsUpdateGpaFlags super p

/-- A round of the loop of `els_stretch_rep`: the head `k` is merged with its buddy, and the
larger of the two heads is unlocked.  It returns the head of the merged block and the buddy. -/
def stretchRound : Option (ElasticSys × ℕ × ℕ) :=
  (s.elsGetSuperHead k).bind fun super =>
    (s.elsIsStretchable c k super).map fun (p, t) =>
      let secondary := if k < p then p else k
      (((t.addPageLen ((t.gpa p).flags .proactive) (-(t.blockSize p))).elsStretch super
        p).empUnlockBlock secondary, super, p)

/-- The loop of `els_stretch_rep`, for at most this many rounds. -/
def stretchLoop (s : ElasticSys) (c : StretchCall) (k : ℕ) : ℕ → ElasticSys × ℕ
  | 0 => (s, k)
  | n + 1 =>
      match s.stretchRound c k with
      | none => (s, k)
      | some (t, super, _) => t.stretchLoop c super n

attribute [grind =] stretchLoop

/-! ### The lists of the merged block -/

/-- `flush_active_mru`: the entries whose blocks can be locked move to the global list, or stay
when its lock is not free.  No two entries that can be locked lie in one block. -/
def flushActiveMru (proactive : Bool) : ElasticSys :=
  let mru := .mru proactive c.cpu
  let free := fun g => !(s.mine (s.empGetBlockHead g) || s.others (s.empGetBlockHead g))
  let moved := (s.lists mru).filter free
  let kept := (s.lists mru).filter fun g => !free g
  if 2 * 64 < kept.length ∨ c.globalFree then
    { s with
      lists := Function.update (Function.update s.lists mru kept) (.global proactive)
        (s.lists (.global proactive) ++ moved)
      gpa := fun g => if g ∈ moved then { s.gpa g with
            localPage := (s.gpa g).localPage.map fun lp => { lp with on := some .global } }
          else s.gpa g }
  else { s with lists := Function.update s.lists mru (kept ++ moved) }

/-- `add_gpas_to_active_list` of one head. -/
def addGpasToActiveList (proactive : Bool) : ElasticSys :=
  let d := s.gpa k
  let a := if d.rState = .fetching then d else { d with rState := .active }
  if d.flags .pinned then
    let pin := .pin (s.possibleCpus + c.cpu)
    let t := s.setGpa k ((a.setFlag .proactive true).setOn c.cpu (some .pin))
    let u := { t with lists := Function.update t.lists pin (t.lists pin ++ [k]) }
    { u.addPageLen true (s.blockSize k) with curPinPages := s.curPinPages + s.blockSize k }
  else
    let mru := .mru proactive c.cpu
    let t := s.setGpa k
      ((if proactive then a.setFlag .proactive true else a).setOn c.cpu (some .mru))
    let u := { t with lists := Function.update t.lists mru (t.lists mru ++ [k]) }
    let v := if 64 ≤ (u.lists mru).length then u.flushActiveMru c proactive else u
    v.addPageLen proactive (s.blockSize k)

/-- A round of `remove_from_list_except_for_head`. -/
def removeFromList : ElasticSys :=
  if (s.gpa k).isLocalPageOnList then
    match (s.gpa k).list s.possibleCpus with
    | none => s
    | some l =>
        { s.setGpa k { (s.gpa k).setFlag .proactive false with
            localPage := (s.gpa k).localPage.map fun lp => { lp with on := none } } with
          lists := Function.update s.lists l ((s.lists l).erase k) }
  else s

/-- `remove_from_list_except_for_head`. -/
def removeFromListExceptForHead : ElasticSys :=
  (List.range' (k + 1) (2 ^ (s.gpa k).order - 1)).foldl removeFromList s

/-- What `els_stretch_rep` does after its loop. -/
def putStretched : ElasticSys :=
  let t := s.setGpa k (((s.gpa k).setFlag .stretched true).setFlag .prefetchOnce true)
  let proactive := (t.gpa k).flags .proactive
  let u := if (t.gpa k).isLocalPageOnList then t.addPageLen proactive (t.blockSize k)
    else t.addGpasToActiveList c k proactive
  u.removeFromListExceptForHead k

/-- `els_stretch_rep`.  Without an `aggressiveness`, the loop ends at the largest order. -/
def elsStretchRep : Bool × ElasticSys :=
  if c.elsDisabled then (false, s)
  else if c.noFetch ∨ ¬ c.fetchInProgress then (false, s)
  else if ((s.gpa k).localPage.map SlruPage.owned).getD false = false then (false, s)
  else
    let rounds := if c.aggressiveness = 0 then blockMaxOrder else c.aggressiveness
    let r := s.stretchLoop c.faulted k rounds
    if (r.1.gpa r.2).order = (s.gpa k).order then (false, r.1)
    else (true, r.1.putStretched c r.2)

/-! ### Reducing -/

/-- `set_gpa_flags`, `r_state` and `sptep` of a piece from the head of the block. -/
def inherit (piece : ℕ) : ElasticSys :=
  let a := s.gpa k
  let d := s.gpa piece
  s.setGpa piece { d with
    flags := fun f => d.flags f || a.flags f
    rState := a.rState
    localPage := d.localPage.map fun lp =>
      { lp with sptep := (a.localPage.map SlruPage.sptep).getD 0 + (piece - k) * 2 ^ s.sbOrder } }

/-- `set_gpa_block_order` of `n` members. -/
def setBlockOrder (n order : ℕ) : ElasticSys :=
  { s with gpa := fun g =>
      if k ≤ g ∧ g < k + n then { s.gpa g with order := order } else s.gpa g }

/-- `els_reduce`: the pieces. -/
def elsReduce : ElasticSys × Option (List ℕ) :=
  let next := (s.gpa k).order - 1
  let buddy := k + 2 ^ next
  match s.empTrylockBlock buddy with
  | none => (s, none)
  | some t => ((t.setBlockOrder k (2 ^ (s.gpa k).order) next).inherit k buddy, some [k, buddy])

/-- The first loop of `els_tryreduce_complete`: the state, and the members locked so far when one
cannot be locked. -/
def lockMembers : ElasticSys → List ℕ → List ℕ → ElasticSys × Option (List ℕ)
  | s, _, [] => (s, none)
  | s, done, g :: rest =>
      match s.empTrylockBlock g with
      | none => (s, some done)
      | some t => lockMembers t (done ++ [g]) rest

attribute [grind =] lockMembers

/-- A round of the second loop of `els_tryreduce_complete`. -/
def reduceMember (s : ElasticSys) (k g : ℕ) : ElasticSys :=
  let t := s.setBlockOrder g 1 0
  if g = k ∨ (t.gpa g).localPage = none then t else t.inherit k g

/-- `els_tryreduce_complete`: the pieces. -/
def elsTryreduceComplete : ElasticSys × Option (List ℕ) :=
  let n := 2 ^ (s.gpa k).order
  match s.lockMembers [] (List.range' (k + 1) (n - 1)) with
  | (t, some done) => (done.foldl empUnlockBlock t, none)
  | (t, none) => ((List.range' k n).foldl (fun u g => u.reduceMember k g) t, some (List.range' k n))

end ElasticSys

end Emp
