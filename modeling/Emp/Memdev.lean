import Emp.Allocator.Kept
import Emp.Allocator.Runs

/-!
# Memory devices

A donor may be a piece of memory of the same host.  If the process gives no memory for it, the
kernel keeps one group of pages for each subblock, which it gets when the subblock is written for
the first time; otherwise the subblocks are copied to and from the memory that the process gave, in
whatever process runs at that time.

## Main definitions

* `createConn` — the device as it is set up.
* `empMemdevPostRead`, `empMemdevPostWrite` — one subblock, read and written.
* `MemdevSys` — the device, the allocator whose pages it serves, and what was written last.
* `MemdevSys.Stored` — the device is a store.
* `MemdevSys.stored_of_reach` — when it is.
-/

namespace Emp

open Transition

namespace Memdev

/-- The bytes of some pages, by their number. -/
abbrev Bytes := ℕ → UInt8

/-- `PAGE_SHIFT`. -/
def memPageShift : ℕ := 12

def errFault : ℤ := -14

def errNomem : ℤ := -12

/-! ## One subblock -/

/-- `struct context`, as a memory device uses it. -/
structure Context where
  memdevLen : ℕ
  /-- a group of pages for each slot; without one there is `memdev_ptr` -/
  memdevMap : Option (ℕ → Option Bytes)
  memdevPtr : ℕ

/-- `create_conn` for a donor of `size` megabytes at `ptr`, which is zero if there is none. -/
def createConn (size ptr sbOrder : ℕ) : Context where
  memdevLen := (size <<< 8) >>> sbOrder
  memdevMap := if ptr = 0 then some fun _ => none else none
  memdevPtr := ptr

/-- The states of a work request in which it comes back. -/
inductive WrState
  | ready | prFailed | pwFailed
  deriving DecidableEq

/-- `state` and `m_errors` of a work request. -/
structure MemWork where
  state : WrState
  mErrors : ℤ

/-- `STATE_READY` without an error. -/
def MemWork.done : MemWork := ⟨.ready, 0⟩

/-- The device and the memory of the processes, each with its own address space. -/
structure Device where
  context : Context
  user : ℕ → ℕ → UInt8

/-- `__copy_pages`. -/
def copyPages (dst src : Bytes) (len : ℕ) : Bytes := fun i =>
  if i < len <<< memPageShift then src i else dst i

/-- `copy_from_user` of `n` bytes, of which it does not get the last `left`; these are zeroed. -/
def copyFromUser (user : ℕ → UInt8) (addr n left : ℕ) (dst : Bytes) : Bytes := fun i =>
  if i < n - left then user (addr + i) else if i < n then 0 else dst i

/-- `copy_to_user` of `n` bytes, of which it does not write the last `left`. -/
def copyToUser (user : ℕ → UInt8) (addr n left : ℕ) (src : Bytes) : ℕ → UInt8 := fun a =>
  if addr ≤ a ∧ a < addr + (n - left) then src (a - addr) else user a

/-- `emp_memdev_post_read` into `page`, in the address space `mm`, where `copy_from_user` leaves
`left` bytes. -/
def empMemdevPostRead (dev : Device) (mm left : ℕ) (page : Bytes) (pgoff pglen : ℕ) :
    MemWork × Bytes :=
  match dev.context.memdevMap with
  | some memdevMap =>
      let offset := pgoff / pglen
      match memdevMap offset with
      | none => (.done, fun i => if i < pglen <<< memPageShift then 0 else page i)
      | some p => (.done, copyPages page p pglen)
  | none =>
      let addr := dev.context.memdevPtr + pgoff <<< memPageShift
      (if left ≠ 0 then ⟨.prFailed, errFault⟩ else .done,
        copyFromUser (dev.user mm) addr (pglen <<< memPageShift) left page)

/-- `emp_memdev_post_write` of `page`, in the address space `mm`, where `copy_to_user` leaves `left`
bytes, and `newPage` is what `emp_alloc_pages_node` gives. -/
def empMemdevPostWrite (dev : Device) (mm left : ℕ) (newPage : Option Bytes) (page : Bytes)
    (pgoff pglen sbOrder : ℕ) : MemWork × Device :=
  match dev.context.memdevMap with
  | some memdevMap =>
      let offset := pgoff >>> sbOrder
      match (memdevMap offset).or newPage with
      | none => (⟨.pwFailed, errNomem⟩, dev)
      | some p =>
          (.done, { dev with
            context.memdevMap :=
              some (Function.update memdevMap offset (some (copyPages p page pglen))) })
  | none =>
      let addr := dev.context.memdevPtr + pgoff <<< memPageShift
      (if left ≠ 0 then ⟨.pwFailed, errFault⟩ else .done,
        { dev with
          user := Function.update dev.user mm
            (copyToUser (dev.user mm) addr (pglen <<< memPageShift) left page) })

/-! ## What the callers pass -/

/-- `memregs_wdma_size`, with `DMA_WRITEBACK_MAX_ORDER`. -/
def memregsWdmaSize (sbOrder : ℕ) : ℕ := min (1 <<< sbOrder) (1 <<< 5)

/-- The length of a write in `writeback_block`, cut to eight bits. -/
def dmaSize (blockOrder sbOrder : ℕ) : ℕ :=
  min (min (1 <<< blockOrder) (memregsWdmaSize sbOrder) % 2 ^ 8) ((1 <<< sbOrder) % 2 ^ 8)

/-- The length of a read in `fetch_subblock`. -/
def dmaLen (pageOrder : ℕ) : ℕ := 1 <<< pageOrder

/-- Reads and writes have the length of a subblock. -/
theorem dmaSize_eq {blockOrder sbOrder : ℕ} (hsb : sbOrder ≤ 5) (h : sbOrder ≤ blockOrder) :
    dmaSize blockOrder sbOrder = dmaLen sbOrder := by
  have hle : 2 ^ sbOrder ≤ 2 ^ 5 := Nat.pow_le_pow_right (by decide) hsb
  have hblock : 2 ^ sbOrder ≤ 2 ^ blockOrder := Nat.pow_le_pow_right (by decide) h
  simp only [dmaSize, memregsWdmaSize, dmaLen, Nat.shiftLeft_eq, Nat.one_mul]
  rw [Nat.min_eq_left hle, Nat.min_eq_right hblock, Nat.min_self, Nat.mod_eq_of_lt]
  exact lt_of_le_of_lt hle (by decide)

/-- The bytes of a subblock. -/
def subblockBytes (sbOrder : ℕ) : ℕ := dmaLen sbOrder <<< memPageShift

end Memdev

open Memdev

/-! ## The device in its surroundings -/

/-- The allocator, the device of one of its regions, and, for each offset, what the last successful
write there wrote. -/
structure MemdevSys where
  mem : RemoteMem
  dev : Device
  written : ℕ → Option Bytes

inductive MemdevAct
  /-- pages are allocated and released -/
  | alloc (a : AllocAction)
  /-- subblock `g` of a block of `1 << order` subblocks is written -/
  | write (g order mm left : ℕ) (newPage : Option Bytes) (page : Bytes)

namespace MemdevSys

/-- A write at an offset. -/
def write (sbOrder : ℕ) (s : MemdevSys) (offset order mm left : ℕ) (newPage : Option Bytes)
    (page : Bytes) : MemdevSys :=
  let r := empMemdevPostWrite s.dev mm left newPage page offset
    (dmaSize (sbOrder + order) sbOrder) sbOrder
  { s with
    dev := r.2
    written := if r.1.state = .ready then Function.update s.written offset (some page)
      else s.written }

/-- A read at an offset, which leaves the device as it is. -/
def read (sbOrder : ℕ) (s : MemdevSys) (offset mm left : ℕ) (page : Bytes) : MemWork × Bytes :=
  empMemdevPostRead s.dev mm left page offset (dmaLen sbOrder)

/-- One action, where the device belongs to region `mrid`. -/
def step (sbOrder mrid : ℕ) (s : MemdevSys) : MemdevAct → Option MemdevSys
  | .alloc a => (allocStep sbOrder s.mem a).map fun mem => { s with mem := mem }
  | .write g order mm left newPage page =>
      match s.mem.remotePage g with
      | .free => none
      | .page id offset =>
          if id = mrid then some (s.write sbOrder offset order mm left newPage page) else none

/-- The states before the first allocation: the device has the size of its region. -/
structure Init (sbOrder mrid : ℕ) (s : MemdevSys) : Prop where
  alloc : AllocInit sbOrder s.mem
  device : ∃ mb ptr, s.mem.memregs mrid = some (createMr mrid mb sbOrder) ∧
    s.dev.context = createConn mb ptr sbOrder
  written : ∀ offset, s.written offset = none

/-- The kernel keeps the pages of the device. -/
def MapMode (s : MemdevSys) : Prop := s.dev.context.memdevMap.isSome = true

/-- **The device is a store**, in the address space `home`: at the pages that were handed out, reads
and writes use the same slot, which the device has; a read that succeeds gives what was written
last, or zeros; and a write, whatever becomes of it, does not show at another page. -/
structure Stored (sbOrder mrid home : ℕ) (s : MemdevSys) : Prop where
  slot : ∀ g offset, s.mem.remotePage g = .page mrid offset →
    offset / dmaLen sbOrder = offset >>> sbOrder ∧
      offset >>> sbOrder < s.dev.context.memdevLen
  last : ∀ g offset, s.mem.remotePage g = .page mrid offset →
    ∀ mm left page, s.MapMode ∨ mm = home →
      (s.read sbOrder offset mm left page).1.state = .ready →
      (∀ d, s.written offset = some d →
        ∀ i < subblockBytes sbOrder, (s.read sbOrder offset mm left page).2 i = d i) ∧
      (s.written offset = none → s.MapMode →
        ∀ i < subblockBytes sbOrder, (s.read sbOrder offset mm left page).2 i = 0)
  apart : ∀ g g' offset offset', s.mem.remotePage g = .page mrid offset →
    s.mem.remotePage g' = .page mrid offset' → offset ≠ offset' →
      ∀ order mm left newPage page mm' left' page',
        (s.write sbOrder offset order mm left newPage page).read sbOrder offset' mm' left' page' =
          s.read sbOrder offset' mm' left' page'

/-- The condition on a step: an allocation is one that the allocator does well, and a write to the
memory of a process happens in the process that gave it, and copies all bytes or none. -/
def Allowed (sbOrder home : ℕ) (s : MemdevSys) : MemdevAct → Prop
  | .alloc a => AllocCond sbOrder s.mem a
  | .write _ _ mm left _ _ =>
      s.MapMode ∨ mm = home ∧ (left = 0 ∨ subblockBytes sbOrder ≤ left)

/-! ## One page and the others -/

section Steps

variable {sbOrder mrid home offset order mm left : ℕ} {s s' : MemdevSys} {newPage : Option Bytes}
  {page d : Bytes} {b b' : ℕ}

theorem shiftLeft_div (b sbOrder : ℕ) : b <<< sbOrder / dmaLen sbOrder = b := by
  rw [dmaLen, Nat.shiftLeft_eq, Nat.shiftLeft_eq, Nat.one_mul]
  exact Nat.mul_div_cancel b (Nat.two_pow_pos sbOrder)

/-- The bytes of the subblock with number `b`. -/
theorem shiftLeft_bytes (b sbOrder : ℕ) :
    b <<< sbOrder <<< memPageShift = b * subblockBytes sbOrder := by
  simp only [subblockBytes, dmaLen, Nat.shiftLeft_eq, Nat.one_mul, Nat.mul_assoc]

theorem number_eq {b b' n i : ℕ} (hi : i < n) (hle : b' * n ≤ b * n + i)
    (hlt : b * n + i < b' * n + n) : b = b' := by
  have hb : (b * n + i) / n = b := by
    rw [Nat.mul_comm, Nat.mul_add_div (Nat.zero_lt_of_lt hi), Nat.div_eq_of_lt hi, Nat.add_zero]
  have hb' : (b * n + i) / n = b' := by
    refine Nat.div_eq_of_lt_le hle ?_
    rwa [Nat.add_mul, Nat.one_mul]
  exact hb.symm.trans hb'

/-- A copy to a process leaves the other subblocks alone. -/
theorem copyToUser_other {user : ℕ → UInt8} {ptr left i : ℕ} (hi : i < subblockBytes sbOrder)
    (hb : b ≠ b') :
    copyToUser user (ptr + b <<< sbOrder <<< memPageShift) (subblockBytes sbOrder) left page
      (ptr + b' <<< sbOrder <<< memPageShift + i) =
        user (ptr + b' <<< sbOrder <<< memPageShift + i) := by
  rw [copyToUser, if_neg]
  rintro ⟨hle, hlt⟩
  rw [shiftLeft_bytes, shiftLeft_bytes] at hle hlt
  exact hb (number_eq hi (b := b') (by omega) (by omega)).symm

/-- A copy without a fault gives the bytes. -/
theorem copyToUser_self {user : ℕ → UInt8} {addr n i : ℕ} (hi : i < n) :
    copyToUser user addr n 0 page (addr + i) = page i := by
  rw [copyToUser, if_pos (by omega), Nat.add_sub_cancel_left]

theorem copyToUser_none {user : ℕ → UInt8} {addr n : ℕ} (hleft : n ≤ left) :
    copyToUser user addr n left page = user := by
  funext a
  rw [copyToUser, if_neg (by omega)]

/-- What is read depends on the slot of the page, or on its bytes. -/
theorem read_congr {left' : ℕ} {t : MemdevSys}
    (hlen : t.dev.context.memdevPtr = s.dev.context.memdevPtr)
    (hmap : t.dev.context.memdevMap.map (· b) = s.dev.context.memdevMap.map (· b))
    (huser : s.dev.context.memdevMap = none → ∀ i < subblockBytes sbOrder,
      t.dev.user mm (s.dev.context.memdevPtr + b <<< sbOrder <<< memPageShift + i) =
        s.dev.user mm (s.dev.context.memdevPtr + b <<< sbOrder <<< memPageShift + i)) :
    t.read sbOrder (b <<< sbOrder) mm left' page =
      s.read sbOrder (b <<< sbOrder) mm left' page := by
  simp only [read, empMemdevPostRead, shiftLeft_div, hlen]
  cases hs : s.dev.context.memdevMap with
  | none =>
      rw [hs, Option.map_none, Option.map_eq_none_iff] at hmap
      rw [hmap]
      simp only [Prod.mk.injEq, true_and]
      funext i
      simp only [copyFromUser]
      by_cases hi : i < dmaLen sbOrder <<< memPageShift - left'
      · rw [if_pos hi, if_pos hi]
        exact huser hs i (lt_of_lt_of_le hi (Nat.sub_le _ _))
      · rw [if_neg hi, if_neg hi]
  | some m =>
      rw [hs, Option.map_some, Option.map_eq_some_iff] at hmap
      obtain ⟨m', hm', heq⟩ := hmap
      rw [hm']
      simp only [heq]

/-- A write to a slot that gets no pages changes nothing. -/
theorem write_map_none {m : ℕ → Option Bytes} (hmap : s.dev.context.memdevMap = some m)
    (hslot : (m b).or newPage = none) :
    s.write sbOrder (b <<< sbOrder) order mm left newPage page = s := by
  simp [write, empMemdevPostWrite, hmap, hslot]

theorem write_map_some (hsb : sbOrder ≤ 5) {m : ℕ → Option Bytes} {p : Bytes}
    (hmap : s.dev.context.memdevMap = some m) (hslot : (m b).or newPage = some p) :
    s.write sbOrder (b <<< sbOrder) order mm left newPage page = { s with
      dev.context.memdevMap :=
        some (Function.update m b (some (copyPages p page (dmaLen sbOrder))))
      written := Function.update s.written (b <<< sbOrder) (some page) } := by
  simp [write, empMemdevPostWrite, hmap, hslot, MemWork.done,
    dmaSize_eq hsb (Nat.le_add_right sbOrder order)]

theorem write_user (hsb : sbOrder ≤ 5) (hmap : s.dev.context.memdevMap = none) :
    s.write sbOrder (b <<< sbOrder) order mm left newPage page = { s with
      dev.user := Function.update s.dev.user mm (copyToUser (s.dev.user mm)
        (s.dev.context.memdevPtr + b <<< sbOrder <<< memPageShift) (subblockBytes sbOrder) left
        page)
      written := if left = 0 then Function.update s.written (b <<< sbOrder) (some page)
        else s.written } := by
  by_cases hleft : left = 0 <;>
    simp [write, empMemdevPostWrite, hmap, hleft, MemWork.done, subblockBytes,
      dmaSize_eq hsb (Nat.le_add_right sbOrder order)]

/-- A write, whatever becomes of it, does not show at another page. -/
theorem read_write_other (hsb : sbOrder ≤ 5) (hb : b ≠ b') (mm' left' : ℕ) (page' : Bytes) :
    (s.write sbOrder (b <<< sbOrder) order mm left newPage page).read sbOrder (b' <<< sbOrder)
      mm' left' page' = s.read sbOrder (b' <<< sbOrder) mm' left' page' := by
  cases hmap : s.dev.context.memdevMap with
  | none =>
      rw [write_user hsb hmap]
      refine read_congr rfl rfl fun _ i hi => ?_
      by_cases hmm : mm' = mm
      · simp only [hmm, Function.update_self]
        exact copyToUser_other hi hb
      · simp only [Function.update_of_ne hmm]
  | some m =>
      cases hslot : (m b).or newPage with
      | none => rw [write_map_none hmap hslot]
      | some p =>
          rw [write_map_some hsb hmap hslot]
          refine read_congr rfl ?_ fun hnone => absurd (hmap.symm.trans hnone) (by simp)
          simp only [hmap, Option.map_some, Function.update_of_ne (Ne.symm hb)]

/-! ## The invariant -/

/-- The device holds what was written last. -/
structure Inv (sbOrder mrid home : ℕ) (s : MemdevSys) : Prop where
  sbOrder_le : sbOrder ≤ 5
  alloc : AllocInv sbOrder (fun _ => 0) s.mem
  size : (s.mem.mr mrid).size >>> sbOrder = s.dev.context.memdevLen
  slot : ∀ m, s.dev.context.memdevMap = some m → ∀ b,
    (m b = none → s.written (b <<< sbOrder) = none) ∧
      ∀ p, m b = some p → ∃ d, s.written (b <<< sbOrder) = some d ∧
        ∀ i < subblockBytes sbOrder, p i = d i
  bytes : s.dev.context.memdevMap = none → ∀ b d, s.written (b <<< sbOrder) = some d →
    ∀ i < subblockBytes sbOrder,
      s.dev.user home (s.dev.context.memdevPtr + b <<< sbOrder <<< memPageShift + i) = d i

theorem inv_of_init (h : Init sbOrder mrid s) : Inv sbOrder mrid home s := by
  obtain ⟨mb, ptr, hmr, hcontext⟩ := h.device
  refine ⟨h.alloc.sbOrder_le, allocInv_init h.alloc, ?_, ?_, ?_⟩
  · rw [RemoteMem.mr_eq hmr, hcontext]
    rfl
  · intro m hm b
    rw [hcontext, createConn] at hm
    simp only [Option.ite_none_right_eq_some, Option.some.injEq] at hm
    rw [← hm.2]
    exact ⟨fun _ => h.written _, fun p hp => by simp at hp⟩
  · intro _ b d hd
    rw [h.written] at hd
    cases hd

/-- A page that was handed out is one of the subblocks of the region. -/
theorem Inv.exists_number (H : Inv sbOrder mrid home s) {g : ℕ}
    (hg : s.mem.remotePage g = .page mrid offset) :
    ∃ b, offset = b <<< sbOrder ∧ b < s.dev.context.memdevLen := by
  obtain ⟨mr, hmr, b, hb, rfl⟩ := H.alloc.inside g mrid offset hg
  refine ⟨b, rfl, ?_⟩
  rwa [← H.size, RemoteMem.mr_eq hmr]

/-- An allocation does not touch the device. -/
theorem Inv.allocate (H : Inv sbOrder mrid home s) {a : AllocAction} {mem : RemoteMem}
    (hcond : AllocCond sbOrder s.mem a) (hstep : allocStep sbOrder s.mem a = some mem) :
    Inv sbOrder mrid home { s with mem := mem } where
  sbOrder_le := H.sbOrder_le
  alloc := allocInv_step H.alloc hcond hstep
  size := (congrArg (· >>> sbOrder) (size_allocStep hstep mrid)).trans H.size
  slot := H.slot
  bytes := H.bytes

/-- A write at a subblock is recorded, if it succeeds. -/
theorem Inv.write (H : Inv sbOrder mrid home s)
    (hcond : s.MapMode ∨ mm = home ∧ (left = 0 ∨ subblockBytes sbOrder ≤ left)) :
    Inv sbOrder mrid home (s.write sbOrder (b <<< sbOrder) order mm left newPage page) := by
  have hne : ∀ b', b' ≠ b → b' <<< sbOrder ≠ b <<< sbOrder := fun b' hb' heq =>
    hb' (shiftLeft_inj heq)
  cases hmap : s.dev.context.memdevMap with
  | none =>
      obtain ⟨rfl, hleft⟩ := hcond.resolve_left (by simp [MapMode, hmap])
      rw [write_user H.sbOrder_le hmap]
      refine ⟨H.sbOrder_le, H.alloc, H.size, fun m hm => absurd (hmap.symm.trans hm) (by simp),
        fun _ b' d hd i hi => ?_⟩
      simp only [Function.update_self] at hd ⊢
      by_cases hb' : b' = b
      · rw [hb'] at hd ⊢
        by_cases hzero : left = 0
        · rw [if_pos hzero, Function.update_self] at hd
          rw [hzero, copyToUser_self hi, Option.some.inj hd]
        · rw [if_neg hzero] at hd
          rw [copyToUser_none (hleft.resolve_left hzero)]
          exact H.bytes hmap b d hd i hi
      · rw [copyToUser_other hi (Ne.symm hb')]
        refine H.bytes hmap b' d ?_ i hi
        split_ifs at hd
        · rwa [Function.update_of_ne (hne b' hb')] at hd
        · exact hd
  | some m =>
      cases hslot : (m b).or newPage with
      | none => rwa [write_map_none hmap hslot]
      | some p =>
          rw [write_map_some H.sbOrder_le hmap hslot]
          refine ⟨H.sbOrder_le, H.alloc, H.size, fun m' hm' b' => ?_,
            fun hnone => absurd hnone (by simp)⟩
          obtain rfl := Option.some.inj hm'
          by_cases hb' : b' = b
          · rw [hb', Function.update_self]
            refine ⟨fun hnone => absurd hnone (by simp), fun q hq => ⟨page, ?_, fun i hi => ?_⟩⟩
            · exact Function.update_self ..
            · rw [← Option.some.inj hq, copyPages]
              exact if_pos hi
          · simp only [Function.update_of_ne hb', Function.update_of_ne (hne b' hb')]
            exact H.slot m hmap b'

/-- What a read gives, if it succeeds. -/
theorem Inv.read (H : Inv sbOrder mrid home s) (hmm : s.MapMode ∨ mm = home)
    (hready : (s.read sbOrder (b <<< sbOrder) mm left page).1.state = .ready) :
    (∀ d, s.written (b <<< sbOrder) = some d → ∀ i < subblockBytes sbOrder,
        (s.read sbOrder (b <<< sbOrder) mm left page).2 i = d i) ∧
      (s.written (b <<< sbOrder) = none → s.MapMode → ∀ i < subblockBytes sbOrder,
        (s.read sbOrder (b <<< sbOrder) mm left page).2 i = 0) := by
  have hbytes : dmaLen sbOrder <<< memPageShift = subblockBytes sbOrder := rfl
  simp only [MemdevSys.read, empMemdevPostRead, shiftLeft_div, hbytes] at hready ⊢
  cases hmap : s.dev.context.memdevMap with
  | none =>
      have hmode : ¬ s.MapMode := by simp [MapMode, hmap]
      rw [hmap] at hready
      have hleft : left = 0 := by
        by_contra hne
        simp [hne] at hready
      refine ⟨fun d hd i hi => ?_, fun _ h => absurd h hmode⟩
      simp only [copyFromUser, hleft, Nat.sub_zero]
      rw [if_pos hi, hmm.resolve_left hmode]
      exact H.bytes hmap b d hd i hi
  | some m =>
      obtain ⟨hnone, hsome⟩ := H.slot m hmap b
      simp only
      cases hslot : m b with
      | none =>
          refine ⟨fun d hd => ?_, fun _ _ i hi => ?_⟩
          · rw [hnone hslot] at hd
            cases hd
          · simp only [if_pos hi]
      | some p =>
          obtain ⟨d, hd, hp⟩ := hsome p hslot
          refine ⟨fun d' hd' i hi => ?_, fun h => ?_⟩
          · rw [← Option.some.inj (hd.symm.trans hd'), ← hp i hi]
            simp only [copyPages, hbytes, if_pos hi]
          · rw [hd] at h
            cases h

theorem Inv.stored (H : Inv sbOrder mrid home s) : Stored sbOrder mrid home s where
  slot g offset hg := by
    obtain ⟨b, rfl, hb⟩ := H.exists_number hg
    rw [shiftLeft_div, shiftLeft_shiftRight]
    exact ⟨rfl, hb⟩
  last g offset hg mm left page hmm hready := by
    obtain ⟨b, rfl, -⟩ := H.exists_number hg
    exact H.read hmm hready
  apart g g' offset offset' hg hg' hne order mm left newPage page mm' left' page' := by
    obtain ⟨b, rfl, -⟩ := H.exists_number hg
    obtain ⟨b', rfl, -⟩ := H.exists_number hg'
    exact read_write_other H.sbOrder_le (fun heq => hne (by rw [heq])) mm' left' page'

theorem Inv.step {a : MemdevAct} (H : Inv sbOrder mrid home s)
    (hok : s.Allowed sbOrder home a) (hstep : s.step sbOrder mrid a = some s') :
    Inv sbOrder mrid home s' := by
  cases a with
  | alloc a =>
      obtain ⟨mem, hmem, rfl⟩ := Option.map_eq_some_iff.mp hstep
      exact H.allocate hok hmem
  | write g order mm left newPage page =>
      simp only [MemdevSys.step] at hstep
      cases hg : s.mem.remotePage g with
      | free => simp [hg] at hstep
      | page id offset =>
          rw [hg] at hstep
          obtain ⟨rfl, rfl⟩ := of_guard hstep
          obtain ⟨b, rfl, -⟩ := H.exists_number hg
          exact H.write hok

end Steps

/-- **Memory devices.**  In every state reached by allocations that the allocator does well, and by
writes that happen in the process that gave the memory and copy all or nothing, the device is a
store. -/
theorem stored_of_reach {sbOrder mrid home : ℕ} {s : MemdevSys}
    (h : ReachWhen (Init sbOrder mrid) (step sbOrder mrid) (Allowed sbOrder home) s) :
    Stored sbOrder mrid home s :=
  (h.invariant (I := Inv sbOrder mrid home) (fun _ => inv_of_init) fun _ _ _ H hok hstep =>
    H.step hok hstep).stored

/-! ## Runs on one megabyte -/

/-- A device of one megabyte, eight subblocks of 32 pages, with the memory at `ptr`, if it is not
zero. -/
def oneMegabyte (ptr : ℕ) : MemdevSys where
  mem := oneRegion
  dev := ⟨createConn 1 ptr 5, fun _ _ => 0⟩
  written _ := none

theorem init_oneMegabyte (ptr : ℕ) : Init 5 0 (oneMegabyte ptr) where
  alloc := oneRegion_init
  device := ⟨1, ptr, rfl, rfl⟩
  written _ := rfl

/-- Subblock 0 has the first page. -/
theorem exists_allocated : ∃ mem,
    allocStep 5 oneRegion (.alloc (allocConfig .diffMr) 0 0) = some mem ∧
      mem.remotePage 0 = .page 0 0 := by
  obtain ⟨mem, hmem⟩ := Option.isSome_iff_exists.mp
    (by decide : (allocStep 5 oneRegion (.alloc (allocConfig .diffMr) 0 0)).isSome = true)
  have hword : (allocStep 5 oneRegion (.alloc (allocConfig .diffMr) 0 0)).map
      (fun s => s.remotePage 0) = some (.page 0 0) := by decide
  rw [hmem, Option.map_some, Option.some.injEq] at hword
  exact ⟨mem, hmem, hword⟩

/-- A page that was handed out can be written. -/
theorem step_write {s : MemdevSys} (hg : s.mem.remotePage 0 = .page 0 0) (left : ℕ) (page : Bytes) :
    s.step 5 0 (.write 0 0 0 left none page) = some (s.write 5 0 0 0 left none page) := by
  rw [step, hg]
  rfl

/-- A run that meets the condition: a subblock gets its page and is written to the memory that the
process gave. -/
theorem stored_of_reach_written : ∃ s,
    exec (step 5 0) (oneMegabyte 4096) [.alloc (.alloc (allocConfig .diffMr) 0 0),
      .write 0 0 0 0 none fun _ => 1] = some s ∧ Stored 5 0 0 s := by
  obtain ⟨mem, hmem, hword⟩ := exists_allocated
  have halloc : (oneMegabyte 4096).step 5 0 (.alloc (.alloc (allocConfig .diffMr) 0 0)) =
      some { oneMegabyte 4096 with mem := mem } := by
    rw [step]
    exact (congrArg _ hmem).trans rfl
  have hcond : (oneMegabyte 4096).Allowed 5 0 (.alloc (.alloc (allocConfig .diffMr) 0 0)) :=
    fun _ => .inl (by decide)
  have hwrite := step_write (s := { oneMegabyte 4096 with mem := mem }) hword 0 fun _ => 1
  refine ⟨_, by rw [exec_cons, halloc, Option.bind_some, exec_cons, hwrite]; rfl, ?_⟩
  refine stored_of_reach (.next (.next (.start (init_oneMegabyte 4096)) hcond halloc) ?_ hwrite)
  exact .inr ⟨rfl, .inl rfl⟩

/-- A page behind the end of the device, for a block that the only region cannot hold; and a write
that stops before its last byte, which is read although it failed. -/
theorem not_stored :
    (¬ ∀ s, Reach (Init 5 0) (step 5 0) s → Stored 5 0 0 s) ∧
      ∃ s, exec (step 5 0) (oneMegabyte 4096) [.alloc (.alloc (allocConfig .diffMr) 0 0),
        .write 0 0 0 0 none fun _ => 1, .write 0 0 0 1 none fun _ => 2] = some s ∧
          ¬ Stored 5 0 0 s := by
  constructor
  · intro hall
    obtain ⟨mem, hmem⟩ := Option.isSome_iff_exists.mp
      (by decide : (allocStep 5 oneRegion (.alloc (allocConfig .diffMr) 0 4)).isSome = true)
    have hword : (allocStep 5 oneRegion (.alloc (allocConfig .diffMr) 0 4)).map
        (fun s => s.remotePage 8) = some (.page 0 256) := by decide
    rw [hmem, Option.map_some, Option.some.injEq] at hword
    have halloc : (oneMegabyte 0).step 5 0 (.alloc (.alloc (allocConfig .diffMr) 0 4)) =
        some { oneMegabyte 0 with mem := mem } := by
      rw [step]
      exact (congrArg _ hmem).trans rfl
    have hstored := hall _ (.next (.start (init_oneMegabyte 0)) trivial halloc)
    have hlt : 256 >>> 5 < 8 := (hstored.slot 8 256 hword).2
    exact absurd hlt (by decide)
  · obtain ⟨mem, hmem, hword⟩ := exists_allocated
    have halloc : (oneMegabyte 4096).step 5 0 (.alloc (.alloc (allocConfig .diffMr) 0 0)) =
        some { oneMegabyte 4096 with mem := mem } := by
      rw [step]
      exact (congrArg _ hmem).trans rfl
    have hfirst := step_write (s := { oneMegabyte 4096 with mem := mem }) hword 0 fun _ => 1
    have hsecond := step_write
      (s := MemdevSys.write 5 { oneMegabyte 4096 with mem := mem } 0 0 0 0 none fun _ => 1)
      hword 1 fun _ => 2
    refine ⟨_, by rw [exec_cons, halloc, Option.bind_some, exec_cons, hfirst, Option.bind_some,
      exec_cons, hsecond]; rfl, fun hstored => ?_⟩
    have hlast := (hstored.last 0 0 hword 0 0 (fun _ => 0) (.inr rfl) rfl).1 (fun _ => 1) rfl 0
      (by simp [subblockBytes, dmaLen, memPageShift])
    simp [read, write, empMemdevPostWrite, empMemdevPostRead, oneMegabyte, createConn,
      copyFromUser, copyToUser, dmaLen, dmaSize, memregsWdmaSize, memPageShift] at hlast

end MemdevSys

end Emp
