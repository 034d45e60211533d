import Emp.Evict.Requests
import Emp.Lib.Transition

/-!
# Clearing a block that was written back

The requests of a block are posted one after the other, complete in any order, and are waited for
by whoever clears the block: the reclaimer, which gives up the local pages, or a fault and
`check_eager_wbr`, which keep them.  Each request should be freed once, and each subblock be
released once and after all writes.

Two things prevent it.  A post that a full send queue refuses stays counted on the head, so the
last request that is waited for is never the last one to be counted off; and a failed write is
recorded at the head alone, so nobody who waits for a sibling hears of it, and a chain is cleared
when the first of its writes has failed, with the others still to be reported.

## Main definitions

* `EvictEvent`, `EvictRun.step` — the steps of a writeback.
* `EvictRun.WritebackOk` — what should hold of it.
* `EvictRun.Sound` — the steps that keep it.
-/

namespace Emp

/-- How far a writeback is. -/
inductive EvictPhase
  | posting
  | posted
  | clearing (doReclaim : Bool)
  | cleared (doReclaim : Bool)
  deriving DecidableEq, Repr

/-- A block with its writeback and its donors. -/
structure EvictRun where
  place : EvictPlace
  block : EvictedBlock
  phase : EvictPhase

/-- The steps: a turn of the loop that posts, the end of that loop, the reports of the device, and
the clear, which waits for one request after the other. -/
inductive EvictEvent
  | post (full : ℕ) (failed : Bool)
  | endPosts
  | complete (w : ℕ) (ok : Bool)
  | endIo (w : ℕ)
  | beginClear (doReclaim : Bool)
  | clearNext
  deriving DecidableEq, Repr

namespace EvictRun

variable (s : EvictRun)

/-- The requests of subblocks that were posted. -/
def HasPosted (w : ℕ) : Prop := w < s.block.posted

instance (w : ℕ) : Decidable (s.HasPosted w) := inferInstanceAs (Decidable (w < _))

/-- The device reports request `w`: of a chain, which is handed over as a whole, the last one if
all have succeeded. -/
def canComplete (w : ℕ) (ok : Bool) : Bool :=
  decide (s.HasPosted w) && s.place.dmaOps w == .rdma && !s.block.done w &&
    (!s.place.chainedOps || s.phase != .posting &&
      (!ok || w + 1 == s.block.posted && decide (∀ v < s.block.posted, s.block.done v = false)))

/-- What the device is done with when it reports request `w`. -/
def markDone (w : ℕ) (ok : Bool) : EvictedBlock :=
  { s.block.handleRdmaWrite w ok with
    done := if ok && s.place.chainedOps then
        fun v => decide (v < s.block.posted) || s.block.done v
      else Function.update s.block.done w true }

/-- The clear takes the block off the list, or the handle of an eager writeback apart. -/
def startClear : EvictedBlock :=
  match s.block.eagerW with
  | some w =>
      { s.block with
        w := Function.update s.block.w 0 (.wr w), eagerW := none, eagerWbr := false }
  | none => { s.block with onList := false }

/-- The clear of request `w`, the last one if it is the head. -/
def clearRequest (w : ℕ) (doReclaim last : Bool) : EvictRun :=
  { s with
    block := s.block.clearWritebackWorkRequest s.place w doReclaim
    phase := if last then .cleared doReclaim else s.phase }

/-- `list_del_init` of the first sibling of the head `h`. -/
def popSibling (h : ℕ) : EvictRun :=
  { s with block := { s.block with
    wr := s.block.wr.modify h fun r => { r with subsibling := r.subsibling.tail } } }

/-- A turn of `__clear_writeback_block`. -/
def clearNext (doReclaim : Bool) : Option EvictRun :=
  match s.block.headWr with
  | some h =>
      match (s.block.wr.cell h).subsibling with
      | v :: _ =>
          let t := s.popSibling h
          if t.block.waitEnds v then some (t.clearRequest v doReclaim false) else none
      | [] => if s.block.waitEnds h then some (s.clearRequest h doReclaim true) else none
  | none => none

/-- One step; `none` if it is not possible. -/
def step : EvictRun → EvictEvent → Option EvictRun
  | s, .post full failed =>
      if s.phase = .posting ∧ s.block.posted < s.place.numSubblock ∧
          (full = 0 ∨ s.place.dmaOps s.block.posted = .rdma ∧ s.place.chainedOps = false) then
        some { s with block := s.block.postSubblock s.place full failed }
      else none
  | s, .endPosts =>
      if s.phase = .posting ∧ s.block.posted = s.place.numSubblock then
        some { s with block := s.block.endPosts s.place, phase := .posted }
      else none
  | s, .complete w ok =>
      if s.canComplete w ok then some { s with block := s.markDone w ok } else none
  | s, .endIo w =>
      if s.HasPosted w ∧ s.place.dmaOps w = .nvme ∧ s.block.done w = false then
        some { s with
          block := { s.block.bdevEndIo w with done := Function.update s.block.done w true } }
      else none
  | s, .beginClear doReclaim =>
      if s.phase = .posted ∧ (s.place.eager = true → doReclaim = false) then
        some { s with block := s.startClear, phase := .clearing doReclaim }
      else none
  | s, .clearNext =>
      match s.phase with
      | .clearing doReclaim => s.clearNext doReclaim
      | _ => none

/-- A block with a subblock at least, and nothing posted; requests of RDMA alone are chained. -/
structure Start (s : EvictRun) : Prop where
  block : ∃ rState, s.block = .unposted rState
  phase : s.phase = .posting
  numSubblock : 0 < s.place.numSubblock
  chained : s.place.chainedOps = true → ∀ i, s.place.dmaOps i = .rdma

/-- What should hold of a writeback. -/
structure WritebackOk (s : EvictRun) : Prop where
  frees : ∀ w, s.block.wr.frees w ≤ 1
  stale : s.block.wr.stale = false
  subblocks : ∀ i, s.block.puts i ≤ s.block.gets i ∧ s.block.unlocks i ≤ s.block.locks i
  reclaims : ∀ i, s.block.reclaims i ≤ 1 ∧
    (0 < s.block.reclaims i → ∀ j < s.place.numSubblock, s.block.done j = true)
  pointers : ∀ w, s.block.wr.frees w ≠ 0 → s.block.eagerW ≠ some w ∧ ∀ i, s.block.w i ≠ .wr w
  cleared : ∀ doReclaim, s.phase = .cleared doReclaim → ∀ i < s.place.numSubblock,
    s.block.wr.frees i = 1 ∧ s.block.gets i = 1 ∧ s.block.puts i = 1 ∧ s.block.locks i = 1 ∧
      s.block.unlocks i = 1 ∧ s.block.reclaims i = if doReclaim then 1 else 0
  progress : ∀ doReclaim, s.phase = .clearing doReclaim →
    (∀ j < s.place.numSubblock, s.block.done j = true) → (s.clearNext doReclaim).isSome = true

/-- A full send queue refuses the head only, an independent request that fails is the head, and a
chain is not cleared before its last completion. -/
def Sound (s : EvictRun) : EvictEvent → Prop
  | .post full _ => full = 0 ∨ s.block.posted = 0
  | .complete w ok => ok = true ∨ w = 0 ∨ s.place.chainedOps = true
  | .clearNext => s.place.chainedOps = true →
      ∀ j < s.place.numSubblock, s.block.done j = true
  | _ => True

variable {s s' : EvictRun}

/-! ## The invariant -/

/-- The requests hang together: `remote_pages` and the siblings of the head are all others, and
the head counts itself and its siblings. -/
structure Linked (p : EvictPlace) (b : EvictedBlock) : Prop where
  headWr : b.headWr = if b.posted = 0 then none else some 0
  cells : ∀ i < b.posted, (b.wr.cell i).headWr = 0 ∧ (b.wr.cell i).chainedOps = p.chainedOps ∧
    (b.wr.cell i).dmaOps = p.dmaOps i
  lists : 0 < b.posted → (b.wr.cell 0).remotePages ++ (b.wr.cell 0).subsibling =
    List.range' 1 (b.posted - 1)
  refc : 0 < b.posted → (b.wr.cell 0).wrRefc = 1 + (b.wr.cell 0).subsibling.length
  siblings : p.chainedOps = true → 0 < b.posted → (b.wr.cell 0).subsibling = []

/-- Whether the waits would end tells what the device is done with: of a chain only that it has
reported something. -/
structure Reported (p : EvictPlace) (b : EvictedBlock) : Prop where
  single : p.chainedOps = false → ∀ i < b.posted, b.waitEnds i = b.done i
  chain : p.chainedOps = true → (∃ i < b.posted, b.done i = true) → b.waitEnds 0 = true
  waited : p.chainedOps = false → 0 < b.posted → ∀ v ∈ (b.wr.cell 0).remotePages, b.done v = true

/-- Nothing was freed or released. -/
structure Held (p : EvictPlace) (b : EvictedBlock) : Prop where
  frees : b.wr.frees = fun _ => 0
  stale : b.wr.stale = false
  gets : ∀ i, b.gets i = if i < b.posted then 1 else 0
  locks : ∀ i, b.locks i = if i < b.posted then 1 else 0
  puts : b.puts = fun _ => 0
  unlocks : b.unlocks = fun _ => 0
  reclaims : b.reclaims = fun _ => 0
  beyond : ∀ i, p.numSubblock ≤ i → b.w i = .null

/-- A writeback before it is cleared. -/
structure Running (s : EvictRun) : Prop where
  linked : Linked s.place s.block
  reported : Reported s.place s.block
  held : Held s.place s.block
  le : s.block.posted ≤ s.place.numSubblock
  all : s.phase ≠ .posting → s.block.posted = s.place.numSubblock
  chain : s.place.chainedOps = true → s.phase ≠ .posting → (s.block.wr.cell 0).ehWr = some 0
  handle : ∀ doReclaim, s.phase = .clearing doReclaim → s.block.eagerW = none

/-- A writeback that has been cleared. -/
structure Over (s : EvictRun) (doReclaim : Bool) : Prop where
  frees : ∀ i, s.block.wr.frees i = if i < s.place.numSubblock then 1 else 0
  stale : s.block.wr.stale = false
  all : s.block.posted = s.place.numSubblock
  taken : ∀ i, s.block.gets i = (if i < s.place.numSubblock then 1 else 0) ∧
    s.block.locks i = if i < s.place.numSubblock then 1 else 0
  released : ∀ i, s.block.puts i = (if i < s.place.numSubblock then 1 else 0) ∧
    s.block.unlocks i = if i < s.place.numSubblock then 1 else 0
  reclaims : ∀ i, s.block.reclaims i =
    if i < s.place.numSubblock ∧ doReclaim = true then 1 else 0
  done : ∀ i < s.place.numSubblock, s.block.done i = true
  pointers : (∀ i, s.block.w i = .null) ∧ s.block.eagerW = none

/-- The invariant. -/
structure Inv (s : EvictRun) : Prop where
  numSubblock : 0 < s.place.numSubblock
  chained : s.place.chainedOps = true → ∀ i, s.place.dmaOps i = .rdma
  running : (∀ r, s.phase ≠ .cleared r) → Running s
  ended : ∀ r, s.phase = .cleared r → Over s r

/-! ## Posting -/

section Post

variable {p : EvictPlace} {b : EvictedBlock} (full : ℕ) (failed : Bool)

/-- What a post changes apart from the requests. -/
theorem postSubblock_fields : (b.postSubblock p full failed).posted = b.posted + 1 ∧
    (b.postSubblock p full failed).headWr = some (b.headWr.getD b.posted) ∧
    (b.postSubblock p full failed).gets = Function.update b.gets b.posted (b.gets b.posted + 1) ∧
    (b.postSubblock p full failed).locks =
      Function.update b.locks b.posted (b.locks b.posted + 1) ∧
    (b.postSubblock p full failed).done =
      Function.update b.done b.posted (p.dmaOps b.posted == .memdev) ∧
    (b.postSubblock p full failed).wr.frees = b.wr.frees := by
  cases hh : b.headWr <;> cases hc : p.chainedOps <;> cases he : p.eager <;>
    simp [EvictedBlock.postSubblock, EvictedBlock.takeSubblock, EvictedBlock.refusePosts,
      EvictedBlock.postWrite, EvictedBlock.linkRequest, EvictedBlock.addRefc, hh, hc, he]

/-- What a post leaves as it is. -/
theorem postSubblock_same : (b.postSubblock p full failed).puts = b.puts ∧
    (b.postSubblock p full failed).unlocks = b.unlocks ∧
    (b.postSubblock p full failed).reclaims = b.reclaims ∧
    (b.postSubblock p full failed).eagerW = b.eagerW ∧
    ∀ i ≠ b.posted, (b.postSubblock p full failed).w i = b.w i := by
  cases hh : b.headWr <;> cases hc : p.chainedOps <;> cases he : p.eager <;>
    simp +contextual [EvictedBlock.postSubblock, EvictedBlock.takeSubblock,
      EvictedBlock.refusePosts, EvictedBlock.postWrite, EvictedBlock.linkRequest,
      EvictedBlock.addRefc, hh, hc, he]

theorem stale_postSubblock (hf : b.wr.frees = fun _ => 0) :
    (b.postSubblock p full failed).wr.stale = b.wr.stale := by
  cases hh : b.headWr <;> cases hc : p.chainedOps <;> cases he : p.eager <;>
    simp [EvictedBlock.postSubblock, EvictedBlock.takeSubblock, EvictedBlock.refusePosts,
      EvictedBlock.postWrite, EvictedBlock.linkRequest, EvictedBlock.addRefc, Heap.modify,
      Heap.touch, hh, hc, he, hf]

/-- The request of the head. -/
theorem cell_postSubblock_first (hh : b.headWr = none) (hp : b.posted = 0) (v : ℕ) :
    (b.postSubblock p full failed).wr.cell v =
      if v = 0 then { p.postedRequest 0 none failed with wrRefc := 1 } else b.wr.cell v := by
  by_cases hv : v = 0
  · subst hv
    cases he : p.eager <;>
      simp [EvictedBlock.postSubblock, EvictedBlock.takeSubblock, EvictedBlock.refusePosts,
        EvictedBlock.postWrite, EvictedBlock.linkRequest, EvictedBlock.addRefc, hh, hp, he,
        EvictPlace.postedRequest]
  · cases he : p.eager <;>
      simp [EvictedBlock.postSubblock, EvictedBlock.takeSubblock, EvictedBlock.refusePosts,
        EvictedBlock.postWrite, EvictedBlock.linkRequest, EvictedBlock.addRefc, hh, hp, he, hv]

/-- The request of another subblock, which hangs from the head. -/
theorem cell_postSubblock_next (hh : b.headWr = some 0) (hp : b.posted ≠ 0) (v : ℕ) :
    (b.postSubblock p full failed).wr.cell v =
      if v = b.posted then p.postedRequest b.posted (some 0) failed
      else if v = 0 then { b.wr.cell 0 with
        wrRefc := (b.wr.cell 0).wrRefc + full + (if p.chainedOps then 0 else 1)
        remotePages := (b.wr.cell 0).remotePages ++ (if p.chainedOps then [b.posted] else [])
        subsibling := (b.wr.cell 0).subsibling ++ (if p.chainedOps then [] else [b.posted]) }
      else b.wr.cell v := by
  have hp' : 0 ≠ b.posted := Ne.symm hp
  by_cases hv : v = b.posted
  · subst hv
    cases hc : p.chainedOps <;> cases he : p.eager <;>
      simp [EvictedBlock.postSubblock, EvictedBlock.takeSubblock, EvictedBlock.refusePosts,
        EvictedBlock.postWrite, EvictedBlock.linkRequest, EvictedBlock.addRefc, hh, hc, he, hp,
        EvictPlace.postedRequest]
  · by_cases hv0 : v = 0
    · subst hv0
      cases hc : p.chainedOps <;> cases he : p.eager <;>
        simp [EvictedBlock.postSubblock, EvictedBlock.takeSubblock, EvictedBlock.refusePosts,
          EvictedBlock.postWrite, EvictedBlock.linkRequest, EvictedBlock.addRefc, hh, hc, he, hp']
    · cases hc : p.chainedOps <;> cases he : p.eager <;>
        simp [EvictedBlock.postSubblock, EvictedBlock.takeSubblock, EvictedBlock.refusePosts,
          EvictedBlock.postWrite, EvictedBlock.linkRequest, EvictedBlock.addRefc, hh, hc, he, hv,
          hv0]

/-- The request that was posted last. -/
theorem cell_postSubblock_last (hl : Linked p b) :
    ((b.postSubblock p full failed).wr.cell b.posted).headWr = 0 ∧
      ((b.postSubblock p full failed).wr.cell b.posted).chainedOps = p.chainedOps ∧
      ((b.postSubblock p full failed).wr.cell b.posted).dmaOps = p.dmaOps b.posted ∧
      ((b.postSubblock p full failed).wr.cell b.posted).waitDone = false ∧
      ((b.postSubblock p full failed).wr.cell b.posted).state =
        if p.dmaOps b.posted = .memdev then (if failed then .pwFailed else .ready)
        else .postWrite := by
  by_cases hp : b.posted = 0
  · have hh : b.headWr = none := by rw [hl.headWr, if_pos hp]
    rw [cell_postSubblock_first full failed hh hp, if_pos hp, hp]
    exact ⟨rfl, rfl, rfl, rfl, rfl⟩
  · have hh : b.headWr = some 0 := by rw [hl.headWr, if_neg hp]
    rw [cell_postSubblock_next full failed hh hp, if_pos rfl]
    exact ⟨rfl, rfl, rfl, rfl, rfl⟩

/-- The requests that were posted before. -/
theorem cell_postSubblock_before (hl : Linked p b) {v : ℕ} (hv : v < b.posted) :
    ((b.postSubblock p full failed).wr.cell v).headWr = (b.wr.cell v).headWr ∧
      ((b.postSubblock p full failed).wr.cell v).chainedOps = (b.wr.cell v).chainedOps ∧
      ((b.postSubblock p full failed).wr.cell v).dmaOps = (b.wr.cell v).dmaOps ∧
      ((b.postSubblock p full failed).wr.cell v).waitDone = (b.wr.cell v).waitDone ∧
      ((b.postSubblock p full failed).wr.cell v).state = (b.wr.cell v).state := by
  have hp : b.posted ≠ 0 := by omega
  have hh : b.headWr = some 0 := by rw [hl.headWr, if_neg hp]
  rw [cell_postSubblock_next full failed hh hp, if_neg (Nat.ne_of_lt hv)]
  by_cases h0 : v = 0
  · rw [if_pos h0, h0]
    exact ⟨rfl, rfl, rfl, rfl, rfl⟩
  · rw [if_neg h0]
    exact ⟨rfl, rfl, rfl, rfl, rfl⟩

theorem linked_postSubblock (hl : Linked p b) (hfull : full = 0 ∨ b.posted = 0) :
    Linked p (b.postSubblock p full failed) := by
  obtain ⟨hpo, hhd, -⟩ := postSubblock_fields (p := p) (b := b) full failed
  by_cases hp : b.posted = 0
  · have hh : b.headWr = none := by rw [hl.headWr, if_pos hp]
    have h0 := cell_postSubblock_first (p := p) full failed hh hp 0
    rw [if_pos rfl] at h0
    refine ⟨?_, fun i hi => ?_, fun _ => ?_, fun _ => ?_, fun _ _ => ?_⟩
    · rw [hhd, hpo, hh, if_neg (Nat.succ_ne_zero _), hp]
      rfl
    · obtain rfl : i = b.posted := by omega
      have hlast := cell_postSubblock_last full failed hl
      exact ⟨hlast.1, hlast.2.1, hlast.2.2.1⟩
    · rw [h0, hpo, hp]
      rfl
    · rw [h0]
      rfl
    · rw [h0]
      rfl
  · have hh : b.headWr = some 0 := by rw [hl.headWr, if_neg hp]
    have hpos : 0 < b.posted := Nat.pos_of_ne_zero hp
    have hzero : full = 0 := hfull.resolve_right hp
    have h0 := cell_postSubblock_next (p := p) full failed hh hp 0
    rw [if_neg (Ne.symm hp), if_pos rfl] at h0
    have hlists := hl.lists hpos
    have hlen : List.range' 1 (b.posted + 1 - 1) =
        List.range' 1 (b.posted - 1) ++ [b.posted] := by
      rw [show b.posted + 1 - 1 = (b.posted - 1) + 1 from by omega, List.range'_1_concat]
      rw [show 1 + (b.posted - 1) = b.posted from by omega]
    refine ⟨?_, fun i hi => ?_, fun _ => ?_, fun _ => ?_, fun hc _ => ?_⟩
    · rw [hhd, hpo, hh, if_neg (Nat.succ_ne_zero _)]
      rfl
    · by_cases hib : i = b.posted
      · subst hib
        have hlast := cell_postSubblock_last full failed hl
        exact ⟨hlast.1, hlast.2.1, hlast.2.2.1⟩
      · have hi' : i < b.posted := by omega
        obtain ⟨hw, hch, hops, -⟩ := cell_postSubblock_before full failed hl hi'
        rw [hw, hch, hops]
        exact hl.cells i hi'
    · rw [h0, hpo, hlen, ← hlists]
      cases hc : p.chainedOps with
      | true => simp [hl.siblings hc hpos]
      | false => simp
    · rw [h0, hzero]
      have hrefc := hl.refc hpos
      cases hc : p.chainedOps with
      | true => simp [hrefc]
      | false =>
          simp [hrefc]
          omega
    · rw [h0]
      simp [hc, hl.siblings hc hpos]

/-- A wait depends on the state of the request only. -/
theorem waitEnds_congr {b' : EvictedBlock} {v : ℕ}
    (hops : (b'.wr.cell v).dmaOps = (b.wr.cell v).dmaOps)
    (hd : (b'.wr.cell v).waitDone = (b.wr.cell v).waitDone)
    (hst : (b'.wr.cell v).state = (b.wr.cell v).state) : b'.waitEnds v = b.waitEnds v := by
  simp only [EvictedBlock.waitEnds, hops, hd, hst]

theorem waitEnds_postSubblock_last (hl : Linked p b) :
    (b.postSubblock p full failed).waitEnds b.posted = (p.dmaOps b.posted == .memdev) := by
  obtain ⟨-, -, hops, hd, hst⟩ := cell_postSubblock_last full failed hl
  simp only [EvictedBlock.waitEnds, hops, hd, hst]
  cases p.dmaOps b.posted <;> rfl

theorem reported_postSubblock (hl : Linked p b) (hr : Reported p b)
    (hchain : p.chainedOps = true → p.dmaOps b.posted = .rdma) :
    Reported p (b.postSubblock p full failed) := by
  obtain ⟨hpo, -, -, -, hdone, -⟩ :=
    postSubblock_fields (p := p) (b := b) full failed
  have hbefore : ∀ v < b.posted, (b.postSubblock p full failed).done v = b.done v ∧
      (b.postSubblock p full failed).waitEnds v = b.waitEnds v := by
    intro v hv
    obtain ⟨-, -, hops, hd, hst⟩ := cell_postSubblock_before full failed hl hv
    refine ⟨?_, waitEnds_congr hops hd hst⟩
    rw [hdone, Function.update_of_ne (Nat.ne_of_lt hv)]
  have hlast : (b.postSubblock p full failed).done b.posted = (p.dmaOps b.posted == .memdev) := by
    rw [hdone, Function.update_self]
  refine ⟨fun hc i hi => ?_, fun hc hex => ?_, fun hc _ v hv => ?_⟩
  · by_cases hib : i = b.posted
    · rw [hib, waitEnds_postSubblock_last full failed hl, hlast]
    · obtain ⟨hd, hw⟩ := hbefore i (by omega)
      rw [hd, hw, hr.single hc i (by omega)]
  · obtain ⟨i, hi, hdi⟩ := hex
    by_cases hib : i = b.posted
    · rw [hib, hlast, hchain hc] at hdi
      cases hdi
    · obtain ⟨hd, -⟩ := hbefore i (by omega)
      rw [(hbefore 0 (by omega)).2]
      exact hr.chain hc ⟨i, by omega, hd ▸ hdi⟩
  · by_cases hp : b.posted = 0
    · have hh : b.headWr = none := by rw [hl.headWr, if_pos hp]
      rw [cell_postSubblock_first full failed hh hp, if_pos rfl] at hv
      simp [EvictPlace.postedRequest] at hv
    · have hh : b.headWr = some 0 := by rw [hl.headWr, if_neg hp]
      have hpos := Nat.pos_of_ne_zero hp
      rw [cell_postSubblock_next full failed hh hp, if_neg (Ne.symm hp), if_pos rfl] at hv
      simp only [hc, Bool.false_eq_true, if_false, List.append_nil] at hv
      have hvlt : v < b.posted := by
        have hmem : v ∈ List.range' 1 (b.posted - 1) := by
          rw [← hl.lists hpos]
          exact List.mem_append_left _ hv
        rw [List.mem_range'_1] at hmem
        omega
      rw [(hbefore v hvlt).1]
      exact hr.waited hc hpos v hv

theorem held_postSubblock (hh : Held p b) (hlt : b.posted < p.numSubblock) :
    Held p (b.postSubblock p full failed) := by
  obtain ⟨hpo, -, hgets, hlocks, -, hfr⟩ :=
    postSubblock_fields (p := p) (b := b) full failed
  obtain ⟨hputs, hunl, hrec, -, hw⟩ :=
    postSubblock_same (p := p) (b := b) full failed
  refine ⟨hfr.trans hh.frees, (stale_postSubblock full failed hh.frees).trans hh.stale, fun i => ?_,
    fun i => ?_, hputs.trans hh.puts, hunl.trans hh.unlocks, hrec.trans hh.reclaims, fun i hi => ?_⟩
  · rw [hgets, hpo]
    by_cases hi : i = b.posted
    · subst hi
      simp [hh.gets]
    · have hiff : i < b.posted + 1 ↔ i < b.posted := by omega
      simp [hi, hh.gets, hiff]
  · rw [hlocks, hpo]
    by_cases hi : i = b.posted
    · subst hi
      simp [hh.locks]
    · have hiff : i < b.posted + 1 ↔ i < b.posted := by omega
      simp [hi, hh.locks, hiff]
  · rw [hw i (by omega)]
    exact hh.beyond i hi

end Post

/-! ## Reports of the device -/

section Report

variable {p : EvictPlace} {b b' : EvictedBlock}

/-- The links do not depend on the states. -/
theorem linked_congr (hl : Linked p b) (hp : b'.posted = b.posted) (hh : b'.headWr = b.headWr)
    (hc : ∀ i, ∃ st d e, b'.wr.cell i =
      { b.wr.cell i with state := st, waitDone := d, ehWr := e }) : Linked p b' := by
  obtain ⟨st, d, e, h0⟩ := hc 0
  refine ⟨by rw [hh, hp]; exact hl.headWr, fun i hi => ?_, fun hpos => ?_, fun hpos => ?_,
    fun hch hpos => ?_⟩
  · obtain ⟨st, d, e, hi'⟩ := hc i
    rw [hi']
    exact hl.cells i (hp ▸ hi)
  · rw [h0, hp]
    exact hl.lists (hp ▸ hpos)
  · rw [h0]
    exact hl.refc (hp ▸ hpos)
  · rw [h0]
    exact hl.siblings hch (hp ▸ hpos)

/-- The states of the requests are not among what is held. -/
theorem held_congr (hh : Held p b) (hf : b'.wr.frees = b.wr.frees)
    (hs : b'.wr.stale = b.wr.stale) (hp : b'.posted = b.posted) (hg : b'.gets = b.gets)
    (hlk : b'.locks = b.locks) (hpu : b'.puts = b.puts) (hu : b'.unlocks = b.unlocks)
    (hr : b'.reclaims = b.reclaims) (hw : ∀ i, p.numSubblock ≤ i → b'.w i = b.w i) : Held p b' :=
  ⟨hf.trans hh.frees, hs.trans hh.stale, fun i => by rw [hg, hp]; exact hh.gets i,
    fun i => by rw [hlk, hp]; exact hh.locks i, hpu.trans hh.puts, hu.trans hh.unlocks,
    hr.trans hh.reclaims, fun i hi => (hw i hi).trans (hh.beyond i hi)⟩

theorem reported_congr (hr : Reported p b) (hp : b'.posted = b.posted) (hd : b'.done = b.done)
    (hw : ∀ i, b'.waitEnds i = b.waitEnds i)
    (hpages : (b'.wr.cell 0).remotePages = (b.wr.cell 0).remotePages) : Reported p b' := by
  refine ⟨fun hc i hi => ?_, fun hc hex => ?_, fun hc hpos v hv => ?_⟩
  · rw [hw, hd]
    exact hr.single hc i (hp ▸ hi)
  · rw [hp, hd] at hex
    rw [hw]
    exact hr.chain hc hex
  · rw [hpages] at hv
    rw [hd]
    exact hr.waited hc (hp ▸ hpos) v hv

/-- The device is done with a request more, and the wait for it would end. -/
theorem reported_done (hr : Reported p b) {w : ℕ}
    (hp : b'.posted = b.posted) (hd : b'.done = Function.update b.done w true)
    (hpages : (b'.wr.cell 0).remotePages = (b.wr.cell 0).remotePages)
    (hsame : p.chainedOps = false → ∀ i ≠ w, b'.waitEnds i = b.waitEnds i)
    (hends : p.chainedOps = false → b'.waitEnds w = true)
    (hchain : p.chainedOps = true → b'.waitEnds 0 = true) : Reported p b' := by
  refine ⟨fun hc i hi => ?_, fun hc _ => hchain hc, fun hc hpos v hv => ?_⟩
  · rw [hd]
    by_cases hiw : i = w
    · rw [hiw, Function.update_self, hends hc]
    · rw [Function.update_of_ne hiw, hsame hc i hiw]
      exact hr.single hc i (hp ▸ hi)
  · rw [hpages] at hv
    rw [hd]
    by_cases hvw : v = w
    · rw [hvw, Function.update_self]
    · rw [Function.update_of_ne hvw]
      exact hr.waited hc (hp ▸ hpos) v hv

/-- The heap after a completion. -/
theorem wr_handleRdmaWrite (hl : Linked p b) {w : ℕ} (hw : w < b.posted) (ok : Bool) :
    (b.handleRdmaWrite w ok).wr =
      ((b.wr.touch w).touch 0).modify
        (if ok then (if p.chainedOps then (b.wr.cell 0).ehWr.getD 0 else w) else 0)
        fun r => { r with state := if ok then .ready else .pwFailed } := by
  obtain ⟨hh, hc, -⟩ := hl.cells w hw
  cases ok <;> simp [EvictedBlock.handleRdmaWrite, hh, hc]

/-- A write that has become ready or failed is one that a wait ends for. -/
theorem waitEnds_rdma {v : ℕ} (hops : (b.wr.cell v).dmaOps = .rdma)
    (hst : (b.wr.cell v).state = .ready ∨ (b.wr.cell v).state = .pwFailed) :
    b.waitEnds v = true := by
  simp only [EvictedBlock.waitEnds, hops]
  rcases hst with hst | hst <;> rw [hst] <;> rfl

end Report

theorem running_complete (h : Running s)
    (hch : s.place.chainedOps = true → ∀ i, s.place.dmaOps i = .rdma)
    {w : ℕ} {ok : Bool} (hok : s.Sound (.complete w ok)) (hg : s.canComplete w ok = true) :
    Running { s with block := s.markDone w ok } := by
  simp only [canComplete, Bool.and_eq_true, decide_eq_true_eq, beq_iff_eq,
    Bool.not_eq_true'] at hg
  obtain ⟨⟨⟨hw, hops⟩, -⟩, hchain⟩ := hg
  have hw : w < s.block.posted := hw
  have hwr := wr_handleRdmaWrite h.linked hw ok
  have hpos : 0 < s.block.posted := by omega
  -- the request whose state is written
  have htarget : (if ok then (if s.place.chainedOps then (s.block.wr.cell 0).ehWr.getD 0 else w)
      else 0) = if s.place.chainedOps then 0 else w := by
    cases hc : s.place.chainedOps with
    | true =>
        have hph : s.phase ≠ .posting := by
          intro hph
          simp [hc, hph] at hchain
        simp [h.chain hc hph]
    | false =>
        cases ok with
        | true => rfl
        | false =>
            have hw0 : w = 0 := by
              rcases hok with hok | hok | hok
              · cases hok
              · exact hok
              · rw [hc] at hok
                cases hok
            simp [hw0]
  rw [htarget] at hwr
  have hcell : ∀ i, (s.markDone w ok).wr.cell i =
      if i = (if s.place.chainedOps then 0 else w) then
        { s.block.wr.cell i with state := if ok then .ready else .pwFailed }
      else s.block.wr.cell i := by
    intro i
    rw [show (s.markDone w ok).wr = (s.block.handleRdmaWrite w ok).wr from rfl, hwr]
    by_cases hi : i = (if s.place.chainedOps then 0 else w)
    · rw [if_pos hi, ← hi, Heap.cell_modify_self]
      rfl
    · rw [if_neg hi, Heap.cell_modify_of_ne _ _ hi]
      rfl
  have hends : ∀ v, v = (if s.place.chainedOps then 0 else w) →
      (s.block.wr.cell v).dmaOps = .rdma → (s.markDone w ok).waitEnds v = true := by
    intro v hv hvops
    apply waitEnds_rdma
    · rw [hcell v, if_pos hv]
      exact hvops
    · rw [hcell v, if_pos hv]
      cases ok
      · exact .inr rfl
      · exact .inl rfl
  have hops' : (s.block.wr.cell w).dmaOps = .rdma := (h.linked.cells w hw).2.2.trans hops
  have hfields : (s.markDone w ok).posted = s.block.posted ∧
      (s.markDone w ok).headWr = s.block.headWr ∧ (s.markDone w ok).gets = s.block.gets ∧
      (s.markDone w ok).locks = s.block.locks ∧ (s.markDone w ok).puts = s.block.puts ∧
      (s.markDone w ok).unlocks = s.block.unlocks ∧
      (s.markDone w ok).reclaims = s.block.reclaims ∧ (s.markDone w ok).w = s.block.w ∧
      (s.markDone w ok).eagerW = s.block.eagerW := by
    cases ok <;> exact ⟨rfl, rfl, rfl, rfl, rfl, rfl, rfl, rfl, rfl⟩
  obtain ⟨hpo, hhd, hg, hlk, hpu, hu, hrec, hwp, heg⟩ := hfields
  refine ⟨?_, ?_, ?_, by rw [hpo]; exact h.le, fun hph => by rw [hpo]; exact h.all hph,
    fun hc hph => ?_, fun r hph => heg.trans (h.handle r hph)⟩
  · refine linked_congr h.linked hpo hhd fun i => ?_
    rw [hcell i]
    by_cases hi : i = (if s.place.chainedOps then 0 else w)
    · rw [if_pos hi]
      exact ⟨_, _, _, rfl⟩
    · rw [if_neg hi]
      exact ⟨_, _, _, rfl⟩
  · have hpages : ((s.markDone w ok).wr.cell 0).remotePages =
        (s.block.wr.cell 0).remotePages := by
      rw [hcell 0]
      by_cases hi : 0 = (if s.place.chainedOps then 0 else w)
      · rw [if_pos hi]
      · rw [if_neg hi]
    cases hc : s.place.chainedOps with
    | true =>
        have h0 : (s.markDone w ok).waitEnds 0 = true :=
          hends 0 (by rw [hc]; rfl) ((h.linked.cells 0 hpos).2.2.trans (hch hc 0))
        exact ⟨fun hf => absurd hf (by rw [hc]; decide), fun _ _ => h0,
          fun hf => absurd hf (by rw [hc]; decide)⟩
    | false =>
        refine reported_done h.reported (w := w) hpo ?_ hpages (fun _ i hi => ?_)
          (fun _ => hends w (by simp [hc]) hops') fun hf => absurd hf (by rw [hc]; decide)
        · simp [markDone, hc]
        · have hci := hcell i
          rw [if_neg (by simpa [hc] using hi)] at hci
          exact waitEnds_congr (by rw [hci]) (by rw [hci]) (by rw [hci])
  · refine held_congr h.held (by rw [show (s.markDone w ok).wr = _ from hwr]; rfl) ?_ hpo hg hlk hpu
      hu hrec fun i _ => by rw [hwp]
    rw [show (s.markDone w ok).wr = _ from hwr]
    have hfr : ∀ i, s.block.wr.frees i = 0 := fun i => by rw [h.held.frees]
    simp [Heap.modify, Heap.touch, hfr]
  · have hcell0 := hcell 0
    rw [if_pos (by rw [hc]; rfl)] at hcell0
    rw [hcell0]
    exact h.chain hc hph

theorem running_endIo (h : Running s)
    (hch : s.place.chainedOps = true → ∀ i, s.place.dmaOps i = .rdma)
    {w : ℕ} (hw : w < s.block.posted) (hops : s.place.dmaOps w = .nvme) :
    Running { s with
      block := { s.block.bdevEndIo w with done := Function.update s.block.done w true } } := by
  have hcell : ∀ i, (s.block.bdevEndIo w).wr.cell i =
      if i = w then { s.block.wr.cell i with waitDone := true } else s.block.wr.cell i := by
    intro i
    by_cases hi : i = w
    · subst hi
      simp [EvictedBlock.bdevEndIo]
    · simp [EvictedBlock.bdevEndIo, hi]
  have hno : s.place.chainedOps = false := by
    cases hc : s.place.chainedOps with
    | true =>
        rw [hch hc w] at hops
        cases hops
    | false => rfl
  refine ⟨?_, ?_, ?_, h.le, h.all, fun hc => absurd hc (by rw [hno]; decide), h.handle⟩
  · refine linked_congr h.linked rfl rfl fun i => ?_
    rw [hcell i]
    by_cases hi : i = w
    · rw [if_pos hi]
      exact ⟨_, _, _, rfl⟩
    · rw [if_neg hi]
      exact ⟨_, _, _, rfl⟩
  · refine reported_done h.reported (w := w) rfl rfl ?_ (fun _ i hi => ?_) (fun _ => ?_)
      fun hf => absurd hf (by rw [hno]; decide)
    · show ((s.block.bdevEndIo w).wr.cell 0).remotePages = _
      rw [hcell 0]
      by_cases hi : 0 = w
      · rw [if_pos hi]
      · rw [if_neg hi]
    · have hci := hcell i
      rw [if_neg hi] at hci
      exact waitEnds_congr (congrArg WbRequest.dmaOps hci) (congrArg WbRequest.waitDone hci)
        (congrArg WbRequest.state hci)
    · have hcw := hcell w
      rw [if_pos rfl] at hcw
      have hdma : ((s.block.bdevEndIo w).wr.cell w).dmaOps = .nvme := by
        rw [hcw]
        exact (h.linked.cells w hw).2.2.trans hops
      have hd : ((s.block.bdevEndIo w).wr.cell w).waitDone = true := by rw [hcw]
      exact (by simpa only [EvictedBlock.waitEnds, hdma] using hd)
  · have hfr : s.block.wr.frees w = 0 := by rw [h.held.frees]
    exact held_congr h.held rfl (Heap.stale_modify hfr) rfl rfl rfl rfl rfl rfl fun _ _ => rfl

theorem running_post {full : ℕ} {failed : Bool} (h : Running s)
    (hch : s.place.chainedOps = true → ∀ i, s.place.dmaOps i = .rdma)
    (hok : s.Sound (.post full failed)) (hph : s.phase = .posting)
    (hlt : s.block.posted < s.place.numSubblock) :
    Running { s with block := s.block.postSubblock s.place full failed } := by
  obtain ⟨hpo, -⟩ :=
    postSubblock_fields (p := s.place) (b := s.block) full failed
  refine ⟨linked_postSubblock full failed h.linked hok,
    reported_postSubblock full failed h.linked h.reported fun hc => hch hc _,
    held_postSubblock full failed h.held hlt, ?_, fun hne => absurd hph hne,
    fun _ hne => absurd hph hne, fun r hr => by rw [hph] at hr; cases hr⟩
  rw [hpo]
  exact hlt

theorem running_endPosts (h : Running s) (hn : 0 < s.place.numSubblock)
    (hall : s.block.posted = s.place.numSubblock) :
    Running { s with block := s.block.endPosts s.place, phase := .posted } := by
  have hh : s.block.headWr = some 0 := by rw [h.linked.headWr, if_neg (by omega)]
  have hcell : ∀ i, (s.block.endPosts s.place).wr.cell i =
      if i = 0 ∧ s.place.chainedOps = true then { s.block.wr.cell i with ehWr := some 0 }
      else s.block.wr.cell i := by
    intro i
    by_cases hi : i = 0
    · subst hi
      cases hc : s.place.chainedOps <;> cases he : s.place.eager <;>
        simp [EvictedBlock.endPosts, hh, hc, he]
    · cases hc : s.place.chainedOps <;> cases he : s.place.eager <;>
        simp [EvictedBlock.endPosts, hh, hc, he, hi]
  have hsame : ∀ i, ∃ e, (s.block.endPosts s.place).wr.cell i =
      { s.block.wr.cell i with ehWr := e } := by
    intro i
    rw [hcell i]
    split_ifs
    · exact ⟨_, rfl⟩
    · exact ⟨_, rfl⟩
  have hfr : s.block.wr.frees 0 = 0 := by rw [h.held.frees]
  have hfields : (s.block.endPosts s.place).posted = s.block.posted ∧
      (s.block.endPosts s.place).headWr = s.block.headWr ∧
      (s.block.endPosts s.place).done = s.block.done ∧
      (s.block.endPosts s.place).gets = s.block.gets ∧
      (s.block.endPosts s.place).locks = s.block.locks ∧
      (s.block.endPosts s.place).puts = s.block.puts ∧
      (s.block.endPosts s.place).unlocks = s.block.unlocks ∧
      (s.block.endPosts s.place).reclaims = s.block.reclaims ∧
      (s.block.endPosts s.place).wr.frees = s.block.wr.frees ∧
      (s.block.endPosts s.place).wr.stale = s.block.wr.stale ∧
      ∀ i ≠ 0, (s.block.endPosts s.place).w i = s.block.w i := by
    cases hc : s.place.chainedOps <;> cases he : s.place.eager <;>
      simp +contextual [EvictedBlock.endPosts, hh, hc, he, Heap.stale_modify hfr]
  obtain ⟨hpo, hhd, hd, hg, hlk, hpu, hu, hrec, hf, hst, hw⟩ := hfields
  have hw' : ∀ i, s.place.numSubblock ≤ i → (s.block.endPosts s.place).w i = s.block.w i :=
    fun i hi => hw i (by omega)
  have hwait : ∀ i, (s.block.endPosts s.place).waitEnds i = s.block.waitEnds i := by
    intro i
    obtain ⟨e, he⟩ := hsame i
    exact waitEnds_congr (by rw [he]) (by rw [he]) (by rw [he])
  refine ⟨linked_congr h.linked hpo hhd fun i => ?_, reported_congr h.reported hpo hd hwait ?_,
    held_congr h.held hf hst hpo hg hlk hpu hu hrec hw',
    by rw [hpo]; exact h.le, fun _ => by rw [hpo]; exact hall, fun hc _ => ?_, nofun⟩
  · obtain ⟨e, he⟩ := hsame i
    exact ⟨_, _, e, he⟩
  · obtain ⟨e, he⟩ := hsame 0
    rw [he]
  · rw [hcell 0, if_pos ⟨rfl, hc⟩]

theorem running_beginClear (h : Running s) (hn : 0 < s.place.numSubblock) (hph : s.phase = .posted)
    (doReclaim : Bool) :
    Running { s with block := s.startClear, phase := .clearing doReclaim } := by
  have hne : s.phase ≠ .posting := by rw [hph]; decide
  have hfields : s.startClear.wr = s.block.wr ∧ s.startClear.posted = s.block.posted ∧
      s.startClear.headWr = s.block.headWr ∧ s.startClear.done = s.block.done ∧
      s.startClear.gets = s.block.gets ∧ s.startClear.locks = s.block.locks ∧
      s.startClear.puts = s.block.puts ∧ s.startClear.unlocks = s.block.unlocks ∧
      s.startClear.reclaims = s.block.reclaims ∧ s.startClear.eagerW = none ∧
      ∀ i ≠ 0, s.startClear.w i = s.block.w i := by
    cases he : s.block.eagerW <;> simp +contextual [startClear, he]
  obtain ⟨hwr, hpo, hhd, hd, hg, hlk, hpu, hu, hrec, heg, hw⟩ := hfields
  have hw' : ∀ i, s.place.numSubblock ≤ i → s.startClear.w i = s.block.w i :=
    fun i hi => hw i (by omega)
  have hwait : ∀ i, s.startClear.waitEnds i = s.block.waitEnds i := fun i =>
    waitEnds_congr (by rw [hwr]) (by rw [hwr]) (by rw [hwr])
  refine ⟨linked_congr h.linked hpo hhd fun i => ⟨_, _, _, by rw [hwr]⟩,
    reported_congr h.reported hpo hd hwait (by rw [hwr]),
    held_congr h.held (by rw [hwr]) (by rw [hwr]) hpo hg hlk hpu hu hrec hw',
    by rw [hpo]; exact h.le, fun _ => by rw [hpo]; exact h.all hne,
    fun hc _ => by rw [hwr]; exact h.chain hc hne, fun _ _ => heg⟩

/-! ## Clearing -/

section Clear

variable {p : EvictPlace} {b : EvictedBlock} (doReclaim : Bool)

/-- What the clear of a list of subblocks does. -/
theorem foldl_clearSubblock (l : List ℕ) (i : ℕ) :
    (l.foldl (fun b i => b.clearSubblock doReclaim i) b).puts i = b.puts i + l.count i ∧
      (l.foldl (fun b i => b.clearSubblock doReclaim i) b).unlocks i = b.unlocks i + l.count i ∧
      (l.foldl (fun b i => b.clearSubblock doReclaim i) b).reclaims i =
        b.reclaims i + (if doReclaim then l.count i else 0) ∧
      (l.foldl (fun b i => b.clearSubblock doReclaim i) b).w i =
        if i ∈ l then .null else b.w i := by
  induction l generalizing b with
  | nil => simp
  | cons v l ih =>
      obtain ⟨hp, hu, hr, hw⟩ := ih (b := b.clearSubblock doReclaim v)
      rw [List.foldl_cons, hp, hu, hr, hw, List.count_cons]
      by_cases hi : i = v
      · subst hi
        cases doReclaim <;>
          simp [EvictedBlock.clearSubblock, EvictedBlock.releaseSubblock] <;> omega
      · have hi' : ¬ v = i := fun h => hi h.symm
        cases doReclaim <;>
          simp [EvictedBlock.clearSubblock, EvictedBlock.releaseSubblock, hi, hi']

/-- What it leaves as it is. -/
theorem foldl_clearSubblock_same (l : List ℕ) :
    (l.foldl (fun b i => b.clearSubblock doReclaim i) b).wr = b.wr ∧
      (l.foldl (fun b i => b.clearSubblock doReclaim i) b).gets = b.gets ∧
      (l.foldl (fun b i => b.clearSubblock doReclaim i) b).locks = b.locks ∧
      (l.foldl (fun b i => b.clearSubblock doReclaim i) b).done = b.done ∧
      (l.foldl (fun b i => b.clearSubblock doReclaim i) b).posted = b.posted ∧
      (l.foldl (fun b i => b.clearSubblock doReclaim i) b).eagerW = b.eagerW := by
  induction l generalizing b with
  | nil => exact ⟨rfl, rfl, rfl, rfl, rfl, rfl⟩
  | cons v l ih =>
      obtain ⟨hwr, hg, hl, hd, hp, he⟩ := ih (b := b.clearSubblock doReclaim v)
      rw [List.foldl_cons, hwr, hg, hl, hd, hp, he]
      cases doReclaim <;> exact ⟨rfl, rfl, rfl, rfl, rfl, rfl⟩

/-- A sibling is cleared while others, or the head, are still counted. -/
theorem clearWritebackWorkRequest_sibling {v : ℕ} (hv : v ≠ 0)
    (hh : (b.wr.cell v).headWr = 0) (hc : (b.wr.cell v).chainedOps = false)
    (hrefc : (b.wr.cell 0).wrRefc ≠ 1) :
    b.clearWritebackWorkRequest p v doReclaim =
      { b with
        wr := ((b.wr.touch v).modify 0 fun r =>
          { r with remotePages := r.remotePages ++ [v] }).modify 0 fun r =>
            { r with wrRefc := r.wrRefc + -1 }
        ends := Function.update b.ends v (b.ends v + 1) } := by
  have hne : (b.wr.cell 0).wrRefc + -1 ≠ 0 := by omega
  simp [EvictedBlock.clearWritebackWorkRequest, EvictedBlock.endWrite, EvictedBlock.addRefc, hh, hc,
    hv, hne]

/-- The head is cleared last. -/
theorem clearWritebackWorkRequest_head (hh : (b.wr.cell 0).headWr = 0)
    (hrefc : (b.wr.cell 0).wrRefc = 1) :
    b.clearWritebackWorkRequest p 0 doReclaim =
      ((List.range p.numSubblock).reverse.foldl (fun b i => b.clearSubblock doReclaim i)
        ((b.endWrite 0).addRefc 0 (-1))).freeWorkRequests 0 := by
  have hzero : (b.wr.cell 0).wrRefc + -1 = 0 := by omega
  simp [EvictedBlock.clearWritebackWorkRequest, EvictedBlock.endWrite, EvictedBlock.addRefc, hh,
    hzero]

end Clear

/-- The siblings of the head are other requests that were posted, and none is chained. -/
theorem mem_subsibling (hl : Linked s.place s.block) (hpos : 0 < s.block.posted) {v : ℕ}
    (hv : v ∈ (s.block.wr.cell 0).subsibling) :
    v ≠ 0 ∧ v < s.block.posted ∧ s.place.chainedOps = false := by
  have hmem : v ∈ List.range' 1 (s.block.posted - 1) := by
    rw [← hl.lists hpos]
    exact List.mem_append_right _ hv
  rw [List.mem_range'_1] at hmem
  refine ⟨by omega, by omega, ?_⟩
  cases hc : s.place.chainedOps with
  | true =>
      rw [hl.siblings hc hpos] at hv
      cases hv
  | false => rfl

theorem waitEnds_popSibling {v : ℕ} (hv : v ≠ 0) :
    (s.popSibling 0).block.waitEnds v = s.block.waitEnds v :=
  waitEnds_congr (by simp [popSibling, hv]) (by simp [popSibling, hv]) (by simp [popSibling, hv])

theorem running_clearSibling (h : Running s) (hn : 0 < s.place.numSubblock) {doReclaim : Bool}
    (hph : s.phase = .clearing doReclaim) {v : ℕ} {rest : List ℕ}
    (hsub : (s.block.wr.cell 0).subsibling = v :: rest) (hends : s.block.waitEnds v = true) :
    Running ((s.popSibling 0).clearRequest v doReclaim false) := by
  have hall := h.all (by rw [hph]; nofun)
  have hpos : 0 < s.block.posted := by omega
  obtain ⟨hv, hvp, hno⟩ := mem_subsibling h.linked hpos (hsub ▸ List.mem_cons_self)
  obtain ⟨hvh, hvc, -⟩ := h.linked.cells v hvp
  have hrefc := h.linked.refc hpos
  have hlists := h.linked.lists hpos
  have hfr : ∀ i, s.block.wr.frees i = 0 := fun i => by rw [h.held.frees]
  rw [hsub] at hrefc hlists
  simp only [clearRequest, Bool.false_eq_true, if_false]
  rw [clearWritebackWorkRequest_sibling doReclaim hv (by simpa [popSibling, hv] using hvh)
    (by simpa [popSibling, hv] using hvc.trans hno) (by simp [popSibling, hrefc]; omega)]
  have hcell : ∀ i, ((((s.popSibling 0).block.wr.touch v).modify 0 fun r =>
      { r with remotePages := r.remotePages ++ [v] }).modify 0 fun r =>
        { r with wrRefc := r.wrRefc + -1 }).cell i =
      if i = 0 then { s.block.wr.cell 0 with
        subsibling := rest
        remotePages := (s.block.wr.cell 0).remotePages ++ [v]
        wrRefc := (s.block.wr.cell 0).wrRefc + -1 }
      else s.block.wr.cell i := by
    intro i
    by_cases hi : i = 0
    · subst hi
      simp [popSibling, hsub]
    · simp [popSibling, hi]
  have hchain : ∀ {q : Prop}, s.place.chainedOps = true → q := fun hc =>
    absurd hc (by rw [hno]; decide)
  refine ⟨⟨h.linked.headWr, fun i hi => ?_, fun _ => ?_, fun _ => ?_, hchain⟩,
    ⟨fun hc i hi => ?_, hchain, fun hc _ u hu => ?_⟩,
    held_congr h.held rfl ?_ rfl rfl rfl rfl rfl rfl fun _ _ => rfl, h.le, h.all, hchain, h.handle⟩
  · rw [hcell i]
    by_cases hi0 : i = 0
    · subst hi0
      rw [if_pos rfl]
      exact h.linked.cells 0 hpos
    · rw [if_neg hi0]
      exact h.linked.cells i hi
  · rw [hcell 0, if_pos rfl]
    show (_ ++ [v]) ++ rest = List.range' 1 (s.block.posted - 1)
    rw [← hlists, List.append_assoc, List.singleton_append]
  · rw [hcell 0, if_pos rfl]
    show (s.block.wr.cell 0).wrRefc + -1 = 1 + (rest.length : ℤ)
    rw [hrefc, List.length_cons]
    omega
  · refine (waitEnds_congr ?_ ?_ ?_).trans (h.reported.single hc i hi)
    all_goals
      rw [hcell i]
      by_cases hi0 : i = 0
      · rw [if_pos hi0, hi0]
      · rw [if_neg hi0]
  · rw [hcell 0, if_pos rfl] at hu
    rcases List.mem_append.mp hu with hu | hu
    · exact h.reported.waited hc hpos u hu
    · obtain rfl := List.mem_singleton.mp hu
      show s.block.done u = true
      rw [← h.reported.single hc u hvp]
      exact hends
  · simp [popSibling, Heap.modify, Heap.touch, hfr]

/-- All requests are freed when the head is cleared. -/
theorem over_clearHead (h : Running s) (hn : 0 < s.place.numSubblock) {doReclaim : Bool}
    (hph : s.phase = .clearing doReclaim) (hok : s.Sound .clearNext)
    (hsub : (s.block.wr.cell 0).subsibling = []) (hends : s.block.waitEnds 0 = true) :
    Over (s.clearRequest 0 doReclaim true) doReclaim := by
  have hall := h.all (by rw [hph]; nofun)
  have hpos : 0 < s.block.posted := by omega
  have hrefc := h.linked.refc hpos
  have hlists := h.linked.lists hpos
  rw [hsub, List.append_nil] at hlists
  rw [hsub] at hrefc
  have hfr : ∀ i, s.block.wr.frees i = 0 := fun i => by rw [h.held.frees]
  have hcount : ∀ i, (List.range s.place.numSubblock).reverse.count i =
      if i < s.place.numSubblock then 1 else 0 := by
    intro i
    rw [List.count_reverse, List.nodup_range.count]
    simp only [List.mem_range]
  have hrange : ∀ i, (List.range' 1 (s.block.posted - 1)).count i =
      if i ≠ 0 ∧ i < s.place.numSubblock then 1 else 0 := by
    intro i
    rw [List.Nodup.count List.nodup_range']
    have hiff : (1 ≤ i ∧ i < 1 + (s.block.posted - 1)) ↔ (i ≠ 0 ∧ i < s.place.numSubblock) := by
      omega
    simp only [List.mem_range'_1, hiff]
  obtain ⟨hh, -⟩ := h.linked.cells 0 hpos
  simp only [clearRequest, if_true]
  rw [clearWritebackWorkRequest_head doReclaim hh (by simpa using hrefc)]
  set b := (s.block.endWrite 0).addRefc 0 (-1) with hb
  obtain ⟨hwr, hg, hlk, hd, hpo, he⟩ := foldl_clearSubblock_same (b := b) doReclaim
    (List.range s.place.numSubblock).reverse
  have hfold := foldl_clearSubblock (b := b) doReclaim
    (List.range s.place.numSubblock).reverse
  set c := (List.range s.place.numSubblock).reverse.foldl
    (fun b i => b.clearSubblock doReclaim i) b with hcdef
  have hbpages : (b.wr.cell 0).remotePages = List.range' 1 (s.block.posted - 1) := by
    rw [← hlists]
    simp [hb, EvictedBlock.addRefc, EvictedBlock.endWrite]
  have hbfr : ∀ i, b.wr.frees i = 0 := hfr
  have hbst : b.wr.stale = false := by
    simp [hb, EvictedBlock.addRefc, EvictedBlock.endWrite, Heap.modify, Heap.touch, hfr,
      h.held.stale]
  refine ⟨fun i => ?_, ?_, hpo.trans hall, fun i => ⟨?_, ?_⟩, fun i => ⟨?_, ?_⟩, fun i => ?_,
    fun i hi => ?_, fun i => ?_, ?_⟩
  · show ((((c.wr.modify 0 _).freeAll (c.wr.cell 0).remotePages).free 0).frees) i = _
    rw [Heap.frees_free, hwr, hbpages]
    by_cases hi : i = 0
    · subst hi
      rw [Function.update_self, Heap.frees_freeAll, hrange, Heap.frees_modify, hbfr]
      simp [hn]
    · rw [Function.update_of_ne hi, Heap.frees_freeAll, hrange, Heap.frees_modify, hbfr]
      simp [hi]
  · show ((((c.wr.modify 0 _).freeAll (c.wr.cell 0).remotePages).free 0).stale) = false
    rw [hwr, hbpages, Heap.stale_free, Heap.stale_freeAll List.nodup_range',
      Heap.stale_modify (hbfr 0), hbst]
    · exact fun i _ => hbfr i
    rw [Heap.frees_freeAll, hrange, Heap.frees_modify, hbfr]
    simp
  · show c.gets i = _
    rw [hg, ← hall]
    exact h.held.gets i
  · show c.locks i = _
    rw [hlk, ← hall]
    exact h.held.locks i
  · show c.puts i = _
    rw [(hfold i).1, hcount]
    show s.block.puts i + _ = _
    rw [h.held.puts]
    simp
  · show c.unlocks i = _
    rw [(hfold i).2.1, hcount]
    show s.block.unlocks i + _ = _
    rw [h.held.unlocks]
    simp
  · show c.reclaims i = _
    rw [(hfold i).2.2.1, hcount]
    show s.block.reclaims i + _ = _
    rw [h.held.reclaims]
    cases doReclaim <;> simp
  · show c.done i = true
    rw [hd]
    show s.block.done i = true
    cases hc : s.place.chainedOps with
    | true => exact hok hc i hi
    | false =>
        by_cases hi0 : i = 0
        · rw [hi0, ← h.reported.single hc 0 hpos]
          exact hends
        · refine h.reported.waited hc hpos i ?_
          have hlt : i < s.place.numSubblock := hi
          rw [hlists, List.mem_range'_1]
          omega
  · show c.w i = .null
    rw [(hfold i).2.2.2]
    by_cases hi : i < s.place.numSubblock
    · rw [if_pos (by simpa using hi)]
    · rw [if_neg (by simpa using hi)]
      exact h.held.beyond i (by omega)
  · exact he.trans (h.handle _ hph)

/-! ## Runs -/

theorem inv_of_start (h : Start s) : s.Inv := by
  obtain ⟨⟨rState, hb⟩, hph, hn, hch⟩ := h
  have hpo : s.block.posted = 0 := by rw [hb]; rfl
  have hnone : ∀ {i : ℕ}, ¬ i < s.block.posted := by
    intro i
    omega
  refine ⟨hn, hch, fun _ => ⟨⟨?_, fun i hi => absurd hi hnone, fun hpos => absurd hpos hnone,
    fun hpos => absurd hpos hnone, fun _ hpos => absurd hpos hnone⟩,
    ⟨fun _ i hi => absurd hi hnone, fun _ hex => ?_, fun _ hpos => absurd hpos hnone⟩,
    ⟨?_, ?_, fun i => ?_, fun i => ?_, ?_, ?_, ?_, fun i _ => ?_⟩, by omega,
    fun hne => absurd hph hne, fun _ hne => absurd hph hne, fun r hr => ?_⟩, fun r hr => ?_⟩
  · rw [hpo, hb]
    rfl
  · obtain ⟨i, hi, -⟩ := hex
    exact absurd hi hnone
  · rw [hb]
    rfl
  · rw [hb]
    rfl
  · rw [if_neg hnone, hb]
    rfl
  · rw [if_neg hnone, hb]
    rfl
  · rw [hb]
    rfl
  · rw [hb]
    rfl
  · rw [hb]
    rfl
  · rw [hb]
    rfl
  · rw [hph] at hr
    cases hr
  · rw [hph] at hr
    cases hr

/-- The head of a block that is cleared. -/
theorem headWr_clearing (h : Running s) (hn : 0 < s.place.numSubblock) {doReclaim : Bool}
    (hph : s.phase = .clearing doReclaim) : s.block.headWr = some 0 ∧ 0 < s.block.posted := by
  have hall := h.all (by rw [hph]; nofun)
  refine ⟨?_, by omega⟩
  rw [h.linked.headWr, if_neg (by omega)]

theorem inv_clearNext (h : s.Inv) {doReclaim : Bool} (hph : s.phase = .clearing doReclaim)
    (hok : s.Sound .clearNext) (hs : s.clearNext doReclaim = some s') : s'.Inv := by
  have hrun := h.running fun r hr => by
    rw [hph] at hr
    cases hr
  obtain ⟨hhd, hpos⟩ := headWr_clearing hrun h.numSubblock hph
  cases hsub : (s.block.wr.cell 0).subsibling with
  | nil =>
      simp only [clearNext, hhd, hsub] at hs
      obtain ⟨hends, rfl⟩ := Transition.of_guard hs
      have hover := over_clearHead hrun h.numSubblock hph hok hsub hends
      refine ⟨h.numSubblock, h.chained, fun hno => absurd rfl (hno doReclaim), fun r hr => ?_⟩
      obtain rfl : doReclaim = r := by
        injection hr
      exact hover
  | cons v rest =>
      simp only [clearNext, hhd, hsub] at hs
      obtain ⟨hends, rfl⟩ := Transition.of_guard hs
      obtain ⟨hv, hvp, hno⟩ := mem_subsibling hrun.linked hpos (hsub ▸ List.mem_cons_self)
      have hends : s.block.waitEnds v = true := by
        rw [← hends]
        exact (waitEnds_popSibling hv).symm
      refine ⟨h.numSubblock, h.chained,
        fun _ => running_clearSibling hrun h.numSubblock hph hsub hends, fun r hr => ?_⟩
      have hr : s.phase = .cleared r := hr
      rw [hph] at hr
      cases hr

/-- After the clear nothing is left to be reported. -/
theorem not_done_of_over {r : Bool} (h : Over s r) {w : ℕ} (hw : w < s.block.posted)
    (hd : s.block.done w = false) : False := by
  rw [h.done w (h.all ▸ hw)] at hd
  cases hd

theorem inv_of_step (h : s.Inv) {e : EvictEvent} (hok : s.Sound e) (hs : step s e = some s') :
    s'.Inv := by
  unfold step at hs
  cases e with
  | post full failed =>
      obtain ⟨⟨hph, hlt, -⟩, rfl⟩ := Transition.of_guard hs
      have hrun := h.running fun r hr => by
        rw [hph] at hr
        cases hr
      refine ⟨h.numSubblock, h.chained, fun _ => running_post hrun h.chained hok hph hlt,
        fun r hr => ?_⟩
      have hr : s.phase = .cleared r := hr
      rw [hph] at hr
      cases hr
  | endPosts =>
      obtain ⟨⟨hph, hall⟩, rfl⟩ := Transition.of_guard hs
      have hrun := h.running fun r hr => by
        rw [hph] at hr
        cases hr
      exact ⟨h.numSubblock, h.chained, fun _ => running_endPosts hrun h.numSubblock hall, nofun⟩
  | complete w ok =>
      obtain ⟨hg, rfl⟩ := Transition.of_guard hs
      refine ⟨h.numSubblock, h.chained,
        fun hno => running_complete (h.running hno) h.chained hok hg, fun r hr => ?_⟩
      simp only [canComplete, Bool.and_eq_true, decide_eq_true_eq, Bool.not_eq_true'] at hg
      exact (not_done_of_over (h.ended r hr) hg.1.1.1 hg.1.2).elim
  | endIo w =>
      obtain ⟨⟨hw, hops, hd⟩, rfl⟩ := Transition.of_guard hs
      exact ⟨h.numSubblock, h.chained,
        fun hno => running_endIo (h.running hno) h.chained hw hops,
        fun r hr => (not_done_of_over (h.ended r hr) hw hd).elim⟩
  | beginClear doReclaim =>
      obtain ⟨⟨hph, -⟩, rfl⟩ := Transition.of_guard hs
      have hrun := h.running fun r hr => by
        rw [hph] at hr
        cases hr
      exact ⟨h.numSubblock, h.chained,
        fun _ => running_beginClear hrun h.numSubblock hph doReclaim, nofun⟩
  | clearNext =>
      cases hph : s.phase with
      | clearing doReclaim =>
          simp only [hph] at hs
          exact inv_clearNext h hph hok hs
      | posting => simp [hph] at hs
      | posted => simp [hph] at hs
      | cleared r => simp [hph] at hs

/-- Once the device is done with all requests, the next wait ends. -/
theorem isSome_clearNext (h : s.Inv) {doReclaim : Bool} (hph : s.phase = .clearing doReclaim)
    (hdone : ∀ j < s.place.numSubblock, s.block.done j = true) :
    (s.clearNext doReclaim).isSome = true := by
  have hrun := h.running fun r hr => by
    rw [hph] at hr
    cases hr
  obtain ⟨hhd, hpos⟩ := headWr_clearing hrun h.numSubblock hph
  cases hsub : (s.block.wr.cell 0).subsibling with
  | nil =>
      have hends : s.block.waitEnds 0 = true := by
        cases hc : s.place.chainedOps with
        | true => exact hrun.reported.chain hc ⟨0, hpos, hdone 0 h.numSubblock⟩
        | false =>
            rw [hrun.reported.single hc 0 hpos]
            exact hdone 0 h.numSubblock
      simp [clearNext, hhd, hsub, hends]
  | cons v rest =>
      obtain ⟨hv, hvp, hno⟩ := mem_subsibling hrun.linked hpos (hsub ▸ List.mem_cons_self)
      have hends : (s.popSibling 0).block.waitEnds v = true := by
        rw [waitEnds_popSibling hv, hrun.reported.single hno v hvp]
        exact hdone v (by have := hrun.le; omega)
      simp [clearNext, hhd, hsub, hends]

theorem writebackOk_of_running (h : s.Inv) (hrun : Running s) (hno : ∀ r, s.phase ≠ .cleared r) :
    s.WritebackOk := by
  have hh := hrun.held
  refine ⟨fun w => ?_, hh.stale, fun i => ?_, fun i => ?_, fun w hw => ?_,
    fun r hr => absurd hr (hno r), fun r hr hdone => isSome_clearNext h hr hdone⟩
  · rw [hh.frees]
    exact Nat.zero_le 1
  · rw [hh.puts, hh.unlocks]
    exact ⟨Nat.zero_le _, Nat.zero_le _⟩
  · rw [hh.reclaims]
    exact ⟨Nat.zero_le 1, fun h0 => absurd h0 (Nat.lt_irrefl 0)⟩
  · exact absurd (by rw [hh.frees]) hw

theorem writebackOk_of_over {r : Bool} (hph : s.phase = .cleared r) (ho : Over s r) :
    s.WritebackOk := by
  refine ⟨fun w => ?_, ho.stale, fun i => ?_, fun i => ⟨?_, fun _ => ho.done⟩,
    fun w _ => ⟨by rw [ho.pointers.2]; nofun, fun i => by rw [ho.pointers.1 i]; nofun⟩,
    fun r' hr i hi => ?_, fun r' hr => ?_⟩
  · rw [ho.frees w]
    split_ifs <;> omega
  · rw [(ho.taken i).1, (ho.taken i).2, (ho.released i).1, (ho.released i).2]
    exact ⟨Nat.le_refl _, Nat.le_refl _⟩
  · rw [ho.reclaims i]
    split_ifs <;> omega
  · rw [hph] at hr
    obtain rfl : r = r' := by
      injection hr
    rw [ho.frees i, (ho.taken i).1, (ho.taken i).2, (ho.released i).1, (ho.released i).2,
      ho.reclaims i]
    simp [hi]
  · rw [hph] at hr
    cases hr

theorem writebackOk_of_inv (h : s.Inv) : s.WritebackOk := by
  cases hph : s.phase with
  | cleared r => exact writebackOk_of_over hph (h.ended r hph)
  | posting => exact writebackOk_of_running h (h.running (by rw [hph]; nofun)) (by rw [hph]; nofun)
  | posted => exact writebackOk_of_running h (h.running (by rw [hph]; nofun)) (by rw [hph]; nofun)
  | clearing r =>
      exact writebackOk_of_running h (h.running (by rw [hph]; nofun)) (by rw [hph]; nofun)

/-- **A writeback is cleared once, and frees its requests once**, in every run in which a full send
queue refuses the head only, no other request fails on its own, and a chain is cleared after its
last completion. -/
theorem writebackOk_of_reach (h : Transition.ReachWhen Start step Sound s) : s.WritebackOk :=
  writebackOk_of_inv (h.invariant (fun _ => inv_of_start) fun _ _ _ hi hok hs =>
    inv_of_step hi hok hs)

/-- Two independent writes over RDMA, before the first post. -/
def twoWrites : EvictRun := ⟨⟨2, fun _ => .rdma, false, false⟩, .unposted .transIl, .posting⟩

theorem start_twoWrites : Start twoWrites := ⟨⟨_, rfl⟩, rfl, by decide, nofun⟩

/-- The two writes are posted and cleared by the reclaimer; the send queue has refused the second
one `full` times. -/
def clearTwo (full : ℕ) : List EvictEvent :=
  [.post 0 false, .post full false, .endPosts, .complete 1 true, .complete 0 true,
    .beginClear true, .clearNext, .clearNext]

theorem writebackOk_clearTwo : ∃ s, Transition.exec step twoWrites (clearTwo 0) = some s ∧
    s.WritebackOk := by
  have hok : Transition.Allowed step Sound twoWrites (clearTwo 0) :=
    ⟨.inl rfl, .inl rfl, trivial, .inl rfl, .inl rfl, trivial, nofun, nofun, trivial⟩
  exact ⟨_, rfl, writebackOk_of_reach (.exec (.start start_twoWrites) hok rfl)⟩

/-- **The claim fails**: a post that was refused stays counted, and the requests are never freed
and the subblocks never unlocked. -/
theorem not_writebackOk_clearTwo : ¬ ∀ s, Transition.Reach Start step s → s.WritebackOk := by
  intro h
  have hex : (Transition.exec step twoWrites (clearTwo 1)).any (fun s =>
      s.phase == .cleared true && s.place.numSubblock == 2 && s.block.wr.frees 0 == 0) = true := by
    decide +kernel
  obtain ⟨s, hs, hp⟩ := (Option.any_eq_true _ _).mp hex
  simp only [Bool.and_eq_true, beq_iff_eq] at hp
  obtain ⟨⟨hph, hn⟩, hzero⟩ := hp
  have hfr := (h s (Transition.Reach.exec (.start start_twoWrites) hs)).cleared true hph 0
    (by omega)
  omega

end EvictRun

end Emp
