import Emp.Fetch.Block
import Emp.Fetch.Clearing
import Mathlib

/-!
# Waiting for the subblocks of a fault

A fault on a block whose fetch is in flight waits for the subblocks that it maps: for the demanded
one alone when the critical subblock comes first, else for every subblock that the faulting vmr
does not map.  A subblock whose fetch is over is no longer remote.  `emp_hpt_fetch_barrier` clears
the flag of the demanded subblock, whichever it has waited for, where `wait_for_prefetched_block`
clears that of the subblock itself.

## Main definitions

* `BarrierConf`, `BarrierBlock` — the settings, and a local block with its flags and requests.
* `BarrierBlock.waitLoop` — the loop of both functions.
* `BarrierBlock.fetchBarrier`, `BarrierBlock.waitForPrefetchedBlock` — the functions.
* `BarrierBlock.BarrierOk`, `BarrierBlock.ClearsAll` — what a barrier should leave, and when it
  does.
-/

namespace Emp

/-- What a device reports of a read that succeeds. -/
inductive ReadReport
  | complete (w : ℕ)
  | arrive (i : ℕ) (differs : Bool)
  | endIo (w : ℕ)
  deriving DecidableEq, Repr

/-- The step of the fetch that a report is. -/
def ReadReport.event : ReadReport → FetchEvent
  | .complete w => .complete w true
  | .arrive i differs => .arrive i differs
  | .endIo w => .endIo w 0

/-- The settings and the orders of the block. -/
structure BarrierConf where
  csf : Bool
  cpf : Bool
  markEmptyPage : Bool
  subblockOrder : ℕ
  blockOrder : ℕ

/-- `num_subblock_in_block`. -/
def BarrierConf.numSubblock (c : BarrierConf) : ℕ := 2 ^ (c.blockOrder - c.subblockOrder)

/-- A local block in a fault; `mapped` are the subblocks that have a record of the faulting vmr. -/
structure BarrierBlock where
  run : FetchRun
  flags : ℕ → GpaFlag → Bool
  active : Bool
  demandOffset : ℕ
  mapped : ℕ → Bool

/-- What comes from outside: the reports that arrive during the wait for a subblock, and whether
the wait for a demand page ends since the page has been overwritten. -/
structure BarrierLuck where
  reports : ℕ → List ReadReport
  overwritten : Bool

namespace BarrierBlock

variable (c : BarrierConf) (l : BarrierLuck)

/-- `set_gpa_flags_if_unset` or `clear_gpa_flags_if_set` of one flag of subblock `i`. -/
def setFlag (i : ℕ) (f : GpaFlag) (v : Bool) (s : BarrierBlock) : BarrierBlock :=
  { s with flags := Function.update s.flags i (Function.update (s.flags i) f v) }

/-- The devices report, while subblock `i` is waited for. -/
def report (i : ℕ) (s : BarrierBlock) : Option BarrierBlock :=
  (Transition.exec FetchRun.step s.run ((l.reports i).map ReadReport.event)).map fun r =>
    { s with run := r }

/-- `wait_read_async` of subblock `i`; where there was a request, `GPA_REMOTE` of `j` is cleared
after it.  `none` if the wait goes on. -/
def waitRead (i j : ℕ) (s : BarrierBlock) : Option BarrierBlock :=
  (s.report l i).bind fun t =>
    (t.run.block.waitReadAsync t.run.place i).map fun b =>
      let t : BarrierBlock := { t with run := { t.run with block := b } }
      if (s.run.block.w i).isSome then t.setFlag j .remote false else t

/-- A loop that waits for the first `k` subblocks but for those to skip; `cleared i` is the subblock
whose flag goes with subblock `i`. -/
def waitLoop (skip : ℕ → Bool) (cleared : ℕ → ℕ) : ℕ → BarrierBlock → Option BarrierBlock
  | 0, s => some s
  | k + 1, s =>
    (waitLoop skip cleared k s).bind fun s =>
      if skip k then some s else waitRead l k (cleared k) s

/-- `wait_read_async_demand_page`, with its result; the turns of its loop that find nothing are
left out. -/
def waitDemandPage (demand : ℕ) (s : BarrierBlock) : Option (BarrierBlock × ℕ) :=
  match s.run.block.w demand with
  | none => some (s, 0)
  | some w =>
    if !c.markEmptyPage || !c.cpf then some (s, 0)
    else
      (s.report l demand).bind fun t =>
        if l.overwritten then some (t, 1)
        else if t.run.block.tryWaitRead t.run.place w = 0 then none
        else
          some ({ t with run := { t.run with
            block := t.run.block.waitReadAsyncDemandPage t.run.place demand false } }, 2)

/-- `emp_get_block_offset`. -/
def blockOffset (demand pgoff : ℕ) : ℕ :=
  demand * 2 ^ c.subblockOrder + pgoff % 2 ^ c.subblockOrder

/-- What `emp_hpt_fetch_barrier` begins with. -/
def activate (s : BarrierBlock) : BarrierBlock :=
  ({ s with active := true }.setFlag 0 .hpt true).setFlag 0 .remote false

/-- The demanded subblock is the only one that is waited for. -/
def demandOnly (prefetched : Option ℕ) (fetch : Bool) (s : BarrierBlock) : Bool :=
  c.csf && fetch && prefetched.isNone && !s.flags 0 .prefetchOnce

/-- The subblocks that the loop of the barrier passes over. -/
def skips (prefetched : Option ℕ) (fetch : Bool) (s : BarrierBlock) (i : ℕ) : Bool :=
  (fetch && s.flags 0 .prefetchedCsf && prefetched == some i) || s.mapped i

/-- `emp_hpt_fetch_barrier`. -/
def fetchBarrier (demand pgoff : ℕ) (prefetched : Option ℕ) (fetch : Bool) (s : BarrierBlock) :
    Option BarrierBlock :=
  let s := s.activate
  if s.demandOnly c prefetched fetch then
    if c.cpf then
      (s.waitDemandPage c l demand).map fun (s, fallback) =>
        let s := { s with demandOffset := blockOffset c demand pgoff }
        let s := s.setFlag 0 (if 1 < fallback then .prefetchedCsf else .prefetchedCpf) true
        s.setFlag 0 .prefetchOnce true
    else
      (waitRead l demand demand s).map fun s =>
        if c.subblockOrder ≠ c.blockOrder then
          let s := { s with demandOffset := blockOffset c demand pgoff }
          (s.setFlag 0 .prefetchedCsf true).setFlag 0 .prefetchOnce true
        else s
  else
    waitLoop l (s.skips prefetched fetch) (fun _ => demand) c.numSubblock s

/-- `wait_for_prefetched_block`. -/
def waitForPrefetchedBlock (s : BarrierBlock) : Option BarrierBlock :=
  let prefetched :=
    if s.flags 0 .prefetchedCsf then some (s.demandOffset / 2 ^ c.subblockOrder) else none
  (waitLoop l (fun i => some i == prefetched) id c.numSubblock s).map fun s =>
    { ((s.setFlag 0 .prefetchedCsf false).setFlag 0 .prefetchedCpf false).setFlag
      0 .prefetchedBlk false with demandOffset := 0 }

/-! ### What is left -/

/-- Subblock `i` has a request. -/
def Pending (s : BarrierBlock) (i : ℕ) : Prop := s.run.block.w i ≠ none

instance (s : BarrierBlock) (i : ℕ) : Decidable (s.Pending i) := inferInstanceAs (Decidable (_ ≠ _))

/-- The subblocks that a fault has to wait for. -/
def MustWait (prefetched : Option ℕ) (fetch : Bool) (demand : ℕ) (s : BarrierBlock) (i : ℕ) :
    Prop :=
  i < c.numSubblock ∧
    if s.demandOnly c prefetched fetch then i = demand else s.mapped i = false

/-- Those that the barrier does wait for. -/
def Waits (prefetched : Option ℕ) (fetch : Bool) (demand : ℕ) (s : BarrierBlock) (i : ℕ) : Prop :=
  i < c.numSubblock ∧
    if s.demandOnly c prefetched fetch then i = demand else s.skips prefetched fetch i = false

/-- What a barrier over the subblocks `must` of a block of `n` should leave: no request there, the
remote page given up once and the flag cleared, and nothing changed elsewhere.  So a subblock but
the head is remote only while its fetch is outstanding. -/
structure BarrierOk (n : ℕ) (must : ℕ → Prop) (s t : BarrierBlock) : Prop where
  requests : ∀ i, must i → ¬ t.Pending i
  pages : ∀ i, must i → s.Pending i → s.run.block.gaveUp i = 0 ∧ t.run.block.gaveUp i = 1
  flags : ∀ i, must i → t.flags i .remote = false
  kept : ∀ i < n, i ≠ 0 → ¬ must i →
    t.run.block.w i = s.run.block.w i ∧ t.flags i .remote = s.flags i .remote
  outstanding : (∀ i < n, i ≠ 0 → s.flags i .remote = true → s.Pending i) →
    ∀ i < n, i ≠ 0 → t.flags i .remote = true → t.Pending i

/-- When it does: nothing that is waited for is remote but the head and the demanded subblock,
whose flag goes with any subblock that is waited for; a prefetched subblock has no request; and
the request that was posted first is not waited for ahead of others. -/
structure ClearsAll (prefetched : Option ℕ) (fetch : Bool) (demand : ℕ) (s : BarrierBlock) :
    Prop where
  others : ∀ i, s.MustWait c prefetched fetch demand i → i ≠ 0 → i ≠ demand →
    s.flags i .remote = false
  demanded : demand ≠ 0 → s.flags demand .remote = true →
    (s.MustWait c prefetched fetch demand demand ↔
      ∃ i, s.Waits c prefetched fetch demand i ∧ s.Pending i)
  skipped : ∀ i, s.MustWait c prefetched fetch demand i →
    ¬ s.Waits c prefetched fetch demand i → ¬ s.Pending i
  first : ∀ h, s.run.IsHead h → s.Waits c prefetched fetch demand h → s.Pending h →
    ∀ i, s.Pending i → s.Waits c prefetched fetch demand i

/-! ### One wait -/

variable {c l} {s t u : BarrierBlock} {h i j k : ℕ}

/-- A fetch of which nothing was cancelled. -/
def Consumed (r : FetchRun) (h : ℕ) : Prop :=
  FetchRun.Inv r h ∧ ∀ i, r.block.cleared i ≠ some false

/-- Reads are in flight or over, some of them waited for; or there are none. -/
def Fetched (r : FetchRun) : Prop := (∃ h, Consumed r h) ∨ ∀ i, r.block.w i = none

/-- What a wait keeps. -/
structure Keeps (s t : BarrierBlock) : Prop where
  posted : t.run.posted = s.run.posted
  mapped : t.mapped = s.mapped
  consumed : ∀ h, Consumed s.run h → Consumed t.run h

theorem Keeps.refl (s : BarrierBlock) : Keeps s s := ⟨rfl, rfl, fun _ => id⟩

theorem Keeps.trans (h : Keeps s t) (h' : Keeps t u) : Keeps s u :=
  ⟨h'.posted.trans h.posted, h'.mapped.trans h.mapped,
    fun x hx => h'.consumed x (h.consumed x hx)⟩

theorem event_same {r r' : FetchRun} {e : ReadReport} (hs : FetchRun.step r e.event = some r') :
    r'.place = r.place ∧ r'.posted = r.posted ∧ r'.block.w = r.block.w ∧
      r'.block.cleared = r.block.cleared := by
  cases e with
  | complete w =>
      obtain ⟨-, rfl⟩ := Transition.of_guard hs
      exact ⟨rfl, rfl, rfl, rfl⟩
  | arrive i differs =>
      obtain ⟨-, rfl⟩ := Transition.of_guard hs
      exact ⟨rfl, rfl, rfl, rfl⟩
  | endIo w =>
      obtain ⟨-, rfl⟩ := Transition.of_guard hs
      exact ⟨rfl, rfl, rfl, rfl⟩

/-- A report is sound whenever it comes. -/
theorem sound_event (r : FetchRun) (e : ReadReport) : r.Sound e.event := by
  cases e with
  | complete w => exact ⟨nofun, nofun⟩
  | arrive i differs => exact ⟨nofun, nofun⟩
  | endIo w => exact ⟨nofun, nofun⟩

theorem reports_same {r r' : FetchRun} {es : List ReadReport}
    (hs : Transition.exec FetchRun.step r (es.map ReadReport.event) = some r') :
    r'.posted = r.posted ∧ r'.block.w = r.block.w ∧ ∀ h, Consumed r h → Consumed r' h := by
  induction es generalizing r with
  | nil =>
      obtain rfl := Option.some.inj hs
      exact ⟨rfl, rfl, fun _ => id⟩
  | cons e es ih =>
      obtain ⟨q, hq, hs⟩ := Option.bind_eq_some_iff.mp hs
      obtain ⟨-, hposted, hw, hcl⟩ := event_same hq
      obtain ⟨hposted', hw', hkeep⟩ := ih hs
      refine ⟨hposted'.trans hposted, hw'.trans hw, fun h hi => hkeep h ⟨?_, fun i => ?_⟩⟩
      · exact FetchRun.inv_of_step hi.1 (sound_event r e) hq
      · rw [hcl]
        exact hi.2 i

theorem report_spec (hs : s.report l i = some t) :
    Keeps s t ∧ t.run.block.w = s.run.block.w ∧ t.flags = s.flags := by
  obtain ⟨r, hr, rfl⟩ := Option.map_eq_some_iff.mp hs
  obtain ⟨hposted, hw, hkeep⟩ := reports_same hr
  exact ⟨⟨hposted, rfl, hkeep⟩, hw, rfl⟩

/-- A subblock is cleared, and not by a cancel. -/
theorem cleared_ne_cancelled {r : FetchRun} (hi : Consumed r h) (hm : i ∈ r.posted) (j : ℕ) :
    (r.clearAt true i).block.cleared j ≠ some false := by
  rw [FetchRun.cleared_clearAt true hi.1 hm, Function.update_apply]
  split_ifs
  · nofun
  · exact hi.2 j

/-- A wait that ends, for the field of the local page and for the fetch. -/
theorem waitReadAsync_spec {r : FetchRun} {b : FetchedBlock} (hf : Fetched r)
    (hs : r.block.waitReadAsync r.place i = some b) :
    (∀ h, Consumed r h → Consumed { r with block := b } h) ∧
      b.w = Function.update r.block.w i none := by
  cases hw : r.block.w i with
  | none =>
      rw [FetchedBlock.waitReadAsync, hw] at hs
      obtain rfl := Option.some.inj hs
      refine ⟨fun _ => id, ?_⟩
      rw [← hw, Function.update_eq_self]
  | some w =>
      obtain ⟨h, hi, hcons⟩ := hf.resolve_right fun hn => by simp [hn i] at hw
      obtain ⟨rfl, hl⟩ := hi.w_eq hw
      have hm := (FetchRun.mem_left.mp hl).1
      have hinv : ∀ h, Consumed r h → FetchRun.Inv { r with block := b } h := by
        refine fun h hi => FetchRun.inv_wait hi.1 (fun x _ hx => ?_) hs
        cases x with
        | true => rfl
        | false => exact absurd hx (hi.2 h)
      rw [FetchedBlock.waitReadAsync, hw] at hs
      obtain ⟨-, rfl⟩ := Transition.of_guard hs
      refine ⟨fun h hi => ⟨hinv h hi, cleared_ne_cancelled hi hm⟩, ?_⟩
      show Function.update (r.block.clearFetchingWorkRequest true w).w w none = _
      rw [(FetchRun.clearFetchingWorkRequest_same true (hi.hangs hm)).1]

/-- The steps of a fetch that has succeeded: nothing is cancelled. -/
def Succeeding (r : FetchRun) (e : FetchEvent) : Prop := r.Sound e ∧ ∀ i, e ≠ .cancel i

theorem cleared_poll {r : FetchRun} (hi : Consumed r h) (i j : ℕ) :
    (r.block.tryWaitReadAsync r.place i).cleared j ≠ some false := by
  rw [FetchedBlock.tryWaitReadAsync]
  cases hw : r.block.w i with
  | none => exact hi.2 j
  | some w =>
      obtain ⟨rfl, hl⟩ := hi.1.w_eq hw
      simp only
      split_ifs
      · exact hi.2 j
      · exact cleared_ne_cancelled hi (FetchRun.mem_left.mp hl).1 j

/-- A fetch that has succeeded, however many of its reads have been reported and waited for. -/
theorem fetched_of_reach {r : FetchRun}
    (hr : Transition.ReachWhen FetchRun.Start FetchRun.step Succeeding r) : Fetched r := by
  left
  refine hr.invariant (I := fun r => ∃ h, Consumed r h) (fun r hstart => ?_) ?_
  · obtain ⟨h, hi, hposting⟩ := FetchRun.posting_of_start hstart
    refine ⟨h, hi, fun i => ?_⟩
    rw [hposting.cleared]
    nofun
  · rintro r e r' ⟨h, hi⟩ ⟨hsound, hcancel⟩ hs
    refine ⟨h, FetchRun.inv_of_step hi.1 hsound hs, fun j => ?_⟩
    unfold FetchRun.step at hs
    cases e with
    | complete w ok =>
        obtain ⟨-, rfl⟩ := Transition.of_guard hs
        exact hi.2 j
    | arrive i differs =>
        obtain ⟨-, rfl⟩ := Transition.of_guard hs
        exact hi.2 j
    | endIo w errno =>
        obtain ⟨-, rfl⟩ := Transition.of_guard hs
        exact hi.2 j
    | wait i =>
        obtain ⟨b, hb, rfl⟩ := Option.map_eq_some_iff.mp hs
        exact ((waitReadAsync_spec (.inl ⟨h, hi⟩) hb).1 h hi).2 j
    | poll i =>
        obtain rfl := Option.some.inj hs
        exact cleared_poll hi i j
    | demand i overwritten =>
        obtain rfl := Option.some.inj hs
        cases overwritten with
        | true => exact hi.2 j
        | false => exact cleared_poll hi i j
    | cancel i => exact absurd rfl (hcancel i)

/-- The flag of `i` after those of the subblocks `cleared` were cleared. -/
def Clears (cleared : ℕ → Prop) (s t : BarrierBlock) : Prop :=
  ∀ m, t.flags m .remote = true ↔ s.flags m .remote = true ∧ ¬ cleared m

theorem fetched_of_keeps (h : Keeps s t) (hw : ∀ i, s.run.block.w i = none → t.run.block.w i = none)
    (hf : Fetched s.run) : Fetched t.run :=
  hf.imp (fun ⟨x, hx⟩ => ⟨x, h.consumed x hx⟩) fun hn i => hw i (hn i)

theorem remote_setFlag (i m : ℕ) (s : BarrierBlock) :
    (s.setFlag i .remote false).flags m .remote = true ↔ s.flags m .remote = true ∧ m ≠ i := by
  show Function.update s.flags i _ m .remote = true ↔ _
  by_cases hm : m = i
  · rw [hm, Function.update_self, Function.update_self]
    exact iff_of_false nofun fun h => h.2 rfl
  · rw [Function.update_of_ne hm]
    exact (and_iff_left hm).symm

/-- One subblock is waited for. -/
theorem waitRead_spec (hf : Fetched s.run) (hs : waitRead l i j s = some t) :
    Keeps s t ∧ t.run.block.w = Function.update s.run.block.w i none ∧
      Clears (fun m => m = j ∧ s.Pending i) s t := by
  obtain ⟨s', hs', hs⟩ := Option.bind_eq_some_iff.mp hs
  obtain ⟨b, hb, rfl⟩ := Option.map_eq_some_iff.mp hs
  obtain ⟨hkeep, hw, hflags⟩ := report_spec hs'
  have hf' : Fetched s'.run := fetched_of_keeps hkeep (fun i hi => by rwa [hw]) hf
  obtain ⟨hcons, hw'⟩ := waitReadAsync_spec hf' hb
  rw [hw] at hw'
  have hdone : Keeps s' { s' with run := { s'.run with block := b } } := ⟨rfl, rfl, hcons⟩
  by_cases hp : s.Pending i
  · rw [if_pos (Option.isSome_iff_ne_none.mpr hp)]
    refine ⟨hkeep.trans ⟨rfl, rfl, hcons⟩, hw', fun m => ?_⟩
    refine (remote_setFlag j m _).trans ?_
    show s'.flags m .remote = true ∧ m ≠ j ↔ _
    rw [hflags]
    exact and_congr_right fun _ => not_congr (and_iff_left hp).symm
  · rw [if_neg fun h => hp (Option.isSome_iff_ne_none.mp h)]
    refine ⟨hkeep.trans hdone, hw', fun m => ?_⟩
    show s'.flags m .remote = true ↔ _
    rw [hflags]
    exact (and_iff_left fun h => hp h.2).symm

/-- The loop: it waits for each of the first `k` subblocks that it does not skip. -/
theorem waitLoop_spec {skip : ℕ → Bool} {cleared : ℕ → ℕ} (hf : Fetched s.run)
    (hs : waitLoop l skip cleared k s = some t) :
    Keeps s t ∧
      (∀ i, t.run.block.w i = if i < k ∧ skip i = false then none else s.run.block.w i) ∧
      Clears (fun m => ∃ i < k, skip i = false ∧ s.Pending i ∧ m = cleared i) s t := by
  induction k generalizing t with
  | zero =>
      obtain rfl := Option.some.inj hs
      refine ⟨Keeps.refl s, fun i => (if_neg fun h => Nat.not_lt_zero i h.1).symm, fun m => ?_⟩
      exact (and_iff_left fun ⟨i, hi, _⟩ => Nat.not_lt_zero i hi).symm
  | succ k ih =>
      obtain ⟨u, hu, hs⟩ := Option.bind_eq_some_iff.mp hs
      obtain ⟨hkeep, hw, hclears⟩ := ih hu
      have hless : ∀ i, i < k + 1 ∧ skip i = false ↔
          (i < k ∧ skip i = false) ∨ (i = k ∧ skip k = false) := by
        intro i
        rw [Nat.lt_succ_iff_lt_or_eq, or_and_right]
        refine or_congr_right (and_congr_right fun hi => ?_)
        rw [hi]
      by_cases hk : skip k = true
      · rw [if_pos hk] at hs
        obtain rfl := Option.some.inj hs
        have hnot : ¬ skip k = false := by simp [hk]
        refine ⟨hkeep, fun i => ?_, fun m => ?_⟩
        · rw [hw]
          exact if_congr ((hless i).trans (or_iff_left fun h => hnot h.2)).symm rfl rfl
        · rw [hclears]
          refine and_congr_right fun _ => not_congr ⟨fun ⟨i, hi, h⟩ => ⟨i, by omega, h⟩, ?_⟩
          rintro ⟨i, hi, hskip, h⟩
          obtain ⟨hik, -⟩ | ⟨-, hkf⟩ := (hless i).mp ⟨hi, hskip⟩
          · exact ⟨i, hik, hskip, h⟩
          · exact absurd hkf hnot
      · rw [if_neg hk] at hs
        have hskip : skip k = false := Bool.eq_false_iff.mpr hk
        have hfu : Fetched u.run := fetched_of_keeps hkeep (fun i hi => by
          rw [hw, hi, ite_self]) hf
        have hpend : u.Pending k ↔ s.Pending k := by
          rw [Pending, hw, if_neg fun h => Nat.lt_irrefl k h.1]
          rfl
        obtain ⟨hkeep', hw', hclears'⟩ := waitRead_spec hfu hs
        refine ⟨hkeep.trans hkeep', fun i => ?_, fun m => ?_⟩
        · rw [hw', Function.update_apply, hw]
          by_cases hik : i = k
          · rw [if_pos hik, if_pos ((hless i).mpr (.inr ⟨hik, hskip⟩))]
          · rw [if_neg hik]
            exact if_congr ((hless i).trans (or_iff_left fun h => hik h.1)).symm rfl rfl
        · rw [hclears', hclears, and_assoc]
          refine and_congr_right fun _ => ?_
          rw [← not_or, hpend]
          refine not_congr ⟨?_, ?_⟩
          · rintro (⟨i, hi, h⟩ | ⟨hm, hp⟩)
            · exact ⟨i, by omega, h⟩
            · exact ⟨k, Nat.lt_succ_self k, hskip, hp, hm⟩
          · rintro ⟨i, hi, hskip', hp, hm⟩
            obtain ⟨hik, -⟩ | ⟨rfl, -⟩ := (hless i).mp ⟨hi, hskip'⟩
            · exact .inl ⟨i, hik, hskip', hp, hm⟩
            · exact .inr ⟨hm, hp⟩

/-! ### The functions -/

section Barrier

variable {demand pgoff : ℕ} {prefetched : Option ℕ} {fetch : Bool}

theorem remote_setOther {f : GpaFlag} {v : Bool} (hf : f ≠ .remote) (i m : ℕ) (s : BarrierBlock) :
    (s.setFlag i f v).flags m .remote = s.flags m .remote := by
  show Function.update s.flags i _ m .remote = _
  by_cases hm : m = i
  · rw [hm, Function.update_self, Function.update_of_ne hf.symm]
  · rw [Function.update_of_ne hm]

theorem remote_activate (s : BarrierBlock) (m : ℕ) :
    s.activate.flags m .remote = true ↔ s.flags m .remote = true ∧ m ≠ 0 := by
  rw [activate, remote_setFlag, remote_setOther (f := .hpt) nofun]

theorem demandOnly_activate (s : BarrierBlock) :
    s.activate.demandOnly c prefetched fetch = s.demandOnly c prefetched fetch := rfl

theorem skips_activate (s : BarrierBlock) :
    s.activate.skips prefetched fetch = s.skips prefetched fetch := rfl

/-- What the barrier does, but for the mode in which a page comes first. -/
theorem fetchBarrier_spec (hf : Fetched s.run) (hdemand : demand < c.numSubblock)
    (hmode : ¬ (s.demandOnly c prefetched fetch = true ∧ c.cpf = true))
    (hs : s.fetchBarrier c l demand pgoff prefetched fetch = some t) :
    Keeps s t ∧
      (∀ i, s.Waits c prefetched fetch demand i → ¬ t.Pending i) ∧
      (∀ i, ¬ s.Waits c prefetched fetch demand i → t.run.block.w i = s.run.block.w i) ∧
      ∀ m, t.flags m .remote = true ↔ s.flags m .remote = true ∧ m ≠ 0 ∧
        ¬ (m = demand ∧ ∃ i, s.Waits c prefetched fetch demand i ∧ s.Pending i) := by
  have hact : Keeps s s.activate := ⟨rfl, rfl, fun _ => id⟩
  have hfa : Fetched s.activate.run := hf
  rw [fetchBarrier] at hs
  simp only [demandOnly_activate, skips_activate] at hs
  by_cases honly : s.demandOnly c prefetched fetch = true
  · have hcpf : c.cpf = false := Bool.eq_false_iff.mpr fun h => hmode ⟨honly, h⟩
    have hwaits : ∀ i, s.Waits c prefetched fetch demand i ↔ i = demand := by
      intro i
      rw [Waits, if_pos honly]
      exact ⟨fun h => h.2, fun h => ⟨h ▸ hdemand, h⟩⟩
    simp only [honly, hcpf, Bool.false_eq_true, if_true, if_false] at hs
    obtain ⟨u, hu, rfl⟩ := Option.map_eq_some_iff.mp hs
    obtain ⟨hkeep, hw, hclears⟩ := waitRead_spec hfa hu
    set t := if c.subblockOrder ≠ c.blockOrder then _ else u with ht
    have hrun : t.run = u.run := by
      rw [ht]
      split_ifs <;> rfl
    have hmapped : t.mapped = u.mapped := by
      rw [ht]
      split_ifs <;> rfl
    have hremote : ∀ m, t.flags m .remote = u.flags m .remote := by
      intro m
      rw [ht]
      split_ifs
      · rw [remote_setOther (f := .prefetchOnce) nofun, remote_setOther (f := .prefetchedCsf) nofun]
      · rfl
    have hdone : Keeps u t := ⟨by rw [hrun], hmapped, fun h hi => by rwa [hrun]⟩
    refine ⟨(hact.trans hkeep).trans hdone, fun i hi => ?_, fun i hi => ?_, fun m => ?_⟩
    · rw [Pending, hrun, hw, (hwaits i).mp hi, Function.update_self]
      exact fun h => h rfl
    · rw [hrun, hw, Function.update_of_ne fun h => hi ((hwaits i).mpr h)]
      rfl
    · rw [hremote, hclears, remote_activate, and_assoc]
      have hsome : (∃ i, s.Waits c prefetched fetch demand i ∧ s.Pending i) ↔ s.Pending demand := by
        simp only [hwaits, exists_eq_left]
      rw [hsome]
      rfl
  · simp only [honly, Bool.false_eq_true, if_false] at hs
    obtain ⟨hkeep, hw, hclears⟩ := waitLoop_spec hfa hs
    have hwaits : ∀ i, s.Waits c prefetched fetch demand i ↔
        i < c.numSubblock ∧ s.skips prefetched fetch i = false := by
      intro i
      rw [Waits, if_neg honly]
    refine ⟨hact.trans hkeep, fun i hi => ?_, fun i hi => ?_, fun m => ?_⟩
    · rw [Pending, hw, if_pos ((hwaits i).mp hi)]
      exact fun h => h rfl
    · rw [hw, if_neg fun h => hi ((hwaits i).mpr h)]
      rfl
    · rw [hclears, remote_activate, and_assoc]
      refine and_congr_right fun _ => and_congr_right fun _ => not_congr ⟨?_, ?_⟩
      · rintro ⟨i, hi, hskip, hp, hm⟩
        exact ⟨hm, i, (hwaits i).mpr ⟨hi, hskip⟩, hp⟩
      · rintro ⟨hm, i, hi, hp⟩
        obtain ⟨hi, hskip⟩ := (hwaits i).mp hi
        exact ⟨i, hi, hskip, hp, hm⟩

theorem pending_iff (hi : FetchRun.Inv s.run h) : s.Pending i ↔ i ∈ s.run.left := by
  rw [FetchRun.mem_left, Pending, hi.w]
  split_ifs with hleft
  · exact iff_of_true nofun hleft
  · exact iff_of_false (fun hne => hne rfl) hleft

/-- The remote page of a subblock goes with its request, which the one posted first keeps until no
other is left. -/
theorem gaveUp_eq_one_iff (hi : Consumed s.run h) (hp : ¬ s.Pending i) (hm : i ∈ s.run.posted) :
    s.run.block.gaveUp i = 1 ↔ (i = h → ∀ j, ¬ s.Pending j) := by
  obtain ⟨hinv, hcons⟩ := hi
  have hcl : s.run.block.cleared i ≠ none := fun hn =>
    hp ((pending_iff hinv).mpr (FetchRun.mem_left.mpr ⟨hm, hn⟩))
  have htrue : s.run.block.cleared i = some true := by
    obtain ⟨x, hx⟩ := Option.ne_none_iff_exists'.mp hcl
    cases x with
    | true => exact hx
    | false => exact absurd hx (hcons i)
  have hleft : s.run.left = [] ↔ ∀ j, ¬ s.Pending j := by
    rw [List.eq_nil_iff_forall_not_mem]
    exact forall_congr' fun j => not_congr (pending_iff hinv).symm
  have hreleased : s.run.Released h i ↔ (i = h → ∀ j, ¬ s.Pending j) := by
    rw [FetchRun.Released, hleft]
    exact ⟨fun hr => hr.2.2, fun hr => ⟨hm, hcl, hr⟩⟩
  rw [hinv.gaveUp, ← hreleased]
  split_ifs with hr
  · exact iff_of_true rfl hr.1
  · exact iff_of_false not_false fun h' => hr ⟨h', htrue⟩

/-- The remote page of a subblock whose request is pending has not been given up. -/
theorem gaveUp_of_pending (hi : FetchRun.Inv s.run h) (hp : s.Pending i) :
    s.run.block.gaveUp i = 0 := by
  rw [hi.gaveUp, if_neg]
  rintro ⟨⟨-, hcl, -⟩, -⟩
  exact hcl (FetchRun.mem_left.mp ((pending_iff hi).mp hp)).2

theorem MustWait.of_waits (h : s.Waits c prefetched fetch demand i) :
    s.MustWait c prefetched fetch demand i := by
  refine ⟨h.1, ?_⟩
  have hw := h.2
  split_ifs at hw ⊢ with honly
  · exact hw
  · exact (Bool.or_eq_false_iff.mp hw).2

/-- **A barrier leaves what it should exactly if only flags of the head and of the demanded
subblock are to be cleared.**  For a block with any number of subblocks, any set of them in
flight or mapped, any demanded subblock and page, and any reports of the devices: whether the
whole block is waited for, the demanded subblock alone, or the rest of a block of which one
subblock was prefetched. -/
theorem fetchBarrier_ok_iff (hf : Fetched s.run) (hdemand : demand < c.numSubblock)
    (hmode : ¬ (s.demandOnly c prefetched fetch = true ∧ c.cpf = true))
    (hs : s.fetchBarrier c l demand pgoff prefetched fetch = some t) :
    BarrierOk c.numSubblock (s.MustWait c prefetched fetch demand) s t ↔
      s.ClearsAll c prefetched fetch demand := by
  obtain ⟨hkeep, hwaited, hw, hremote⟩ := fetchBarrier_spec hf hdemand hmode hs
  have hrest : ∀ i, ¬ s.Waits c prefetched fetch demand i → (t.Pending i ↔ s.Pending i) :=
    fun i hi => by rw [Pending, hw i hi]; rfl
  constructor
  · intro hok
    refine ⟨fun i hm hi hne => ?_, fun hd hr => ⟨fun hm => ?_, fun hany => ?_⟩,
      fun i hm hnw hp => hok.requests i hm ((hrest i hnw).mpr hp), fun h hh hwt hp i hpi => ?_⟩
    · by_contra hr
      have hflag := hok.flags i hm
      rw [(hremote i).mpr ⟨Bool.not_eq_false _ ▸ hr, hi, fun h => hne h.1⟩] at hflag
      cases hflag
    · by_contra hnone
      have hflag := hok.flags demand hm
      rw [(hremote demand).mpr ⟨hr, hd, fun h => hnone h.2⟩] at hflag
      cases hflag
    · by_contra hm
      have hflag := (hok.kept demand hdemand hd hm).2
      rw [hr] at hflag
      exact ((hremote demand).mp hflag).2.2 ⟨rfl, hany⟩
    · by_contra hni
      obtain ⟨h', hi'⟩ := hf.resolve_right fun hn => hp (hn h)
      obtain rfl : h = h' := Option.some.inj (hh.symm.trans hi'.1.head)
      have hm : h ∈ t.run.posted := by
        rw [hkeep.posted]
        exact hi'.1.mem_head
      have hpage := (hok.pages h (.of_waits hwt) hp).2
      exact (gaveUp_eq_one_iff (hkeep.consumed h hi') (hwaited h hwt) hm).mp hpage rfl i
        ((hrest i hni).mpr hpi)
  · intro hall
    have hpend : ∀ i, s.MustWait c prefetched fetch demand i → ¬ t.Pending i := by
      intro i hm
      by_cases hwt : s.Waits c prefetched fetch demand i
      · exact hwaited i hwt
      · rw [hrest i hwt]
        exact hall.skipped i hm hwt
    have hflags : ∀ i, s.MustWait c prefetched fetch demand i → t.flags i .remote = false := by
      intro i hm
      rw [← Bool.not_eq_true, hremote]
      rintro ⟨hr, hi, hd⟩
      by_cases hne : i = demand
      · subst hne
        exact hd ⟨rfl, (hall.demanded hi hr).mp hm⟩
      · rw [hall.others i hm hi hne] at hr
        cases hr
    have hkept : ∀ i < c.numSubblock, i ≠ 0 → ¬ s.MustWait c prefetched fetch demand i →
        t.run.block.w i = s.run.block.w i ∧ t.flags i .remote = s.flags i .remote := by
      intro i _ hi hm
      refine ⟨hw i fun hwt => hm (.of_waits hwt), Bool.eq_iff_iff.mpr ?_⟩
      rw [hremote]
      refine ⟨fun h => h.1, fun hr => ⟨hr, hi, ?_⟩⟩
      rintro ⟨rfl, hany⟩
      exact hm ((hall.demanded hi hr).mpr hany)
    refine ⟨hpend, fun i hm hp => ?_, hflags, hkept, fun hbefore i hlt hi hr => ?_⟩
    · obtain ⟨h, hi⟩ := hf.resolve_right fun hn => hp (hn i)
      have hmem : i ∈ t.run.posted := by
        rw [hkeep.posted]
        exact (FetchRun.mem_left.mp ((pending_iff hi.1).mp hp)).1
      refine ⟨gaveUp_of_pending hi.1 hp,
        (gaveUp_eq_one_iff (hkeep.consumed h hi) (hpend i hm) hmem).mpr ?_⟩
      rintro rfl j hj
      have hwt : s.Waits c prefetched fetch demand i := by
        by_contra hnw
        exact hall.skipped i hm hnw hp
      by_cases hjw : s.Waits c prefetched fetch demand j
      · exact hwaited j hjw hj
      · exact hjw (hall.first i hi.1.head hwt hp j ((hrest j hjw).mp hj))
    · by_cases hm : s.MustWait c prefetched fetch demand i
      · rw [hflags i hm] at hr
        cases hr
      · obtain ⟨hwi, hfi⟩ := hkept i hlt hi hm
        rw [hfi] at hr
        rw [Pending, hwi]
        exact hbefore i hlt hi hr

end Barrier

/-- **`wait_for_prefetched_block` clears the flags of the subblocks that it has waited for.**  So a
subblock that is remote behind it is the prefetched one, or was remote without a request. -/
theorem waitForPrefetchedBlock_spec (hf : Fetched s.run)
    (hs : s.waitForPrefetchedBlock c l = some t) {i : ℕ} (hi : i < c.numSubblock)
    (hne : s.flags 0 .prefetchedCsf = true → i ≠ s.demandOffset / 2 ^ c.subblockOrder) :
    ¬ t.Pending i ∧ (s.Pending i → t.flags i .remote = false) := by
  rw [waitForPrefetchedBlock] at hs
  obtain ⟨u, hu, rfl⟩ := Option.map_eq_some_iff.mp hs
  obtain ⟨-, hw, hclears⟩ := waitLoop_spec hf hu
  have hskip : (some i == if s.flags 0 .prefetchedCsf = true then
      some (s.demandOffset / 2 ^ c.subblockOrder) else none) = false := by
    split_ifs with hcsf
    · exact beq_eq_false_iff_ne.mpr fun h => hne hcsf (Option.some.inj h)
    · rfl
  constructor
  · show ¬ u.run.block.w i ≠ none
    rw [hw, if_pos ⟨hi, hskip⟩]
    exact fun h => h rfl
  · intro hp
    rw [← Bool.not_eq_true]
    intro hr
    refine ((hclears i).mp ?_).2 ⟨i, hi, hskip, hp, rfl⟩
    rw [← remote_setOther (f := .prefetchedCsf) (v := false) nofun 0,
      ← remote_setOther (f := .prefetchedCpf) (v := false) nofun 0,
      ← remote_setOther (f := .prefetchedBlk) (v := false) nofun 0]
    exact hr

/-! ### Blocks in flight -/

/-- A block of which every subblock is in flight, on an RDMA donor. -/
def inFlight (order demand : ℕ) : BarrierBlock where
  run := FetchRun.fetched .rdma (2 ^ order) demand
  flags _ f := f == .remote
  active := false
  demandOffset := 0
  mapped _ := false

/-- No subblock comes ahead of the others. -/
def wholeBlock (order : ℕ) : BarrierConf := ⟨false, false, false, 0, order⟩

/-- Each read is completed during the wait for it. -/
def completeInTurn : BarrierLuck := ⟨fun i => [.complete i], false⟩

theorem fetched_inFlight {order demand : ℕ} (hd : demand < 2 ^ order) :
    Fetched (inFlight order demand).run :=
  fetched_of_reach (.start (FetchRun.start_fetched .rdma hd))

theorem clearsAll_inFlight : (inFlight 1 1).ClearsAll (wholeBlock 1) none true 1 := by
  have hwaits : ∀ i < 2, (inFlight 1 1).Waits (wholeBlock 1) none true 1 i := fun i hi => ⟨hi, rfl⟩
  have hposted : ∀ i, (inFlight 1 1).Pending i → i < 2 := by
    intro i hp
    by_contra hi
    obtain ⟨h0, h1⟩ : i ≠ 0 ∧ i ≠ 1 := ⟨by omega, by omega⟩
    refine hp ?_
    show Function.update (Function.update (fun _ : ℕ => none) 1 (some 1)) 0 (some 0) i = none
    rw [Function.update_of_ne h0, Function.update_of_ne h1]
  refine ⟨fun i hm hi hne => ?_, fun _ _ => ?_, fun i hm hn _ => hn (hwaits i hm.1),
    fun _ _ _ _ i hp => hwaits i (hposted i hp)⟩
  · have hlt : i < 2 := hm.1
    omega
  · exact iff_of_true ⟨by decide, rfl⟩ ⟨1, hwaits 1 (by decide), by decide⟩

theorem barrierOk_inFlight :
    ∃ t, (inFlight 1 1).fetchBarrier (wholeBlock 1) completeInTurn 1 0 none true = some t ∧
      BarrierOk 2 ((inFlight 1 1).MustWait (wholeBlock 1) none true 1) (inFlight 1 1) t := by
  obtain ⟨t, ht⟩ := Option.isSome_iff_exists.mp (show
    ((inFlight 1 1).fetchBarrier (wholeBlock 1) completeInTurn 1 0 none true).isSome by
      decide)
  exact ⟨t, ht, (fetchBarrier_ok_iff (fetched_inFlight (by decide)) (by decide) (by decide)
    ht).mpr clearsAll_inFlight⟩

/-- **The claim fails**: of four subblocks in flight two keep `GPA_REMOTE`, though their fetch is
over. -/
theorem not_barrierOk_inFlight :
    ¬ ∀ (c : BarrierConf) (l : BarrierLuck) (s t : BarrierBlock) (demand pgoff : ℕ)
      (prefetched : Option ℕ) (fetch : Bool), Fetched s.run → demand < c.numSubblock →
      ¬ (s.demandOnly c prefetched fetch = true ∧ c.cpf = true) →
      s.fetchBarrier c l demand pgoff prefetched fetch = some t →
      BarrierOk c.numSubblock (s.MustWait c prefetched fetch demand) s t := by
  intro h
  have hflags : ((inFlight 2 1).fetchBarrier (wholeBlock 2) completeInTurn 1 0 none true).map
      (fun t => (t.run.block.w 2, t.flags 2 .remote)) = some (none, true) := by decide +kernel
  obtain ⟨t, ht, hpair⟩ := Option.map_eq_some_iff.mp hflags
  have hok := h (wholeBlock 2) completeInTurn (inFlight 2 1) t 1 0 none true
    (fetched_inFlight (by decide)) (by decide) (by decide) ht
  have hclear := hok.flags 2 ⟨by decide, rfl⟩
  rw [(Prod.mk.inj hpair).2] at hclear
  cases hclear

end BarrierBlock

end Emp
