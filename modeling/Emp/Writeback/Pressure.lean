import Emp.Writeback.Lists

/-!
# The pressure of the inactive list

`get_pressure_of_inactive_list` subtracts the pages that are on the writeback lists from
the inactive pages, as unsigned numbers.  The in-flight counter is raised when a block is
queued and lowered by `clear_writeback_block`; `__wait_writeback_async` dequeues a block
and leaves the counter as it is.

## Main definitions

* `WbSys.PressureOk` — the in-flight counter tells the queued pages, and is at most the
  inactive ones.
* `WbSys.Tracked` — the steps after which it still does.
-/

namespace Emp

/-- The pages a block has on a writeback list. -/
def WbBlock.queuedLen (r : WbBlock) : ℤ :=
  match r.place with
  | .queued _ => r.size
  | _ => 0

/-- The pages a block has among the inactive ones. -/
def WbBlock.inactiveLen (r : WbBlock) : ℤ :=
  match r.place with
  | .inactive | .queued _ | .taken _ => r.size
  | _ => 0

theorem WbBlock.queuedLen_le (r : WbBlock) : r.queuedLen ≤ r.inactiveLen := by
  simp only [queuedLen, inactiveLen]
  cases r.place <;> simp

namespace WbSys

variable {s t : WbSys} {n b : ℕ}

/-- The in-flight counter is the sum of the sizes of the blocks on the writeback lists, it is
at most the inactive count, and no pressure was computed below zero. -/
structure PressureOk (n : ℕ) (s : WbSys) : Prop where
  inflight : s.inflightWritebackPageLen = tally n fun b => (s.block b).queuedLen
  le : s.inflightWritebackPageLen ≤ s.inactivePageLen
  noWrap : s.wrapped = false

/-- The inactive count stays above every in-flight count that a cpu has read and not yet used
when the pages of `b` are taken out of it. -/
def Covers (s : WbSys) (b : ℕ) : Prop :=
  ∀ cpu wb, s.reads cpu = some wb → wb ≤ s.inactivePageLen - (s.block b).size

/-- No block leaves its writeback list through an asynchronous wait, and no pages stop to be
inactive between the two reads of a cpu that had counted them. -/
def Tracked (s : WbSys) : WbEvent → Prop
  | .take _ actor => actor ≠ .wait
  | .promoteVictim b => s.Covers b
  | .drop b => s.Covers b
  | .clear b => s.Covers b
  | _ => True

/-- The invariant. -/
structure Ledger (n : ℕ) (s : WbSys) : Prop where
  inflight : s.inflightWritebackPageLen = tally n fun b => (s.block b).queuedLen
  inactive : s.inactivePageLen = tally n fun b => (s.block b).inactiveLen
  reads : ∀ cpu wb, s.reads cpu = some wb → wb ≤ s.inactivePageLen
  noWrap : s.wrapped = false

theorem Ledger.le (h : s.Ledger n) : s.inflightWritebackPageLen ≤ s.inactivePageLen := by
  rw [h.inflight, h.inactive]
  exact tally_le fun b _ => (s.block b).queuedLen_le

/-- A step on block `b` from `s` to `t` that moves each counter by what the share of `b` in
it moves. -/
structure Moves (s : WbSys) (b : ℕ) (t : WbSys) : Prop where
  rest : ∀ k, k ≠ b → t.block k = s.block k
  inflight : t.inflightWritebackPageLen =
    s.inflightWritebackPageLen + ((t.block b).queuedLen - (s.block b).queuedLen)
  inactive : t.inactivePageLen =
    s.inactivePageLen + ((t.block b).inactiveLen - (s.block b).inactiveLen)
  reads : t.reads = s.reads
  wrapped : t.wrapped = s.wrapped

theorem Moves.trans {u : WbSys} (h : s.Moves b t) (h' : t.Moves b u) : s.Moves b u := by
  refine ⟨fun k hk => (h'.rest k hk).trans (h.rest k hk), ?_, ?_, h'.reads.trans h.reads,
    h'.wrapped.trans h.wrapped⟩
  · rw [h'.inflight, h.inflight]
    ring
  · rw [h'.inactive, h.inactive]
    ring

/-- Such a step keeps the invariant, if the pages it takes out were not counted by a pending
read. -/
theorem ledger_of_moves (h : s.Ledger n) (hb : b < n) (hm : s.Moves b t)
    (hcov : ∀ cpu wb, s.reads cpu = some wb → wb ≤ t.inactivePageLen) : t.Ledger n := by
  have hqueued : tally n (fun k => (t.block k).queuedLen) =
      tally n (fun k => (s.block k).queuedLen) +
        ((t.block b).queuedLen - (s.block b).queuedLen) :=
    tally_change hb fun k _ hk => by rw [hm.rest k hk]
  have hinactive : tally n (fun k => (t.block k).inactiveLen) =
      tally n (fun k => (s.block k).inactiveLen) +
        ((t.block b).inactiveLen - (s.block b).inactiveLen) :=
    tally_change hb fun k _ hk => by rw [hm.rest k hk]
  refine ⟨?_, ?_, ?_, hm.wrapped.trans h.noWrap⟩
  · rw [hm.inflight, h.inflight, hqueued]
  · rw [hm.inactive, h.inactive, hinactive]
  · intro cpu wb hr
    rw [hm.reads] at hr
    exact hcov cpu wb hr

/-- When the block's share of the inactive pages does not shrink, no read is undercut. -/
theorem ledger_of_grow (h : s.Ledger n) (hb : b < n) (hm : s.Moves b t)
    (hle : (s.block b).inactiveLen ≤ (t.block b).inactiveLen) : t.Ledger n := by
  refine ledger_of_moves h hb hm fun cpu wb hr => ?_
  have hwb := h.reads cpu wb hr
  rw [hm.inactive]
  omega

/-- When it goes, the reads must have been covered without it. -/
theorem ledger_of_leave (h : s.Ledger n) (hb : b < n) (hm : s.Moves b t)
    (hcov : s.Covers b) (ht : (t.block b).inactiveLen = 0)
    (hs : (s.block b).inactiveLen = (s.block b).size) : t.Ledger n := by
  refine ledger_of_moves h hb hm fun cpu wb hr => ?_
  have hwb := hcov cpu wb hr
  rw [hm.inactive, ht, hs]
  omega

@[simp] theorem setBlock_self (r : WbBlock) : (s.setBlock b r).block b = r :=
  Function.update_self ..

theorem setBlock_of_ne {k : ℕ} (r : WbBlock) (hk : k ≠ b) :
    (s.setBlock b r).block k = s.block k := Function.update_of_ne hk ..

/-! ### The shares the helpers move -/

/-- A block keeps its shares, whatever else of it changes. -/
theorem moves_setBlock {r : WbBlock} (hq : r.queuedLen = (s.block b).queuedLen)
    (hi : r.inactiveLen = (s.block b).inactiveLen) : s.Moves b (s.setBlock b r) := by
  refine ⟨fun k hk => setBlock_of_ne r hk, ?_, ?_, rfl, rfl⟩
  · rw [setBlock_self, hq, sub_self, add_zero]
    rfl
  · rw [setBlock_self, hi, sub_self, add_zero]
    rfl

/-- A block that was inactive and on no list is not counted any more. -/
theorem moves_subInactive {r : WbBlock} (hplace : r.place = .off)
    (hsize : r.size = (s.block b).size) (hq : (s.block b).queuedLen = 0)
    (hi : (s.block b).inactiveLen = (s.block b).size) :
    s.Moves b ((s.setBlock b r).subInactive b) := by
  have hblock : ((s.setBlock b r).subInactive b).block = (s.setBlock b r).block := rfl
  refine ⟨fun k hk => setBlock_of_ne r hk, ?_, ?_, rfl, rfl⟩
  · rw [hblock, setBlock_self, hq]
    simp [WbBlock.queuedLen, hplace, subInactive, setBlock]
  · rw [hblock, setBlock_self, hi]
    simp [WbBlock.inactiveLen, hplace, subInactive, hsize, setBlock]
    ring

theorem moves_addGpasToActiveList (proactive : Bool) (h : (s.block b).place = .off) :
    s.Moves b (s.addGpasToActiveList b proactive) := by
  simp only [addGpasToActiveList]
  refine ⟨fun k hk => ?_, ?_, ?_, ?_, ?_⟩ <;> split_ifs <;>
    simp [setBlock, WbBlock.queuedLen, WbBlock.inactiveLen, Function.update_of_ne, *]

theorem inactiveLen_addGpas (proactive : Bool) :
    ((s.addGpasToActiveList b proactive).block b).inactiveLen = 0 := by
  simp only [addGpasToActiveList]
  split_ifs <;> simp [setBlock, WbBlock.inactiveLen]

theorem moves_removeFromActive
    (h : (s.block b).place ∈ [LruPlace.active, .proactive, .pin]) :
    s.Moves b (s.removeFromActive b) := by
  simp only [List.mem_cons, List.not_mem_nil, or_false] at h
  simp only [removeFromActive]
  refine ⟨fun k hk => ?_, ?_, ?_, ?_, ?_⟩ <;> rcases h with h | h | h <;>
    simp [setBlock, WbBlock.queuedLen, WbBlock.inactiveLen, Function.update_of_ne, *]

theorem block_removeFromActive
    (h : (s.block b).place ∈ [LruPlace.active, .proactive, .pin]) :
    (s.removeFromActive b).block b = { s.block b with place := .off, proactive := false } ∧
      (s.removeFromActive b).inactivePageLen = s.inactivePageLen := by
  simp only [List.mem_cons, List.not_mem_nil, or_false] at h
  simp only [removeFromActive]
  rcases h with h | h | h <;> simp [setBlock, h]

/-- An active block that is made inactive, as a victim or as an orphan. -/
theorem moves_makeInactive {r : WbBlock} (hplace : r.place = .inactive)
    (hsize : r.size = (s.block b).size)
    (h : (s.block b).place ∈ [LruPlace.active, .proactive, .pin]) :
    s.Moves b { (s.removeFromActive b).setBlock b r with
      inactivePageLen := s.inactivePageLen + (s.block b).size } := by
  obtain ⟨hblock, hinactive⟩ := block_removeFromActive h
  have hoff : (s.removeFromActive b).Moves b { (s.removeFromActive b).setBlock b r with
      inactivePageLen := s.inactivePageLen + (s.block b).size } := by
    refine ⟨fun k hk => setBlock_of_ne r hk, ?_, ?_, rfl, rfl⟩
    · simp [setBlock, WbBlock.queuedLen, hblock, hplace]
    · simp [setBlock, WbBlock.inactiveLen, hblock, hplace, hsize, hinactive]
  exact (moves_removeFromActive h).trans hoff

theorem ledger_makeInactive {r : WbBlock} (h : s.Ledger n) (hb : b < n)
    (hplace : r.place = .inactive) (hsize : r.size = (s.block b).size)
    (hlist : (s.block b).place ∈ [LruPlace.active, .proactive, .pin]) :
    Ledger n { (s.removeFromActive b).setBlock b r with
      inactivePageLen := s.inactivePageLen + (s.block b).size } := by
  refine ledger_of_grow h hb (moves_makeInactive hplace hsize hlist) ?_
  simp only [List.mem_cons, List.not_mem_nil, or_false] at hlist
  rcases hlist with hp | hp | hp <;> simp [WbBlock.inactiveLen, hp, hplace, setBlock]

theorem moves_pushWritebackRequest {cpu : ℕ} (h : (s.block b).place = .inactive) :
    s.Moves b (s.pushWritebackRequest b cpu) := by
  refine ⟨fun k hk => setBlock_of_ne _ hk, ?_, ?_, rfl, rfl⟩ <;>
    simp [pushWritebackRequest, setBlock, WbBlock.queuedLen, WbBlock.inactiveLen, h]

theorem queued_iff : s.queued b = true ↔ ∃ cpu, (s.block b).place = .queued cpu := by
  simp only [queued]
  cases (s.block b).place <;> simp

theorem moves_dequeue {actor : WbActor} (hq : s.queued b = true) (hactor : actor ≠ .wait) :
    s.Moves b (s.dequeue b actor) := by
  rw [queued_iff] at hq
  obtain ⟨cpu, hcpu⟩ := hq
  cases actor with
  | wait => exact absurd rfl hactor
  | fault | discard =>
      refine ⟨fun k hk => setBlock_of_ne _ hk, ?_, ?_, rfl, rfl⟩ <;>
        simp [dequeue, setBlock, WbBlock.queuedLen, WbBlock.inactiveLen, hcpu]
      ring

theorem inactiveLen_dequeue {actor : WbActor} (hq : s.queued b = true) :
    ((s.dequeue b actor).block b).inactiveLen = (s.block b).inactiveLen := by
  rw [queued_iff] at hq
  obtain ⟨cpu, hcpu⟩ := hq
  cases actor <;> simp [dequeue, setBlock, WbBlock.inactiveLen, hcpu]

theorem moves_clearAndReclaim (hq : (s.block b).queuedLen = 0)
    (hi : (s.block b).inactiveLen = (s.block b).size) : s.Moves b (s.clearAndReclaim b) :=
  moves_subInactive rfl rfl hq hi

theorem block_clearAndReclaim : (s.clearAndReclaim b).block b = { s.block b with
    rState := .init, place := .off, resident := false, promote := false, proactive := false } :=
  setBlock_self _

/-- Whoever clears the writeback of a dequeued block, its pages stop to be inactive. -/
theorem moves_clearBy {actor : WbActor} (h : (s.block b).place = .taken actor) :
    s.Moves b (s.clearBy b actor) ∧ ((s.clearBy b actor).block b).inactiveLen = 0 := by
  have hq : (s.block b).queuedLen = 0 := by simp [WbBlock.queuedLen, h]
  have hi : (s.block b).inactiveLen = (s.block b).size := by simp [WbBlock.inactiveLen, h]
  cases actor with
  | wait =>
      have hpromote : ((s.clearAndReclaim b).block b).promote = false := by
        rw [block_clearAndReclaim]
      simp only [clearBy, clearByWait, hpromote, Bool.false_eq_true, if_false]
      refine ⟨moves_clearAndReclaim hq hi, ?_⟩
      simp [block_clearAndReclaim, WbBlock.inactiveLen]
  | fault =>
      have hsub : s.Moves b ((s.setBlock b { s.block b with place := .off }).subInactive b) :=
        moves_subInactive rfl rfl hq hi
      have hoff : (((s.setBlock b { s.block b with place := .off }).subInactive b).block b).place
          = .off := by
        simp [subInactive, setBlock]
      exact ⟨hsub.trans (moves_addGpasToActiveList true hoff), inactiveLen_addGpas true⟩
  | discard =>
      refine ⟨moves_clearAndReclaim hq hi, ?_⟩
      simp [clearBy, block_clearAndReclaim, WbBlock.inactiveLen]

/-- A block that is halved keeps its pages, in two blocks. -/
theorem ledger_reduce {buddy size : ℕ} (h : s.Ledger n) (hb : b < n) (hbuddy : buddy < n)
    (hne : b ≠ buddy) (hplace : (s.block b).place = .inactive)
    (hoff : (s.block buddy).place = .off) (hsize : size ≤ (s.block b).size) :
    Ledger n ((s.setBlock buddy { s.block b with size := (s.block b).size - size }).setBlock b
      { s.block b with size := size }) := by
  set t := (s.setBlock buddy { s.block b with size := (s.block b).size - size }).setBlock b
      { s.block b with size := size } with ht
  have hself : t.block b = { s.block b with size := size } := setBlock_self _
  have hother : t.block buddy = { s.block b with size := (s.block b).size - size } := by
    rw [ht, setBlock_of_ne _ (Ne.symm hne), setBlock_self]
  have hrest : ∀ k, k ≠ b → k ≠ buddy → t.block k = s.block k := by
    intro k hk hk'
    rw [ht, setBlock_of_ne _ hk, setBlock_of_ne _ hk']
  have hqueued : tally n (fun k => (t.block k).queuedLen) =
      tally n (fun k => (s.block k).queuedLen) := by
    rw [tally_move hb hbuddy hne fun k _ hk hk' => by rw [hrest k hk hk']]
    simp [hself, hother, WbBlock.queuedLen, hplace, hoff]
  have hinactive : tally n (fun k => (t.block k).inactiveLen) =
      tally n (fun k => (s.block k).inactiveLen) := by
    rw [tally_move hb hbuddy hne fun k _ hk hk' => by rw [hrest k hk hk']]
    simp [hself, hother, WbBlock.inactiveLen, hplace, hoff]
    omega
  exact ⟨h.inflight.trans hqueued.symm, h.inactive.trans hinactive.symm, h.reads, h.noWrap⟩

theorem ledger_start (h : s.Start) : s.Ledger n := by
  obtain ⟨hoff, hinflight, hinactive, hreads, hwrap, -⟩ := h
  refine ⟨?_, ?_, fun cpu wb hr => ?_, hwrap⟩
  · rw [hinflight, tally_zero fun k _ => by simp [WbBlock.queuedLen, hoff k]]
  · rw [hinactive, tally_zero fun k _ => by simp [WbBlock.inactiveLen, hoff k]]
  · rw [hreads cpu] at hr
    cases hr

theorem ledger_of_step {e : WbEvent} (h : s.Ledger n) (hok : s.Tracked e)
    (hs : step n s e = some t) : t.Ledger n := by
  cases e with
  | fetch b size proactive =>
      obtain ⟨⟨hb, hoff⟩, rfl⟩ := Transition.of_guard hs
      have hset : s.Moves b (s.setBlock b { s.block b with size := size, resident := true }) :=
        moves_setBlock (by simp [WbBlock.queuedLen, hoff]) (by simp [WbBlock.inactiveLen, hoff])
      refine ledger_of_grow h hb
        (hset.trans (moves_addGpasToActiveList proactive (by simp [hoff]))) ?_
      rw [inactiveLen_addGpas]
      simp [WbBlock.inactiveLen, hoff]
  | deactivate b =>
      obtain ⟨⟨hb, hplace, -⟩, rfl⟩ := Transition.of_guard hs
      exact ledger_makeInactive h hb rfl (by rw [(block_removeFromActive hplace).1]) hplace
  | orphan b =>
      obtain ⟨⟨hb, hplace⟩, rfl⟩ := Transition.of_guard hs
      exact ledger_makeInactive h hb rfl (by rw [(block_removeFromActive hplace).1]) hplace
  | promoteVictim b =>
      obtain ⟨⟨hb, hplace⟩, rfl⟩ := Transition.of_guard hs
      have hi : (s.block b).inactiveLen = (s.block b).size := by
        simp [WbBlock.inactiveLen, hplace]
      have hsub := moves_subInactive (s := s) (b := b)
        (r := { s.block b with place := .off, promote := false }) rfl rfl
        (by simp [WbBlock.queuedLen, hplace]) hi
      refine ledger_of_leave h hb
        (hsub.trans (moves_addGpasToActiveList true (by simp [subInactive, setBlock]))) hok
        (inactiveLen_addGpas true) hi
  | drop b =>
      obtain ⟨⟨hb, hplace⟩, rfl⟩ := Transition.of_guard hs
      have hi : (s.block b).inactiveLen = (s.block b).size := by
        simp [WbBlock.inactiveLen, hplace]
      refine ledger_of_leave h hb
        (moves_clearAndReclaim (by simp [WbBlock.queuedLen, hplace]) hi) hok ?_ hi
      simp [block_clearAndReclaim, WbBlock.inactiveLen]
  | post b cpu =>
      obtain ⟨⟨hb, hplace⟩, rfl⟩ := Transition.of_guard hs
      refine ledger_of_grow h hb (moves_pushWritebackRequest hplace) ?_
      simp [pushWritebackRequest, setBlock, WbBlock.inactiveLen, hplace]
  | reduce b buddy size =>
      obtain ⟨⟨hb, hbuddy, hne, hplace, hoff, hsize⟩, rfl⟩ := Transition.of_guard hs
      exact ledger_reduce h hb hbuddy hne hplace hoff hsize
  | setPromote b =>
      obtain ⟨⟨hb, -⟩, rfl⟩ := Transition.of_guard hs
      exact ledger_of_grow h hb (moves_setBlock rfl rfl) (by simp [WbBlock.inactiveLen])
  | pin b =>
      obtain ⟨⟨hb, -⟩, rfl⟩ := Transition.of_guard hs
      exact ledger_of_grow h hb (moves_setBlock rfl rfl) (by simp [WbBlock.inactiveLen])
  | dontNeed b =>
      obtain ⟨⟨hb, -⟩, rfl⟩ := Transition.of_guard hs
      exact ledger_of_grow h hb (moves_setBlock rfl rfl) (by simp [WbBlock.inactiveLen])
  | complete b =>
      obtain ⟨⟨hb, -⟩, rfl⟩ := Transition.of_guard hs
      exact ledger_of_grow h hb (moves_setBlock rfl rfl) (by simp [WbBlock.inactiveLen])
  | take b actor =>
      obtain ⟨⟨hb, hq⟩, rfl⟩ := Transition.of_guard hs
      exact ledger_of_grow h hb (moves_dequeue hq hok) (inactiveLen_dequeue hq).ge
  | clear b =>
      simp only [step] at hs
      split at hs
      next actor hplace =>
        obtain ⟨⟨hb, -⟩, rfl⟩ := Transition.of_guard hs
        obtain ⟨hm, hleft⟩ := moves_clearBy hplace
        exact ledger_of_leave h hb ⟨hm.rest, hm.inflight, hm.inactive, hm.reads, hm.wrapped⟩ hok
          hleft (by simp [WbBlock.inactiveLen, hplace])
      next => cases hs
  | readInflight cpu =>
      cases hs
      refine ⟨h.inflight, h.inactive, fun c wb hr => ?_, h.noWrap⟩
      by_cases hc : c = cpu
      · have hwb : s.inflightWritebackPageLen = wb := by simpa [hc] using hr
        exact hwb ▸ h.le
      · exact h.reads c wb (by simpa [Function.update_of_ne hc] using hr)
  | readInactive cpu =>
      obtain ⟨wb, hwb, rfl⟩ := Option.map_eq_some_iff.mp hs
      refine ⟨h.inflight, h.inactive, fun c wb' hr => ?_, ?_⟩
      · by_cases hc : c = cpu
        · simp [hc] at hr
        · exact h.reads c wb' (by simpa [Function.update_of_ne hc] using hr)
      · have hle := h.reads cpu wb hwb
        simp [h.noWrap, hle]

theorem ledger_of_reach (h : Transition.ReachWhen Start (step n) Tracked s) : s.Ledger n :=
  h.invariant (fun _ => ledger_start) fun _ _ _ => ledger_of_step

/-- In every run in which no block leaves its writeback list through an asynchronous wait and
no pages counted by a pending read stop to be inactive, the in-flight counter is the total of
the queued blocks, stays below the inactive count, and the pressure never wraps. -/
theorem pressureOk_of_reach (h : Transition.ReachWhen Start (step n) Tracked s) :
    s.PressureOk n := by
  have hl := ledger_of_reach h
  exact ⟨hl.inflight, hl.le, hl.noWrap⟩

/-- A block of eight pages is made inactive and posted, and its writes complete. -/
def posted (cpu : ℕ) : List WbEvent :=
  [.fetch 0 8 false, .deactivate 0, .post 0 cpu, .complete 0]

/-- A fault takes the posted block back. -/
theorem pressureOk_of_fault : ∃ s, Transition.exec (step 1) blank
    (posted 0 ++ [.take 0 .fault, .readInflight 0, .readInactive 0, .clear 0]) = some s ∧
      s.PressureOk 1 := by
  have hok : Transition.Allowed (step 1) Tracked blank
      (posted 0 ++ [.take 0 .fault, .readInflight 0, .readInactive 0, .clear 0]) :=
    ⟨trivial, trivial, trivial, trivial, (fun ha => by cases ha), trivial, trivial,
      (fun cpu wb hr => by
        have hnone : Function.update (Function.update (fun _ => none) 0 (some (0 : ℤ))) 0 none cpu
          = some wb := hr
        simp at hnone), trivial⟩
  exact ⟨_, rfl, pressureOk_of_reach (.exec (.start start_blank) hok rfl)⟩

/-- An asynchronous wait clears the posted block: eight pages stay in flight with no block on
a list and no page inactive, and the pressure computed from the two counters wraps. -/
theorem leak_of_wait : ∃ s, Transition.exec (step 1) blank
    (posted 0 ++ [.take 0 .wait, .clear 0, .readInflight 0, .readInactive 0]) = some s ∧
      Transition.Reach Start (step 1) s ∧ s.inflightWritebackPageLen = 8 ∧
      s.inactivePageLen = 0 ∧ (s.block 0).place = .off ∧ s.wrapped = true ∧
      ¬ s.PressureOk 1 := by
  have hrun : ∀ s, Transition.exec (step 1) blank
      (posted 0 ++ [.take 0 .wait, .clear 0, .readInflight 0, .readInactive 0]) = some s →
      Transition.Reach Start (step 1) s :=
    fun _ he => Transition.Reach.exec (.start start_blank) he
  refine ⟨_, rfl, hrun _ rfl, rfl, rfl, rfl, rfl, fun h => ?_⟩
  have hwrap := h.noWrap
  cases hwrap

end WbSys

end Emp
