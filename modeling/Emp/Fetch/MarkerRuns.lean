import Emp.Fetch.Marker
import Mathlib

/-!
# When the marker tells the end of a read

A read that waits for its marker has the marker in place until its last word arrives, and contents
that do not end with it.  Where a page without the marker is read into, or contents that end with
it arrive, or a setting is switched between the allocation and the wait, the marker tells nothing:
a poll reports a read that is still in flight, or never reports it, or a page is mapped ahead
before it has arrived.

## Main definitions

* `MarkedSys.Reported` — what a poll and a mapping should be.
* `MarkedSys.Kept` — the steps that keep it.
* `MarkedRead.Sound` — the invariant.
-/

namespace Emp

/-! ### Marking -/

theorem lastWord_inj {p q : ℕ} (h : lastWord p = lastWord q) : p = q := by
  simp only [lastWord, pageWords] at h
  omega

/-- **A marked page ends with the marker.** -/
theorem markPages_lastWord {k p : ℕ} (h : p < k) (mem : ℕ → UInt64) :
    markPages k mem (lastWord p) = emptyPage := by
  induction k with
  | zero => exact absurd h (Nat.not_lt_zero p)
  | succ k ih =>
      rw [markPages]
      by_cases hpk : p = k
      · rw [hpk, Function.update_self]
      · rw [Function.update_of_ne fun he => hpk (lastWord_inj he)]
        exact ih (by omega)

/-! ### The invariant -/

/-- What holds of a read, with the order of its subblock and whether it is memory-polled. -/
structure MarkedRead.Sound (r : MarkedRead) (order : ℕ) (mempoll : Bool) : Prop where
  bound : r.arrived ≤ pageWords * 2 ^ order
  fresh : r.stage = .allocated → r.arrived = 0
  stage : r.w ≠ none → r.stage = .posted
  state : ∀ x, r.w = some x → x = .postRead ∨ x = .ready ∨ x = .prFailed
  written : r.stage = .posted → ∀ j < r.arrived, r.mem j = r.data j
  ready : r.w = some .ready → r.arrived = pageWords * 2 ^ order
  polled : r.w ≠ none → mempoll = true → r.data (pageWords * 2 ^ order - 1) ≠ emptyPage ∧
    (r.arrived < pageWords * 2 ^ order → r.mem (pageWords * 2 ^ order - 1) = emptyPage)
  mapped : ∀ p, r.mapped p = true → lastWord p < r.arrived
  entered : ∀ p, r.demand = .entered p → p < 2 ^ order ∧ r.w ≠ none
  looping : ∀ p k, r.demand = .looping p k → p < 2 ^ order ∧ r.w ≠ none ∧
    (r.arrived ≤ lastWord p → r.mem (lastWord p) = emptyPage)

namespace MarkedSys

variable {s t : MarkedSys} {i j : ℕ} {found : Option Bool}

/-- The invariant of all reads. -/
def Inv (s : MarkedSys) : Prop := ∀ i, (s.read i).Sound s.sbOrder (s.mempoll i)

theorem read_setRead {r : MarkedRead} : (s.setRead i r).read i = r := Function.update_self ..

theorem read_setRead_of_ne {r : MarkedRead} (h : j ≠ i) : (s.setRead i r).read j = s.read j :=
  Function.update_of_ne h ..

theorem inv_setRead {r : MarkedRead} (h : s.Inv)
    (hr : r.Sound s.sbOrder (s.context r.context).mempoll) : (s.setRead i r).Inv := by
  intro j
  rw [mempoll]
  by_cases hj : j = i
  · rw [hj, read_setRead]
    exact hr
  · rw [read_setRead_of_ne hj]
    exact h j

theorem mempoll_setContext {c d : ℕ} {x : MarkedContext}
    (hx : x.mempoll = (s.context c).mempoll) :
    ((s.setContext c x).context d).mempoll = (s.context d).mempoll := by
  show (Function.update s.context c x d).mempoll = _
  by_cases hd : d = c
  · rw [hd, Function.update_self, hx]
  · rw [Function.update_of_ne hd]

/-- The counters of a context do not matter. -/
theorem inv_setContext {c : ℕ} {x : MarkedContext} (h : s.Inv)
    (hx : x.mempoll = (s.context c).mempoll) : (s.setContext c x).Inv := by
  intro j
  rw [mempoll, mempoll_setContext hx]
  exact h j

/-! ### Polls -/

/-- What `is_wr_read_ready` looks for. -/
def Ready (s : MarkedSys) (i : ℕ) : Prop :=
  (s.read i).w = some .ready ∨
    s.mempoll i = true ∧ (s.read i).mem (s.numWords - 1) ≠ emptyPage

theorem setState_eq_self {x : WrState} (h : (s.read i).w = some x) : s.setState i x = s := by
  have hr : { s.read i with w := some x } = s.read i := by rw [← h]
  rw [setState, hr, setRead, Function.update_eq_self]

theorem isWrReadReady_of_ready (h : s.Ready i) :
    s.isWrReadReady i = (s.setState i .ready, true) := by
  rw [isWrReadReady]
  by_cases hw : (s.read i).w = some .ready
  · rw [if_pos hw, setState_eq_self hw]
  · obtain ⟨hm, hmem⟩ := h.resolve_left hw
    rw [if_neg hw, if_pos]
    rw [hm, Bool.true_and]
    exact bne_iff_ne.mpr hmem

theorem isWrReadReady_of_not (h : ¬ s.Ready i) : s.isWrReadReady i = (s, false) := by
  obtain ⟨hw, hm⟩ := not_or.mp h
  rw [isWrReadReady, if_neg hw, if_neg]
  intro hand
  obtain ⟨hpoll, hmem⟩ := Bool.and_eq_true_iff.mp hand
  exact hm ⟨hpoll, bne_iff_ne.mp hmem⟩

/-- **A read that is found ready has arrived.** -/
theorem arrived_of_ready (h : s.Inv) (hw : (s.read i).w ≠ none) (hr : s.Ready i) :
    (s.read i).arrived = s.numWords := by
  obtain hready | ⟨hm, hmem⟩ := hr
  · exact (h i).ready hready
  · have hlt : ¬ (s.read i).arrived < s.numWords :=
      fun hlt => hmem (((h i).polled hw hm).2 hlt)
    exact Nat.le_antisymm (h i).bound (Nat.not_lt.mp hlt)

/-- A request that is outstanding takes another state. -/
theorem inv_setState {x : WrState} (h : s.Inv) (hw : (s.read i).w ≠ none)
    (hx : x = .ready ∧ (s.read i).arrived = s.numWords ∨ x = .prFailed) :
    (s.setState i x).Inv := by
  have hi := h i
  refine inv_setRead h ⟨hi.bound, hi.fresh, fun _ => hi.stage hw, ?_, hi.written, ?_,
    fun _ => hi.polled hw, hi.mapped, fun p hp => ⟨(hi.entered p hp).1, nofun⟩, fun p k hp => ?_⟩
  · intro y hy
    obtain rfl := Option.some.inj hy
    exact .inr (hx.imp And.left id)
  · intro he
    obtain rfl := Option.some.inj he
    exact (hx.resolve_right nofun).2
  · obtain ⟨hlt, -, hmem⟩ := hi.looping p k hp
    exact ⟨hlt, nofun, hmem⟩

theorem inv_handleRdmaRead {ok : Bool} (h : s.Inv) (hd : s.Due i (some ok)) :
    (s.handleRdmaRead i ok).Inv := by
  obtain ⟨hw, -, harr⟩ := hd
  refine inv_setState (inv_setContext h rfl) ?_ ?_
  · show (s.read i).w ≠ none
    rw [hw]
    nofun
  · cases ok with
    | true => exact .inl ⟨rfl, harr rfl⟩
    | false => exact .inr rfl

/-- What a poll changes of a system: the state of the request it looks at. -/
structure Polls (i : ℕ) (s t : MarkedSys) : Prop where
  order : t.sbOrder = s.sbOrder
  read : t.read i = { s.read i with w := (t.read i).w }
  w : (t.read i).w ≠ none

theorem Polls.refl (hw : (s.read i).w ≠ none) : Polls i s s := ⟨rfl, rfl, hw⟩

theorem polls_setState {x : WrState} : Polls i s (s.setState i x) := by
  refine ⟨rfl, ?_, ?_⟩
  · rw [setState, read_setRead]
  · rw [setState, read_setRead]
    nofun

theorem Polls.trans {u : MarkedSys} (h : Polls i s t) (h' : Polls i t u) : Polls i s u := by
  refine ⟨h'.order.trans h.order, ?_, h'.w⟩
  rw [h'.read, h.read]

theorem polls_isWrReadReady (hw : (s.read i).w ≠ none) : Polls i s (s.isWrReadReady i).1 := by
  by_cases hr : s.Ready i
  · rw [isWrReadReady_of_ready hr]
    exact polls_setState
  · rw [isWrReadReady_of_not hr]
    exact .refl hw

theorem polls_empProcessCq (hw : (s.read i).w ≠ none) : Polls i s (s.empProcessCq i found) := by
  cases found with
  | none => exact .refl hw
  | some ok =>
      have hp := polls_setState (s := s.setContext (s.read i).context
        { s.context (s.read i).context with
          pending := (s.context (s.read i).context).pending - 1 })
        (i := i) (x := if ok then .ready else .prFailed)
      exact ⟨hp.order, hp.read, hp.w⟩

theorem inv_isWrReadReady (h : s.Inv) (hw : (s.read i).w ≠ none) : (s.isWrReadReady i).1.Inv := by
  by_cases hr : s.Ready i
  · rw [isWrReadReady_of_ready hr]
    exact inv_setState h hw (.inl ⟨rfl, arrived_of_ready h hw hr⟩)
  · rw [isWrReadReady_of_not hr]
    exact h

theorem inv_empProcessCq (h : s.Inv) (hd : s.Due i found) : (s.empProcessCq i found).Inv := by
  cases found with
  | none => exact h
  | some ok => exact inv_handleRdmaRead h hd

/-- A poll: the read is ready at once, has failed, or is judged after the completions. -/
theorem rdmaTryWaitRead_cases (s : MarkedSys) (i : ℕ) (found : Option Bool) :
    s.Ready i ∧ s.rdmaTryWaitRead i found = (s.setState i .ready, 1) ∨
    ¬ s.Ready i ∧ (s.read i).w = some .prFailed ∧ s.rdmaTryWaitRead i found = (s, -1) ∨
    ¬ s.Ready i ∧ (s.read i).w ≠ some .prFailed ∧
      ((s.empProcessCq i found).Ready i ∧
          s.rdmaTryWaitRead i found = ((s.empProcessCq i found).setState i .ready, 1) ∨
        ¬ (s.empProcessCq i found).Ready i ∧
          s.rdmaTryWaitRead i found = (s.empProcessCq i found, 0)) := by
  rw [rdmaTryWaitRead]
  by_cases hr : s.Ready i
  · rw [isWrReadReady_of_ready hr]
    exact .inl ⟨hr, rfl⟩
  · rw [isWrReadReady_of_not hr]
    by_cases hf : (s.read i).w = some .prFailed
    · exact .inr (.inl ⟨hr, hf, if_pos hf⟩)
    · refine .inr (.inr ⟨hr, hf, ?_⟩)
      by_cases hu : (s.empProcessCq i found).Ready i
      · refine .inl ⟨hu, ?_⟩
        simp only [isWrReadReady_of_ready hu, hf, Bool.false_eq_true, if_false, if_true]
      · refine .inr ⟨hu, ?_⟩
        simp only [isWrReadReady_of_not hu, hf, Bool.false_eq_true, if_false]

/-- What a poll keeps, and what its result says. -/
theorem rdmaTryWaitRead_spec (h : s.Inv) (hw : (s.read i).w ≠ none) (hd : s.Due i found) :
    (s.rdmaTryWaitRead i found).1.Inv ∧ Polls i s (s.rdmaTryWaitRead i found).1 ∧
      ((s.rdmaTryWaitRead i found).2 = 1 → (s.read i).arrived = s.numWords) ∧
      ((s.rdmaTryWaitRead i found).2 ≠ 0 → (s.rdmaTryWaitRead i found).2 ≠ 1 →
        (s.read i).w = some .prFailed) := by
  have hu := inv_empProcessCq h hd
  have hp : Polls i s (s.empProcessCq i found) := polls_empProcessCq hw
  obtain ⟨hr, he⟩ | ⟨-, hf, he⟩ | ⟨-, -, ⟨hr, he⟩ | ⟨-, he⟩⟩ := rdmaTryWaitRead_cases s i found
  · have harr := arrived_of_ready h hw hr
    rw [he]
    exact ⟨inv_setState h hw (.inl ⟨rfl, harr⟩), polls_setState, fun _ => harr,
      fun _ h1 => absurd rfl h1⟩
  · rw [he]
    exact ⟨h, .refl hw, nofun, fun _ _ => hf⟩
  · have harr := arrived_of_ready hu hp.w hr
    rw [he]
    refine ⟨inv_setState hu hp.w (.inl ⟨rfl, harr⟩), hp.trans polls_setState, fun _ => ?_,
      fun _ h1 => absurd rfl h1⟩
    rw [hp.read, numWords, numPages, hp.order] at harr
    exact harr
  · rw [he]
    exact ⟨hu, hp, nofun, fun h0 => absurd rfl h0⟩

/-! ### What a poll and a mapping should be -/

/-- The read has no completion of its own, or it has been taken in or is found. -/
def Told (s : MarkedSys) (i : ℕ) (found : Option Bool) : Prop :=
  s.mempoll i = true ∨ (s.read i).w ≠ some .postRead ∨ found = some true

/-- A read is reported complete only after all of it has arrived, and by the first poll after that
and its completion; a page is mapped ahead only after it has arrived, and the wait for it ends
with the next round of looks. -/
structure Reported (s : MarkedSys) (i : ℕ) : Prop where
  waitDone : (s.read i).w ≠ none → (s.rdmaWaitRead i).2 = some 0 →
    (s.read i).arrived = s.numWords
  pollDone : (s.read i).w ≠ none → ∀ found, s.Due i found →
    (s.rdmaTryWaitRead i found).2 = 1 → (s.read i).arrived = s.numWords
  waitEnds : (s.read i).w ≠ none → (s.read i).arrived = s.numWords → s.Told i none →
    (s.rdmaWaitRead i).2 ≠ none
  pollEnds : (s.read i).w ≠ none → (s.read i).arrived = s.numWords →
    ∀ found, s.Due i found → s.Told i found → (s.rdmaTryWaitRead i found).2 ≠ 0
  ahead : ∀ p, (s.read i).mapped p = true → lastWord p < (s.read i).arrived
  demandEnds : ∀ p k, (s.read i).demand = .looping p k → (s.read i).arrived = s.numWords →
    s.Told i none → ((demandLooks i (k + 1) s).read i).demand = .idle

/-- The steps that keep it.  A memory-polled read is posted into pages that end with the marker,
for contents that do not; when the wait for a demand page begins, both settings are on and the
page ends with the marker, unless it has arrived; and the wait does not fall back on a read that
has failed. -/
def Kept (s : MarkedSys) : MarkedEvent → Prop
  | .post i c data _ => (s.context c).mempoll = true →
      (s.read i).mem (s.numWords - 1) = emptyPage ∧ data (s.numWords - 1) ≠ emptyPage
  | .startDemand i => ∀ p, (s.read i).demand = .entered p → lastWord p < (s.read i).arrived ∨
      s.markEmptyPage = true ∧ s.criticalPageFirst = true ∧
        (s.read i).mem (lastWord p) = emptyPage
  | .demandLook i _ => ∀ p, (s.read i).demand = .looping p 0 → (s.read i).w = some .prFailed →
      (s.read i).arrived = s.numWords ∨ (s.read i).mem (lastWord p) ≠ emptyPage
  | _ => True

theorem rdmaWaitRead_of_ready (h : s.Ready i) : (s.rdmaWaitRead i).2 = some 0 := by
  rw [rdmaWaitRead, isWrReadReady_of_ready h]
  rfl

theorem rdmaWaitRead_of_not (h : ¬ s.Ready i) :
    (s.rdmaWaitRead i).2 = if (s.read i).w = some .prFailed then some (-1) else none := by
  rw [rdmaWaitRead, isWrReadReady_of_not h]
  simp only [Bool.false_eq_true, if_false, apply_ite Prod.snd]

theorem numWords_pos (s : MarkedSys) : 0 < s.numWords :=
  Nat.mul_pos (Nat.succ_pos _) (Nat.two_pow_pos _)

/-- **Pages that are allocated while they are marked may be read into.** -/
theorem kept_post_allocPages {c : ℕ} {stale data : ℕ → UInt64} {alloc : Bool}
    (hmark : s.markEmptyPage = true) (hdata : data (s.numWords - 1) ≠ emptyPage) :
    (s.allocPages i stale).Kept (.post i c data alloc) := by
  intro _
  refine ⟨?_, hdata⟩
  have hpos : 0 < s.numPages := Nat.two_pow_pos _
  have hlast : s.numWords - 1 = lastWord (s.numPages - 1) := by
    simp only [numWords, lastWord, pageWords]
    omega
  rw [allocPages, read_setRead, if_pos hmark]
  show markPages s.numPages stale (s.numWords - 1) = emptyPage
  rw [hlast]
  exact markPages_lastWord (Nat.sub_one_lt (Nat.ne_of_gt hpos)) stale

/-- A read that has arrived is ready or has failed. -/
theorem ready_or_failed (h : s.Inv) (hw : (s.read i).w ≠ none)
    (harr : (s.read i).arrived = s.numWords) (ht : s.Told i none) :
    s.Ready i ∨ (s.read i).w = some .prFailed := by
  have hi := h i
  obtain hm | hst | hf := ht
  · refine .inl (.inr ⟨hm, ?_⟩)
    have hpos : s.numWords - 1 < (s.read i).arrived := by
      rw [harr]
      exact Nat.sub_one_lt (Nat.ne_of_gt s.numWords_pos)
    rw [hi.written (hi.stage hw) _ hpos]
    exact (hi.polled hw hm).1
  · obtain ⟨x, hx⟩ := Option.ne_none_iff_exists'.mp hw
    obtain rfl | rfl | rfl := hi.state x hx
    · exact absurd hx hst
    · exact .inl (.inl hx)
    · exact .inr hx
  · cases hf

theorem ready_setDemand {d : DemandWait} : (s.setDemand i d).Ready i ↔ s.Ready i := by
  rw [Ready, Ready, mempoll, mempoll, setDemand, read_setRead]
  exact Iff.rfl

theorem demand_mapAhead {p : ℕ → Bool} : ((s.mapAhead i p).read i).demand = .idle := by
  rw [mapAhead, read_setRead]

theorem demand_setDemand {d : DemandWait} : ((s.setDemand i d).read i).demand = d := by
  rw [setDemand, read_setRead]

theorem demandLooks_of_idle (h : (s.read i).demand = .idle) (k : ℕ) : demandLooks i k s = s := by
  cases k with
  | zero => rfl
  | succ k => simp only [demandLooks, h]

/-- The fallback ends the wait for a read that is ready or has failed. -/
theorem demand_fallback {p : ℕ} (hr : s.Ready i ∨ (s.read i).w = some .prFailed) :
    ((s.demandLook i p 0 none).read i).demand = .idle := by
  rw [demandLook, if_pos rfl]
  split_ifs
  · exact demand_mapAhead
  · obtain ⟨-, he⟩ | ⟨-, -, he⟩ | ⟨hn, hf, -⟩ := rdmaTryWaitRead_cases s i none
    · rw [he]
      exact demand_mapAhead
    · rw [he]
      exact demand_mapAhead
    · exact absurd hr (not_or.mpr ⟨hn, hf⟩)

/-- The loop ends with the look that falls back, if not before. -/
theorem demandLooks_idle {p k : ℕ} (hr : s.Ready i ∨ (s.read i).w = some .prFailed)
    (hd : (s.read i).demand = .looping p k) :
    ((demandLooks i (k + 1) s).read i).demand = .idle := by
  induction k generalizing s with
  | zero =>
      simp only [demandLooks, hd]
      exact demand_fallback hr
  | succ k ih =>
      rw [demandLooks]
      simp only [hd]
      by_cases hmem : (s.read i).mem (lastWord p) = emptyPage
      · have he : s.demandLook i p (k + 1) none = s.setDemand i (.looping p k) := by
          simp only [demandLook, hmem, ne_eq, not_true_eq_false, if_false, Nat.add_one_ne_zero,
            Nat.add_one_sub_one]
        rw [he]
        refine ih ?_ demand_setDemand
        rw [ready_setDemand, setDemand, read_setRead]
        exact hr
      · have he : s.demandLook i p (k + 1) none = s.mapAhead i (· == p) := if_pos hmem
        rw [he, demandLooks_of_idle demand_mapAhead]
        exact demand_mapAhead

theorem ready_handleRdmaRead : (s.handleRdmaRead i true).Ready i := by
  refine .inl ?_
  rw [handleRdmaRead, setState, read_setRead]
  rfl

/-- **The invariant gives the property.** -/
theorem Inv.reported (h : s.Inv) (i : ℕ) : s.Reported i := by
  refine ⟨fun hw hdone => ?_, fun hw found hd => (rdmaTryWaitRead_spec h hw hd).2.2.1,
    fun hw harr ht => ?_, fun hw harr found hd ht => ?_, (h i).mapped, fun p k hd harr ht => ?_⟩
  · by_cases hr : s.Ready i
    · exact arrived_of_ready h hw hr
    · rw [rdmaWaitRead_of_not hr] at hdone
      split_ifs at hdone
      · cases hdone
  · by_cases hr : s.Ready i
    · rw [rdmaWaitRead_of_ready hr]
      nofun
    · have hf := (ready_or_failed h hw harr ht).resolve_left hr
      rw [rdmaWaitRead_of_not hr, if_pos hf]
      nofun
  · obtain ⟨-, he⟩ | ⟨-, -, he⟩ | ⟨hn, hf, ⟨-, he⟩ | ⟨hu, -⟩⟩ := rdmaTryWaitRead_cases s i found
    · rw [he]
      nofun
    · rw [he]
      nofun
    · rw [he]
      nofun
    · have hnone : ¬ s.Told i none := fun ht => not_or.mpr ⟨hn, hf⟩ (ready_or_failed h hw harr ht)
      obtain hm | hst | rfl := ht
      · exact absurd (.inl hm) hnone
      · exact absurd (.inr (.inl hst)) hnone
      · exact absurd ready_handleRdmaRead hu
  · exact demandLooks_idle (ready_or_failed h ((h i).looping p k hd).2.1 harr ht) hd

/-! ### Steps -/

theorem inv_allocPages {stale : ℕ → UInt64} (h : s.Inv) (hw : (s.read i).w = none)
    (hd : (s.read i).demand = .idle) : (s.allocPages i stale).Inv := by
  refine inv_setRead h ⟨Nat.zero_le _, fun _ => rfl, fun hn => absurd hw hn, ?_, nofun, ?_,
    fun hn => absurd hw hn, nofun, ?_, ?_⟩
  · intro x hx
    exact absurd (hw.symm.trans hx) nofun
  · intro hx
    exact absurd (hw.symm.trans hx) nofun
  · intro p hp
    exact absurd (hd.symm.trans hp) nofun
  · intro p k hp
    exact absurd (hd.symm.trans hp) nofun

theorem inv_rdmaPostRead {c : ℕ} {data : ℕ → UInt64} {alloc : Bool} (h : s.Inv)
    (hstage : (s.read i).stage = .allocated)
    (hok : (s.context c).mempoll = true → (s.read i).mem (s.numWords - 1) = emptyPage ∧
      data (s.numWords - 1) ≠ emptyPage) : (s.rdmaPostRead i c data alloc).Inv := by
  have hi := h i
  have harr := hi.fresh hstage
  have hw : (s.read i).w = none := by
    by_contra hn
    exact absurd (hstage.symm.trans (hi.stage hn)) nofun
  refine inv_setContext (inv_setRead h ⟨hi.bound, nofun, fun _ => rfl, ?_, ?_, nofun, ?_,
    hi.mapped, ?_, ?_⟩) rfl
  · intro x hx
    exact .inl (Option.some.inj hx).symm
  · intro _ j hj
    exact absurd (harr ▸ hj) (Nat.not_lt_zero j)
  · intro _ hm
    exact ⟨(hok hm).2, fun _ => (hok hm).1⟩
  · intro p hp
    exact absurd hw (hi.entered p hp).2
  · intro p k hp
    exact absurd hw (hi.looping p k hp).2.1

theorem inv_deliver (h : s.Inv) (hstage : (s.read i).stage = .posted)
    (hlt : (s.read i).arrived < s.numWords) : (s.deliver i).Inv := by
  have hi := h i
  have hne : ∀ {j : ℕ} {g : ℕ → UInt64} {x : UInt64}, (s.read i).arrived < j →
      Function.update g (s.read i).arrived x j = g j :=
    fun hj => Function.update_of_ne (Nat.ne_of_gt hj) ..
  refine inv_setRead h ⟨hlt, fun hx => absurd (hstage.symm.trans hx) nofun, hi.stage, hi.state,
    ?_, ?_, ?_, ?_, hi.entered, ?_⟩
  · intro _ j hj
    obtain hj | rfl := Nat.lt_succ_iff_lt_or_eq.mp hj
    · exact (Function.update_of_ne (Nat.ne_of_lt hj) ..).trans (hi.written hstage j hj)
    · exact Function.update_self ..
  · intro hr
    exact absurd (hi.ready hr) (Nat.ne_of_lt hlt)
  · intro hw hm
    refine ⟨(hi.polled hw hm).1, fun hlt' => ?_⟩
    have hlast : (s.read i).arrived < pageWords * 2 ^ s.sbOrder - 1 := by
      change (s.read i).arrived + 1 < _ at hlt'
      omega
    exact (hne hlast).trans ((hi.polled hw hm).2 hlt)
  · intro p hp
    exact Nat.lt_succ_of_lt (hi.mapped p hp)
  · intro p k hp
    obtain ⟨hpn, hw, hmem⟩ := hi.looping p k hp
    refine ⟨hpn, hw, fun hle => ?_⟩
    exact (hne hle).trans (hmem (Nat.le_of_succ_le hle))

theorem inv_clearRequest (h : s.Inv) (hd : (s.read i).demand = .idle) :
    (s.clearRequest i).Inv := by
  have hi := h i
  refine inv_setRead h ⟨hi.bound, hi.fresh, fun hn => absurd rfl hn, nofun, hi.written, nofun,
    fun hn => absurd rfl hn, hi.mapped, fun p hp => ?_, fun p k hp => ?_⟩
  · exact absurd (hd.symm.trans hp) nofun
  · exact absurd (hd.symm.trans hp) nofun

theorem inv_mapAhead {p : ℕ → Bool} (h : s.Inv)
    (hp : ∀ q, p q = true → lastWord q < (s.read i).arrived) : (s.mapAhead i p).Inv := by
  have hi := h i
  refine inv_setRead h ⟨hi.bound, hi.fresh, hi.stage, hi.state, hi.written, hi.ready, hi.polled,
    fun q hq => ?_, nofun, nofun⟩
  obtain hq | hq := Bool.or_eq_true_iff.mp hq
  · exact hp q hq
  · exact hi.mapped q hq

theorem mapAhead_clearRequest {p : ℕ → Bool} :
    (s.clearRequest i).mapAhead i p = (s.mapAhead i p).clearRequest i := by
  simp only [clearRequest, mapAhead, setRead, Function.update_self, Function.update_idem]

theorem inv_setDemand {d : DemandWait} (h : s.Inv) (he : ∀ p, d = .entered p →
      p < s.numPages ∧ (s.read i).w ≠ none)
    (hl : ∀ p k, d = .looping p k → p < s.numPages ∧ (s.read i).w ≠ none ∧
      ((s.read i).arrived ≤ lastWord p → (s.read i).mem (lastWord p) = emptyPage)) :
    (s.setDemand i d).Inv := by
  have hi := h i
  exact inv_setRead h ⟨hi.bound, hi.fresh, hi.stage, hi.state, hi.written, hi.ready, hi.polled,
    hi.mapped, he, hl⟩

theorem rdmaWaitRead_fst : (s.rdmaWaitRead i).1 = (s.isWrReadReady i).1 := by
  rw [rdmaWaitRead]
  dsimp only
  split_ifs <;> rfl

theorem inv_waitReadAsync (h : s.Inv) (hw : (s.read i).w ≠ none)
    (hd : (s.read i).demand = .idle) : (s.waitReadAsync i).Inv := by
  have ht := inv_isWrReadReady h hw
  have hp := polls_isWrReadReady hw
  rw [waitReadAsync]
  dsimp only
  rw [rdmaWaitRead_fst]
  split_ifs
  · refine inv_clearRequest ht ?_
    rw [hp.read]
    exact hd
  · exact ht

theorem inv_tryWaitReadAsync (h : s.Inv) (hw : (s.read i).w ≠ none)
    (hd : (s.read i).demand = .idle) (hdue : s.Due i found) : (s.tryWaitReadAsync i found).Inv := by
  obtain ⟨ht, hp, -, -⟩ := rdmaTryWaitRead_spec h hw hdue
  rw [tryWaitReadAsync]
  dsimp only
  split_ifs
  · refine inv_clearRequest ht ?_
    rw [hp.read]
    exact hd
  · exact ht

theorem inv_clearFetchingDemandPage {p : ℕ} (h : s.Inv) (hd : (s.read i).demand = .entered p)
    (hok : lastWord p < (s.read i).arrived ∨ s.markEmptyPage = true ∧
      s.criticalPageFirst = true ∧ (s.read i).mem (lastWord p) = emptyPage) :
    (s.clearFetchingDemandPage i p).Inv := by
  obtain ⟨hpn, hw⟩ := (h i).entered p hd
  rw [clearFetchingDemandPage]
  split_ifs with hoff
  · refine inv_mapAhead h fun q hq => ?_
    obtain rfl := beq_iff_eq.mp hq
    refine hok.resolve_right fun ⟨hm, hc, _⟩ => ?_
    obtain hn | hn | hn := hoff
    · exact hw hn
    · exact Bool.false_ne_true (hn.symm.trans hm)
    · exact Bool.false_ne_true (hn.symm.trans hc)
  · refine inv_setDemand h nofun fun q k hq => ?_
    obtain ⟨rfl, -⟩ := DemandWait.looping.inj hq
    exact ⟨hpn, hw, fun hle => (hok.resolve_left (Nat.not_lt.mpr hle)).2.2⟩

/-- The last word of a page is one of the subblock. -/
theorem lastWord_lt {p : ℕ} (hp : p < s.numPages) : lastWord p < s.numWords := by
  have hle : pageWords * (p + 1) ≤ pageWords * s.numPages := Nat.mul_le_mul_left _ hp
  rw [Nat.mul_add_one] at hle
  simp only [lastWord, numWords, pageWords] at hle ⊢
  omega

theorem inv_demandLook {p retry : ℕ} (h : s.Inv) (hd : (s.read i).demand = .looping p retry)
    (hdue : s.Due i found) (hok : retry = 0 → (s.read i).w = some .prFailed →
      (s.read i).arrived = s.numWords ∨ (s.read i).mem (lastWord p) ≠ emptyPage) :
    (s.demandLook i p retry found).Inv := by
  obtain ⟨hpn, hw, hmem⟩ := (h i).looping p retry hd
  rw [demandLook]
  by_cases hm : (s.read i).mem (lastWord p) = emptyPage
  · rw [if_neg (not_not.mpr hm)]
    by_cases h0 : retry = 0
    · obtain ⟨ht, hp, hone, hfail⟩ := rdmaTryWaitRead_spec h hw hdue
      rw [if_pos h0]
      dsimp only
      split_ifs with hdone
      · have harr : (s.read i).arrived = s.numWords := by
          by_cases h1 : (s.rdmaTryWaitRead i found).2 = 1
          · exact hone h1
          · exact (hok h0 (hfail hdone h1)).resolve_right (not_not.mpr hm)
        rw [mapAhead_clearRequest]
        refine inv_clearRequest (inv_mapAhead ht fun q hq => ?_) demand_mapAhead
        rw [hp.read]
        show lastWord q < (s.read i).arrived
        have hq := of_decide_eq_true hq
        rw [numPages, hp.order] at hq
        rw [harr]
        exact lastWord_lt hq
      · refine inv_setDemand ht nofun fun q k hq => ?_
        obtain ⟨rfl, -⟩ := DemandWait.looping.inj hq
        rw [hp.read]
        refine ⟨?_, hp.w, fun _ => hm⟩
        rw [numPages, hp.order]
        exact hpn
    · rw [if_neg h0]
      refine inv_setDemand h nofun fun q k hq => ?_
      obtain ⟨rfl, -⟩ := DemandWait.looping.inj hq
      exact ⟨hpn, hw, hmem⟩
  · rw [if_pos hm]
    refine inv_mapAhead h fun q hq => ?_
    obtain rfl := beq_iff_eq.mp hq
    exact Nat.not_le.mp fun hle => hm (hmem hle)

/-- **A step that meets the condition keeps the invariant.** -/
theorem inv_step {e : MarkedEvent} (h : s.Inv) (hok : s.Kept e) (hs : s.step e = some t) :
    t.Inv := by
  unfold step at hs
  cases e with
  | setMark v => exact Option.some.inj hs ▸ fun i => h i
  | setCsf v => exact Option.some.inj hs ▸ fun i => h i
  | setCpf v =>
      dsimp only at hs
      split_ifs at hs
      · exact Option.some.inj hs ▸ h
      · exact Option.some.inj hs ▸ fun i => h i
  | alloc i stale =>
      obtain ⟨⟨hw, hd⟩, rfl⟩ := Transition.of_guard hs
      exact inv_allocPages h hw hd
  | post i c data alloc =>
      obtain ⟨hstage, rfl⟩ := Transition.of_guard hs
      exact inv_rdmaPostRead h hstage hok
  | deliver i =>
      obtain ⟨⟨hstage, hlt⟩, rfl⟩ := Transition.of_guard hs
      exact inv_deliver h hstage hlt
  | complete i ok =>
      obtain ⟨hd, rfl⟩ := Transition.of_guard hs
      exact inv_handleRdmaRead h hd
  | completeShared c =>
      obtain ⟨size, -, rfl⟩ := Option.map_eq_some_iff.mp hs
      exact inv_setContext h rfl
  | wait i =>
      obtain ⟨⟨hw, hd⟩, rfl⟩ := Transition.of_guard hs
      exact inv_waitReadAsync h hw hd
  | tryWait i found =>
      obtain ⟨⟨hw, hd, hdue⟩, rfl⟩ := Transition.of_guard hs
      exact inv_tryWaitReadAsync h hw hd hdue
  | enterDemand i p =>
      obtain ⟨⟨-, -, hw, -, hp⟩, rfl⟩ := Transition.of_guard hs
      refine inv_setDemand h (fun q hq => ?_) nofun
      obtain rfl := DemandWait.entered.inj hq
      exact ⟨hp, hw⟩
  | startDemand i =>
      cases hd : (s.read i).demand with
      | entered p =>
          simp only [hd] at hs
          exact Option.some.inj hs ▸ inv_clearFetchingDemandPage h hd (hok p hd)
      | idle =>
          simp only [hd] at hs
          cases hs
      | looping p k =>
          simp only [hd] at hs
          cases hs
  | demandLook i found =>
      cases hd : (s.read i).demand with
      | looping p k =>
          simp only [hd] at hs
          obtain ⟨hdue, rfl⟩ := Transition.of_guard hs
          refine inv_demandLook h hd hdue fun h0 hf => hok p ?_ hf
          rw [hd, h0]
      | idle =>
          simp only [hd] at hs
          cases hs
      | entered p =>
          simp only [hd] at hs
          cases hs

/-! ### Steps that break it -/

/-- The adapter can write the first `k` words. -/
theorem exec_deliver (hstage : (s.read i).stage = .posted) (harr : (s.read i).arrived = 0) {k : ℕ}
    (hk : k ≤ s.numWords) :
    ∃ u, Transition.exec step s (List.replicate k (.deliver i)) = some u ∧
      u.sbOrder = s.sbOrder ∧ u.context = s.context ∧
      u.read i = { s.read i with
        mem := fun j => if j < k then (s.read i).data j else (s.read i).mem j
        arrived := k } := by
  induction k with
  | zero =>
      refine ⟨s, rfl, rfl, rfl, ?_⟩
      have h0 : s.read i = { s.read i with arrived := 0 } := by rw [← harr]
      simpa only [Nat.not_lt_zero, if_false] using h0
  | succ k ih =>
      obtain ⟨u, hu, ho, hc, hr⟩ := ih (Nat.le_of_succ_le hk)
      have hn : u.numWords = s.numWords := by rw [numWords, numPages, ho, numWords, numPages]
      have hs : u.step (.deliver i) = some (u.deliver i) := by
        refine if_pos ⟨?_, ?_⟩
        · rw [hr]
          exact hstage
        · rw [hr, hn]
          exact hk
      refine ⟨u.deliver i, ?_, ho, hc, ?_⟩
      · rw [List.replicate_succ', Transition.exec_append, hu]
        simp only [Option.bind_some, Transition.exec_cons, hs, Transition.exec_nil]
      · rw [deliver, read_setRead, hr]
        dsimp only
        congr 1
        funext j
        rw [Function.update_apply]
        by_cases hj : j = k
        · rw [if_pos hj, if_pos (by omega), hj]
        · have hlt : j < k + 1 ↔ j < k := by omega
          simp only [if_neg hj, hlt]

theorem read_rdmaPostRead {c : ℕ} {data : ℕ → UInt64} {alloc : Bool} :
    (s.rdmaPostRead i c data alloc).read i =
      { s.read i with stage := .posted, data := data, w := some .postRead, context := c } :=
  read_setRead (s := s)

theorem mempoll_rdmaPostRead {c : ℕ} {data : ℕ → UInt64} {alloc : Bool} :
    (s.rdmaPostRead i c data alloc).mempoll i = (s.context c).mempoll := by
  rw [mempoll, read_rdmaPostRead, rdmaPostRead]
  exact mempoll_setContext (s := s.setRead i _) rfl

/-- A read is posted without the marker in place, or for contents that end with it. -/
theorem fails_of_post {c : ℕ} {data : ℕ → UInt64} {alloc : Bool} (h : s.Inv)
    (hs : s.step (.post i c data alloc) = some t) (hok : ¬ s.Kept (.post i c data alloc)) :
    ∃ es u, Transition.exec step t es = some u ∧ ¬ u.Reported i := by
  obtain ⟨hstage, rfl⟩ := Transition.of_guard hs
  obtain ⟨hm, hmark⟩ := Classical.not_imp.mp hok
  have hr : (s.rdmaPostRead i c data alloc).read i = _ := read_rdmaPostRead
  have hpoll : (s.rdmaPostRead i c data alloc).mempoll i = _ := mempoll_rdmaPostRead
  have hn : (s.rdmaPostRead i c data alloc).numWords = s.numWords := rfl
  generalize s.rdmaPostRead i c data alloc = t at hr hpoll hn ⊢
  have harr : (t.read i).arrived = 0 := by
    rw [hr]
    exact (h i).fresh hstage
  by_cases hmem : (s.read i).mem (s.numWords - 1) = emptyPage
  · -- the contents end with the marker: when they have arrived, no poll reports it
    have hdata : data (s.numWords - 1) = emptyPage := by
      by_contra hd
      exact hmark ⟨hmem, hd⟩
    obtain ⟨u, hu, ho, hc, hru⟩ :=
      exec_deliver (i := i) (by rw [hr]) harr (Nat.le_refl t.numWords)
    have hnu : u.numWords = s.numWords := by rw [← hn, numWords, numPages, ho, numWords, numPages]
    have hmu : u.mempoll i = true := by
      rw [mempoll, hc, hru]
      exact hpoll.trans hm
    have hw : (u.read i).w = some .postRead := by rw [hru, hr]
    refine ⟨_, u, hu, fun hrep => ?_⟩
    have hnot : ¬ u.Ready i := by
      rintro (hready | ⟨-, hlast⟩)
      · rw [hw] at hready
        cases hready
      · refine hlast ?_
        rw [hnu, hru, hr]
        dsimp only
        rw [if_pos (by rw [hn]; exact Nat.sub_one_lt (Nat.ne_of_gt s.numWords_pos)), hdata]
    refine hrep.waitEnds ?_ ?_ (.inl hmu) ?_
    · rw [hw]
      nofun
    · rw [hru, hn, hnu]
    · rw [rdmaWaitRead_of_not hnot, hw]
      rfl
  · -- the marker is not in place: the first poll reports the read
    refine ⟨[], t, rfl, fun hrep => ?_⟩
    have hready : t.Ready i := by
      refine .inr ⟨hpoll.trans hm, ?_⟩
      rw [hn, hr]
      exact hmem
    have hall := hrep.waitDone (by rw [hr]; nofun) (rdmaWaitRead_of_ready hready)
    rw [harr, hn] at hall
    exact Nat.ne_of_lt s.numWords_pos hall

theorem mapped_mapAhead {p : ℕ → Bool} {q : ℕ} (hq : p q = true) :
    ((s.mapAhead i p).read i).mapped q = true := by
  rw [mapAhead, read_setRead]
  exact Bool.or_eq_true_iff.mpr (.inl hq)

theorem arrived_mapAhead {p : ℕ → Bool} :
    ((s.mapAhead i p).read i).arrived = (s.read i).arrived := by
  rw [mapAhead, read_setRead]

/-- The wait for a demand page begins where nothing tells that the page has arrived. -/
theorem fails_of_startDemand (h : s.Inv) (hs : s.step (.startDemand i) = some t)
    (hok : ¬ s.Kept (.startDemand i)) :
    ∃ es u, Transition.exec step t es = some u ∧ ¬ u.Reported i := by
  obtain ⟨p, hno⟩ := not_forall.mp hok
  obtain ⟨hd, hno⟩ := Classical.not_imp.mp hno
  obtain ⟨hlt, hno⟩ := not_or.mp hno
  obtain ⟨hpn, hw⟩ := (h i).entered p hd
  have hbad {u : MarkedSys} (ha : (u.read i).arrived = (s.read i).arrived) :
      ¬ (u.mapAhead i (· == p)).Reported i := by
    intro hrep
    have hmap := hrep.ahead p (mapped_mapAhead (beq_self_eq_true p))
    rw [arrived_mapAhead, ha] at hmap
    exact hlt hmap
  have ht : s.clearFetchingDemandPage i p = t := by
    unfold step at hs
    simp only [hd] at hs
    exact Option.some.inj hs
  subst ht
  rw [clearFetchingDemandPage]
  split_ifs with hoff
  · exact ⟨[], _, rfl, hbad rfl⟩
  · obtain ⟨-, hmk, hcp⟩ : (s.read i).w ≠ none ∧ s.markEmptyPage = true ∧
        s.criticalPageFirst = true := by
      obtain ⟨hwn, hoff⟩ := not_or.mp hoff
      obtain ⟨hmk, hcp⟩ := not_or.mp hoff
      exact ⟨hwn, eq_true_of_ne_false hmk, eq_true_of_ne_false hcp⟩
    have hmem : (s.read i).mem (lastWord p) ≠ emptyPage := fun he => hno ⟨hmk, hcp, he⟩
    -- the first look finds something else than the marker
    have hread : (s.setDemand i (.looping p 10)).read i =
        { s.read i with demand := .looping p 10 } := read_setRead
    refine ⟨[.demandLook i none], (s.setDemand i (.looping p 10)).mapAhead i (· == p), ?_,
      hbad (by rw [hread])⟩
    have hlook : (s.setDemand i (.looping p 10)).demandLook i p 10 none =
        (s.setDemand i (.looping p 10)).mapAhead i (· == p) := by
      rw [demandLook, if_pos]
      rw [hread]
      exact hmem
    rw [Transition.exec_cons, step, hread]
    simp only [Due, if_true, hlook, Option.bind_some, Transition.exec_nil]

/-- The wait for a demand page falls back on a read that has failed. -/
theorem fails_of_demandLook (h : s.Inv) (hs : s.step (.demandLook i found) = some t)
    (hok : ¬ s.Kept (.demandLook i found)) :
    ∃ es u, Transition.exec step t es = some u ∧ ¬ u.Reported i := by
  obtain ⟨p, hno⟩ := not_forall.mp hok
  obtain ⟨hd, hno⟩ := Classical.not_imp.mp hno
  obtain ⟨hf, hno⟩ := Classical.not_imp.mp hno
  obtain ⟨harr, hmem⟩ := not_or.mp hno
  obtain ⟨hpn, hw, -⟩ := (h i).looping p 0 hd
  have hnot : ¬ s.Ready i := fun hr => harr (arrived_of_ready h hw hr)
  obtain ⟨hr, -⟩ | ⟨-, -, he⟩ | ⟨-, hnf, -⟩ := rdmaTryWaitRead_cases s i found
  · exact absurd hr hnot
  · have ht : s.demandLook i p 0 found = t := by
      unfold step at hs
      simp only [hd] at hs
      exact (Transition.of_guard hs).2
    have hlook : s.demandLook i p 0 found =
        (s.clearRequest i).mapAhead i (decide <| · < s.numPages) := by
      rw [demandLook, if_neg hmem, if_pos rfl, he]
      rfl
    refine ⟨[], t, rfl, fun hrep => ?_⟩
    rw [← ht, hlook] at hrep
    have hlast : s.numPages - 1 < s.numPages := Nat.sub_one_lt (Nat.ne_of_gt (Nat.two_pow_pos _))
    have hmap := hrep.ahead (s.numPages - 1) (mapped_mapAhead (decide_eq_true hlast))
    rw [arrived_mapAhead, clearRequest, read_setRead] at hmap
    refine harr (Nat.le_antisymm (h i).bound ?_)
    simp only [lastWord, pageWords] at hmap
    show 512 * s.numPages ≤ _
    omega
  · exact absurd hf hnf

/-- **A step that the condition excludes leads to a state without the property.** -/
theorem fails_of_not_kept {e : MarkedEvent} (h : s.Inv) (hs : s.step e = some t)
    (hok : ¬ s.Kept e) : ∃ es u, Transition.exec step t es = some u ∧ ¬ ∀ i, u.Reported i := by
  have lift {i : ℕ} (hex : ∃ es u, Transition.exec step t es = some u ∧ ¬ u.Reported i) :
      ∃ es u, Transition.exec step t es = some u ∧ ¬ ∀ i, u.Reported i := by
    obtain ⟨es, u, he, hu⟩ := hex
    exact ⟨es, u, he, fun hall => hu (hall i)⟩
  cases e with
  | post i c data alloc => exact lift (fails_of_post h hs hok)
  | startDemand i => exact lift (fails_of_startDemand h hs hok)
  | demandLook i found => exact lift (fails_of_demandLook h hs hok)
  | _ => exact absurd trivial hok

/-! ### Runs -/

/-- No subblock is local. -/
def Start (s : MarkedSys) : Prop :=
  ∀ i, (s.read i).stage = .absent ∧ (s.read i).arrived = 0 ∧ (s.read i).w = none ∧
    (s.read i).demand = .idle ∧ ∀ p, (s.read i).mapped p = false

theorem inv_of_start (h : s.Start) : s.Inv := by
  intro i
  obtain ⟨hstage, harr, hw, hd, hm⟩ := h i
  refine ⟨?_, fun _ => harr, fun hn => absurd hw hn, ?_, ?_, ?_, fun hn => absurd hw hn, ?_, ?_, ?_⟩
  · rw [harr]
    exact Nat.zero_le _
  · intro x hx
    exact absurd (hw.symm.trans hx) nofun
  · intro hx
    exact absurd (hstage.symm.trans hx) nofun
  · intro hx
    exact absurd (hw.symm.trans hx) nofun
  · intro p hp
    exact absurd ((hm p).symm.trans hp) nofun
  · intro p hp
    exact absurd (hd.symm.trans hp) nofun
  · intro p k hp
    exact absurd (hd.symm.trans hp) nofun

/-- **The marker tells the end of every read, in runs that keep it in place.**  Each step that the
condition excludes leads to a state in which a poll or a mapping is wrong. -/
theorem reported_when (h : Transition.ReachWhen Start step Kept s) :
    (∀ i, s.Reported i) ∧ ∀ e t, s.step e = some t → ¬ s.Kept e →
      ∃ es u, Transition.exec step t es = some u ∧ ¬ ∀ i, u.Reported i := by
  have hinv : s.Inv := h.invariant (I := fun u => u.Inv) (fun _ hu => inv_of_start hu)
    fun _ _ _ hu hok hs => inv_step hu hok hs
  exact ⟨hinv.reported, fun e t hs hok => fails_of_not_kept hinv hs hok⟩

/-- Memory polling on context `0`, completions on the others, single pages, and nothing local. -/
def unread : MarkedSys where
  sbOrder := 0
  markEmptyPage := false
  criticalSubblockFirst := false
  criticalPageFirst := false
  context c := { mempoll := c == 0, pending := 0, pendingThres := 6144, signaled := none }
  read _ :=
    { stage := .absent, data := fun _ => 0, mem := fun _ => 0, arrived := 0, w := none,
      context := 0, demand := .idle, mapped := fun _ => false }

/-- A read of a page that ends with `last`, memory-polled, with one poll before it arrives. -/
def polledPosts (last : UInt64) : List MarkedEvent :=
  [.setMark true, .alloc 0 fun _ => 0, .post 0 0 (fun j => if j = 511 then last else 0) true,
    .tryWait 0 none]

def polledRun (last : UInt64) : List MarkedEvent :=
  polledPosts last ++ List.replicate 512 (.deliver 0)

/-- The marker is switched off between the allocation and the wait for the demand page. -/
def switchedRun : List MarkedEvent :=
  [.setMark true, .setCsf true, .setCpf true, .alloc 0 fun _ => 0, .post 0 1 (fun _ => 7) true,
    .enterDemand 0 0, .setMark false, .startDemand 0]

theorem start_unread : Start unread := fun _ => ⟨rfl, rfl, rfl, rfl, fun _ => rfl⟩

theorem allowed_deliver (s : MarkedSys) (i k : ℕ) :
    Transition.Allowed step Kept s (List.replicate k (.deliver i)) := by
  induction k generalizing s with
  | zero => trivial
  | succ k ih =>
      refine ⟨trivial, ?_⟩
      cases s.step (.deliver i) with
      | none => trivial
      | some t => exact ih t

theorem reported_polledRun :
    ∃ s, Transition.exec step unread (polledRun 7) = some s ∧
      (s.rdmaWaitRead 0).2 = some 0 ∧ ∀ i, s.Reported i := by
  have hposts : (Transition.exec step unread (polledPosts 7)).isSome := by decide
  obtain ⟨u, hu⟩ := Option.isSome_iff_exists.mp hposts
  have hok : Transition.Allowed step Kept unread (polledPosts 7) :=
    ⟨trivial, trivial, fun _ => ⟨by decide, by decide⟩, trivial, trivial⟩
  have hrun : (Transition.exec step unread (polledRun 7)).any fun s =>
      decide ((s.rdmaWaitRead 0).2 = some 0) := by
    decide +kernel
  obtain ⟨s, hs, hdone⟩ := (Option.any_eq_true _ _).mp hrun
  refine ⟨s, hs, of_decide_eq_true hdone, ?_⟩
  rw [polledRun, Transition.exec_append, hu, Option.bind_some] at hs
  have hreach := Transition.ReachWhen.exec (.start start_unread) hok hu
  exact (reported_when (hreach.exec (allowed_deliver u 0 512) hs)).1

/-- **A read of a page that ends with the marker is never reported, and a page is mapped ahead of
its contents.** -/
theorem not_reported_runs :
    (∃ s, Transition.Reach Start step s ∧ (s.read 0).arrived = s.numWords ∧
      (s.rdmaWaitRead 0).2 = none ∧ ¬ s.Reported 0) ∧
    ∃ s, Transition.Reach Start step s ∧ (s.read 0).arrived = 0 ∧ ¬ s.Reported 0 := by
  have hpolled : (Transition.exec step unread (polledRun emptyPage)).any fun s =>
      decide ((s.read 0).arrived = s.numWords ∧ (s.rdmaWaitRead 0).2 = none ∧
        (s.read 0).w = some .postRead ∧ s.mempoll 0 = true) := by
    decide +kernel
  have hswitched : (Transition.exec step unread switchedRun).any fun s =>
      decide ((s.read 0).arrived = 0 ∧ (s.read 0).mapped 0 = true) := by
    decide
  obtain ⟨s, hs, hfacts⟩ := (Option.any_eq_true _ _).mp hpolled
  obtain ⟨t, ht, hearly⟩ := (Option.any_eq_true _ _).mp hswitched
  obtain ⟨harr, hwait, hw, hm⟩ := of_decide_eq_true hfacts
  obtain ⟨hnone, hmap⟩ := of_decide_eq_true hearly
  refine ⟨⟨s, Transition.Reach.exec (.start start_unread) hs, harr, hwait, fun hrep => ?_⟩,
    t, Transition.Reach.exec (.start start_unread) ht, hnone, fun hrep => ?_⟩
  · refine hrep.waitEnds ?_ harr (.inl hm) hwait
    rw [hw]
    nofun
  · have hlt := hrep.ahead 0 hmap
    rw [hnone] at hlt
    exact Nat.not_lt_zero _ hlt

end MarkedSys

end Emp
