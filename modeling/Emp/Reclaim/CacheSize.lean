import Mathlib

/-!
# The size of the local cache

`adjust_local_cache_size` computes with sizes in bytes, of which some are signed and some are not,
counts pages in an `int`, and reclaims what a smaller cache has too much in a loop over
`reclaim_emp_pages`.  The count that the loop goes by includes the pages that merely lie on the
free list of the cpu.

What the lists do when a writeback is waited for or a victim is selected belongs to other
modules; here it is a world of which the call sees the free list and the counts.

## Main definitions

* `ReclaimWorld` — the lists, as the loop sees them.
* `ReclaimWorld.reclaimEmpPages`, `ReclaimWorld.adjustLocalCacheSize` — the code.
* `Adjusted` — what a call promises.
* `ReclaimWorld.LastOnly` — no read of the free list follows one that has found pages.
-/

namespace Emp

/-- A value in an `int`, in an `ssize_t` and in a `size_t`. -/
def toInt32 (x : ℤ) : ℤ := Int.bmod x (2 ^ 32)

def toInt64 (x : ℤ) : ℤ := Int.bmod x (2 ^ 64)

def toUInt64 (x : ℤ) : ℤ := x % 2 ^ 64

/-- The size of the local cache, and the lengths of the lists that follow from it. -/
structure CacheSize where
  localCachePages : ℤ
  inactivePagesLen : ℤ
  inactiveKeepPagesLen : ℤ
  activePagesLen : ℤ
  proactivePagesLen : ℤ
  deriving DecidableEq, Repr

/-- The lists of the local cache: the pages on the free list of the cpu, the number of pages that
blocks hold, and what the functions do that the loop calls.  `waitWritebackAsync` and its stealing
sibling return the pages they have freed, the updates those of their victims or an error. -/
structure ReclaimWorld (σ : Type*) where
  sbOrder : ℕ
  freePages : σ → List ℕ
  held : σ → ℕ
  addFreePagesReclaim : σ → ℤ → σ
  waitWritebackAsync : σ → ℤ → σ × ℕ
  waitWritebackAsyncSteal : σ → ℤ → σ × ℕ
  updateInactiveList : σ → ℤ → σ × ℤ
  updateLruLists : σ → ℤ → σ × ℤ

/-- The end of a call of `reclaim_emp_pages`, with the free lists that its count includes. -/
structure ReclaimTurn (σ : Type*) where
  state : σ
  ret : ℤ
  reads : List (List ℕ)

/-- The end of a call of `adjust_local_cache_size`. -/
structure AdjustRun (σ : Type*) where
  size : CacheSize
  state : σ
  ret : ℤ
  asked : Option ℤ
  reads : List (List ℕ)

/-- `reclaim_set`; the lengths are of type `size_t`. -/
def reclaimSet (pages : ℤ) : CacheSize :=
  let inactive := toUInt64 (pages / 8)
  let active := toUInt64 (pages / 2)
  { localCachePages := pages
    inactivePagesLen := inactive
    inactiveKeepPagesLen := toUInt64 (inactive - inactive / 4)
    activePagesLen := active
    proactivePagesLen := toUInt64 (pages - (inactive + active)) }

/-- What the first part of a call decides: to return at once, or to change the size by a number
of pages. -/
inductive AdjustPlan
  | done (ret : ℤ)
  | change (grow : Bool) (diffPages : ℤ)
  deriving DecidableEq, Repr

/-- The sign and the absolute value of the difference, in pages. -/
def adjustChange (diffSize : ℤ) : AdjustPlan :=
  if 0 < diffSize then .change true (diffSize / 4096)
  else .change false (toInt64 (-diffSize) / 4096)

/-- The checks of the new size, in which both sides are compared as unsigned numbers. -/
def adjustCheck (pages minimum diffSize newSize : ℤ) : AdjustPlan :=
  let minSize := toUInt64 (minimum * 4096)
  if toUInt64 newSize < 4096 then .done (-22)
  else if toUInt64 newSize < minSize then
    if pages = minimum then .done 0
    else adjustChange (toInt64 (minSize - toInt64 (pages * 4096)))
  else adjustChange diffSize

/-- The first part of `adjust_local_cache_size`; `minimum` is `minimum_pages`. -/
def adjustPlan (pages minimum diffSize newSize : ℤ) : AdjustPlan :=
  let currSize := toInt64 (pages * 4096)
  if diffSize ≠ 0 then
    adjustCheck pages minimum diffSize (toInt64 (currSize + diffSize))
  else if newSize ≠ 0 ∧ newSize ≠ currSize then
    adjustCheck pages minimum (toInt64 (newSize - currSize)) newSize
  else .done 0

namespace ReclaimWorld

variable {σ : Type*} (w : ReclaimWorld σ)

/-- The pages on the free list of the cpu. -/
def freeLen (s : σ) : ℕ := (w.freePages s).length * 2 ^ w.sbOrder

/-- `emp_wait_for_writeback`. -/
def empWaitForWriteback (s : σ) (pressure : ℤ) : σ × ℤ :=
  let reclaimed := w.freeLen s
  if pressure ≤ reclaimed then (s, reclaimed)
  else
    let wait := w.waitWritebackAsync s (pressure - reclaimed)
    if pressure ≤ reclaimed + wait.2 then (wait.1, reclaimed + wait.2)
    else
      let steal := w.waitWritebackAsyncSteal wait.1 (pressure - (reclaimed + wait.2))
      (steal.1, reclaimed + wait.2 + steal.2)

def reclaimEmpPages (s : σ) (pressure : ℤ) : ReclaimTurn σ :=
  let first := w.empWaitForWriteback s pressure
  if pressure ≤ first.2 then ⟨first.1, first.2, [w.freePages s]⟩
  else
    let rest := pressure - first.2
    let inactive := w.updateInactiveList first.1 rest
    if inactive.2 < 0 then ⟨inactive.1, inactive.2, []⟩
    else
      let lru :=
        if inactive.2 < rest then w.updateLruLists inactive.1 (rest - inactive.2)
        else (inactive.1, 0)
      if lru.2 < 0 then ⟨lru.1, lru.2, []⟩
      else
        let last := w.empWaitForWriteback lru.1 (inactive.2 + lru.2)
        ⟨last.1, first.2 + last.2, [w.freePages s, w.freePages lru.1]⟩

/-- The loop of a call that makes the cache smaller; the pressure is an `int`. -/
def shrinkLoop : ℕ → σ → ℤ → Option (σ × List (List ℕ))
  | 0, _, _ => none
  | turns + 1, s, diffPages =>
    let turn := w.reclaimEmpPages s (toInt32 diffPages)
    if turn.ret ≤ 0 then some (turn.state, turn.reads)
    else (shrinkLoop turns turn.state (diffPages - turn.ret)).map fun r => (r.1, turn.reads ++ r.2)

def adjustLocalCacheSize (size : CacheSize) (minimum : ℤ) (s : σ) (diffSize newSize : ℤ)
    (turns : ℕ) : Option (AdjustRun σ) :=
  match adjustPlan size.localCachePages minimum diffSize newSize with
  | .done ret => some ⟨size, s, ret, none, []⟩
  | .change true diffPages =>
    some ⟨reclaimSet (toInt32 (size.localCachePages + diffPages)), s, 0, none, []⟩
  | .change false diffPages =>
    (w.shrinkLoop turns (w.addFreePagesReclaim s diffPages) diffPages).map fun r =>
      ⟨reclaimSet (toInt32 (size.localCachePages - diffPages)), r.1, 0,
        some (toInt32 diffPages), r.2⟩

/-- The free lists that the first turns of the loop count. -/
def readsIn : ℕ → σ → ℤ → List (List ℕ)
  | 0, _, _ => []
  | turns + 1, s, diffPages =>
    let turn := w.reclaimEmpPages s (toInt32 diffPages)
    turn.reads ++ if turn.ret ≤ 0 then [] else readsIn turns turn.state (diffPages - turn.ret)

/-- Every free list that the loop counts, but for the last one, is empty. -/
def LastOnly (s : σ) (diffPages : ℤ) : Prop :=
  ∀ turns, (w.readsIn turns s diffPages).Pairwise fun l _ => l = []

/-- What holds of the lists while the call runs alone: no page leaves the free list, a wait frees
pages that blocks have held, and nothing adds to those. -/
structure Alone : Prop where
  keepAdd : ∀ s n, w.freePages (w.addFreePagesReclaim s n) = w.freePages s
  keepWait : ∀ s p, w.freePages s ⊆ w.freePages (w.waitWritebackAsync s p).1
  keepSteal : ∀ s p, w.freePages s ⊆ w.freePages (w.waitWritebackAsyncSteal s p).1
  keepInactive : ∀ s p, w.freePages s ⊆ w.freePages (w.updateInactiveList s p).1
  keepLru : ∀ s p, w.freePages s ⊆ w.freePages (w.updateLruLists s p).1
  freesWait : ∀ s p, (w.waitWritebackAsync s p).2 + w.held (w.waitWritebackAsync s p).1 ≤ w.held s
  freesSteal : ∀ s p,
    (w.waitWritebackAsyncSteal s p).2 + w.held (w.waitWritebackAsyncSteal s p).1 ≤ w.held s
  heldInactive : ∀ s p, w.held (w.updateInactiveList s p).1 ≤ w.held s
  heldLru : ∀ s p, w.held (w.updateLruLists s p).1 ≤ w.held s

variable {w} {s : σ} {pressure diffPages : ℤ} {turns : ℕ}

theorem freeLen_pos (h : w.freePages s ≠ []) : 0 < w.freeLen s :=
  Nat.mul_pos (List.length_pos_iff.mpr h) (Nat.two_pow_pos _)

theorem freeLen_eq_zero (h : w.freePages s = []) : w.freeLen s = 0 := by
  rw [freeLen, h, List.length_nil, Nat.zero_mul]

/-- A wait counts the free list, and what it has freed. -/
theorem empWaitForWriteback_spec (h : w.Alone) (s : σ) (pressure : ℤ) :
    w.freePages s ⊆ w.freePages (w.empWaitForWriteback s pressure).1 ∧
      ∃ n : ℕ, (w.empWaitForWriteback s pressure).2 = w.freeLen s + n ∧
        n + w.held (w.empWaitForWriteback s pressure).1 ≤ w.held s := by
  simp only [empWaitForWriteback]
  generalize hwait : w.waitWritebackAsync s (pressure - w.freeLen s) = wait
  have hfrees := hwait ▸ h.freesWait s (pressure - w.freeLen s)
  have hkeep := hwait ▸ h.keepWait s (pressure - w.freeLen s)
  split_ifs with hfree hdone
  · exact ⟨fun _ hp => hp, 0, by simp, by simp⟩
  · exact ⟨hkeep, wait.2, rfl, hfrees⟩
  · generalize hsteal : w.waitWritebackAsyncSteal wait.1
      (pressure - (w.freeLen s + wait.2)) = steal
    have hfrees' := hsteal ▸ h.freesSteal wait.1 (pressure - (w.freeLen s + wait.2))
    have hkeep' := hsteal ▸ h.keepSteal wait.1 (pressure - (w.freeLen s + wait.2))
    refine ⟨fun p hp => hkeep' (hkeep hp), wait.2 + steal.2, ?_, ?_⟩
    · push_cast
      omega
    · simp only
      omega

/-- The pages of free lists. -/
def pagesOf (lists : List (List ℕ)) : ℕ := (lists.map List.length).sum * 2 ^ w.sbOrder

/-- A turn that does not fail: it counts the free list at its start, maybe once more, and what the
waits have freed. -/
structure Counts (w : ReclaimWorld σ) (s : σ) (turn : ReclaimTurn σ) : Prop where
  reads : ∃ later, turn.reads = w.freePages s :: later ∧ later.length ≤ 1 ∧
    ∀ l ∈ later, w.freePages s ⊆ l ∧ l ⊆ w.freePages turn.state
  ret : ∃ n : ℕ, turn.ret = w.pagesOf turn.reads + n ∧ n + w.held turn.state ≤ w.held s

theorem reclaimEmpPages_spec (h : w.Alone) (s : σ) (pressure : ℤ) :
    w.freePages s ⊆ w.freePages (w.reclaimEmpPages s pressure).state ∧
      ((w.reclaimEmpPages s pressure).ret < 0 ∧ (w.reclaimEmpPages s pressure).reads = [] ∨
        w.Counts s (w.reclaimEmpPages s pressure)) := by
  simp only [reclaimEmpPages]
  obtain ⟨hkeep, n, hn, hheld⟩ := empWaitForWriteback_spec h s pressure
  generalize w.empWaitForWriteback s pressure = first at hkeep hn hheld ⊢
  by_cases hdone : pressure ≤ first.2
  · rw [if_pos hdone]
    refine ⟨hkeep, .inr ⟨⟨[], rfl, Nat.zero_le _, nofun⟩, n, ?_, hheld⟩⟩
    simpa [pagesOf, freeLen] using hn
  · rw [if_neg hdone]
    have hkeep₁ := h.keepInactive first.1 (pressure - first.2)
    have hheld₁ := h.heldInactive first.1 (pressure - first.2)
    generalize w.updateInactiveList first.1 (pressure - first.2) = inactive at hkeep₁ hheld₁ ⊢
    by_cases hfail : inactive.2 < 0
    · rw [if_pos hfail]
      exact ⟨fun p hp => hkeep₁ (hkeep hp), .inl ⟨hfail, rfl⟩⟩
    · rw [if_neg hfail]
      have hlru : w.freePages inactive.1 ⊆ w.freePages (if inactive.2 < pressure - first.2
          then w.updateLruLists inactive.1 (pressure - first.2 - inactive.2)
          else (inactive.1, 0)).1 ∧ w.held (if inactive.2 < pressure - first.2
          then w.updateLruLists inactive.1 (pressure - first.2 - inactive.2)
          else (inactive.1, 0)).1 ≤ w.held inactive.1 := by
        split_ifs
        · exact ⟨h.keepLru _ _, h.heldLru _ _⟩
        · exact ⟨fun _ hp => hp, Nat.le_refl _⟩
      generalize (if inactive.2 < pressure - first.2
        then w.updateLruLists inactive.1 (pressure - first.2 - inactive.2)
        else (inactive.1, 0)) = lru at hlru ⊢
      obtain ⟨hkeep₂, hheld₂⟩ := hlru
      have hall : w.freePages s ⊆ w.freePages lru.1 :=
        fun p hp => hkeep₂ (hkeep₁ (hkeep hp))
      by_cases hfail' : lru.2 < 0
      · rw [if_pos hfail']
        exact ⟨hall, .inl ⟨hfail', rfl⟩⟩
      · rw [if_neg hfail']
        obtain ⟨hkeep₃, k, hk, hheld₃⟩ :=
          empWaitForWriteback_spec h lru.1 (inactive.2 + lru.2)
        refine ⟨fun p hp => hkeep₃ (hall hp), .inr ⟨⟨[w.freePages lru.1], rfl, Nat.le_refl _, ?_⟩,
          n + k, ?_, ?_⟩⟩
        · intro l hl
          rw [List.mem_singleton.mp hl]
          exact ⟨hall, hkeep₃⟩
        · simp only [hn, hk, pagesOf, List.map_cons, List.map_nil, List.sum_cons, List.sum_nil,
            Nat.add_zero, Nat.add_mul, freeLen]
          push_cast
          omega
        · simp only
          omega

/-! ### The loop -/

theorem readsIn_succ (turns : ℕ) (s : σ) (diffPages : ℤ) :
    w.readsIn (turns + 1) s diffPages =
      (w.reclaimEmpPages s (toInt32 diffPages)).reads ++
        if (w.reclaimEmpPages s (toInt32 diffPages)).ret ≤ 0 then []
        else w.readsIn turns (w.reclaimEmpPages s (toInt32 diffPages)).state
          (diffPages - (w.reclaimEmpPages s (toInt32 diffPages)).ret) := rfl

/-- The first turns of a loop that ends count a part of what it counts, and all its turns count
all of it. -/
theorem readsIn_spec {r : σ × List (List ℕ)} (hr : w.shrinkLoop turns s diffPages = some r) :
    (∀ n, w.readsIn n s diffPages <+: r.2) ∧ w.readsIn turns s diffPages = r.2 := by
  induction turns generalizing s diffPages r with
  | zero => cases hr
  | succ turns ih =>
      simp only [shrinkLoop] at hr
      by_cases hret : (w.reclaimEmpPages s (toInt32 diffPages)).ret ≤ 0
      · rw [if_pos hret] at hr
        obtain rfl := Option.some.inj hr
        have hsucc : ∀ n, w.readsIn (n + 1) s diffPages =
            (w.reclaimEmpPages s (toInt32 diffPages)).reads := fun n => by
          rw [readsIn_succ, if_pos hret, List.append_nil]
        refine ⟨fun n => ?_, hsucc turns⟩
        cases n with
        | zero => exact List.nil_prefix
        | succ n => exact hsucc n ▸ List.prefix_refl _
      · rw [if_neg hret] at hr
        obtain ⟨r', hr', rfl⟩ := Option.map_eq_some_iff.mp hr
        obtain ⟨hpart, hall⟩ := ih hr'
        refine ⟨fun n => ?_, ?_⟩
        · cases n with
          | zero => exact List.nil_prefix
          | succ n =>
              rw [readsIn_succ, if_neg hret]
              exact (List.prefix_append_right_inj _).mpr (hpart n)
        · rw [readsIn_succ, if_neg hret, hall]

/-- The free lists that are counted grow. -/
theorem readsIn_grow (h : w.Alone) (n : ℕ) (s : σ) (diffPages : ℤ) :
    (w.readsIn n s diffPages).Pairwise (· ⊆ ·) ∧
      ∀ l ∈ w.readsIn n s diffPages, w.freePages s ⊆ l := by
  induction n generalizing s diffPages with
  | zero => exact ⟨.nil, nofun⟩
  | succ n ih =>
      rw [readsIn_succ]
      obtain ⟨hkeep, hturn⟩ := reclaimEmpPages_spec h s (toInt32 diffPages)
      generalize w.reclaimEmpPages s (toInt32 diffPages) = turn at hkeep hturn ⊢
      -- the lists of the later turns
      have hrest : (if turn.ret ≤ 0 then []
            else w.readsIn n turn.state (diffPages - turn.ret)).Pairwise (· ⊆ ·) ∧
          ∀ l ∈ (if turn.ret ≤ 0 then [] else w.readsIn n turn.state (diffPages - turn.ret)),
            w.freePages turn.state ⊆ l := by
        split_ifs
        · exact ⟨.nil, nofun⟩
        · exact ih _ _
      generalize (if turn.ret ≤ 0 then []
        else w.readsIn n turn.state (diffPages - turn.ret)) = rest at hrest ⊢
      obtain ⟨hgrow, hlow⟩ := hrest
      rcases hturn with ⟨-, hnil⟩ | ⟨⟨later, hreads, hone, hlater⟩, -⟩
      · rw [hnil, List.nil_append]
        exact ⟨hgrow, fun l hl p hp => hlow l hl (hkeep hp)⟩
      · have hlaterPair : later.Pairwise (· ⊆ ·) := by
          match later, hone with
          | [], _ => exact .nil
          | [_], _ => exact List.pairwise_singleton _ _
        rw [hreads, List.cons_append]
        have hfirst : ∀ l ∈ later ++ rest, w.freePages s ⊆ l := by
          intro l hl
          rcases List.mem_append.mp hl with hl | hl
          · exact (hlater l hl).1
          · exact fun p hp => hlow l hl (hkeep hp)
        refine ⟨List.pairwise_cons.mpr ⟨hfirst, List.pairwise_append.mpr ⟨hlaterPair, hgrow, ?_⟩⟩,
          fun l hl => ?_⟩
        · exact fun l hl m hm p hp => hlow m hm ((hlater l hl).2 hp)
        · rcases List.mem_cons.mp hl with rfl | hl
          · exact fun _ hp => hp
          · exact hfirst l hl

/-- A loop that ends, and counts no page twice, counts empty lists before its last one. -/
theorem lastOnly_of_disjoint (h : w.Alone) {r : σ × List (List ℕ)}
    (hr : w.shrinkLoop turns s diffPages = some r) (hdisjoint : r.2.Pairwise List.Disjoint) :
    w.LastOnly s diffPages := by
  intro n
  have hpart := hdisjoint.sublist ((readsIn_spec hr).1 n).sublist
  refine (hpart.and (readsIn_grow h n s diffPages).1).imp fun {l m} hlm => ?_
  exact List.eq_nil_iff_forall_not_mem.mpr fun p hp => hlm.1 hp (hlm.2 hp)

theorem pagesOf_eq_zero {lists : List (List ℕ)} (hempty : ∀ l ∈ lists, l = []) :
    w.pagesOf lists = 0 := by
  have hsum : (lists.map List.length).sum = 0 := by
    rw [List.sum_eq_zero_iff_forall_eq_nat]
    intro n hn
    obtain ⟨l, hl, rfl⟩ := List.mem_map.mp hn
    rw [hempty l hl, List.length_nil]
  rw [pagesOf, hsum, Nat.zero_mul]

/-- A loop that counts empty lists before its last one ends: a turn that is not the last one has
freed pages, or its list is the last one. -/
theorem shrinkLoop_ends (h : w.Alone) (k : ℕ) (hheld : w.held s ≤ k)
    (hlast : w.LastOnly s diffPages) (hturns : k + 2 ≤ turns) :
    ∃ r, w.shrinkLoop turns s diffPages = some r := by
  induction turns generalizing s diffPages k with
  | zero => omega
  | succ turns ih =>
      simp only [shrinkLoop]
      by_cases hret : (w.reclaimEmpPages s (toInt32 diffPages)).ret ≤ 0
      · exact ⟨_, if_pos hret⟩
      · rw [if_neg hret]
        have hreads : ∀ n, w.readsIn (n + 1) s diffPages =
            (w.reclaimEmpPages s (toInt32 diffPages)).reads ++
              w.readsIn n (w.reclaimEmpPages s (toInt32 diffPages)).state
                (diffPages - (w.reclaimEmpPages s (toInt32 diffPages)).ret) := fun n => by
          rw [readsIn_succ, if_neg hret]
        have hsplit := fun n => List.pairwise_append.mp (hreads n ▸ hlast (n + 1))
        obtain ⟨-, hturn⟩ := reclaimEmpPages_spec h s (toInt32 diffPages)
        generalize w.reclaimEmpPages s (toInt32 diffPages) = turn at hret hturn hsplit ⊢
        obtain ⟨-, n, hn, hfreed⟩ := hturn.resolve_left fun hbad => hret (Int.le_of_lt hbad.1)
        by_cases hempty : ∀ l ∈ turn.reads, l = []
        · rw [pagesOf_eq_zero hempty] at hn
          have hrest : w.LastOnly turn.state (diffPages - turn.ret) := fun n => (hsplit n).2.1
          obtain ⟨r, hr⟩ := ih (k - 1) (by omega) hrest (by omega)
          exact ⟨_, by rw [hr, Option.map_some]⟩
        · -- the next turn counts nothing, for it fails
          obtain ⟨turns, rfl⟩ : ∃ n, turns = n + 1 := ⟨turns - 1, by omega⟩
          obtain ⟨-, hnext⟩ :=
            reclaimEmpPages_spec h turn.state (toInt32 (diffPages - turn.ret))
          have hfirst := (hsplit 1).2.2
          rw [readsIn_succ] at hfirst
          simp only [shrinkLoop]
          generalize w.reclaimEmpPages turn.state (toInt32 (diffPages - turn.ret)) = next
            at hnext hfirst ⊢
          rcases hnext with ⟨hfail, -⟩ | ⟨⟨later, hnext, -⟩, -⟩
          · exact ⟨_, by rw [if_pos (Int.le_of_lt hfail), Option.map_some]⟩
          · refine absurd (fun l hl => hfirst l hl (w.freePages turn.state) ?_) hempty
            rw [hnext]
            exact List.mem_append_left _ (List.mem_cons_self ..)

/-- A loop that counts empty lists before its last one ends, and counts no page twice. -/
theorem shrinkLoop_of_lastOnly (h : w.Alone) (hlast : w.LastOnly s diffPages) :
    ∃ enough, ∀ turns, enough ≤ turns → ∃ r, w.shrinkLoop turns s diffPages = some r ∧
      r.2.Pairwise List.Disjoint := by
  refine ⟨w.held s + 2, fun turns hturns => ?_⟩
  obtain ⟨r, hr⟩ := shrinkLoop_ends h (w.held s) (Nat.le_refl _) hlast hturns
  refine ⟨r, hr, ?_⟩
  rw [← (readsIn_spec hr).2]
  refine (hlast turns).imp fun {l m} hl => ?_
  rw [hl]
  exact List.disjoint_nil_left m

end ReclaimWorld

/-! ### The size -/

/-- The size that is asked for. -/
def requested (pages diffSize newSize : ℤ) : ℤ :=
  if diffSize ≠ 0 then pages * 4096 + diffSize
  else if newSize ≠ 0 then newSize
  else pages * 4096

/-- By how many bytes the size is to change: to the size that is asked for, or to the minimum if
that is larger.  Less than a page is refused. -/
def wantedDiff (pages minimum diffSize newSize : ℤ) : ℤ :=
  let size := requested pages diffSize newSize
  if size = pages * 4096 ∨ size < 4096 then 0
  else max size (minimum * 4096) - pages * 4096

/-- The sizes that a call can get: an `int` of pages, a minimum that is a number of bytes, and
numbers of bytes, of which the difference may be negative. -/
structure AdjustArgs (pages minimum diffSize newSize : ℤ) : Prop where
  pages : 0 ≤ pages ∧ pages < 2 ^ 31
  minimum : 0 ≤ minimum ∧ minimum < 2 ^ 51
  diffSize : -2 ^ 63 < diffSize ∧ diffSize < 2 ^ 63
  newSize : 0 ≤ newSize ∧ newSize < 2 ^ 63

/-- The lengths of the lists are those of the size, and none of them has wrapped around. -/
structure CacheSize.Sound (size : CacheSize) : Prop where
  derived : size = reclaimSet size.localCachePages
  inactive : 0 ≤ toInt64 size.inactivePagesLen
  inactiveKeep : 0 ≤ toInt64 size.inactiveKeepPagesLen
  active : 0 ≤ toInt64 size.activePagesLen
  proactive : 0 ≤ toInt64 size.proactivePagesLen

variable {pages minimum diffSize newSize : ℤ}

theorem adjustChange_eq {d : ℤ} (hlow : -2 ^ 63 < d) (hhigh : d < 2 ^ 63) :
    adjustChange d = if 0 < d then .change true (d / 4096) else .change false (-d / 4096) := by
  have hneg : toInt64 (-d) = -d := Int.bmod_eq_of_le (by omega) (by omega)
  rw [adjustChange, hneg]

/-- The checks, for a size `r` with the machine's number `n`: a negative size passes them. -/
theorem adjustCheck_eq {r n : ℤ} (hp : 0 ≤ pages) (hp' : pages < 2 ^ 31) (hm : 0 ≤ minimum)
    (hm' : minimum < 2 ^ 51) (hlow : -2 ^ 63 < r - pages * 4096) (hhigh : r - pages * 4096 < 2 ^ 63)
    (hn : toUInt64 n = r % 2 ^ 64) :
    adjustCheck pages minimum (r - pages * 4096) n =
      if r < 0 then adjustChange (r - pages * 4096)
      else if r < 4096 then .done (-22)
      else if r < minimum * 4096 then
        if pages = minimum then .done 0 else adjustChange (minimum * 4096 - pages * 4096)
      else adjustChange (r - pages * 4096) := by
  have hcurr : toInt64 (pages * 4096) = pages * 4096 :=
    Int.bmod_eq_of_le (by omega) (by omega)
  have hmin : toUInt64 (minimum * 4096) = minimum * 4096 :=
    Int.emod_eq_of_lt (by omega) (by omega)
  have hclamp : toInt64 (minimum * 4096 - pages * 4096) = minimum * 4096 - pages * 4096 :=
    Int.bmod_eq_of_le (by omega) (by omega)
  simp only [adjustCheck, hn, hcurr, hmin, hclamp]
  by_cases hneg : r < 0
  · have hmod : r % 2 ^ 64 = r + 2 ^ 64 := by omega
    rw [if_pos hneg, hmod, if_neg (by omega), if_neg (by omega)]
  · have hmod : r % 2 ^ 64 = r := by omega
    rw [if_neg hneg, hmod]

/-- The plan of a call, for every size that it can be asked for. -/
theorem adjustPlan_eq (h : AdjustArgs pages minimum diffSize newSize) :
    adjustPlan pages minimum diffSize newSize =
      if requested pages diffSize newSize = pages * 4096 then .done 0
      else if requested pages diffSize newSize < 0 then
        adjustChange (requested pages diffSize newSize - pages * 4096)
      else if requested pages diffSize newSize < 4096 then .done (-22)
      else if wantedDiff pages minimum diffSize newSize = 0 then .done 0
      else adjustChange (wantedDiff pages minimum diffSize newSize) := by
  obtain ⟨⟨hp, hp'⟩, ⟨hm, hm'⟩, ⟨hd, hd'⟩, hn, hn'⟩ := h
  have hcurr : toInt64 (pages * 4096) = pages * 4096 :=
    Int.bmod_eq_of_le (by omega) (by omega)
  -- the checks, for the size that is asked for
  have hcheck : ∀ r n, r = requested pages diffSize newSize → r ≠ pages * 4096 →
      -2 ^ 63 < r - pages * 4096 → r - pages * 4096 < 2 ^ 63 → toUInt64 n = r % 2 ^ 64 →
      adjustCheck pages minimum (r - pages * 4096) n =
        if r = pages * 4096 then .done 0
        else if r < 0 then adjustChange (r - pages * 4096)
        else if r < 4096 then .done (-22)
        else if wantedDiff pages minimum diffSize newSize = 0 then .done 0
        else adjustChange (wantedDiff pages minimum diffSize newSize) := by
    intro r n hr hne hlow hhigh hn
    rw [adjustCheck_eq hp hp' hm hm' hlow hhigh hn, if_neg hne]
    by_cases hneg : r < 0
    · rw [if_pos hneg, if_pos hneg]
    · rw [if_neg hneg, if_neg hneg]
      by_cases hsmall : r < 4096
      · rw [if_pos hsmall, if_pos hsmall]
      · have hwanted : wantedDiff pages minimum diffSize newSize =
            max r (minimum * 4096) - pages * 4096 := by
          rw [wantedDiff, ← hr, if_neg (by omega)]
        rw [if_neg hsmall, if_neg hsmall, hwanted]
        by_cases hmin : r < minimum * 4096
        · rw [if_pos hmin, Int.max_eq_right (by omega)]
          by_cases heq : pages = minimum
          · rw [if_pos heq, if_pos (by omega)]
          · rw [if_neg heq, if_neg (by omega)]
        · rw [if_neg hmin, Int.max_eq_left (by omega), if_neg (by omega)]
  simp only [adjustPlan, hcurr]
  by_cases hdiff : diffSize = 0
  · rw [if_neg (not_not.mpr hdiff)]
    have hreq : requested pages diffSize newSize = if newSize ≠ 0 then newSize else pages * 4096 :=
      if_neg (not_not.mpr hdiff)
    by_cases hnew : newSize ≠ 0 ∧ newSize ≠ pages * 4096
    · rw [if_pos hnew]
      rw [if_pos hnew.1] at hreq
      have hsub : toInt64 (newSize - pages * 4096) = newSize - pages * 4096 :=
        Int.bmod_eq_of_le (by omega) (by omega)
      rw [hsub, hreq]
      exact hcheck newSize newSize hreq.symm hnew.2 (by omega) (by omega) rfl
    · rw [if_neg hnew, hreq, if_pos]
      split_ifs <;> omega
  · rw [if_pos hdiff]
    have hreq : requested pages diffSize newSize = pages * 4096 + diffSize := if_pos hdiff
    have hback : requested pages diffSize newSize - pages * 4096 = diffSize := by omega
    have hmod : toUInt64 (toInt64 (pages * 4096 + diffSize)) =
        requested pages diffSize newSize % 2 ^ 64 := by
      rw [hreq]
      exact Int.bmod_emod ..
    have hall := hcheck _ (toInt64 (pages * 4096 + diffSize)) rfl (by omega) (by omega) (by omega)
      hmod
    rw [hback] at hall ⊢
    exact hall

/-- The lengths that follow from a size do not wrap around. -/
theorem sound_reclaimSet (hp : 0 ≤ pages) (hp' : pages < 2 ^ 31) : (reclaimSet pages).Sound := by
  have hinactive : toUInt64 (pages / 8) = pages / 8 := Int.emod_eq_of_lt (by omega) (by omega)
  have hactive : toUInt64 (pages / 2) = pages / 2 := Int.emod_eq_of_lt (by omega) (by omega)
  have hkeep : toUInt64 (pages / 8 - pages / 8 / 4) = pages / 8 - pages / 8 / 4 :=
    Int.emod_eq_of_lt (by omega) (by omega)
  have hproactive : toUInt64 (pages - (pages / 8 + pages / 2)) = pages - (pages / 8 + pages / 2) :=
    Int.emod_eq_of_lt (by omega) (by omega)
  have hsmall : ∀ x : ℤ, 0 ≤ x → x < 2 ^ 31 → 0 ≤ toInt64 x := fun x hx hx' => by
    rw [toInt64, Int.bmod_eq_of_le (by omega) (by omega)]
    exact hx
  refine ⟨rfl, ?_, ?_, ?_, ?_⟩
  all_goals
    simp only [reclaimSet, hinactive, hactive, hkeep, hproactive]
    exact hsmall _ (by omega) (by omega)

/-- What a call promises: less than a page is refused, the size changes by the difference in whole
pages, the lengths are those of the new size and do not wrap around, a smaller size asks for its
difference to be reclaimed, and no free page is counted twice. -/
structure Adjusted {σ : Type*} (pages minimum diffSize newSize : ℤ) (run : AdjustRun σ) : Prop where
  refused : requested pages diffSize newSize ≠ pages * 4096 →
    requested pages diffSize newSize < 4096 → run.ret < 0
  changed : run.size.localCachePages =
    pages + (wantedDiff pages minimum diffSize newSize).tdiv 4096
  sound : run.size.Sound
  asked : wantedDiff pages minimum diffSize newSize < 0 →
    ∃ p, run.asked = some p ∧ -(wantedDiff pages minimum diffSize newSize).tdiv 4096 ≤ p
  once : run.reads.Pairwise List.Disjoint

namespace ReclaimWorld

variable {σ : Type*} {w : ReclaimWorld σ} {s : σ} {turns : ℕ}

/-- The size that is asked for is not negative, an `int` holds the new number of pages, and the
loop of a call that makes the cache smaller never goes on behind a free list with pages. -/
structure Adjustable (w : ReclaimWorld σ) (pages minimum diffSize newSize : ℤ) (s : σ) : Prop where
  nonneg : 0 ≤ requested pages diffSize newSize
  small : pages + (wantedDiff pages minimum diffSize newSize).tdiv 4096 < 2 ^ 31
  lists : wantedDiff pages minimum diffSize newSize < 0 →
    w.LastOnly (w.addFreePagesReclaim s (-wantedDiff pages minimum diffSize newSize / 4096))
      (-wantedDiff pages minimum diffSize newSize / 4096)

theorem tdiv_of_neg {d : ℤ} (hd : d < 0) : d.tdiv 4096 = -(-d / 4096) := by
  rw [← Int.tdiv_eq_ediv_of_nonneg (by omega), Int.neg_tdiv, Int.neg_neg]

theorem adjusted_done {ret : ℤ} (hp : 0 ≤ pages) (hp' : pages < 2 ^ 31)
    (hplan : adjustPlan pages minimum diffSize newSize = .done ret)
    (hzero : wantedDiff pages minimum diffSize newSize = 0)
    (hrefused : requested pages diffSize newSize ≠ pages * 4096 →
      requested pages diffSize newSize < 4096 → ret < 0) :
    ∃ run, w.adjustLocalCacheSize (reclaimSet pages) minimum s diffSize newSize turns = some run ∧
      Adjusted pages minimum diffSize newSize run := by
  refine ⟨⟨reclaimSet pages, s, ret, none, []⟩, ?_, hrefused, ?_, sound_reclaimSet hp hp',
    fun hneg => ?_, .nil⟩
  · have hpages : (reclaimSet pages).localCachePages = pages := rfl
    rw [adjustLocalCacheSize, hpages, hplan]
  · rw [hzero, Int.zero_tdiv, Int.add_zero]
    rfl
  · omega

theorem adjusted_grow (w : ReclaimWorld σ) (s : σ) (turns : ℕ) (hp : 0 ≤ pages) {d : ℤ} (hd : 0 < d)
    (hd' : pages * 4096 + d < 2 ^ 64)
    (hwanted : wantedDiff pages minimum diffSize newSize = d)
    (hrefused : 4096 ≤ requested pages diffSize newSize)
    (hplan : adjustPlan pages minimum diffSize newSize = .change true (d / 4096)) :
    ∃ run, w.adjustLocalCacheSize (reclaimSet pages) minimum s diffSize newSize turns = some run ∧
      (Adjusted pages minimum diffSize newSize run ↔ pages + d.tdiv 4096 < 2 ^ 31) := by
  have htdiv : d.tdiv 4096 = d / 4096 := Int.tdiv_eq_ediv_of_nonneg (Int.le_of_lt hd)
  refine ⟨⟨reclaimSet (toInt32 (pages + d / 4096)), s, 0, none, []⟩, ?_, fun hrun => ?_,
    fun hsmall => ⟨fun _ hlt => ?_, ?_, ?_, fun hneg => ?_, .nil⟩⟩
  · have hpages : (reclaimSet pages).localCachePages = pages := rfl
    rw [adjustLocalCacheSize, hpages, hplan]
  · have heq := hrun.changed
    rw [hwanted] at heq
    rw [← heq]
    change Int.bmod _ _ < _
    have hlt := Int.bmod_lt (x := pages + d / 4096) (m := 2 ^ 32) (by decide)
    omega
  · omega
  · rw [hwanted, htdiv]
    exact Int.bmod_eq_of_le (by omega) (by omega)
  · rw [htdiv] at hsmall
    have hint : toInt32 (pages + d / 4096) = pages + d / 4096 :=
      Int.bmod_eq_of_le (by omega) (by omega)
    rw [hint]
    exact sound_reclaimSet (by omega) (by omega)
  · omega

theorem adjusted_shrink (hw : w.Alone) (hp : 0 ≤ pages) (hp' : pages < 2 ^ 31) {d : ℤ} (hd : d < 0)
    (hd' : 0 ≤ pages * 4096 + d)
    (hwanted : wantedDiff pages minimum diffSize newSize = d)
    (hrefused : 4096 ≤ requested pages diffSize newSize)
    (hplan : adjustPlan pages minimum diffSize newSize = .change false (-d / 4096)) :
    (∃ enough, ∀ turns, enough ≤ turns → ∃ run,
      w.adjustLocalCacheSize (reclaimSet pages) minimum s diffSize newSize turns = some run ∧
        Adjusted pages minimum diffSize newSize run) ↔
      w.LastOnly (w.addFreePagesReclaim s (-d / 4096)) (-d / 4096) := by
  have htdiv := tdiv_of_neg hd
  have hrun : ∀ turns, w.adjustLocalCacheSize (reclaimSet pages) minimum s diffSize newSize turns =
      (w.shrinkLoop turns (w.addFreePagesReclaim s (-d / 4096)) (-d / 4096)).map fun r =>
        ⟨reclaimSet (toInt32 (pages - -d / 4096)), r.1, 0, some (toInt32 (-d / 4096)), r.2⟩ := by
    intro turns
    have hpages : (reclaimSet pages).localCachePages = pages := rfl
    rw [adjustLocalCacheSize, hpages, hplan]
  have hint : toInt32 (pages - -d / 4096) = pages - -d / 4096 :=
    Int.bmod_eq_of_le (by omega) (by omega)
  have hasked : toInt32 (-d / 4096) = -d / 4096 := Int.bmod_eq_of_le (by omega) (by omega)
  refine ⟨fun ⟨enough, hall⟩ => ?_, fun hlast => ?_⟩
  · obtain ⟨run, heq, hadjusted⟩ := hall enough (Nat.le_refl _)
    rw [hrun] at heq
    obtain ⟨r, hr, rfl⟩ := Option.map_eq_some_iff.mp heq
    exact lastOnly_of_disjoint hw hr hadjusted.once
  · obtain ⟨enough, hloop⟩ := shrinkLoop_of_lastOnly hw hlast
    refine ⟨enough, fun turns hturns => ?_⟩
    obtain ⟨r, hr, honce⟩ := hloop turns hturns
    refine ⟨_, by rw [hrun, hr, Option.map_some], fun _ hlt => ?_, ?_, ?_, fun _ => ?_, honce⟩
    · omega
    · rw [hwanted, htdiv, hint]
      exact Int.sub_eq_add_neg
    · rw [hint]
      exact sound_reclaimSet (by omega) (by omega)
    · refine ⟨_, rfl, ?_⟩
      rw [hwanted, htdiv, hasked]
      omega

/-- Lists without blocks; `pages` are on the free list of the cpu. -/
def idle (pages : List ℕ) : ReclaimWorld Unit where
  sbOrder := 0
  freePages _ := pages
  held _ := 0
  addFreePagesReclaim s _ := s
  waitWritebackAsync s _ := (s, 0)
  waitWritebackAsyncSteal s _ := (s, 0)
  updateInactiveList s _ := (s, 0)
  updateLruLists s _ := (s, 0)

theorem alone_idle (l : List ℕ) : (idle l).Alone :=
  ⟨fun _ _ => rfl, fun _ _ _ h => h, fun _ _ _ h => h, fun _ _ _ h => h, fun _ _ _ h => h,
    fun _ _ => Nat.le_refl _, fun _ _ => Nat.le_refl _, fun _ _ => Nat.le_refl _,
    fun _ _ => Nat.le_refl _⟩

/-- With a page on the free list the loop goes on for ever. -/
theorem shrinkLoop_idle (n turns : ℕ) (d : ℤ) : (idle [n]).shrinkLoop turns () d = none := by
  induction turns generalizing d with
  | zero => rfl
  | succ turns ih =>
      have hwait : ∀ s p, (idle [n]).empWaitForWriteback s p = (s, 1) := by
        intro s p
        have hlen : ((idle [n]).freeLen s : ℤ) = 1 := rfl
        simp only [empWaitForWriteback, hlen]
        split_ifs <;> rfl
      have hinactive : ∀ s p, (idle [n]).updateInactiveList s p = (s, 0) := fun _ _ => rfl
      have hlru : ∀ s p, (idle [n]).updateLruLists s p = (s, 0) := fun _ _ => rfl
      have hret : ¬ ((idle [n]).reclaimEmpPages () (toInt32 d)).ret ≤ 0 := by
        simp only [reclaimEmpPages, hwait, hinactive, hlru, ite_self, Int.lt_irrefl, if_false]
        split_ifs
        · exact Int.not_le.mpr Int.one_pos
        · exact Int.not_le.mpr (by decide : (0 : ℤ) < 2)
      simp only [shrinkLoop]
      rw [if_neg hret, ih, Option.map_none]

end ReclaimWorld

end Emp
