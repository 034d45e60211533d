import Emp.Lib.Tally
import Emp.Slru.Calls
import Mathlib.Algebra.BigOperators.Ring.Finset
import Mathlib.Data.Fintype.BigOperators
import Mathlib.Tactic.Linarith

/-!
# The account of the replacement lists

While a thread moves blocks it holds their locks, some of them are on no list though their fields
may already tell of one, and the counters lag behind.  What it holds and what it still owes to the
counters is its hand.  With the hands of all threads, every block is where it should be and every
counter tells the pages of its lists.

## Main definitions

* `Owned`, `Hand` — what a thread knows of a block that it has locked, and its hand.
* `Settled` — a block that nobody has locked.
* `Inv` — the account.
* `Inv.change` — a thread changes a block that it has locked.
-/

namespace Emp

/-- The counters that include a list. -/
def LocalList.countedBy : LocalList → SlruCount → Bool
  | .slru l, .proactive => l.proactive
  | .slru l, .active => !l.proactive
  | .slru (.pin _), .pin => true
  | .inactive _, .inactive => true
  | _, _ => false

namespace Slru

/-- What a thread knows of a block that it has locked: whether it is where it tells, or on no list
at the moment. -/
structure Owned where
  placed : Bool
  gpa : SlruGpa

/-- What a thread has locked, which of these blocks it has made fail, and what it has yet to add to
the counters. -/
structure Hand where
  own : ℕ → Option Owned
  failed : ℕ → Bool
  debt : SlruCount → ℤ

/-- The hand of a thread that does nothing. -/
def Hand.empty : Hand := ⟨fun _ => none, fun _ => false, fun _ => 0⟩

namespace Owned

variable (cfg : SlruConfig) (o : Owned)

/-- The list that the block is on. -/
def home : Option LocalList := if o.placed then o.gpa.list cfg.possibleCpus else none

/-- Whether the block is counted.  A block in writeback is counted as inactive until it is gone. -/
def counted (c : SlruCount) : Bool :=
  (o.home cfg).any (·.countedBy c) ||
    (c = .inactive && (o.gpa.rState = .transIl || o.gpa.rState = .wb))

/-- What the block adds to a counter. -/
def weight (b : ℕ) (c : SlruCount) : ℤ := if o.counted cfg c then cfg.blockSize b else 0

end Owned

namespace Hand

variable (cfg : SlruConfig) (h : Hand) (b : ℕ)

/-- A block is locked. -/
def take (g : SlruGpa) : Hand := { h with own := Function.update h.own b (some ⟨true, g⟩) }

/-- A block is unlocked. -/
def drop : Hand :=
  { h with own := Function.update h.own b none, failed := Function.update h.failed b false }

/-- The eviction or the fault of a block fails. -/
def fail : Hand := { h with failed := Function.update h.failed b true }

/-- A block changes, and so does what it adds to the counters. -/
def swap (o o' : Owned) : Hand :=
  { h with
    own := Function.update h.own b (some o')
    debt := fun c => h.debt c + (o'.weight cfg b c - o.weight cfg b c) }

/-- A counter is updated. -/
def pay (c : SlruCount) (n : ℤ) : Hand :=
  { h with debt := Function.update h.debt c (h.debt c - n) }

@[simp] theorem take_own (g : SlruGpa) :
    (h.take b g).own = Function.update h.own b (some ⟨true, g⟩) := rfl
@[simp] theorem take_debt (g : SlruGpa) : (h.take b g).debt = h.debt := rfl
@[simp] theorem drop_own : (h.drop b).own = Function.update h.own b none := rfl
@[simp] theorem take_failed (g : SlruGpa) : (h.take b g).failed = h.failed := rfl
@[simp] theorem drop_debt : (h.drop b).debt = h.debt := rfl
@[simp] theorem drop_failed : (h.drop b).failed = Function.update h.failed b false := rfl
@[simp] theorem fail_own : (h.fail b).own = h.own := rfl
@[simp] theorem fail_failed : (h.fail b).failed = Function.update h.failed b true := rfl
@[simp] theorem fail_debt : (h.fail b).debt = h.debt := rfl
@[simp] theorem swap_own (o o' : Owned) :
    (h.swap cfg b o o').own = Function.update h.own b (some o') := rfl
@[simp] theorem swap_failed (o o' : Owned) : (h.swap cfg b o o').failed = h.failed := rfl
@[simp] theorem pay_own (c : SlruCount) (n : ℤ) : (h.pay c n).own = h.own := rfl
@[simp] theorem pay_failed (c : SlruCount) (n : ℤ) : (h.pay c n).failed = h.failed := rfl

end Hand

/-- `GPA_PROACTIVE` is set exactly on the blocks of the proactive chain. -/
def Flagged (cfg : SlruConfig) (g : SlruGpa) : Prop :=
  g.flags .proactive = true ↔
    ∃ l, g.list cfg.possibleCpus = some (.slru l) ∧ l.proactive = true

/-- The list of a block that nobody has locked goes with its state; `failed` tells whether its
eviction or its fault has failed. -/
def Placed (cfg : SlruConfig) (failed : Prop) (g : SlruGpa) : Prop :=
  match g.rState with
  | .init => g.on = none
  | .active => (∃ l, g.list cfg.possibleCpus = some (.slru l)) ∨ failed ∧ g.on = none
  | .fetching => ∃ l, g.list cfg.possibleCpus = some (.slru l)
  | .inactive => g.on = some .mru ∨ failed ∧ g.on = none
  | .wb => g.on = some .lru ∨ failed ∧ g.on = none
  | .transIl => failed ∧ g.on = none
  | _ => False

/-- A block that nobody has locked. -/
structure Settled (cfg : SlruConfig) (failed : Prop) (g : SlruGpa) : Prop where
  flagged : Flagged cfg g
  placed : Placed cfg failed g

variable {A : Type} [DecidableEq A]

/-- A block as its owner knows it. -/
def view (s : SlruSys A) (hs : A → Hand) (b : ℕ) : Owned :=
  match s.lock b with
  | none => ⟨true, s.gpa b⟩
  | some a => ((hs a).own b).getD ⟨true, s.gpa b⟩

/-- The account: the lists hold the blocks that the owners place there, and the counters with the
debts tell their pages. -/
structure Inv [Fintype A] (cfg : SlruConfig) (s : SlruSys A) (hs : A → Hand) : Prop where
  config : s.config = cfg
  bound : ∀ b, cfg.numBlocks ≤ b → s.lock b = none ∧ (s.gpa b).on = none
  locks : ∀ a b, s.lock b = some a ↔ ((hs a).own b).isSome
  gpas : ∀ a b o, (hs a).own b = some o → s.gpa b = o.gpa
  failed : ∀ a b, (hs a).failed b = true → b ∈ s.failed
  settled : ∀ b, s.lock b = none → Settled cfg (b ∈ s.failed) (s.gpa b)
  lists : ∀ b l, (s.lists l).count b = if (view s hs b).home cfg = some l then 1 else 0
  counts : ∀ c, s.pageLen c + ∑ a, (hs a).debt c =
    tally cfg.numBlocks (fun b => (view s hs b).weight cfg b c) +
      if c = .inactive then s.pagesOf s.leaked else 0

variable [Fintype A] {cfg : SlruConfig} {s t : SlruSys A} {hs : A → Hand} {a : A} {h : Hand}
  {b : ℕ} {o o' : Owned} {g : SlruGpa} {l : LocalList}

omit [DecidableEq A] in
theorem Inv.nodup (hI : Inv cfg s hs) (l : LocalList) : (s.lists l).Nodup := by
  refine List.nodup_iff_count_le_one.mpr fun b => ?_
  rw [hI.lists b l]
  split_ifs
  · exact le_rfl
  · exact Nat.zero_le 1

omit [DecidableEq A] in
theorem Inv.mem_iff (hI : Inv cfg s hs) : b ∈ s.lists l ↔ (view s hs b).home cfg = some l := by
  rw [← List.count_pos_iff, hI.lists b l]
  by_cases hl : (view s hs b).home cfg = some l
  · simp [hl]
  · simp [hl]

omit [DecidableEq A] [Fintype A] in
theorem view_free (hfree : s.lock b = none) : view s hs b = ⟨true, s.gpa b⟩ := by
  rw [view, hfree]

omit [DecidableEq A] in
/-- A block on a list that nobody has locked. -/
theorem Inv.listed (hI : Inv cfg s hs) (hb : b ∈ s.lists l) (hfree : s.lock b = none) :
    (s.gpa b).list cfg.possibleCpus = some l ∧ b < cfg.numBlocks := by
  have hhome := hI.mem_iff.mp hb
  rw [view_free hfree] at hhome
  have hlist : (s.gpa b).list cfg.possibleCpus = some l := hhome
  refine ⟨hlist, not_le.mp fun hle => ?_⟩
  rw [SlruGpa.list, (hI.bound b hle).2] at hlist
  exact absurd hlist (by simp)

/-! ### What a thread changes -/

theorem Inv.own_lock (hI : Inv cfg s (Function.update hs a h)) (hown : h.own b = some o) :
    s.lock b = some a := by
  rw [hI.locks a b, Function.update_self, hown]
  rfl

theorem Inv.own_gpa (hI : Inv cfg s (Function.update hs a h)) (hown : h.own b = some o) :
    s.gpa b = o.gpa :=
  hI.gpas a b o (by rw [Function.update_self, hown])

theorem Inv.own_lt (hI : Inv cfg s (Function.update hs a h)) (hown : h.own b = some o) :
    b < cfg.numBlocks := by
  refine not_le.mp fun hle => ?_
  have hlock := hI.own_lock hown
  rw [(hI.bound b hle).1] at hlock
  exact absurd hlock (by simp)

theorem Inv.view_own (hI : Inv cfg s (Function.update hs a h)) (hown : h.own b = some o) :
    view s (Function.update hs a h) b = o := by
  rw [view, hI.own_lock hown]
  simp [hown]

omit [Fintype A] in
/-- A block that somebody else has, or nobody, is seen as before. -/
theorem view_congr (hlock : t.lock b = s.lock b) (hgpa : t.gpa b = s.gpa b) {h' : Hand}
    (hown : h'.own b = h.own b) :
    view t (Function.update hs a h') b = view s (Function.update hs a h) b := by
  rw [view, view, hlock, hgpa]
  cases s.lock b with
  | none => rfl
  | some x =>
    dsimp only
    by_cases hx : x = a
    · rw [hx, Function.update_self, Function.update_self, hown]
    · rw [Function.update_of_ne hx, Function.update_of_ne hx]

theorem sum_debt_update {h' : Hand} (c : SlruCount) :
    ∑ x, (Function.update hs a h' x).debt c =
      ∑ x, (Function.update hs a h x).debt c + (h'.debt c - h.debt c) := by
  have hsplit : ∀ k : Hand, ∑ x, (Function.update hs a k x).debt c =
      k.debt c + ∑ x ∈ Finset.univ.erase a, (hs x).debt c := by
    intro k
    rw [← Finset.add_sum_erase _ _ (Finset.mem_univ a), Function.update_self]
    refine congrArg _ (Finset.sum_congr rfl fun x hx => ?_)
    rw [Function.update_of_ne (Finset.ne_of_mem_erase hx)]
  rw [hsplit, hsplit]
  ring

theorem Settled.mono {p q : Prop} (hpq : p → q) (hg : Settled cfg p g) : Settled cfg q g := by
  refine ⟨hg.flagged, ?_⟩
  have hplaced := hg.placed
  simp only [Placed] at hplaced ⊢
  split
  all_goals simp_all
  all_goals tauto

theorem Inv.own_failed (hI : Inv cfg s (Function.update hs a h)) (hb : h.failed b = true) :
    b ∈ s.failed :=
  hI.failed a b (by rw [Function.update_self, hb])

omit [Fintype A] in
/-- What a thread has made fail stays failed when its hand changes. -/
theorem failed_update {F : List ℕ} (hF : ∀ x y, (Function.update hs a h x).failed y = true → y ∈ F)
    {h' : Hand} (hh : ∀ y, h'.failed y = true → h.failed y = true) :
    ∀ x y, (Function.update hs a h' x).failed y = true → y ∈ F := by
  intro x y hy
  by_cases hx : x = a
  · subst hx
    rw [Function.update_self] at hy
    exact hF x y (by rw [Function.update_self, hh y hy])
  · rw [Function.update_of_ne hx] at hy
    exact hF x y (by rw [Function.update_of_ne hx, hy])

/-- A thread changes a block that it has locked: its fields, and the list that it is on. -/
theorem Inv.change (hI : Inv cfg s (Function.update hs a h)) (hown : h.own b = some o)
    (hconfig : t.config = s.config) (hlock : t.lock = s.lock) (hlen : t.pageLen = s.pageLen)
    (hfailed : ∀ x ∈ s.failed, x ∈ t.failed) (hleaked : t.leaked = s.leaked)
    (hgpa : t.gpa = Function.update s.gpa b o'.gpa)
    (hlists : ∀ x l, (t.lists l).count x =
      if x = b then if o'.home cfg = some l then 1 else 0 else (s.lists l).count x) :
    Inv cfg t (Function.update hs a (h.swap cfg b o o')) := by
  have hview : ∀ x, x ≠ b → view t (Function.update hs a (h.swap cfg b o o')) x =
      view s (Function.update hs a h) x := by
    intro x hx
    refine view_congr (congrFun hlock x) ?_ ?_
    · rw [hgpa, Function.update_of_ne hx]
    · rw [Hand.swap_own, Function.update_of_ne hx]
  have hviewb : view t (Function.update hs a (h.swap cfg b o o')) b = o' := by
    rw [view, hlock, hI.own_lock hown]
    simp
  constructor
  case config => exact hconfig.trans hI.config
  case bound =>
    intro x hx
    have hne : x ≠ b := fun heq => absurd (hI.own_lt hown) (not_lt.mpr (heq ▸ hx))
    rw [hlock, hgpa, Function.update_of_ne hne]
    exact hI.bound x hx
  case locks =>
    intro x y
    rw [hlock, hI.locks x y]
    by_cases hx : x = a
    · rw [hx, Function.update_self, Function.update_self, Hand.swap_own]
      by_cases hy : y = b
      · rw [hy, Function.update_self, hown]
        simp
      · rw [Function.update_of_ne hy]
    · rw [Function.update_of_ne hx, Function.update_of_ne hx]
  case gpas =>
    intro x y k hk
    by_cases hx : x = a
    · rw [hx, Function.update_self, Hand.swap_own] at hk
      by_cases hy : y = b
      · rw [hy, Function.update_self, Option.some.injEq] at hk
        rw [hgpa, hy, Function.update_self, hk]
      · rw [Function.update_of_ne hy] at hk
        rw [hgpa, Function.update_of_ne hy]
        exact hI.own_gpa hk
    · rw [Function.update_of_ne hx] at hk
      have hy : y ≠ b := by
        rintro rfl
        have hxl : s.lock y = some x := by
          rw [hI.locks x y, Function.update_of_ne hx, hk]
          rfl
        rw [hI.own_lock hown] at hxl
        exact hx (Option.some.inj hxl).symm
      rw [hgpa, Function.update_of_ne hy]
      exact hI.gpas x y k (by rw [Function.update_of_ne hx, hk])
  case failed =>
    exact failed_update (fun x y hy => hfailed y (hI.failed x y hy)) fun _ hy => hy
  case settled =>
    intro x hx
    rw [hlock] at hx
    have hne : x ≠ b := by
      rintro rfl
      rw [hI.own_lock hown] at hx
      exact absurd hx (by simp)
    rw [hgpa, Function.update_of_ne hne]
    exact (hI.settled x hx).mono (hfailed x)
  case lists =>
    intro x k
    rw [hlists x k]
    by_cases hx : x = b
    · rw [if_pos hx, hx, hviewb]
    · rw [if_neg hx, hview x hx]
      exact hI.lists x k
  case counts =>
    intro c
    have hsum := hI.counts c
    rw [tally_change (f := fun x => (view s (Function.update hs a h) x).weight cfg x c)
      (hI.own_lt hown) fun x _ hx => by rw [hview x hx]]
    rw [hviewb, hI.view_own hown, hlen, hleaked, sum_debt_update (h := h)]
    have hpages : t.pagesOf s.leaked = s.pagesOf s.leaked := by
      rw [SlruSys.pagesOf, SlruSys.pagesOf, hconfig]
    rw [hpages]
    simp only [Hand.swap]
    linarith

/-- A block is locked. -/
theorem Inv.hold (hI : Inv cfg s (Function.update hs a h)) (hfree : s.lock b = none)
    (hlt : b < cfg.numBlocks) :
    Inv cfg (s.hold a b) (Function.update hs a (h.take b (s.gpa b))) := by
  have hview : ∀ x, view (s.hold a b) (Function.update hs a (h.take b (s.gpa b))) x =
      view s (Function.update hs a h) x := by
    intro x
    by_cases hx : x = b
    · rw [hx, view_free hfree, view]
      simp [SlruSys.hold]
    · refine view_congr ?_ ?_ ?_
      · simp [SlruSys.hold, hx]
      · rfl
      · simp [hx]
  constructor
  case config => exact hI.config
  case bound =>
    intro x hx
    have hne : x ≠ b := fun heq => absurd hlt (not_lt.mpr (heq ▸ hx))
    simp only [SlruSys.hold, Function.update_of_ne hne]
    exact hI.bound x hx
  case locks =>
    intro x y
    by_cases hy : y = b
    · have hnone := (hI.locks x b).not.mp (by rw [hfree]; simp)
      subst hy
      by_cases hx : x = a
      · subst hx
        simp [SlruSys.hold]
      · rw [Function.update_of_ne hx] at hnone ⊢
        simp only [SlruSys.hold, Function.update_self, Option.some.injEq]
        exact ⟨fun heq => absurd heq.symm hx, fun hsome => absurd hsome hnone⟩
    · have hold := hI.locks x y
      by_cases hx : x = a
      · subst hx
        simp only [SlruSys.hold, Function.update_self, Hand.take_own, Function.update_of_ne hy] at hold ⊢
        exact hold
      · rw [Function.update_of_ne hx] at hold ⊢
        simp only [SlruSys.hold, Function.update_of_ne hy]
        exact hold
  case gpas =>
    intro x y k hk
    by_cases hx : x = a
    · rw [hx, Function.update_self, Hand.take_own] at hk
      by_cases hy : y = b
      · rw [hy, Function.update_self, Option.some.injEq] at hk
        rw [hy, ← hk]
        rfl
      · rw [Function.update_of_ne hy] at hk
        exact hI.own_gpa hk
    · rw [Function.update_of_ne hx] at hk
      exact hI.gpas x y k (by rw [Function.update_of_ne hx, hk])
  case failed => exact failed_update hI.failed fun _ hy => hy
  case settled =>
    intro x hx
    by_cases hxb : x = b
    · simp [SlruSys.hold, hxb] at hx
    · simp only [SlruSys.hold, Function.update_of_ne hxb] at hx
      exact hI.settled x hx
  case lists =>
    intro x k
    rw [hview]
    exact hI.lists x k
  case counts =>
    intro c
    simp only [hview]
    rw [sum_debt_update (A := A) (h := h)]
    have hsum := hI.counts c
    simpa [SlruSys.hold, SlruSys.pagesOf] using hsum

/-- A block is unlocked. -/
theorem Inv.release (hI : Inv cfg s (Function.update hs a h)) (hown : h.own b = some o)
    (hhome : o.home cfg = o.gpa.list cfg.possibleCpus)
    (hsettled : Settled cfg (h.failed b = true) o.gpa) :
    Inv cfg (s.release b) (Function.update hs a (h.drop b)) := by
  have hgpa := hI.own_gpa hown
  have hview : ∀ x, x ≠ b → view (s.release b) (Function.update hs a (h.drop b)) x =
      view s (Function.update hs a h) x := by
    intro x hx
    refine view_congr ?_ ?_ ?_
    · simp [SlruSys.release, hx]
    · rfl
    · simp [hx]
  have hviewb : view (s.release b) (Function.update hs a (h.drop b)) b = ⟨true, o.gpa⟩ := by
    rw [view_free (by simp [SlruSys.release])]
    simp [SlruSys.release, hgpa]
  have hhome' : Owned.home cfg ⟨true, o.gpa⟩ = o.home cfg := by
    rw [hhome]
    simp [Owned.home]
  constructor
  case config => exact hI.config
  case bound =>
    intro x hx
    have hne : x ≠ b := fun heq => absurd (hI.own_lt hown) (not_lt.mpr (heq ▸ hx))
    simp only [SlruSys.release, Function.update_of_ne hne]
    exact hI.bound x hx
  case locks =>
    intro x y
    by_cases hy : y = b
    · subst hy
      by_cases hx : x = a
      · subst hx
        simp [SlruSys.release]
      · have hnone := (hI.locks x y).not.mp (by
          rw [hI.own_lock hown, Option.some.injEq]
          exact fun heq => hx heq.symm)
        rw [Function.update_of_ne hx] at hnone ⊢
        simp only [SlruSys.release, Function.update_self]
        exact ⟨fun heq => absurd heq (by simp), fun hsome => absurd hsome hnone⟩
    · have hold := hI.locks x y
      by_cases hx : x = a
      · subst hx
        simp only [SlruSys.release, Function.update_self, Hand.drop_own, Function.update_of_ne hy] at hold ⊢
        exact hold
      · rw [Function.update_of_ne hx] at hold ⊢
        simp only [SlruSys.release, Function.update_of_ne hy]
        exact hold
  case gpas =>
    intro x y k hk
    by_cases hx : x = a
    · rw [hx, Function.update_self, Hand.drop_own] at hk
      by_cases hy : y = b
      · rw [hy, Function.update_self] at hk
        exact absurd hk (by simp)
      · rw [Function.update_of_ne hy] at hk
        exact hI.own_gpa hk
    · rw [Function.update_of_ne hx] at hk
      exact hI.gpas x y k (by rw [Function.update_of_ne hx, hk])
  case failed =>
    refine failed_update hI.failed fun y hy => ?_
    by_cases hyb : y = b
    · simp [hyb] at hy
    · simpa [hyb] using hy
  case settled =>
    intro x hx
    by_cases hxb : x = b
    · subst hxb
      simp only [SlruSys.release, hgpa]
      exact hsettled.mono hI.own_failed
    · simp only [SlruSys.release, Function.update_of_ne hxb] at hx
      exact hI.settled x hx
  case lists =>
    intro x k
    by_cases hx : x = b
    · rw [hx, hviewb, hhome']
      have hlists := hI.lists b k
      rw [hI.view_own hown] at hlists
      exact hlists
    · rw [hview x hx]
      exact hI.lists x k
  case counts =>
    intro c
    have hweight : ∀ x, (view (s.release b) (Function.update hs a (h.drop b)) x).weight cfg x c =
        (view s (Function.update hs a h) x).weight cfg x c := by
      intro x
      by_cases hx : x = b
      · rw [hx, hviewb, hI.view_own hown, Owned.weight, Owned.weight, Owned.counted, Owned.counted,
          hhome']
      · rw [hview x hx]
    simp only [hweight]
    rw [sum_debt_update (A := A) (h := h)]
    have hsum := hI.counts c
    simpa [SlruSys.release, SlruSys.pagesOf] using hsum

/-- A counter is updated. -/
theorem Inv.addPageLen (hI : Inv cfg s (Function.update hs a h)) (c : SlruCount) (n : ℤ) :
    Inv cfg (s.addPageLen c n) (Function.update hs a (h.pay c n)) := by
  have hview : ∀ x, view (s.addPageLen c n) (Function.update hs a (h.pay c n)) x =
      view s (Function.update hs a h) x := fun x => view_congr rfl rfl rfl
  refine ⟨hI.config, hI.bound, fun x y => ?_, fun x y k hk => ?_,
    failed_update hI.failed fun _ hy => hy, hI.settled, fun x l => ?_, fun k => ?_⟩
  · have hlock := hI.locks x y
    by_cases hx : x = a
    · subst hx
      simp only [Function.update_self] at hlock ⊢
      exact hlock
    · rw [Function.update_of_ne hx] at hlock ⊢
      exact hlock
  · by_cases hx : x = a
    · subst hx
      rw [Function.update_self] at hk
      exact hI.own_gpa hk
    · rw [Function.update_of_ne hx] at hk
      exact hI.gpas x y k (by rw [Function.update_of_ne hx, hk])
  · rw [hview]
    exact hI.lists x l
  · simp only [hview]
    have hsum := hI.counts k
    rw [sum_debt_update (A := A) (h := h)]
    have hpages : (s.addPageLen c n).pagesOf (s.addPageLen c n).leaked = s.pagesOf s.leaked := rfl
    rw [hpages]
    by_cases hk : k = c
    · subst hk
      simp only [SlruSys.addPageLen, Hand.pay, Function.update_self]
      linarith
    · simp only [SlruSys.addPageLen, Hand.pay, Function.update_of_ne hk]
      linarith

omit [DecidableEq A] in
/-- The account does not depend on the rest of the state. -/
theorem Inv.same (hI : Inv cfg s hs) (hconfig : t.config = s.config) (hgpa : t.gpa = s.gpa)
    (hlock : t.lock = s.lock) (hlists : t.lists = s.lists) (hlen : t.pageLen = s.pageLen)
    (hfailed : t.failed = s.failed) (hleaked : t.leaked = s.leaked) : Inv cfg t hs := by
  have hview : ∀ x, view t hs x = view s hs x := by
    intro x
    rw [view, view, hlock, hgpa]
  refine ⟨hconfig.trans hI.config, ?_, ?_, ?_, ?_, ?_, fun x l => ?_, fun c => ?_⟩
  · rw [hlock, hgpa]
    exact hI.bound
  · rw [hlock]
    exact hI.locks
  · rw [hgpa]
    exact hI.gpas
  · rw [hfailed]
    exact hI.failed
  · rw [hlock, hfailed, hgpa]
    exact hI.settled
  · rw [hlists, hview]
    exact hI.lists x l
  · simp only [hview]
    rw [hlen, hleaked, SlruSys.pagesOf, hconfig]
    exact hI.counts c

/-- The eviction or the fault of a block fails. -/
theorem Inv.fail (hI : Inv cfg s (Function.update hs a h)) (b : ℕ) :
    Inv cfg { s with failed := b :: s.failed } (Function.update hs a (h.fail b)) := by
  have hview : ∀ x, view { s with failed := b :: s.failed } (Function.update hs a (h.fail b)) x =
      view s (Function.update hs a h) x := fun x => view_congr rfl rfl rfl
  refine ⟨hI.config, hI.bound, fun x y => ?_, fun x y k hk => ?_, fun x y hy => ?_,
    fun x hx => (hI.settled x hx).mono (List.mem_cons_of_mem b), fun x l => ?_, fun k => ?_⟩
  · have hlock := hI.locks x y
    by_cases hx : x = a
    · subst hx
      simp only [Function.update_self] at hlock ⊢
      exact hlock
    · rw [Function.update_of_ne hx] at hlock ⊢
      exact hlock
  · by_cases hx : x = a
    · subst hx
      rw [Function.update_self] at hk
      exact hI.own_gpa hk
    · rw [Function.update_of_ne hx] at hk
      exact hI.gpas x y k (by rw [Function.update_of_ne hx, hk])
  · by_cases hyb : y = b
    · exact hyb ▸ List.mem_cons_self
    · refine List.mem_cons_of_mem b ?_
      by_cases hx : x = a
      · subst hx
        rw [Function.update_self, Hand.fail_failed, Function.update_of_ne hyb] at hy
        exact hI.own_failed hy
      · rw [Function.update_of_ne hx] at hy
        exact hI.failed x y (by rw [Function.update_of_ne hx, hy])
  · rw [hview]
    exact hI.lists x l
  · simp only [hview]
    rw [sum_debt_update (A := A) (h := h)]
    have hsum := hI.counts k
    simpa [SlruSys.pagesOf] using hsum

end Slru

end Emp
