import Emp.Cow.Reduced

/-!
# The window of a copy on write

When the fault has locked the last block it holds exactly the blocks of the group that the
directory names, whatever others have done in between.  What it goes on to do is right exactly
if that group is still the one it remembers, if the faulting subblock is still in the block
that is at the old head's index, and, for an error that goes to the MMU notifier, if that
block has kept its head.

## Main definitions

* `CowFault.Inv` — what holds while the fault takes its locks.
* `CowFault.ReplacedOk` — what the fault should leave.
* `CowFault.WindowOk` — the condition on the state in which it has all locks.
-/

namespace Emp

namespace CowFault

variable (s : CowFault)

/-- The group that the directory names. -/
def group : ℕ := (s.dir 0).group

/-- The fault holds the blocks of the directory's group up to `idx`, which is the end of a
block. -/
structure Inv (s : CowFault) : Prop where
  dir : ∀ i, s.dir i = ⟨s.group, i⟩
  group_lt : s.group < s.next
  old_lt : s.old < s.next
  tiled : ∀ g < s.next, Tiled 0 s.len fun m => s.order ⟨g, m⟩
  below : Tiled 0 s.idx fun m => s.order ⟨s.group, m⟩
  above : Tiled s.idx s.len fun m => s.order ⟨s.group, m⟩
  idx_le : s.idx ≤ s.len
  lock : ∀ d, s.lock d = true ↔ d.group = s.group ∧ d.member < s.idx ∧ s.blockHead d = d
  faultIdx_lt : s.faultIdx < s.len
  headIdx_lt : s.headIdx < s.len
  touched : s.touched = []
  stray : s.stray = false

variable {s} {t : CowFault} {l : DupLuck} {g m lo hi o : ℕ} {d : Slot}

theorem len_pos (s : CowFault) : 0 < s.len := Nat.two_pow_pos _

theorem blockHead_mk : s.blockHead ⟨g, m⟩ = ⟨g, alignDown (s.order ⟨g, m⟩) m⟩ := rfl

theorem blockHead_eq_self : s.blockHead d = d ↔ alignDown (s.order d) d.member = d.member := by
  cases d
  simp [blockHead]

/-! ## The others -/

/-- A range of blocks of a group that the fault does not hold gets other orders. -/
theorem inv_setOrder (h : Inv s) (hg : g < s.next)
    (hold : Tiled lo hi fun m => s.order ⟨g, m⟩) (hnew : Tiled lo hi fun _ => o)
    (hhi : hi ≤ s.len) (hidx : g = s.group → s.idx ≤ lo) : Inv (s.setOrder g lo hi o) := by
  have hin : ∀ m, lo ≤ m → m < hi → (s.setOrder g lo hi o).order ⟨g, m⟩ = o :=
    fun m hlo hm => if_pos ⟨rfl, hlo, hm⟩
  have hout : ∀ d : Slot, ¬ (d.group = g ∧ lo ≤ d.member ∧ d.member < hi) →
      (s.setOrder g lo hi o).order d = s.order d := fun d hd => if_neg hd
  have hnew' : Tiled lo hi fun m => (s.setOrder g lo hi o).order ⟨g, m⟩ := hnew.congr hin
  have hrest : ∀ m, ¬ (lo ≤ m ∧ m < hi) →
      (s.setOrder g lo hi o).order ⟨g, m⟩ = s.order ⟨g, m⟩ :=
    fun m hm => hout ⟨g, m⟩ fun hd => hm hd.2
  have hother : ∀ a m, a ≠ g → (s.setOrder g lo hi o).order ⟨a, m⟩ = s.order ⟨a, m⟩ :=
    fun a m ha => hout ⟨a, m⟩ fun hd => ha hd.1
  refine ⟨h.dir, h.group_lt, h.old_lt, fun a ha => ?_, ?_, ?_, h.idx_le, fun d => ?_,
    h.faultIdx_lt, h.headIdx_lt, h.touched, h.stray⟩
  · by_cases hag : a = g
    · subst hag
      exact (h.tiled a ha).replace hold hnew' (Nat.zero_le lo) hhi hrest
    · exact (h.tiled a ha).congr fun m _ _ => hother a m hag
  · refine h.below.congr fun m _ hm => hout ⟨s.group, m⟩ ?_
    rintro ⟨hag, hlo, -⟩
    have hle := hidx hag.symm
    have hlo' : lo ≤ m := hlo
    have hm' : m < s.idx := hm
    omega
  · by_cases hag : s.group = g
    · have hle := hidx hag.symm
      have habove := h.above
      rw [hag] at habove
      rw [show (s.setOrder g lo hi o).group = g from hag]
      exact habove.replace hold hnew' hle hhi hrest
    · exact h.above.congr fun m _ _ => hother s.group m hag
  · rw [show (s.setOrder g lo hi o).lock d = s.lock d from rfl, h.lock d]
    refine and_congr_right fun hdg => and_congr_right fun hdm => ?_
    rw [blockHead_eq_self, blockHead_eq_self, hout d ?_]
    rintro ⟨hag, hlo, -⟩
    have := hidx (hag.symm.trans hdg)
    have hdm' : d.member < s.idx := hdm
    omega

/-- The head of a block that the fault does not hold. -/
theorem le_of_othersCan (h : Inv s) (hd : s.OthersCan d) (hg : d.group = s.group) :
    s.idx ≤ d.member := by
  by_contra hlt
  have hlock := (h.lock d).mpr ⟨hg, not_le.mp hlt, hd.2.2.1⟩
  rw [hd.2.2.2] at hlock
  cases hlock

/-- The block of a head of a group. -/
theorem run_of_head (h : Inv s) (hd : s.OthersCan d) :
    2 ^ s.order d ∣ d.member ∧ d.member + 2 ^ s.order d ≤ s.len ∧
      Tiled d.member (d.member + 2 ^ s.order d) fun m => s.order ⟨d.group, m⟩ := by
  have hself := blockHead_eq_self.mp hd.2.2.1
  obtain ⟨-, hend, hrun⟩ := (h.tiled d.group hd.1).run (Nat.zero_le _) hd.2.1
  have hdvd : 2 ^ s.order d ∣ d.member := Dvd.intro_left _ hself
  rw [show alignDown (s.order ⟨d.group, d.member⟩) d.member = d.member from hself] at hend hrun
  exact ⟨hdvd, hend, tiled_run hdvd hrun⟩

theorem inv_reduce (h : Inv s) (hd : s.OthersCan d) (ho : o < s.order d) :
    Inv (s.setOrder d.group d.member (d.member + s.numSubblock d) o) := by
  obtain ⟨hdvd, hend, htiled⟩ := run_of_head h hd
  have hpow : 2 ^ o ∣ 2 ^ s.order d := Nat.pow_dvd_pow 2 ho.le
  have ha : 2 ^ o ∣ d.member := hpow.trans hdvd
  exact inv_setOrder h hd.1 htiled (tiled_const ha (Nat.dvd_add ha hpow) fun _ _ _ => rfl) hend
    (le_of_othersCan h hd)

theorem inv_stretch (h : Inv s) (hlo : lo = alignDown (o + 1) m)
    (hfirst : s.OthersCan ⟨g, lo⟩) (hsecond : s.OthersCan ⟨g, lo + 2 ^ o⟩)
    (ho : s.order ⟨g, lo⟩ = o) (ho' : s.order ⟨g, lo + 2 ^ o⟩ = o) :
    Inv (s.setOrder g lo (lo + 2 ^ (o + 1)) (o + 1)) := by
  obtain ⟨-, -, htiled⟩ := run_of_head h hfirst
  obtain ⟨-, hend, htiled'⟩ := run_of_head h hsecond
  rw [ho] at htiled
  rw [ho'] at hend htiled'
  have hsum : lo + 2 ^ (o + 1) = lo + 2 ^ o + 2 ^ o := by
    rw [Nat.pow_succ]
    omega
  have hdvd : 2 ^ (o + 1) ∣ lo := hlo ▸ dvd_alignDown (o + 1) m
  refine inv_setOrder h hfirst.1 ?_ (tiled_run hdvd fun _ _ _ => rfl) (hsum ▸ hend)
    (le_of_othersCan h hfirst)
  rw [hsum]
  exact htiled.append htiled' (Nat.le_add_right ..) (Nat.le_add_right ..)

/-- Before the first lock another fault of the process may replace the group. -/
theorem inv_replace (h : Inv s) (hfree : ∀ i < s.len, s.lock (s.blockHead (s.dir i)) = false) :
    Inv { s with
      next := s.next + 1
      dir := fun i => ⟨s.next, i⟩
      order := fun d => if d.group = s.next then s.order ⟨s.group, d.member⟩ else s.order d
      isCow := fun d => if d.group = s.next then false else s.isCow d } := by
  have hzero : s.idx = 0 := by
    by_contra hne
    have hhead : s.blockHead (s.dir 0) = ⟨s.group, 0⟩ := by
      rw [h.dir 0, blockHead_mk, alignDown, Nat.zero_div, Nat.zero_mul]
    have hlock := (h.lock ⟨s.group, 0⟩).mpr ⟨rfl, Nat.pos_of_ne_zero hne, by
      rw [← h.dir 0, hhead]
      exact (h.dir 0).symm⟩
    rw [← hhead, hfree 0 (len_pos s)] at hlock
    cases hlock
  have hold : ∀ a, a < s.next → ∀ m,
      (if a = s.next then s.order ⟨s.group, m⟩ else s.order ⟨a, m⟩) = s.order ⟨a, m⟩ :=
    fun a ha m => if_neg ha.ne
  have hnew : Tiled 0 s.len fun m => if s.next = s.next then s.order ⟨s.group, m⟩ else
      s.order ⟨s.next, m⟩ := (h.tiled _ h.group_lt).congr fun m _ _ => if_pos rfl
  refine ⟨fun i => rfl, Nat.lt_succ_self _, h.old_lt.trans (Nat.lt_succ_self _), fun a ha => ?_, ?_,
    ?_, h.idx_le, fun d => ?_, h.faultIdx_lt, h.headIdx_lt, h.touched, h.stray⟩
  · rcases Nat.lt_succ_iff_lt_or_eq.mp ha with hlt | rfl
    · exact (h.tiled a hlt).congr fun m _ _ => hold a hlt m
    · exact hnew
  · show Tiled 0 s.idx _
    rw [hzero]
    exact tiled_empty 0 _
  · show Tiled s.idx s.len _
    rw [hzero]
    exact hnew
  · show s.lock d = true ↔ d.group = s.next ∧ d.member < s.idx ∧ _
    rw [h.lock d, hzero]
    simp

/-! ## The locks -/

theorem inv_lockNext (h : Inv s) (hlt : s.idx < s.len) :
    Inv { s with
      lock := Function.update s.lock (s.blockHead (s.dir s.idx)) true
      idx := s.idx + s.numSubblock (s.blockHead (s.dir s.idx)) } := by
  obtain ⟨halign, hend, hrun, htail⟩ := h.above.tail hlt
  have hhead : s.blockHead (s.dir s.idx) = ⟨s.group, s.idx⟩ := by
    rw [h.dir s.idx, blockHead_mk, halign]
  rw [hhead]
  refine ⟨h.dir, h.group_lt, h.old_lt, h.tiled, ?_, htail, hend, fun d => ?_, h.faultIdx_lt,
    h.headIdx_lt, h.touched, h.stray⟩
  · exact h.below.append hrun (Nat.zero_le _) (Nat.le_add_right ..)
  · show Function.update s.lock _ true d = true ↔
      d.group = s.group ∧ d.member < s.idx + 2 ^ s.order ⟨s.group, s.idx⟩ ∧ s.blockHead d = d
    have hpos := Nat.two_pow_pos (s.order ⟨s.group, s.idx⟩)
    by_cases hd : d = ⟨s.group, s.idx⟩
    · subst hd
      rw [Function.update_self, blockHead_mk, halign]
      simp
    · rw [Function.update_of_ne hd, h.lock d]
      refine and_congr_right fun hg => and_congr_left fun hself =>
        ⟨fun hlt' => by omega, fun hm => ?_⟩
      by_contra hge
      obtain ⟨a, m⟩ := d
      obtain rfl : a = s.group := hg
      have hm' : m = s.idx :=
        h.above.eq_of_alignDown hlt (not_lt.mp hge) hm (blockHead_eq_self.mp hself)
      exact hd (by rw [hm'])

theorem inv_of_start (h : Start s) : Inv s := by
  have hgroup : s.group = s.old := congrArg Slot.group (h.dir 0)
  refine ⟨fun i => by rw [h.dir i, hgroup], hgroup ▸ h.old_lt, h.old_lt, h.tiled, ?_, ?_, ?_,
    fun d => ?_, h.faultIdx_lt, ?_, h.touched, h.stray⟩
  · rw [h.idx]
    exact tiled_empty 0 _
  · rw [h.idx, hgroup]
    exact h.tiled s.old h.old_lt
  · rw [h.idx]
    exact Nat.zero_le _
  · rw [h.lock d, h.idx]
    simp
  · have hhead := h.head
    rw [h.dir, h.dir, blockHead_mk] at hhead
    have hle := alignDown_le (s.order ⟨s.old, s.faultIdx⟩) s.faultIdx
    have hmem : alignDown (s.order ⟨s.old, s.faultIdx⟩) s.faultIdx = s.headIdx :=
      congrArg Slot.member hhead
    have := h.faultIdx_lt
    omega

/-! ## The exits -/

/-- The fault holds the blocks of the group that it remembers, and the directory names that
group. -/
structure AllLocked (s : CowFault) : Prop where
  dir : ∀ i, s.dir i = ⟨s.old, i⟩
  old_lt : s.old < s.next
  tiled : Tiled 0 s.len fun m => s.order ⟨s.old, m⟩
  lock : ∀ d, s.lock d = true ↔ d.group = s.old ∧ d.member < s.len ∧ s.blockHead d = d
  headIdx_lt : s.headIdx < s.len
  touched : ∀ a ∈ s.touched, a = s.old
  stray : s.stray = false

theorem Inv.allLocked (h : Inv s) (hidx : s.len ≤ s.idx) (hold : s.group = s.old) :
    AllLocked s := by
  have hend : s.idx = s.len := le_antisymm h.idx_le hidx
  refine ⟨fun i => hold ▸ h.dir i, h.old_lt, h.tiled _ h.old_lt, fun d => ?_, h.headIdx_lt,
    fun a ha => ?_, h.stray⟩
  · rw [h.lock d, hold, hend]
  · rw [h.touched] at ha
    cases ha

/-- The head of the block at a slot. -/
theorem AllLocked.head (h : AllLocked s) (hm : m < s.len) :
    (s.blockHead (s.dir m)).member < s.len ∧
      s.blockHead (s.blockHead (s.dir m)) = s.blockHead (s.dir m) := by
  rw [h.dir m, blockHead_mk]
  obtain ⟨-, -, hrun⟩ := h.tiled.run (Nat.zero_le _) hm
  have hle := alignDown_le (s.order ⟨s.old, m⟩) m
  have hself := hrun _ (le_refl _) (Nat.lt_add_of_pos_right (Nat.two_pow_pos _))
  refine ⟨hle.trans_lt hm, blockHead_eq_self.mpr ?_⟩
  show alignDown (s.order ⟨s.old, alignDown (s.order ⟨s.old, m⟩) m⟩) _ = _
  rw [hself]
  exact alignDown_of_dvd (dvd_alignDown _ _)

/-- The descriptors that an unlock loop from slot `idx` on passes. -/
def Passes (s : CowFault) (g idx : ℕ) (d : Slot) : Prop :=
  d.group = g ∧ idx ≤ d.member ∧ d.member < s.len ∧ s.blockHead d = d

/-- A loop over blocks that the fault holds unlocks all of them but the one it skips. -/
theorem unlockLoop_spec (find : ℕ → Slot) (skip : Option Slot) (hfind : ∀ i, find i = ⟨g, i⟩)
    (fuel : ℕ) : ∀ (idx : ℕ) (s : CowFault), Tiled idx s.len (fun m => s.order ⟨g, m⟩) →
      s.len ≤ idx + fuel → (∀ d, s.Passes g idx d → s.lock d = true) →
      ∃ k t', unlockLoop find skip fuel idx ⟨g, idx⟩ s = { s with lock := k, touched := t' } ∧
        (∀ a ∈ t', a = g ∨ a ∈ s.touched) ∧
        ∀ d, k d = true ↔ s.lock d = true ∧ (s.Passes g idx d → some d = skip) := by
  induction fuel with
  | zero =>
      intro idx s _ hfuel _
      refine ⟨s.lock, s.touched, rfl, fun a ha => .inr ha, fun d => ?_⟩
      refine (and_iff_left fun hp => ?_).symm
      have := hp.2.1
      have := hp.2.2.1
      omega
  | succ fuel ih =>
      intro idx s htiled hfuel hheld
      by_cases hidx : s.len ≤ idx
      · refine ⟨s.lock, s.touched, by rw [unlockLoop, if_pos hidx], fun a ha => .inr ha,
          fun d => (and_iff_left fun hp => ?_).symm⟩
        have := hp.2.1
        have := hp.2.2.1
        omega
      · obtain ⟨halign, hend, hrun, htail⟩ := htiled.tail (not_le.mp hidx)
        have hpos := Nat.two_pow_pos (s.order ⟨g, idx⟩)
        have hhead : s.Passes g idx ⟨g, idx⟩ :=
          ⟨rfl, le_refl _, not_le.mp hidx, by rw [blockHead_mk, halign]⟩
        -- the state behind the first block, and what is left to pass
        have hu : ∃ k, (if some (⟨g, idx⟩ : Slot) = skip then s.touch ⟨g, idx⟩
              else (s.touch ⟨g, idx⟩).unlock ⟨g, idx⟩) =
              { s with lock := k, touched := g :: s.touched } ∧
            ∀ d, k d = true ↔ s.lock d = true ∧ (d = ⟨g, idx⟩ → some d = skip) := by
          by_cases hskip : some (⟨g, idx⟩ : Slot) = skip
          · rw [if_pos hskip]
            exact ⟨s.lock, rfl, fun d => (and_iff_left fun hd => hd ▸ hskip).symm⟩
          · rw [if_neg hskip]
            refine ⟨Function.update s.lock ⟨g, idx⟩ false, ?_, fun d => ?_⟩
            · have hlock : s.lock ⟨g, idx⟩ = true := hheld _ hhead
              simp [unlock, touch, hlock]
            · by_cases hd : d = ⟨g, idx⟩
              · subst hd
                simp [hskip]
              · rw [Function.update_of_ne hd]
                exact (and_iff_left fun h => absurd h hd).symm
        obtain ⟨k, hk, hkd⟩ := hu
        have hpasses : ∀ d, s.Passes g idx d ↔
            d = ⟨g, idx⟩ ∨ s.Passes g (idx + 2 ^ s.order ⟨g, idx⟩) d := by
          rintro ⟨a, m⟩
          refine ⟨?_, ?_⟩
          · rintro ⟨rfl, hle, hlt, hself⟩
            by_cases hm : m < idx + 2 ^ s.order ⟨a, idx⟩
            · have hfirst : m = idx := htiled.eq_of_alignDown (not_le.mp hidx) hle hm
                (blockHead_eq_self.mp hself)
              exact .inl (by rw [hfirst])
            · exact .inr ⟨rfl, not_lt.mp hm, hlt, hself⟩
          · rintro (hd | ⟨ha, hle, hlt, hself⟩)
            · exact hd ▸ hhead
            · exact ⟨ha, (Nat.le_add_right ..).trans hle, hlt, hself⟩
        have hne : ∀ d, s.Passes g (idx + 2 ^ s.order ⟨g, idx⟩) d → d ≠ ⟨g, idx⟩ := by
          rintro d hp rfl
          have : idx + 2 ^ s.order ⟨g, idx⟩ ≤ idx := hp.2.1
          omega
        obtain ⟨k', t', heq, htouched, hk'⟩ := ih (idx + 2 ^ s.order ⟨g, idx⟩)
          { s with lock := k, touched := g :: s.touched } htail (by
            show s.len ≤ _
            omega) fun d hp =>
            (hkd d).mpr ⟨hheld d ((hpasses d).mpr (.inr hp)), fun h => absurd h (hne d hp)⟩
        refine ⟨k', t', ?_, fun a ha => ?_, fun d => ?_⟩
        · rw [unlockLoop, if_neg hidx]
          show unlockLoop find skip fuel (idx + 2 ^ (ite _ _ _ : CowFault).order ⟨g, idx⟩) _
            (ite _ _ _) = _
          rw [hk, hfind]
          exact heq
        · rcases htouched a ha with rfl | hmem
          · exact .inl rfl
          · rcases List.mem_cons.mp hmem with rfl | hmem
            · exact .inl rfl
            · exact .inr hmem
        · rw [hk' d, hpasses d]
          show k d = true ∧ _ ↔ _
          rw [hkd d, and_assoc, or_imp]
          exact Iff.rfl

/-- The exits without a new group leave the lock of one block. -/
theorem unlockExcept_spec (h : AllLocked s) (hm : m < s.len) :
    ∃ k t', s.unlockExcept (s.blockHead (s.dir m)) = { s with lock := k, touched := t' } ∧
      (∀ a ∈ t', a = s.old) ∧ ∀ d, k d = true ↔ d = s.blockHead (s.dir m) := by
  obtain ⟨k, t', heq, htouched, hk⟩ := unlockLoop_spec s.dir (some (s.blockHead (s.dir m)))
    h.dir s.len 0 s h.tiled (Nat.le_add_left ..) fun d hp =>
      (h.lock d).mpr ⟨hp.1, hp.2.2.1, hp.2.2.2⟩
  refine ⟨k, t', heq, fun a ha => (htouched a ha).elim id (h.touched a), fun d => ?_⟩
  rw [hk d, h.lock d]
  refine ⟨fun ⟨⟨hg, hlt, hself⟩, hskip⟩ =>
    Option.some.inj (hskip ⟨hg, Nat.zero_le _, hlt, hself⟩), ?_⟩
  rintro rfl
  have hgroup : (s.blockHead (s.dir m)).group = s.old := by
    rw [h.dir m]
    rfl
  exact ⟨⟨hgroup, h.head hm⟩, fun _ => rfl⟩

/-- What the duplication of the blocks from slot `idx` on does. -/
theorem dupLoop_spec (l : DupLuck) (fuel : ℕ) : ∀ (idx : ℕ) (s : CowFault),
    Tiled idx s.len (fun m => s.order ⟨s.old, m⟩) → s.len ≤ idx + fuel →
      ∃ c t' b, dupLoop l fuel idx s = ({ s with copied := c, touched := t' }, b) ∧
        (∀ a ∈ t', a = s.old ∨ a ∈ s.touched) ∧
        (b = false ↔ ∃ m, s.Passes s.old idx ⟨s.old, m⟩ ∧ l.fails m = true) ∧
        (b = true → ∀ i < s.len, c i = if idx ≤ i then some ⟨s.old, i⟩ else s.copied i) := by
  induction fuel with
  | zero =>
      intro idx s _ hfuel
      refine ⟨s.copied, s.touched, true, rfl, fun a ha => .inr ha, ⟨nofun, ?_⟩, fun _ i hi => ?_⟩
      · rintro ⟨m, ⟨-, hle, hlt, -⟩, -⟩
        have hle' : idx ≤ m := hle
        have hlt' : m < s.len := hlt
        omega
      · rw [if_neg (by omega)]
  | succ fuel ih =>
      intro idx s htiled hfuel
      by_cases hidx : s.len ≤ idx
      · refine ⟨s.copied, s.touched, true, by rw [dupLoop, if_pos hidx], fun a ha => .inr ha,
          ⟨nofun, ?_⟩, fun _ i hi => ?_⟩
        · rintro ⟨m, ⟨-, hle, hlt, -⟩, -⟩
          have hle' : idx ≤ m := hle
          have hlt' : m < s.len := hlt
          omega
        · rw [if_neg (by omega)]
      · obtain ⟨halign, hend, hrun, htail⟩ := htiled.tail (not_le.mp hidx)
        have hpos := Nat.two_pow_pos (s.order ⟨s.old, idx⟩)
        have hhead : s.Passes s.old idx ⟨s.old, idx⟩ :=
          ⟨rfl, le_refl _, not_le.mp hidx, by rw [blockHead_mk, halign]⟩
        by_cases hfail : l.fails idx = true
        · refine ⟨s.copied, s.old :: s.touched, false, ?_, fun a ha => List.mem_cons.mp ha,
            ⟨fun _ => ⟨idx, hhead, hfail⟩, fun _ => rfl⟩, nofun⟩
          rw [dupLoop, if_neg hidx]
          simp only [hfail, if_true]
          rfl
        · obtain ⟨c, t', b, heq, htouched, hb, hc⟩ := ih (idx + 2 ^ s.order ⟨s.old, idx⟩)
            { s with
              touched := s.old :: s.touched
              copied := fun i => if idx ≤ i ∧ i < idx + 2 ^ s.order ⟨s.old, idx⟩ then
                some ⟨s.old, i⟩ else s.copied i } htail (by
            show s.len ≤ _
            omega)
          refine ⟨c, t', b, ?_, fun a ha => ?_, ?_, fun hbt i hi => ?_⟩
          · rw [dupLoop, if_neg hidx]
            simp only [hfail]
            exact heq
          · rcases htouched a ha with rfl | hmem
            · exact .inl rfl
            · exact List.mem_cons.mp hmem
          · rw [hb]
            refine ⟨fun ⟨m, ⟨hg, hle, hlt, hself⟩, hf⟩ =>
              ⟨m, ⟨hg, (Nat.le_add_right ..).trans hle, hlt, hself⟩, hf⟩, ?_⟩
            rintro ⟨m, ⟨hg, hle, hlt, hself⟩, hf⟩
            refine ⟨m, ⟨hg, not_lt.mp fun hm => hfail ?_, hlt, hself⟩, hf⟩
            have hfirst : m = idx := htiled.eq_of_alignDown (not_le.mp hidx) hle hm
              (blockHead_eq_self.mp hself)
            exact hfirst ▸ hf
          · rw [hc hbt i hi]
            show (if idx + 2 ^ s.order ⟨s.old, idx⟩ ≤ i then _ else
              if idx ≤ i ∧ i < idx + 2 ^ s.order ⟨s.old, idx⟩ then _ else _) = _
            by_cases hlow : i < idx
            · rw [if_neg (by omega), if_neg (by omega), if_neg (by omega)]
            · by_cases hhigh : idx + 2 ^ s.order ⟨s.old, idx⟩ ≤ i
              · rw [if_pos hhigh, if_pos (by omega)]
              · rw [if_neg hhigh, if_pos (by omega), if_pos (by omega)]

/-- The replacement leaves the lock of one descriptor of the new group. -/
theorem changeGpaDir_spec (h : AllLocked s) (m : ℕ) :
    ∃ k t', s.changeGpaDir m = { s with
        next := s.next + 1
        dir := fun i => ⟨s.next, i⟩
        order := fun d => if d.group = s.next then s.order ⟨s.old, d.member⟩ else s.order d
        isCow := fun d => if d.group = s.next then false else s.isCow d
        lock := k
        touched := t' } ∧
      (∀ a ∈ t', a = s.old) ∧ ∀ d, k d = true ↔ d = ⟨s.next, m⟩ := by
  have hne : s.old ≠ s.next := h.old_lt.ne
  have hhead : ∀ d : Slot, d.group = s.old →
      alignDown (if d.group = s.next then s.order ⟨s.old, d.member⟩ else s.order d) d.member =
        alignDown (s.order d) d.member := fun d hd => by rw [if_neg (hd ▸ hne)]
  obtain ⟨k, t', heq, htouched, hk⟩ := unlockLoop_spec (⟨s.old, ·⟩) none (fun _ => rfl)
    s.len 0
    { s with
      next := s.next + 1
      dir := fun i => ⟨s.next, i⟩
      order := fun d => if d.group = s.next then s.order ⟨s.old, d.member⟩ else s.order d
      isCow := fun d => if d.group = s.next then false else s.isCow d }
    (h.tiled.congr fun m _ _ => if_neg hne) (Nat.le_add_left ..) fun d hp => by
      refine (h.lock d).mpr ⟨hp.1, hp.2.2.1, blockHead_eq_self.mpr ?_⟩
      rw [← hhead d hp.1]
      exact blockHead_eq_self.mp hp.2.2.2
  refine ⟨fun d => if d.group = s.next then decide (d.member = m) else k d, t', ?_,
    fun a ha => (htouched a ha).elim id (h.touched a), fun d => ?_⟩
  · exact congrArg (fun u : CowFault => { u with
      lock := fun d => if d.group = s.next then decide (d.member = m) else u.lock d }) heq
  · show (if d.group = s.next then decide (d.member = m) else k d) = true ↔ d = ⟨s.next, m⟩
    by_cases hd : d.group = s.next
    · rw [if_pos hd, decide_eq_true_iff]
      obtain ⟨a, i⟩ := d
      exact ⟨fun hm => congrArg₂ Slot.mk hd hm, fun hm => congrArg Slot.member hm⟩
    · rw [if_neg hd]
      refine ⟨fun hkd => ?_, fun hm => absurd (congrArg Slot.group hm) hd⟩
      -- no block of the old group is left
      obtain ⟨hlock, hskip⟩ := (hk d).mp hkd
      obtain ⟨hg, hlt, hself⟩ := (h.lock d).mp hlock
      refine absurd (hskip ⟨hg, Nat.zero_le _, hlt, blockHead_eq_self.mpr ?_⟩) nofun
      show alignDown (if d.group = s.next then s.order ⟨s.old, d.member⟩ else s.order d) _ = _
      rw [hhead d hg]
      exact blockHead_eq_self.mp hself

theorem touched_unlockLoop {find : ℕ → Slot} {skip : Option Slot} (fuel : ℕ) :
    ∀ (idx : ℕ) (d : Slot) (s : CowFault), g ∈ s.touched →
      g ∈ (unlockLoop find skip fuel idx d s).touched := by
  induction fuel with
  | zero => exact fun _ _ _ h => h
  | succ fuel ih =>
      intro idx d s h
      rw [unlockLoop]
      split
      · exact h
      · refine ih _ _ _ ?_
        have hmem : g ∈ (s.touch d).touched := List.mem_cons_of_mem _ h
        split
        · exact hmem
        · exact hmem

/-- An unlock loop accesses the group of its first head. -/
theorem group_mem_touched {find : ℕ → Slot} {skip : Option Slot} :
    d.group ∈ (unlockLoop find skip s.len 0 d s).touched := by
  obtain ⟨n, hn⟩ := Nat.exists_eq_succ_of_ne_zero (len_pos s).ne'
  rw [hn, unlockLoop, if_neg (len_pos s).not_ge]
  refine touched_unlockLoop _ _ _ _ ?_
  have hmem : d.group ∈ (s.touch d).touched := List.mem_cons_self
  split
  · exact hmem
  · exact hmem

/-! ## What the fault leaves -/

/-- The duplication fails: no group can be allocated, or that of a block fails. -/
def Fails (s : CowFault) (l : DupLuck) : Prop :=
  s.isCow (s.blockHead (s.dir s.headIdx)) = true ∧
    (l.alloc = false ∨ ∃ m, s.Passes s.group 0 ⟨s.group, m⟩ ∧ l.fails m = true)

/-- What `__handle_emp_cow_fault_reduced` leaves when the group is the one that it remembers. -/
structure Left (s t : CowFault) (l : DupLuck) : Prop where
  touched : ∀ a ∈ t.touched, a = s.old
  stray : t.stray = false
  lock : ∀ d, t.lock d = true ↔ d = t.blockHead (t.dir s.headIdx)
  done : t.ret = some 1 → ∀ i < s.len, t.copied i = some (s.dir i) ∧ t.dir i = ⟨s.next, i⟩
  kept : t.ret ≠ some 1 → t.dir = s.dir ∧ t.order = s.order
  head : ∀ i, (t.blockHead (t.dir i)).member = (s.blockHead (s.dir i)).member
  group : ∀ i, (t.dir i).group = (t.dir s.headIdx).group
  ret : t.ret = some (-1) ↔ s.Fails l
  caller : t.caller = s.caller
  headIdx : t.headIdx = s.headIdx
  faultIdx : t.faultIdx = s.faultIdx
  old : t.old = s.old

theorem AllLocked.dir_head (h : AllLocked s) (m : ℕ) :
    s.dir (s.blockHead (s.dir m)).member = s.blockHead (s.dir m) := by
  rw [h.dir m, h.dir, blockHead_mk]

theorem AllLocked.group (h : AllLocked s) : s.group = s.old := congrArg Slot.group (h.dir 0)

/-- An exit without a new group. -/
theorem left_unlockExcept {c : ℕ → Option Slot} {t' : List ℕ} {r : ℤ} (h : AllLocked s)
    (ht : ∀ a ∈ t', a = s.old) (hr : r ≠ 1) (hfails : r = -1 ↔ s.Fails l) :
    Left s
      { ({ s with copied := c, touched := t' } : CowFault).unlockExcept
          (s.blockHead (s.dir s.headIdx)) with ret := some r } l := by
  have hu : AllLocked { s with copied := c, touched := t' } :=
    ⟨h.dir, h.old_lt, h.tiled, h.lock, h.headIdx_lt, ht, h.stray⟩
  obtain ⟨k, t'', heq, htouched, hk⟩ := unlockExcept_spec hu h.headIdx_lt
  rw [show ({ s with copied := c, touched := t' } : CowFault).unlockExcept
      (s.blockHead (s.dir s.headIdx)) = _ from heq]
  refine ⟨htouched, h.stray, hk, fun hret => absurd (Option.some.inj hret) hr,
    fun _ => ⟨rfl, rfl⟩, fun _ => rfl, fun i => ?_, ?_, rfl, rfl, rfl, rfl⟩
  · show (s.dir i).group = (s.dir s.headIdx).group
    rw [h.dir, h.dir]
  · rw [← hfails]
    exact Option.some_inj

/-- The exit with a new group. -/
theorem left_changeGpaDir {c : ℕ → Option Slot} {t' : List ℕ} (h : AllLocked s)
    (ht : ∀ a ∈ t', a = s.old) (hc : ∀ i < s.len, c i = some ⟨s.old, i⟩) (hok : ¬ s.Fails l) :
    Left s
      { ({ s with copied := c, touched := t' } : CowFault).changeGpaDir
          (s.blockHead (s.dir s.headIdx)).member with ret := some 1 } l := by
  have hu : AllLocked { s with copied := c, touched := t' } :=
    ⟨h.dir, h.old_lt, h.tiled, h.lock, h.headIdx_lt, ht, h.stray⟩
  obtain ⟨k, t'', heq, htouched, hk⟩ := changeGpaDir_spec hu (s.blockHead (s.dir s.headIdx)).member
  rw [heq]
  have hhead : ∀ i, alignDown (if s.next = s.next then s.order ⟨s.old, i⟩ else
      s.order ⟨s.next, i⟩) i = (s.blockHead (s.dir i)).member := fun i => by
    rw [if_pos rfl, h.dir i, blockHead_mk]
  refine ⟨htouched, h.stray, fun d => ?_, fun _ i hi => ⟨?_, rfl⟩, fun hret => absurd rfl hret,
    hhead, fun _ => rfl, ?_, rfl, rfl, rfl, rfl⟩
  · rw [hk d]
    show d = ⟨s.next, _⟩ ↔ d = ⟨s.next, _⟩
    rw [hhead]
  · rw [h.dir i]
    exact hc i hi
  · exact iff_of_false (fun hret => absurd (Option.some.inj hret) (by decide)) hok

theorem left_handleReduced (h : AllLocked s) (l : DupLuck) : Left s (s.handleReduced l) l := by
  unfold handleReduced
  simp only [h.dir_head s.headIdx]
  by_cases hcow : s.isCow (s.blockHead (s.dir s.headIdx)) = true
  · rw [if_neg (by simp [hcow])]
    by_cases halloc : l.alloc = true
    · rw [if_neg (by simp [halloc])]
      obtain ⟨c, t', b, heq, htouched, hb, hc⟩ := dupLoop_spec l s.len 0 s h.tiled
        (Nat.le_add_left ..)
      have ht : ∀ a ∈ t', a = s.old := fun a ha => (htouched a ha).elim id (h.touched a)
      rw [heq]
      cases b with
      | false =>
          refine left_unlockExcept h ht (by decide) (iff_of_true rfl ⟨hcow, .inr ?_⟩)
          rw [h.group]
          exact hb.mp rfl
      | true =>
          refine left_changeGpaDir h ht (fun i hi => (hc rfl i hi).trans
            (if_pos (Nat.zero_le i))) fun hfails => ?_
          rcases hfails.2 with hno | hex
          · rw [halloc] at hno
            cases hno
          · rw [h.group] at hex
            exact Bool.noConfusion (hb.mpr hex)
    · have hno : l.alloc = false := Bool.eq_false_of_not_eq_true halloc
      rw [if_pos (by simp [hno])]
      exact left_unlockExcept (c := s.copied) h h.touched (by decide)
        (iff_of_true rfl ⟨hcow, .inl hno⟩)
  · rw [if_pos (by simp [hcow])]
    exact left_unlockExcept (c := s.copied) h h.touched (by decide)
      (iff_of_false (by decide) fun hfails => hcow hfails.1)

theorem dupLoop_old (l : DupLuck) (fuel : ℕ) : ∀ (idx : ℕ) (s : CowFault),
    (dupLoop l fuel idx s).1.old = s.old := by
  induction fuel with
  | zero => exact fun _ _ => rfl
  | succ fuel ih =>
      intro idx s
      rw [dupLoop]
      split
      · rfl
      · simp only []
        split
        · rfl
        · exact ih _ _

/-- Whatever group the fault finds, it accesses the one that it remembers. -/
theorem old_mem_touched (s : CowFault) (l : DupLuck) : s.old ∈ (s.handleReduced l).touched := by
  unfold handleReduced
  simp only []
  split
  · exact group_mem_touched
  · split
    · exact group_mem_touched
    · have hold := dupLoop_old l s.len 0 s
      split
      · next u heq =>
          rw [← hold, heq]
          exact group_mem_touched
      · next u heq =>
          rw [← hold, heq]
          exact group_mem_touched

theorem ret_handleReduced (s : CowFault) (l : DupLuck) : (s.handleReduced l).ret ≠ none := by
  unfold handleReduced
  simp only []
  split
  · exact Option.some_ne_none _
  · split
    · exact Option.some_ne_none _
    · split
      · exact Option.some_ne_none _
      · exact Option.some_ne_none _

/-! ## The fault -/

/-- The fault replaced all descriptors of the group that the directory named, or left the
directory as it was; it accessed no other group, released no lock that it did not hold, and
kept the one that its caller releases: that of the head of the block with the faulting
subblock. -/
structure ReplacedOk (s t : CowFault) : Prop where
  touched : ∀ a ∈ t.touched, a = s.group
  done : t.ret = some 1 → ∀ i < s.len, t.copied i = some (s.dir i) ∧ t.dir i = ⟨s.next, i⟩
  kept : t.ret ≠ some 1 → t.dir = s.dir
  stray : t.stray = false
  lock : ∀ d, t.lock d = true ↔ t.released = some d
  released : t.released = some (t.blockHead (t.dir s.faultIdx))

/-- No other fault replaced the group, the faulting subblock is in the block that is at the old
head's index, and if the duplication fails in a fault from the MMU notifier, that index is
still the head of its block. -/
structure WindowOk (s : CowFault) (l : DupLuck) : Prop where
  group : s.group = s.old
  block : s.blockHead (s.dir s.headIdx) = s.blockHead (s.dir s.faultIdx)
  head : s.caller = .mmu → s.Fails l → s.blockHead (s.dir s.headIdx) = s.dir s.headIdx

theorem inv_of_step {e : CowFaultEvent} (h : s.ret = none → Inv s) (hs : step s e = some t) :
    t.ret = none → Inv t := by
  unfold step at hs
  cases e with
  | lockNext =>
      obtain ⟨hg, rfl⟩ := Transition.of_guard hs
      exact fun _ => inv_lockNext (h hg.1) hg.2
  | reduce d o =>
      obtain ⟨hg, rfl⟩ := Transition.of_guard hs
      exact fun _ => inv_reduce (h hg.1) hg.2.1 hg.2.2
  | stretch d =>
      obtain ⟨⟨hret, -, hfirst, hsecond, ho, ho'⟩, rfl⟩ := Transition.of_guard hs
      exact fun _ => inv_stretch (h hret) rfl hfirst hsecond ho ho'
  | share d b =>
      obtain ⟨hg, rfl⟩ := Transition.of_guard hs
      have hi := h hg.1
      exact fun _ => ⟨hi.dir, hi.group_lt, hi.old_lt, hi.tiled, hi.below, hi.above, hi.idx_le,
        hi.lock, hi.faultIdx_lt, hi.headIdx_lt, hi.touched, hi.stray⟩
  | replace =>
      obtain ⟨hg, rfl⟩ := Transition.of_guard hs
      exact fun _ => inv_replace (h hg.1) hg.2
  | finish l =>
      obtain ⟨-, rfl⟩ := Transition.of_guard hs
      exact fun hret => absurd hret (ret_handleReduced s l)

theorem inv_of_reach (h : Transition.Reach Start step s) : s.ret = none → Inv s :=
  h.invariant (I := fun u : CowFault => u.ret = none → Inv u)
    (fun _ hstart _ => inv_of_start hstart) fun _ _ _ hi _ hs => inv_of_step hi hs

theorem step_finish {l : DupLuck} (hs : step s (.finish l) = some t) :
    s.ret = none ∧ s.len ≤ s.idx ∧ t = (s.handleReduced l).release := by
  unfold step at hs
  obtain ⟨hg, rfl⟩ := Transition.of_guard hs
  exact ⟨hg.1, hg.2, rfl⟩

/-- What the caller does keeps what is left. -/
theorem left_release (h : Left s t l) : Left s t.release l :=
  ⟨h.touched, h.stray, h.lock, h.done, h.kept, h.head, h.group, h.ret, h.caller, h.headIdx,
    h.faultIdx, h.old⟩

/-- The lock that the caller releases: only the MMU notifier does not look it up after an
error. -/
theorem released_release (h : Left s t l) :
    (s.caller = .mmu ∧ s.Fails l → t.release.released = some ⟨s.old, s.headIdx⟩) ∧
      (¬ (s.caller = .mmu ∧ s.Fails l) →
        t.release.released = some (t.blockHead (t.dir s.faultIdx))) := by
  rw [← h.ret, ← h.caller, ← h.headIdx, ← h.faultIdx, ← h.old]
  unfold release
  split
  · next hmmu hret => exact ⟨fun _ => rfl, fun hne => absurd ⟨hmmu, hret⟩ hne⟩
  · next hne => exact ⟨fun hboth => absurd hboth.2 (hne hboth.1), fun _ => rfl⟩

/-- Two slots are in one block after the fault if they were in one before. -/
theorem blockHead_eq_iff (h : Left s t l) (hdir : ∀ i, s.dir i = ⟨s.old, i⟩) (i : ℕ) :
    t.blockHead (t.dir s.headIdx) = t.blockHead (t.dir i) ↔
      s.blockHead (s.dir s.headIdx) = s.blockHead (s.dir i) := by
  have hmk : ∀ d d' : Slot, d.group = d'.group → (d = d' ↔ d.member = d'.member) := by
    rintro ⟨a, m⟩ ⟨a', m'⟩ rfl
    exact ⟨congrArg Slot.member, fun hm => congrArg (Slot.mk a) hm⟩
  have hold : (s.dir s.headIdx).group = (s.dir i).group := by
    rw [hdir, hdir]
  have hnew : (t.blockHead (t.dir s.headIdx)).group = (t.blockHead (t.dir i)).group :=
    (h.group i).symm
  have hold' : (s.blockHead (s.dir s.headIdx)).group = (s.blockHead (s.dir i)).group := hold
  rw [hmk _ _ hnew, hmk _ _ hold', h.head, h.head]

/-- The lock that is kept is the one that the caller releases. -/
theorem kept_iff (h : Left s t l) (hdir : ∀ i, s.dir i = ⟨s.old, i⟩) :
    (∀ d, t.release.lock d = true ↔ t.release.released = some d) ∧
        t.release.released = some (t.blockHead (t.dir s.faultIdx)) ↔
      s.blockHead (s.dir s.headIdx) = s.blockHead (s.dir s.faultIdx) ∧
        (s.caller = .mmu → s.Fails l → s.blockHead (s.dir s.headIdx) = s.dir s.headIdx) := by
  have hlock : (∀ d, t.release.lock d = true ↔ t.release.released = some d) ↔
      t.release.released = some (t.blockHead (t.dir s.headIdx)) := by
    refine ⟨fun hall => (hall _).mp ((h.lock _).mpr rfl), fun hrel d => ?_⟩
    rw [hrel, Option.some_inj]
    exact (h.lock d).trans eq_comm
  obtain ⟨hstale, hfresh⟩ := released_release h
  rw [hlock, ← blockHead_eq_iff h hdir]
  by_cases hmmu : s.caller = .mmu ∧ s.Fails l
  · have hret : t.ret ≠ some 1 := by
      rw [h.ret.mpr hmmu.2]
      decide
    obtain ⟨hd, ho⟩ := h.kept hret
    have hhead : t.blockHead (t.dir s.headIdx) = s.blockHead (s.dir s.headIdx) := by
      rw [blockHead, blockHead, hd, ho]
    rw [hstale hmmu, Option.some_inj, Option.some_inj, ← hhead, hdir s.headIdx]
    refine ⟨fun ⟨hkeep, hrel⟩ => ⟨hkeep.symm.trans hrel, fun _ _ => hkeep.symm⟩,
      fun ⟨hblock, hkeep⟩ => ?_⟩
    have hkeep' := (hkeep hmmu.1 hmmu.2).symm
    exact ⟨hkeep', hkeep'.trans hblock⟩
  · rw [hfresh hmmu, Option.some_inj]
    exact ⟨fun ⟨hkeep, _⟩ => ⟨hkeep.symm, fun hc hf => absurd ⟨hc, hf⟩ hmmu⟩,
      fun ⟨hblock, _⟩ => ⟨hblock.symm, rfl⟩⟩

/-- **The window.**  A fault whose locks were taken while others went on replaces the group that
the directory names, and keeps the lock that its caller releases, exactly if the state in
which it has all locks is `WindowOk`. -/
theorem replacedOk_iff_windowOk (h : Transition.Reach Start step s)
    (hs : step s (.finish l) = some t) : ReplacedOk s t ↔ WindowOk s l := by
  obtain ⟨hret, hidx, rfl⟩ := step_finish hs
  have hi := inv_of_reach h hret
  refine ⟨fun hok => ?_, fun hok => ?_⟩
  · have hold : s.group = s.old := (hok.touched s.old (old_mem_touched s l)).symm
    have ha := hi.allLocked hidx hold
    obtain ⟨hblock, hhead⟩ :=
      (kept_iff (left_handleReduced ha l) ha.dir).mp ⟨hok.lock, hok.released⟩
    exact ⟨hold, hblock, hhead⟩
  · have ha := hi.allLocked hidx hok.group
    have hleft := left_handleReduced ha l
    obtain ⟨hlock, hreleased⟩ := (kept_iff hleft ha.dir).mpr ⟨hok.block, hok.head⟩
    exact ⟨fun a hmem => (hleft.touched a hmem).trans hok.group.symm, hleft.done,
      fun hne => (hleft.kept hne).1, hleft.stray, hlock, hreleased⟩

/-- A group of two blocks of one subblock, and a fault of the first one. -/
def pairFault (caller : CowCaller) : CowFault where
  maxOrder := 1
  dir := fun i => ⟨0, i⟩
  order := fun _ => 0
  isCow := fun _ => true
  lock := fun _ => false
  next := 1
  caller := caller
  old := 0
  headIdx := 0
  faultIdx := 0
  idx := 0
  ret := none
  released := none
  copied := fun _ => none
  touched := []
  stray := false

theorem start_pairFault (c : CowCaller) : Start (pairFault c) where
  dir := fun _ => rfl
  old_lt := Nat.one_pos
  tiled := fun _ _ => tiled_const (one_dvd _) (one_dvd _) fun _ _ _ => rfl
  lock := fun _ => rfl
  faultIdx_lt := Nat.two_pos
  head := by cases c <;> decide
  part := Nat.one_pos
  idx := rfl
  ret := rfl
  touched := rfl
  stray := rfl

/-- Without interference the condition holds. -/
theorem replacedOk_pairFault :
    ∃ s t, Transition.exec step (pairFault .hva) [.lockNext, .lockNext] = some s ∧
      step s (.finish ⟨true, fun _ => false⟩) = some t ∧
      (ReplacedOk s t ↔ WindowOk s ⟨true, fun _ => false⟩) ∧ t.ret = some 1 := by
  have hrun : ∀ s, Transition.exec step (pairFault .hva) [.lockNext, .lockNext] = some s →
      Transition.Reach Start step s :=
    fun _ he => Transition.Reach.exec (.start (start_pairFault .hva)) he
  exact ⟨_, _, rfl, rfl, replacedOk_iff_windowOk (hrun _ rfl) rfl, rfl⟩

/-- Another fault of the process replaces the group before the first lock is taken.  The fault
finds that there is nothing left to copy, and unlocks the first descriptor of the old group
instead of that of the block that it holds. -/
theorem not_replacedOk_of_replace :
    ∃ s t, Transition.Reach Start step s ∧ step s (.finish ⟨true, fun _ => false⟩) = some t ∧
      ¬ ReplacedOk s t := by
  have hrun : ∀ s, Transition.exec step (pairFault .hva) [.replace, .lockNext, .lockNext] = some s →
      Transition.Reach Start step s :=
    fun _ he => Transition.Reach.exec (.start (start_pairFault .hva)) he
  refine ⟨_, _, hrun _ rfl, rfl, fun hok => ?_⟩
  have hstray := hok.stray
  exact absurd hstray (by decide)

end CowFault

end Emp
