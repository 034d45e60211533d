import Emp.Fork.Steps

/-!
# Groups are shared as wholes, and freed once

As long as forks copy whole groups, a slot is populated if and only if its whole group is, so the
first descriptor of a group is pointed to exactly when any of them is, and its `refcnt` decides
about the group.

## Main results

* `ForkSys.grouped_of_reach` — the slots of a group point to the members of one group, in order.
* `ForkSys.freedOnce_of_reach` — a group is freed once, when no slot points to it any more.
-/

namespace Emp

namespace ForkSys

variable {s s' : ForkSys} {d e i idx id : ℕ} {x : Slot} {g : Group}

/-! ### Which groups are held -/

/-- Some slot points to a member of the group. -/
def Held (s : ForkSys) (id : ℕ) : Prop := ∃ d i x, s.gpaDir d i = some x ∧ x.group = id

theorem not_held_iff : ¬ s.Held id ↔ ∀ d i x, s.gpaDir d i = some x → x.group ≠ id := by
  simp only [Held, not_exists, not_and, ne_eq]

/-- Where a group is held, some directory has its first member. -/
theorem exists_first (h : s.Inv) (hg : s.group id = some g) (hheld : s.Held id) :
    ∃ e < s.numDescs, s.gpaDir e g.start = some ⟨id, 0⟩ := by
  obtain ⟨d, i, x, hx, rfl⟩ := hheld
  have hpos : g.start < g.start + g.len := Nat.lt_add_of_pos_right (Nat.two_pow_pos _)
  have hfirst : ∀ e, s.task e = none → s.gpaDir e i = some x →
      ∃ e < s.numDescs, s.gpaDir e g.start = some ⟨x.group, 0⟩ := by
    intro e he hex
    refine ⟨e, (h.sound.slot e i x hex).1, ?_⟩
    have hslot := h.whole e he i x g hex hg g.start le_rfl hpos
    rwa [Nat.sub_self] at hslot
  cases ht : s.task d with
  | none => exact hfirst d ht hx
  | some t =>
      -- a fork has copied the slot from a directory of whole groups
      obtain ⟨-, -, -, hidle, hfills⟩ := h.walking d t ht
      exact hfirst t.parent hidle (hfills.sub i x hx)

/-- The first member decides for its group. -/
theorem refcnt_first (h : s.Inv) (hg : s.group id = some g) :
    s.refcnt ⟨id, 0⟩ = 0 ↔ ¬ s.Held id := by
  have hcounted := h.sound.counted ⟨id, 0⟩ g hg (Nat.two_pow_pos _)
  rw [Counted] at hcounted
  rw [hcounted, Nat.cast_eq_zero]
  constructor
  · intro hzero hheld
    obtain ⟨e, he, hslot⟩ := exists_first h hg hheld
    exact Census.not_of_count_eq_zero hzero he hslot
  · intro hnot
    rw [Nat.count_iff_forall_not]
    exact fun e _ hslot => hnot ⟨e, _, _, hslot, rfl⟩

/-! ### The groups are shared as wholes -/

theorem grouped_of_inv (h : s.Inv) : s.Grouped := by
  refine ⟨fun d hd i start order hi hat => ?_, fun id g hg hbusy m hm => ?_, h.sound.nullRemoved,
    fun d hd idx id base hlen hnone havail => ?_⟩
  · obtain ⟨s₀, o₀, hat₀, -, -, hall⟩ := Backing.groupAt_spec h.sound.valid hi
    obtain ⟨rfl, rfl⟩ := Prod.mk.inj (Option.some.inj (hat₀.symm.trans hat))
    by_cases hempty : ∀ j, s₀ ≤ j → j < s₀ + 2 ^ (o₀ - s.backing.sbOrder) → s.gpaDir d j = none
    · exact .inl hempty
    · simp only [not_forall] at hempty
      obtain ⟨j, hj, hj', hne⟩ := hempty
      obtain ⟨x, hx⟩ := Option.ne_none_iff_exists'.mp hne
      obtain ⟨-, -, g, hg, hatj, -⟩ := h.sound.slot d j x hx
      obtain ⟨hstart, horder⟩ := Prod.mk.inj (Option.some.inj ((hall j hj hj').2.symm.trans hatj))
      have hlen : g.len = 2 ^ (g.allocOrder - s.backing.sbOrder) := (h.sound.memberAt d hg).len_eq
      refine .inr ⟨x.group, fun k hk hk' => ?_⟩
      rw [hstart] at hk hk' ⊢
      exact h.whole d hd j x g hx hg k hk (by rwa [hlen, ← horder])
  · have hzero := h.sound.counted ⟨id, 0⟩ g hg (Nat.two_pow_pos _)
    have hcounted := h.sound.counted ⟨id, m⟩ g hg hm
    rw [Counted] at hzero hcounted
    rw [hzero, hcounted, Nat.cast_inj]
    refine Census.count_congr fun e _ => ?_
    -- a directory with one of the members is complete, so it has all of them
    have hmove : ∀ k < g.len, ∀ k' < g.len, s.gpaDir e (g.start + k) = some ⟨id, k⟩ →
        s.gpaDir e (g.start + k') = some ⟨id, k'⟩ := by
      intro k _ k' hk' hslot
      have hidle : s.task e = none := by
        by_contra hne
        exact hbusy e hne _ _ hslot rfl
      have hslot' := h.whole e hidle _ _ g hslot hg (g.start + k') (by omega) (by omega)
      rwa [Nat.add_sub_cancel_left] at hslot'
    exact ⟨hmove m hm 0 (Nat.two_pow_pos _), hmove 0 (Nat.two_pow_pos _) m hm⟩
  · have hdir := h.sound.dirInv (h.whole d hd)
    have hpop := (Directory.kept_getGpadesc hdir havail).2 hlen rfl
    have hself : (s.getGpadesc d idx (some (id, base))).gpaDir d =
        ((s.dirAt d).getGpadesc idx (some (id, base))).gpaDir := Function.update_self ..
    rwa [hself]

/-- **In every run whose forks copy whole groups** and whose closes come upon aligned low memory,
the groups are shared as wholes, whatever happens to the blocks meanwhile. -/
theorem grouped_of_reach (h : Transition.ReachWhen Start step Uncut s) : s.Grouped := by
  have hinv : s.Inv :=
    h.invariant (fun _ => inv_of_start) fun _ _ _ hi hok hs => (inv_of_step hi hok hs).1
  exact grouped_of_inv hinv

/-! ### The groups are freed once -/

/-- A step frees nothing and takes the last slot from no group. -/
theorem freed_of_held (hf : s.Freed) (h : s.Inv) (h' : s'.Inv) (hkeeps : s.Keeps s')
    (hstray : s'.strayFrees = s.strayFrees) (hfrees : s'.frees = s.frees)
    (hold : ∀ id g, s.group id = some g → (s'.Held id ↔ s.Held id))
    (hnew : ∀ id g, s.group id = none → s'.group id = some g → s'.Held id) : s'.Freed := by
  refine ⟨hstray.trans hf.stray, fun id g' hg' => ?_, fun id hid => ?_⟩
  · rw [hfrees]
    have hdecide := refcnt_first h' hg'
    cases hg : s.group id with
    | none =>
        rw [if_neg fun hzero => hdecide.mp hzero (hnew id g' hg hg')]
        exact hf.fresh id hg
    | some g =>
        rw [hf.group id g hg]
        exact if_congr ((refcnt_first h hg).trans ((not_congr (hold id g hg)).symm.trans hdecide.symm))
          rfl rfl
  · rw [hfrees]
    exact hf.fresh id (hkeeps.fresh hid)

/-- No slot changes, and no group is made. -/
theorem freed_of_same (hf : s.Freed) (h : s.Inv) (h' : s'.Inv) (hkeeps : s.Keeps s')
    (hstray : s'.strayFrees = s.strayFrees) (hfrees : s'.frees = s.frees) (hdir : s'.gpaDir = s.gpaDir)
    (hgroup : ∀ id, s.group id = none → s'.group id = none) : s'.Freed := by
  refine freed_of_held hf h h' hkeeps hstray hfrees (fun id g _ => ?_) fun id g hid hg => ?_
  · rw [Held, Held, hdir]
  · rw [hgroup id hid] at hg
    cases hg

/-- A group is installed in one directory, and every group that was held before still is. -/
theorem freed_of_install {id : ℕ} (hf : s.Freed) (h : s.Inv) (h' : s'.Inv) (hkeeps : s.Keeps s')
    (hstray : s'.strayFrees = s.strayFrees) (hfrees : s'.frees = s.frees) (hfree : s.group id = none)
    (hgroup : ∀ id', id' ≠ id → s.group id' = none → s'.group id' = none)
    (hdir : s'.gpaDir d = ((s.dirAt d).install id g).gpaDir)
    (hother : ∀ e, e ≠ d → s'.gpaDir e = s.gpaDir e)
    (hlost : ∀ i x, g.start ≤ i → i < g.start + g.len → s.gpaDir d i = some x →
      ∃ e ≠ d, ∃ j y, s.gpaDir e j = some y ∧ y.group = x.group) : s'.Freed := by
  have hself : s'.Held id := by
    refine ⟨d, g.start, ⟨id, 0⟩, ?_, rfl⟩
    rw [hdir, install_eq_some]
    refine .inl ⟨⟨le_rfl, Nat.lt_add_of_pos_right (Nat.two_pow_pos _)⟩, ?_⟩
    rw [Nat.sub_self]
  refine freed_of_held hf h h' hkeeps hstray hfrees (fun id' g' hg' => ?_) fun id' g' hid' hg' => ?_
  · have hne : id' ≠ id := fun heq => by rw [heq, hfree] at hg'; cases hg'
    constructor
    · rintro ⟨e, i, x, hx, rfl⟩
      by_cases he : e = d
      · rw [he, hdir, install_eq_some] at hx
        rcases hx with ⟨-, heq⟩ | ⟨-, hold⟩
        · exact absurd (congrArg Slot.group heq) hne
        · exact ⟨d, i, x, hold, rfl⟩
      · exact ⟨e, i, x, hother e he ▸ hx, rfl⟩
    · rintro ⟨e, i, x, hx, rfl⟩
      by_cases he : e = d
      · subst he
        by_cases hin : g.start ≤ i ∧ i < g.start + g.len
        · obtain ⟨e', he', j, y, hy, hgroup⟩ := hlost i x hin.1 hin.2 hx
          exact ⟨e', j, y, (congrFun (hother e' he') j).trans hy, hgroup⟩
        · exact ⟨e, i, x, by rw [hdir, install_eq_some]; exact .inr ⟨hin, hx⟩, rfl⟩
      · exact ⟨e, i, x, (congrFun (hother e he) i).trans hx, rfl⟩
  · by_cases heq : id' = id
    · exact heq ▸ hself
    · rw [hgroup id' heq hid'] at hg'
      cases hg'

/-- A first touch, or the split that follows it. -/
theorem freed_populate {alloc : Option (ℕ × ℕ)} {dir : Directory} (hf : s.Freed) (h : s.Inv)
    (h' : s'.Inv) (hkeeps : s.Keeps s') (hw : s.Whole d) (havail : (s.dirAt d).available idx alloc)
    (hr : ((s.dirAt d).getGpadesc idx alloc).Reordered dir) (hstray : s'.strayFrees = s.strayFrees)
    (hfrees : s'.frees = s.frees) (hgroup : s'.group = dir.group)
    (hdir : s'.gpaDir = Function.update s.gpaDir d dir.gpaDir) : s'.Freed := by
  have hself : s'.gpaDir d = ((s.dirAt d).getGpadesc idx alloc).gpaDir := by
    rw [hdir, Function.update_self, hr.slots]
  have hother : ∀ e, e ≠ d → s'.gpaDir e = s.gpaDir e := fun e he => by
    rw [hdir, Function.update_of_ne he]
  rcases Directory.getGpadesc_spec (h.sound.dirInv hw) havail with ⟨heq, -⟩ |
    ⟨id, base, g, rfl, -, hfree, -, -, hempty, -, -, heq⟩
  · rw [heq] at hself hr
    refine freed_of_same hf h h' hkeeps hstray hfrees (funext fun e => ?_) fun id hid => ?_
    · by_cases he : e = d
      · rw [he, hself]
        rfl
      · exact hother e he
    · rw [hgroup]
      exact hr.new id hid
  · rw [heq] at hself hr
    refine freed_of_install hf h h' hkeeps hstray hfrees hfree (fun id' hne hid' => ?_) hself hother
      fun i x hi hi' hx => ?_
    · rw [hgroup]
      exact hr.new id' ((Function.update_of_ne hne _ _).trans hid')
    · have hnone : s.gpaDir d i = none := hempty i hi hi'
      rw [hnone] at hx
      cases hx

/-- A descriptor that counts more than one slot is in another directory too. -/
theorem exists_other (h : s.Sound) (hg : s.group x.group = some g) (hm : x.member < g.len) (d : ℕ)
    (href : 1 < s.refcnt x) : ∃ e ≠ d, ∃ i, s.gpaDir e i = some x := by
  by_contra hno
  simp only [not_exists, not_and, ne_eq] at hno
  have hcounted := h.counted x g hg hm
  rw [Counted] at hcounted
  have hle : Nat.count (fun e => s.gpaDir e (g.start + x.member) = some x) s.numDescs ≤
      Nat.count (fun e => e = d) s.numDescs := by
    refine Nat.count_mono_left fun e _ hslot => ?_
    by_contra he
    exact hno e he _ hslot
  have hone : Nat.count (fun e => e = d) s.numDescs ≤ 1 := by
    by_cases hd : d < s.numDescs
    · exact (Census.count_eq hd).le
    · have hzero : Nat.count (fun e => e = d) s.numDescs = 0 := by
        rw [Nat.count_iff_forall_not]
        exact fun e he heq => hd (heq ▸ he)
      omega
  omega

/-- A copy-on-write fault; one that fails, fails for the first block. -/
theorem freed_cow {base : ℕ} {fails : Option ℕ} (hf : s.Freed) (h : s.Inv) (hbusy : s.busy d = false)
    (havail : (s.dirAt d).available idx (some (id, base))) (hs : s.cow d idx id base fails = some s')
    (hfirst : ∀ m, fails = some m → m = 0) : s'.Freed := by
  obtain ⟨h', hkeeps⟩ := inv_cow h hbusy havail hs
  obtain ⟨x, g, start, order, hx, hat, hcase⟩ := cow_cases hs
  have hw := h.whole d ((busy_eq_false h).mp hbusy).1
  have hdir := h.sound.dirInv hw
  obtain ⟨-, hmember, -, -, hm, hall⟩ := hdir.range hx
  have hg : s.group x.group = some g := (Directory.gpaAt_eq_some.mp hx).2
  obtain ⟨hfree, rfl, rfl, -, heq⟩ := Directory.copyGroup_spec hdir havail hx hat
  rcases hcase with ⟨w, rfl⟩ | ⟨href, -, rfl⟩ | ⟨m, hfails, -, rfl⟩
  · exact hf.congr rfl rfl rfl rfl
  · have hhead : g.member (g.empGetBlockHead x.member) < g.len := by
      rw [Group.empGetBlockHead_eq hmember.placed hmember.geometry hm, Group.member_ptr hmember.placed]
      exact (alignDown_le _ _).trans_lt hm
    obtain ⟨e, he, j, hslot⟩ := exists_other (x := ⟨x.group, g.member (g.empGetBlockHead x.member)⟩)
      h.sound hg hhead d href
    have hself : (s.changeGpaDir d id base g x.group g.start g.allocOrder).gpaDir d =
        ((s.dirAt d).install id { g with base := base }).gpaDir := by
      rw [changeGpaDir, heq]
      exact Function.update_self ..
    refine freed_of_install hf h h' hkeeps rfl rfl hfree (fun id' hne hid' => ?_) hself
      (fun e he => Function.update_of_ne he ..) fun i y hi hi' hy => ⟨e, he, j, _, hslot, ?_⟩
    · rw [changeGpaDir, heq]
      exact (Function.update_of_ne hne ..).trans hid'
    · -- the slots of the range are those of the old group
      have hold : s.gpaDir d i = some ⟨x.group, i - g.start⟩ :=
        (Directory.gpaAt_eq_some.mp (hall i hi hi')).1
      rw [← Option.some.inj (hold.symm.trans hy)]
  · obtain rfl := hfirst m hfails
    refine ⟨hf.stray, fun id' g' hg' => ?_, fun id' hid' => ?_⟩
    · change Function.update s.frees id (s.frees id + 1) id' = if s.refcnt ⟨id', 0⟩ = 0 then 1 else 0
      by_cases hid : id' = id
      · rw [hid, Function.update_self, hf.fresh id hfree, if_pos (h.sound.fresh ⟨id, 0⟩ hfree)]
      · rw [Function.update_of_ne hid]
        exact hf.group id' g' ((Function.update_of_ne hid ..).symm.trans hg')
    · have hne : id' ≠ id := fun heq' => by
        rw [heq'] at hid'
        have hnew := (Function.update_self (f := s.group) ..).symm.trans hid'
        cases hnew
      exact (Function.update_of_ne hne ..).trans (hf.fresh id' (hkeeps.fresh hid'))

/-- A step of the walk of a fork makes no group and takes no slot. -/
theorem freed_walk {c : ℕ} {alloc : Bool} (hf : s.Freed) (h : s.Inv) (hok : s.Uncut (.walk c alloc))
    (hs : s.walk c alloc = some s') : s'.Freed := by
  obtain ⟨h', hkeeps⟩ := inv_walk h hok hs
  obtain ⟨t, ht, hcase⟩ := walk_cases hs
  obtain ⟨hne, -, -, -, -⟩ := h.walking c t ht
  rcases hcase with ⟨index, -, hfind⟩ | ⟨k, x, g, -, hx, rfl⟩ | ⟨k, pos, g, -, -, rfl⟩
  · rcases hfind with ⟨k, -, -, rfl⟩ | ⟨-, rfl⟩
    · exact hf.congr rfl rfl rfl rfl
    · rw [nextView]
      cases t.rest <;> exact hf.congr rfl rfl rfl rfl
  · have hheld : s.Held x.group := ⟨t.parent, k, x, (Directory.gpaAt_eq_some.mp hx).1, rfl⟩
    refine freed_of_held hf h h' hkeeps rfl rfl (fun id _ _ => ?_) fun id g' hid hg' => ?_
    · constructor
      · rintro ⟨e, i, y, hy, rfl⟩
        by_cases he : e = c
        · subst he
          have hself := (congrFun (copyBlock_self k ⟨x.group, g.member (g.empGetBlockHead x.member)⟩
            (g.gpa (g.member (g.empGetBlockHead x.member))).numSubblock) i).symm.trans hy
          simp only at hself
          split_ifs at hself
          · obtain rfl := Option.some.inj hself
            exact hheld
          · exact ⟨e, i, y, hself, rfl⟩
        · exact ⟨e, i, y, (congrFun (Function.update_of_ne he ..) i).symm.trans hy, rfl⟩
      · rintro ⟨e, i, y, hy, rfl⟩
        by_cases he : e = c
        · subst he
          refine ⟨e, i, y, (congrFun (copyBlock_self ..) i).trans ?_, rfl⟩
          simp only [hy]
          exact if_neg fun hc => by cases hc.2.2
        · exact ⟨e, i, y, (congrFun (Function.update_of_ne he ..) i).trans hy, rfl⟩
    · have hnone : some g' = none := hg'.symm.trans hid
      cases hnone
  · exact hf.congr rfl rfl rfl rfl

/-- Nothing is freed but groups that no slot points to, and these once. -/
theorem freed_of_step {ev : ForkEvent} (hf : s.Freed) (h : s.Inv) (hok : s.UncutFirst ev)
    (hs : step s ev = some s') : s'.Freed := by
  obtain ⟨huncut, hfirst⟩ := hok
  obtain ⟨h', hkeeps⟩ := inv_of_step h huncut hs
  cases ev with
  | touch d idx alloc =>
      obtain ⟨⟨hbusy, -, havail⟩, rfl⟩ := Transition.of_guard hs
      exact freed_populate hf h h' hkeeps (h.whole d ((busy_eq_false h).mp hbusy).1) havail
        (Directory.Reordered.refl _) rfl rfl rfl rfl
  | els id e =>
      simp only [step, Option.ite_none_right_eq_some] at hs
      obtain ⟨g, hg, hmap⟩ := Option.bind_eq_some_iff.mp hs.2
      obtain ⟨g', -, rfl⟩ := Option.map_eq_some_iff.mp hmap
      refine freed_of_same hf h h' hkeeps rfl rfl rfl fun id' hid' => ?_
      have hne : id' ≠ id := fun heq => by rw [heq, hg] at hid'; cases hid'
      exact (Function.update_of_ne hne ..).trans hid'
  | attach d v alloc =>
      obtain ⟨-, rfl⟩ := Transition.of_guard hs
      exact hf.congr rfl rfl rfl rfl
  | split d v addr newIsFront alloc mem =>
      obtain ⟨⟨hbusy, -, -, -, havail⟩, rfl⟩ := Transition.of_guard hs
      have hw := h.whole d ((busy_eq_false h).mp hbusy).1
      exact freed_populate hf h h' hkeeps hw havail
        (Directory.reordered_splitVmdesc (h.sound.dirInv hw) havail) rfl rfl rfl rfl
  | cow d idx id base fails =>
      simp only [step, Option.ite_none_right_eq_some] at hs
      exact freed_cow hf h hs.1.1 hs.1.2 hs.2 fun m hm => hfirst d idx id base m (hm ▸ rfl)
  | fork d mm v vs =>
      obtain ⟨-, rfl⟩ := Transition.of_guard hs
      exact hf.congr rfl rfl rfl rfl
  | walk c alloc => exact freed_walk hf h huncut hs
  | close d v =>
      obtain ⟨⟨hbusy, hv⟩, rfl⟩ := Transition.of_guard hs
      exact (closes_closeAndFreeGpas h hbusy hv huncut).1.freed (hf.congr rfl rfl rfl rfl)

theorem freed_of_start (h : s.Start) : s.Freed := by
  refine ⟨h.strayFrees, fun id g hg => ?_, fun id _ => h.frees id⟩
  rw [h.group] at hg
  cases hg

theorem freedOnce_of_freed (hf : s.Freed) (h : s.Inv) : s.FreedOnce := by
  refine ⟨fun id => ?_, hf.stray, fun d i x hx => ?_, fun id g hg hnone => ?_, fun id g hg => ?_,
    fun d hnil i => ?_⟩
  · cases hg : s.group id with
    | none =>
        rw [hf.fresh id hg]
        exact Nat.zero_le 1
    | some g =>
        rw [hf.group id g hg]
        split_ifs <;> omega
  · obtain ⟨-, -, g, hg, -⟩ := h.sound.slot d i x hx
    rw [hf.group _ g hg, if_neg fun hzero => (refcnt_first h hg).mp hzero ⟨d, i, x, hx, rfl⟩]
  · rw [hf.group id g hg, if_pos ((refcnt_first h hg).mpr (not_held_iff.mpr hnone))]
  · exact (refcnt_first h hg).trans not_held_iff
  · by_cases hd : d < s.numDescs
    · exact (h.views d hd).empty hnil i
    · by_contra hne
      obtain ⟨x, hx⟩ := Option.ne_none_iff_exists'.mp hne
      exact hd (h.sound.slot d i x hx).1

/-- In every run whose forks copy whole groups, whose closes come upon aligned low memory and whose
copies fail for the first block of a group if at all, the groups are freed once, and only when no
slot points to them. -/
theorem freedOnce_of_reach (h : Transition.ReachWhen Start step UncutFirst s) : s.FreedOnce := by
  have hinv : s.Inv ∧ s.Freed := by
    refine h.invariant (I := fun s => s.Inv ∧ s.Freed) (fun _ hs => ⟨inv_of_start hs, freed_of_start hs⟩) ?_
    intro s ev s' hi hok hs
    exact ⟨(inv_of_step hi.1 hok.1 hs).1, freed_of_step hi.2 hi.1 hok hs⟩
  exact freedOnce_of_freed hinv.2 hinv.1

/-! ### Runs -/

/-- The vmr of a mapping of sixteen subblocks, which is not touched yet. -/
def mapped : ForkSys where
  backing := Group.sixteen
  gpaSize := 32
  group := fun _ => none
  refcnt := fun _ => 0
  wprotect := fun _ => false
  frees := fun _ => 0
  strayFrees := 0
  nullRemoved := 0
  numDescs := 1
  gpaDir := fun _ _ => none
  desc := fun _ => (Vmdesc.mk 16 1 ViewList.empVmdescViewInit).addView VmdescDir.wholeVmr false true
  vmrs := fun d => if d = 0 then [VmdescDir.wholeVmr] else []
  task := fun _ => none

theorem start_mapped : mapped.Start :=
  ⟨⟨by decide, by decide⟩, by decide, fun _ => rfl, fun _ => rfl, fun _ => rfl, rfl, rfl, rfl, fun _ _ => rfl,
    ⟨VmdescDir.wholeVmr, by decide, rfl, rfl⟩, fun _ hd => if_neg hd.ne', fun _ => rfl⟩

/-- The walk of a fork that copies one block. -/
def walkOne : List ForkEvent := List.replicate 4 (.walk 1 true)

/-- A group is touched and shared by a fork, the parent takes a copy, and the child is closed. -/
def forkCowClose : List ForkEvent :=
  [.touch 0 8 (some (0, 1024)), .fork 0 1 VmdescDir.wholeVmr []] ++ walkOne ++
    [.cow 0 8 1 2048 none, .close 1 ⟨1, 16, 80, 1, false, false⟩]

/-- The group of the touch lies in the view of the whole mapping. -/
theorem inView_of_groupAt {j : ℕ} (h : Group.sixteen.groupAt j = some (4, 5)) :
    Group.sixteen.InView VmdescDir.wholeVmr j := by
  obtain ⟨-, -, -, hstart⟩ := Backing.exists_region_of_groupAt h
  refine ⟨Nat.zero_le j, ?_⟩
  change j - (if 4 ≤ j then j - 4 else j) % 8 = 4 at hstart
  change j < 16
  split_ifs at hstart <;> omega

theorem allowed_forkCowClose : Transition.Allowed step UncutFirst mapped forkCowClose := by
  have hnever : ∀ e : ForkEvent, (∀ d idx id base m, e ≠ .cow d idx id base (some m)) →
      ∀ d idx id base m, e = .cow d idx id base (some m) → m = 0 :=
    fun e h d idx id base m he => absurd he (h d idx id base m)
  refine ⟨⟨trivial, hnever _ nofun⟩, ⟨.inr fun i j hij hi _ => ?_, hnever _ nofun⟩,
    ⟨fun t ht => ?_, hnever _ nofun⟩, ⟨fun t ht => ?_, hnever _ nofun⟩, ⟨fun t ht => ?_, hnever _ nofun⟩,
    ⟨fun t ht => ?_, hnever _ nofun⟩, ⟨trivial, hnever _ nofun⟩, ⟨.inl rfl, hnever _ nofun⟩, trivial⟩
  · have hrange : 4 ≤ i ∧ i < 12 := by
      by_contra hno
      have hnone := (if_neg (fun hc => hno ⟨hc.1, hc.2.1⟩)).symm.trans (Option.some_get hi).symm
      cases hnone
    refine ⟨VmdescDir.wholeVmr, List.mem_singleton_self _, inView_of_groupAt (hij.symm.trans ?_)⟩
    have hgroup : ∀ i < 12, 4 ≤ i → Group.sixteen.groupAt i = some (4, 5) := by decide
    exact hgroup i hrange.2 hrange.1
  · obtain rfl := Option.some.inj ht
    trivial
  · obtain rfl := Option.some.inj ht
    rintro x g hx
    obtain rfl := (Prod.mk.inj (Option.some.inj hx)).1
    obtain rfl := (Prod.mk.inj (Option.some.inj hx)).2
    decide
  · obtain rfl := Option.some.inj ht
    rintro g hg
    obtain rfl := Option.some.inj hg
    decide
  · obtain rfl := Option.some.inj ht
    trivial

theorem grouped_forkCowClose : ∃ s, Transition.exec step mapped forkCowClose = some s ∧ s.Grouped ∧
    (s.gpaDir 0 8, s.gpaDir 1 8, s.refcnt ⟨1, 4⟩) = (some ⟨1, 4⟩, none, 1) := by
  have hreach : ∀ s, Transition.exec step mapped forkCowClose = some s →
      Transition.ReachWhen Start step Uncut s := fun s he =>
    Transition.ReachWhen.mono (fun _ _ h => h.1) (.exec (.start start_mapped) allowed_forkCowClose he)
  exact ⟨_, rfl, grouped_of_reach (hreach _ rfl), by decide⟩

theorem freedOnce_forkCowClose : ∃ s, Transition.exec step mapped forkCowClose = some s ∧ s.FreedOnce ∧
    (s.frees 0, s.frees 1) = (1, 0) := by
  exact ⟨_, rfl, freedOnce_of_reach (.exec (.start start_mapped) allowed_forkCowClose rfl), by decide⟩

/-- The halves of the mapping, cut in the middle of the group of the subblocks 4 to 11. -/
def frontVmr : Vmr := { VmdescDir.wholeVmr with vmEnd := 48 }

def backVmr : Vmr := { VmdescDir.wholeVmr with vmStart := 48 }

/-- The group is touched, the vma is split in the middle of it, one half is closed, and the other
one is copied by a fork. -/
def forkHalf (closed kept : Vmr) : List ForkEvent :=
  [.touch 0 8 (some (0, 1024)), .split 0 VmdescDir.wholeVmr 48 false none ⟨true, true, true, true⟩,
    .close 0 closed, .fork 0 1 kept []] ++ walkOne

/-- The child has the first half of the group, and its close removes four empty slots. -/
theorem not_grouped_forkHalf : ∃ s s', Transition.exec step mapped (forkHalf backVmr frontVmr) = some s ∧
    Transition.Reach Start step s ∧ ¬ s.Grouped ∧ s.task 1 = none ∧
    (List.range 8).map (fun i => s.gpaDir 1 (4 + i)) = (List.range 4).map (fun m => some ⟨0, m⟩) ++
      List.replicate 4 none ∧ s.refcnt ⟨0, 3⟩ = 2 ∧ s.refcnt ⟨0, 4⟩ = 1 ∧
    step s (.close 1 { frontVmr with mm := 1, descs := 1 }) = some s' ∧ s'.nullRemoved = 4 := by
  have hrun : ∀ s, Transition.exec step mapped (forkHalf backVmr frontVmr) = some s →
      Transition.Reach Start step s := fun _ he => Transition.Reach.exec (.start start_mapped) he
  refine ⟨_, _, rfl, hrun _ rfl, fun h => ?_, rfl, by decide, by decide, by decide, rfl, by decide⟩
  rcases h.slots 1 rfl 4 4 5 (by decide) rfl with hnone | ⟨id, hall⟩
  · exact absurd (hnone 4 (by decide) (by decide)) (by decide)
  · have hslot := hall 8 (by decide) (by decide)
    cases hslot

/-- The child has the second half of the group, which the close of the parent frees. -/
theorem not_freedOnce_forkHalf : ∃ s,
    Transition.exec step mapped (forkHalf frontVmr backVmr ++ [.close 0 backVmr]) = some s ∧
    Transition.Reach Start step s ∧ s.frees 0 = 1 ∧ s.gpaDir 1 8 = some ⟨0, 4⟩ ∧ ¬ s.FreedOnce := by
  have hrun : ∀ s, Transition.exec step mapped (forkHalf frontVmr backVmr ++ [.close 0 backVmr]) = some s →
      Transition.Reach Start step s := fun _ he => Transition.Reach.exec (.start start_mapped) he
  refine ⟨_, rfl, hrun _ rfl, by decide, by decide, fun h => ?_⟩
  exact absurd (h.dangling 1 8 ⟨0, 4⟩ (by decide)) (by decide)

end ForkSys

end Emp
