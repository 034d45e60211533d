import Emp.Slru.Selected

/-!
# Reclaim keeps the account

Victims of the active list become inactive, victims of the inactive list are evicted, and what is
written back becomes remote.  An eviction that fails leaves its block off all lists, and the block
is recorded as failed; all other blocks are where they tell, and no lock is kept.

## Main definitions

* `FailedOn` — the hand after a failed eviction.
* `safe_empWritebackBlock`, `safe_evictLoop`, `safe_updateLruListsCore`, `safe_updateLruLists`,
  `safe_waitWritebackAsync`, `safe_reclaimEmpPages`.
-/

namespace Emp

namespace Slru

open Program SlruSys

variable {A : Type} [DecidableEq A] [Fintype A] {cfg : SlruConfig} {s t : SlruSys A}
  {hs : A → Hand} {a : A} {h h' k : Hand} {b : ℕ} {g g' : SlruGpa} {l : LocalList} {o o' : Owned}
  {bs cs : List ℕ} {α : Type} {P Q : Owned → Prop} {B C X : Batch} {d e u v : SlruCount → ℤ}

/-! ### Inactive blocks -/

/-- A block on an inactive list. -/
theorem settled_inactive {p : Prop} (hstate : g.rState = .inactive)
    (hflag : g.flags .proactive = false) (hon : g.on = some .mru) :
    Settled cfg p g ∧ g.list cfg.possibleCpus = some (.inactive g.cpu) := by
  have hlist : g.list cfg.possibleCpus = some (.inactive g.cpu) := by
    simp [SlruGpa.list, hon, hstate]
  refine ⟨⟨?_, ?_⟩, hlist⟩
  · rw [Flagged, hlist, hflag]
    simp
  · simp [Placed, hstate, hon]

/-- What a block on its way adds to the counters. -/
theorem Leaving.weight {r : BlockState} (hg : Leaving r g) (c : SlruCount) :
    Owned.weight cfg ⟨false, g⟩ b c =
      if c = .inactive ∧ (r = .transIl ∨ r = .wb) then (cfg.blockSize b : ℤ) else 0 := by
  simp [Owned.weight, Owned.counted, Owned.home, hg.state]

theorem weight_onInactive (hstate : g.rState = .inactive) (hon : g.on = some .mru) (c : SlruCount) :
    Owned.weight cfg ⟨true, g⟩ b c = if c = .inactive then (cfg.blockSize b : ℤ) else 0 := by
  have hlist : g.list cfg.possibleCpus = some (.inactive g.cpu) := by
    simp [SlruGpa.list, hon, hstate]
  have hquiet : Quiet g := by simp [Quiet, hstate]
  rw [weight_placed hquiet hlist]
  cases c <;> simp [unit, LocalList.countedBy]

/-- `add_gpas_to_inactive`: the blocks are on the inactive list, and counted there. -/
theorem safe_addGpasToInactive (cpu : ℤ) (gpas : List ℕ)
    (hk : Holds (tag (Out (Leaving .transAl)) gpas ++ X) d h) :
    Safe (Inv (A := A) cfg) a (fun _ k => Holds (tag (Freed cfg False) gpas ++ X) d k)
      (addGpasToInactive cpu gpas) h := by
  refine Safe.bind (Q := fun _ k => Holds (tag (Freed cfg False) gpas ++ X)
    (d + bill cfg gpas (Pi.single .inactive 1)) k) (safe_modify fun s hs hI => ?_) fun _ k hk => ?_
  · refine Inv.foldBlocks (fun b s h o hI hown ho => ?_) gpas hI hk
    obtain ⟨_, g⟩ := o
    obtain ⟨rfl, hg⟩ := ho
    have hg : Leaving .transAl g := hg
    have hgpa : s.gpa b = g := hI.own_gpa hown
    let g' : SlruGpa := { g with rState := .inactive, cpu := cpu, on := some .mru }
    have hsettled : Settled cfg False g' ∧ g'.list cfg.possibleCpus = some (.inactive cpu) :=
      settled_inactive rfl hg.flag rfl
    refine ⟨⟨true, g'⟩, ?_, ⟨?_, hsettled.1⟩, fun c => ?_⟩
    · have hput := hI.put hown hsettled.2
      simpa [SlruSys.enlist, SlruSys.setGpa, getListPtrInactive, hgpa, g'] using hput
    · simp [Owned.home]
    · rw [weight_onInactive rfl rfl, hg.weight]
      cases c <;> simp
  · refine (safe_pages gpas).bind fun pages k' hk' => ?_
    obtain ⟨rfl, rfl⟩ := hk'
    refine Safe.bind (Q := fun _ k => Holds (tag (Freed cfg False) gpas ++ X) d k)
      (safe_whenever (fun _ => ?_) fun hno => ?_) fun _ k hk => ?_
    · refine (safe_pay .inactive hk fun _ _ _ => rfl).mono fun _ k hk => hk.owes ?_
      funext c
      cases c <;> simp [bill_apply]
    · refine hk.owes ?_
      funext c
      simp [bill_apply, not_not.mp hno]
    · refine Safe.bind (Q := fun _ k' => k' = k) (safe_ask fun _ => rfl) fun fails k' hk' => ?_
      subst hk'
      exact safe_ret hk

/-! ### The scan of the inactive list -/

/-- What a scan of the inactive list takes; its victims are still counted. -/
def inactivePicks : Picks :=
  ⟨Leaving .transIl, Leaving .inactive, Leaving .inactive, 0, Pi.single .inactive (-1)⟩

omit [DecidableEq A] [Fintype A] in
theorem visitInactive_visit (cpu : ℤ) (vsLen : ℕ) (luck : SlruLuck) :
    inactivePicks.Visit (A := A) cfg (getListPtrInactive cpu) (visitInactive cpu vsLen luck) := by
  intro b o s _ hl hg
  obtain ⟨hstate, hflag⟩ := hg.onInactive hl
  have hon : (s.gpa b).on = some .mru := by
    have hplaced := hg.placed
    simpa [Placed, hstate] using hplaced
  have hw : ∀ g', Leaving .inactive g' → ∀ c, Owned.weight cfg ⟨false, g'⟩ b c -
      Owned.weight cfg ⟨true, s.gpa b⟩ b c = cfg.blockSize b * inactivePicks.other c := by
    intro g' hg' c
    rw [hg'.weight, weight_onInactive hstate hon]
    cases c <;> simp [inactivePicks]
  have hmark : ∀ f : GpaFlag, f ≠ .proactive → Leaving .inactive
      { (s.gpa b).setFlag f false with on := none } := fun f hf => by
    refine ⟨rfl, ?_, hstate⟩
    simpa [SlruGpa.setFlag, Ne.symm hf] using hflag
  simp only [visitInactive, setGpa_delist, delist_gpa]
  split_ifs with hpinned hpromote hfree
  · have hleaving : Leaving .inactive { s.gpa b with on := none } := ⟨rfl, hflag, hstate⟩
    exact Or.inr ⟨_, delist_setGpa_self.symm, Or.inr (Or.inl ⟨rfl, hleaving, hw _ hleaving⟩)⟩
  · have hleaving := hmark .promote (by decide)
    exact Or.inr ⟨_, rfl, Or.inr (Or.inr ⟨rfl, hleaving, hw _ hleaving⟩)⟩
  · have hleaving : Leaving .transIl { s.gpa b with rState := .transIl, on := none } :=
      ⟨rfl, hflag, rfl⟩
    refine Or.inr ⟨_, rfl, Or.inl ⟨rfl, hleaving, fun c => ?_⟩⟩
    rw [hleaving.weight, weight_onInactive hstate hon]
    cases c <;> simp [inactivePicks]
  · exact Or.inl ⟨rfl, rfl⟩

theorem Leaving.quiet (hg : Leaving .inactive g) : Quiet g := by simp [Quiet, hg.state]

/-- `select_victims_inactive_list`. -/
theorem safe_selectVictimsInactiveList {cpu : ℤ} {vsLen : ℕ} (hk : Holds X d h) :
    Safe (Inv cfg) a (fun vs k => Holds (tag (Out (Leaving .transIl)) vs ++ X) d k)
      (selectVictimsInactiveList a cpu vsLen) h := by
  have hnil : inactivePicks.Holds cfg X d ⟨[], [], []⟩ h := hk.owes (by simp)
  refine Safe.bind (Q := fun o k => inactivePicks.Holds cfg X d o k)
    (safe_section fun luck s hs hI => hI.scanFree (visitInactive_visit cpu vsLen luck) hnil)
    fun o k hk => ?_
  let paid : List ℕ → SlruCount → ℤ := fun bs => Pi.single .inactive (cfg.pages bs)
  have hk₁ : Holds (tag (Out (Leaving .inactive)) o.toPin ++ (tag (Out (Leaving .transIl)) o.vs ++
      (tag (Out (Leaving .inactive)) o.toPromote ++ X))) (d - paid o.toPin - paid o.toPromote)
      k := by
    refine (Slru.Holds.perm hk (List.perm_append_comm_assoc ..)).owes ?_
    funext c
    cases c <;> simp [bill_apply, inactivePicks, paid]
    ring
  refine Safe.bind (Q := fun _ k => Holds (tag (Out (Leaving .transIl)) o.vs ++
    (tag (Out (Leaving .inactive)) o.toPromote ++ X)) (d - paid o.toPromote) k)
    (safe_whenever (fun _ => ?_) fun hno => ?_) fun _ k hk => ?_
  · refine (safe_payPages .inactive o.toPin hk₁).bind fun _ k hk => ?_
    refine (safe_moveToPinList false false o.toPin (R := Leaving .inactive)
      (fun g hg => ⟨hg.quiet, fun hf => absurd hf (by simp), fun hf => absurd hf (by simp)⟩)
      hk).mono fun _ k hk => hk.owes ?_
    funext c
    simp [paid]
    ring
  · rw [not_not.mp hno] at hk₁
    exact hk₁.owes (by simp [paid])
  have hk₂ := hk.perm (List.perm_append_comm_assoc ..)
  refine Safe.bind (Q := fun _ k => Holds (tag (Out (Leaving .transIl)) o.vs ++ X) d k)
    (safe_whenever (fun _ => ?_) fun hno => ?_) fun _ k hk => safe_ret hk
  · refine (safe_pages o.toPromote).bind fun pages k' hk' => ?_
    obtain ⟨rfl, rfl⟩ := hk'
    refine (safe_payBack .inactive hk₂ fun _ _ _ => rfl).bind fun _ k hk => ?_
    refine (safe_checkEagerWbr (stable_leaving _) o.toPromote hk).bind fun _ k hk => ?_
    refine (safe_promoteGpas false o.toPromote (hk.weaken fun o ho => ⟨ho.1, ho.2.quiet⟩)).mono
      fun _ k hk => hk.owes ?_
    funext c
    simp [paid]
  · rw [not_not.mp hno] at hk₂
    exact hk₂.owes (by simp [paid])

/-- The first loop of `update_inactive_list`. -/
theorem safe_inactiveLoop (cpus : List ℤ) (vs : List ℕ) (hard soft : ℤ)
    (hk : Holds (tag (Out (Leaving .transIl)) vs ++ X) d h) :
    Safe (Inv cfg) a (fun vs k => Holds (tag (Out (Leaving .transIl)) vs ++ X) d k)
      (inactiveLoop a cpus vs hard soft) h := by
  induction cpus generalizing vs hard soft h with
  | nil => exact safe_ret hk
  | cons cpu cpus ih =>
    refine Safe.bind (Q := fun _ k => k = h) (safe_look fun _ _ _ => rfl) fun len k' hk' => ?_
    subst hk'
    by_cases hlen : len = 0
    · rw [if_pos hlen]
      exact ih vs hard soft hk
    rw [if_neg hlen]
    refine (safe_selectVictimsInactiveList hk).bind fun more k hk => ?_
    have hk' : Holds (tag (Out (Leaving .transIl)) (vs ++ more) ++ X) d k := by
      refine hk.perm ?_
      rw [tag_append, List.append_assoc]
      exact List.perm_append_comm_assoc ..
    refine (safe_pages more).bind fun pages k'' hk'' => ?_
    obtain ⟨rfl, rfl⟩ := hk''
    split_ifs
    · exact safe_ret hk'
    · exact ih _ _ _ hk'

/-! ### Evictions -/

/-- What is missing in the hand of a thread that evicts a block that is counted as inactive
already. -/
def missing (cfg : SlruConfig) (r : BlockState) (b : ℕ) : SlruCount → ℤ :=
  if r = .transIl ∨ r = .wb then 0 else Pi.single .inactive (cfg.blockSize b)

/-- The hand after the eviction of a block in the state `r` has failed. -/
def FailedOn (cfg : SlruConfig) (r : BlockState) (b : ℕ) (X : Batch) (d : SlruCount → ℤ)
    (h : Hand) : Prop :=
  ∃ r', (r' = r ∨ r' = .wb) ∧ Carries h.own (fun _ => none) ((b, Out (Leaving r')) :: X) ∧
    h.failed = Function.update (fun _ => false) b true ∧ h.debt = d - missing cfg r' b

theorem weight_missing {r : BlockState} (hg : Leaving r g) (c : SlruCount) :
    Owned.weight cfg ⟨false, g⟩ b c =
      (Pi.single .inactive (cfg.blockSize b : ℤ) - missing cfg r b : SlruCount → ℤ) c := by
  rw [hg.weight, missing]
  by_cases hr : r = .transIl ∨ r = .wb
  · rw [if_pos hr]
    cases c <;> simp [hr]
  · rw [if_neg hr]
    cases c <;> simp [hr]

/-- A block without a local page. -/
theorem leaving_init {p : Prop} (hg : Leaving .init g) : Settled cfg p g := by
  refine ⟨?_, ?_⟩
  · rw [Flagged, hg.flag, SlruGpa.list, hg.on]
    simp
  · simp [Placed, hg.state, hg.on]

theorem leaving_setGpaRemote (hon : g.on = none) : Leaving .init (setGpaRemote g) :=
  ⟨hon, by simp [setGpaRemote, GpaFlag.keep], rfl⟩

/-- A block off all lists is where it tells. -/
theorem freed_out {p : Prop} (hon : g.on = none) (hg : Settled cfg p g) (x : Bool) :
    Freed cfg p ⟨x, g⟩ := by
  refine ⟨?_, hg⟩
  simp [Owned.home, SlruGpa.list, hon]

/-- `emp_writeback_block` of a block that is counted as inactive. -/
theorem safe_empWritebackBlock (cpu : ℤ) {r : BlockState}
    (hk : Holds ((b, Out (Leaving r)) :: X) (d - missing cfg r b) h) :
    Safe (Inv (A := A) cfg) a
      (fun ok k => if ok then Holds ((b, Freed cfg False) :: X) d k else FailedOn cfg r b X d k)
      (empWritebackBlock cpu b) h := by
  refine (safe_checkEagerWbr (stable_leaving r) [b] hk).bind fun _ k₁ hk₁ => ?_
  have hk₁ : Holds ((b, Out (Leaving r)) :: X) (d - missing cfg r b) k₁ := hk₁
  refine Safe.bind (Q := fun _ k => k = k₁) (safe_ask fun _ => rfl) fun eviction k' hk' => ?_
  subst hk'
  cases eviction with
  | posted =>
    -- the block is off its list in the writeback state for a moment
    refine Safe.bind (Q := fun _ k => Holds ((b, Out (Leaving .wb)) :: X) d k) ?_ fun _ k hk => ?_
    · refine (safe_modify_block (e := missing cfg r b) hk₁ fun s hs o hI hown ho => ?_).mono
        fun _ k hk => hk.owes ?_
      · obtain ⟨_, g⟩ := o
        obtain ⟨rfl, hg⟩ := ho
        have hg : Leaving r g := hg
        have hwb : Leaving .wb { g with rState := .wb } := ⟨hg.on, hg.flag, rfl⟩
        have hgpa : s.gpa b = g := hI.own_gpa hown
        rw [hgpa]
        refine ⟨⟨false, { g with rState := .wb }⟩, hI.turn hown _, ⟨rfl, hwb⟩, fun c => ?_⟩
        rw [weight_missing hg, weight_missing hwb]
        simp [missing]
      · simp
    · refine Safe.bind (Q := fun _ k => Holds ((b, Freed cfg False) :: X) d k) ?_
        fun _ k hk => safe_ret hk
      refine (safe_modify_block (e := 0) hk fun s hs o hI hown ho => ?_).mono
        fun _ k hk => hk.owes (add_zero d)
      obtain ⟨_, g⟩ := o
      obtain ⟨rfl, hg⟩ := ho
      have hg : Leaving .wb g := hg
      have hgpa : s.gpa b = g := hI.own_gpa hown
      let g' : SlruGpa := { g with cpu := cpu, on := some .lru }
      have hlist : g'.list cfg.possibleCpus = some (.writeback cpu) := by
        simp [g', SlruGpa.list, hg.state]
      refine ⟨⟨true, g'⟩, ?_, ⟨by simp [Owned.home], ?_, ?_⟩, fun c => ?_⟩
      · refine Inv.same (hI.put hown hlist) ?_ ?_ ?_ ?_ ?_ ?_ ?_
        all_goals simp [pushWritebackRequest, SlruSys.enlist, SlruSys.setGpa, hgpa, g']
      · rw [Flagged, hlist]
        simp [g', hg.flag]
      · simp [Placed, g', hg.state]
      · rw [hg.weight]
        simp only [Owned.weight, Owned.counted, Owned.home, if_true, hlist]
        cases c <;> simp [g', hg.state, LocalList.countedBy]
  | clean =>
    refine Safe.bind (Q := fun _ k => Holds ((b, Freed cfg False) :: X)
      (d - Pi.single SlruCount.inactive (cfg.blockSize b : ℤ)) k) ?_ fun _ k hk => ?_
    · refine (safe_modify_block
        (e := missing cfg r b - Pi.single SlruCount.inactive (cfg.blockSize b : ℤ)) hk₁
        fun s hs o hI hown ho => ?_).mono fun _ k hk => hk.owes ?_
      · obtain ⟨_, g⟩ := o
        obtain ⟨rfl, hg⟩ := ho
        have hg : Leaving r g := hg
        have hinit := leaving_setGpaRemote hg.on
        have hgpa : s.gpa b = g := hI.own_gpa hown
        rw [hgpa]
        refine ⟨⟨false, setGpaRemote g⟩, hI.turn hown _,
          freed_out hinit.on (leaving_init hinit) false, fun c => ?_⟩
        rw [weight_missing hg, hinit.weight]
        simp
      · funext c
        simp
    · refine Safe.bind (Q := fun _ k => Holds ((b, Freed cfg False) :: X) d k) ?_
        fun _ k hk => safe_ret hk
      refine (safe_payBack (n := cfg.blockSize b) .inactive hk fun s hs hI => ?_).mono
        fun _ k hk => hk.owes ?_
      · rw [hI.config]
      · simp
  | failed headPosted =>
    refine Safe.bind (Q := fun _ k => FailedOn cfg r b X d k) (safe_modify fun s hs hI => ?_)
      fun _ k hk => safe_ret hk
    obtain ⟨⟨_, g⟩, hown, rfl, hg⟩ := hk₁.head
    have hg : Leaving r g := hg
    have hgpa : s.gpa b = g := hI.own_gpa hown
    let r' := if headPosted then BlockState.wb else r
    have hg' : Leaving r' { g with rState := r' } := ⟨hg.on, hg.flag, rfl⟩
    have hfail := (hI.turn hown { g with rState := r' }).fail b
    let o' : Owned := ⟨false, { g with rState := r' }⟩
    refine ⟨(k'.swap cfg b ⟨false, g⟩ o').fail b, ?_, r', ?_,
      hk₁.carries.set (Q := Out (Leaving r')) ⟨rfl, hg'⟩, ?_, ?_⟩
    · rw [hgpa, hg.state]
      exact hfail
    · cases headPosted
      · exact Or.inl rfl
      · exact Or.inr rfl
    · rw [Hand.fail_failed, Hand.swap_failed, hk₁.failed]
    · funext c
      have hw : Owned.weight cfg o' b c = _ := weight_missing hg' c
      simp only [Hand.fail_debt, Hand.swap, weight_missing hg, hw, hk₁.debt, Pi.sub_apply]
      ring

/-- All blocks of a list fail. -/
def Hand.failAll (h : Hand) (bs : List ℕ) : Hand := bs.foldr (fun b h => h.fail b) h

@[simp] theorem Hand.failAll_own : (h.failAll bs).own = h.own := by
  induction bs with
  | nil => rfl
  | cons b bs ih => exact ih

@[simp] theorem Hand.failAll_debt : (h.failAll bs).debt = h.debt := by
  induction bs with
  | nil => rfl
  | cons b bs ih => exact ih

theorem Hand.failAll_failed (x : ℕ) :
    (h.failAll bs).failed x = true ↔ x ∈ bs ∨ h.failed x = true := by
  induction bs with
  | nil => simp [Hand.failAll]
  | cons b bs ih =>
    have hstep : (h.failAll (b :: bs)).failed = Function.update (h.failAll bs).failed b true := rfl
    rw [hstep]
    by_cases hx : x = b
    · simp [hx]
    · rw [Function.update_of_ne hx, ih]
      simp [hx]

theorem Inv.failAll (hI : Inv cfg s (Function.update hs a h)) (bs : List ℕ) :
    Inv cfg { s with failed := bs ++ s.failed } (Function.update hs a (h.failAll bs)) := by
  induction bs with
  | nil => exact hI
  | cons b bs ih => exact ih.fail b

/-- A block whose eviction has failed may be unlocked. -/
theorem freed_failed {r : BlockState} (hr : r = .transIl ∨ r = .wb ∨ r = .active ∨ r = .inactive)
    (hg : Leaving r g) (x : Bool) : Freed cfg True ⟨x, g⟩ := by
  refine freed_out hg.on ⟨?_, ?_⟩ x
  · rw [Flagged, hg.flag, SlruGpa.list, hg.on]
    simp
  · rcases hr with hr | hr | hr | hr
    all_goals simp [Placed, hg.state, hr, hg.on]

/-- The second loop of `update_inactive_list`. -/
theorem safe_evictLoop (cpu : ℤ) (bs : List ℕ)
    (hk : Holds (tag (Out (Leaving .transIl)) bs ++ X) d h) :
    Safe (Inv (A := A) cfg) a (fun _ k => Holds X d k) (evictLoop cpu bs) h := by
  induction bs generalizing h with
  | nil => exact safe_ret (by simpa using hk)
  | cons b bs ih =>
    have hk₁ : Holds ((b, Out (Leaving .transIl)) :: (tag (Out (Leaving .transIl)) bs ++ X))
        (d - missing cfg .transIl b) h := hk.owes (by simp [missing])
    refine (safe_empWritebackBlock cpu hk₁).bind fun ok k hk => ?_
    cases ok with
    | true =>
      have hfreed : Holds (tag (Freed cfg False) [b] ++ (tag (Out (Leaving .transIl)) bs ++ X)) d k :=
        hk
      refine Safe.bind (Q := fun _ k => Holds (tag (Out (Leaving .transIl)) bs ++ X) d k) ?_
        fun _ k hk => ih hk
      exact safe_unlockBlocks [b] hfreed
    | false =>
      obtain ⟨r', hr', hcarries, hfailed, hdebt⟩ := hk
      have hstates : r' = .transIl ∨ r' = .wb := hr'
      -- the blocks that are left fail with it
      refine Safe.bind (Q := fun _ k' => k' = k.failAll bs)
        (safe_modify fun s hs hI => ⟨_, hI.failAll bs, rfl⟩) fun _ k' hk' => ?_
      subst hk'
      have hmiss : missing cfg r' b = 0 := by rw [missing, if_pos hstates]
      have hall : Carries (k.failAll bs).own (fun _ => none) (tag (Freed cfg True) (b :: bs) ++ X) := by
        rw [Hand.failAll_own]
        have hrest : Carries k.own (fun _ => none)
            (tag (Out (Leaving .transIl)) bs ++ ((b, Out (Leaving r')) :: X)) :=
          hcarries.perm List.perm_middle
        have hrest' := (hrest.weaken (Q := Freed cfg True) fun o ho =>
          freed_failed (Or.inl rfl) ho.2 o.placed).perm List.perm_middle.symm
        have hfirst : Carries k.own (fun _ => none) (tag (Out (Leaving r')) [b] ++
            (tag (Freed cfg True) bs ++ X)) := hrest'
        exact hfirst.weaken fun o ho => freed_failed (by tauto) ho.2 o.placed
      refine Safe.bind (Q := fun _ k => Holds X d k) ?_ fun _ k hk => safe_ret hk
      refine (safe_unlock True hall (fun _ x hx => ?_) fun x hx => ?_).mono fun _ k' hk' =>
        ⟨hk'.1, hk'.2.1, ?_⟩
      · rw [Hand.failAll_failed, hfailed]
        rcases List.mem_cons.mp hx with rfl | hx
        · simp
        · exact Or.inl hx
      · rw [Hand.failAll_failed, hfailed] at hx
        by_cases hxb : x = b
        · exact hxb ▸ List.mem_cons_self
        · rw [Function.update_of_ne hxb] at hx
          exact List.mem_cons_of_mem b (hx.resolve_right (by simp))
      · rw [hk'.2.2, Hand.failAll_debt, hdebt, hmiss, sub_zero]

/-- `update_inactive_list`. -/
theorem safe_updateInactiveList (cpu : ℤ) (cpus : List ℤ) (hard soft : ℤ) (hk : Holds X d h) :
    Safe (Inv cfg) a (fun _ k => Holds X d k) (updateInactiveList a cpu cpus hard soft) h := by
  refine (safe_inactiveLoop cpus [] hard soft hk).bind fun vs k hk => ?_
  refine (safe_pages vs).bind fun pages k' hk' => ?_
  obtain ⟨rfl, rfl⟩ := hk'
  exact (safe_evictLoop cpu vs hk).bind fun ok k hk => safe_ret hk

/-! ### All lists -/

/-- `_update_lru_lists`. -/
theorem safe_updateLruListsCore (hpos : ∀ b, 0 < cfg.blockSize b) (cpu : ℤ) (cpus : List ℤ)
    (pressure : ℤ) (hk : Holds X d h) :
    Safe (Inv cfg) a (fun _ k => Holds X d k) (updateLruListsCore a cpu cpus pressure) h := by
  refine Safe.bind (Q := fun _ k => Holds X d k) (safe_section fun _ s hs hI => ⟨h, ?_, hk⟩)
    fun full k hk => ?_
  · dsimp only
    split_ifs
    · exact hI.same rfl rfl rfl rfl rfl rfl rfl
    · exact hI
  refine Safe.bind (Q := fun _ k => Holds X d k) (safe_whenever (fun _ => ?_) fun _ => hk)
    fun _ k hk => ?_
  · refine (safe_updateProactiveList cpus hk).bind fun vs k hk => ?_
    refine safe_whenever (fun _ => ?_) fun hno => ?_
    · refine (safe_addGpasToActiveList hpos (w := 0) (fun g hg hf => ?_) (fun g hg b c => ?_) vs
        hk).bind fun _ k hk => ?_
      · exact absurd (hg.flag.symm.trans hf) (by simp)
      · rw [hg.weight]
        simp
      · refine safe_unlockBlocks _ ((hk.owes ?_).weaken fun o ho => ho.freed)
        funext c
        simp [bill_apply]
    · rw [not_not.mp hno] at hk
      simpa using hk
  refine Safe.bind (Q := fun _ k' => k' = k) (safe_look fun _ _ _ => rfl) fun full k' hk' => ?_
  subst hk'
  refine Safe.bind (Q := fun _ k => Holds X d k) ?_ fun ok k hk => ?_
  · split_ifs
    · refine (safe_updateActiveList cpus hk).bind fun vs k hk => ?_
      by_cases hvs : vs = []
      · rw [if_neg (not_not.mpr hvs)]
        rw [hvs] at hk
        exact safe_ret (by simpa using hk)
      · rw [if_pos hvs]
        refine (safe_addGpasToInactive cpu vs hk).bind fun ret k hk => ?_
        exact (safe_unlockBlocks _ hk).bind fun _ k hk => safe_ret hk
    · exact safe_ret hk
  · by_cases hok : ok = true
    · rw [if_pos hok]
      refine Safe.bind (Q := fun _ k' => k' = k) (safe_look fun _ _ _ => rfl) fun p k' hk' => ?_
      subst hk'
      split_ifs
      · exact safe_updateInactiveList cpu cpus _ _ hk
      · exact safe_ret hk
    · rw [if_neg hok]
      exact safe_ret hk

/-- Blocks that may join either chain, with what they add to the counters before. -/
structure Joining (cfg : SlruConfig) (w : SlruCount → ℤ) (g : SlruGpa) : Prop where
  flag : g.flags .proactive = false
  weight : ∀ b c, Owned.weight cfg ⟨false, g⟩ b c = cfg.blockSize b * w c

/-- `update_lru_lists`. -/
theorem safe_updateLruLists (hpos : ∀ b, 0 < cfg.blockSize b) {w : SlruCount → ℤ} (cpu : ℤ)
    (cpus : List ℤ) (newGs : List ℕ) (pressure : ℤ)
    (hk : Holds (tag (Out (Joining cfg w)) newGs ++ X) d h) :
    Safe (Inv cfg) a (fun _ k => Holds (tag (InChain cfg) newGs ++ X) (d - bill cfg newGs w) k)
      (updateLruLists a cpu cpus newGs pressure) h := by
  refine Safe.bind (Q := fun _ k => Holds (tag (InChain cfg) newGs ++ X) (d - bill cfg newGs w) k)
    (safe_whenever (fun _ => ?_) fun hno => ?_) fun _ k hk =>
      safe_updateLruListsCore hpos cpu cpus 0 hk
  · refine Safe.bind (Q := fun _ k => Holds (tag (Out (Joining cfg w)) newGs ++ X) d k) ?_
      fun proactive k hk => ?_
    · split_ifs
      · exact safe_section fun _ s hs hI => ⟨h, hI.same rfl rfl rfl rfl rfl rfl rfl, hk⟩
      · exact safe_ret hk
    · exact (safe_addGpasToActiveList hpos (fun g hg hf => absurd (hg.flag.symm.trans hf) (by simp))
        (fun g hg => hg.weight) newGs hk).bind fun _ k hk => safe_ret hk
  · rw [not_not.mp hno] at hk ⊢
    exact hk.owes (by simp)

/-- `update_lru_lists_reref`. -/
theorem safe_updateLruListsReref (hpos : ∀ b, 0 < cfg.blockSize b) {w : SlruCount → ℤ} (cpu : ℤ)
    (cpus : List ℤ) (newGs : List ℕ) (hk : Holds (tag (Out (Joining cfg w)) newGs ++ X) d h) :
    Safe (Inv cfg) a (fun _ k => Holds (tag (InChain cfg) newGs ++ X) (d - bill cfg newGs w) k)
      (updateLruListsReref a cpu cpus newGs) h := by
  refine Safe.bind (Q := fun _ k => Holds (tag (InChain cfg) newGs ++ X) (d - bill cfg newGs w) k)
    (safe_whenever (fun _ => ?_) fun hno => ?_) fun _ k hk =>
      safe_updateLruListsCore hpos cpu cpus 0 hk
  · exact (safe_addGpasToActiveList hpos (fun g hg hf => absurd (hg.flag.symm.trans hf) (by simp))
      (fun g hg => hg.weight) newGs hk).bind fun _ k hk => safe_ret hk
  · rw [not_not.mp hno] at hk ⊢
    exact hk.owes (by simp)

/-! ### The writeback lists -/

/-- The second loop of `__wait_writeback_async`. -/
theorem safe_clearLoop (bs : List ℕ) (hk : Holds (tag (Out (Leaving .wb)) bs ++ X) d h) :
    Safe (Inv (A := A) cfg) a (fun _ k => Holds X d k) (clearLoop bs) h := by
  induction bs generalizing h with
  | nil => exact safe_ret (by simpa using hk)
  | cons b bs ih =>
    refine Safe.bind (Q := fun _ k => Holds ((b, Freed cfg False) ::
      (tag (Out (Leaving .wb)) bs ++ X)) (d - Pi.single SlruCount.inactive (cfg.blockSize b : ℤ)) k)
      ?_ fun _ k hk => ?_
    · refine (safe_modify_block (e := -Pi.single SlruCount.inactive (cfg.blockSize b : ℤ)) hk
        fun s hs o hI hown ho => ?_).mono fun _ k hk => hk.owes (sub_eq_add_neg d _).symm
      obtain ⟨_, g⟩ := o
      obtain ⟨rfl, hg⟩ := ho
      have hg : Leaving .wb g := hg
      have hinit := leaving_setGpaRemote hg.on
      have hgpa : s.gpa b = g := hI.own_gpa hown
      rw [hgpa]
      refine ⟨⟨false, setGpaRemote g⟩, hI.turn hown _,
        freed_out hinit.on (leaving_init hinit) false, fun c => ?_⟩
      rw [hg.weight, hinit.weight]
      cases c <;> simp
    · refine (safe_payBack (n := cfg.blockSize b) .inactive hk fun s hs hI => by
        rw [hI.config]).bind fun _ k hk => ?_
      have hk' : Holds (tag (Freed cfg False) [b] ++ (tag (Out (Leaving .wb)) bs ++ X)) d k :=
        hk.owes (by simp)
      refine Safe.bind (Q := fun _ k => Holds (tag (Out (Leaving .wb)) bs ++ X) d k) ?_
        fun _ k hk => ih hk
      exact safe_unlockBlocks [b] hk'

/-- `__wait_writeback_async`. -/
theorem safe_waitWritebackAsync (cpu pressure : ℤ) (hk : Holds X d h) :
    Safe (Inv cfg) a (fun _ k => Holds X d k) (waitWritebackAsync a cpu pressure) h := by
  refine Safe.bind (Q := fun o k => Holds (tag (Out (Leaving .wb)) o.1 ++ X) d k)
    (safe_section fun _ s hs hI => ?_) fun o k hk => ?_
  · refine hI.scanList (l := .writeback cpu)
      (R := fun (o : List ℕ × ℤ) k => Holds (tag (Out (Leaving .wb)) o.1 ++ X) d k)
      (fun _ _ hk => hk) (fun b o s k hI hb hl hg hk => ?_) _ ([], 0) (hI.nodup _) (fun _ hx => hx) hk
    have hvisit : (visitWriteback cpu pressure b o s).2.1 = s.delist b (.writeback cpu) ∧
        (visitWriteback cpu pressure b o s).1.1 = o.1 ++ [b] := by
      simp only [visitWriteback]
      split_ifs
      · exact ⟨rfl, rfl⟩
      · exact ⟨rfl, rfl⟩
    rw [hvisit.1, hvisit.2]
    obtain ⟨hstate, hflag⟩ := hg.onWriteback hl
    have hleaving : Leaving .wb { s.gpa b with on := none } := ⟨rfl, hflag, hstate⟩
    refine ⟨_, hI.grab hl, ?_, fun x hx hmem => mem_delist hx hmem⟩
    refine ((hk.grab (e := 0) hb (Q := Out (Leaving .wb)) ⟨rfl, hleaving⟩ fun c => ?_).perm
      (perm_snoc _)).owes (add_zero d)
    rw [hleaving.weight]
    simp only [Owned.weight, Owned.counted, Owned.home, if_true, hl]
    cases c <;> simp [hstate, LocalList.countedBy]
  · refine (safe_pages o.1).bind fun pages k' hk' => ?_
    obtain ⟨rfl, rfl⟩ := hk'
    exact (safe_clearLoop o.1 hk).bind fun _ k hk => safe_ret hk

theorem safe_waitLoop (pressure : ℤ) (cpus : List ℤ) (reclaimed : ℤ) (hk : Holds X d h) :
    Safe (Inv cfg) a (fun _ k => Holds X d k) (waitLoop a pressure cpus reclaimed) h := by
  induction cpus generalizing reclaimed h with
  | nil => exact safe_ret hk
  | cons cpu cpus ih =>
    rw [waitLoop]
    split_ifs
    · exact safe_ret hk
    · exact (safe_waitWritebackAsync cpu _ hk).bind fun more k hk => ih _ hk

/-- `emp_wait_for_writeback`. -/
theorem safe_empWaitForWriteback (cpus : List ℤ) (pressure : ℤ) (hk : Holds X d h) :
    Safe (Inv cfg) a (fun _ k => Holds X d k) (empWaitForWriteback a cpus pressure) h := by
  refine Safe.bind (Q := fun _ k' => k' = h) (safe_ask fun _ => rfl) fun free k' hk' => ?_
  subst hk'
  exact safe_waitLoop pressure cpus free hk

/-- `reclaim_emp_pages`. -/
theorem safe_reclaimEmpPages (hpos : ∀ b, 0 < cfg.blockSize b) (cpu : ℤ) (cpus : List ℤ)
    (pressure : ℤ) (hk : Holds X d h) :
    Safe (Inv cfg) a (fun _ k => Holds X d k) (reclaimEmpPages a cpu cpus pressure) h := by
  refine (safe_empWaitForWriteback cpus pressure hk).bind fun reclaimed k hk => ?_
  by_cases hdone : pressure ≤ reclaimed
  · rw [if_pos hdone]
    exact safe_ret hk
  rw [if_neg hdone]
  refine (safe_updateInactiveList cpu cpus _ _ hk).bind fun released k hk => ?_
  cases released with
  | none => exact safe_ret hk
  | some released =>
    refine Safe.bind (Q := fun _ k => Holds X d k) ?_ fun more k hk => ?_
    · split_ifs
      · exact safe_updateLruListsCore hpos cpu cpus _ hk
      · exact safe_ret hk
    · cases more with
      | none => exact safe_ret hk
      | some more =>
        exact (safe_empWaitForWriteback cpus _ hk).bind fun rest k hk => safe_ret hk

end Slru

end Emp
