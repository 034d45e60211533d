import Emp.Slru.Chains

/-!
# The selection of victims keeps the account

A scan takes blocks off a list into three temporary ones: the victims, the blocks to pin and those
to promote.  Whatever happens between the sections, a thread that selects victims ends with the
victims in its hand, and with the debt that it had.

## Main definitions

* `Leaving` — a victim.
* `Picks` — the hand after a scan.
* `safe_selectVictimsProactiveList`, `safe_selectVictimsActiveList`,
  `safe_selectVictimsInactiveList`, `safe_updateProactiveList`, `safe_updateActiveList`.
-/

namespace Emp

namespace Slru

open Program SlruSys

variable {A : Type} [DecidableEq A] [Fintype A] {cfg : SlruConfig} {s t : SlruSys A}
  {hs : A → Hand} {a : A} {h h' k : Hand} {b : ℕ} {g g' : SlruGpa} {l : LocalList} {o o' : Owned}
  {bs cs : List ℕ} {α : Type} {P Q : Owned → Prop} {B C X : Batch} {d e u v : SlruCount → ℤ}

/-! ### Blocks on the lists -/

/-- A block that is off its list, on its way from one state to the next. -/
structure Leaving (rState : BlockState) (g : SlruGpa) : Prop where
  on : g.on = none
  flag : g.flags .proactive = false
  state : g.rState = rState

/-- What is known of an unlocked block on an inactive list. -/
theorem Settled.onInactive {p : Prop} {cpu : ℤ} (hg : Settled cfg p g)
    (hl : g.list cfg.possibleCpus = some (.inactive cpu)) :
    g.rState = .inactive ∧ g.flags .proactive = false := by
  have hstate : g.rState = .inactive := by
    by_contra hne
    cases hon : g.on with
    | none => simp [SlruGpa.list, hon] at hl
    | some on =>
      cases on
      · simp [SlruGpa.list, hon, hne] at hl
      · by_cases hwb : g.rState = .wb
        · simp [SlruGpa.list, hon, hwb] at hl
        · simp [SlruGpa.list, hon, hwb] at hl
      · simp [SlruGpa.list, hon] at hl
      · simp [SlruGpa.list, hon] at hl
  refine ⟨hstate, Bool.eq_false_iff.mpr fun hflag => ?_⟩
  obtain ⟨l, hl', -⟩ := hg.flagged.mp hflag
  rw [hl] at hl'
  exact absurd hl' (by simp)

/-- What is known of an unlocked block on a writeback list. -/
theorem Settled.onWriteback {p : Prop} {cpu : ℤ} (hg : Settled cfg p g)
    (hl : g.list cfg.possibleCpus = some (.writeback cpu)) :
    g.rState = .wb ∧ g.flags .proactive = false := by
  have hstate : g.rState = .wb := by
    by_contra hne
    cases hon : g.on with
    | none => simp [SlruGpa.list, hon] at hl
    | some on =>
      cases on
      · by_cases hin : g.rState = .inactive
        · simp [SlruGpa.list, hon, hin] at hl
        · simp [SlruGpa.list, hon, hin] at hl
      · simp [SlruGpa.list, hon, hne] at hl
      · simp [SlruGpa.list, hon] at hl
      · simp [SlruGpa.list, hon] at hl
  refine ⟨hstate, Bool.eq_false_iff.mpr fun hflag => ?_⟩
  obtain ⟨l, hl', -⟩ := hg.flagged.mp hflag
  rw [hl] at hl'
  exact absurd hl' (by simp)

/-- An unlocked block on a list has not failed, as far as its list is concerned. -/
theorem Settled.sound {p : Prop} (hg : Settled cfg p g) (hl : g.list cfg.possibleCpus = some l) :
    Settled cfg False g := by
  have hon : g.on ≠ none := fun hon => by simp [SlruGpa.list, hon] at hl
  refine ⟨hg.flagged, ?_⟩
  have hplaced := hg.placed
  simp only [Placed] at hplaced ⊢
  split
  all_goals simp_all

/-! ### Scans -/

omit [DecidableEq A] [Fintype A] in
theorem delist_setGpa_self : (s.delist b l).setGpa b { s.gpa b with on := none } = s.delist b l := by
  simp [SlruSys.delist, SlruSys.setGpa]

omit [DecidableEq A] [Fintype A] in
theorem setGpa_delist (g : SlruGpa) :
    (s.setGpa b g).delist b l = (s.delist b l).setGpa b { g with on := none } := by
  simp [SlruSys.delist, SlruSys.setGpa]

/-- A block of a list is locked and taken off it. -/
theorem Holds.grab (hk : Holds X d h) (hb : h.own b = none) (hQ : Q ⟨false, g'⟩)
    (he : ∀ c, Owned.weight cfg ⟨false, g'⟩ b c - Owned.weight cfg ⟨true, g⟩ b c = e c) :
    Holds ((b, Q) :: X) (d + e) (h.grab cfg b g g') := by
  refine ⟨?_, hk.failed, ?_⟩
  · rw [Hand.grab_own]
    exact hk.carries.push hb hQ
  · funext c
    simp only [Hand.grab, Hand.swap, Hand.take_debt, Pi.add_apply, ← he c, ← hk.debt]

/-- What the three temporary lists may hold, and what a block of them adds to the counters
compared with one on the list. -/
structure Picks where
  vs : SlruGpa → Prop
  toPin : SlruGpa → Prop
  toPromote : SlruGpa → Prop
  victim : SlruCount → ℤ
  other : SlruCount → ℤ

/-- The hand after a scan. -/
def Picks.Holds (cfg : SlruConfig) (K : Picks) (X : Batch) (d : SlruCount → ℤ) (o : Picked)
    (h : Hand) : Prop :=
  Slru.Holds (tag (Out K.vs) o.vs ++ (tag (Out K.toPin) o.toPin ++
    (tag (Out K.toPromote) o.toPromote ++ X)))
    (d + bill cfg o.vs K.victim + bill cfg (o.toPin ++ o.toPromote) K.other) h

/-- What a visit does with a block of the list `l`: it takes it off, or lets it be. -/
def Picks.Visit (cfg : SlruConfig) (K : Picks) (l : LocalList)
    (visit : ℕ → Picked → SlruSys A → Picked × SlruSys A × Bool) : Prop :=
  ∀ b o s, s.config = cfg → (s.gpa b).list cfg.possibleCpus = some l →
    Settled cfg False (s.gpa b) →
    (visit b o s).1 = o ∧ (visit b o s).2.1 = s.release b ∨
    ∃ g', (visit b o s).2.1 = (s.delist b l).setGpa b g' ∧
      ((visit b o s).1 = { o with vs := o.vs ++ [b] } ∧ K.vs g' ∧
        (∀ c, Owned.weight cfg ⟨false, g'⟩ b c - Owned.weight cfg ⟨true, s.gpa b⟩ b c =
          cfg.blockSize b * K.victim c) ∨
      (visit b o s).1 = { o with toPin := o.toPin ++ [b] } ∧ K.toPin g' ∧
        (∀ c, Owned.weight cfg ⟨false, g'⟩ b c - Owned.weight cfg ⟨true, s.gpa b⟩ b c =
          cfg.blockSize b * K.other c) ∨
      (visit b o s).1 = { o with toPromote := o.toPromote ++ [b] } ∧ K.toPromote g' ∧
        ∀ c, Owned.weight cfg ⟨false, g'⟩ b c - Owned.weight cfg ⟨true, s.gpa b⟩ b c =
          cfg.blockSize b * K.other c)

/-- A scan keeps the account. -/
theorem Inv.scanFree {K : Picks} {visit : ℕ → Picked → SlruSys A → Picked × SlruSys A × Bool}
    (hvisit : K.Visit cfg l visit) {o : Picked} (hI : Inv cfg s (Function.update hs a h))
    (hk : K.Holds cfg X d o h) :
    ∃ h', Inv cfg (scanFree a visit l o s).2 (Function.update hs a h') ∧
      K.Holds cfg X d (scanFree a visit l o s).1 h' := by
  refine hI.scanList (R := fun o k => K.Holds cfg X d o k) (fun _ _ hk => hk)
    (fun b o s k hI hb hl hg hk => ?_) (s.lists l) o (hI.nodup l) (fun _ hx => hx) hk
  have hsound := hg.sound hl
  obtain ⟨ho, hrel⟩ | ⟨g', hdel, htake⟩ := hvisit b o s hI.config hl hsound
  · -- the block is let be
    rw [ho, hrel]
    refine ⟨(k.take b (s.gpa b)).drop b, hI.release (Function.update_self ..) (by
      simp [Owned.home]) (hsound.mono fun hf => hf.elim), ?_, fun x _ hx => hx⟩
    have heq : (k.take b (s.gpa b)).drop b = k := by
      refine Hand.ext_iff' ?_ ?_ fun _ => rfl
      · funext x
        by_cases hx : x = b
        · simp [hx, hb]
        · simp [hx]
      · funext x
        by_cases hx : x = b
        · simp [hx, hk.failed]
        · simp [hx]
    rw [heq]
    exact hk
  · rw [hdel]
    refine ⟨_, hI.grab_set hl g', ?_, fun x hx hmem => mem_delist hx hmem⟩
    obtain ⟨ho, hK, hw⟩ | ⟨ho, hK, hw⟩ | ⟨ho, hK, hw⟩ := htake
    · rw [ho]
      refine ((Slru.Holds.grab hk hb (Q := Out K.vs) ⟨rfl, hK⟩ hw).perm (perm_snoc _)).owes ?_
      funext c
      simp [bill_apply]
      ring
    · rw [ho]
      refine ((Slru.Holds.grab hk hb (Q := Out K.toPin) ⟨rfl, hK⟩ hw).perm ?_).owes ?_
      · exact ((perm_snoc _).append_left _).trans List.perm_middle
      · funext c
        simp [bill_apply]
        ring
    · rw [ho]
      refine ((Slru.Holds.grab hk hb (Q := Out K.toPromote) ⟨rfl, hK⟩ hw).perm ?_).owes ?_
      · exact ((((perm_snoc _).append_left _).trans List.perm_middle).append_left _).trans
          List.perm_middle
      · funext c
        simp [bill_apply]
        ring

/-- Nothing is known of a block that cannot be. -/
theorem Holds.no_false (hk : Holds B d h) : (b, Out fun _ => False) ∉ B := by
  intro hmem
  obtain ⟨o, -, ho⟩ := hk.carries.mine _ hmem
  exact ho.2

theorem Picks.Holds.toPin_nil {K : Picks} {o : Picked} (hk : K.Holds cfg X d o h)
    (hK : K.toPin = fun _ => False) : o.toPin = [] := by
  refine List.eq_nil_iff_forall_not_mem.mpr fun b hb => Slru.Holds.no_false hk (b := b) ?_
  rw [hK]
  simp [tag, hb]

theorem Picks.Holds.toPromote_nil {K : Picks} {o : Picked} (hk : K.Holds cfg X d o h)
    (hK : K.toPromote = fun _ => False) : o.toPromote = [] := by
  refine List.eq_nil_iff_forall_not_mem.mpr fun b hb => Slru.Holds.no_false hk (b := b) ?_
  rw [hK]
  simp [tag, hb]

/-- What a block on a list of a chain adds to the counters. -/
theorem Settled.weight_slru {p : Prop} {l : SlruList} (hg : Settled cfg p g)
    (hl : g.list cfg.possibleCpus = some (.slru l)) (c : SlruCount) :
    Owned.weight cfg ⟨true, g⟩ b c = cfg.blockSize b * unit (.slru l) c :=
  weight_placed (quiet_of_state (hg.slru hl).2) hl c

omit [DecidableEq A] [Fintype A] in
theorem delist_gpa : (s.delist b l).gpa b = { s.gpa b with on := none } := by
  simp [SlruSys.delist, SlruSys.setGpa]

omit [DecidableEq A] [Fintype A] in
theorem unit_lru (proactive : Bool) (cpu : ℤ) (c : SlruCount) :
    unit (getListPtrLru proactive cpu) c = chain proactive c := by
  cases proactive <;> cases c <;> rfl

/-! ### The proactive list -/

/-- What a scan of the proactive list takes. -/
def proactivePicks : Picks :=
  ⟨Leaving .transPl, Loose true, fun _ => False, fun c => -chain true c, fun c => -chain true c⟩

omit [DecidableEq A] [Fintype A] in
theorem visitProactive_visit (cpu : ℤ) (vsLen : ℕ) :
    proactivePicks.Visit (A := A) cfg (getListPtrLru true cpu) (visitProactive cpu vsLen) := by
  intro b o s _ hl hg
  have hloose : Loose true { s.gpa b with on := none } := hg.loose hl
  have hw : ∀ g', Quiet g' → ∀ c, Owned.weight cfg ⟨false, g'⟩ b c -
      Owned.weight cfg ⟨true, s.gpa b⟩ b c = cfg.blockSize b * -chain true c := by
    intro g' hg' c
    rw [weight_out hg', hg.weight_slru hl]
    have hunit := unit_lru true cpu c
    rw [getListPtrLru] at hunit
    rw [hunit]
    ring
  refine Or.inr ?_
  simp only [visitProactive, delist_gpa]
  split_ifs
  · exact ⟨_, delist_setGpa_self.symm, Or.inr (Or.inl ⟨rfl, hloose, hw _ hloose.quiet⟩)⟩
  · refine ⟨_, rfl, Or.inl ⟨rfl, ⟨rfl, ?_, rfl⟩, hw _ ?_⟩⟩
    · simp [SlruGpa.setFlag]
    · simp [Quiet]

/-- A round of the selection, with the blocks to pin of the rounds before. -/
theorem safe_proactiveRound {cpu : ℤ} {vsLen : ℕ} {toPin : List ℕ}
    {again : List ℕ → SlruProg A Picked}
    (hagain : ∀ toPin h, proactivePicks.Holds cfg X d ⟨[], toPin, []⟩ h →
      Safe (Inv cfg) a (fun o k => Holds (tag (Out (Leaving .transPl)) o.vs ++
        (tag (Out (Loose true)) o.toPin ++ X)) (d - bill cfg o.toPin (chain true)) k)
        (again toPin) h)
    (hk : proactivePicks.Holds cfg X d ⟨[], toPin, []⟩ h) :
    Safe (Inv cfg) a (fun o k => Holds (tag (Out (Leaving .transPl)) o.vs ++
        (tag (Out (Loose true)) o.toPin ++ X)) (d - bill cfg o.toPin (chain true)) k)
      (proactiveRound a cpu vsLen toPin again) h := by
  refine Safe.bind (Q := fun o k => proactivePicks.Holds cfg X d o k)
    (safe_section fun _ s hs hI => hI.scanFree (visitProactive_visit cpu vsLen) hk)
    fun o k hk => ?_
  have hnone : o.toPromote = [] := hk.toPromote_nil rfl
  have hk' : Holds (tag (Out (Leaving .transPl)) o.vs ++ (tag (Out (Loose true)) o.toPin ++ X))
      (d - bill cfg o.toPin (chain true) - bill cfg o.vs (chain true)) k := by
    rw [Picks.Holds, hnone] at hk
    refine hk.owes ?_
    funext c
    simp [bill_apply, proactivePicks]
    ring
  by_cases hvs : o.vs = []
  · rw [if_neg (not_not.mpr hvs)]
    have hk₀ : proactivePicks.Holds cfg X d ⟨[], o.toPin, []⟩ k := by
      obtain ⟨vs, toPin, toPromote⟩ := o
      rwa [show vs = [] from hvs, show toPromote = [] from hnone] at hk
    have hdone : Holds (tag (Out (Leaving .transPl)) o.vs ++ (tag (Out (Loose true)) o.toPin ++ X))
        (d - bill cfg o.toPin (chain true)) k := hk'.owes (by simp [hvs])
    refine Safe.bind (Q := fun _ k' => k' = k) (safe_look fun _ _ _ => rfl) fun len k' hk' => ?_
    subst hk'
    by_cases hlen : len < slruQueueDepth
    · rw [if_pos hlen]
      refine (safe_refillLruBuf true cpu _ hk₀.failed).bind fun refill k'' hk'' => ?_
      subst hk''
      by_cases hrefill : refill = 0
      · rw [if_neg (not_not.mpr hrefill)]
        exact safe_ret hdone
      · rw [if_pos hrefill]
        exact hagain o.toPin k'' hk₀
    · rw [if_neg hlen]
      exact safe_ret hdone
  · rw [if_pos hvs]
    refine (safe_payPages .proactive o.vs hk').bind fun _ k hk => safe_ret (hk.owes ?_)
    funext c
    simp [bill_chain, SlruCount.ofChain]
/-- `select_victims_proactive_list`. -/
theorem safe_selectVictimsProactiveList {cpu : ℤ} {vsLen : ℕ} (hk : Holds X d h) :
    Safe (Inv cfg) a (fun vs k => Holds (tag (Out (Leaving .transPl)) vs ++ X) d k)
      (selectVictimsProactiveList a cpu vsLen) h := by
  have hnil : ∀ h, Holds X d h → proactivePicks.Holds cfg X d ⟨[], [], []⟩ h := by
    intro h hk
    refine hk.owes ?_
    simp
  refine (safe_proactiveRound (X := X) (d := d) (fun toPin h hk => ?_) (hnil h hk)).bind
    fun o k hk => ?_
  · refine safe_proactiveRound (fun toPin h hk => safe_ret (hk.owes ?_)) hk
    funext c
    simp [bill_apply, proactivePicks]
    ring
  · refine Safe.bind (Q := fun _ k => Holds (tag (Out (Leaving .transPl)) o.vs ++ X) d k)
      (safe_whenever (fun _ => ?_) fun hno => ?_) fun _ k hk => safe_ret hk
    · refine (safe_moveToPinList true true o.toPin (R := Loose true)
        (fun g hg => ⟨hg.quiet, fun _ => hg.flag, fun _ => hg.state⟩)
        (hk.perm (List.perm_append_comm_assoc ..))).mono fun _ k hk => hk.owes ?_
      simp
    · rw [not_not.mp hno] at hk
      simpa using hk

/-! ### The pin lists -/

/-- What a scan of a pin list takes. -/
def pinPicks : Picks :=
  ⟨Loose true, fun _ => False, fun _ => False,
    fun c => -(chain true c + if c = .pin then 1 else 0), fun _ => 0⟩

omit [DecidableEq A] [Fintype A] in
theorem visitPin_visit (cpu : ℤ) (vsLen : ℕ) :
    pinPicks.Visit (A := A) cfg (.slru (.pin (cfg.possibleCpus + cpu))) (visitPin cpu vsLen) := by
  intro b o s hconfig hl hg
  have hloose : Loose true { s.gpa b with on := none } := hg.loose hl
  refine Or.inr ?_
  have hpin : s.getListPtrPin cpu = .slru (.pin (cfg.possibleCpus + cpu)) := by
    rw [SlruSys.getListPtrPin, hconfig]
  simp only [visitPin, hpin, delist_gpa]
  refine ⟨_, rfl, Or.inl ⟨trivial, ⟨rfl, ?_, hloose.state⟩, fun c => ?_⟩⟩
  · have hflag := hloose.flag
    simpa [SlruGpa.setFlag] using hflag
  · have hquiet : Quiet ({ s.gpa b with on := none }.setFlag .pinned false) :=
      quiet_of_state hloose.state
    rw [weight_out hquiet, hg.weight_slru hl, unit_pin]
    simp only [pinPicks]
    ring

/-- `select_victims_pin_list`. -/
theorem safe_selectVictimsPinList {cpu : ℤ} {vsLen : ℕ} (hk : Holds X d h) :
    Safe (Inv cfg) a (fun _ k => Holds X d k) (selectVictimsPinList a cpu vsLen) h := by
  refine Safe.bind (Q := fun _ k => k = h) (safe_look fun _ _ _ => rfl) fun len k' hk' => ?_
  subst hk'
  by_cases hlen : len = 0
  · rw [if_pos hlen]
    exact safe_ret hk
  rw [if_neg hlen]
  refine Safe.bind (Q := fun o k => pinPicks.Holds cfg X d o k)
    (safe_section fun _ s hs hI => ?_) fun o k hk => ?_
  · have hnil : pinPicks.Holds cfg X d ⟨[], [], []⟩ k' := hk.owes (by simp)
    rw [SlruSys.getListPtrPin, hI.config]
    exact hI.scanFree (visitPin_visit cpu vsLen) hnil
  have hk₁ : Holds (tag (Out (Loose true)) o.vs ++ X) (d + bill cfg o.vs pinPicks.victim) k := by
    have htoPin := hk.toPin_nil rfl
    have htoPromote := hk.toPromote_nil rfl
    rw [Picks.Holds, htoPin, htoPromote] at hk
    simpa [pinPicks] using hk
  by_cases hvs : o.vs = []
  · rw [if_pos hvs]
    rw [hvs] at hk₁
    exact safe_ret (by simpa using hk₁)
  rw [if_neg hvs]
  refine (safe_payPages .pin o.vs hk₁).bind fun _ k hk => ?_
  refine Safe.bind (Q := fun _ k => Holds X d k) ?_ fun _ k hk => safe_ret hk
  refine (safe_putBack (u := chain true) hk fun b s k g hs hI hown hg =>
    hI.enlist hown hg cpu .mru (by decide)).mono fun _ k hk => hk.owes ?_
  funext c
  simp only [Pi.add_apply, bill_apply, pinPicks, Pi.single_apply]
  split_ifs <;> ring

/-- A loop of `update_proactive_list`. -/
theorem safe_proactiveLoop {vsLen : ℕ} (unpin : Bool) (cpus : List ℤ) (vs : List ℕ)
    (hk : Holds (tag (Out (Leaving .transPl)) vs ++ X) d h) :
    Safe (Inv cfg) a (fun vs k => Holds (tag (Out (Leaving .transPl)) vs ++ X) d k)
      (proactiveLoop a vsLen unpin cpus vs) h := by
  induction cpus generalizing vs h with
  | nil => exact safe_ret hk
  | cons cpu cpus ih =>
    refine Safe.bind (Q := fun _ k => Holds (tag (Out (Leaving .transPl)) vs ++ X) d k) ?_
      fun n k hk => ?_
    · cases unpin
      · exact safe_ret hk
      · exact safe_selectVictimsPinList hk
    by_cases hn : n = 0
    · rw [if_pos hn]
      exact ih vs hk
    rw [if_neg hn]
    refine (safe_selectVictimsProactiveList hk).bind fun more k hk => ?_
    have hk' : Holds (tag (Out (Leaving .transPl)) (vs ++ more) ++ X) d k := by
      refine hk.perm ?_
      rw [tag_append, List.append_assoc]
      exact List.perm_append_comm_assoc ..
    split_ifs
    · exact safe_ret hk'
    · exact ih _ hk'

/-- `update_proactive_list`. -/
theorem safe_updateProactiveList {vsLen : ℕ} (cpus : List ℤ) (hk : Holds X d h) :
    Safe (Inv cfg) a (fun vs k => Holds (tag (Out (Leaving .transPl)) vs ++ X) d k)
      (updateProactiveList a vsLen cpus) h := by
  refine (safe_proactiveLoop false cpus [] hk).bind fun vs k hk => ?_
  refine Safe.bind (Q := fun _ k' => k' = k) (safe_look fun _ _ _ => rfl) fun pinned k' hk' => ?_
  subst hk'
  split_ifs
  · exact safe_ret hk
  · exact safe_ret hk
  · exact safe_proactiveLoop true cpus vs hk

/-! ### The active list -/

/-- What a scan of the active list takes. -/
def activePicks : Picks :=
  ⟨Leaving .transAl, Loose false, Loose false, fun c => -chain false c, fun c => -chain false c⟩

omit [DecidableEq A] [Fintype A] in
theorem visitActive_visit (cpu : ℤ) (vsLen : ℕ) (luck : SlruLuck) :
    activePicks.Visit (A := A) cfg (getListPtrLru false cpu) (visitActive cpu vsLen luck) := by
  intro b o s _ hl hg
  have hloose : Loose false { s.gpa b with on := none } := hg.loose hl
  have hw : ∀ g', Quiet g' → ∀ c, Owned.weight cfg ⟨false, g'⟩ b c -
      Owned.weight cfg ⟨true, s.gpa b⟩ b c = cfg.blockSize b * -chain false c := by
    intro g' hg' c
    rw [weight_out hg', hg.weight_slru hl]
    have hunit := unit_lru false cpu c
    rw [getListPtrLru] at hunit
    rw [hunit]
    ring
  simp only [visitActive, setGpa_delist, delist_gpa]
  split_ifs with hpinned hpromote htake
  · exact Or.inr ⟨_, delist_setGpa_self.symm, Or.inr (Or.inl ⟨rfl, hloose, hw _ hloose.quiet⟩)⟩
  · refine Or.inr ⟨_, rfl, Or.inr (Or.inr ⟨rfl, ⟨rfl, ?_, hloose.state⟩, hw _ ?_⟩)⟩
    · have hflag := hloose.flag
      simpa [SlruGpa.setFlag] using hflag
    · exact quiet_of_state hloose.state
  · refine Or.inr ⟨_, rfl, Or.inl ⟨rfl, ⟨rfl, hloose.flag, rfl⟩, hw _ ?_⟩⟩
    simp [Quiet]
  · exact Or.inl ⟨rfl, rfl⟩

/-- What a round of the selection ends with: the victims are paid for. -/
def ActiveRound (cfg : SlruConfig) (X : Batch) (d : SlruCount → ℤ) (o : Picked) (h : Hand) : Prop :=
  activePicks.Holds cfg X (d + bill cfg o.vs (chain false)) o h

/-- A round of the selection, with what the rounds before have found beside victims. -/
theorem safe_activeRound {cpu : ℤ} {vsLen : ℕ} {o : Picked} {again : Picked → SlruProg A Picked}
    (hagain : ∀ o h, activePicks.Holds cfg X d o h → o.vs = [] →
      Safe (Inv cfg) a (ActiveRound cfg X d) (again o) h)
    (hk : activePicks.Holds cfg X d o h) :
    Safe (Inv cfg) a (ActiveRound cfg X d) (activeRound a cpu vsLen o again) h := by
  refine Safe.bind (Q := fun o k => activePicks.Holds cfg X d o k)
    (safe_section fun luck s hs hI => hI.scanFree (visitActive_visit cpu vsLen luck) hk)
    fun o k hk => ?_
  by_cases hvs : o.vs = []
  · rw [if_neg (not_not.mpr hvs)]
    have hdone : ActiveRound cfg X d o k := by
      rw [ActiveRound, hvs, bill_nil, add_zero]
      exact hk
    refine Safe.bind (Q := fun _ k' => k' = k) (safe_look fun _ _ _ => rfl) fun len k' hk' => ?_
    subst hk'
    by_cases hlen : len < slruQueueDepth
    · rw [if_pos hlen]
      refine (safe_refillLruBuf false cpu _ hk.failed).bind fun refill k'' hk'' => ?_
      subst hk''
      by_cases hrefill : refill = 0
      · rw [if_neg (not_not.mpr hrefill)]
        exact safe_ret hdone
      · rw [if_pos hrefill]
        exact hagain o k'' hk hvs
    · rw [if_neg hlen]
      exact safe_ret hdone
  · rw [if_pos hvs]
    refine (safe_payPages .active o.vs hk).bind fun _ k hk => safe_ret (Holds.owes hk ?_)
    funext c
    simp [bill_chain, SlruCount.ofChain]
    ring

/-- `select_victims_active_list`. -/
theorem safe_selectVictimsActiveList {cpu : ℤ} {vsLen : ℕ} (hk : Holds X d h) :
    Safe (Inv cfg) a (fun vs k => Holds (tag (Out (Leaving .transAl)) vs ++ X) d k)
      (selectVictimsActiveList a cpu vsLen) h := by
  have hnil : activePicks.Holds cfg X d ⟨[], [], []⟩ h := hk.owes (by simp)
  refine (safe_activeRound (X := X) (d := d) (fun o h hk _ => ?_) hnil).bind fun o k hk => ?_
  · refine safe_activeRound (fun o h hk hvs => safe_ret ?_) hk
    rw [ActiveRound, hvs, bill_nil, add_zero]
    exact hk
  have hk₁ : Holds (tag (Out (Loose false)) o.toPin ++ (tag (Out (Leaving .transAl)) o.vs ++
      (tag (Out (Loose false)) o.toPromote ++ X)))
      (d - bill cfg o.toPin (chain false) - bill cfg o.toPromote (chain false)) k := by
    refine (Holds.perm hk (List.perm_append_comm_assoc ..)).owes ?_
    funext c
    simp [bill_apply, activePicks]
    ring
  refine Safe.bind (Q := fun _ k => Holds (tag (Out (Leaving .transAl)) o.vs ++
    (tag (Out (Loose false)) o.toPromote ++ X)) (d - bill cfg o.toPromote (chain false)) k)
    (safe_whenever (fun _ => ?_) fun hno => ?_) fun _ k hk => ?_
  · refine (safe_payPages .active o.toPin hk₁).bind fun _ k hk => ?_
    refine (safe_moveToPinList false true o.toPin (R := Loose false)
      (fun g hg => ⟨hg.quiet, fun hf => absurd hf (by simp), fun _ => hg.state⟩) hk).mono
      fun _ k hk => hk.owes ?_
    funext c
    simp [bill_chain, SlruCount.ofChain]
    ring
  · rw [not_not.mp hno] at hk₁
    simpa using hk₁
  have hk₂ := hk.perm (List.perm_append_comm_assoc ..)
  refine Safe.bind (Q := fun _ k => Holds (tag (Out (Leaving .transAl)) o.vs ++ X) d k)
    (safe_whenever (fun _ => ?_) fun hno => ?_) fun _ k hk => safe_ret hk
  · refine (safe_pages o.toPromote).bind fun pages k' hk' => ?_
    obtain ⟨rfl, rfl⟩ := hk'
    refine (safe_payBack .active hk₂ fun _ _ _ => rfl).bind fun _ k hk => ?_
    refine (safe_promoteGpas true o.toPromote (hk.weaken fun o ho => ⟨ho.1, ho.2.quiet⟩)).mono
      fun _ k hk => hk.owes ?_
    funext c
    simp [bill_chain, SlruCount.ofChain]
  · rw [not_not.mp hno] at hk₂
    simpa using hk₂

/-- The loop of `update_active_list`. -/
theorem safe_activeLoop {vsLen : ℕ} (cpus : List ℤ) (vs : List ℕ)
    (hk : Holds (tag (Out (Leaving .transAl)) vs ++ X) d h) :
    Safe (Inv cfg) a (fun vs k => Holds (tag (Out (Leaving .transAl)) vs ++ X) d k)
      (activeLoop a vsLen cpus vs) h := by
  induction cpus generalizing vs h with
  | nil => exact safe_ret hk
  | cons cpu cpus ih =>
    refine (safe_selectVictimsActiveList hk).bind fun more k hk => ?_
    have hk' : Holds (tag (Out (Leaving .transAl)) (vs ++ more) ++ X) d k := by
      refine hk.perm ?_
      rw [tag_append, List.append_assoc]
      exact List.perm_append_comm_assoc ..
    split_ifs
    · exact safe_ret hk'
    · exact ih _ hk'

/-! ### Marks -/

/-- A block changes in nothing that its list depends on. -/
structure Alike (g g' : SlruGpa) : Prop where
  on : g'.on = g.on
  cpu : g'.cpu = g.cpu
  state : g'.rState = g.rState
  flag : g'.flags .proactive = g.flags .proactive

theorem Alike.rfl : Alike g g := ⟨Eq.refl _, Eq.refl _, Eq.refl _, Eq.refl _⟩

/-- Other flags may change. -/
theorem alike_setFlag (f : GpaFlag) (x : Bool) (hf : f ≠ .proactive) : Alike g (g.setFlag f x) := by
  refine ⟨Eq.refl _, Eq.refl _, Eq.refl _, ?_⟩
  simp [SlruGpa.setFlag, Ne.symm hf]

theorem Alike.trans {g'' : SlruGpa} (h : Alike g g') (h' : Alike g' g'') : Alike g g'' :=
  ⟨h'.on.trans h.on, h'.cpu.trans h.cpu, h'.state.trans h.state, h'.flag.trans h.flag⟩

theorem Alike.list (h : Alike g g') : g'.list cfg.possibleCpus = g.list cfg.possibleCpus := by
  simp only [SlruGpa.list, h.on, h.cpu, h.state, h.flag]

theorem Alike.weight (h : Alike g g') (p : Bool) (c : SlruCount) :
    Owned.weight cfg ⟨p, g'⟩ b c = Owned.weight cfg ⟨p, g⟩ b c := by
  have hlist : g'.list cfg.possibleCpus = g.list cfg.possibleCpus := h.list
  simp only [Owned.weight, Owned.counted, Owned.home, hlist, h.state]

theorem Alike.settled {p : Prop} (h : Alike g g') (hg : Settled cfg p g) : Settled cfg p g' := by
  refine ⟨?_, ?_⟩
  · rw [Flagged, h.flag, h.list]
    exact hg.flagged
  · have hplaced := hg.placed
    simp only [Placed, h.state, h.on, h.list] at hplaced ⊢
    exact hplaced

/-- What is known of a block does not depend on its marks. -/
def Stable (P : Owned → Prop) : Prop := ∀ p g g', Alike g g' → P ⟨p, g⟩ → P ⟨p, g'⟩

theorem stable_leaving (r : BlockState) : Stable (Out (Leaving r)) := fun _ _ _ h ho =>
  ⟨ho.1, h.on.trans ho.2.on, h.flag.trans ho.2.flag, h.state.trans ho.2.state⟩

/-- A block is marked. -/
theorem Inv.mark (hI : Inv cfg s (Function.update hs a h)) (hown : h.own b = some o)
    (halike : Alike o.gpa g') :
    Inv cfg (s.setGpa b g') (Function.update hs a (h.swap cfg b o ⟨o.placed, g'⟩)) := by
  refine hI.setGpa ⟨o.placed, g'⟩ hown rfl ?_
  simp only [Owned.home, halike.list]

theorem safe_mark {F : SlruGpa → SlruGpa} (hF : ∀ g, Alike g (F g)) (hP : Stable P)
    (hk : Holds ((b, P) :: X) d h) :
    Safe (L := SlruLuck) (Inv cfg) a (fun _ k => Holds ((b, P) :: X) d k)
      (modify fun s => s.setGpa b (F (s.gpa b))) h := by
  refine (safe_modify_block (e := 0) hk fun s hs o hI hown ho => ?_).mono
    fun _ k hk => hk.owes (add_zero d)
  have hgpa := hI.own_gpa hown
  refine ⟨⟨o.placed, F (s.gpa b)⟩, ?_, hP o.placed o.gpa _ ?_ ho, fun c => ?_⟩
  · exact hI.mark hown (hgpa ▸ hF _)
  · exact hgpa ▸ hF _
  · rw [hgpa, (hF o.gpa).weight]
    exact sub_self _

omit [DecidableEq A] [Fintype A] in
theorem setGpa_self : s.setGpa b (s.gpa b) = s := by simp [SlruSys.setGpa]

/-- Blocks are marked one after the other. -/
theorem Inv.foldMarks {f : SlruSys A → ℕ → SlruSys A} {F : SlruGpa → SlruGpa}
    (hf : ∀ s b, f s b = s.setGpa b (F (s.gpa b))) (hF : ∀ g, Alike g (F g)) (hP : Stable P)
    (bs : List ℕ) (hI : Inv cfg s (Function.update hs a h)) (hk : Holds (tag P bs ++ X) d h) :
    ∃ h', Inv cfg (bs.foldl f s) (Function.update hs a h') ∧ Holds (tag P bs ++ X) d h' := by
  have hfold : ∃ h', Inv cfg (bs.foldl f s) (Function.update hs a h') ∧
      Holds (tag P bs ++ X) (d + bill cfg bs 0) h' := by
    refine Inv.foldBlocks (fun b s h o hI hown ho => ?_) bs hI hk
    have hgpa := hI.own_gpa hown
    refine ⟨⟨o.placed, F (s.gpa b)⟩, ?_, hP o.placed o.gpa _ (hgpa ▸ hF _) ho, fun c => ?_⟩
    · rw [hf]
      exact hI.mark hown (hgpa ▸ hF _)
    · rw [hgpa, (hF o.gpa).weight]
      simp
  obtain ⟨h', hI', hk'⟩ := hfold
  refine ⟨h', hI', hk'.owes ?_⟩
  funext c
  simp [bill_apply]

/-- `check_eager_wbr`. -/
theorem safe_checkEagerWbr (hP : Stable P) (bs : List ℕ) (hk : Holds (tag P bs ++ X) d h) :
    Safe (L := SlruLuck) (Inv (A := A) cfg) a (fun _ k => Holds (tag P bs ++ X) d k)
      (modify (checkEagerWbr bs)) h := by
  refine safe_modify fun s hs hI => Inv.foldMarks (F := fun g => if g.flags .eagerWbr then
    (g.setFlag .eagerWbr false).setFlag .dirty false else g) (fun s b => ?_) (fun g => ?_) hP bs hI hk
  · split_ifs
    · rfl
    · exact setGpa_self.symm
  · split_ifs
    · exact (alike_setFlag _ _ (by decide)).trans (alike_setFlag _ _ (by decide))
    · exact Alike.rfl

theorem alike_clearPrefetched : Alike g g.clearPrefetched :=
  ((alike_setFlag _ _ (by decide)).trans (alike_setFlag _ _ (by decide))).trans
    (alike_setFlag _ _ (by decide))

/-- `update_active_list`. -/
theorem safe_updateActiveList {vsLen : ℕ} (cpus : List ℤ) (hk : Holds X d h) :
    Safe (Inv cfg) a (fun vs k => Holds (tag (Out (Leaving .transAl)) vs ++ X) d k)
      (updateActiveList a vsLen cpus) h := by
  refine (safe_activeLoop cpus [] hk).bind fun vs k hk => ?_
  refine Safe.bind (Q := fun _ k => Holds (tag (Out (Leaving .transAl)) vs ++ X) d k)
    (safe_whenever (fun _ => safe_modify fun s hs hI => ?_) fun _ => hk) fun _ k hk => safe_ret hk
  refine Inv.foldMarks (F := fun g => if g.prefetched then g.clearPrefetched else g)
    (fun s b => ?_) (fun g => ?_) (stable_leaving _) vs hI hk
  · split_ifs
    · rfl
    · exact setGpa_self.symm
  · split_ifs
    · exact alike_clearPrefetched
    · exact Alike.rfl

end Slru

end Emp
