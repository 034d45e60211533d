import Emp.Slru.Evicted

/-!
# Calls keep the account

A thread that is called locks its blocks, changes them and unlocks them: whatever other threads do
in between, it ends with an empty hand.

## Main definitions

* `Ending` — the hand of a thread that is about to unlock its last block.
* `safe_removeGpaFromLru` — a block is taken off the list that it tells of.
* `Call.safe` — the programs of all calls.
-/

namespace Emp

namespace Slru

open Program SlruSys

variable {A : Type} [DecidableEq A] [Fintype A] {cfg : SlruConfig} {s t : SlruSys A}
  {hs : A → Hand} {a : A} {h h' k : Hand} {b : ℕ} {g g' : SlruGpa} {l : LocalList} {o o' : Owned}
  {bs cs : List ℕ} {α : Type} {P Q : Owned → Prop} {B C X : Batch} {d e u v : SlruCount → ℤ}

/-! ### Locking -/

/-- A block that has been locked: it is where it tells. -/
def Whole (cfg : SlruConfig) (r : BlockState) (o : Owned) : Prop := Back cfg o ∧ o.gpa.rState = r

theorem Back.freed (ho : Back cfg o) : Freed cfg False o := ⟨by simp [Owned.home, ho.1], ho.2⟩

theorem Inv.lockOne (hI : Inv cfg s (Function.update hs a h)) (hk : Holds X d h)
    (hfree : s.lock b = none) (hlt : b < s.config.numBlocks) (hok : b ∉ s.failed) :
    Inv cfg (s.hold a b) (Function.update hs a (h.take b (s.gpa b))) ∧
      Holds ((b, Back cfg) :: X) d (h.take b (s.gpa b)) := by
  rw [hI.config] at hlt
  refine ⟨hI.hold hfree hlt, ?_, hk.failed, hk.debt⟩
  refine hk.carries.push ?_ ⟨rfl, (hI.settled b hfree).mono hok⟩
  have hnot := (hI.locks a b).not.mp (by rw [hfree]; simp)
  rw [Function.update_self] at hnot
  simpa using hnot

theorem safe_lockBlock (b : ℕ) (hk : Holds X d h) :
    Safe (Inv cfg) a (fun _ k => Holds ((b, Back cfg) :: X) d k) (lockBlock a b) h := by
  intro luck s hs x t hI ha hft
  have hI' : Inv cfg s (Function.update hs a h) := by rwa [← ha, Function.update_eq_self]
  dsimp only at hft
  by_cases hlock : s.lock b = none ∧ b < s.config.numBlocks ∧ b ∉ s.failed
  · rw [if_pos hlock] at hft
    simp only [Option.some.injEq, Prod.mk.injEq, true_and] at hft
    subst hft
    exact ⟨_, hI'.lockOne hk hlock.1 hlock.2.1 hlock.2.2⟩
  · rw [if_neg hlock] at hft
    exact absurd hft (by simp)

theorem safe_trylockBlock (b : ℕ) (hk : Holds X d h) :
    Safe (Inv cfg) a (fun ok k => if ok then Holds ((b, Back cfg) :: X) d k else Holds X d k)
      (trylockBlock a b) h := by
  intro luck s hs x t hI ha hft
  have hI' : Inv cfg s (Function.update hs a h) := by rwa [← ha, Function.update_eq_self]
  dsimp only at hft
  by_cases hout : s.config.numBlocks ≤ b ∨ b ∈ s.failed
  · rw [if_pos hout] at hft
    exact absurd hft (by simp)
  · rw [if_neg hout] at hft
    rw [not_or, not_le] at hout
    by_cases hlock : s.lock b = none
    · rw [if_pos hlock] at hft
      simp only [Option.some.injEq, Prod.mk.injEq] at hft
      obtain ⟨rfl, rfl⟩ := hft
      exact ⟨_, hI'.lockOne hk hlock hout.1 hout.2⟩
    · rw [if_neg hlock] at hft
      simp only [Option.some.injEq, Prod.mk.injEq] at hft
      obtain ⟨rfl, rfl⟩ := hft
      exact ⟨h, hI', hk⟩

/-- What the owner of a block reads. -/
theorem safe_lookAt {f : SlruGpa → α} (hk : Holds ((b, P) :: X) d h) :
    Safe (L := SlruLuck) (Inv (A := A) cfg) a
      (fun x k => Holds ((b, fun o => P o ∧ f o.gpa = x) :: X) d k) (read fun s => f (s.gpa b)) h :=
  safe_look fun s hs hI => hk.learn fun o hown ho => ⟨ho, by rw [hI.own_gpa hown]⟩

/-- A thread that has stopped. -/
theorem safe_bug {Q : α → Hand → Prop} : Safe (Inv (A := A) cfg) a Q bug h := by
  intro luck s hs x t hI ha hft
  exact absurd hft (by simp)

/-! ### Unlocking -/

/-- The hand of a thread that is about to unlock `b`, which may have failed. -/
structure Ending (cfg : SlruConfig) (b : ℕ) (X : Batch) (d : SlruCount → ℤ) (h : Hand) : Prop where
  carries : Carries h.own (fun _ => none) ((b, Freed cfg (h.failed b = true)) :: X)
  failed : ∀ x, h.failed x = true → x = b
  debt : h.debt = d

theorem Holds.ending (hk : Holds ((b, Freed cfg False) :: X) d h) : Ending cfg b X d h := by
  refine ⟨?_, fun x hx => ?_, hk.debt⟩
  · have hk' : Carries h.own (fun _ => none) (tag (Freed cfg False) [b] ++ X) := hk.carries
    exact hk'.weaken fun o ho => ⟨ho.1, ho.2.mono False.elim⟩
  · simp [hk.failed] at hx

theorem safe_release (hk : Ending cfg b X d h) :
    Safe (L := SlruLuck) (Inv (A := A) cfg) a (fun _ k => Holds X d k)
      (modify fun s => s.release b) h := by
  have hk' : Carries h.own (fun _ => none) (tag (Freed cfg (h.failed b = true)) [b] ++ X) :=
    hk.carries
  have hsafe := safe_unlock (a := a) (h.failed b = true) hk'
    (fun hb x hx => by rw [List.mem_singleton.mp hx, hb])
    fun x hx => List.mem_singleton.mpr (hk.failed x hx)
  exact hsafe.mono fun _ k hkk => ⟨hkk.1, hkk.2.1, hkk.2.2.trans hk.debt⟩

/-- The owner of a block changes it where it is. -/
theorem safe_become {F : SlruGpa → SlruGpa} {G : Owned → Owned} (hG : ∀ o, (G o).gpa = F o.gpa)
    (hhome : ∀ o, P o → (G o).home cfg = o.home cfg) (hQ : ∀ o, P o → Q (G o))
    (hw : ∀ o c, P o → (G o).weight cfg b c = o.weight cfg b c) (hk : Holds ((b, P) :: X) d h) :
    Safe (L := SlruLuck) (Inv cfg) a (fun _ k => Holds ((b, Q) :: X) d k)
      (modify fun s => s.setGpa b (F (s.gpa b))) h := by
  refine (safe_modify_block (e := 0) hk fun s hs o hI hown ho => ?_).mono
    fun _ k hk => hk.owes (add_zero d)
  have hgpa := hI.own_gpa hown
  refine ⟨G o, hI.setGpa (G o) hown ?_ (hhome o ho), hQ o ho, fun c => ?_⟩
  · rw [hG, hgpa]
  · rw [hw o c ho]
    exact sub_self _

/-! ### Inactive blocks -/

theorem Whole.inactive (ho : Whole cfg .inactive o) : o.gpa.on = some .mru ∧
    o.gpa.flags .proactive = false ∧
    o.gpa.list cfg.possibleCpus = some (.inactive o.gpa.cpu) := by
  have hplaced := ho.1.2.placed
  have hon : o.gpa.on = some .mru := by simpa [Placed, ho.2] using hplaced
  have hlist : o.gpa.list cfg.possibleCpus = some (.inactive o.gpa.cpu) := by
    simp [SlruGpa.list, hon, ho.2]
  exact ⟨hon, (ho.1.2.onInactive hlist).2, hlist⟩

/-- An inactive block is taken off its list. -/
theorem safe_delistInactive {ptr : SlruSys A → LocalList}
    (hk : Holds ((b, Whole cfg .inactive) :: X) d h)
    (hptr : ∀ s hs, Inv cfg s (Function.update hs a h) →
      ptr s = getListPtrInactive (s.gpa b).cpu) :
    Safe (L := SlruLuck) (Inv cfg) a (fun _ k => Holds ((b, Out (Leaving .inactive)) :: X)
      (d - Pi.single SlruCount.inactive (cfg.blockSize b : ℤ)) k)
      (modify fun s => s.delist b (ptr s)) h := by
  refine (safe_modify_block (e := -Pi.single SlruCount.inactive (cfg.blockSize b : ℤ)) hk
    fun s hs o hI hown ho => ?_).mono fun _ k hk => hk.owes (sub_eq_add_neg d _).symm
  obtain ⟨hon, hflag, hlist⟩ := ho.inactive
  obtain ⟨⟨hplaced, hsettled⟩, hstate⟩ := ho
  obtain ⟨_, g⟩ := o
  have htrue : _ = true := hplaced
  subst htrue
  have hgpa : s.gpa b = g := hI.own_gpa hown
  have hleaving : Leaving .inactive { g with on := none } := ⟨rfl, hflag, hstate⟩
  refine ⟨⟨false, { g with on := none }⟩, ?_, ⟨rfl, hleaving⟩, fun c => ?_⟩
  · rw [hptr s hs hI, hgpa]
    exact hI.delist hown hlist
  · rw [hleaving.weight, weight_onInactive hstate hon]
    cases c <;> simp

theorem Leaving.joining_zero {r : BlockState} (hg : Leaving r g) (hr : r ≠ .transIl ∧ r ≠ .wb) :
    Joining cfg 0 g :=
  ⟨hg.flag, fun b c => by
    rw [hg.weight]
    simp [hr.1, hr.2]⟩

/-- `_handle_gpa_on_inactive_fault`. -/
theorem safe_handleGpaOnInactiveFault (hk : Holds ((b, Whole cfg .inactive) :: X) d h) :
    Safe (Inv (A := A) cfg) a (fun _ k => Holds ((b, Out (Leaving .init)) :: X) d k)
      (handleGpaOnInactiveFault b) h := by
  refine (safe_delistInactive hk fun _ _ _ => rfl).bind fun _ k hk => ?_
  refine (safe_checkEagerWbr (stable_leaving _) [b] hk).bind fun _ k hk => ?_
  refine Safe.bind (Q := fun _ k => Holds ((b, Out (Leaving .init)) :: X)
    (d - Pi.single SlruCount.inactive (cfg.blockSize b : ℤ)) k) ?_ fun _ k hk => ?_
  · refine safe_become (F := fun g => { g.clearPrefetched with rState := .init })
      (G := fun o => ⟨o.placed, { o.gpa.clearPrefetched with rState := .init }⟩) (fun _ => rfl)
      (fun o ho => ?_) (fun o ho => ⟨ho.1, ho.2.on, ?_, rfl⟩) (fun o c ho => ?_) hk
    · simp [Owned.home, ho.1]
    · have hflag := ho.2.flag
      simpa [SlruGpa.clearPrefetched, SlruGpa.setFlag] using hflag
    · simp [Owned.weight, Owned.counted, Owned.home, ho.1, ho.2.state]
  · refine (safe_payBack (n := cfg.blockSize b) .inactive hk fun s hs hI => by
      rw [hI.config]).mono fun _ k hk => hk.owes ?_
    simp

/-- `handle_inactive_fault`. -/
theorem safe_handleInactiveFault (hpos : ∀ b, 0 < cfg.blockSize b) (cpu : ℤ)
    (hk : Holds ((b, Whole cfg .inactive) :: X) d h) :
    Safe (Inv cfg) a (fun _ k => Holds ((b, InChain cfg) :: X) d k)
      (handleInactiveFault a cpu b) h := by
  refine (safe_handleGpaOnInactiveFault hk).bind fun _ k hk => ?_
  have hk' : Holds (tag (Out (Leaving .init)) [b] ++ X) d k := hk
  refine (safe_addGpasToActiveList hpos (w := 0) (fun g hg hf => rfl)
    (fun g hg b c => (hg.joining_zero ⟨by decide, by decide⟩).weight b c) [b] hk').bind
    fun _ k hk => safe_ret (hk.owes ?_)
  funext c
  simp [bill_apply]

/-! ### Faults on blocks in writeback -/

theorem Whole.wb (ho : Whole cfg .wb o) : o.gpa.on = some .lru ∧
    o.gpa.flags .proactive = false ∧
    o.gpa.list cfg.possibleCpus = some (.writeback o.gpa.cpu) := by
  have hplaced := ho.1.2.placed
  have hon : o.gpa.on = some .lru := by simpa [Placed, ho.2] using hplaced
  have hlist : o.gpa.list cfg.possibleCpus = some (.writeback o.gpa.cpu) := by
    simp [SlruGpa.list, hon, ho.2]
  exact ⟨hon, (ho.1.2.onWriteback hlist).2, hlist⟩

/-- `clear_writeback_block`; the block is counted until its writeback is cleared. -/
theorem safe_clearWritebackBlock (hk : Holds ((b, Whole cfg .wb) :: X) d h) :
    Safe (L := SlruLuck) (Inv (A := A) cfg) a (fun _ k => Holds ((b, Out (Leaving .wb)) :: X) d k)
      (modify (clearWritebackBlock b)) h := by
  refine (safe_modify_block (e := 0) hk fun s hs o hI hown ho => ?_).mono
    fun _ k hk => hk.owes (add_zero d)
  obtain ⟨hon, hflag, hlist⟩ := ho.wb
  obtain ⟨⟨hplaced, hsettled⟩, hstate⟩ := ho
  obtain ⟨_, g⟩ := o
  have htrue : _ = true := hplaced
  subst htrue
  have hgpa : s.gpa b = g := hI.own_gpa hown
  have hleaving : Leaving .wb { g with on := none } := ⟨rfl, hflag, hstate⟩
  refine ⟨⟨false, { g with on := none }⟩, ?_, ⟨rfl, hleaving⟩, fun c => ?_⟩
  · have hdel := hI.delist hown hlist
    refine hdel.same ?_ ?_ ?_ ?_ ?_ ?_ ?_
    all_goals simp [clearWritebackBlock, hgpa]
  · have hlist' : g.list cfg.possibleCpus = some (.writeback g.cpu) := hlist
    have hstate' : g.rState = .wb := hstate
    rw [hleaving.weight]
    simp only [Owned.weight, Owned.counted, Owned.home, if_true, hlist']
    cases c <;> simp [hstate', LocalList.countedBy]

/-- `handle_writeback_fault`. -/
theorem safe_handleWritebackFault (hpos : ∀ b, 0 < cfg.blockSize b) (cpu : ℤ) (cpus : List ℤ)
    (hk : Holds ((b, Whole cfg .wb) :: X) d h) :
    Safe (Inv cfg) a (fun _ k => Holds ((b, InChain cfg) :: X) d k)
      (handleWritebackFault a cpu cpus b) h := by
  refine (safe_clearWritebackBlock hk).bind fun _ k hk => ?_
  refine (safe_payBack (n := cfg.blockSize b) .inactive hk fun s hs hI => by
    rw [hI.config]).bind fun _ k hk => ?_
  have hk' : Holds (tag (Out (Joining cfg (Pi.single .inactive 1))) [b] ++ X)
      (d + Pi.single SlruCount.inactive (cfg.blockSize b : ℤ)) k := by
    have hk₁ : Holds (tag (Out (Leaving .wb)) [b] ++ X)
      (d + Pi.single SlruCount.inactive (cfg.blockSize b : ℤ)) k := hk
    refine hk₁.weaken fun o ho => ⟨ho.1, ho.2.flag, fun b c => ?_⟩
    rw [ho.2.weight]
    cases c <;> simp
  refine (safe_updateLruListsReref hpos cpu cpus [b] hk').bind fun ret k hk =>
    safe_ret (hk.owes ?_)
  funext c
  cases c <;> simp [bill_apply]

/-! ### Remote blocks -/

theorem Whole.init (ho : Whole cfg .init o) : Leaving .init o.gpa := by
  have hplaced := ho.1.2.placed
  have hon : o.gpa.on = none := by simpa [Placed, ho.2] using hplaced
  refine ⟨hon, Bool.eq_false_iff.mpr fun hflag => ?_, ho.2⟩
  obtain ⟨l, hl, -⟩ := ho.1.2.flagged.mp hflag
  rw [SlruGpa.list, hon] at hl
  exact absurd hl (by simp)

/-- A remote block becomes local, and has yet to be put on a list. -/
theorem safe_becomeLocal {F : SlruGpa → SlruGpa} (hF : ∀ g, Leaving .init g → (F g).on = none ∧
      (F g).flags .proactive = false ∧ Quiet (F g)) (hk : Holds ((b, Whole cfg .init) :: X) d h) :
    Safe (L := SlruLuck) (Inv cfg) a (fun _ k => Holds ((b, Out (Joining cfg 0)) :: X) d k)
      (modify fun s => s.setGpa b (F (s.gpa b))) h := by
  refine safe_become (G := fun o => ⟨false, F o.gpa⟩) (fun _ => rfl) (fun o ho => ?_)
    (fun o ho => ⟨rfl, (hF _ ho.init).2.1, fun b c => ?_⟩) (fun o c ho => ?_) hk
  · simp [Owned.home, SlruGpa.list, ho.init.on]
  · rw [weight_out (hF _ ho.init).2.2]
    simp
  · obtain ⟨p, g⟩ := o
    have hp : p = true := ho.1.1
    have hinit : Leaving .init g := ho.init
    rw [hp, weight_out (hF _ hinit).2.2, weight_nowhere (by simp [Quiet, hinit.state]) hinit.on]

theorem safe_becomeActive (hk : Holds ((b, InChain cfg) :: X) d h) :
    Safe (L := SlruLuck) (Inv cfg) a (fun _ k => Holds ((b, InChain cfg) :: X) d k)
      (modify fun s => s.setGpa b { s.gpa b with rState := .active }) h := by
  have hlist : ∀ o, InChain cfg o → SlruGpa.list { o.gpa with rState := .active } cfg.possibleCpus =
      o.gpa.list cfg.possibleCpus := by
    intro o ho
    rcases ho.state with hstate | hstate
    all_goals simp [SlruGpa.list, hstate]
  refine safe_become (F := fun g => { g with rState := .active })
    (G := fun o => ⟨o.placed, { o.gpa with rState := .active }⟩) (fun _ => rfl) (fun o ho => ?_)
    (fun o ho => ⟨ho.placed, Or.inl rfl, ?_⟩) (fun o c ho => ?_) hk
  · simp only [Owned.home, hlist o ho]
  · obtain ⟨l, hl, hflag⟩ := ho.listed
    exact ⟨l, (hlist o ho).trans hl, hflag⟩
  · have hhome : Owned.home cfg ⟨o.placed, { o.gpa with rState := .active }⟩ = o.home cfg := by
      simp only [Owned.home, hlist o ho]
    rcases ho.state with hstate | hstate
    all_goals simp [Owned.weight, Owned.counted, hhome, hstate]

/-- `handle_remote_fault`, which records the block as failed when the lists cannot be updated. -/
theorem safe_handleRemoteFault (hpos : ∀ b, 0 < cfg.blockSize b) (cpu : ℤ) (cpus : List ℤ)
    (pressure : ℕ) (hk : Holds ((b, Whole cfg .init) :: X) d h) :
    Safe (Inv cfg) a (fun _ k => Ending cfg b X d k)
      (handleRemoteFault a cpu cpus pressure b) h := by
  refine Safe.bind (Q := fun _ k' => k' = h) (safe_ask fun _ => rfl) fun fetch k' hk' => ?_
  subst hk'
  by_cases hfetch : fetch = .failed
  · rw [if_pos hfetch]
    have hk' : Holds (tag (Whole cfg .init) [b] ++ X) d k' := hk
    exact safe_ret (Holds.ending (hk'.weaken fun o ho => ho.1.freed))
  rw [if_neg hfetch]
  refine Safe.bind (Q := fun _ k => Holds ((b, Out (Joining cfg 0)) :: X) d k)
    (safe_becomeLocal (F := fun g => { g with
      rState := if fetch = .inProgress ∧ 0 ≤ cpu then .fetching else .active })
      (fun g hg => ⟨hg.on, hg.flag, ?_⟩) hk) fun _ k hk => ?_
  · split_ifs
    all_goals simp [Quiet]
  have hk' : Holds (tag (Out (Joining cfg 0)) [b] ++ X) d k := hk
  refine (safe_updateLruLists hpos cpu cpus [b] pressure hk').bind fun ret k hk => ?_
  have hk₁ : Holds ((b, InChain cfg) :: X) d k := by
    refine hk.owes ?_
    funext c
    simp [bill_apply]
  cases ret with
  | none =>
    have hfail : Safe (L := SlruLuck) (Inv (A := A) cfg) a (fun _ k' => k' = k.fail b)
        (modify fun s => { s with failed := b :: s.failed }) k :=
      safe_modify fun s hs hI => ⟨_, hI.fail b, rfl⟩
    refine hfail.bind fun _ k' hk' => ?_
    subst hk'
    have hk₂ : Carries k.own (fun _ => none) (tag (InChain cfg) [b] ++ X) := hk₁.carries
    refine safe_ret ⟨hk₂.weaken fun o ho => ⟨ho.freed.1, ho.freed.2.mono False.elim⟩,
      fun x hx => ?_, hk₁.debt⟩
    by_contra hne
    rw [Hand.fail_failed, Function.update_of_ne hne, hk₁.failed] at hx
    exact absurd hx (by simp)
  | some n =>
    refine (safe_becomeActive hk₁).bind fun _ k hk => ?_
    have hk' : Holds (tag (InChain cfg) [b] ++ X) d k := hk
    exact safe_ret (Holds.ending (hk'.weaken fun o ho => ho.freed))

/-- `emp_page_fault_gpa`. -/
theorem safe_empPageFault (hpos : ∀ b, 0 < cfg.blockSize b) (cpu : ℤ) (cpus : List ℤ)
    (pressure b : ℕ) (hk : Holds X d h) :
    Safe (Inv cfg) a (fun _ k => Holds X d k) (empPageFault a cpu cpus pressure b) h := by
  refine (safe_empWaitForWriteback cpus pressure hk).bind fun _ k hk => ?_
  refine (safe_lockBlock b hk).bind fun _ k hk => ?_
  refine (safe_lookAt (f := fun g => g.rState) hk).bind fun rState k hk => ?_
  have hinChain : ∀ k, Holds ((b, InChain cfg) :: X) d k → Ending cfg b X d k := fun k hk => by
    have hk' : Holds (tag (InChain cfg) [b] ++ X) d k := hk
    exact Holds.ending (hk'.weaken fun o ho => ho.freed)
  refine Safe.bind (Q := fun _ k => Ending cfg b X d k) ?_ fun _ k hk => safe_release hk
  cases rState with
  | init => exact safe_handleRemoteFault hpos cpu cpus pressure hk
  | active =>
    have hk' : Holds (tag (Whole cfg .active) [b] ++ X) d k := hk
    exact safe_ret (Holds.ending (hk'.weaken fun o ho => ho.1.freed))
  | inactive => exact (safe_handleInactiveFault hpos cpu hk).mono fun _ k hk => hinChain k hk
  | wb => exact (safe_handleWritebackFault hpos cpu cpus hk).mono fun _ k hk => hinChain k hk
  | fetching => exact safe_bug
  | transIl => exact safe_bug
  | transAl => exact safe_bug
  | transPl => exact safe_bug

/-! ### Removal -/

/-- What the list of a block in a chain is, by the kind that its local page tells. -/
theorem Whole.active (ho : Whole cfg .active o) : ∃ on, o.gpa.on = some on ∧
    o.gpa.list cfg.possibleCpus =
      some (.slru (slruOn cfg (o.gpa.flags .proactive) o.gpa.cpu on)) ∧
    (on = .pin → o.gpa.flags .proactive = true) := by
  have hplaced := ho.1.2.placed
  have hlisted : ∃ l, o.gpa.list cfg.possibleCpus = some (.slru l) := by
    simpa [Placed, ho.2] using hplaced
  obtain ⟨l, hl⟩ := hlisted
  have hflag := (ho.1.2.slru hl).1
  cases hon : o.gpa.on with
  | none => simp [SlruGpa.list, hon] at hl
  | some on =>
    have hlist : o.gpa.list cfg.possibleCpus =
        some (.slru (slruOn cfg (o.gpa.flags .proactive) o.gpa.cpu on)) :=
      list_slruOn rfl (Or.inl ho.2) rfl hon
    refine ⟨on, rfl, hlist, fun hpin => ?_⟩
    rw [hlist, Option.some.injEq, LocalList.slru.injEq] at hl
    rw [hflag, ← hl, hpin]
    rfl

/-- A block is taken off its list, after its flag. -/
theorem Inv.unchain {f : SlruGpa → SlruGpa} (hI : Inv cfg s (Function.update hs a h))
    (hown : h.own b = some ⟨true, g⟩) (hl : g.list cfg.possibleCpus = some l) :
    Inv cfg ((s.setGpa b (f g)).delist b l) (Function.update hs a
      (h.swap cfg b ⟨true, g⟩ ⟨false, { f g with on := none }⟩)) := by
  rw [setGpa_delist]
  have hdel := hI.delist hown hl
  have hown' : (h.swap cfg b ⟨true, g⟩ ⟨false, { g with on := none }⟩).own b =
      some ⟨false, { g with on := none }⟩ := by simp
  have hset := hdel.turn hown' { f g with on := none }
  rwa [Hand.swap_swap] at hset

/-- The section of `remove_gpa_from_lru` that takes an active block off its list. -/
theorem safe_unchain (f : SlruGpa → SlruGpa) (ptr : SlruSys A → LocalList) {g₀ : SlruGpa}
    {on : OnList} (hon : g₀.on = some on)
    (hk : Holds ((b, fun o => Whole cfg .active o ∧ o.gpa = g₀) :: X) d h)
    (hf : ∀ g, (f g).rState = g.rState ∧ (f g₀).flags .proactive = false)
    (hptr : ∀ s, s.config = cfg →
      ptr s = .slru (slruOn cfg (g₀.flags .proactive) g₀.cpu on)) :
    Safe (L := SlruLuck) (Inv cfg) a (fun _ k => Holds ((b, Out (Leaving .active)) :: X)
        (d - bill cfg [b] (unit (.slru (slruOn cfg (g₀.flags .proactive) g₀.cpu on)))) k)
      (modify fun s => (s.setGpa b (f (s.gpa b))).delist b (ptr s)) h := by
  refine (safe_modify_block (e := fun c => -(cfg.blockSize b *
    unit (.slru (slruOn cfg (g₀.flags .proactive) g₀.cpu on)) c)) hk
    fun s hs o hI hown ho => ?_).mono fun _ k hk => hk.owes ?_
  · obtain ⟨hwhole, rfl⟩ := ho
    obtain ⟨on', hon', hlist, -⟩ := hwhole.active
    rw [hon, Option.some.injEq] at hon'
    subst hon'
    obtain ⟨⟨hplaced, hsettled⟩, hstate⟩ := hwhole
    obtain ⟨_, g⟩ := o
    have htrue : _ = true := hplaced
    subst htrue
    have hgpa : s.gpa b = g := hI.own_gpa hown
    have hleaving : Leaving .active { f g with on := none } :=
      ⟨rfl, (hf g).2, (hf g).1.trans hstate⟩
    refine ⟨⟨false, { f g with on := none }⟩, ?_, ⟨rfl, hleaving⟩, fun c => ?_⟩
    · rw [hgpa, hptr s hI.config]
      exact hI.unchain hown hlist
    · have hquiet : Quiet g := quiet_of_state (Or.inl hstate)
      rw [weight_placed hquiet hlist, hleaving.weight]
      simp
  · funext c
    simp [bill_apply]
    ring

/-- What `cur_pin_pages` has of a block, by the list that the block is on. -/
def pinnedPages (cfg : SlruConfig) (b : ℕ) (on : OnList) : SlruCount → ℤ :=
  if on = .pin then Pi.single .pin (cfg.blockSize b : ℤ) else 0

/-- What the lists of the chains count for a block. -/
theorem bill_slruOn {proactive : Bool} {cpu : ℤ} {on : OnList}
    (hpin : on = .pin → proactive = true) :
    bill cfg [b] (unit (.slru (slruOn cfg proactive cpu on))) =
      Pi.single (SlruCount.ofChain proactive) (cfg.blockSize b : ℤ) + pinnedPages cfg b on := by
  rw [pinnedPages]
  by_cases hon : on = .pin
  · subst hon
    obtain rfl := hpin rfl
    funext c
    rw [bill_apply, slruOn, unit_pin, chain]
    cases c <;> simp [SlruCount.ofChain]
  · have hunit : unit (.slru (slruOn cfg proactive cpu on)) = chain proactive :=
      funext (unit_slruOn hon)
    rw [hunit, bill_chain, if_neg hon]
    simp

/-- `remove_gpa_from_lru` of an active block. -/
theorem safe_removeActive (hk : Holds ((b, Whole cfg .active) :: X) d h) :
    Safe (Inv (A := A) cfg) a (fun _ k => Holds ((b, Out (Leaving .active)) :: X) d k)
      (removeGpaFromLru b) h := by
  refine (safe_lookAt (f := fun g => g) hk).bind fun g₀ k hk => ?_
  obtain ⟨o, hown, hwhole, heq⟩ := hk.head
  have hstate : g₀.rState = .active := heq ▸ hwhole.2
  obtain ⟨on, hon, hlist, hpin⟩ := hwhole.active
  rw [heq] at hon hlist hpin
  rw [if_pos hstate]
  have hsize : ∀ s : SlruSys A, ∀ hs, Inv cfg s hs →
      -(s.config.blockSize b : ℤ) = -(cfg.blockSize b : ℤ) := fun s hs hI => by rw [hI.config]
  cases hflag : g₀.flags .proactive with
  | true =>
    rw [if_pos rfl]
    refine Safe.bind (Q := fun _ k => Holds ((b, fun o => Whole cfg .active o ∧ o.gpa = g₀) :: X)
      (d + pinnedPages cfg b on) k) (safe_whenever (fun hp => ?_) fun hp => ?_) fun _ k hk => ?_
    · have hp' : on = .pin := Option.some.inj (hon.symm.trans hp)
      refine (safe_payBack .pin hk fun s hs hI => hsize s _ hI).mono fun _ k hk => hk.owes ?_
      simp [pinnedPages, hp']
    · have hp' : on ≠ .pin := fun heq => hp (by rw [hon, heq])
      exact hk.owes (by simp [pinnedPages, hp'])
    refine Safe.bind (Q := fun _ k => Holds ((b, Out (Leaving .active)) :: X)
      (d + pinnedPages cfg b on -
        bill cfg [b] (unit (.slru (slruOn cfg (g₀.flags .proactive) g₀.cpu on)))) k)
      (safe_unchain (fun g => g.setFlag .proactive false) _ hon hk ?_ ?_) fun _ k hk => ?_
    · intro g
      simp [SlruGpa.setFlag]
    · intro s hconfig
      rw [hon, hflag]
      cases on <;> simp [slruOn, SlruSys.getListPtrPin, getListPtrMru, getListPtrLru, globalList,
        hconfig]
    · refine (safe_payBack .proactive hk fun s hs hI => hsize s _ hI).mono fun _ k hk => hk.owes ?_
      rw [hflag, bill_slruOn fun _ => rfl]
      funext c
      simp [SlruCount.ofChain]
  | false =>
    rw [if_neg (by simp)]
    have hon' : on ≠ .pin := fun heq => absurd (hflag.symm.trans (hpin heq)) (by simp)
    refine Safe.bind (Q := fun _ k => Holds ((b, Out (Leaving .active)) :: X)
      (d - bill cfg [b] (unit (.slru (slruOn cfg (g₀.flags .proactive) g₀.cpu on)))) k) ?_
      fun _ k hk => ?_
    · have hsec := safe_unchain (A := A) (a := a) (fun g => g)
        (fun _ => .slru (slruOn cfg (g₀.flags .proactive) g₀.cpu on)) hon hk
        (fun g => ⟨rfl, hflag⟩) fun _ _ => rfl
      simp only [setGpa_self] at hsec
      rw [hon, hflag] at *
      cases on
      · exact hsec
      · exact hsec
      · exact hsec
      · exact absurd rfl hon'
    · refine (safe_payBack .active hk fun s hs hI => hsize s _ hI).mono fun _ k hk => hk.owes ?_
      rw [hflag, bill_slruOn fun heq => absurd heq hon', pinnedPages, if_neg hon']
      funext c
      simp [SlruCount.ofChain]

/-- `remove_gpa_from_lru` of an inactive block. -/
theorem safe_removeInactive (hk : Holds ((b, Whole cfg .inactive) :: X) d h) :
    Safe (Inv (A := A) cfg) a (fun _ k => Holds ((b, Out (Leaving .inactive)) :: X) d k)
      (removeGpaFromLru b) h := by
  refine (safe_lookAt (f := fun g => g) hk).bind fun g₀ k hk => ?_
  obtain ⟨o, hown, hwhole, heq⟩ := hk.head
  have hstate : g₀.rState = .inactive := heq ▸ hwhole.2
  have hon := hwhole.inactive.1
  rw [heq] at hon
  rw [if_neg (by simp [hstate])]
  refine safe_whenever (fun _ => ?_) fun hno => absurd (by simp [hstate, hon]) hno
  have hk' : Holds (tag (fun o => Whole cfg .inactive o ∧ o.gpa = g₀) [b] ++ X) d k := hk
  have hptr : ∀ s hs, Inv cfg s (Function.update hs a k) →
      getListPtrInactive g₀.cpu = getListPtrInactive (s.gpa b).cpu :=
    fun s hs hI => by rw [hI.own_gpa hown, heq]
  refine (safe_delistInactive (hk'.weaken fun o ho => ho.1) hptr).bind fun _ k hk => ?_
  refine (safe_payBack (n := cfg.blockSize b) .inactive hk fun s hs hI => by
    rw [hI.config]).mono fun _ k hk => hk.owes ?_
  simp

/-- `remove_gpa_from_lru`. -/
theorem safe_removeGpaFromLru {r : BlockState} (hr : r = .active ∨ r = .inactive)
    (hk : Holds ((b, Whole cfg r) :: X) d h) :
    Safe (Inv (A := A) cfg) a (fun _ k => Holds ((b, Out (Leaving r)) :: X) d k)
      (removeGpaFromLru b) h := by
  rcases hr with rfl | rfl
  · exact safe_removeActive hk
  · exact safe_removeInactive hk

/-! ### The close of a mapping -/

/-- A block whose eviction has failed while it was not counted is counted as leaked. -/
theorem Inv.leak (hI : Inv cfg s (Function.update hs a h)) (b : ℕ) :
    Inv cfg { s with leaked := b :: s.leaked }
      (Function.update hs a (h.pay .inactive (-cfg.blockSize b))) := by
  have hpay := hI.addPageLen .inactive (-cfg.blockSize b)
  refine ⟨hpay.config, hpay.bound, hpay.locks, hpay.gpas, hpay.failed, hpay.settled, hpay.lists,
    fun c => ?_⟩
  have hsum : (s.addPageLen .inactive (-cfg.blockSize b)).pageLen c + _ =
    _ + if c = .inactive then s.pagesOf s.leaked else 0 := hpay.counts c
  have hpages : SlruSys.pagesOf { s with leaked := b :: s.leaked } (b :: s.leaked) =
      cfg.blockSize b + s.pagesOf s.leaked := by
    simp [SlruSys.pagesOf, ← hI.config]
  have hview : ∀ x, view { s with leaked := b :: s.leaked }
      (Function.update hs a (h.pay .inactive (-cfg.blockSize b))) x =
      view (s.addPageLen .inactive (-cfg.blockSize b))
        (Function.update hs a (h.pay .inactive (-cfg.blockSize b))) x := fun _ => rfl
  simp only [hview, hpages]
  by_cases hc : c = .inactive
  · subst hc
    rw [if_pos rfl] at hsum ⊢
    simp only [SlruSys.addPageLen, Function.update_self] at hsum ⊢
    linarith
  · rw [if_neg hc] at hsum ⊢
    simp only [SlruSys.addPageLen, Function.update_of_ne hc] at hsum ⊢
    exact hsum

/-- An orphaned block is evicted. -/
theorem safe_evictOrphan (cpu : ℤ) {r : BlockState} (hr : r = .active ∨ r = .inactive)
    (hk : Holds ((b, Out (Leaving r)) :: X) d h) :
    Safe (Inv (A := A) cfg) a (fun _ k => Ending cfg b X d k) (do
      modify fun s => s.addPageLen .inactive (s.config.blockSize b)
      let ok ← empWritebackBlock cpu b
      whenever (ok = false) (modify fun s =>
        if (s.gpa b).rState = .wb then s else { s with leaked := b :: s.leaked })) h := by
  have hmissing : missing cfg r b = Pi.single .inactive (cfg.blockSize b : ℤ) := by
    rcases hr with rfl | rfl
    · simp [missing]
    · simp [missing]
  refine Safe.bind (Q := fun _ k => Holds ((b, Out (Leaving r)) :: X) (d - missing cfg r b) k) ?_
    fun _ k hk => ?_
  · rw [hmissing]
    exact safe_pay .inactive hk fun s hs hI => by rw [hI.config]
  refine (safe_empWritebackBlock cpu hk).bind fun ok k hk => ?_
  cases ok with
  | true =>
    refine safe_whenever (fun hno => absurd hno (by simp)) fun _ => ?_
    exact Holds.ending hk
  | false =>
    obtain ⟨r', hr', hcarries, hfailed, hdebt⟩ := hk
    refine safe_whenever (fun _ => safe_modify fun s hs hI => ?_) fun hno => absurd rfl hno
    obtain ⟨o, hown, ho⟩ := hcarries.head
    have hstate : (s.gpa b).rState = r' := by rw [hI.own_gpa hown, ho.2.state]
    have hr₀ : r' = .transIl ∨ r' = .wb ∨ r' = .active ∨ r' = .inactive := by
      rcases hr' with rfl | rfl
      · exact Or.inr (Or.inr hr)
      · exact Or.inr (Or.inl rfl)
    have hfreed : Carries k.own (fun _ => none) (tag (Freed cfg True) [b] ++ X) := by
      have hc : Carries k.own (fun _ => none) (tag (Out (Leaving r')) [b] ++ X) := hcarries
      exact hc.weaken fun o ho => freed_failed hr₀ ho.2 o.placed
    have hb : k.failed b = true := by simp [hfailed]
    have hothers : ∀ x, k.failed x = true → x = b := by
      intro x hx
      by_contra hne
      simp [hfailed, Function.update_of_ne hne] at hx
    by_cases hwb : r' = .wb
    · rw [if_pos (hstate.trans hwb)]
      refine ⟨k, hI, ⟨?_, hothers, ?_⟩⟩
      · rw [hb]
        simpa using hfreed
      · rw [hdebt, missing, if_pos (Or.inr hwb), sub_zero]
    · rw [if_neg fun heq => hwb (hstate.symm.trans heq)]
      have hrr : r' = r := hr'.resolve_right hwb
      refine ⟨k.pay .inactive (-cfg.blockSize b), hI.leak b, ⟨?_, hothers, ?_⟩⟩
      · rw [Hand.pay_failed, hb]
        simpa using hfreed
      · rw [Hand.pay, hdebt, hrr, hmissing]
        funext c
        cases c <;> simp

/-- A block whose mapping is closed. -/
theorem safe_closeBlock (cpu : ℤ) (b : ℕ) (kept orphan : Bool) (hk : Holds X d h) :
    Safe (Inv cfg) a (fun _ k => Holds X d k) (closeBlock a cpu b kept orphan) h := by
  refine (safe_lockBlock b hk).bind fun _ k hk => ?_
  have hk : Holds (tag (Back cfg) [b] ++ X) d k := hk
  have hstable : Stable (Back cfg) := fun p g g' hgg ho => ⟨ho.1, hgg.settled ho.2⟩
  refine (safe_checkEagerWbr hstable [b] hk).bind fun _ k hk => ?_
  refine (safe_lookAt (f := fun g => g.rState) hk).bind fun rState k hk => ?_
  have hk : Holds (tag (Whole cfg rState) [b] ++ X) d k := hk
  have hdone : Ending cfg b X d k := Holds.ending (hk.weaken fun o ho => ho.1.freed)
  -- an active or an inactive block is taken off its list, unless it is kept
  have hlocal : ∀ {r : BlockState}, r = .active ∨ r = .inactive →
      Holds ((b, Whole cfg r) :: X) d k → Safe (Inv cfg) a (fun _ k => Ending cfg b X d k)
        (whenever (kept = false) do
          removeGpaFromLru b
          if orphan then do
            modify fun s => s.addPageLen .inactive (s.config.blockSize b)
            let ok ← empWritebackBlock cpu b
            whenever (ok = false) (modify fun s =>
              if (s.gpa b).rState = .wb then s else { s with leaked := b :: s.leaked })
          else modify fun s => s.setGpa b { s.gpa b with rState := .init }) k := by
    intro r hr hk
    refine safe_whenever (fun _ => ?_) fun _ => hdone
    refine (safe_removeGpaFromLru hr hk).bind fun _ k hk => ?_
    split_ifs
    · exact safe_evictOrphan cpu hr hk
    · refine (safe_become (Q := Out (Leaving .init)) (F := fun g => { g with rState := .init })
        (G := fun o => ⟨o.placed, { o.gpa with rState := .init }⟩) (fun _ => rfl) (fun o ho => ?_)
        (fun o ho => ⟨ho.1, ho.2.on, ho.2.flag, rfl⟩) (fun o c ho => ?_) hk).mono fun _ k hk => ?_
      · simp [Owned.home, ho.1]
      · rcases hr with rfl | rfl
        all_goals simp [Owned.weight, Owned.counted, Owned.home, ho.1, ho.2.state]
      · have hk : Holds (tag (Out (Leaving .init)) [b] ++ X) d k := hk
        exact Holds.ending (hk.weaken fun o ho => freed_out ho.2.on (leaving_init ho.2) o.placed)
  refine Safe.bind (Q := fun _ k => Ending cfg b X d k) ?_ fun _ k hk => safe_release hk
  cases rState with
  | init => exact safe_ret hdone
  | active => exact hlocal (Or.inl rfl) hk
  | inactive => exact hlocal (Or.inr rfl) hk
  | wb =>
    refine safe_whenever (fun _ => ?_) fun _ => hdone
    refine (safe_clearWritebackBlock hk).bind fun _ k hk => ?_
    refine Safe.bind (Q := fun _ k => Holds ((b, Out (Leaving .init)) :: X)
      (d - Pi.single SlruCount.inactive (cfg.blockSize b : ℤ)) k) ?_ fun _ k hk => ?_
    · refine (safe_modify_block (e := -Pi.single SlruCount.inactive (cfg.blockSize b : ℤ)) hk
        fun s hs o hI hown ho => ?_).mono fun _ k hk => hk.owes (sub_eq_add_neg d _).symm
      obtain ⟨_, g⟩ := o
      obtain ⟨rfl, hg⟩ := ho
      have hg : Leaving .wb g := hg
      have hinit := leaving_setGpaRemote hg.on
      have hgpa : s.gpa b = g := hI.own_gpa hown
      rw [hgpa]
      refine ⟨⟨false, setGpaRemote g⟩, hI.turn hown _, ⟨rfl, hinit⟩, fun c => ?_⟩
      rw [hg.weight, hinit.weight]
      cases c <;> simp
    · refine (safe_payBack (n := cfg.blockSize b) .inactive hk fun s hs hI => by
        rw [hI.config]).mono fun _ k hk => ?_
      have hk : Holds (tag (Out (Leaving .init)) [b] ++ X) d k := hk.owes (by simp)
      exact Holds.ending (hk.weaken fun o ho => freed_out ho.2.on (leaving_init ho.2) o.placed)
  | fetching => exact safe_bug
  | transIl => exact safe_bug
  | transAl => exact safe_bug
  | transPl => exact safe_bug

/-! ### Advice -/

theorem stable_back : Stable (Back cfg) := fun _ _ _ hgg ho => ⟨ho.1, hgg.settled ho.2⟩

theorem stable_whole {r : BlockState} : Stable (Whole cfg r) := fun _ _ _ hgg ho =>
  ⟨⟨ho.1.1, hgg.settled ho.1.2⟩, hgg.state.trans ho.2⟩

/-- A block that is where it tells is unlocked. -/
theorem safe_releaseBack (hk : Holds ((b, Back cfg) :: X) d h) :
    Safe (L := SlruLuck) (Inv (A := A) cfg) a (fun _ k => Holds X d k)
      (modify fun s => s.release b) h := by
  have hk : Holds (tag (Back cfg) [b] ++ X) d h := hk
  exact safe_release (Holds.ending (hk.weaken fun o ho => ho.freed))

/-- `emp_madv_pin`. -/
theorem safe_empMadvPin (bs : List ℕ) (hk : Holds X d h) :
    Safe (Inv cfg) a (fun _ k => Holds X d k) (empMadvPin a bs) h := by
  induction bs generalizing h with
  | nil => exact safe_ret hk
  | cons b bs ih =>
    refine (safe_lockBlock b hk).bind fun _ k hk => ?_
    refine Safe.bind (safe_mark (F := fun g => if (g.setFlag .pinned true).rState = .wb then
      (g.setFlag .pinned true).setFlag .promote true else g.setFlag .pinned true) (fun g => ?_)
      stable_back hk) fun _ k hk => ?_
    · split_ifs
      · exact (alike_setFlag _ _ (by decide)).trans (alike_setFlag _ _ (by decide))
      · exact alike_setFlag _ _ (by decide)
    · exact (safe_releaseBack hk).bind fun _ k hk => ih hk

/-- What a block of a pin list adds to the counters. -/
def onPin (c : SlruCount) : ℤ := chain true c + if c = .pin then 1 else 0

/-- `____flush_to_proactive`. -/
theorem safe_flushToProactive (cpu : ℤ) (lps : List ℕ)
    (hk : Holds (tag (Out (Loose true)) lps ++ X) (d - bill cfg lps onPin) h) :
    Safe (Inv (A := A) cfg) a (fun _ k => Holds X d k) (flushToProactive cpu lps) h := by
  refine (safe_pages lps).bind fun pages k' hk' => ?_
  obtain ⟨rfl, rfl⟩ := hk'
  refine Safe.bind (Q := fun _ k => Holds X (d - bill cfg lps onPin + bill cfg lps (chain true)) k)
    (safe_putBack hk fun b s k g hs hI hown hg => hI.enlist hown hg cpu .mru (by decide))
    fun _ k hk => ?_
  refine (safe_payBack .pin hk fun _ _ _ => rfl).mono fun _ k hk => hk.owes ?_
  funext c
  cases c <;> simp [bill_apply, onPin, chain, SlruCount.ofChain]

/-- A block of a pin list is taken off it. -/
theorem safe_unpinBlock {g₀ : SlruGpa} (hflag : g₀.flags .proactive = true) (hon : g₀.on = some .pin)
    (hk : Holds ((b, fun o => Back cfg o ∧ o.gpa = g₀) :: X) d h) :
    Safe (L := SlruLuck) (Inv (A := A) cfg) a
      (fun _ k => Holds ((b, Out (Loose true)) :: X) (d - bill cfg [b] onPin) k)
      (modify fun s => s.delist b (s.getListPtrPin g₀.cpu)) h := by
  refine (safe_modify_block (e := fun c => -(cfg.blockSize b * onPin c)) hk
    fun s hs o hI hown ho => ?_).mono fun _ k hk => hk.owes ?_
  · obtain ⟨⟨hplaced, hsettled⟩, rfl⟩ := ho
    obtain ⟨_, g⟩ := o
    have htrue : _ = true := hplaced
    subst htrue
    have hlist : g.list cfg.possibleCpus = some (.slru (.pin (cfg.possibleCpus + g.cpu))) := by
      have hon' : g.on = some .pin := hon
      simp [SlruGpa.list, hon']
    have hloose : Loose true { g with on := none } := hsettled.loose hlist
    have hptr : s.getListPtrPin g.cpu = .slru (.pin (cfg.possibleCpus + g.cpu)) := by
      rw [SlruSys.getListPtrPin, hI.config]
    refine ⟨⟨false, { g with on := none }⟩, ?_, ⟨rfl, hloose⟩, fun c => ?_⟩
    · dsimp only
      rw [hptr]
      exact hI.delist hown hlist
    · rw [weight_out hloose.quiet, hsettled.weight_slru hlist, unit_pin, onPin]
      ring
  · funext c
    simp [bill_apply]
    ring

/-- `emp_madv_unpin`. -/
theorem safe_empMadvUnpin (cpu : ℤ) (bs lps : List ℕ)
    (hk : Holds (tag (Out (Loose true)) lps ++ X) (d - bill cfg lps onPin) h) :
    Safe (Inv cfg) a (fun _ k => Holds X d k) (empMadvUnpin a cpu bs lps) h := by
  induction bs generalizing lps h with
  | nil =>
    refine safe_whenever (fun _ => safe_flushToProactive cpu lps hk) fun hno => ?_
    rw [not_not.mp hno] at hk
    exact hk.owes (by simp)
  | cons b bs ih =>
    refine (safe_lockBlock b hk).bind fun _ k hk => ?_
    refine Safe.bind (safe_mark (fun g => alike_setFlag .pinned false (by decide)) stable_back hk)
      fun _ k hk => ?_
    refine (safe_lookAt (f := fun g => g) hk).bind fun g₀ k hk => ?_
    by_cases hpin : g₀.flags .proactive = true ∧ g₀.on = some .pin
    · rw [if_pos hpin]
      refine (safe_unpinBlock hpin.1 hpin.2 hk).bind fun _ k hk => ?_
      have hk' : Holds (tag (Out (Loose true)) (lps ++ [b]) ++ X)
          (d - bill cfg (lps ++ [b]) onPin) k := by
        refine (hk.perm (perm_snoc _)).owes ?_
        funext c
        simp [bill_apply]
        ring
      split_ifs
      · exact (safe_flushToProactive cpu (lps ++ [b]) hk').bind fun _ k hk =>
          ih [] (hk.owes (by simp))
      · exact ih _ hk'
    · rw [if_neg hpin]
      have hk' : Holds (tag (fun o => Back cfg o ∧ o.gpa = g₀) [b] ++
        (tag (Out (Loose true)) lps ++ X)) (d - bill cfg lps onPin) k := hk
      exact (safe_releaseBack (hk'.weaken fun o ho => ho.1)).bind fun _ k hk => ih lps hk

/-- `blks_ctx_flush_prefetch`. -/
theorem safe_flushPrefetch (hpos : ∀ b, 0 < cfg.blockSize b) (cpu : ℤ) (cpus : List ℤ)
    (heads : List ℕ) (hk : Holds (tag (Out (Joining cfg 0)) heads ++ X) d h) :
    Safe (Inv cfg) a (fun _ k => Holds X d k) (flushPrefetch a cpu cpus heads) h := by
  refine (safe_pages heads).bind fun pages k' hk' => ?_
  obtain ⟨rfl, rfl⟩ := hk'
  refine (safe_updateLruLists hpos cpu cpus heads _ hk).bind fun _ k hk => ?_
  refine safe_unlockBlocks _ ((hk.owes ?_).weaken fun o ho => ho.freed)
  funext c
  simp [bill_apply]

/-- `__emp_blk_prefetch` of a block. -/
theorem safe_prefetchBlock (hk : Holds ((b, Back cfg) :: X) d h) :
    Safe (Inv (A := A) cfg) a (fun fetched k =>
        if fetched then Holds ((b, Out (Joining cfg 0)) :: X) d k else Holds X d k)
      (prefetchBlock b) h := by
  refine (safe_lookAt (f := fun g => g) hk).bind fun g₀ k hk => ?_
  have hback : Holds ((b, Back cfg) :: X) d k := by
    have hk' : Holds (tag (fun o => Back cfg o ∧ o.gpa = g₀) [b] ++ X) d k := hk
    exact hk'.weaken fun o ho => ho.1
  have hunlock : ∀ k, Holds ((b, Back cfg) :: X) d k → Safe (Inv (A := A) cfg) a (fun fetched k =>
      if fetched then Holds ((b, Out (Joining cfg 0)) :: X) d k else Holds X d k) (do
        modify fun s => s.release b
        pure false : SlruProg A Bool) k := fun k hk =>
    (safe_releaseBack hk).bind fun _ k hk => safe_ret hk
  have hpromote : Safe (Inv (A := A) cfg) a (fun fetched k =>
      if fetched then Holds ((b, Out (Joining cfg 0)) :: X) d k else Holds X d k) (do
        modify fun s => s.setGpa b ((s.gpa b).setFlag .promote true)
        modify fun s => s.release b
        pure false : SlruProg A Bool) k :=
    Safe.bind (safe_mark (fun g => alike_setFlag .promote true (by decide)) stable_back hback)
      fun _ k hk => hunlock k hk
  dsimp only
  split_ifs with hmarked hstale hinit
  · exact hpromote
  · exact hunlock k hback
  · refine Safe.bind (Q := fun _ k' => k' = k) (safe_ask fun _ => rfl) fun fetch k' hk' => ?_
    subst hk'
    by_cases hfetch : fetch = .failed
    · rw [if_pos hfetch]
      exact hunlock k' hback
    · rw [if_neg hfetch]
      have hwhole : Holds ((b, Whole cfg .init) :: X) d k' := by
        have hk' : Holds (tag (fun o => Back cfg o ∧ o.gpa = g₀) [b] ++ X) d k' := hk
        exact hk'.weaken fun o ho => ⟨ho.1, ho.2 ▸ hinit⟩
      refine Safe.bind (Q := fun _ k => Holds ((b, Out (Joining cfg 0)) :: X) d k)
        (safe_becomeLocal (F := fun g => { g.setPrefetched.setFlag .hpt true with
          rState := .active }) (fun g hg => ⟨hg.on, ?_, ?_⟩) hwhole) fun _ k hk => safe_ret hk
      · have hflag := hg.flag
        simpa [SlruGpa.setPrefetched, SlruGpa.setFlag] using hflag
      · simp [Quiet]
  · exact hpromote

/-- `emp_blk_prefetch`. -/
theorem safe_empBlkPrefetch (hpos : ∀ b, 0 < cfg.blockSize b) (cpu : ℤ) (cpus : List ℤ)
    (bs heads : List ℕ) (hk : Holds (tag (Out (Joining cfg 0)) heads ++ X) d h) :
    Safe (Inv cfg) a (fun _ k => Holds X d k) (empBlkPrefetch a cpu cpus bs heads) h := by
  induction bs generalizing heads h with
  | nil => exact safe_flushPrefetch hpos cpu cpus heads hk
  | cons b bs ih =>
    refine (safe_trylockBlock b hk).bind fun ok k hk => ?_
    cases ok with
    | false => exact ih heads hk
    | true =>
      rw [if_pos rfl]
      refine (safe_prefetchBlock hk).bind fun fetched k hk => ?_
      cases fetched with
      | false => exact ih heads hk
      | true =>
        rw [if_neg (by simp)]
        have hk' : Holds (tag (Out (Joining cfg 0)) (heads ++ [b]) ++ X) d k :=
          hk.perm (perm_snoc _)
        split_ifs
        · exact (safe_flushPrefetch hpos cpu cpus (heads ++ [b]) hk').bind fun _ k hk => ih [] hk
        · exact ih _ hk'

/-- `blks_ctx_flush_dontneed`. -/
theorem safe_flushDontneed (cpu : ℤ) (heads : List ℕ)
    (hk : Holds (tag (Out (Leaving .transAl)) heads ++ X) d h) :
    Safe (Inv (A := A) cfg) a (fun _ k => Holds X d k) (flushDontneed cpu heads) h :=
  (safe_addGpasToInactive cpu heads hk).bind fun _ _ hk => safe_unlockBlocks _ hk

/-- `emp_blk_move_to_inactive`. -/
theorem safe_empBlkMoveToInactive (cpu : ℤ) (bs heads : List ℕ)
    (hk : Holds (tag (Out (Leaving .transAl)) heads ++ X) d h) :
    Safe (Inv cfg) a (fun _ k => Holds X d k) (empBlkMoveToInactive a cpu bs heads) h := by
  induction bs generalizing heads h with
  | nil => exact safe_flushDontneed cpu heads hk
  | cons b bs ih =>
    refine (safe_trylockBlock b hk).bind fun ok k hk => ?_
    cases ok with
    | false => exact ih heads hk
    | true =>
      rw [if_pos rfl]
      refine (safe_lookAt (f := fun g => g) hk).bind fun g₀ k hk => ?_
      have hback : Holds (tag (fun o => Back cfg o ∧ o.gpa = g₀) [b] ++
        (tag (Out (Leaving .transAl)) heads ++ X)) d k := hk
      by_cases hprefetched : g₀.prefetched = true
      · rw [if_pos hprefetched]
        exact (safe_releaseBack (hback.weaken fun o ho => ho.1)).bind fun _ k hk => ih heads hk
      rw [if_neg hprefetched]
      have hwhole : Holds ((b, Whole cfg g₀.rState) ::
          (tag (Out (Leaving .transAl)) heads ++ X)) d k :=
        hback.weaken fun o ho => ⟨ho.1, by rw [ho.2]⟩
      refine Safe.bind (safe_mark (F := fun g => (g.setFlag .promote false).setFlag .pinned false)
        (fun g => (alike_setFlag _ _ (by decide)).trans (alike_setFlag _ _ (by decide)))
        stable_whole hwhole) fun _ k hk => ?_
      refine Safe.bind (Q := fun _ k' => k' = k) (safe_ask fun _ => rfl) fun acquired k' hk' => ?_
      subst hk'
      have hmarked : Holds (tag (Whole cfg g₀.rState) [b] ++
        (tag (Out (Leaving .transAl)) heads ++ X)) d k' := hk
      by_cases hactive : g₀.rState = .active ∧ acquired = true
      · rw [if_pos hactive]
        refine (safe_removeGpaFromLru (Or.inl hactive.1) hk).bind fun _ k hk => ?_
        refine Safe.bind (Q := fun _ k => Holds ((b, Out (Leaving .transAl)) ::
          (tag (Out (Leaving .transAl)) heads ++ X)) d k) ?_ fun _ k hk => ?_
        · rw [hactive.1] at hk
          refine safe_become (F := fun g => { g with rState := .transAl })
            (G := fun o => ⟨o.placed, { o.gpa with rState := .transAl }⟩) (fun _ => rfl)
            (fun o ho => ?_) (fun o ho => ⟨ho.1, ho.2.on, ho.2.flag, rfl⟩) (fun o c ho => ?_) hk
          · simp [Owned.home, ho.1]
          · simp [Owned.weight, Owned.counted, Owned.home, ho.1, ho.2.state]
        · have hk' : Holds (tag (Out (Leaving .transAl)) (heads ++ [b]) ++ X) d k :=
            hk.perm (perm_snoc _)
          split_ifs
          · exact (safe_flushDontneed cpu (heads ++ [b]) hk').bind fun _ k hk => ih [] hk
          · exact ih _ hk'
      · rw [if_neg hactive]
        exact (safe_releaseBack (hmarked.weaken fun o ho => ho.1)).bind fun _ k hk => ih heads hk

/-! ### All calls -/

/-- The program of a call leaves its thread with an empty hand. -/
theorem Call.safe (hpos : ∀ b, 0 < cfg.blockSize b) (a : A) (c : Call) :
    Safe (Inv cfg) a (fun _ h => h = Hand.empty) (c.body a) Hand.empty := by
  have hall : Safe (Inv cfg) a (fun _ h => Holds [] 0 h) (c.body a) Hand.empty := by
    cases c with
    | fault cpu cpus pressure b => exact safe_empPageFault hpos cpu cpus pressure b holds_empty
    | reclaim cpu cpus pressure =>
      exact (safe_reclaimEmpPages hpos cpu cpus pressure holds_empty).bind
        fun _ h hk => safe_ret hk
    | close cpu b kept orphan => exact safe_closeBlock cpu b kept orphan holds_empty
    | pin bs => exact safe_empMadvPin bs holds_empty
    | unpin cpu bs => exact safe_empMadvUnpin cpu bs [] (holds_empty.owes (by simp))
    | prefetch cpu cpus bs => exact safe_empBlkPrefetch hpos cpu cpus bs [] holds_empty
    | moveToInactive cpu bs => exact safe_empBlkMoveToInactive cpu bs [] holds_empty
  exact hall.mono fun _ h hk => hk.eq_empty

end Slru

end Emp
