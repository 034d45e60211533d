import Emp.Evict.Victims

/-!
# The selection of victims, and the update as a whole

A scan takes blocks off an inactive list.  The victims stay in hand, the pinned and the promoted
ones go to their lists, so that after the scan exactly the victims are in hand.  With what
the eviction does to blocks in hand this settles the update: it leaves every piece accounted for
and every lock released exactly if no piece fails.

## Main definitions

* `InactiveSys.victims`, `InactiveSys.selected` — what the update selects.
-/

namespace Emp

namespace InactiveSys

variable {s t u : InactiveSys} {l : UpdateLuck} {v c : ℕ} {q q' : List ℕ}

theorem accounts_perm (h : s.Accounts q) (hp : q.Perm q') : s.Accounts q' := by
  refine ⟨fun d => (h.lock d).trans hp.mem_iff, h.stray, hp.nodup_iff.mp h.nodup,
    fun p hm => h.hand p (hp.mem_iff.mpr hm), h.listed, h.inactive, h.inactiveNodup,
    fun p hm => ?_, fun k => ?_⟩
  · obtain ⟨hle, hin⟩ := h.apart p (hm.imp_left hp.mem_iff.mpr)
    exact ⟨hle, fun d hd hdp => (hin d hd hdp).imp_left (mt hp.mem_iff.mpr)⟩
  · rw [h.balanced k, (hp.map s.blockSize).sum_eq]

/-! ## Taking a block off its list -/

/-- A block that is taken off its list and kept. -/
structure Takes (s t : InactiveSys) (v c : ℕ) : Prop where
  sbPages : t.sbPages = s.sbPages
  numDescs : t.numDescs = s.numDescs
  pageLen : t.pageLen = s.pageLen
  stray : t.stray = s.stray
  inactive : t.inactive = Function.update s.inactive c ((s.inactive c).erase v)
  rest : ∀ d, d ≠ v → t.gpa d = s.gpa d
  descOrder : (t.gpa v).descOrder = (s.gpa v).descOrder
  list : (t.gpa v).list = none
  lock : (t.gpa v).lock = true
  rState : (t.gpa v).rState ≠ .init

theorem accounts_of_takes (h : s.Accounts q) (hlist : (s.gpa v).list = some (.inactive c))
    (ht : Takes s t v c) : t.Accounts (v :: q) := by
  have hhead : (s.gpa v).list ≠ none := by
    rw [hlist]
    exact nofun
  have hnotin : v ∉ q := fun hm => hhead (h.hand v hm).1
  have horder : ∀ d, (t.gpa d).descOrder = (s.gpa d).descOrder := by
    intro d
    by_cases hd : d = v
    · exact hd ▸ ht.descOrder
    · rw [ht.rest d hd]
  have hnum : ∀ d, t.numSubblock d = s.numSubblock d := fun d =>
    numSubblock_of_descOrder (horder d)
  refine ⟨fun d => ?_, ht.stray.trans h.stray, List.nodup_cons.mpr ⟨hnotin, h.nodup⟩,
    fun p hp => ?_, fun p hp => ?_, fun e d => ?_, fun e => ?_, fun p hp => ?_, fun k => ?_⟩
  · by_cases hd : d = v
    · subst hd
      simp [ht.lock]
    · rw [ht.rest d hd, h.lock d]
      simp [hd]
  · rcases List.mem_cons.mp hp with rfl | hp
    · exact ⟨ht.list, ht.rState⟩
    · rw [ht.rest p fun he => hnotin (he ▸ hp)]
      exact h.hand p hp
  · have hne : p ≠ v := fun he => hp (he ▸ ht.list)
    rw [ht.rest p hne] at hp ⊢
    exact h.listed p hp
  · rw [ht.inactive]
    by_cases hd : d = v
    · subst hd
      rw [ht.list]
      simp only [reduceCtorEq, iff_false]
      by_cases he : e = c
      · rw [he, Function.update_self]
        exact (h.inactiveNodup c).not_mem_erase
      · rw [Function.update_of_ne he, h.inactive e d, hlist]
        simp [Ne.symm he]
    · rw [ht.rest d hd, ← h.inactive e d]
      by_cases he : e = c
      · rw [he, Function.update_self, List.mem_erase_of_ne hd]
      · rw [Function.update_of_ne he]
  · rw [ht.inactive]
    by_cases he : e = c
    · rw [he, Function.update_self]
      exact (h.inactiveNodup c).erase v
    · rw [Function.update_of_ne he]
      exact h.inactiveNodup e
  · have hold : p ∈ q ∨ (s.gpa p).list ≠ none := by
      by_cases hpv : p = v
      · exact .inr (hpv ▸ hhead)
      · rw [ht.rest p hpv, List.mem_cons] at hp
        exact hp.imp_left fun hm => hm.resolve_left hpv
    obtain ⟨hle, hin⟩ := h.apart p hold
    rw [hnum, ht.numDescs]
    refine ⟨hle, fun d hd hdp => ?_⟩
    rw [InBlock, hnum] at hd
    obtain ⟨hdq, hdl⟩ := hin d hd hdp
    have hdv : d ≠ v := fun he => hhead (he ▸ hdl)
    rw [ht.rest d hdv, List.mem_cons]
    exact ⟨fun hm => hdq (hm.resolve_left hdv), hdl⟩
  · have hv : v < s.numDescs := Nat.lt_of_lt_of_le inBlock_self.2 (h.apart v (.inr hhead)).1
    have hsize : ∀ d, t.blockSize d = s.blockSize d := fun d => by
      rw [blockSize, blockSize, horder d, ht.sbPages]
    have hpages : ∀ d, d ≠ v → (t.gpa d).pages t.sbPages k = (s.gpa d).pages s.sbPages k :=
      fun d hd => by rw [ht.rest d hd, ht.sbPages]
    have hzero : (t.gpa v).pages t.sbPages k = 0 := by
      simp [LruGpa.pages, ht.list]
    have hold : (s.gpa v).pages s.sbPages k = if k = .inactive then s.blockSize v else 0 := by
      simp [LruGpa.pages, hlist, LruList.countedBy, blockSize]
    rw [ht.pageLen, h.balanced k, ht.numDescs, tally_change hv fun d _ hd => hpages d hd, hzero,
      hold, List.map_cons, List.sum_cons, hsize v, List.map_congr_left fun d _ => hsize d]
    by_cases hk : k = .inactive
    · simp only [if_pos hk]
      ring
    · simp [hk]

/-! ## The scan of one list -/

/-- The blocks that a scan has in hand. -/
def Scan.hand (x : Scan) : List ℕ := x.vs ++ x.toPin ++ x.toPromote

theorem takes_delist (hstate : (s.gpa v).rState ≠ .init) : Takes s ((s.lock v).delist v c) v c := by
  have hself : ((s.lock v).delist v c).gpa v = { s.gpa v with lock := true, list := none } := by
    simp [delist, lock, setGpa]
  refine ⟨rfl, rfl, rfl, rfl, rfl, fun d hd => ?_, by rw [hself], by rw [hself], by rw [hself],
    by rwa [hself]⟩
  simp [delist, lock, setGpa, hd]

/-- Other fields of the block change with it. -/
theorem takes_setGpa {g : LruGpa} (ht : Takes s t v c)
    (hg : g.descOrder = (t.gpa v).descOrder ∧ g.list = none ∧ g.lock = true ∧ g.rState ≠ .init) :
    Takes s (t.setGpa v g) v c := by
  refine ⟨ht.sbPages, ht.numDescs, ht.pageLen, ht.stray, ht.inactive, fun d hd => ?_, ?_, ?_,
    ?_, ?_⟩
  · rw [gpa_setGpa_of_ne hd, ht.rest d hd]
  · rw [gpa_setGpa_self, hg.1, ht.descOrder]
  · rw [gpa_setGpa_self, hg.2.1]
  · rw [gpa_setGpa_self, hg.2.2.1]
  · rw [gpa_setGpa_self]
    exact hg.2.2.2

theorem unlock_lock (h : (s.gpa v).lock = false) : (s.lock v).unlock v = s := by
  have hgpa : Function.update (Function.update s.gpa v { s.gpa v with lock := true }) v
      { s.gpa v with lock := false } = s.gpa := by
    rw [Function.update_idem, ← h, Function.update_eq_self]
  simp [unlock, lock, setGpa, hgpa]

theorem delist_setGpa (g : LruGpa) :
    (s.setGpa v g).delist v c = (s.delist v c).setGpa v { g with list := none } := by
  simp [delist, setGpa]

/-- A turn of the scan. -/
theorem accounts_scanBlock {x : Scan} (h : x.sys.Accounts (q ++ x.hand))
    (hlist : (x.sys.gpa v).list = some (.inactive c)) :
    (scanBlock c v x).sys.Accounts (q ++ (scanBlock c v x).hand) ∧
      ∀ d, d ≠ v → (scanBlock c v x).sys.gpa d = x.sys.gpa d := by
  have hstate : (x.sys.gpa v).rState = .inactive := by
    have hplaced := h.listed v (by rw [hlist]; exact Option.some_ne_none _)
    simpa only [LruGpa.Placed, hlist] using hplaced
  have htake := takes_delist (s := x.sys) (v := v) (c := c) (by simp [hstate])
  have hself : (x.sys.lock v).gpa v = { x.sys.gpa v with lock := true } := gpa_setGpa_self
  -- wherever the block goes, it is one more in hand
  have hgo : ∀ {r : InactiveSys} {hand : List ℕ}, Takes x.sys r v c →
      (v :: (q ++ x.hand)).Perm (q ++ hand) →
      r.Accounts (q ++ hand) ∧ ∀ d, d ≠ v → r.gpa d = x.sys.gpa d := fun ht hp =>
    ⟨accounts_perm (accounts_of_takes h hlist ht) hp, ht.rest⟩
  simp only [scanBlock]
  by_cases hpin : ((x.sys.lock v).gpa v).flags .pinned = true
  · rw [if_pos hpin]
    refine hgo htake (List.perm_iff_count.mpr fun a => ?_)
    simp only [Scan.hand, List.count_cons, List.count_append, List.count_nil]
    omega
  · rw [if_neg hpin]
    by_cases hpromote : ((x.sys.lock v).gpa v).flags .promote = true
    · rw [if_pos hpromote]
      refine hgo (r := ((x.sys.lock v).setGpa v _).delist v c) ?_
        (List.perm_iff_count.mpr fun a => ?_)
      · rw [delist_setGpa]
        refine takes_setGpa htake ⟨?_, rfl, ?_, ?_⟩
        · rw [htake.descOrder, hself]
          rfl
        · rw [hself]
          rfl
        · rw [hself]
          show (x.sys.gpa v).rState ≠ .init
          simp [hstate]
      · simp only [Scan.hand, List.count_cons, List.count_append, List.count_nil]
        omega
    · rw [if_neg hpromote]
      by_cases hfree : (x.sys.lock v).checkBlockFree v = true
      · rw [if_pos hfree]
        refine hgo (takes_setGpa htake ⟨rfl, htake.list, htake.lock, by simp⟩)
          (List.perm_iff_count.mpr fun a => ?_)
        simp only [Scan.hand, List.count_cons, List.count_append, List.count_nil]
        omega
      · rw [if_neg hfree]
        have hlock : (x.sys.gpa v).lock = false := by
          rw [Bool.eq_false_iff, ne_eq, h.lock v]
          intro hm
          have hnone := (h.hand v hm).1
          rw [hlist] at hnone
          cases hnone
        show ((x.sys.lock v).unlock v).Accounts _ ∧ _
        rw [unlock_lock hlock]
        exact ⟨h, fun _ _ => rfl⟩

/-- The scan of the blocks `rest` of the list. -/
theorem accounts_scanList (vsLen : ℕ) {rest : List ℕ} {x : Scan} (hnodup : rest.Nodup)
    (h : x.sys.Accounts (q ++ x.hand))
    (hlist : ∀ v ∈ rest, (x.sys.gpa v).list = some (.inactive c)) :
    (scanList l c vsLen rest x).sys.Accounts (q ++ (scanList l c vsLen rest x).hand) := by
  induction rest generalizing x with
  | nil => exact h
  | cons v rest ih =>
      obtain ⟨hnotin, hrest⟩ := List.nodup_cons.mp hnodup
      simp only [scanList]
      by_cases hbusy : l.busy v = true
      · rw [if_pos hbusy]
        exact ih hrest h fun w hw => hlist w (List.mem_cons_of_mem v hw)
      · rw [if_neg hbusy]
        obtain ⟨hacc, hother⟩ := accounts_scanBlock h (hlist v List.mem_cons_self)
        split
        · exact hacc
        · refine ih hrest hacc fun w hw => ?_
          rw [hother w fun he => hnotin (he ▸ hw)]
          exact hlist w (List.mem_cons_of_mem v hw)

/-! ## The pinned and the promoted blocks -/

theorem pageLen_addPageLen (s : InactiveSys) (j k : PageLen) (n : ℤ) :
    (s.addPageLen j n).pageLen k = s.pageLen k + if k = j then n else 0 := by
  by_cases hk : k = j
  · subst hk
    simp [addPageLen]
  · simp [addPageLen, hk]

/-- A block in hand that becomes active on the list `L`. -/
theorem settles_active {L : LruList} {g : LruGpa} (hq : Quiet s t v)
    (hL : L = .pin c ∨ L = .proactive c) (hg : g.descOrder = (t.gpa v).descOrder ∧
      g.lock = (t.gpa v).lock ∧ g.list = some L ∧ g.rState = .active)
    (hu : u.config = t.config ∧ u.sbPages = t.sbPages ∧ u.numDescs = t.numDescs ∧
      u.inactive = t.inactive ∧ u.stray = t.stray ∧ u.gpa = Function.update t.gpa v g)
    (hlen : ∀ k, u.pageLen k = s.pageLen k - (if k = .inactive then s.blockSize v else 0) +
      if L.countedBy k then s.blockSize v else 0) : Settles s (u.unlock v) v := by
  obtain ⟨hconfig, hsb, hnum, hin, hstray, hgpa⟩ := hu
  have hself : u.gpa v = g := by
    rw [hgpa, Function.update_self]
  have hrest : ∀ d, d ≠ v → u.gpa d = t.gpa d := fun d hd => by
    rw [hgpa, Function.update_of_ne hd]
  refine settles_unlock hq (hstray.trans hq.stray)
    ⟨hconfig, hsb, hnum, hin, fun d hd => hrest d fun he => hd (he ▸ inBlock_self)⟩
    (fun d => ?_) ?_ (fun c' => ?_) fun k => ?_
  · by_cases hd : d = v
    · subst hd
      rw [hself]
      exact ⟨hg.1, hg.2.1, fun hne => absurd rfl hne⟩
    · rw [hrest d hd]
      exact ⟨rfl, rfl, fun _ => rfl⟩
  · rw [hself, LruGpa.Placed, hg.2.2.1]
    rcases hL with rfl | rfl <;> exact hg.2.2.2
  · rw [hself, hg.2.2.1]
    rcases hL with rfl | rfl <;> simp
  · rw [hself, hlen k, LruGpa.pages, hg.2.2.1, hg.1, (hq.same v).1, blockSize, Option.any_some]
    ring

theorem blockSize_setGpa {g : LruGpa} (hg : g.descOrder = (s.gpa v).descOrder) :
    (s.setGpa v g).blockSize v = s.blockSize v := by
  rw [blockSize, gpa_setGpa_self, hg]
  rfl

theorem accounts_moveToPinList (h : s.Accounts (v :: q)) : (moveToPinList c s v).Accounts q := by
  refine accounts_of_settles h (settles_active (L := .pin c) (g := (s.gpa v).moveToPinList c)
    (Quiet.refl s v) (.inl rfl) ⟨rfl, rfl, rfl, rfl⟩ ⟨rfl, rfl, rfl, rfl, rfl, rfl⟩ fun k => ?_)
  rw [pageLen_addPageLen, pageLen_addPageLen, blockSize_setGpa (by rfl)]
  show (s.addPageLen .inactive (-s.blockSize v)).pageLen k + _ + _ = _
  rw [pageLen_addPageLen]
  cases k <;> simp [LruList.countedBy, blockSize, addPageLen]
  ring

theorem accounts_promoteGpas (h : s.Accounts (v :: q)) : (promoteGpas c s v).Accounts q := by
  have hcomm : (s.addPageLen .inactive (-s.blockSize v)).checkEagerWbr v =
      (s.checkEagerWbr v).addPageLen .inactive (-s.blockSize v) := by
    by_cases hw : (s.gpa v).flags .eagerWbr = true
    · have hs : s.checkEagerWbr v = _ := if_pos hw
      rw [hs]
      exact if_pos hw
    · have hs : s.checkEagerWbr v = s := if_neg hw
      rw [hs]
      exact if_neg hw
  have hq := quiet_checkEagerWbr s v
  have hsize : (s.checkEagerWbr v).blockSize v = s.blockSize v := by
    rw [blockSize, blockSize, (hq.same v).1, hq.only.sbPages]
  refine accounts_of_settles h ?_
  simp only [promoteGpas, hcomm]
  refine settles_active (L := .proactive c) (g := ((s.checkEagerWbr v).gpa v).promote c) hq
    (.inr rfl) ⟨rfl, rfl, rfl, rfl⟩ ⟨rfl, rfl, rfl, rfl, rfl, rfl⟩ fun k => ?_
  rw [pageLen_addPageLen, blockSize_setGpa (by rfl)]
  show ((s.checkEagerWbr v).addPageLen .inactive (-s.blockSize v)).pageLen k + _ = _
  rw [pageLen_addPageLen, hq.pageLen, show ((s.checkEagerWbr v).addPageLen .inactive
    (-s.blockSize v)).blockSize v = s.blockSize v from hsize]
  cases k <;> simp [LruList.countedBy]
  ring

/-- The blocks `ps` leave the hands one after the other. -/
theorem accounts_foldl {move : InactiveSys → ℕ → InactiveSys}
    (hmove : ∀ {s v q}, Accounts s (v :: q) → (move s v).Accounts q) (ps : List ℕ)
    (h : s.Accounts (ps ++ q)) : (ps.foldl move s).Accounts q := by
  induction ps generalizing s with
  | nil => exact h
  | cons p ps ih => exact ih (hmove h)

theorem accounts_selectVictimsInactiveList (vsLen : ℕ) (pressure : ℤ) (h : s.Accounts q) :
    (s.selectVictimsInactiveList l c vsLen pressure).sys.Accounts
      (q ++ (s.selectVictimsInactiveList l c vsLen pressure).vs) := by
  have hscan := accounts_scanList (q := q) (l := l) vsLen
    (x := ⟨s, [], [], [], pressure⟩) (h.inactiveNodup c) (by simpa [Scan.hand] using h)
    fun v hv => (h.inactive c v).mp hv
  refine accounts_foldl accounts_promoteGpas _ (accounts_foldl accounts_moveToPinList _
    (accounts_perm hscan (List.perm_iff_count.mpr fun a => ?_)))
  rw [show (s.selectVictimsInactiveList l c vsLen pressure).vs =
    (scanList l c vsLen (s.inactive c) ⟨s, [], [], [], pressure⟩).vs from rfl]
  simp only [Scan.hand, List.count_append]
  omega

theorem accounts_selectVictims {cpus : List ℕ} {hard soft : ℤ} {victims : List ℕ}
    (h : s.Accounts victims) : (selectVictims l cpus hard soft (s, victims)).1.Accounts
      (selectVictims l cpus hard soft (s, victims)).2 := by
  induction cpus generalizing s hard soft victims with
  | nil => exact h
  | cons c cpus ih =>
      simp only [selectVictims]
      split
      · exact ih h
      · have hone := accounts_selectVictimsInactiveList (l := l) (c := c)
          (numVictimCluster - victims.length) soft h
        split
        · exact hone
        · exact ih hone

/-! ## The update -/

/-- The state in which the eviction starts. -/
def selected (s : InactiveSys) (l : UpdateLuck) (cpus : List ℕ) (hard soft : ℤ) : InactiveSys :=
  (selectVictims l cpus hard soft (s, [])).1

/-- The victims. -/
def victims (s : InactiveSys) (l : UpdateLuck) (cpus : List ℕ) (hard soft : ℤ) : List ℕ :=
  (selectVictims l cpus hard soft (s, [])).2

/-- **An update leaves every victim and every piece of one on the list that its state names or
remote, and releases each lock once**, exactly if no piece that must be written back fails. -/
theorem updateInactiveList_iff (h : s.Accounts []) (cpu : ℕ) (cpus : List ℕ) (hard soft : ℤ) :
    (∃ t r, s.updateInactiveList l cpu cpus hard soft = some (t, r) ∧
      t.UpdateOk ((s.selected l cpus hard soft).heads l (s.victims l cpus hard soft))) ↔
      ∀ v ∈ s.victims l cpus hard soft, (s.selected l cpus hard soft).Writable l v := by
  have hacc : (s.selected l cpus hard soft).Accounts (s.victims l cpus hard soft) :=
    accounts_selectVictims h
  have hrun : s.updateInactiveList l cpu cpus hard soft =
      writebackVictims l cpu (s.victims l cpus hard soft) (s.selected l cpus hard soft) 0 := rfl
  rw [hrun]
  refine ⟨?_, fun hok => ?_⟩
  · rintro ⟨t, r, ht, hupdate⟩
    by_contra hno
    have hbad : ∃ v ∈ s.victims l cpus hard soft, ¬ (s.selected l cpus hard soft).Writable l v := by
      simpa only [not_forall, exists_prop] using hno
    rcases writebackVictims_fails cpu hacc hbad 0 with hnone | ⟨u, hu, p, hp, hlost⟩
    · rw [hnone] at ht
      cases ht
    · obtain ⟨rfl, -⟩ := Prod.mk.inj (Option.some.inj (hu.symm.trans ht))
      exact hlost (hupdate.placed p hp)
  · obtain ⟨t, r, ht, hdone, hplaced, -⟩ := writebackVictims_ok cpu hacc hok 0
    refine ⟨t, r, ht, fun d => ?_, hdone.stray, hplaced, fun k => ?_⟩
    · rw [Bool.eq_false_iff, ne_eq, hdone.lock d]
      exact List.not_mem_nil
    · rw [hdone.balanced k]
      simp

/-- Two subblocks on the list of cpu 0, one dirty block that nobody refers to. -/
def twoDirty : InactiveSys where
  config := ⟨false, true, false⟩
  sbPages := 4
  numDescs := 2
  gpa d := ⟨1, if d = 0 then .inactive else .init, fun f => f == .touched || f == .dirty,
    if d = 0 then some (.inactive 0) else none, false, true, false, true⟩
  inactive c := if c = 0 then [0] else []
  pageLen k := if k = .inactive then 8 else 0
  stray := false

/-- Nobody is in the way; remote pages can be had for the heads below `n`. -/
def pagesBelow (n : ℕ) : UpdateLuck :=
  ⟨fun _ => false, fun _ => false, fun _ => false,
    fun d => ⟨decide (d < n), fun _ => false, fun _ => 0, fun _ => false⟩⟩

theorem accounts_twoDirty : twoDirty.Accounts [] := by
  have hlist : ∀ p, (twoDirty.gpa p).list ≠ none → p = 0 := by
    intro p hp
    by_contra hne
    simp [twoDirty, hne] at hp
  refine ⟨fun d => by simp [twoDirty], rfl, List.nodup_nil, nofun, fun p hp => ?_, fun c d => ?_,
    fun c => ?_, fun p hp => ?_, fun k => ?_⟩
  · rw [hlist p hp]
    decide
  · by_cases hc : c = 0 <;> by_cases hd : d = 0 <;> simp [twoDirty, hc, hd, eq_comm]
  · by_cases hc : c = 0 <;> simp [twoDirty, hc]
  · obtain rfl := hlist p (hp.resolve_left List.not_mem_nil)
    refine ⟨by decide, fun d hd hne => ⟨List.not_mem_nil, ?_⟩⟩
    simp [twoDirty, hne]
  · cases k <;> decide

/-- Both pieces are written back. -/
theorem updateInactiveList_twoDirty :
    ∃ t r, twoDirty.updateInactiveList (pagesBelow 2) 0 [0] 8 8 = some (t, r) ∧
      t.UpdateOk ((twoDirty.selected (pagesBelow 2) [0] 8 8).heads (pagesBelow 2)
        (twoDirty.victims (pagesBelow 2) [0] 8 8)) := by
  refine (updateInactiveList_iff accounts_twoDirty 0 [0] 8 8).mpr fun v hv p hp hf => ?_
  have hpieces : (twoDirty.selected (pagesBelow 2) [0] 8 8).heads (pagesBelow 2)
      (twoDirty.victims (pagesBelow 2) [0] 8 8) = [0, 1] := by decide
  have hmem : p ∈ [0, 1] := hpieces ▸ mem_heads.mpr ⟨v, hv, hp⟩
  rcases hf.2 with halloc | ⟨i, -, hfail⟩
  · simp only [List.mem_cons, List.not_mem_nil, or_false] at hmem
    simp only [pagesBelow, decide_eq_false_iff_not] at halloc
    omega
  · cases hfail

/-- **The claim fails**: there is no remote page for the second piece.  The first one is unlocked
twice, and the second one stays in `GPA_TRANS_IL` on no list. -/
theorem not_updateInactiveList_twoDirty :
    ¬ ∃ t r, twoDirty.updateInactiveList (pagesBelow 1) 0 [0] 8 8 = some (t, r) ∧
      t.UpdateOk ((twoDirty.selected (pagesBelow 1) [0] 8 8).heads (pagesBelow 1)
        (twoDirty.victims (pagesBelow 1) [0] 8 8)) := by
  rintro ⟨t, r, ht, hok⟩
  have hstray : (twoDirty.updateInactiveList (pagesBelow 1) 0 [0] 8 8).all (·.1.stray) = true := by
    decide
  rw [ht, Option.all_some, hok.stray] at hstray
  cases hstray

end InactiveSys

end Emp
