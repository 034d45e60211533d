import Emp.LocalPage.Conserved

/-!
# The steps of the operations

Each operation keeps the pages accounted for, as long as it pushes no page that is not locked.

## Main definitions

* `PageSys.stepOk_run` — a step of a running operation.
-/

namespace Emp

namespace PageSys

variable {s s' : PageSys} {op g : ℕ} {p : ℕ} {ys : List ℕ} {luck : Luck}

/-! ### Attaching and giving up pages -/

/-- A page in the hands of the operation is attached to a descriptor. -/
theorem stepOk_attach {t : Task} (h : s.Sound) (hto : s.place (.toGlobal op) = [])
    (hv : (s.hand op).Vacant g) (hheld : s.place (.held op) = p :: ys)
    (ht : ((s.move (.held op) (.record g) [p] ys).hand op).Carries t) :
    s.StepOk ((s.move (.held op) (.record g) [p] ys).setTask op t) op := by
  obtain ⟨hlock, hnil, hwb, hfreed⟩ := vacant_iff.mp hv
  have hne : PagePlace.held op ≠ .record g := by simp
  have hown : s.Own op (.held op) := show _ = _ from rfl
  have hown' : s.Own op (.record g) := hlock
  have hto' : (s.move (.held op) (.record g) [p] ys).place (.toGlobal op) = [] :=
    (move_other (by simp) (by simp)).trans hto
  refine ⟨?_, (local_move hown hown').trans (local_setTask t),
    goes_of_carries (Function.update_self ..) hto' ht⟩
  · refine (sound_move h hne ?_ hwb.symm ?_ nofun).setTask t
    · rw [hheld, List.singleton_append]
    · intro g' hg'
      cases hg'
      exact ⟨hnil, le_rfl, hfreed⟩

/-- Blocks other than `g` look the same. -/
theorem block_move {c : PagePlace} {xs : List ℕ} {g' : ℕ} (hc : PagePlace.record g' ≠ c) (hne : g' ≠ g) :
    ((s.move c (.record g) xs ys).hand op).block g' = (s.hand op).block g' := by
  have hrecord : (s.move c (.record g) xs ys).place (.record g') = s.place (.record g') :=
    move_other hc (by simpa using hne)
  simp only [hand, hrecord]
  rfl

/-- What an operation sees after one of its descriptors has lost its page. -/
structure Dropped (s : PageSys) (op g : ℕ) (h : Hand) : Prop where
  held : h.held = s.place (.held op)
  pull : h.pull = s.place (.pull op)
  block : ∀ g', g' ≠ g → h.block g' = (s.hand op).block g'
  bare : h.Bare g

theorem Dropped.isSome {h : Hand} (hd : s.Dropped op g h) {g' : ℕ}
    (hg' : ((s.hand op).block g').isSome) : (h.block g').isSome := by
  by_cases heq : g' = g
  · obtain ⟨b, hb, -⟩ := hd.bare
    rw [heq, hb]
    rfl
  · rwa [hd.block g' heq]

theorem Dropped.empty {h : Hand} (hd : s.Dropped op g h) (he : (s.hand op).Empty) : h.Empty :=
  ⟨hd.held.trans he.1, hd.pull.trans he.2⟩

theorem dropped_handWithout (h : s.Sound) (hlock : s.lockedBy g = some op)
    (hplace : s.place (.record g) = p :: ys) : s.Dropped op g (s.handWithout op (.record g) ys) := by
  have hone := h.single g
  rw [hplace, List.length_cons] at hone
  have hnil : ys = [] := List.eq_nil_of_length_eq_zero (by omega)
  have hother : ∀ c, c ≠ .record g → Function.update s.place (.record g) ys c = s.place c :=
    fun c hc => Function.update_of_ne hc ..
  refine ⟨hother (.held op) (by simp), hother (.pull op) (by simp), fun g' hg' => ?_, ?_⟩
  · simp only [handWithout, hand, hother (.record g') (by simpa using hg')]
  · refine bare_iff.mpr ⟨hlock, ?_⟩
    exact (Function.update_self ..).trans hnil

/-- `free_gpa`. -/
theorem stepOk_freeGpa {cpu : Option ℕ} {next : Task} (h : s.Sound)
    (hto : s.place (.toGlobal op) = []) (hlock : s.lockedBy g = some op)
    (hnext : ∀ h', s.Dropped op g h' → h'.Carries next)
    (hs : s.freeGpa op cpu g luck next = some s') : s.StepOk s' op := by
  rw [freeGpa] at hs
  split at hs
  · rename_i hnil
    cases hs
    exact stepOk_setTask h hto (hnext _ ⟨rfl, rfl, fun _ _ => rfl, bare_iff.mpr ⟨hlock, hnil⟩⟩)
  · rename_i p ys hplace
    rw [Option.ite_none_left_eq_some] at hs
    obtain ⟨hunlocked, hs⟩ := hs
    cases hs
    have hwb : s.inWriteback g = false := by
      have hexpect := h.lock (c := .record g) (p := p) (hplace ▸ List.mem_cons_self ..)
      rw [← Bool.not_eq_true]
      exact fun hbusy => hunlocked (hexpect.trans hbusy)
    exact stepOk_pushFreePageList h (.inr ⟨g, rfl, hlock, hwb⟩) (by rw [hplace]) hto
      (hnext _ (dropped_handWithout h hlock hplace))

/-- `free_block_pages`. -/
theorem stepOk_freeBlockPages {cpu : ℕ} (h : s.Sound) (hto : s.place (.toGlobal op) = [])
    (hpull : s.place (.pull op) = []) (hs : s.freeBlockPages op cpu luck = some s') :
    s.StepOk s' op := by
  rw [freeBlockPages] at hs
  split at hs
  · rename_i hnil
    cases hs
    exact stepOk_setTask h hto ⟨hnil, hpull⟩
  · rename_i p ys hplace
    rw [Option.ite_none_left_eq_some] at hs
    obtain ⟨-, hs⟩ := hs
    cases hs
    have hpull' : Function.update s.place (.held op) ys (.pull op) = [] :=
      (Function.update_of_ne (by simp) ..).trans hpull
    exact stepOk_pushFreePageList h (.inl rfl) (by rw [hplace]) hto hpull'

/-! ### Fetches -/

/-- `fetch_subblock` that succeeds. -/
theorem stepOk_fetchSubblock {cpu : ℕ} {rest gpas : List ℕ} (h : s.Sound)
    (hto : s.place (.toGlobal op) = [])
    (hcarries : (s.hand op).Carries (.fetchBlock cpu (g :: rest) gpas)) (hok : luck.ok = true)
    (hs : s.fetchSubblock op cpu g rest gpas luck = some s') : s.StepOk s' op := by
  obtain ⟨hpull, hlen, hnodup, hvacant⟩ := hcarries
  obtain ⟨hg, hrest⟩ := List.nodup_cons.mp hnodup
  simp only [fetchSubblock, hok, if_true] at hs
  split at hs
  · cases hs
  · rename_i p ys hheld
    cases hs
    refine stepOk_attach h hto (hvacant g (List.mem_cons_self ..)) hheld ?_
    have hheld' : (s.move (.held op) (.record g) [p] ys).place (.held op) = ys := move_source (by simp)
    have hpull' : (s.move (.held op) (.record g) [p] ys).place (.pull op) = [] :=
      (move_other (by simp) (by simp)).trans hpull
    have hlen' : ys.length = rest.length := by
      have hheld : (s.hand op).held = p :: ys := hheld
      rw [hheld, List.length_cons, List.length_cons] at hlen
      omega
    split_ifs with hlast
    · rw [hlast, List.length_nil] at hlen'
      exact ⟨hheld'.trans (List.eq_nil_of_length_eq_zero hlen'), hpull'⟩
    · refine ⟨hpull', (congrArg List.length hheld').trans hlen', hrest, fun g' hg' => ?_⟩
      have hne : g' ≠ g := fun heq => hg (heq ▸ hg')
      rw [Hand.Vacant, block_move (by simp) hne]
      exact hvacant g' (List.mem_cons_of_mem _ hg')

/-! ### Copy-on-write faults -/

/-- The rest of a fault, with its descriptors as they were. -/
theorem copies_rest {job job' : CowJob} (hc : (s.hand op).Copies job) (hlock : s'.lockedBy = s.lockedBy)
    (hwb : s'.inWriteback = s.inWriteback) (hfreed : s'.freed = s.freed)
    (hrecord : ∀ g ∈ job'.rest.flatMap CowBlock.news, s'.place (.record g) = s.place (.record g))
    (hgroup : job'.group = job.group)
    (hnews : (job'.rest.flatMap CowBlock.news).Sublist (job.rest.flatMap CowBlock.news))
    (holds : (job'.rest.flatMap CowBlock.olds).Sublist (job.rest.flatMap CowBlock.olds)) :
    (s'.hand op).Copies job' := by
  refine ⟨fun g hg => ?_, hc.nodup.sublist hnews, fun g hg => ?_, fun g hg => ?_⟩
  · rw [isSome_block, hlock, ← isSome_block]
    exact hc.group g (hgroup ▸ hg)
  · obtain ⟨hmem, hv⟩ := hc.vacant g (hnews.subset hg)
    rw [vacant_iff] at hv
    rw [vacant_iff, hlock, hwb, hfreed, hrecord g hg, hgroup]
    exact ⟨hmem, hv⟩
  · obtain ⟨hno, b, hb, hquiet⟩ := hc.olds g (holds.subset hg)
    obtain ⟨hl, rfl⟩ := block_eq_some.mp hb
    rw [hgroup]
    refine ⟨hno, _, block_eq_some.mpr ⟨hlock ▸ hl, rfl⟩, ?_⟩
    rw [hwb]
    exact hquiet

theorem copies_tail {job : CowJob} {b : CowBlock} {bs : List CowBlock}
    (hc : (s.hand op).Copies job) (hrest : job.rest = b :: bs) :
    (s.hand op).Copies { job with rest := bs } := by
  refine copies_rest hc rfl rfl rfl (fun _ _ => rfl) rfl ?_ ?_
  · rw [hrest, List.flatMap_cons]
    exact List.sublist_append_right _ _
  · rw [hrest, List.flatMap_cons]
    exact List.sublist_append_right _ _

/-- `dup_cow_gpadesc`; a fault that fails has no page on its new descriptors. -/
theorem carries_dupCowGpadesc {job : CowJob} (he : (s.hand op).Empty) (hc : (s.hand op).Copies job)
    (hok : luck.ok = true ∨ (∀ g ∈ job.group, s.place (.record g) = []) ∨
      ∃ pairs bs, job.rest = .handoff pairs :: bs) :
    (s.hand op).Carries (dupCowGpadesc job luck) := by
  have hbare : luck.ok = false → (¬ ∃ pairs bs, job.rest = .handoff pairs :: bs) →
      ∀ g ∈ job.group, (s.hand op).Bare g := by
    intro hfail hno g hg
    refine bare_iff.mpr ⟨isSome_block.mp (hc.group g hg), ?_⟩
    exact ((hok.resolve_left (by simp [hfail])).resolve_right hno) g hg
  rw [dupCowGpadesc]
  split
  · exact he
  · rename_i bs hrest
    cases hluck : luck.ok with
    | true => exact ⟨he, copies_tail hc hrest⟩
    | false => exact ⟨he, hbare hluck (by simp [hrest])⟩
  · rename_i pairs bs hrest
    cases hluck : luck.ok with
    | true =>
        refine ⟨he, copies_rest hc rfl rfl rfl (fun _ _ => rfl) rfl ?_ ?_⟩
        · rw [hrest]
        · rw [hrest]
    | false =>
        refine ⟨he, copies_rest hc rfl rfl rfl (fun _ _ => rfl) rfl ?_ ?_⟩
        · rw [hrest]
          exact List.Sublist.refl _
        · rw [hrest]
          exact List.sublist_append_right _ _
  · rename_i news bs hrest
    cases hluck : luck.ok with
    | true =>
        simp only [if_true]
        split_ifs with hnil
        · exact ⟨he, copies_tail hc hrest⟩
        · refine ⟨fun _ => he.2, he.1, hnil, List.forall_mem_nil _, ?_⟩
          refine copies_rest hc rfl rfl rfl (fun _ _ => rfl) rfl ?_ ?_
          · rw [hrest]
          · rw [hrest]
    | false => exact ⟨he, hbare hluck (by simp [hrest])⟩

/-- `dup_block_local_page` that succeeds for `g`. -/
theorem stepOk_dupBlockLocalPage {rest done : List ℕ} {job : CowJob} (h : s.Sound)
    (hto : s.place (.toGlobal op) = [])
    (hcarries : (s.hand op).Carries (.dupLocalPage (g :: rest) done job)) (hok : luck.ok = true)
    (hs : s.dupBlockLocalPage op g rest done job luck = some s') : s.StepOk s' op := by
  obtain ⟨hpull, hlen, -, hcopied, hc⟩ := hcarries
  simp only [dupBlockLocalPage, hok, if_true] at hs
  split at hs
  · cases hs
  · rename_i p ys hheld
    cases hs
    obtain ⟨hmem, hv⟩ := hc.vacant g (by simp [CowBlock.news])
    have hnil : ys = [] := by
      have hheld : (s.hand op).held = p :: ys := hheld
      rw [hheld, List.length_cons] at hlen
      exact List.eq_nil_of_length_eq_zero (by omega)
    refine stepOk_attach h hto hv hheld ?_
    have hheld' : (s.move (.held op) (.record g) [p] ys).place (.held op) = [] :=
      (move_source (by simp)).trans hnil
    have hpull' : (s.move (.held op) (.record g) [p] ys).place (.pull op) = [] :=
      (move_other (by simp) (by simp)).trans hpull
    -- the descriptors to come are not `g`
    have hcopies : ((s.move (.held op) (.record g) [p] ys).hand op).Copies
        { job with rest := .copy rest :: job.rest } := by
      have hnodup := hc.nodup
      simp only [List.flatMap_cons, CowBlock.news, List.cons_append, List.nodup_cons] at hnodup
      refine copies_rest hc rfl rfl rfl (fun g' hg' => move_other (by simp) ?_) rfl ?_ ?_
      · intro heq
        cases heq
        exact hnodup.1 hg'
      · simp only [List.flatMap_cons, CowBlock.news, List.cons_append]
        exact List.sublist_cons_self _ _
      · exact List.Sublist.refl _
    split_ifs with hlast
    · have hjob := copies_tail hcopies rfl
      exact ⟨⟨hheld', hpull'⟩, hjob⟩
    · refine ⟨fun _ => hpull', hheld', hlast, fun g' hg' => ?_, hcopies⟩
      have hpage : (s.move (.held op) (.record g) [p] ys).place (.record g) ≠ [] := by
        rw [move_target]
        simp
      by_cases heq : g' = g
      · subst heq
        exact ⟨hmem, fun hb => hpage (bare_iff.mp hb).2⟩
      · have hold := hcopied g' (by simpa [heq] using hg')
        rwa [Hand.Bare, block_move (by simp) heq]

/-- One subblock is handed over. -/
theorem stepOk_handoff {old new : ℕ} {rest : List (ℕ × ℕ)} {job : CowJob} (h : s.Sound)
    (hto : s.place (.toGlobal op) = [])
    (hcarries : (s.hand op).Carries (.handoff ((old, new) :: rest) job)) :
    s.StepOk ((s.move (.record old) (.record new) (s.place (.record old)) []).setTask op
      (.handoff rest job)) op := by
  obtain ⟨he, hc⟩ := hcarries
  obtain ⟨hmem, hv⟩ := hc.vacant new (by simp [CowBlock.news])
  obtain ⟨hno, b, hb, hquiet⟩ := hc.olds old (by simp [CowBlock.olds])
  obtain ⟨hlock, hnil, hwb, hfreed⟩ := vacant_iff.mp hv
  obtain ⟨hlockOld, rfl⟩ := block_eq_some.mp hb
  have hne : PagePlace.record old ≠ .record new := by
    intro heq
    cases heq
    exact hno hmem
  have hown : s.Own op (.record old) := hlockOld
  have hown' : s.Own op (.record new) := hlock
  have hother : ∀ c, c ≠ .record old → c ≠ .record new →
      (s.move (.record old) (.record new) (s.place (.record old)) []).place c = s.place c :=
    fun _ => move_other
  refine ⟨?_, (local_move hown hown').trans (local_setTask _), ?_⟩
  · refine (sound_move h hne (by rw [List.append_nil]) (hquiet.trans hwb.symm) ?_ ?_).setTask _
    · intro g' hg'
      cases hg'
      exact ⟨hnil, h.single old, hfreed⟩
    · intro g' hg'
      cases hg'
      exact hquiet
  · refine goes_of_carries (Function.update_self ..) ((hother _ (by simp) (by simp)).trans hto) ?_
    refine ⟨⟨(hother (.held op) (by simp) (by simp)).trans he.1,
      (hother (.pull op) (by simp) (by simp)).trans he.2⟩, ?_⟩
    have hnodup := hc.nodup
    simp only [List.flatMap_cons, CowBlock.news, List.map_cons, List.cons_append,
      List.nodup_cons] at hnodup
    refine copies_rest hc rfl rfl rfl (fun g' hg' => hother _ ?_ ?_) rfl ?_ ?_
    · intro heq
      cases heq
      refine hno (hc.vacant old ?_).1
      simp only [List.flatMap_cons, CowBlock.news, List.map_cons, List.cons_append]
      exact List.mem_cons_of_mem _ hg'
    · intro heq
      cases heq
      exact hnodup.1 hg'
    · simp only [List.flatMap_cons, CowBlock.news, List.map_cons, List.cons_append]
      exact List.sublist_cons_self _ _
    · simp only [List.flatMap_cons, CowBlock.olds, List.map_cons, List.cons_append]
      exact List.sublist_cons_self _ _

/-! ### Writebacks -/

/-- The page of a descriptor is locked for a writeback, or unlocked after it. -/
def relock (s : PageSys) (g p : ℕ) (b : Bool) : PageSys :=
  { s with
    pageLocked := Function.update s.pageLocked p b
    inWriteback := Function.update s.inWriteback g b }

theorem sound_relockRecord (h : s.Sound) (hplace : s.place (.record g) = p :: ys) (b : Bool) :
    (s.relock g p b).Sound := by
  have hone := h.single g
  rw [hplace, List.length_cons] at hone
  have hnil : ys = [] := List.eq_nil_of_length_eq_zero (by omega)
  refine ⟨h.count, h.partition, h.single, fun {c q} hq => ?_, h.unlocked, h.freed, fun g' hg' => ?_⟩
  · have hq : q ∈ s.place c := hq
    by_cases hc : c = .record g
    · subst hc
      rw [hplace, hnil, List.mem_singleton] at hq
      subst hq
      have hexpect : (s.relock g q b).expect (.record g) = b := Function.update_self ..
      exact (Function.update_self ..).trans hexpect.symm
    · have hne : q ≠ p := fun heq => hc (h.partition.apart (heq ▸ hq) (hplace ▸ List.mem_cons_self ..))
      refine (Function.update_of_ne hne ..).trans ((h.lock hq).trans ?_)
      cases c with
      | record g' => exact (Function.update_of_ne (fun heq : g' = g => hc (by rw [heq])) ..).symm
      | _ => rfl
  · by_cases heq : g' = g
    · subst heq
      change s.place (.record g') ≠ []
      rw [hplace]
      simp
    · have hold : Function.update s.inWriteback g b g' = true := hg'
      rw [Function.update_of_ne heq] at hold
      exact h.writeback g' hold

theorem local_relock (hlock : s.lockedBy g = some op) (b : Bool) :
    s.Local (s.relock g p b) op := by
  refine ⟨fun _ _ => rfl, rfl, fun g' hg' => ⟨Function.update_of_ne ?_ .., rfl⟩, fun _ _ => rfl⟩
  rintro rfl
  exact hg' hlock

theorem stepOk_relock {t : Task} {b : Bool} (h : s.Sound) (hto : s.place (.toGlobal op) = [])
    (hlock : s.lockedBy g = some op) (hplace : s.place (.record g) = p :: ys)
    (ht : ((s.relock g p b).hand op).Carries t) : s.StepOk ((s.relock g p b).setTask op t) op :=
  ⟨(sound_relockRecord h hplace b).setTask t, (local_relock hlock b).trans (local_setTask t),
    goes_of_carries (Function.update_self ..) hto ht⟩

/-- Other descriptors stay in writeback. -/
theorem busy_relock {g' : ℕ} {b : Bool} (hne : g' ≠ g) (hbusy : (s.hand op).Busy g') :
    ((s.relock g p b).hand op).Busy g' := by
  obtain ⟨hlock, hwb⟩ := busy_iff.mp hbusy
  exact busy_iff.mpr ⟨hlock, (Function.update_of_ne hne ..).trans hwb⟩

/-- `evict_block`, one subblock. -/
theorem stepOk_evictBlock {rest done : List ℕ} (h : s.Sound) (hto : s.place (.toGlobal op) = [])
    (hcarries : (s.hand op).Carries (.evictBlock (g :: rest) done))
    (hs : s.evictBlock op g rest done luck = some s') : s.StepOk s' op := by
  obtain ⟨he, htodo, hnodup, hbusy⟩ := hcarries
  have hlock := isSome_block.mp (htodo g (List.mem_cons_self ..))
  simp only [evictBlock] at hs
  split at hs
  · cases hs
  · rename_i p ys hplace
    rw [Option.ite_none_left_eq_some] at hs
    obtain ⟨hunlocked, hs⟩ := hs
    cases hs
    have hwb : s.inWriteback g ≠ true := by
      have hexpect := h.lock (c := .record g) (p := p) (hplace ▸ List.mem_cons_self ..)
      exact fun hbusy => hunlocked (hexpect.trans hbusy)
    have hnew : g ∉ done := fun hg => hwb (busy_iff.mp (hbusy g hg)).2
    have hdone : (done ++ [g]).Nodup :=
      List.nodup_append.mpr ⟨hnodup, List.nodup_singleton g, fun a ha b hb heq => by
        rw [List.mem_singleton] at hb
        exact hnew (hb ▸ heq ▸ ha)⟩
    have hbusy' : ∀ g' ∈ done ++ [g], ((s.relock g p true).hand op).Busy g' := by
      intro g' hg'
      by_cases heq : g' = g
      · subst heq
        exact busy_iff.mpr ⟨hlock, Function.update_self ..⟩
      · exact busy_relock heq (hbusy g' (by simpa [heq] using hg'))
    refine stepOk_relock h hto hlock hplace ?_
    split_ifs
    · refine ⟨he, fun g' hg' => ?_, hdone, hbusy'⟩
      have hlock' : s.lockedBy g' = some op :=
        isSome_block.mp (htodo g' (List.mem_cons_of_mem _ hg'))
      exact isSome_block.mpr hlock'
    · exact ⟨he, hdone, hbusy'⟩

/-- The end of a writeback: the page is unlocked. -/
theorem unlockSubblock_eq {t : Task} (h : s.Sound) (hbusy : (s.hand op).Busy g)
    (hs : s.unlockSubblock op g t = some s') : ∃ p ys, s.place (.record g) = p :: ys ∧
      s' = (s.relock g p false).setTask op t := by
  rw [unlockSubblock] at hs
  split at hs
  · cases hs
  · rename_i p ys hplace
    cases hs
    have hlocked : s.pageLocked p = true := by
      rw [h.lock (c := .record g) (hplace ▸ List.mem_cons_self ..)]
      exact (busy_iff.mp hbusy).2
    exact ⟨p, ys, hplace, by simp [unlockPage, hlocked, setWriteback, relock]⟩

theorem stepOk_unlockSubblock {t : Task} {rest : List ℕ} (h : s.Sound)
    (hto : s.place (.toGlobal op) = []) (hnodup : (g :: rest).Nodup)
    (hbusy : ∀ g' ∈ g :: rest, (s.hand op).Busy g') (he : (s.hand op).Empty)
    (ht : ∀ h' : Hand, h'.Empty → (∀ g' ∈ rest, h'.Busy g') → h'.Carries t)
    (hs : s.unlockSubblock op g t = some s') : s.StepOk s' op := by
  obtain ⟨hg, -⟩ := List.nodup_cons.mp hnodup
  have hself := hbusy g (List.mem_cons_self ..)
  obtain ⟨p, ys, hplace, rfl⟩ := unlockSubblock_eq h hself hs
  refine stepOk_relock h hto (busy_iff.mp hself).1 hplace (ht _ he fun g' hg' => ?_)
  exact busy_relock (fun heq => hg (heq ▸ hg')) (hbusy g' (List.mem_cons_of_mem _ hg'))

/-- `clear_writeback_work_request`, one subblock. -/
theorem stepOk_clearWriteback {cpu : ℕ} {rest : List ℕ} {doReclaim : Bool} (h : s.Sound)
    (hto : s.place (.toGlobal op) = [])
    (hcarries : (s.hand op).Carries (.clearWriteback cpu (g :: rest) doReclaim))
    (hs : s.clearWriteback op cpu g doReclaim luck (.clearWriteback cpu rest doReclaim) = some s') :
    s.StepOk s' op := by
  obtain ⟨he, hnodup, hbusy⟩ := hcarries
  obtain ⟨hg, hrest⟩ := List.nodup_cons.mp hnodup
  obtain ⟨t, hunlock, hs⟩ := Option.bind_eq_some_iff.mp hs
  have hafter : ∀ h' : Hand, h'.Empty → (∀ g' ∈ rest, h'.Busy g') →
      h'.Carries (.clearWriteback cpu rest doReclaim) := fun _ he' hbusy' => ⟨he', hrest, hbusy'⟩
  have hok : s.StepOk t op := stepOk_unlockSubblock h hto hnodup hbusy he hafter hunlock
  split_ifs at hs with hreclaim
  · have htask : t.task op = .clearWriteback cpu rest doReclaim := by
      obtain ⟨p, ys, -, rfl⟩ := unlockSubblock_eq h (hbusy g (List.mem_cons_self ..)) hunlock
      exact Function.update_self ..
    obtain ⟨hto', he', -, hbusy'⟩ := carries_of_goes hok.goes htask nofun
    have hlock : t.lockedBy g = some op := by
      rw [hok.others.lockedBy]
      exact (busy_iff.mp (hbusy g (List.mem_cons_self ..))).1
    have hnext : ∀ h', t.Dropped op g h' → h'.Carries (.clearWriteback cpu rest doReclaim) := by
      intro h' hd
      refine ⟨hd.empty he', hrest, fun g' hg' => ?_⟩
      rw [Hand.Busy, hd.block g' (fun heq => hg (heq ▸ hg'))]
      exact hbusy' g' hg'
    obtain ⟨hsound, hlocal, hgoes⟩ := stepOk_freeGpa hok.sound hto' hlock hnext hs
    exact ⟨hsound, hok.others.trans hlocal, hgoes⟩
  · cases hs
    exact hok

/-! ### Every step -/

/-- The descriptors of a group are freed. -/
theorem stepOk_freeGpadesc {group : List ℕ} (h : s.Sound) (hto : s.place (.toGlobal op) = [])
    (hcarries : (s.hand op).Carries (.freeGpadesc group)) :
    s.StepOk (PageSys.setTask { s with freed := fun g => decide (g ∈ group) || s.freed g } op
      .finish) op := by
  obtain ⟨he, hbare⟩ := hcarries
  refine ⟨⟨h.count, h.partition, h.single, h.lock, h.unlocked, fun g hg => ?_, h.writeback⟩, ?_, ?_⟩
  · have hor : g ∈ group ∨ s.freed g = true := by
      simpa only [setTask, Bool.or_eq_true, decide_eq_true_eq] using hg
    rcases hor with hg | hg
    · exact (bare_iff.mp (hbare g hg)).2
    · exact h.freed g hg
  · refine ⟨fun _ _ => rfl, rfl, fun g hg => ⟨rfl, ?_⟩, fun o ho => Function.update_of_ne ho ..⟩
    have hno : g ∉ group := fun hmem => hg (bare_iff.mp (hbare g hmem)).1
    simp [setTask, hno]
  · exact goes_of_carries (Function.update_self ..) hto he

/-- `flush_gpa`, one subblock. -/
theorem stepOk_flushGpa {rest group : List ℕ} (h : s.Sound) (hto : s.place (.toGlobal op) = [])
    (hcarries : (s.hand op).Carries (.flushGpa (g :: rest) group))
    (hs : s.freeGpa op none g luck (.flushGpa rest group) = some s') : s.StepOk s' op := by
  obtain ⟨he, hsub, hgroup⟩ := hcarries
  have hlock := isSome_block.mp (hgroup g (hsub g (List.mem_cons_self ..))).1
  refine stepOk_freeGpa h hto hlock (fun h' hd => ?_) hs
  refine ⟨hd.empty he, fun g' hg' => hsub g' (List.mem_cons_of_mem _ hg'), fun g' hg' => ?_⟩
  obtain ⟨hsome, hcase⟩ := hgroup g' hg'
  refine ⟨hd.isSome hsome, ?_⟩
  by_cases heq : g' = g
  · exact .inr (heq ▸ hd.bare)
  · rcases hcase with hmem | hbare
    · exact .inl ((List.mem_cons.mp hmem).resolve_left heq)
    · refine .inr ?_
      rwa [Hand.Bare, hd.block g' heq]

/-- A step of a running operation that pushes no page that is not locked. -/
theorem stepOk_run (h : s.Sound) (hgoes : s.Goes op) (hok : s.PushesLocked (.run op luck))
    (hs : s.run op luck = some s') (hne : s.task op ≠ .finish) : s.StepOk s' op := by
  cases htask : s.task op with
  | splice cpu next =>
      simp only [run, htask] at hs
      simp only [Goes, htask] at hgoes
      cases hs
      exact stepOk_spliceTail h hgoes
  | idle => simp [run, htask] at hs
  | finish => exact absurd htask hne
  | alloc pc cpu use =>
      obtain ⟨hto, hcarries⟩ := carries_of_goes hgoes htask (by simp)
      simp only [run, htask] at hs
      refine stepOk_allocPages h hto hcarries ?_ hs
      rintro rfl todo done job rfl
      simpa only [PushesLocked, htask] using hok
  | fetchBlock cpu todo gpas =>
      obtain ⟨hto, hcarries⟩ := carries_of_goes hgoes htask (by simp)
      simp only [PushesLocked, htask] at hok
      cases todo with
      | nil =>
          simp only [run, htask, Option.some.injEq] at hs
          obtain ⟨hpull, hlen, -⟩ := hcarries
          exact hs ▸ stepOk_setTask h hto ⟨List.eq_nil_of_length_eq_zero hlen, hpull⟩
      | cons g rest =>
          simp only [run, htask] at hs
          exact stepOk_fetchSubblock h hto hcarries hok hs
  | unwindFetchBlock cpu todo => exact (carries_of_goes hgoes htask (by simp)).2.elim
  | freeBlockPages cpu =>
      obtain ⟨hto, hpull⟩ := carries_of_goes hgoes htask (by simp)
      simp only [run, htask] at hs
      exact stepOk_freeBlockPages h hto hpull hs
  | setGpaRemote cpu todo =>
      obtain ⟨hto, he, hlocked⟩ := carries_of_goes hgoes htask (by simp)
      cases todo with
      | nil =>
          simp only [run, htask, Option.some.injEq] at hs
          exact hs ▸ stepOk_setTask h hto he
      | cons g rest =>
          simp only [run, htask] at hs
          refine stepOk_freeGpa h hto (isSome_block.mp (hlocked g (List.mem_cons_self ..))) ?_ hs
          exact fun h' hd => ⟨hd.empty he, fun g' hg' =>
            hd.isSome (hlocked g' (List.mem_cons_of_mem _ hg'))⟩
  | flushGpa todo group =>
      obtain ⟨hto, hcarries⟩ := carries_of_goes hgoes htask (by simp)
      cases todo with
      | nil =>
          simp only [run, htask, Option.some.injEq] at hs
          obtain ⟨he, -, hgroup⟩ := hcarries
          refine hs ▸ stepOk_setTask h hto ⟨he, fun g hg => ?_⟩
          exact (hgroup g hg).2.resolve_left (List.not_mem_nil)
      | cons g rest =>
          simp only [run, htask] at hs
          exact stepOk_flushGpa h hto hcarries hs
  | freeGpadesc group =>
      obtain ⟨hto, hcarries⟩ := carries_of_goes hgoes htask (by simp)
      simp only [run, htask, Option.some.injEq] at hs
      exact hs ▸ stepOk_freeGpadesc h hto hcarries
  | cow job =>
      obtain ⟨hto, he, hc⟩ := carries_of_goes hgoes htask (by simp)
      simp only [PushesLocked, htask] at hok
      simp only [run, htask, Option.some.injEq] at hs
      exact hs ▸ stepOk_setTask h hto (carries_dupCowGpadesc he hc hok)
  | dupLocalPage todo done job =>
      obtain ⟨hto, hcarries⟩ := carries_of_goes hgoes htask (by simp)
      simp only [PushesLocked, htask] at hok
      cases todo with
      | nil =>
          obtain ⟨-, -, hnil, -⟩ := hcarries
          exact absurd rfl hnil
      | cons g rest =>
          simp only [run, htask] at hs
          exact stepOk_dupBlockLocalPage h hto hcarries hok hs
  | dupError done job =>
      obtain ⟨hto, he, rfl, hbare⟩ := carries_of_goes hgoes htask (by simp)
      simp only [run, htask, Option.some.injEq] at hs
      exact hs ▸ stepOk_setTask h hto ⟨he, hbare⟩
  | orphan job =>
      obtain ⟨hto, he, hc⟩ := carries_of_goes hgoes htask (by simp)
      simp only [PushesLocked, htask] at hok
      simp only [run, htask, Option.some.injEq] at hs
      refine hs ▸ stepOk_setTask h hto ?_
      split_ifs with hluck
      · exact ⟨he, hc⟩
      · exact ⟨he, fun g hg => bare_iff.mpr ⟨isSome_block.mp (hc.group g hg),
          hok.resolve_left hluck g hg⟩⟩
  | handoff pairs job =>
      obtain ⟨hto, he, hc⟩ := carries_of_goes hgoes htask (by simp)
      cases pairs with
      | nil =>
          simp only [run, htask, Option.some.injEq] at hs
          have hjob := copies_tail hc rfl
          exact hs ▸ stepOk_setTask h hto ⟨he, hjob⟩
      | cons pair rest =>
          simp only [run, htask, Option.some.injEq] at hs
          exact hs ▸ stepOk_handoff h hto ⟨he, hc⟩
  | clearInFlight cpu todo =>
      obtain ⟨hto, he⟩ := carries_of_goes hgoes htask (by simp)
      simp only [PushesLocked, htask] at hok
      cases todo with
      | nil =>
          simp only [run, htask, Option.some.injEq] at hs
          exact hs ▸ stepOk_setTask h hto he
      | cons g rest =>
          simp only [run, htask, Option.some.injEq] at hs
          have hskip : s' = s.setTask op (.clearInFlight cpu rest) := by
            rw [← hs]
            rcases hok with hok | hnil
            · simp [hok]
            · simp [pushUnlocked, hnil]
          exact hskip ▸ stepOk_setTask h hto he
  | evictBlock todo done =>
      obtain ⟨hto, hcarries⟩ := carries_of_goes hgoes htask (by simp)
      cases todo with
      | nil =>
          simp only [run, htask, Option.some.injEq] at hs
          exact hs ▸ stepOk_setTask h hto hcarries.1
      | cons g rest =>
          simp only [run, htask] at hs
          exact stepOk_evictBlock h hto hcarries hs
  | evictError done =>
      obtain ⟨hto, he, hnodup, hbusy⟩ := carries_of_goes hgoes htask (by simp)
      cases done with
      | nil =>
          simp only [run, htask, Option.some.injEq] at hs
          exact hs ▸ stepOk_setTask h hto he
      | cons g rest =>
          simp only [run, htask] at hs
          have hafter : ∀ h' : Hand, h'.Empty → (∀ g' ∈ rest, h'.Busy g') →
              h'.Carries (.evictError rest) :=
            fun _ he' hbusy' => ⟨he', (List.nodup_cons.mp hnodup).2, hbusy'⟩
          exact stepOk_unlockSubblock h hto hnodup hbusy he hafter hs
  | clearWriteback cpu todo doReclaim =>
      obtain ⟨hto, hcarries⟩ := carries_of_goes hgoes htask (by simp)
      cases todo with
      | nil =>
          simp only [run, htask, Option.some.injEq] at hs
          exact hs ▸ stepOk_setTask h hto hcarries.1
      | cons g rest =>
          simp only [run, htask] at hs
          exact stepOk_clearWriteback h hto hcarries hs

end PageSys

end Emp
