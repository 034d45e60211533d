import Emp.LocalPage.Operations

/-!
# Runs of the local cache

## Main definitions

* `PageSys.pagesConserved_of_reach` — the pages are accounted for in every run in which no step
  pushes a page that is not locked.
-/

namespace Emp

namespace PageSys

variable {s s' : PageSys} {op : ℕ}

/-- The pages are accounted for, and every operation can go on. -/
def Inv (s : PageSys) : Prop := s.Sound ∧ ∀ op, s.Goes op

theorem inv_of_start (h : s.Start) : s.Inv := by
  refine ⟨⟨?_, ?_, fun g => ?_, fun {c p} hp => ?_, h.strayUnlocks, fun g _ => h.place _, fun g hg => ?_⟩,
    fun op => goes_of_carries (h.task op) (h.place _) ⟨h.place _, h.place _⟩⟩
  · rw [h.allocPagesLen, h.pages]
    simp
  · refine ⟨h.pages ▸ List.nodup_nil, fun c => h.place c ▸ List.nodup_nil, fun {c c' a} ha => ?_,
      fun a => ?_⟩
    · rw [h.place c] at ha
      cases ha
    · simp [h.pages, h.place]
  · rw [h.place]
    exact Nat.zero_le 1
  · rw [h.place c] at hp
    cases hp
  · rw [h.inWriteback] at hg
    cases hg

/-- The operations see what they saw. -/
theorem goes_congr (hhand : s'.hand op = s.hand op)
    (hto : s'.place (.toGlobal op) = s.place (.toGlobal op)) (htask : s'.task op = s.task op)
    (h : s.Goes op) : s'.Goes op := by
  rw [Goes, hhand, hto, htask]
  exact h

/-- The hand of an operation whose locks are the same. -/
theorem hand_of_lockedBy (hplace : s'.place = s.place) (hwb : s'.inWriteback = s.inWriteback)
    (hfreed : s'.freed = s.freed) (hlock : ∀ g, s'.lockedBy g = some op ↔ s.lockedBy g = some op) :
    s'.hand op = s.hand op := by
  simp only [hand, hplace, hwb, hfreed, hlock]

/-- The operation finds its blocks as they are, and locked. -/
def started (s : PageSys) (op : ℕ) (j : Job) : PageSys :=
  { s with
    task := Function.update s.task op j.task
    lockedBy := fun g => if g ∈ j.gpas then some op else s.lockedBy g }

theorem carries_started {j : Job} (hsound : s.Sound) (he : (s.hand op).Empty) (hnodup : j.gpas.Nodup)
    (hfree : ∀ g ∈ j.gpas, s.lockedBy g = none ∧ s.freed g = false) (hready : j.Ready s) :
    ((s.started op j).hand op).Carries j.task := by
  have hlock : ∀ g ∈ j.gpas, (s.started op j).lockedBy g = some op := fun g hg => if_pos hg
  have hsome : ∀ g ∈ j.gpas, (((s.started op j).hand op).block g).isSome :=
    fun g hg => isSome_block.mpr (hlock g hg)
  have hvacant : ∀ g ∈ j.gpas, s.place (.record g) = [] → ((s.started op j).hand op).Vacant g := by
    intro g hg hnil
    refine vacant_iff.mpr ⟨hlock g hg, hnil, ?_, (hfree g hg).2⟩
    exact Bool.eq_false_iff.mpr fun hwb => hsound.writeback g hwb hnil
  cases j with
  | fetchBlock cpu gpas =>
      obtain ⟨hne, hempty⟩ := hready
      refine ⟨fun _ => he.2, List.length_pos_iff.mpr hne, ?_, hnodup, fun g hg => hvacant g hg (hempty g hg)⟩
      have hheld : ((s.started op (.fetchBlock cpu gpas)).hand op).held = [] := he.1
      rw [hheld, List.length_nil, Nat.zero_add]
  | evictBlock gpas => exact ⟨he, hsome, List.nodup_nil, List.forall_mem_nil _⟩
  | clearWriteback cpu gpas doReclaim =>
      exact ⟨he, hnodup, fun g hg => busy_iff.mpr ⟨hlock g hg, hready g hg⟩⟩
  | setGpaRemote cpu gpas => exact ⟨he, hsome⟩
  | flushGpa group => exact ⟨he, fun _ => id, fun g hg => ⟨hsome g hg, .inl hg⟩⟩
  | cow job =>
      obtain ⟨hempty, hnews, hsub, hquiet⟩ := hready
      have hgroup : ∀ g ∈ job.group, g ∈ (Job.cow job).gpas := fun g hg => List.mem_append_left _ hg
      have holds : ∀ g ∈ job.rest.flatMap CowBlock.olds, g ∈ (Job.cow job).gpas :=
        fun g hg => List.mem_append_right _ hg
      refine ⟨he, fun g hg => hsome g (hgroup g hg), hnews, fun g hg => ?_, fun g hg => ?_⟩
      · exact ⟨hsub g hg, hvacant g (hgroup g (hsub g hg)) (hempty g (hsub g hg))⟩
      · refine ⟨fun hmem => ?_, _, block_eq_some.mpr ⟨hlock g (holds g hg), rfl⟩, hquiet g hg⟩
        exact (List.nodup_append.mp hnodup).2.2 g hmem g hg rfl
  | clearInFlight cpu gpas => exact he

/-- An operation starts. -/
theorem inv_start {j : Job} (h : s.Inv) (hs : s.start op j = some s') : s'.Inv := by
  obtain ⟨⟨hidle, hnodup, hfree, hready⟩, hs⟩ := Transition.of_guard hs
  obtain rfl : s.started op j = s' := hs
  obtain ⟨hsound, hgoes⟩ := h
  refine ⟨⟨hsound.count, hsound.partition, hsound.single, hsound.lock, hsound.unlocked, hsound.freed,
    hsound.writeback⟩, fun o => ?_⟩
  by_cases ho : o = op
  · subst ho
    obtain ⟨hto, he⟩ := carries_of_goes (hgoes o) hidle nofun
    have htask : (s.started o j).task o = j.task := Function.update_self ..
    exact goes_of_carries htask hto (carries_started hsound he hnodup hfree hready)
  · have htask : (s.started op j).task o = s.task o := Function.update_of_ne ho ..
    refine goes_congr (s := s) (hand_of_lockedBy rfl rfl rfl fun g => ?_) rfl htask (hgoes o)
    simp only [started]
    split_ifs with hg
    · have hnone := (hfree g hg).1
      simp [hnone, Ne.symm ho]
    · rfl

/-- An operation ends. -/
theorem inv_finish (h : s.Inv) (htask : s.task op = .finish) : (s.finish op).Inv := by
  obtain ⟨hsound, hgoes⟩ := h
  obtain ⟨hto, he⟩ := carries_of_goes (hgoes op) htask nofun
  refine ⟨⟨hsound.count, hsound.partition, hsound.single, hsound.lock, hsound.unlocked, hsound.freed,
    hsound.writeback⟩, fun o => ?_⟩
  by_cases ho : o = op
  · subst ho
    exact goes_of_carries (Function.update_self ..) hto he
  · have htask : (s.finish op).task o = s.task o := Function.update_of_ne ho ..
    refine goes_congr (s := s) (hand_of_lockedBy rfl rfl rfl fun g => ?_) rfl htask (hgoes o)
    simp only [finish]
    split_ifs with hg
    · simp [hg, Ne.symm ho]
    · rfl

/-- `alloc_exit`. -/
theorem inv_allocExitLoop {l : List ℕ} (h : s.Inv) (hl : s.place .global = l) :
    (allocExitLoop l s).Inv := by
  induction l generalizing s with
  | nil => exact h
  | cons p ps ih =>
      obtain ⟨hsound, hgoes⟩ := h
      have hlocked : s.pageLocked p = true := hsound.lock (c := .global) (hl ▸ List.mem_cons_self ..)
      have heq : (s.unlockPage p).freePages .global p ps = { s with
          place := Function.update s.place .global ps
          pageLocked := Function.update s.pageLocked p false
          pages := s.pages.erase p
          allocPagesLen := s.allocPagesLen - s.sbSize } := by
        simp [unlockPage, freePages, hlocked]
      have hperm : (p :: ps).Perm (s.place .global) := by rw [hl]
      have hother : ∀ c, c ≠ .global → Function.update s.place .global ps c = s.place c :=
        fun c hc => Function.update_of_ne hc ..
      rw [allocExitLoop, heq]
      have hps : Function.update s.place .global ps .global = ps := Function.update_self ..
      refine ih ⟨sound_freePages hsound hperm (by simp), fun o => ?_⟩ hps
      have hseen : ∀ c, Seen c → c ≠ .global := by
        rintro _ hc rfl
        exact hc
      exact goes_congr (s := s) (hand_congr (fun c hc => hother c (hseen c hc)) rfl rfl rfl)
        (hother (.toGlobal o) (by simp)) rfl (hgoes o)

/-- What every step keeps. -/
theorem inv_of_step {e : PageEvent} (h : s.Inv) (hok : s.PushesLocked e) (hs : step s e = some s') :
    s'.Inv := by
  obtain ⟨hsound, hgoes⟩ := h
  cases e with
  | start op j => exact inv_start ⟨hsound, hgoes⟩ hs
  | run op luck =>
      by_cases htask : s.task op = .finish
      · simp only [step, run, htask, Option.some.injEq] at hs
        exact hs ▸ inv_finish ⟨hsound, hgoes⟩ htask
      · obtain ⟨hsound', hlocal, hown⟩ := stepOk_run hsound (hgoes op) hok hs htask
        refine ⟨hsound', fun o => ?_⟩
        by_cases ho : o = op
        · exact ho ▸ hown
        · exact hlocal.goes ho (hgoes o)
  | adjustLocalCacheSize diff =>
      cases hs
      exact ⟨⟨hsound.count, hsound.partition, hsound.single, hsound.lock, hsound.unlocked, hsound.freed,
        hsound.writeback⟩, hgoes⟩
  | flushLocalFreePages cpu =>
      cases hs
      obtain ⟨hsound', hhand⟩ := sound_unseen hsound (show ¬ Seen (.buf cpu) from id)
        (show ¬ Seen .global from id) (by simp) (List.append_nil _)
      exact ⟨hsound', fun o => goes_congr (hhand o) (move_other (by simp) (by simp)) rfl (hgoes o)⟩
  | allocExit =>
      cases hs
      exact inv_allocExitLoop ⟨hsound, hgoes⟩ rfl

/-- A memory of eight base pages, in subblocks of four. -/
def opened : PageSys where
  sbSize := 4
  sibSize := 8
  freeLpagesLen := 1
  localCacheMax := 8
  allocPagesLen := 0
  freePagesReclaim := 0
  pages := []
  place := fun _ => []
  pageLocked := fun _ => false
  strayUnlocks := 0
  task := fun _ => .idle
  lockedBy := fun _ => none
  inWriteback := fun _ => false
  freed := fun _ => false

theorem start_opened : opened.Start :=
  ⟨rfl, fun _ => rfl, rfl, rfl, fun _ => rfl, fun _ => rfl⟩

def works (page : ℕ) : PageEvent := .run 0 ⟨true, false, page, none⟩

def fails : PageEvent := .run 0 ⟨false, false, 0, none⟩

/-- A block of two subblocks is fetched, evicted and dropped.  The second page that is pushed takes
both to the global list, from where the next fetch pulls them. -/
def fetchAndEvict : List PageEvent :=
  [.start 0 (.fetchBlock 0 [0, 1]), works 0, works 0, works 0, works 1, works 0, works 0, works 0,
    .start 0 (.evictBlock [0, 1]), works 0, works 0, works 0, works 0,
    .start 0 (.clearWriteback 0 [0, 1] true), works 0, works 0, works 0, works 0, works 0,
    .start 0 (.fetchBlock 1 [2]), works 0, works 0, works 0, works 0]

/-- A page is there for a subblock, and the read is refused. -/
def failedFetch : List PageEvent :=
  [.start 0 (.fetchBlock 0 [0]), works 0, works 0, fails]

end PageSys

end Emp
