import Emp.Fork.Operations
import Emp.View.Release

/-!
# Closes of vmdescs that share descriptors

The walk of a close steps on the starts of groups, and a group that it releases has all of its
slots populated.  So the slots stay in whole groups, `refcnt` stays the number of the directories,
and the first descriptor goes down to zero when no directory is left.  The last close of a vmdesc
leaves no slot.

## Main definitions

* `ForkSys.Freed` — the groups that have been freed are those that no slot points to.
* `ForkSys.Closes` — slots of whole groups have been released in one directory.
-/

namespace Emp

namespace ForkSys

variable {s s' t : ForkSys} {d i n : ℕ} {x : Slot} {g : Group}

/-- The groups that have been freed are those whose first descriptor no slot points to. -/
structure Freed (s : ForkSys) : Prop where
  stray : s.strayFrees = 0
  group : ∀ id g, s.group id = some g → s.frees id = if s.refcnt ⟨id, 0⟩ = 0 then 1 else 0
  fresh : ∀ id, s.group id = none → s.frees id = 0

/-- Slots of the directory have been released in whole groups, and nothing else has changed. -/
structure Closes (s s' : ForkSys) (d : ℕ) : Prop where
  place : s' = { s with
    gpaDir := s'.gpaDir, refcnt := s'.refcnt, nullRemoved := s'.nullRemoved, frees := s'.frees
    strayFrees := s'.strayFrees }
  sound : s'.Sound
  whole : s'.Whole d
  other : ∀ e, e ≠ d → s'.gpaDir e = s.gpaDir e
  freed : s.Freed → s'.Freed

theorem Closes.refl (h : s.Sound) (hw : s.Whole d) : s.Closes s d :=
  ⟨rfl, h, hw, fun _ _ => rfl, id⟩

theorem Closes.trans (h : s.Closes s' d) (h' : s'.Closes t d) : s.Closes t d := by
  refine ⟨?_, h'.sound, h'.whole, fun e he => (h'.other e he).trans (h.other e he), h'.freed ∘ h.freed⟩
  have heq := h'.place
  rw [h.place] at heq
  exact heq

/-- How often a descriptor is met in a range of slots. -/
theorem count_slots (h : s.Sound) (hg : s.group x.group = some g) (d lo n : ℕ) :
    Nat.count (fun j => s.gpaDir d (lo + j) = some x) n =
      if (lo ≤ g.start + x.member ∧ g.start + x.member < lo + n) ∧
        s.gpaDir d (g.start + x.member) = some x then 1 else 0 := by
  have hidx : ∀ j, s.gpaDir d (lo + j) = some x → lo + j = g.start + x.member := by
    intro j hj
    obtain ⟨-, -, g', hg', -, heq, -⟩ := h.slot d _ x hj
    rwa [Option.some.inj (hg.symm.trans hg')]
  split_ifs with hin
  · have hlt : g.start + x.member - lo < n := by omega
    rw [← Census.count_eq hlt]
    refine Census.count_congr fun j _ => ⟨fun hj => ?_, fun hj => ?_⟩
    · have := hidx j hj
      omega
    · rw [hj, Nat.add_sub_cancel' hin.1.1]
      exact hin.2
  · rw [Nat.count_iff_forall_not]
    intro j hj hdir
    have heq := hidx j hdir
    exact hin ⟨⟨by omega, by omega⟩, heq ▸ hdir⟩

theorem removeGpaDir_self (lo n : ℕ) : (s.removeGpaDir d lo n).gpaDir d = fun i =>
    if lo ≤ i ∧ i < lo + n then none else s.gpaDir d i := Function.update_self ..

/-- `remove_gpa_dir` of populated slots. -/
theorem sound_removeGpaDir {lo : ℕ} (h : s.Sound) (hd : d < s.numDescs)
    (hpop : ∀ j < n, (s.gpaDir d (lo + j)).isSome) : (s.removeGpaDir d lo n).Sound := by
  have hzero : Nat.count (fun j => s.gpaDir d (lo + j) = none) n = 0 := by
    rw [Nat.count_iff_forall_not]
    intro j hj hnone
    have hsome := hpop j hj
    rw [hnone] at hsome
    cases hsome
  have hslots : s.SlotsOf (s.removeGpaDir d lo n) d := by
    refine ⟨rfl, rfl, rfl, ?_, fun _ he => Function.update_of_ne he ..⟩
    rw [removeGpaDir, hzero, Nat.add_zero]
  refine sound_slots h hd hslots h.member (fun id g hg => ⟨g, hg, rfl, rfl, rfl⟩) (fun i x hx => ?_)
    (fun x g hg _ => ?_) fun x hx => ?_
  · simp only [removeGpaDir_self, Option.ite_none_left_eq_some] at hx
    exact (h.slot d i x hx.2).2
  · have hcount := count_slots h hg d lo n
    change s.refcnt x - Nat.count (fun j => s.gpaDir d (lo + j) = some x) n + _ = _
    rw [hcount]
    simp only [removeGpaDir_self, Option.ite_none_left_eq_some]
    by_cases hin : lo ≤ g.start + x.member ∧ g.start + x.member < lo + n
    · simp only [hin, and_self, true_and, not_true_eq_false, false_and, if_false]
      split_ifs <;> simp
    · simp [hin]
  · have hcount : Nat.count (fun j => s.gpaDir d (lo + j) = some x) n = 0 := by
      rw [Nat.count_iff_forall_not]
      exact fun j _ => slot_ne_of_fresh h hx d _
    change s.refcnt x - Nat.count (fun j => s.gpaDir d (lo + j) = some x) n = 0
    rw [hcount, h.fresh x hx]
    rfl

theorem Freed.congr (h : s.Freed) (hgroup : s'.group = s.group) (hrefcnt : s'.refcnt = s.refcnt)
    (hfrees : s'.frees = s.frees) (hstray : s'.strayFrees = s.strayFrees) : s'.Freed := by
  refine ⟨hstray.trans h.stray, fun id g hg => ?_, fun id hid => ?_⟩
  · rw [hfrees, hrefcnt]
    exact h.group id g (hgroup ▸ hg)
  · rw [hfrees]
    exact h.fresh id (hgroup ▸ hid)

/-- The free of a group says nothing about the slots. -/
theorem sound_freeGpadesc (h : s.Sound) (x : Slot) : (s.freeGpadesc x).Sound := by
  rw [freeGpadesc]
  split_ifs <;> exact ⟨h.valid, h.pos, h.root, h.member, h.slot, h.counted, h.fresh, h.nullRemoved⟩

/-- What a whole group's slots look like. -/
theorem slots_of_start {o : ℕ} (h : s.Sound) (hw : s.Whole d) (hat : s.backing.groupAt i = some (i, o))
    (hx : s.gpaDir d i = some x) : ∃ g, s.group x.group = some g ∧ x.member = 0 ∧ g.start = i ∧
      g.len = 2 ^ (o - s.backing.sbOrder) ∧
      ∀ j < g.len, s.gpaDir d (i + j) = some ⟨x.group, j⟩ := by
  obtain ⟨-, -, g, hg, hat', heq, -⟩ := h.slot d i x hx
  obtain ⟨hstart, rfl⟩ := Prod.mk.inj (Option.some.inj (hat.symm.trans hat'))
  have hlen : g.len = 2 ^ (g.allocOrder - s.backing.sbOrder) := (h.member _ g hg).len_eq
  refine ⟨g, hg, by omega, hstart.symm, hlen, fun j hj => ?_⟩
  have hslot := hw i x g hx hg (i + j) (by omega) (by omega)
  rwa [← hstart, Nat.add_sub_cancel_left] at hslot

/-- The other slots stay in whole groups when one group is removed. -/
theorem whole_removeGpaDir {o : ℕ} (h : s.Sound) (hw : s.Whole d)
    (hat : s.backing.groupAt i = some (i, o)) (hi : i < s.backing.gpaLen) :
    (s.removeGpaDir d i (2 ^ (o - s.backing.sbOrder))).Whole d := by
  obtain ⟨s₀, o₀, hat₀, -, -, hall⟩ := Backing.groupAt_spec h.valid hi
  obtain ⟨rfl, rfl⟩ := Prod.mk.inj (Option.some.inj (hat₀.symm.trans hat))
  intro k x g hx hg j hj hj'
  simp only [removeGpaDir_self, Option.ite_none_left_eq_some] at hx ⊢
  obtain ⟨hout, hx⟩ := hx
  have hjdir := hw k x g hx hg j hj hj'
  refine ⟨fun hin => hout ?_, hjdir⟩
  -- otherwise the group would be the one that has been removed
  obtain ⟨-, -, g', hg', hatj, -⟩ := h.slot d j _ hjdir
  obtain rfl : g = g' := Option.some.inj (hg.symm.trans hg')
  obtain ⟨hstart, horder⟩ :=
    Prod.mk.inj (Option.some.inj ((hall j hin.1 hin.2).2.symm.trans hatj))
  obtain ⟨-, -, g', hg', -, heq, hm⟩ := h.slot d k x hx
  obtain rfl : g = g' := Option.some.inj (hg.symm.trans hg')
  have hlen : g.len = 2 ^ (g.allocOrder - s.backing.sbOrder) := (h.member _ g hg).len_eq
  rw [horder, ← hlen]
  omega

/-- A group is released. -/
theorem closes_putMaxBlock {o : ℕ} (h : s.Sound) (hd : d < s.numDescs) (hw : s.Whole d)
    (hat : s.backing.groupAt i = some (i, o)) (hi : i < s.backing.gpaLen) :
    s.Closes (s.putMaxBlock d i (2 ^ (o - s.backing.sbOrder))) d := by
  cases hx : s.gpaDir d i with
  | none =>
      rw [putMaxBlock, hx]
      exact Closes.refl h hw
  | some x =>
      obtain ⟨g, hg, hzero, hstart, hlen, hslots⟩ := slots_of_start h hw hat hx
      have hpos : 0 < g.len := hlen ▸ Nat.two_pow_pos _
      have hput : s.putMaxBlock d i (2 ^ (o - s.backing.sbOrder)) =
          if 0 < s.refcnt x - 1 then s.removeGpaDir d i (2 ^ (o - s.backing.sbOrder))
          else (s.removeGpaDir d i (2 ^ (o - s.backing.sbOrder))).freeGpadesc x := by
        rw [putMaxBlock, hx]
      have hxeq : x = ⟨x.group, 0⟩ := by rw [← hzero]
      have hsound : (s.removeGpaDir d i (2 ^ (o - s.backing.sbOrder))).Sound := by
        refine sound_removeGpaDir h hd fun j hj => ?_
        rw [hslots j (hlen ▸ hj)]
        rfl
      have hwhole := whole_removeGpaDir h hw hat hi
      -- the first descriptors of the groups
      have hcount : 0 < s.refcnt x := by
        have hcounted := h.counted x g hg (hzero ▸ hpos)
        rw [Counted] at hcounted
        rw [hcounted, Int.natCast_pos]
        exact Census.count_pos hd (by rw [hzero, Nat.add_zero, hstart, hx])
      have href : ∀ id, (∃ g', s.group id = some g') →
          (s.removeGpaDir d i (2 ^ (o - s.backing.sbOrder))).refcnt ⟨id, 0⟩ =
            s.refcnt ⟨id, 0⟩ - if id = x.group then 1 else 0 := by
        rintro id ⟨g', hg'⟩
        have hc := count_slots (x := ⟨id, 0⟩) h hg' d i (2 ^ (o - s.backing.sbOrder))
        change s.refcnt ⟨id, 0⟩ - Nat.count (fun j => s.gpaDir d (i + j) = some ⟨id, 0⟩) _ = _
        rw [hc]
        split_ifs with hin hid hid
        · rfl
        · obtain ⟨⟨hle, hlt⟩, hdir⟩ := hin
          have hslot := hslots (g'.start - i) (by simp only at hlt; omega)
          simp only [Nat.add_zero] at hle hdir
          rw [Nat.add_sub_cancel' hle, hdir] at hslot
          exact absurd (congrArg Slot.group (Option.some.inj hslot)) hid
        · subst hid
          obtain rfl : g = g' := Option.some.inj (hg.symm.trans hg')
          refine absurd ⟨⟨hstart.ge, ?_⟩, ?_⟩ hin
          · simp only
            omega
          · simp only [Nat.add_zero]
            rw [hstart, hx, ← hxeq]
        · rfl
      rw [hput]
      split_ifs with hmore
      · refine ⟨rfl, hsound, hwhole, fun e he => Function.update_of_ne he .., fun hf => ?_⟩
        refine ⟨hf.stray, fun id g' hg' => ?_, hf.fresh⟩
        rw [href id ⟨g', hg'⟩]
        change s.frees id = _
        rw [hf.group id g' hg']
        by_cases hid : id = x.group
        · subst hid
          rw [hxeq] at hmore
          rw [if_neg (by omega), if_pos rfl, if_neg (by omega)]
        · rw [if_neg hid, sub_zero]
      · have hfree : (s.removeGpaDir d i (2 ^ (o - s.backing.sbOrder))).freeGpadesc x =
            { s.removeGpaDir d i (2 ^ (o - s.backing.sbOrder)) with
              frees := Function.update s.frees x.group (s.frees x.group + 1) } := if_pos hzero
        refine ⟨by rw [hfree]; rfl, sound_freeGpadesc hsound x, ?_, fun e he => ?_, fun hf => ?_⟩
        · rw [hfree]
          exact hwhole
        · rw [hfree]
          exact Function.update_of_ne he ..
        · rw [hfree]
          refine ⟨hf.stray, fun id g' hg' => ?_, fun id hid => ?_⟩
          · have hr := href id ⟨g', hg'⟩
            change Function.update s.frees x.group (s.frees x.group + 1) id =
              if (s.removeGpaDir d i (2 ^ (o - s.backing.sbOrder))).refcnt ⟨id, 0⟩ = 0 then 1 else 0
            rw [hr]
            by_cases hid : id = x.group
            · subst hid
              rw [hxeq] at hmore hcount
              rw [Function.update_self, hf.group _ g' hg', if_neg (by omega), if_pos rfl,
                if_pos (by omega)]
            · rw [Function.update_of_ne hid, if_neg hid, sub_zero]
              exact hf.group id g' hg'
          · have hne : id ≠ x.group := by
              rintro rfl
              rw [show s.group x.group = none from hid] at hg
              cases hg
            exact (Function.update_of_ne hne ..).trans (hf.fresh id hid)

/-- The numbers that a walk needs do not change. -/
theorem Closes.fields (h : s.Closes s' d) : s'.backing = s.backing ∧ s'.numDescs = s.numDescs := by
  rw [h.place]
  exact ⟨rfl, rfl⟩

/-- The loop steps on the starts of groups. -/
theorem closes_freeGpaDirLoop {release : ℕ → Bool} {o step finish fuel : ℕ} (h : s.Sound)
    (hd : d < s.numDescs) (hw : s.Whole d) (hstep : step = 2 ^ (o - s.backing.sbOrder))
    (hat : ∀ b, i ≤ b → b < finish → step ∣ b - i →
      s.backing.groupAt b = some (b, o) ∧ b < s.backing.gpaLen) :
    s.Closes (freeGpaDirLoop d release step finish fuel i s) d := by
  induction fuel generalizing s i with
  | zero => exact Closes.refl h hw
  | succ fuel ih =>
      rw [freeGpaDirLoop]
      by_cases hlt : i < finish
      · rw [if_pos hlt]
        have hone : s.Closes (if release i then s.putMaxBlock d i step else s) d := by
          split_ifs
          · obtain ⟨hgroup, hlen⟩ := hat i le_rfl hlt (by simp)
            exact hstep ▸ closes_putMaxBlock h hd hw hgroup hlen
          · exact Closes.refl h hw
        obtain ⟨hb, hnum⟩ := hone.fields
        refine hone.trans (ih hone.sound (hnum ▸ hd) hone.whole (hb ▸ hstep) fun b hib hbf hdvd => ?_)
        have hpos : 0 < step := hstep ▸ Nat.two_pow_pos _
        have hsum : b - i = b - (i + step) + step := by omega
        rw [hb]
        refine hat b (by omega) hbf ?_
        rw [hsum]
        exact Nat.dvd_add hdvd (dvd_refl _)
      · rw [if_neg hlt]
        exact Closes.refl h hw

/-- The walk of one region. -/
theorem closes_freeGpaDirRegion {release : ℕ → ℕ → Bool} {idxStart idxEnd : ℕ} {r : GpadescRegion}
    (h : s.Sound) (hd : d < s.numDescs) (hw : s.Whole d) (hl : s.backing.LowMemoryAligned)
    (hend : idxEnd ≤ s.backing.gpaLen) (hr : r ∈ s.backing.setGpadescRegions) :
    s.Closes (freeGpaDirRegion d release idxStart idxEnd s r) d := by
  rw [freeGpaDirRegion]
  by_cases hmeet : idxEnd ≤ r.start ∨ r.finish ≤ idxStart
  · rw [if_pos hmeet]
    exact Closes.refl h hw
  rw [if_neg hmeet]
  obtain ⟨hgpaLen, hwhole, hgroup⟩ := Backing.region_onGrid h.valid hl hr (by omega)
  -- the walk starts and ends on the grid of the region
  have hgrid : ∀ start finish, r.start ≤ start → 2 ^ (r.allocOrder - s.backing.sbOrder) ∣ start - r.start →
      finish ≤ r.finish → s.Closes (freeGpaDirLoop d (release (2 ^ (r.allocOrder - s.backing.sbOrder)))
        (2 ^ (r.allocOrder - s.backing.sbOrder)) finish (finish - start) start s) d := by
    intro start finish hstart hdvd hfinish
    refine closes_freeGpaDirLoop h hd hw rfl fun b hb hbf hdvdb => ?_
    have hb' : 2 ^ (r.allocOrder - s.backing.sbOrder) ∣ b - r.start := by
      have hsum : b - r.start = b - start + (start - r.start) := by omega
      rw [hsum]
      exact Nat.dvd_add hdvdb hdvd
    refine ⟨?_, by omega⟩
    rw [hgroup b (by omega) (by omega), alignDown_of_dvd hb', Nat.add_sub_cancel' (by omega)]
  refine hgrid _ _ ?_ ?_ ?_
  · split_ifs <;> omega
  · split_ifs
    · rw [Nat.add_sub_cancel_left]
      exact dvd_alignDown _ _
    · rw [Nat.sub_self]
      exact dvd_zero _
  · split_ifs with hcut
    · have hpos := Nat.two_pow_pos (r.allocOrder - s.backing.sbOrder)
      have hle := alignDown_le (r.allocOrder - s.backing.sbOrder)
        (idxEnd - r.start + 2 ^ (r.allocOrder - s.backing.sbOrder) - 1)
      by_contra hno
      have hover := add_le_of_dvd_of_lt hwhole (dvd_alignDown (r.allocOrder - s.backing.sbOrder)
        (idxEnd - r.start + 2 ^ (r.allocOrder - s.backing.sbOrder) - 1)) (by omega)
      omega
    · exact le_rfl

/-- The walk of the directory. -/
theorem closes_walk {release : ℕ → ℕ → Bool} {idxStart idxEnd : ℕ} {l : List GpadescRegion} (h : s.Sound)
    (hd : d < s.numDescs) (hw : s.Whole d) (hl : s.backing.LowMemoryAligned)
    (hend : idxEnd ≤ s.backing.gpaLen) (hmem : ∀ r ∈ l, r ∈ s.backing.setGpadescRegions) :
    s.Closes (l.foldl (freeGpaDirRegion d release idxStart idxEnd) s) d := by
  induction l generalizing s with
  | nil => exact Closes.refl h hw
  | cons r l ih =>
      have hone : s.Closes (freeGpaDirRegion d release idxStart idxEnd s r) d :=
        closes_freeGpaDirRegion h hd hw hl hend (hmem r (List.mem_cons_self ..))
      obtain ⟨hb, hnum⟩ := hone.fields
      refine hone.trans (ih hone.sound (hnum ▸ hd) hone.whole (hb ▸ hl) (hb ▸ hend) ?_)
      rw [hb]
      exact fun r' hr' => hmem r' (List.mem_cons_of_mem _ hr')

/-! ### The last close -/

section Last

variable {y : VmdescDir}

/-- The directory is that of the vmdesc. -/
def Mirrors (s : ForkSys) (d : ℕ) (y : VmdescDir) : Prop :=
  y.dir.gpaDir = s.gpaDir d ∧ y.dir.backing = s.backing

theorem mirrors_putMaxBlock (step : ℕ) (h : s.Mirrors d y) :
    (s.putMaxBlock d i step).Mirrors d
      (if (y.dir.gpaDir i).isSome then y.removeGpaDir i step else y) := by
  obtain ⟨hdir, hb⟩ := h
  rw [putMaxBlock, hdir]
  cases s.gpaDir d i with
  | none => exact ⟨hdir, hb⟩
  | some x =>
      have hfree : ∀ s' : ForkSys, (s'.freeGpadesc x).gpaDir = s'.gpaDir ∧
          (s'.freeGpadesc x).backing = s'.backing := by
        intro s'
        rw [freeGpadesc]
        split_ifs <;> exact ⟨rfl, rfl⟩
      have hremove : (s.removeGpaDir d i step).Mirrors d (y.removeGpaDir i step) := by
        refine ⟨?_, hb⟩
        rw [removeGpaDir_self, ← hdir]
        rfl
      rw [Option.isSome_some, if_pos rfl]
      by_cases hmore : 0 < s.refcnt x - 1
      · simpa only [if_pos hmore] using hremove
      · simp only [if_neg hmore]
        exact ⟨hremove.1.trans (congrFun (hfree _).1 d).symm, hremove.2.trans (hfree _).2.symm⟩

/-- The loop takes the slots that the loop over one vmdesc takes. -/
theorem mirrors_loop {release : ℕ → Bool} {step finish fuel : ℕ} (h : s.Mirrors d y) :
    (freeGpaDirLoop d release step finish fuel i s).Mirrors d
      (y.freeGpaDirLoop release step finish fuel i) := by
  induction fuel generalizing s y i with
  | zero => exact h
  | succ fuel ih =>
      rw [freeGpaDirLoop, VmdescDir.freeGpaDirLoop]
      by_cases hlt : i < finish
      · rw [if_pos hlt, if_pos hlt]
        refine ih ?_
        cases hrel : release i with
        | true => simpa using mirrors_putMaxBlock step h
        | false => simpa using h
      · rw [if_neg hlt, if_neg hlt]
        exact h

theorem mirrors_region {release : ℕ → ℕ → Bool} {idxStart idxEnd : ℕ} {r : GpadescRegion}
    (h : s.Mirrors d y) : (freeGpaDirRegion d release idxStart idxEnd s r).Mirrors d
      (VmdescDir.freeGpaDirRegion release idxStart idxEnd y r) := by
  rw [freeGpaDirRegion, VmdescDir.freeGpaDirRegion, h.2]
  by_cases hmeet : idxEnd ≤ r.start ∨ r.finish ≤ idxStart
  · rw [if_pos hmeet, if_pos hmeet]
    exact h
  · rw [if_neg hmeet, if_neg hmeet]
    exact mirrors_loop h

theorem mirrors_walk {release : ℕ → ℕ → Bool} {idxStart idxEnd : ℕ} {l : List GpadescRegion}
    (h : s.Mirrors d y) : (l.foldl (freeGpaDirRegion d release idxStart idxEnd) s).Mirrors d
      (l.foldl (VmdescDir.freeGpaDirRegion release idxStart idxEnd) y) := by
  induction l generalizing s y with
  | nil => exact h
  | cons r l ih => exact ih (mirrors_region h)

/-- The last close leaves no slot. -/
theorem empty_of_last (h : s.Sound) (hw : s.Whole d) (hl : s.backing.LowMemoryAligned) (i : ℕ) :
    (s.backing.setGpadescRegions.foldl (freeGpaDirRegion d (fun _ _ => true) 0 s.backing.gpaLen)
      s).gpaDir d i = none := by
  have hmirror : s.Mirrors d (s.view d) := ⟨rfl, rfl⟩
  have hinv : (s.view d).dir.Inv := h.dirInv hw
  have hs : VmdescDir.Swept (s.view d) (s.backing.setGpadescRegions.foldl
      (VmdescDir.freeGpaDirRegion (fun _ _ => true) 0 s.backing.gpaLen) (s.view d)) _ :=
    VmdescDir.swept_walk h.valid hl le_rfl
  rw [← (mirrors_walk hmirror).1]
  exact VmdescDir.empty_of_swept hinv hs i

end Last

end ForkSys

end Emp
