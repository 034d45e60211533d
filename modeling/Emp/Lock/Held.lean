import Emp.Lock.Changes

/-!
# The locks of a caller

A caller holds the locks of the heads of a run of blocks, and maybe the lock of one descriptor more,
for which it is still looking whether it is the head that it wants.  Other actors leave the blocks
with locked heads alone, so this stays as it is while they move.

## Main definitions and results

* `LockSys.Held` — the locks of a caller.
* `LockSys.Held.frame` — what other actors do.
* `LockSys.Held.absorb`, `LockSys.Held.undo` — a block joins the run, or leaves it.
-/

namespace Emp

namespace Directory

variable {d : Directory} {i j : ℕ} {p s : Slot}

theorem headOf_group (d : Directory) (s : Slot) : (d.headOf s).group = s.group := by
  rw [headOf]
  split <;> rfl

theorem Inv.isDesc_headOf (h : d.Inv) (hs : d.IsDesc s) : d.IsDesc (d.headOf s) := by
  obtain ⟨g, hg, hlt⟩ := isDesc_iff.mp hs
  rw [headOf_eq h hg hlt]
  exact isDesc_iff.mpr ⟨g, hg, (alignDown_le _ _).trans_lt hlt⟩

/-- A descriptor is in one slot at most. -/
theorem Inv.slot_inj (h : d.Inv) (hi : d.gpaDir i = some s) (hj : d.gpaDir j = some s) : i = j := by
  have hpos : ∀ {k}, d.gpaDir k = some s → ∃ g, d.group s.group = some g ∧ k = g.start + s.member := by
    intro k hk
    obtain ⟨t, g, ht⟩ := h.exists_gpaAt (Option.isSome_iff_exists.mpr ⟨s, hk⟩)
    obtain ⟨hdir, hg⟩ := gpaAt_eq_some.mp ht
    obtain rfl := Option.some.inj (hk.symm.trans hdir)
    exact ⟨g, hg, (h.range ht).2.2.2.1⟩
  obtain ⟨g, hg, hi'⟩ := hpos hi
  obtain ⟨g', hg', hj'⟩ := hpos hj
  obtain rfl := Option.some.inj (hg.symm.trans hg')
  exact hi'.trans hj'.symm

theorem BlockOf.size_eq {first size : ℕ} (h : d.BlockOf p first size) (hpos : 0 < size) :
    d.numSubblockOf p = size := by
  obtain ⟨t, ht, -, hsize⟩ := h.mem first le_rfl (Nat.lt_add_of_pos_right hpos)
  rwa [← Option.some.inj (h.slot.symm.trans ht)] at hsize

end Directory

namespace LockSys

variable {s s' : LockSys} {t lo hi stop idx size : ℕ} {cur : Option Slot}
  {p q head : Slot}

/-! ### The locks -/

theorem owner_take (s : LockSys) (t : ℕ) (p q : Slot) :
    (s.take t p).owner q = if q = p then some t else s.owner q := by
  rw [owner, take, List.find?_cons]
  by_cases h : p = q
  · simp [h]
  · simp [h, Ne.symm h, owner]

theorem owner_release (s : LockSys) (p q : Slot) :
    (s.release p).owner q = if q = p then none else s.owner q := by
  rw [owner, release, List.find?_filter]
  by_cases h : q = p
  · subst h
    simp
  · have hsame : (fun l : Slot × ℕ => decide (decide (l.1 ≠ p) = true ∧ decide (l.1 = q) = true)) =
        fun l => decide (l.1 = q) := by
      funext l
      by_cases hl : l.1 = q
      · simp [hl, h]
      · simp [hl]
    rw [if_neg h, hsame]
    rfl

theorem owner_ne_of_free (h : s.Free t) (p : Slot) : s.owner p ≠ some t := by
  intro hp
  obtain ⟨l, hl, rfl⟩ := Option.map_eq_some_iff.mp hp
  exact h l (List.mem_of_find?_eq_some hl) rfl

/-! ### What a caller holds -/

/-- The actor holds the locks of the heads of the blocks whose subblocks are those from `lo` to
`hi`, which all start in front of `stop`, and that of `cur`. -/
structure Held (s : LockSys) (t lo hi stop : ℕ) (cur : Option Slot) : Prop where
  desc : ∀ p, s.owner p = some t → s.dir.IsDesc p
  range : ∀ i, lo ≤ i ∧ i < hi ↔ ∃ p, s.dir.gpaDir i = some p ∧
    s.owner (s.dir.headOf p) = some t ∧ some (s.dir.headOf p) ≠ cur
  heads : ∀ p, s.owner p = some t → some p ≠ cur →
    ∃ i, i < stop ∧ s.dir.gpaDir i = some p ∧ s.dir.headOf p = p
  cur : ∀ p, cur = some p → s.owner p = some t

/-- A step of others, from the point of view of an actor. -/
structure Frame (s s' : LockSys) (t : ℕ) : Prop where
  dir : s.dir.Untouched s'.dir fun p => s.owner p = some t
  owner : ∀ p, s'.owner p = some t ↔ s.owner p = some t

theorem Frame.headOf_eq (h : Frame s s' t) (hp : s.dir.IsDesc p)
    (hmine : s.owner (s.dir.headOf p) = some t) : s'.dir.headOf p = s.dir.headOf p :=
  (h.dir.head p hp).resolve_right fun hno => hno.1 hmine

theorem Frame.headOf_eq_of_new (h : Frame s s' t) (hp : s.dir.IsDesc p)
    (hmine : s'.owner (s'.dir.headOf p) = some t) : s'.dir.headOf p = s.dir.headOf p :=
  (h.dir.head p hp).resolve_right fun hno => hno.2 ((h.owner _).mp hmine)

theorem Held.frame (h : s.Held t lo hi stop cur) (hd : s.dir.Inv) (hf : Frame s s' t) :
    s'.Held t lo hi stop cur := by
  refine ⟨fun p hp => hf.dir.desc p (h.desc p ((hf.owner p).mp hp)), fun i => ⟨fun hi => ?_, ?_⟩,
    fun p hp hne => ?_, fun p hp => (hf.owner p).mpr (h.cur p hp)⟩
  · obtain ⟨p, hslot, howner, hne⟩ := (h.range i).mp hi
    have hhead := hf.headOf_eq (hd.isDesc hslot) howner
    refine ⟨p, hf.dir.slot i p hslot howner, ?_, ?_⟩
    · rw [hhead]
      exact (hf.owner _).mpr howner
    · rwa [hhead]
  · rintro ⟨p, hslot, howner, hne⟩
    rcases hf.dir.new i p hslot with hold | hfresh
    · have hhead := hf.headOf_eq_of_new (hd.isDesc hold) howner
      rw [hhead] at howner hne
      exact (h.range i).mpr ⟨p, hold, (hf.owner _).mp howner, hne⟩
    · -- nobody holds locks of a group that is new
      obtain ⟨g, hg, -⟩ := Directory.isDesc_iff.mp (h.desc _ ((hf.owner _).mp howner))
      rw [Directory.headOf_group, hfresh] at hg
      cases hg
  · have howner := (hf.owner p).mp hp
    obtain ⟨i, hi, hslot, hhead⟩ := h.heads p howner hne
    rw [← hhead] at howner
    exact ⟨i, hi, hf.dir.slot i p hslot howner,
      (hf.headOf_eq (hd.isDesc hslot) howner).trans hhead⟩

theorem held_of_none (h : ∀ p, s.owner p ≠ some t) (lo stop : ℕ) : s.Held t lo lo stop none := by
  refine ⟨fun p hp => absurd hp (h p), fun i => ⟨fun hi => by omega, ?_⟩,
    fun p hp => absurd hp (h p), nofun⟩
  rintro ⟨p, -, howner, -⟩
  exact absurd howner (h _)

theorem Held.none_of_le (h : s.Held t lo hi stop none) (hle : hi ≤ lo ∨ stop ≤ lo) (p : Slot) :
    s.owner p ≠ some t := by
  intro hp
  obtain ⟨i, hi, hslot, hhead⟩ := h.heads p hp nofun
  have hin := (h.range i).mpr ⟨p, hslot, by rwa [hhead], nofun⟩
  omega

theorem Held.take (h : s.Held t lo hi stop none) (hnone : s.owner head = none)
    (hdesc : s.dir.IsDesc head) : (s.take t head).Held t lo hi stop (some head) := by
  have hkeep : ∀ {q}, s.owner q = some t → q ≠ head := fun hq heq => by
    rw [heq, hnone] at hq
    cases hq
  have howner : ∀ q, q ≠ head → (s.take t head).owner q = s.owner q := fun q hq => by
    rw [owner_take, if_neg hq]
  refine ⟨fun p hp => ?_, fun i => ?_, fun p hp hne => ?_, fun p hp => ?_⟩
  · by_cases heq : p = head
    · rw [heq]
      exact hdesc
    · exact h.desc p (howner p heq ▸ hp)
  · rw [h.range]
    refine exists_congr fun p => and_congr_right fun _ => ⟨fun ⟨hp, _⟩ => ?_, fun ⟨hp, hne⟩ => ?_⟩
    · have hne := hkeep hp
      exact ⟨(howner _ hne).trans hp, fun heq => hne (Option.some.inj heq)⟩
    · exact ⟨howner _ (fun heq => hne (congrArg some heq)) ▸ hp, nofun⟩
  · have hne' : p ≠ head := fun heq => hne (congrArg some heq)
    exact h.heads p (howner p hne' ▸ hp) nofun
  · rw [← Option.some.inj hp, owner_take, if_pos rfl]

theorem Held.release (h : s.Held t lo hi stop (some head)) :
    (s.release head).Held t lo hi stop none := by
  have howner : ∀ q, (s.release head).owner q = some t ↔ q ≠ head ∧ s.owner q = some t := by
    intro q
    rw [owner_release]
    by_cases heq : q = head
    · simp [heq]
    · simp [heq]
  refine ⟨fun p hp => h.desc p ((howner p).mp hp).2, fun i => ?_, fun p hp _ => ?_, nofun⟩
  · rw [h.range]
    refine exists_congr fun p => and_congr_right fun _ => ⟨fun ⟨hp, hne⟩ => ?_, fun ⟨hp, _⟩ => ?_⟩
    · exact ⟨(howner _).mpr ⟨fun heq => hne (congrArg some heq), hp⟩, nofun⟩
    · obtain ⟨hne, hp⟩ := (howner _).mp hp
      exact ⟨hp, fun heq => hne (Option.some.inj heq)⟩
  · obtain ⟨hne, hp⟩ := (howner p).mp hp
    exact h.heads p hp fun heq => hne (Option.some.inj heq)

/-- The block behind the run joins it. -/
theorem Held.absorb (h : s.Held t lo idx stop (some head)) (hle : lo ≤ idx) (hlt : idx < stop)
    (hb : s.dir.BlockOf head idx size) : s.Held t lo (idx + size) stop none := by
  refine ⟨h.desc, fun i => ⟨fun hi => ?_, ?_⟩, fun p hp _ => ?_, nofun⟩
  · by_cases hi' : i < idx
    · obtain ⟨p, hslot, howner, -⟩ := (h.range i).mp ⟨hi.1, hi'⟩
      exact ⟨p, hslot, howner, nofun⟩
    · obtain ⟨p, hslot, hhead, -⟩ := hb.mem i (not_lt.mp hi') hi.2
      exact ⟨p, hslot, by rw [hhead]; exact h.cur head rfl, nofun⟩
  · rintro ⟨p, hslot, howner, -⟩
    by_cases heq : s.dir.headOf p = head
    · obtain ⟨hi, hi'⟩ := hb.only i p hslot heq
      exact ⟨hle.trans hi, hi'⟩
    · obtain ⟨hi, hi'⟩ := (h.range i).mpr ⟨p, hslot, howner, fun h => heq (Option.some.inj h)⟩
      exact ⟨hi, by omega⟩
  · by_cases heq : p = head
    · rw [heq]
      exact ⟨idx, hlt, hb.slot, hb.head⟩
    · exact h.heads p hp fun h => heq (Option.some.inj h)

/-- The first block of the run leaves it. -/
theorem Held.undo (hd : s.dir.Inv) (h : s.Held t lo hi stop none) (hlt : lo < hi)
    (hp : s.dir.gpaDir lo = some p) :
    s.owner p = some t ∧ (s.release p).Held t (lo + s.dir.numSubblockOf p) hi stop none := by
  obtain ⟨q, hq, howner, -⟩ := (h.range lo).mp ⟨le_rfl, hlt⟩
  obtain rfl := Option.some.inj (hp.symm.trans hq)
  obtain ⟨first, size, hb, hle, hlt'⟩ := Directory.block_of_slot hd hp
  -- the block does not start in front of the run
  obtain rfl : first = lo := by
    have hin := (h.range first).mpr ⟨_, hb.slot, by rwa [hb.head], nofun⟩
    omega
  obtain heq : p = s.dir.headOf p := Option.some.inj (hp.symm.trans hb.slot)
  rw [← heq] at hb howner
  have hown : ∀ q, (s.release p).owner q = some t ↔ q ≠ p ∧ s.owner q = some t := by
    intro q
    rw [owner_release]
    by_cases heq : q = p
    · simp [heq]
    · simp [heq]
  rw [hb.size_eq (by omega)]
  refine ⟨howner, ⟨fun q hq => h.desc q ((hown q).mp hq).2, fun i => ⟨fun hi => ?_, ?_⟩,
    fun q hq _ => h.heads q ((hown q).mp hq).2 nofun, nofun⟩⟩
  · obtain ⟨q, hslot, hq, -⟩ := (h.range i).mp ⟨by omega, hi.2⟩
    refine ⟨q, hslot, (hown _).mpr ⟨fun heq => ?_, hq⟩, nofun⟩
    have hin := hb.only i q hslot heq
    omega
  · rintro ⟨q, hslot, hq, -⟩
    obtain ⟨hne, hq⟩ := (hown _).mp hq
    obtain ⟨hi, hi'⟩ := (h.range i).mpr ⟨q, hslot, hq, nofun⟩
    refine ⟨?_, hi'⟩
    by_contra hin
    obtain ⟨r, hr, hhead, -⟩ := hb.mem i hi (not_le.mp hin)
    obtain rfl := Option.some.inj (hslot.symm.trans hr)
    exact hne hhead

end LockSys

end Emp
