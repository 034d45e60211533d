import Emp.Lock.System

/-!
# What others change

The slots whose descriptors have one head are those of a block.  When another actor changes the
directory, the blocks whose heads an actor has locked stay as they are, and no other descriptor
gets one of these heads.

## Main definitions and results

* `Directory.BlockOf` — the slots of a block by the head of their descriptors.
* `LockSys.untouched_of_change` — a change by another actor.
-/

namespace Emp

namespace Directory

variable {d d' : Directory} {i j idx : ℕ} {s t p : Slot} {g : Group}

theorem isDesc_iff : d.IsDesc s ↔ ∃ g, d.group s.group = some g ∧ s.member < g.len := by
  rw [IsDesc]
  cases d.group s.group with
  | none => simp
  | some g => simp

theorem headOf_eq (h : d.Inv) (hg : d.group s.group = some g) (hlt : s.member < g.len) :
    d.headOf s = ⟨s.group, alignDown (g.gpa s.member).descOrder s.member⟩ := by
  obtain ⟨-, -, hplaced, hgeo⟩ := h.group _ _ hg
  rw [headOf, hg]
  simp only
  rw [Group.empGetBlockHead_eq hplaced hgeo hlt, Group.member_ptr hplaced]

theorem Inv.isDesc (h : d.Inv) (hs : d.gpaDir i = some s) : d.IsDesc s := by
  obtain ⟨t, g, ht⟩ := h.exists_gpaAt (Option.isSome_iff_exists.mpr ⟨s, hs⟩)
  obtain ⟨hdir, hg⟩ := gpaAt_eq_some.mp ht
  obtain rfl := Option.some.inj (hs.symm.trans hdir)
  exact isDesc_iff.mpr ⟨g, hg, (h.range ht).2.2.2.2.1⟩

/-- The block with the head `p`: its slots are those whose descriptors have that head. -/
structure BlockOf (d : Directory) (p : Slot) (first size : ℕ) : Prop where
  slot : d.gpaDir first = some p
  head : d.headOf p = p
  mem : ∀ j, first ≤ j → j < first + size →
    ∃ t, d.gpaDir j = some t ∧ d.headOf t = p ∧ d.numSubblockOf t = size
  only : ∀ j t, d.gpaDir j = some t → d.headOf t = p → first ≤ j ∧ j < first + size

/-- Every populated slot belongs to the block of its descriptor's head. -/
theorem block_of_slot (h : d.Inv) (hs : d.gpaDir i = some s) :
    ∃ first size, d.BlockOf (d.headOf s) first size ∧ first ≤ i ∧ i < first + size := by
  obtain ⟨s', g, hat⟩ := h.exists_gpaAt (Option.isSome_iff_exists.mpr ⟨s, hs⟩)
  obtain ⟨hdir, hg⟩ := gpaAt_eq_some.mp hat
  obtain rfl := Option.some.inj (hs.symm.trans hdir)
  obtain ⟨-, hmember, -, hpos, hlt, hall⟩ := h.range hat
  have hb := h.blockAt_eq hat
  obtain ⟨hle, hlt', hrun⟩ := h.block_spec hb
  have hhead := headOf_eq h hg hlt
  have hdown := alignDown_le (g.gpa s.member).descOrder s.member
  obtain ⟨-, hfit, -⟩ := hmember.geometry.tiled.run (Nat.zero_le _) hlt
  -- the descriptors of the block's slots are members of one group
  have hin : ∀ j, g.start + alignDown (g.gpa s.member).descOrder s.member ≤ j →
      j < g.start + alignDown (g.gpa s.member).descOrder s.member + 2 ^ (g.gpa s.member).descOrder →
      d.gpaDir j = some ⟨s.group, j - g.start⟩ ∧ d.headOf ⟨s.group, j - g.start⟩ = d.headOf s ∧
        d.numSubblockOf ⟨s.group, j - g.start⟩ = 2 ^ (g.gpa s.member).descOrder := by
    intro j hj hj'
    have hslot := hall j (by omega) (by omega)
    have heq := Option.some.inj ((hrun j hj hj').symm.trans (h.blockAt_eq hslot))
    obtain ⟨hfirst, hsize⟩ := Prod.mk.inj heq
    refine ⟨(gpaAt_eq_some.mp hslot).1, ?_, ?_⟩
    · rw [hhead, headOf_eq h (s := ⟨s.group, j - g.start⟩) hg (by simp only; omega),
        ← Nat.add_left_cancel hfirst]
    · rw [numSubblockOf, hg]
      simp only
      rw [Group.numSubblock_eq hmember.geometry (by omega), ← hsize]
  have hfirst := hin _ le_rfl (Nat.lt_add_of_pos_right (Nat.two_pow_pos _))
  rw [Nat.add_sub_cancel_left, ← hhead] at hfirst
  refine ⟨_, _, ⟨hfirst.1, hfirst.2.1, fun j hj hj' => ⟨_, hin j hj hj'⟩, fun j t ht heq => ?_⟩,
    hle, hlt'⟩
  obtain ⟨t', g', hat'⟩ := h.exists_gpaAt (Option.isSome_iff_exists.mpr ⟨t, ht⟩)
  obtain ⟨hdir', hg'⟩ := gpaAt_eq_some.mp hat'
  obtain rfl := Option.some.inj (ht.symm.trans hdir')
  have hlt₁ := (h.range hat').2.2.2.2.1
  have hb' := h.blockAt_eq hat'
  rw [hhead, headOf_eq h hg' hlt₁] at heq
  obtain ⟨hgroup, halign⟩ := Slot.mk.inj heq
  rw [hgroup, hg] at hg'
  obtain rfl := Option.some.inj hg'
  -- both blocks hold the slot of the head
  obtain ⟨hle', hlt'', hrun'⟩ := h.block_spec hb'
  have hpos' := Nat.two_pow_pos (g.gpa t.member).descOrder
  have heq₁ := hrun' _ le_rfl (Nat.lt_add_of_pos_right hpos')
  simp only [halign] at heq₁
  have heq₂ := hrun _ le_rfl (Nat.lt_add_of_pos_right (Nat.two_pow_pos _))
  obtain ⟨-, hsize⟩ := Prod.mk.inj (Option.some.inj (heq₁.symm.trans heq₂))
  simp only [halign, hsize] at hle' hlt''
  exact ⟨hle', hlt''⟩

/-- A change that leaves blocks with these heads alone. -/
structure Untouched (d d' : Directory) (mine : Slot → Prop) : Prop where
  inv : d'.Inv
  backing : d'.backing = d.backing
  desc : ∀ p, d.IsDesc p → d'.IsDesc p
  slot : ∀ i p, d.gpaDir i = some p → mine (d.headOf p) → d'.gpaDir i = some p
  new : ∀ i p, d'.gpaDir i = some p → d.gpaDir i = some p ∨ d.group p.group = none
  head : ∀ p, d.IsDesc p → d'.headOf p = d.headOf p ∨ ¬ mine (d.headOf p) ∧ ¬ mine (d'.headOf p)

theorem Untouched.refl {mine : Slot → Prop} (h : d.Inv) : d.Untouched d mine :=
  ⟨h, rfl, fun _ => id, fun _ _ hp _ => hp, fun _ _ => .inl, fun _ _ => .inl rfl⟩

/-- A new group, or a copy, takes the slots of blocks with other heads. -/
theorem untouched_install {mine : Slot → Prop} {id : ℕ} (hinv : (d.install id g).Inv)
    (hfree : d.group id = none)
    (hslots : ∀ i p, g.start ≤ i → i < g.start + g.len → d.gpaDir i = some p →
      ¬ mine (d.headOf p)) : d.Untouched (d.install id g) mine := by
  have hgroup : ∀ p : Slot, (d.group p.group).isSome → (d.install id g).group p.group =
      d.group p.group := by
    intro p hp
    refine Function.update_of_ne (fun heq => ?_) _ _
    rw [heq, hfree] at hp
    cases hp
  have hsome : ∀ p, d.IsDesc p → (d.group p.group).isSome := by
    intro p hp
    obtain ⟨g', hg', -⟩ := isDesc_iff.mp hp
    rw [hg']
    rfl
  refine ⟨hinv, rfl, fun p hp => ?_, fun i p hp hmine => ?_, fun i p hp => ?_,
    fun p hp => .inl ?_⟩
  · rw [IsDesc, hgroup p (hsome p hp)]
    exact hp
  · rw [install_outside fun hin => hslots i p hin.1 hin.2 hp hmine]
    exact hp
  · by_cases hin : g.start ≤ i ∧ i < g.start + g.len
    · rw [install_inside hin] at hp
      obtain rfl := Option.some.inj hp
      exact .inr hfree
    · rw [install_outside hin] at hp
      exact .inl hp
  · rw [headOf, headOf, hgroup p (hsome p hp)]

end Directory

namespace LockSys

variable {s : LockSys} {t a : ℕ} {d' : Directory} {e : DirEvent}

/-- A change by another actor leaves the blocks alone whose heads an actor has locked. -/
theorem untouched_of_change (h : s.dir.Inv) (hs : s.dir.step e = some d')
    (hmay : s.mayChange a d' e) (hne : a ≠ t) :
    s.dir.Untouched d' fun p => s.owner p = some t := by
  have hother : ∀ p, s.owner p = some a → ¬ s.owner p = some t := fun p hp hp' =>
    hne (Option.some.inj (hp.symm.trans hp'))
  have hkept : s.dir.Kept d' := by
    rcases Directory.kept_of_step h hs with hkept | ⟨vma, addr, front, alloc, rfl⟩
    · exact hkept
    · cases hmay
  cases e with
  | touch idx alloc =>
      obtain ⟨havail, rfl⟩ := Transition.of_guard hs
      rcases Directory.getGpadesc_spec h havail with ⟨heq, -⟩ |
        ⟨id, base, g, -, -, hfree, -, -, hempty, -, -, heq⟩
      · rw [heq]
        exact .refl h
      · have hinv := hkept.inv
        rw [heq] at hinv ⊢
        refine Directory.untouched_install hinv hfree fun i p hi hi' hp => ?_
        rw [hempty i hi hi'] at hp
        cases hp
  | els id e =>
      obtain ⟨g, hg, hmap⟩ := Option.bind_eq_some_iff.mp hs
      obtain ⟨g', hstep, rfl⟩ := Option.map_eq_some_iff.mp hmap
      obtain ⟨-, -, hplaced, hgeo⟩ := h.group id g hg
      have hlen := (Group.lowered_of_step hplaced hgeo hstep).len_eq
      simp only [mayChange, hg, Option.any_some, List.all_eq_true, List.mem_range,
        decide_eq_true_eq] at hmay
      refine ⟨hkept.inv, rfl, fun p hp => ?_, fun _ _ hp _ => hp, fun _ _ => .inl, fun p hp => ?_⟩
      · obtain ⟨g₁, hg₁, hlt⟩ := Directory.isDesc_iff.mp hp
        by_cases heq : p.group = id
        · rw [heq, hg] at hg₁
          obtain rfl := Option.some.inj hg₁
          refine Directory.isDesc_iff.mpr ⟨g', ?_, hlen ▸ hlt⟩
          rw [heq]
          exact Function.update_self ..
        · exact Directory.isDesc_iff.mpr ⟨g₁, (Function.update_of_ne heq _ _).trans hg₁, hlt⟩
      · obtain ⟨g₁, hg₁, hlt⟩ := Directory.isDesc_iff.mp hp
        by_cases heq : p.group = id
        · rw [heq, hg] at hg₁
          obtain rfl := Option.some.inj hg₁
          have hp' : (⟨id, p.member⟩ : Slot) = p := by rw [← heq]
          have hmoved := hmay p.member hlt
          rw [hp'] at hmoved
          rcases hmoved with hsame | ⟨hold, hnew⟩
          · exact .inl hsame.symm
          · exact .inr ⟨hother _ hold, hother _ hnew⟩
        · refine .inl ?_
          have hgroup : (s.dir.setGroup id g').group p.group = s.dir.group p.group :=
            Function.update_of_ne heq _ _
          rw [Directory.headOf, Directory.headOf, hgroup]
  | cow idx id base =>
      rw [Directory.step, Option.ite_none_right_eq_some] at hs
      obtain ⟨havail, hbind⟩ := hs
      obtain ⟨⟨sl, g⟩, hsg, hmap⟩ := Option.bind_eq_some_iff.mp hbind
      obtain ⟨⟨start, order⟩, hso, rfl⟩ := Option.map_eq_some_iff.mp hmap
      obtain ⟨hfree, -, -, -, heq⟩ := Directory.copyGroup_spec h havail hsg hso
      have hinv := hkept.inv
      simp only at hinv ⊢
      rw [heq] at hinv ⊢
      simp only [mayChange, hsg, Option.any_some, List.all_eq_true, List.mem_range,
        decide_eq_true_eq] at hmay
      refine Directory.untouched_install hinv hfree fun i p hi hi' hp => ?_
      have hslot := (Directory.gpaAt_eq_some.mp ((h.range hsg).2.2.2.2.2 i hi hi')).1
      obtain rfl := Option.some.inj (hp.symm.trans hslot)
      have hi'' : i < g.start + g.len := hi'
      have hi₀ : g.start ≤ i := hi
      exact hother _ (hmay (i - g.start) (by omega))
  | split vma addr front alloc => cases hmay

end LockSys

end Emp
