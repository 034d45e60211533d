import Emp.Fork.Account

/-!
# What the operations do to the slots

First touches, splits and copy-on-write faults put whole groups into one directory, and operations
on blocks leave all slots alone.

## Main definitions

* `ForkSys.sound_populate`, `ForkSys.sound_changeGpaDir`, `ForkSys.sound_removeGpaDir` — the
  operations on one directory.
-/

namespace Emp

namespace ForkSys

variable {s s' : ForkSys} {c d i idx : ℕ} {x : Slot} {g : Group}

theorem keeps_of_reordered {dir dir' : Directory} (hr : dir.Reordered dir') (hg : s.group = dir.group)
    (hg' : s'.group = dir'.group) : s.Keeps s' := by
  intro id g h
  rw [hg] at h
  obtain ⟨g', h', hplace⟩ := hr.old id g h
  refine ⟨g', hg' ▸ h', ?_⟩
  rw [hplace]
  exact ⟨rfl, rfl, rfl⟩

/-- A new group, and the others as they were. -/
theorem keeps_install {id : ℕ} (hfree : s.group id = none)
    (hg : s'.group = Function.update s.group id (some g)) : s.Keeps s' := by
  intro id' g' h
  have hne : id' ≠ id := fun heq => by rw [heq, hfree] at h; cases h
  exact ⟨g', by rw [hg, Function.update_of_ne hne, h], rfl, rfl, rfl⟩

theorem Keeps.trans {s₁ s₂ s₃ : ForkSys} (h : s₁.Keeps s₂) (h' : s₂.Keeps s₃) : s₁.Keeps s₃ := by
  intro id g hg
  obtain ⟨g₂, hg₂, hstart, horder, hlen⟩ := h id g hg
  obtain ⟨g₃, hg₃, hstart', horder', hlen'⟩ := h' id g₂ hg₂
  exact ⟨g₃, hg₃, hstart'.trans hstart, horder'.trans horder, hlen'.trans hlen⟩

theorem Keeps.fresh (h : s.Keeps s') {id : ℕ} (hid : s'.group id = none) : s.group id = none := by
  by_contra hne
  obtain ⟨g, hg⟩ := Option.ne_none_iff_exists'.mp hne
  obtain ⟨g', hg', -⟩ := h id g hg
  rw [hid] at hg'
  cases hg'

/-- Blocks are reordered, and no slot changes. -/
theorem sound_reordered {f : ℕ → Option Group} (h : s.Sound)
    (hr : (s.dirAt 0).Reordered { s.dirAt 0 with group := f })
    (hmember : ∀ id g, f id = some g → (s.dirAt 0).Member g) : ({ s with group := f }).Sound := by
  have hkeeps : s.Keeps { s with group := f } := keeps_of_reordered hr rfl rfl
  refine sound_slots h h.root ⟨rfl, rfl, rfl, rfl, fun _ _ => rfl⟩ hmember hkeeps (fun i x hx => ?_)
    (fun _ _ _ _ => rfl) fun x hx => h.fresh x (hkeeps.fresh hx)
  obtain ⟨-, hi, g, hg, hat, heq, hm⟩ := h.slot 0 i x hx
  obtain ⟨g', hg', hstart, horder, hlen⟩ := hkeeps _ g hg
  exact ⟨hi, g', hg', by rw [hstart, horder, hat], hstart.symm ▸ heq, hlen.symm ▸ hm⟩

theorem slotsOf_populate {alloc : Option (ℕ × ℕ)} {dir : Directory} :
    s.SlotsOf (s.populate d alloc dir) d :=
  ⟨rfl, rfl, rfl, rfl, fun _ he => Function.update_of_ne he ..⟩

/-- A slot after a group has been installed. -/
theorem install_eq_some {id : ℕ} : ((s.dirAt d).install id g).gpaDir i = some x ↔
    (g.start ≤ i ∧ i < g.start + g.len) ∧ x = ⟨id, i - g.start⟩ ∨
      ¬ (g.start ≤ i ∧ i < g.start + g.len) ∧ s.gpaDir d i = some x := by
  by_cases hin : g.start ≤ i ∧ i < g.start + g.len
  · rw [Directory.install_inside hin, Option.some.injEq, eq_comm]
    exact ⟨fun h => .inl ⟨hin, h⟩, fun h => h.elim And.right fun hc => absurd hin hc.1⟩
  · rw [Directory.install_outside hin]
    exact ⟨fun h => .inr ⟨hin, h⟩, fun h => h.elim (fun hc => absurd hc.1 hin) And.right⟩

/-- No slot points to a group that has not been allocated. -/
theorem slot_ne_of_fresh (h : s.Sound) (hx : s.group x.group = none) (e i : ℕ) :
    s.gpaDir e i ≠ some x := by
  intro hdir
  obtain ⟨-, -, g, hg, -⟩ := h.slot e i x hdir
  rw [hx] at hg
  cases hg

/-- A first touch, or the split that follows it. -/
theorem sound_populate {alloc : Option (ℕ × ℕ)} {dir : Directory} (h : s.Sound) (hd : d < s.numDescs)
    (hw : s.Whole d) (havail : (s.dirAt d).available idx alloc)
    (hr : ((s.dirAt d).getGpadesc idx alloc).Reordered dir) (hdir : dir.Inv) :
    (s.populate d alloc dir).Sound ∧ (s.populate d alloc dir).Whole d ∧ s.Keeps (s.populate d alloc dir) := by
  have hinv := h.dirInv hw
  have hself : (s.populate d alloc dir).gpaDir d = dir.gpaDir := Function.update_self ..
  have hplace : dir.backing = s.backing ∧ dir.gpaSize = s.gpaSize := by
    rw [hr.backing, hr.gpaSize]
    rcases Directory.getGpadesc_spec hinv havail with ⟨heq, -⟩ | ⟨_, _, _, -, -, -, -, -, -, -, -, heq⟩
    · rw [heq]
      exact ⟨rfl, rfl⟩
    · rw [heq]
      exact ⟨rfl, rfl⟩
  have hmember : ∀ id g, dir.group id = some g → (s.dirAt 0).Member g :=
    fun id g hg => (hdir.group id g hg).congr hplace.1.symm hplace.2.symm
  have hslot : ∀ i x, (s.populate d alloc dir).gpaDir d i = some x → i < s.backing.gpaLen ∧ ∃ g,
      dir.group x.group = some g ∧ s.backing.groupAt i = some (g.start, g.allocOrder) ∧
        i = g.start + x.member ∧ x.member < g.len := by
    intro i x hx
    rw [hself] at hx
    obtain ⟨hi, g, hg, hat, -⟩ := hdir.slot i x hx
    obtain ⟨-, -, -, heq, hm, -⟩ := hdir.range (Directory.gpaAt_eq_some.mpr ⟨hx, hg⟩)
    rw [hplace.1] at hi hat
    exact ⟨hi, g, hg, hat, heq, hm⟩
  have hwhole : (s.populate d alloc dir).Whole d := by
    intro i x g hx hg j hj hj'
    rw [hself] at hx ⊢
    obtain ⟨-, g', hg', -, hall⟩ := hdir.slot i x hx
    obtain rfl : g' = g := Option.some.inj (hg'.symm.trans hg)
    exact hall j hj hj'
  rcases Directory.getGpadesc_spec hinv havail with ⟨heq, -⟩ |
    ⟨id, base, g₀, rfl, -, hfree, -, -, hempty, -, -, heq⟩
  · -- nothing has been allocated
    rw [heq] at hr
    have hkeeps : s.Keeps (s.populate d alloc dir) := keeps_of_reordered hr rfl rfl
    have hnone : (alloc.bind fun a => (dir.group a.1).map (a.1, ·)) = none := by
      cases alloc with
      | none => rfl
      | some a =>
          simp only [Directory.available, Bool.and_eq_true, Option.isNone_iff_eq_none] at havail
          rw [Option.bind_some, hr.new a.1 havail.1, Option.map_none]
    have href : (s.populate d alloc dir).refcnt = s.refcnt := by
      simp only [populate, hnone]
    refine ⟨sound_slots h hd slotsOf_populate hmember hkeeps hslot (fun x g _ _ => ?_) fun x hx => ?_,
      hwhole, hkeeps⟩
    · rw [href, hself, hr.slots]
      rfl
    · rw [href]
      exact h.fresh x (hkeeps.fresh hx)
  · rw [heq] at hr
    have hnew : ((s.dirAt d).install id g₀).group id = some g₀ := Function.update_self ..
    obtain ⟨g₁, hg₁, hplace₁⟩ := hr.old id g₀ hnew
    have hstart₁ : g₁.start = g₀.start ∧ g₁.len = g₀.len := by
      rw [hplace₁]
      exact ⟨rfl, rfl⟩
    have hadded : s.Keeps { s with group := Function.update s.group id (some g₀) } :=
      keeps_install hfree rfl
    have hkeeps : s.Keeps (s.populate d (some (id, base)) dir) :=
      hadded.trans (keeps_of_reordered hr rfl rfl)
    have href : (s.populate d (some (id, base)) dir).refcnt = fun x =>
        if x.group = id ∧ x.member < g₁.len ∧ s.gpaDir d (g₁.start + x.member) = none then
          s.refcnt x + 1 else s.refcnt x := by
      simp only [populate, Option.bind_some, hg₁, Option.map_some]
    refine ⟨sound_slots h hd slotsOf_populate hmember hkeeps hslot (fun x g hg hm => ?_) fun x hx => ?_,
      hwhole, hkeeps⟩
    · rw [href, hself, hr.slots]
      simp only [install_eq_some]
      by_cases hx : x.group = id
      · obtain rfl : g₁ = g := Option.some.inj (hg₁.symm.trans (hx ▸ hg))
        have hnone : s.gpaDir d (g₁.start + x.member) = none :=
          hempty (g₁.start + x.member) (by omega) (by omega)
        have hxeq : x = ⟨id, g₁.start + x.member - g₀.start⟩ := by
          rw [hstart₁.1, Nat.add_sub_cancel_left, ← hx]
        rw [if_pos ⟨hx, hm, hnone⟩, if_neg (slot_ne_of_fresh h (hx ▸ hfree : s.group x.group = none) d _),
          if_pos (.inl ⟨⟨by omega, by omega⟩, hxeq⟩), add_zero]
      · rw [if_neg fun hc => hx hc.1]
        congr 1
        refine if_congr ?_ rfl rfl
        constructor
        · refine fun hdir => .inr ⟨fun hrange => ?_, hdir⟩
          have hnone : s.gpaDir d (g.start + x.member) = none := hempty _ hrange.1 hrange.2
          rw [hnone] at hdir
          cases hdir
        · rintro (⟨-, heq⟩ | ⟨-, hdir⟩)
          · exact absurd (congrArg Slot.group heq) hx
          · exact hdir
    · rw [href]
      have hne : ¬ (x.group = id ∧ x.member < g₁.len ∧ s.gpaDir d (g₁.start + x.member) = none) := by
        rintro ⟨rfl, -⟩
        rw [show (s.populate d (some (x.group, base)) dir).group = dir.group from rfl, hg₁] at hx
        cases hx
      simp only [if_neg hne]
      exact h.fresh x (hkeeps.fresh hx)

/-- An operation on a block of a group. -/
theorem sound_els {id : ℕ} {g' : Group} {e : ElsEvent} (h : s.Sound) (hg : s.group id = some g)
    (hs : g.step e = some g') : ({ s with group := Function.update s.group id (some g') }).Sound ∧
      s.Keeps { s with group := Function.update s.group id (some g') } := by
  have hm := h.member id g hg
  have hplace := (Group.lowered_of_step hm.placed hm.geometry hs).place
  obtain ⟨hp, hgeo⟩ := Group.geometry_of_step hm.placed hm.geometry hs
  have hr : (s.dirAt 0).Reordered ((s.dirAt 0).setGroup id g') :=
    Directory.reordered_setGroup (d := s.dirAt 0) hg hplace
  refine ⟨sound_reordered h hr fun id' g₁ hg₁ => ?_, keeps_of_reordered hr rfl rfl⟩
  rcases Directory.setGroup_group (d := s.dirAt 0) hg₁ with ⟨-, rfl⟩ | ⟨-, hold⟩
  · refine ⟨?_, ?_, hp, hgeo⟩
    · rw [hplace]
      exact hm.backing
    · rw [hplace]
      exact hm.gpaSize
  · exact h.member id' g₁ hold

/-- Groups that no slot points to may be added. -/
theorem member_update {id : ℕ} (h : s.Sound) (hg : (s.dirAt 0).Member g) :
    ∀ id' g', Function.update s.group id (some g) id' = some g' → (s.dirAt 0).Member g' := by
  intro id' g' hg'
  rcases Directory.setGroup_group (d := s.dirAt 0) hg' with ⟨-, rfl⟩ | ⟨-, hold⟩
  · exact hg
  · exact h.member id' g' hold

/-- A copy of a group takes its place. -/
theorem sound_changeGpaDir {id base start order : ℕ} (h : s.Sound) (hd : d < s.numDescs)
    (hw : s.Whole d) (havail : (s.dirAt d).available idx (some (id, base)))
    (hx : (s.dirAt d).gpaAt idx = some (x, g)) (hat : s.backing.groupAt idx = some (start, order)) :
    (s.changeGpaDir d id base g x.group start order).Sound ∧
      (s.changeGpaDir d id base g x.group start order).Whole d ∧
      s.Keeps (s.changeGpaDir d id base g x.group start order) := by
  have hinv := h.dirInv hw
  obtain ⟨hlen, hmember, -, -, -, hall⟩ := hinv.range hx
  have hkept := (Directory.kept_copyGroup hinv havail hx hat).inv
  obtain ⟨hfree, rfl, rfl, hcopy, heq⟩ := Directory.copyGroup_spec hinv havail hx hat
  have hgroup : s.group x.group = some g := (Directory.gpaAt_eq_some.mp hx).2
  have hn : 2 ^ (g.allocOrder - s.backing.sbOrder) = g.len := hmember.len_eq.symm
  set s' := s.changeGpaDir d id base g x.group g.start g.allocOrder with hs'
  have hself : s'.gpaDir d = ((s.dirAt d).install id { g with base := base }).gpaDir := by
    rw [hs', changeGpaDir, heq]
    exact Function.update_self ..
  have hgroups : s'.group = Function.update s.group id (some { g with base := base }) := by
    rw [hs', changeGpaDir, heq]
    rfl
  have hslots : s.SlotsOf s' d := ⟨rfl, rfl, rfl, rfl, fun _ he => Function.update_of_ne he ..⟩
  have hkeeps : s.Keeps s' := keeps_install hfree hgroups
  have hfrom : (s'.dirAt d).Inv := by
    have hdir : s'.dirAt d = (s.dirAt d).copyGroup id base g g.start g.allocOrder := by
      rw [heq, dirAt, hgroups, hself]
      rfl
    exact hdir ▸ hkept
  refine ⟨sound_slots h hd hslots ?_ hkeeps (fun i y hy => ?_) (fun y g' hg' hm => ?_) fun y hy => ?_,
    whole_of_dirInv hfrom, hkeeps⟩
  · rw [hgroups]
    exact member_update h (hcopy.congr rfl rfl)
  · obtain ⟨hi, g', hg', hat', -⟩ := hfrom.slot i y hy
    obtain ⟨-, -, -, hidx, hm, -⟩ := hfrom.range (Directory.gpaAt_eq_some.mpr ⟨hy, hg'⟩)
    exact ⟨hi, g', hg', hat', hidx, hm⟩
  · have href : s'.refcnt y = if y.group = id ∧ y.member < g.len then s.refcnt y + 1
        else if y.group = x.group ∧ y.member < g.len then s.refcnt y - 1 else s.refcnt y := by
      rw [← hn]
      rfl
    have hclen : ({ g with base := base } : Group).len = g.len := rfl
    rw [href, hself]
    simp only [install_eq_some, hclen]
    by_cases hy : y.group = id
    · -- the copy gains the slot
      rw [hgroups, hy, Function.update_self, Option.some.injEq] at hg'
      subst hg'
      have hlt : y.member < g.len := hm
      have hold := slot_ne_of_fresh h (hy ▸ hfree : s.group y.group = none) d
      have hyeq : Slot.mk id (g.start + y.member - g.start) = y := by
        rw [Nat.add_sub_cancel_left, ← hy]
      have hrange : g.start ≤ g.start + y.member ∧ g.start + y.member < g.start + g.len :=
        ⟨Nat.le_add_right _ _, Nat.add_lt_add_left hlt _⟩
      rw [if_pos ⟨hy, hlt⟩, if_neg (hold _), if_pos (.inl ⟨hrange, hyeq.symm⟩), add_zero]
    · rw [hgroups, Function.update_of_ne hy] at hg'
      have hnew : ∀ i, y ≠ ⟨id, i⟩ := fun i heq => hy (congrArg Slot.group heq)
      by_cases hxy : y.group = x.group
      · -- the old group loses it
        obtain rfl : g = g' := Option.some.inj (hgroup.symm.trans (hxy ▸ hg'))
        have hdir : s.gpaDir d (g.start + y.member) = _ := (Directory.gpaAt_eq_some.mp
          (hall (g.start + y.member) (Nat.le_add_right _ _) (by omega))).1
        have hyeq : Slot.mk x.group (g.start + y.member - g.start) = y := by
          rw [Nat.add_sub_cancel_left, ← hxy]
        rw [hyeq] at hdir
        have hlost : ¬ ((g.start ≤ g.start + y.member ∧ g.start + y.member < g.start + g.len) ∧
            y = ⟨id, g.start + y.member - g.start⟩ ∨
            ¬ (g.start ≤ g.start + y.member ∧ g.start + y.member < g.start + g.len) ∧
              s.gpaDir d (g.start + y.member) = some y) := by
          rintro (⟨-, heq⟩ | ⟨hno, -⟩)
          · exact hnew _ heq
          · exact hno ⟨Nat.le_add_right _ _, by omega⟩
        rw [if_neg fun hc => hy hc.1, if_pos ⟨hxy, hm⟩, if_pos hdir, if_neg hlost]
        omega
      · rw [if_neg fun hc => hy hc.1, if_neg fun hc => hxy hc.1]
        congr 1
        refine if_congr ?_ rfl rfl
        constructor
        · refine fun hdir => .inr ⟨fun hrange => hxy ?_, hdir⟩
          have hdir' : s.gpaDir d (g'.start + y.member) = _ :=
            (Directory.gpaAt_eq_some.mp (hall _ hrange.1 hrange.2)).1
          rw [hdir, Option.some.injEq] at hdir'
          rw [hdir']
        · rintro (⟨-, heq⟩ | ⟨-, hdir⟩)
          · exact absurd heq (hnew _)
          · exact hdir
  · have hyid : y.group ≠ id := fun heq' => by
      rw [hgroups, heq', Function.update_self] at hy
      cases hy
    have hyx : y.group ≠ x.group := fun heq' => by
      have hnone := hkeeps.fresh hy
      rw [heq', hgroup] at hnone
      cases hnone
    have href : s'.refcnt y = s.refcnt y := by
      change (if y.group = id ∧ _ then _ else if y.group = x.group ∧ _ then _ else _) = _
      rw [if_neg fun hc => hyid hc.1, if_neg fun hc => hyx hc.1]
    rw [href]
    exact h.fresh y (hkeeps.fresh hy)

/-- A copy that has failed leaves a group that no slot points to. -/
theorem sound_failed {id : ℕ} (h : s.Sound) (hfree : s.group id = none) (hg : (s.dirAt 0).Member g) :
    ({ s with group := Function.update s.group id (some g) }).Sound ∧
      s.Keeps { s with group := Function.update s.group id (some g) } := by
  have hkeeps : s.Keeps { s with group := Function.update s.group id (some g) } :=
    keeps_install hfree rfl
  refine ⟨sound_slots h h.root ⟨rfl, rfl, rfl, rfl, fun _ _ => rfl⟩ (member_update h hg) hkeeps
    (fun i x hx => ?_) (fun _ _ _ _ => rfl) fun x hx => h.fresh x (hkeeps.fresh hx), hkeeps⟩
  obtain ⟨-, hi, g₁, hg₁, hat, heq, hm⟩ := h.slot 0 i x hx
  obtain ⟨g', hg', hstart, horder, hlen⟩ := hkeeps _ g₁ hg₁
  exact ⟨hi, g', hg', by rw [hstart, horder, hat], hstart.symm ▸ heq, hlen.symm ▸ hm⟩

end ForkSys

end Emp
