import Emp.Els.Boundary
import Emp.Els.Directory

/-!
# No block crosses the address of a split

The slots of a group are populated together, so the walk of a split finds the block that holds
the boundary whenever the group of the boundary exists, and cuts it.  From then on the
ceiling of the boundary keeps the blocks apart.  A group of the boundary that could not be
allocated at the split is made later with the ceilings of its region, and nothing keeps them.

## Main definitions

* `Directory.Inv` — the slots of a group are populated together, by a sound group.
* `Directory.CutHeld` — what the split at an address has left behind.
* `Directory.BoundaryPopulated` — the split finds or makes the group of the boundary.
-/

namespace Emp

namespace Backing

variable {m : Backing} {idx s o b : ℕ}

theorem exists_region_of_groupAt (h : m.groupAt idx = some (s, o)) :
    ∃ r, m.getGpadescRegion idx = some r ∧ r.allocOrder = o ∧
      m.empGetBlockHeadIndex idx (o - m.sbOrder) = s := by
  obtain ⟨r, hr, heq⟩ := Option.map_eq_some_iff.mp h
  obtain ⟨hs, ho⟩ := Prod.mk.inj heq
  subst ho
  exact ⟨r, hr, rfl, hs⟩

/-- Behind a group starts another one. -/
theorem groupAt_next (hm : m.Valid) (hlen : idx < m.gpaLen) (h : m.groupAt idx = some (s, o))
    (hnext : s + 2 ^ (o - m.sbOrder) < m.gpaLen) :
    ∃ o', m.groupAt (s + 2 ^ (o - m.sbOrder)) = some (s + 2 ^ (o - m.sbOrder), o') := by
  obtain ⟨s', o', hat, hle, hlt, hall⟩ := groupAt_spec hm hnext
  obtain ⟨s₁, o₁, hat₁, -, -, hall₁⟩ := groupAt_spec hm hlen
  obtain ⟨rfl, rfl⟩ : s₁ = s ∧ o₁ = o := by simpa using hat₁.symm.trans h
  have hpos := Nat.two_pow_pos (o₁ - m.sbOrder)
  have hstart : s' = s₁ + 2 ^ (o₁ - m.sbOrder) := by
    by_contra hne
    -- otherwise the last index of the one group belongs to the other
    have hlast := (hall₁ (s₁ + 2 ^ (o₁ - m.sbOrder) - 1) (by omega) (by omega)).2
    have hlast' := (hall (s₁ + 2 ^ (o₁ - m.sbOrder) - 1) (by omega) (by omega)).2
    obtain ⟨rfl, rfl⟩ : s₁ = s' ∧ o₁ = o' := by simpa using hlast.symm.trans hlast'
    omega
  exact ⟨o', hstart ▸ hat⟩

/-- The subblock that holds a page. -/
theorem indexOf_spec (h : m.vmBase ≤ b) :
    m.gpnOffsetToHva (m.indexOf b) ≤ b ∧ b < m.gpnOffsetToHva (m.indexOf b + 1) := by
  have hle := alignDown_le m.sbOrder (b - m.vmBase)
  have hlt := lt_alignDown_add m.sbOrder (b - m.vmBase)
  simp only [alignDown] at hle hlt
  simp only [gpnOffsetToHva, indexOf, Nat.add_mul, one_mul]
  omega

theorem gpnOffsetToHva_mono {i j : ℕ} (h : i ≤ j) : m.gpnOffsetToHva i ≤ m.gpnOffsetToHva j :=
  Nat.add_le_add_left (Nat.mul_le_mul_right _ h) _

theorem indexOf_mono {b' : ℕ} (h : b ≤ b') : m.indexOf b ≤ m.indexOf b' :=
  Nat.div_le_div_right (Nat.sub_le_sub_right h _)

/-- The walk over the pages below `b` reaches the subblock of any of them, and that of `b` too
unless `b` starts a subblock. -/
theorem indexOf_le_indexEnd (b : ℕ) : m.indexOf b ≤ m.indexEnd b := by
  have hpos := Nat.two_pow_pos m.sbOrder
  exact Nat.div_le_div_right (by omega)

theorem indexOf_lt_indexEnd {b' : ℕ} (hb : m.vmBase ≤ b) (h : b < b') :
    m.indexOf b < m.indexEnd b' := by
  have hpos := Nat.two_pow_pos m.sbOrder
  rw [indexEnd, Nat.lt_div_iff_mul_lt hpos]
  have hle := Nat.div_mul_le_self (b - m.vmBase) (2 ^ m.sbOrder)
  rw [indexOf]
  omega

theorem vmBase_le (m : Backing) : m.vmBase ≤ m.vmStart := Nat.div_mul_le_self _ _

theorem indexOf_lt_gpaLen (hb : m.vmBase ≤ b) (h : b < m.vmEnd) : m.indexOf b < m.gpaLen := by
  have hpos := Nat.two_pow_pos m.sbOrder
  have hend : m.vmEnd ≤ m.sbEnd * 2 ^ m.sbOrder := by
    have hlt := Nat.lt_div_mul_add (a := m.vmEnd + 2 ^ m.sbOrder - 1) hpos
    rw [← sbEnd] at hlt
    omega
  rw [indexOf, Nat.div_lt_iff_lt_mul hpos, gpaLen, Nat.sub_mul, ← vmBase]
  omega

/-- A boundary that is exact is the start of its subblock. -/
theorem eq_of_isExact {vma : Vma} {mark : Bool} {boundary addr : ℕ}
    (h : m.isExact vma mark boundary addr = true) : m.gpnOffsetToHva boundary = addr := by
  simp only [isExact, gpaToHvaLenOff] at h
  split_ifs at h <;> simp only [Bool.and_eq_true, beq_iff_eq] at h <;> exact h.1.1.symm

end Backing

namespace Directory

variable {d d' : Directory} {i idx a : ℕ} {s : Slot} {g g' : Group}

theorem gpaAt_eq_some : d.gpaAt i = some (s, g) ↔ d.gpaDir i = some s ∧ d.group s.group = some g := by
  rw [gpaAt, Option.bind_eq_some_iff]
  constructor
  · rintro ⟨t, hdir, hmap⟩
    obtain ⟨g', hg, heq⟩ := Option.map_eq_some_iff.mp hmap
    obtain ⟨rfl, rfl⟩ := Prod.mk.inj heq
    exact ⟨hdir, hg⟩
  · rintro ⟨hdir, hg⟩
    exact ⟨s, hdir, by rw [hg, Option.map_some]⟩

/-- The group has what the directory's groups have in common, and is sound. -/
structure Member (d : Directory) (g : Group) : Prop where
  backing : g.backing = d.backing
  gpaSize : g.gpaSize = d.gpaSize
  placed : g.Placed
  geometry : g.Geometry

/-- All groups are sound, and the slots of a group are populated together. -/
structure Inv (d : Directory) : Prop where
  valid : d.backing.Valid
  pos : 0 < d.gpaSize
  group : ∀ id g, d.group id = some g → d.Member g
  slot : ∀ i s, d.gpaDir i = some s → i < d.backing.gpaLen ∧ ∃ g, d.group s.group = some g ∧
    d.backing.groupAt i = some (g.start, g.allocOrder) ∧
      ∀ j, g.start ≤ j → j < g.start + g.len → d.gpaDir j = some ⟨s.group, j - g.start⟩

/-- What the split at `a` has left behind. -/
def CutHeld (d : Directory) (a : ℕ) : Prop :=
  ∃ s g, d.gpaAt (d.backing.indexOf a) = some (s, g) ∧
    g.CutAt s.member (d.backing.gpnOffsetToHva (d.backing.indexOf a) = a)

theorem Member.congr (h : d.Member g) (hb : d'.backing = d.backing) (hs : d'.gpaSize = d.gpaSize) :
    d'.Member g :=
  ⟨h.backing.trans hb.symm, h.gpaSize.trans hs.symm, h.placed, h.geometry⟩

theorem Member.len_eq (h : d.Member g) : g.len = 2 ^ (g.allocOrder - d.backing.sbOrder) := by
  rw [Group.len, h.backing]

/-- A populated slot lies in the range of its group. -/
theorem Inv.range (h : d.Inv) (hi : d.gpaAt i = some (s, g)) :
    i < d.backing.gpaLen ∧ d.Member g ∧ d.backing.groupAt i = some (g.start, g.allocOrder) ∧
      i = g.start + s.member ∧ s.member < g.len ∧
      ∀ j, g.start ≤ j → j < g.start + g.len → d.gpaAt j = some (⟨s.group, j - g.start⟩, g) := by
  obtain ⟨hdir, hgroup⟩ := gpaAt_eq_some.mp hi
  obtain ⟨hlen, g', hg', hat, hall⟩ := h.slot i s hdir
  obtain rfl : g' = g := Option.some.inj (hg'.symm.trans hgroup)
  have hmember := h.group _ _ hgroup
  obtain ⟨s₁, o₁, hat₁, hle, hlt, -⟩ := Backing.groupAt_spec h.valid hlen
  obtain ⟨rfl, rfl⟩ : s₁ = g'.start ∧ o₁ = g'.allocOrder := by simpa using hat₁.symm.trans hat
  rw [← hmember.len_eq] at hlt
  have hslot : s = ⟨s.group, i - g'.start⟩ := Option.some.inj (hdir.symm.trans (hall i hle hlt))
  have hs : s.member = i - g'.start := congrArg Slot.member hslot
  exact ⟨hlen, hmember, hat, by omega, by omega,
    fun j hj hj' => gpaAt_eq_some.mpr ⟨hall j hj hj', hgroup⟩⟩

theorem Inv.exists_gpaAt (h : d.Inv) (hi : (d.gpaDir i).isSome) : ∃ s g, d.gpaAt i = some (s, g) := by
  obtain ⟨s, hs⟩ := Option.isSome_iff_exists.mp hi
  obtain ⟨-, g, hg, -⟩ := h.slot i s hs
  exact ⟨s, g, gpaAt_eq_some.mpr ⟨hs, hg⟩⟩

/-- **What a split leaves behind keeps the blocks apart.** -/
theorem splitSafe_of_cutHeld (h : d.Inv) (ha : d.backing.vmBase ≤ a) (hcut : d.CutHeld a) :
    d.SplitSafe a := by
  obtain ⟨sb, gb, hb, hheld⟩ := hcut
  obtain ⟨-, -, -, hbidx, -, -⟩ := h.range hb
  obtain ⟨hble, hblt⟩ := Backing.indexOf_spec ha
  set b := d.backing.indexOf a
  refine ⟨fun i j hsame hlow hhigh => ?_, fun s g hs hne => ?_⟩
  · obtain ⟨s, t, g, hi, hj, -, heads⟩ := hsame
    obtain ⟨-, hmember, -, hiidx, hilt, hall⟩ := h.range hi
    obtain ⟨-, -, -, hjidx, hjlt, -⟩ := h.range hj
    -- the boundary lies between the two, and so in their group
    have hib : i ≤ b := by
      by_contra hno
      have hnext : b + 1 ≤ i := by omega
      have hmono := Backing.gpnOffsetToHva_mono (m := d.backing) hnext
      omega
    have hbj : b ≤ j := by
      by_contra hno
      have hnext : j + 1 ≤ b := by omega
      have hmono := Backing.gpnOffsetToHva_mono (m := d.backing) hnext
      omega
    have hb' := hall b (by omega) (by omega)
    obtain ⟨rfl, rfl⟩ := Prod.mk.inj (Option.some.inj (hb.symm.trans hb'))
    obtain ⟨hstart, halone⟩ := hheld.apart hmember.placed hmember.geometry hilt hjlt heads
      (by simp only; omega) (by simp only; omega)
    simp only at hstart
    have hib' : i = b := by omega
    by_cases haligned : d.backing.gpnOffsetToHva b = a
    · rw [hib'] at hlow
      omega
    · have heq := halone haligned
      omega
  · obtain ⟨rfl, rfl⟩ := Prod.mk.inj (Option.some.inj (hb.symm.trans hs))
    obtain ⟨-, hmember, -, -, hlt, -⟩ := h.range hb
    obtain ⟨hmax, hmark⟩ := hheld.alone hne
    have hle := hmember.geometry.le_max _ hlt
    have hblock := hmember.geometry.blockOrder _ hlt
    have hsb := hmember.geometry.sbOrder _ hlt
    exact ⟨by omega, hmark⟩

/-! ### What the operations keep -/

/-- The directory stays sound, slots stay populated, and what splits have left behind stays. -/
structure Kept (d d' : Directory) : Prop where
  inv : d'.Inv
  backing : d'.backing = d.backing
  cuts : d'.cuts = d.cuts
  populated : ∀ i, (d.gpaDir i).isSome → (d'.gpaDir i).isSome
  cutHeld : ∀ a, d.CutHeld a → d'.CutHeld a

theorem Kept.refl (h : d.Inv) : d.Kept d := ⟨h, rfl, rfl, fun _ => id, fun _ => id⟩

theorem Kept.trans {d₁ d₂ d₃ : Directory} (h : d₁.Kept d₂) (h' : d₂.Kept d₃) : d₁.Kept d₃ :=
  ⟨h'.inv, h'.backing.trans h.backing, h'.cuts.trans h.cuts, fun i hi => h'.populated i (h.populated i hi),
    fun a ha => h'.cutHeld a (h.cutHeld a ha)⟩

theorem setGroup_group {id id' : ℕ} (h : (d.setGroup id g).group id' = some g') :
    id' = id ∧ g' = g ∨ id' ≠ id ∧ d.group id' = some g' := by
  by_cases heq : id' = id
  · subst heq
    simp only [setGroup, Function.update_self, Option.some.injEq] at h
    exact .inl ⟨rfl, h.symm⟩
  · simp only [setGroup, Function.update_of_ne heq] at h
    exact .inr ⟨heq, h⟩

/-- An operation on the blocks of a group. -/
theorem kept_setGroup {id : ℕ} (h : d.Inv) (hg : d.group id = some g) (hlower : g.Lowered g')
    (hg' : g'.Geometry) : d.Kept (d.setGroup id g') := by
  have hold := h.group id g hg
  have hplace := hlower.place
  have hself : (d.setGroup id g').group id = some g' := Function.update_self ..
  have hother : ∀ id', id' ≠ id → (d.setGroup id g').group id' = d.group id' :=
    fun id' hne => Function.update_of_ne hne _ _
  refine ⟨⟨h.valid, h.pos, fun id' g₁ hg₁ => ?_, fun i s hs => ?_⟩, rfl, rfl, fun _ h => h, ?_⟩
  · rcases setGroup_group hg₁ with ⟨-, rfl⟩ | ⟨-, hgroup⟩
    · refine ⟨?_, ?_, hold.placed.congr hplace, hg'⟩
      · rw [hplace]
        exact hold.backing
      · rw [hplace]
        exact hold.gpaSize
    · obtain ⟨hb, hs, hp, hgeo⟩ := h.group id' g₁ hgroup
      exact ⟨hb, hs, hp, hgeo⟩
  · obtain ⟨hlen, g₁, hg₁, hat, hall⟩ := h.slot i s hs
    refine ⟨hlen, ?_⟩
    by_cases heq : s.group = id
    · rw [heq, hg] at hg₁
      obtain rfl := Option.some.inj hg₁
      refine ⟨g', heq ▸ hself, ?_, ?_⟩
      · rw [hplace]
        exact hat
      · rw [hlower.len_eq, hplace]
        exact hall
    · exact ⟨g₁, (hother _ heq).trans hg₁, hat, hall⟩
  · intro a ⟨s, g₁, hs, hcut⟩
    obtain ⟨hdir, hgroup⟩ := gpaAt_eq_some.mp hs
    by_cases heq : s.group = id
    · rw [heq, hg] at hgroup
      obtain rfl := Option.some.inj hgroup
      exact ⟨s, g', gpaAt_eq_some.mpr ⟨hdir, heq ▸ hself⟩, hcut.lowered hlower hg'⟩
    · exact ⟨s, g₁, gpaAt_eq_some.mpr ⟨hdir, (hother _ heq).trans hgroup⟩, hcut⟩

/-- A group that `new_gpadesc` makes. -/
theorem member_newGpadesc {base s o : ℕ} (h : d.Inv) (hlen : idx < d.backing.gpaLen)
    (hat : d.backing.groupAt idx = some (s, o))
    (hbase : base % (d.gpaSize * 2 ^ (o - d.backing.sbOrder)) = 0) :
    ∃ g, Group.newGpadesc d.backing idx d.gpaSize base = some g ∧ d.Member g ∧ g.start = s ∧
      g.allocOrder = o := by
  obtain ⟨r, hr, rfl, rfl⟩ := Backing.exists_region_of_groupAt hat
  have hnew : Group.newGpadesc d.backing idx d.gpaSize base = some ⟨d.backing, d.gpaSize, base,
      d.backing.empGetBlockHeadIndex idx (r.allocOrder - d.backing.sbOrder), r.allocOrder,
        fun _ => GpaDesc.init d.backing r⟩ := by
    rw [Group.newGpadesc, hr, Option.map_some]
  have hstart : Group.Start _ :=
    ⟨d.backing, idx, d.gpaSize, base, h.valid, hlen, h.pos, hnew, Nat.dvd_of_mod_eq_zero hbase⟩
  obtain ⟨hplaced, hgeo⟩ := Group.geometry_of_start hstart
  exact ⟨_, hnew, ⟨rfl, rfl, hplaced, hgeo⟩, rfl, rfl⟩

/-- The slots of a group are empty together. -/
theorem Inv.empty (h : d.Inv) {s o : ℕ} (hat : d.backing.groupAt idx = some (s, o))
    (hlen : idx < d.backing.gpaLen) (hnone : d.gpaDir idx = none) {j : ℕ} (hj : s ≤ j)
    (hj' : j < s + 2 ^ (o - d.backing.sbOrder)) : d.gpaDir j = none := by
  by_contra hne
  obtain ⟨t, g, hg⟩ := h.exists_gpaAt (Option.isSome_iff_ne_none.mpr hne)
  obtain ⟨-, hmember, hatj, -, -, hall⟩ := h.range hg
  obtain ⟨s₁, o₁, hat₁, hle, hlt, hgroup⟩ := Backing.groupAt_spec h.valid hlen
  obtain ⟨rfl, rfl⟩ : s₁ = s ∧ o₁ = o := by simpa using hat₁.symm.trans hat
  obtain ⟨rfl, rfl⟩ : s₁ = g.start ∧ o₁ = g.allocOrder := by
    simpa using (hgroup j hj hj').2.symm.trans hatj
  rw [← hmember.len_eq] at hlt
  have hself := (gpaAt_eq_some.mp (hall idx hle hlt)).1
  rw [hnone] at hself
  cases hself

/-- The directory after all slots of a group have been pointed to a new array. -/
def install (d : Directory) (id : ℕ) (g : Group) : Directory :=
  { d with
    group := Function.update d.group id (some g)
    gpaDir := fun i =>
      if g.start ≤ i ∧ i < g.start + g.len then some ⟨id, i - g.start⟩ else d.gpaDir i }

theorem install_inside {id : ℕ} (h : g.start ≤ i ∧ i < g.start + g.len) :
    (d.install id g).gpaDir i = some ⟨id, i - g.start⟩ := if_pos h

theorem install_outside {id : ℕ} (h : ¬ (g.start ≤ i ∧ i < g.start + g.len)) :
    (d.install id g).gpaDir i = d.gpaDir i := if_neg h

/-- A group whose slots were empty, or held descriptors of which it has copies. -/
theorem kept_install {id : ℕ} (h : d.Inv) (hfree : d.group id = none) (hg : d.Member g)
    (hlen : idx < d.backing.gpaLen) (hat : d.backing.groupAt idx = some (g.start, g.allocOrder))
    (hcopy : ∀ j s g₀, g.start ≤ j → j < g.start + g.len → d.gpaAt j = some (s, g₀) →
      g.gpa = g₀.gpa) : d.Kept (d.install id g) := by
  have hself : (d.install id g).group id = some g := Function.update_self ..
  have hother : ∀ id' g', d.group id' = some g' → (d.install id g).group id' = some g' := by
    intro id' g' hg'
    have hne : id' ≠ id := fun heq => by rw [heq, hfree] at hg'; cases hg'
    exact (Function.update_of_ne hne _ _).trans hg'
  have hin : ∀ j, g.start ≤ j → j < g.start + g.len →
      (d.install id g).gpaDir j = some ⟨id, j - g.start⟩ := fun j hj hj' => install_inside ⟨hj, hj'⟩
  have hout : ∀ j, ¬ (g.start ≤ j ∧ j < g.start + g.len) →
      (d.install id g).gpaDir j = d.gpaDir j := fun j hj => install_outside hj
  obtain ⟨s₁, o₁, hat₁, -, -, hgroup⟩ := Backing.groupAt_spec h.valid hlen
  obtain ⟨rfl, rfl⟩ : s₁ = g.start ∧ o₁ = g.allocOrder := by simpa using hat₁.symm.trans hat
  rw [← hg.len_eq] at hgroup
  -- a slot in the range belonged to the same group before
  have hsame : ∀ j s g₀, g.start ≤ j → j < g.start + g.len → d.gpaAt j = some (s, g₀) →
      g₀.start = g.start ∧ g₀.len = g.len := by
    intro j s g₀ hj hj' hs
    obtain ⟨-, hmember, hatj, -⟩ := h.range hs
    obtain ⟨hstart, horder⟩ : g.start = g₀.start ∧ g.allocOrder = g₀.allocOrder := by
      simpa using (hgroup j hj hj').2.symm.trans hatj
    exact ⟨hstart.symm, by rw [hmember.len_eq, hg.len_eq, horder]⟩
  refine ⟨⟨h.valid, h.pos, fun id' g' hg' => ?_, fun i s hs => ?_⟩, rfl, rfl, fun i hi => ?_, ?_⟩
  · rcases setGroup_group hg' with ⟨-, rfl⟩ | ⟨-, hold⟩
    · exact ⟨hg.backing, hg.gpaSize, hg.placed, hg.geometry⟩
    · obtain ⟨hb, hz, hp, hgeo⟩ := h.group id' g' hold
      exact ⟨hb, hz, hp, hgeo⟩
  · by_cases hrange : g.start ≤ i ∧ i < g.start + g.len
    · rw [hin i hrange.1 hrange.2] at hs
      obtain rfl := Option.some.inj hs
      obtain ⟨hilen, hiat⟩ := hgroup i hrange.1 hrange.2
      exact ⟨hilen, g, hself, hiat, hin⟩
    · rw [hout i hrange] at hs
      obtain ⟨hilen, g₀, hg₀, hiat, hall⟩ := h.slot i s hs
      refine ⟨hilen, g₀, hother _ _ hg₀, hiat, fun j hj hj' => ?_⟩
      have hjdir := hall j hj hj'
      rw [hout j fun hjr => ?_]
      · exact hjdir
      · -- otherwise the two groups would be the same
        obtain ⟨hstart, hlen'⟩ := hsame j _ g₀ hjr.1 hjr.2 (gpaAt_eq_some.mpr ⟨hjdir, hg₀⟩)
        obtain ⟨-, -, -, hiidx, hilt, -⟩ := h.range (gpaAt_eq_some.mpr ⟨hs, hg₀⟩)
        exact hrange ⟨by omega, by omega⟩
  · by_cases hrange : g.start ≤ i ∧ i < g.start + g.len
    · rw [hin i hrange.1 hrange.2]
      rfl
    · rw [hout i hrange]
      exact hi
  · intro a ⟨s, g₀, hs, hcut⟩
    by_cases hrange : g.start ≤ d.backing.indexOf a ∧ d.backing.indexOf a < g.start + g.len
    · obtain ⟨hstart, hlen'⟩ := hsame _ s g₀ hrange.1 hrange.2 hs
      obtain ⟨-, hmember, -, hidx, hlt, -⟩ := h.range hs
      have hslot : (d.install id g).gpaDir (d.backing.indexOf a) = some ⟨id, s.member⟩ := by
        have hmem : d.backing.indexOf a - g.start = s.member := by omega
        rw [hin _ hrange.1 hrange.2, hmem]
      have hgpa := hcopy _ s g₀ hrange.1 hrange.2 hs
      have hsb : g.backing = g₀.backing := hg.backing.trans hmember.backing.symm
      refine ⟨⟨id, s.member⟩, g, gpaAt_eq_some.mpr ⟨hslot, hself⟩, ⟨hlen' ▸ hlt, ?_, ?_⟩⟩
      · rw [hgpa, hsb]
        exact hcut.grid
      · rw [hgpa, hsb]
        exact hcut.alone
    · obtain ⟨hdir, hgr⟩ := gpaAt_eq_some.mp hs
      exact ⟨s, g₀, gpaAt_eq_some.mpr ⟨(hout _ hrange).trans hdir, hother _ _ hgr⟩, hcut⟩

/-- A first touch: the slots of the group are populated together, unless the slot is, or lies behind
the directory, or the allocation fails. -/
theorem getGpadesc_spec {alloc : Option (ℕ × ℕ)} (h : d.Inv) (havail : d.available idx alloc) :
    (d.getGpadesc idx alloc = d ∧ ((d.gpaDir idx).isSome ∨ alloc = none ∨ d.backing.gpaLen ≤ idx)) ∨
    ∃ id base g, alloc = some (id, base) ∧ idx < d.backing.gpaLen ∧ d.group id = none ∧ d.Member g ∧
      d.backing.groupAt idx = some (g.start, g.allocOrder) ∧
      (∀ j, g.start ≤ j → j < g.start + g.len → d.gpaDir j = none) ∧
      g.start ≤ idx ∧ idx < g.start + g.len ∧ d.getGpadesc idx alloc = d.install id g := by
  rw [getGpadesc]
  split_ifs with hpop
  · exact .inl ⟨rfl, .inl hpop⟩
  cases alloc with
  | none => exact .inl ⟨rfl, .inr (.inl rfl)⟩
  | some slot =>
      obtain ⟨id, base⟩ := slot
      simp only [newGpadesc]
      split_ifs with hlen
      · exact .inl ⟨rfl, .inr (.inr hlen)⟩
      have hlt : idx < d.backing.gpaLen := not_le.mp hlen
      have hnone : d.gpaDir idx = none := by simpa using hpop
      obtain ⟨s, o, hat, hle, hidx, -⟩ := Backing.groupAt_spec h.valid hlt
      simp only [available, hat, Bool.and_eq_true, Option.all_some, beq_iff_eq,
        Option.isNone_iff_eq_none] at havail
      obtain ⟨g, hnew, hg, rfl, rfl⟩ := member_newGpadesc h hlt hat havail.2
      have hempty := fun j => h.empty hat hlt hnone (j := j)
      rw [← hg.len_eq] at hempty hidx
      have hstart := hempty g.start le_rfl (by omega)
      have heq : (fun i => if g.start ≤ i ∧ i < g.start + g.len ∧ d.gpaDir i = none then
          some (Slot.mk id (i - g.start)) else d.gpaDir i) = (d.install id g).gpaDir := by
        funext i
        by_cases hi : g.start ≤ i ∧ i < g.start + g.len
        · rw [install_inside hi, if_pos ⟨hi.1, hi.2, hempty i hi.1 hi.2⟩]
        · rw [install_outside hi, if_neg fun hc => hi ⟨hc.1, hc.2.1⟩]
      simp only [hnew, hstart, Option.isSome_none, Bool.false_eq_true, if_false, heq]
      exact .inr ⟨id, base, g, rfl, hlt, havail.1, hg, hat, hempty, hle, hidx, rfl⟩

/-- A first touch; the slot is populated unless the allocation fails. -/
theorem kept_getGpadesc {alloc : Option (ℕ × ℕ)} (h : d.Inv) (havail : d.available idx alloc) :
    d.Kept (d.getGpadesc idx alloc) ∧ (idx < d.backing.gpaLen → alloc.isSome →
      ((d.getGpadesc idx alloc).gpaDir idx).isSome) := by
  rcases getGpadesc_spec h havail with ⟨heq, hwhy⟩ |
    ⟨id, base, g, rfl, hlt, hfree, hg, hat, hempty, hle, hidx, heq⟩
  · rw [heq]
    refine ⟨Kept.refl h, fun hlt hsome => ?_⟩
    rcases hwhy with hpop | rfl | hlen
    · exact hpop
    · cases hsome
    · exact absurd hlen (not_le.mpr hlt)
  · rw [heq]
    refine ⟨kept_install h hfree hg hlt hat fun j s g₀ hj hj' hs => ?_, fun _ _ => ?_⟩
    · have hdir := (gpaAt_eq_some.mp hs).1
      rw [hempty j hj hj'] at hdir
      cases hdir
    · rw [install_inside ⟨hle, hidx⟩]
      rfl

/-- A copy-on-write fault puts a copy of the group in its place. -/
theorem copyGroup_spec {id base start order : ℕ} (h : d.Inv)
    (havail : d.available idx (some (id, base))) (hs : d.gpaAt idx = some (s, g))
    (hso : d.backing.groupAt idx = some (start, order)) :
    d.group id = none ∧ start = g.start ∧ order = g.allocOrder ∧ d.Member { g with base := base } ∧
      d.copyGroup id base g start order = d.install id { g with base := base } := by
  obtain ⟨hlen, hmember, hat, -, -, hall⟩ := h.range hs
  obtain ⟨rfl, rfl⟩ := Prod.mk.inj (Option.some.inj (hso.symm.trans hat))
  simp only [available, hat, Bool.and_eq_true, Option.all_some, beq_iff_eq,
    Option.isNone_iff_eq_none] at havail
  obtain ⟨hfree, hbase⟩ := havail
  refine ⟨hfree, rfl, rfl, ?_, ?_⟩
  · obtain ⟨hb, hz, hp, hgeo⟩ := hmember
    refine ⟨hb, hz, ⟨hp.pos, ?_, hp.sb_le, hp.grid⟩, ?_⟩
    · rw [← hz, ← hb] at hbase
      exact Nat.dvd_of_mod_eq_zero hbase
    · exact ⟨hgeo.tiled, hgeo.sbOrder, hgeo.blockOrder, hgeo.le_max, hgeo.max_le, hgeo.ceiling⟩
  · rw [copyGroup, ← hmember.len_eq]
    rfl

/-- A copy-on-write fault. -/
theorem kept_copyGroup {id base : ℕ} {so : ℕ × ℕ} (h : d.Inv)
    (havail : d.available idx (some (id, base))) (hs : d.gpaAt idx = some (s, g))
    (hso : d.backing.groupAt idx = some so) : d.Kept (d.copyGroup id base g so.1 so.2) := by
  obtain ⟨hlen, -, hat, -, -, hall⟩ := h.range hs
  obtain ⟨hfree, hstart, horder, hcopy, heq⟩ := copyGroup_spec h havail hs hso
  rw [heq]
  refine kept_install h hfree hcopy hlen hat fun j t g₀ hj hj' ht => ?_
  obtain ⟨-, rfl⟩ := Prod.mk.inj (Option.some.inj ((hall j hj hj').symm.trans ht))
  rfl

/-! ### The walk of a split -/

/-- The head of a populated slot's block, by index arithmetic. -/
theorem Inv.head (h : d.Inv) (hs : d.gpaAt idx = some (s, g)) :
    ∃ k t, d.backing.empGetBlockHeadIndex idx (g.gpa s.member).descOrder = k ∧
      d.gpaAt k = some (t, g) ∧ alignDown (g.gpa t.member).descOrder t.member = t.member ∧
      k ≤ idx ∧ idx < k + (g.gpa t.member).numSubblock := by
  obtain ⟨-, hmember, hat, hpos, hlt, hall⟩ := h.range hs
  have hdown := alignDown_le (g.gpa s.member).descOrder s.member
  have hup := lt_alignDown_add (g.gpa s.member).descOrder s.member
  obtain ⟨-, -, hrun⟩ := hmember.geometry.tiled.run (Nat.zero_le _) hlt
  set k := alignDown (g.gpa s.member).descOrder s.member with hk
  have hdesc : (g.gpa k).descOrder = (g.gpa s.member).descOrder :=
    hrun k le_rfl (Nat.lt_add_of_pos_right (Nat.two_pow_pos _))
  have hslot := hall (g.start + k) (by omega) (by omega)
  rw [Nat.add_sub_cancel_left] at hslot
  refine ⟨g.start + k, ⟨s.group, k⟩, ?_, hslot, ?_, by omega, ?_⟩
  · rw [hpos, ← hmember.backing, Group.headIndex_eq hmember.placed hmember.geometry hlt]
  · simp only [hdesc]
    exact alignDown_of_dvd (hk ▸ dvd_alignDown _ _)
  · rw [Group.numSubblock_eq hmember.geometry (by simp only; omega)]
    simp only [hdesc]
    omega

/-- The loop over the groups stops at the start of a group. -/
theorem nextExistHead_start (h : d.Inv) {fuel k : ℕ}
    (hat : idx < d.backing.gpaLen → ∃ o, d.backing.groupAt idx = some (idx, o))
    (hk : d.nextExistHead fuel idx = some k) : ∃ o, d.backing.groupAt k = some (k, o) := by
  induction fuel generalizing idx with
  | zero => cases hk
  | succ fuel ih =>
      rw [nextExistHead] at hk
      split_ifs at hk with hpop
      · obtain rfl := Option.some.inj hk
        obtain ⟨s, g, hs⟩ := h.exists_gpaAt hpop
        exact hat (h.range hs).1
      · obtain ⟨r, hr, hrest⟩ := Option.bind_eq_some_iff.mp hk
        refine ih (fun hlen => ?_) hrest
        have hidx : idx < d.backing.gpaLen := (Nat.le_add_right _ _).trans_lt hlen
        obtain ⟨o, ho⟩ := hat hidx
        obtain ⟨r', hr', rfl, -⟩ := Backing.exists_region_of_groupAt ho
        obtain rfl : r' = r := Option.some.inj (hr'.symm.trans hr)
        exact Backing.groupAt_next h.valid hidx ho hlen

/-- The walk comes upon heads of blocks only. -/
theorem head_of_getNextExistHead (h : d.Inv) {k : ℕ} (hk : d.getNextExistHead idx = some k)
    (hs : d.gpaAt k = some (s, g)) :
    alignDown (g.gpa s.member).descOrder s.member = s.member := by
  rw [getNextExistHead] at hk
  cases hidx : d.gpaAt idx with
  | some sg =>
      obtain ⟨s₀, g₀⟩ := sg
      obtain ⟨k', t, hk', ht, hhead, -⟩ := h.head hidx
      simp only [hidx, hk', Option.some.injEq] at hk
      subst hk
      obtain ⟨rfl, rfl⟩ := Prod.mk.inj (Option.some.inj (hs.symm.trans ht))
      exact hhead
  | none =>
      simp only [hidx] at hk
      obtain ⟨r, hr, hrest⟩ := Option.bind_eq_some_iff.mp hk
      have hat : d.backing.groupAt idx = some (d.backing.empGetBlockHeadIndex idx
          (r.allocOrder - d.backing.sbOrder), r.allocOrder) := by
        rw [Backing.groupAt, hr, Option.map_some]
      have hpos := Nat.two_pow_pos (r.allocOrder - d.backing.sbOrder)
      have hrun : idx < d.backing.empGetBlockHeadIndex idx (r.allocOrder - d.backing.sbOrder) +
          2 ^ (r.allocOrder - d.backing.sbOrder) := by
        have hmod := Nat.mod_lt (if d.backing.blockAlignedStart ≤ idx then
          idx - d.backing.blockAlignedStart else idx) hpos
        rw [Backing.empGetBlockHeadIndex]
        omega
      obtain ⟨o, ho⟩ := nextExistHead_start h
        (fun hlen => Backing.groupAt_next h.valid (hrun.trans hlen) hat hlen) hrest
      obtain ⟨-, -, hgat, hidx', -⟩ := h.range hs
      obtain ⟨hstart, -⟩ : k = g.start ∧ o = g.allocOrder := by simpa using ho.symm.trans hgat
      have hzero : s.member = 0 := by omega
      rw [hzero]
      exact alignDown_of_dvd (dvd_zero _)

/-- The loop over the groups stops at a populated one, not behind the boundary. -/
theorem nextExistHead_spec {b o : ℕ} (h : d.Inv) (hb : (d.gpaDir b).isSome) {fuel : ℕ}
    (hat : d.backing.groupAt idx = some (idx, o)) (hle : idx ≤ b) (hfuel : b < idx + fuel) :
    ∃ k o', d.nextExistHead fuel idx = some k ∧ k ≤ b ∧ idx ≤ k ∧ (d.gpaDir k).isSome ∧
      d.backing.groupAt k = some (k, o') := by
  obtain ⟨sb, gb, hgb⟩ := h.exists_gpaAt hb
  obtain ⟨hblen, -⟩ := h.range hgb
  induction fuel generalizing idx o with
  | zero => omega
  | succ fuel ih =>
      rw [nextExistHead]
      split_ifs with hpop
      · exact ⟨idx, o, rfl, hle, le_rfl, hpop, hat⟩
      · obtain ⟨r, hr, rfl, -⟩ := Backing.exists_region_of_groupAt hat
        have hpos := Nat.two_pow_pos (r.allocOrder - d.backing.sbOrder)
        have hbehind : idx + 2 ^ (r.allocOrder - d.backing.sbOrder) ≤ b := by
          by_contra hin
          have hnone := h.empty hat (by omega) (by simpa using hpop) hle (not_le.mp hin)
          rw [hnone] at hb
          cases hb
        obtain ⟨o', hnext⟩ := Backing.groupAt_next h.valid (by omega) hat (by omega)
        rw [hr, Option.bind_some]
        obtain ⟨k, o₂, hk, hkb, hik, hrest⟩ := ih hnext hbehind (by omega)
        exact ⟨k, o₂, hk, hkb, by omega, hrest⟩

/-- The walk comes upon a block that ends behind the index and does not start behind the
boundary. -/
theorem getNextExistHead_spec {b : ℕ} (h : d.Inv) (hb : (d.gpaDir b).isSome) (hle : idx ≤ b) :
    ∃ k s g, d.getNextExistHead idx = some k ∧ d.gpaAt k = some (s, g) ∧ k ≤ b ∧
      idx < k + (g.gpa s.member).numSubblock := by
  obtain ⟨sb, gb, hgb⟩ := h.exists_gpaAt hb
  obtain ⟨hblen, -⟩ := h.range hgb
  rw [getNextExistHead]
  cases hidx : d.gpaAt idx with
  | some sg =>
      obtain ⟨s, g⟩ := sg
      obtain ⟨k, t, hk, ht, -, hki, hik⟩ := h.head hidx
      exact ⟨k, t, g, congrArg some hk, ht, hki.trans hle, hik⟩
  | none =>
      have hnone : d.gpaDir idx = none := by
        by_contra hne
        obtain ⟨s, g, hs⟩ := h.exists_gpaAt (Option.isSome_iff_ne_none.mpr hne)
        rw [hidx] at hs
        cases hs
      obtain ⟨s, o, hat, hsle, hidxlt, -⟩ := Backing.groupAt_spec h.valid (hle.trans_lt hblen)
      obtain ⟨r, hr, rfl, hhead⟩ := Backing.exists_region_of_groupAt hat
      have hbehind : s + 2 ^ (r.allocOrder - d.backing.sbOrder) ≤ b := by
        by_contra hin
        have hempty := h.empty hat (hle.trans_lt hblen) hnone (hsle.trans hle) (not_le.mp hin)
        rw [hempty] at hb
        cases hb
      obtain ⟨o', hnext⟩ :=
        Backing.groupAt_next h.valid (hle.trans_lt hblen) hat (hbehind.trans_lt hblen)
      obtain ⟨k, o₂, hk, hkb, hik, hpop, hkat⟩ :=
        nextExistHead_spec h hb hnext hbehind
          (Nat.lt_add_left _ (Nat.lt_succ_of_lt hblen) : b < _ + (d.backing.gpaLen + 1))
      obtain ⟨t, g, ht⟩ := h.exists_gpaAt hpop
      have hsub := Nat.two_pow_pos ((g.gpa t.member).blockOrder - (g.gpa t.member).sbOrder)
      refine ⟨k, t, g, ?_, ht, hkb, ?_⟩
      · simp only [hr, Option.bind_some, hhead]
        exact hk
      · rw [GpaDesc.numSubblock]
        omega

/-- The loop over the groups stops at a populated one. -/
theorem isSome_of_nextExistHead {fuel k : ℕ} (hk : d.nextExistHead fuel idx = some k) :
    idx ≤ k ∧ (d.gpaDir k).isSome := by
  induction fuel generalizing idx with
  | zero => cases hk
  | succ fuel ih =>
      rw [nextExistHead] at hk
      split_ifs at hk with hpop
      · obtain rfl := Option.some.inj hk
        exact ⟨le_rfl, hpop⟩
      · obtain ⟨r, -, hrest⟩ := Option.bind_eq_some_iff.mp hk
        obtain ⟨hle, hsome⟩ := ih hrest
        exact ⟨(Nat.le_add_right _ _).trans hle, hsome⟩

/-- The walk comes upon a populated slot, at the next one or in the group of the index. -/
theorem isSome_of_getNextExistHead (h : d.Inv) {k : ℕ} (hk : d.getNextExistHead idx = some k) :
    (d.gpaDir k).isSome ∧ (∀ i, idx ≤ i → i < k → d.gpaDir i = none) ∧
      (k ≤ idx → idx < d.backing.gpaLen ∧ d.backing.groupAt k = d.backing.groupAt idx) := by
  have hnext : ∀ i, idx ≤ i → i < k → d.gpaDir i = none := by
    intro i hle hlt
    by_contra hne
    obtain ⟨k', -, -, hk', -, hle', -⟩ :=
      getNextExistHead_spec h (Option.isSome_iff_ne_none.mpr hne) hle
    rw [hk, Option.some.injEq] at hk'
    omega
  cases hidx : d.gpaAt idx with
  | some sg =>
      obtain ⟨s, g⟩ := sg
      obtain ⟨k', t, hk', ht, -, hle, -⟩ := h.head hidx
      obtain rfl : k' = k := by simpa [getNextExistHead, hidx, hk'] using hk
      refine ⟨Option.isSome_iff_exists.mpr ⟨t, (gpaAt_eq_some.mp ht).1⟩, hnext,
        fun _ => ⟨(h.range hidx).1, ?_⟩⟩
      rw [(h.range ht).2.2.1, (h.range hidx).2.2.1]
  | none =>
      rw [getNextExistHead] at hk
      simp only [hidx] at hk
      obtain ⟨r, hr, hrest⟩ := Option.bind_eq_some_iff.mp hk
      obtain ⟨hle, hsome⟩ := isSome_of_nextExistHead hrest
      have hpos := Nat.two_pow_pos (r.allocOrder - d.backing.sbOrder)
      have hrun : idx < d.backing.empGetBlockHeadIndex idx (r.allocOrder - d.backing.sbOrder) +
          2 ^ (r.allocOrder - d.backing.sbOrder) := by
        have hmod := Nat.mod_lt (if d.backing.blockAlignedStart ≤ idx then
          idx - d.backing.blockAlignedStart else idx) hpos
        rw [Backing.empGetBlockHeadIndex]
        omega
      exact ⟨hsome, hnext, fun hback => absurd hback (by omega)⟩

/-- A block the walk comes upon is left alone or cut. -/
theorem kept_splitGpadesc {prev : Vma} {b k : ℕ} (h : d.Inv) (hk : d.getNextExistHead idx = some k)
    (hs : d.gpaAt k = some (s, g)) : d.Kept (d.splitGpadesc prev a b k s g) := by
  rw [splitGpadesc]
  split_ifs with hcut
  · obtain ⟨-, hmember, -, -, hlt, -⟩ := h.range hs
    have hhead := (Group.isHead_iff hmember.placed hmember.geometry hlt).mpr
      (head_of_getNextExistHead h hk hs)
    have hstep : ∀ exact, Group.step g (.split s.member (s.member + (b - k)) exact) =
        some (g.splitGpadesc s.member (s.member + (b - k)) exact) :=
      fun _ => if_pos ⟨hhead, Nat.le_add_right _ _, by omega⟩
    exact kept_setGroup h (gpaAt_eq_some.mp hs).2
      (Group.lowered_of_step hmember.placed hmember.geometry (hstep _))
      (Group.geometry_of_step hmember.placed hmember.geometry (hstep _)).2
  · exact Kept.refl h

theorem kept_splitWalk {prev : Vma} {b stop : ℕ} (h : d.Inv) (fuel : ℕ) :
    d.Kept (splitWalk prev a b stop fuel idx d) := by
  induction fuel generalizing d idx with
  | zero => exact Kept.refl h
  | succ fuel ih =>
      rw [splitWalk]
      split_ifs
      · cases hnext : (d.getNextExistHead idx).bind fun k => (d.gpaAt k).map (k, ·) with
        | none => exact Kept.refl h
        | some found =>
            obtain ⟨k, hk, hmap⟩ := Option.bind_eq_some_iff.mp hnext
            obtain ⟨⟨s, g⟩, hs, rfl⟩ := Option.map_eq_some_iff.mp hmap
            have hone : d.Kept (d.splitGpadesc prev a b k s g) := kept_splitGpadesc h hk hs
            exact hone.trans (ih hone.inv)
      · exact Kept.refl h

/-- The same slots, and the same groups with other orders. -/
structure Reordered (d d' : Directory) : Prop where
  backing : d'.backing = d.backing
  gpaSize : d'.gpaSize = d.gpaSize
  slots : d'.gpaDir = d.gpaDir
  old : ∀ id g, d.group id = some g → ∃ g', d'.group id = some g' ∧ g' = { g with gpa := g'.gpa }
  new : ∀ id, d.group id = none → d'.group id = none

theorem Reordered.refl (d : Directory) : d.Reordered d :=
  ⟨rfl, rfl, rfl, fun _ g hg => ⟨g, hg, rfl⟩, fun _ => id⟩

theorem Reordered.trans {d₁ d₂ d₃ : Directory} (h : d₁.Reordered d₂) (h' : d₂.Reordered d₃) :
    d₁.Reordered d₃ := by
  refine ⟨h'.backing.trans h.backing, h'.gpaSize.trans h.gpaSize, h'.slots.trans h.slots,
    fun id g hg => ?_, fun id hid => h'.new id (h.new id hid)⟩
  obtain ⟨g₂, hg₂, heq⟩ := h.old id g hg
  obtain ⟨g₃, hg₃, heq'⟩ := h'.old id g₂ hg₂
  refine ⟨g₃, hg₃, ?_⟩
  rw [heq', heq]

/-- A group was there before, at the same place. -/
theorem Reordered.exists_group (h : d.Reordered d') {id : ℕ} (hg' : d'.group id = some g') :
    ∃ g, d.group id = some g ∧ g' = { g with gpa := g'.gpa } := by
  cases hg : d.group id with
  | none =>
      rw [h.new id hg] at hg'
      cases hg'
  | some g =>
      obtain ⟨g₁, hg₁, hplace⟩ := h.old id g hg
      obtain rfl := Option.some.inj (hg₁.symm.trans hg')
      exact ⟨g, rfl, hplace⟩

theorem reordered_setGroup {id : ℕ} (hg : d.group id = some g) (hplace : g' = { g with gpa := g'.gpa }) :
    d.Reordered (d.setGroup id g') := by
  refine ⟨rfl, rfl, rfl, fun id' g₁ hg₁ => ?_, fun id' hid' => ?_⟩
  · by_cases heq : id' = id
    · subst heq
      obtain rfl := Option.some.inj (hg.symm.trans hg₁)
      exact ⟨g', Function.update_self .., hplace⟩
    · exact ⟨g₁, (Function.update_of_ne heq _ _).trans hg₁, rfl⟩
  · have hne : id' ≠ id := fun heq => by rw [heq, hg] at hid'; cases hid'
    exact (Function.update_of_ne hne _ _).trans hid'

theorem reordered_splitGpadesc {prev : Vma} {b k : ℕ} (h : d.Inv)
    (hk : d.getNextExistHead idx = some k) (hs : d.gpaAt k = some (s, g)) :
    d.Reordered (d.splitGpadesc prev a b k s g) := by
  rw [splitGpadesc]
  split_ifs with hcut
  · obtain ⟨-, hmember, -, -, hlt, -⟩ := h.range hs
    have hhead := (Group.isHead_iff hmember.placed hmember.geometry hlt).mpr
      (head_of_getNextExistHead h hk hs)
    have hstep : ∀ exact, Group.step g (.split s.member (s.member + (b - k)) exact) =
        some (g.splitGpadesc s.member (s.member + (b - k)) exact) :=
      fun _ => if_pos ⟨hhead, Nat.le_add_right _ _, by omega⟩
    exact reordered_setGroup (gpaAt_eq_some.mp hs).2
      (Group.lowered_of_step hmember.placed hmember.geometry (hstep _)).place
  · exact Reordered.refl d

theorem reordered_splitWalk {prev : Vma} {b stop : ℕ} (h : d.Inv) (fuel : ℕ) :
    d.Reordered (splitWalk prev a b stop fuel idx d) := by
  induction fuel generalizing d idx with
  | zero => exact Reordered.refl d
  | succ fuel ih =>
      rw [splitWalk]
      split_ifs
      · cases hnext : (d.getNextExistHead idx).bind fun k => (d.gpaAt k).map (k, ·) with
        | none => exact Reordered.refl d
        | some found =>
            obtain ⟨k, hk, hmap⟩ := Option.bind_eq_some_iff.mp hnext
            obtain ⟨⟨s, g⟩, hs, rfl⟩ := Option.map_eq_some_iff.mp hmap
            have hone : d.Reordered (d.splitGpadesc prev a b k s g) := reordered_splitGpadesc h hk hs
            exact hone.trans (ih (kept_splitGpadesc h hk hs).inv)
      · exact Reordered.refl d

/-- The walk cuts the block that holds the boundary. -/
theorem cutHeld_splitWalk {prev : Vma} {b stop fuel : ℕ} (h : d.Inv)
    (hb : b = d.backing.indexOf a) (hpop : (d.gpaDir b).isSome) (hle : idx ≤ b) (hstop : b < stop)
    (hfuel : b < idx + fuel) : (splitWalk prev a b stop fuel idx d).CutHeld a := by
  induction fuel generalizing d idx with
  | zero => omega
  | succ fuel ih =>
      obtain ⟨k, s, g, hk, hs, hkb, hnext⟩ := getNextExistHead_spec h hpop hle
      have hone : d.Kept (d.splitGpadesc prev a b k s g) := kept_splitGpadesc h hk hs
      have hwalk : splitWalk prev a b stop (fuel + 1) idx d =
          splitWalk prev a b stop fuel (k + (g.gpa s.member).numSubblock)
            (d.splitGpadesc prev a b k s g) := by
        rw [splitWalk, if_pos (hle.trans_lt hstop), hk, Option.bind_some, hs, Option.map_some]
      rw [hwalk]
      by_cases hcut : b < k + (g.gpa s.member).numSubblock
      · subst hb
        refine (kept_splitWalk hone.inv fuel).cutHeld a ?_
        obtain ⟨-, hmember, -, hkidx, hlt, hall⟩ := h.range hs
        have hhead := head_of_getNextExistHead h hk hs
        have hend := (hmember.geometry.block hlt hhead).2.1
        rw [Group.numSubblock_eq hmember.geometry hlt] at hcut
        have hslot := hall (d.backing.indexOf a) (by omega) (by omega)
        have hmem : d.backing.indexOf a - g.start = s.member + (d.backing.indexOf a - k) := by omega
        rw [hmem] at hslot
        rw [splitGpadesc, Group.numSubblock_eq hmember.geometry hlt, if_pos ⟨hkb, hcut⟩]
        set exact := d.backing.isExact prev
          (g.gpa (s.member + (d.backing.indexOf a - k))).partialMap (d.backing.indexOf a) a with hexact
        have hheld : (g.splitGpadesc s.member (s.member + (d.backing.indexOf a - k)) exact).CutAt
            (s.member + (d.backing.indexOf a - k))
            (d.backing.gpnOffsetToHva (d.backing.indexOf a) = a) :=
          Group.cutAt_splitGpadesc hmember.placed hmember.geometry hlt hhead
            (Nat.le_add_right _ _) (by omega) exact fun he => Backing.eq_of_isExact (hexact ▸ he)
        have hdir := (gpaAt_eq_some.mp hslot).1
        exact ⟨_, _, gpaAt_eq_some.mpr ⟨hdir, Function.update_self ..⟩, hheld⟩
      · have hsame : d.splitGpadesc prev a b k s g = d := if_neg fun hc => hcut hc.2
        rw [hsame]
        exact ih h hb hpop (not_lt.mp hcut) (by omega)

/-! ### Runs -/

/-- The split finds the group of its boundary populated, or gets the descriptors for it. -/
def BoundaryPopulated (d : Directory) : DirEvent → Prop
  | .split _ addr _ alloc => (d.gpaDir (d.backing.indexOf addr)).isSome ∨ alloc.isSome
  | _ => True

instance (d : Directory) (e : DirEvent) : Decidable (d.BoundaryPopulated e) := by
  cases e <;> simp only [BoundaryPopulated] <;> infer_instance

theorem Inv.record (h : d.Inv) (cuts : List ℕ) : { d with cuts := cuts }.Inv := by
  refine ⟨h.valid, h.pos, fun id g hg => ?_, h.slot⟩
  obtain ⟨hb, hz, hp, hgeo⟩ := h.group id g hg
  exact ⟨hb, hz, hp, hgeo⟩

/-- What a split keeps, and what it leaves behind. -/
theorem splitVmdesc_spec {vma : Vma} {addr : ℕ} {newIsFront : Bool} {alloc : Option (ℕ × ℕ)}
    (h : d.Inv) (hlow : d.backing.vmStart ≤ vma.vmStart) (hstart : vma.vmStart < addr)
    (hend : addr < vma.vmEnd) (hhigh : vma.vmEnd ≤ d.backing.vmEnd)
    (havail : d.available (d.backing.indexOf addr) alloc)
    (hok : d.BoundaryPopulated (.split vma addr newIsFront alloc)) :
    ∃ d', d.splitVmdesc vma addr newIsFront alloc = { d' with cuts := addr :: d'.cuts } ∧
      d.Kept d' ∧ d'.CutHeld addr := by
  have hbase := d.backing.vmBase_le
  have hlen := Backing.indexOf_lt_gpaLen (m := d.backing) (b := addr) (by omega) (by omega)
  obtain ⟨hkept, hpop⟩ := kept_getGpadesc h havail
  have hpop' : ((d.getGpadesc (d.backing.indexOf addr) alloc).gpaDir
      (d.backing.indexOf addr)).isSome := by
    rcases hok with hold | hnew
    · exact hkept.populated _ hold
    · exact hpop hlen hnew
  -- the walk starts at the boundary or before it, and does not stop in front of it
  have hwalk : ∀ prev stop idx, idx ≤ d.backing.indexOf addr → d.backing.indexOf addr < stop →
      d.Kept (splitWalk prev addr (d.backing.indexOf addr) stop stop idx
        (d.getGpadesc (d.backing.indexOf addr) alloc)) ∧
      (splitWalk prev addr (d.backing.indexOf addr) stop stop idx
        (d.getGpadesc (d.backing.indexOf addr) alloc)).CutHeld addr := by
    intro prev stop idx hidx hstop
    refine ⟨hkept.trans (kept_splitWalk hkept.inv stop), ?_⟩
    exact cutHeld_splitWalk hkept.inv (by rw [hkept.backing]) hpop' hidx hstop (by omega)
  cases newIsFront with
  | true =>
      refine ⟨_, rfl, hwalk _ _ _ (Backing.indexOf_mono hstart.le) ?_⟩
      have hle := Backing.indexOf_le_indexEnd (m := d.backing) addr
      simp only [if_true]
      split_ifs <;> omega
  | false =>
      refine ⟨_, rfl, hwalk _ _ _ le_rfl ?_⟩
      have hlt := Backing.indexOf_lt_indexEnd (m := d.backing) (b := addr) (by omega) hend
      simp only [Bool.false_eq_true, if_false]
      split_ifs <;> omega

/-- A split keeps the directory sound and its slots populated, whether it finds the group of its
boundary or not. -/
theorem kept_splitVmdesc {vma : Vma} {addr : ℕ} {newIsFront : Bool} {alloc : Option (ℕ × ℕ)}
    (h : d.Inv) (havail : d.available (d.backing.indexOf addr) alloc) :
    ∃ d', d.splitVmdesc vma addr newIsFront alloc = { d' with cuts := addr :: d'.cuts } ∧
      d.Kept d' := by
  have hkept := (kept_getGpadesc h havail).1
  cases newIsFront with
  | true => exact ⟨_, rfl, hkept.trans (kept_splitWalk hkept.inv _)⟩
  | false => exact ⟨_, rfl, hkept.trans (kept_splitWalk hkept.inv _)⟩

/-- A split populates the group of its boundary, and reorders the groups. -/
theorem reordered_splitVmdesc {vma : Vma} {addr : ℕ} {newIsFront : Bool} {alloc : Option (ℕ × ℕ)}
    (h : d.Inv) (havail : d.available (d.backing.indexOf addr) alloc) :
    (d.getGpadesc (d.backing.indexOf addr) alloc).Reordered
      (d.splitVmdesc vma addr newIsFront alloc) := by
  have hkept := (kept_getGpadesc h havail).1
  have hrecord : ∀ d₁ : Directory, d₁.Reordered { d₁ with cuts := addr :: d₁.cuts } :=
    fun d₁ => ⟨rfl, rfl, rfl, fun _ g hg => ⟨g, hg, rfl⟩, fun _ => id⟩
  cases newIsFront with
  | true => exact (reordered_splitWalk hkept.inv _).trans (hrecord _)
  | false => exact (reordered_splitWalk hkept.inv _).trans (hrecord _)

/-- What every step but a split keeps. -/
theorem kept_of_step {e : DirEvent} (h : d.Inv) (hs : step d e = some d') :
    d.Kept d' ∨ ∃ vma addr newIsFront alloc, e = .split vma addr newIsFront alloc := by
  cases e with
  | touch idx alloc =>
      obtain ⟨havail, rfl⟩ := Transition.of_guard hs
      exact .inl (kept_getGpadesc h havail).1
  | els id e =>
      obtain ⟨g, hg, hmap⟩ := Option.bind_eq_some_iff.mp hs
      obtain ⟨g', hstep, rfl⟩ := Option.map_eq_some_iff.mp hmap
      obtain ⟨-, -, hplaced, hgeo⟩ := h.group id g hg
      exact .inl (kept_setGroup h hg (Group.lowered_of_step hplaced hgeo hstep)
        (Group.geometry_of_step hplaced hgeo hstep).2)
  | cow idx id base =>
      rw [step, Option.ite_none_right_eq_some] at hs
      obtain ⟨havail, hbind⟩ := hs
      obtain ⟨⟨s, g⟩, hsg, hmap⟩ := Option.bind_eq_some_iff.mp hbind
      obtain ⟨so, hso, rfl⟩ := Option.map_eq_some_iff.mp hmap
      exact .inl (kept_copyGroup h havail hsg hso)
  | split vma addr newIsFront alloc => exact .inr ⟨vma, addr, newIsFront, alloc, rfl⟩

/-- What every step keeps. -/
theorem inv_of_step {e : DirEvent} (h : d.Inv) (hcuts : ∀ a ∈ d.cuts, d.backing.vmBase ≤ a ∧ d.CutHeld a)
    (hok : d.BoundaryPopulated e) (hs : step d e = some d') :
    d'.Inv ∧ ∀ a ∈ d'.cuts, d'.backing.vmBase ≤ a ∧ d'.CutHeld a := by
  have hkeep : ∀ d₁, d.Kept d₁ → d₁.Inv ∧ ∀ a ∈ d₁.cuts, d₁.backing.vmBase ≤ a ∧ d₁.CutHeld a := by
    intro d₁ hkept
    refine ⟨hkept.inv, fun a ha => ?_⟩
    rw [hkept.cuts] at ha
    rw [hkept.backing]
    exact (hcuts a ha).imp id (hkept.cutHeld a)
  rcases kept_of_step h hs with hkept | ⟨vma, addr, newIsFront, alloc, rfl⟩
  · exact hkeep d' hkept
  · obtain ⟨⟨hlow, hstart, hend, hhigh, havail⟩, rfl⟩ := Transition.of_guard hs
    obtain ⟨d₁, heq, hkept, hheld⟩ := splitVmdesc_spec h hlow hstart hend hhigh havail hok
    obtain ⟨hinv, hall⟩ := hkeep d₁ hkept
    rw [heq]
    refine ⟨hinv.record _, fun a ha => ?_⟩
    rcases List.mem_cons.mp ha with rfl | hold
    · refine ⟨?_, hheld⟩
      have hbase := d.backing.vmBase_le
      simp only [hkept.backing]
      omega
    · exact hall a hold

/-- A mapping of sixteen subblocks, not touched yet. -/
def untouched : Directory := ⟨Group.sixteen, 32, fun _ => none, fun _ => none, []⟩

/-- A block of eight subblocks is cut in the middle of its fourth one and at the start of its
seventh one, copied, and stretched. -/
def splitTwice : List DirEvent :=
  [.split ⟨16, 80⟩ 46 true (some (0, 1024)), .split ⟨46, 80⟩ 56 true none, .cow 5 7 2048,
    .els 7 (.stretch 4 [true, true])]

/-- The descriptors of the boundary cannot be allocated at the split; the first touch makes a
block of eight subblocks around it. -/
def splitThenTouch : List DirEvent := [.split ⟨16, 80⟩ 48 false none, .touch 8 (some (0, 1024))]

end Directory

end Emp
