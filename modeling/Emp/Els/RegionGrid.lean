import Emp.Els.Region

/-!
# The regions and their groups

The regions do not overlap, and a region of whole blocks starts and ends on the grid of its
blocks, unless the end of a virtual machine's low memory lies across that grid.  So a walk from
the start of a region in steps of its groups comes upon the groups, one after the other.

## Main definitions

* `Backing.LowMemoryAligned` — there is no low memory, or it starts with a whole block.
* `Backing.region_onGrid` — the groups of a region lie on its own grid.
-/

namespace Emp

namespace Backing

variable (m : Backing)

/-- `get_num_low_memory_pages`. -/
def getNumLowMemoryPages : ℕ :=
  if 2 ^ blockMaxOrder < 2 ^ m.blockOrder then 2 ^ m.blockOrder else 2 ^ blockMaxOrder

/-- There is no low memory, or it starts with a whole block. -/
def LowMemoryAligned : Prop :=
  m.lowMemoryEnd = 0 ∨
    m.lowMemoryEnd = m.getNumLowMemoryPages / 2 ^ m.sbOrder ∧ m.blockAlignedStart = 0

variable {m} {idx : ℕ} {r r' : GpadescRegion}

/-! ### The list of regions -/

/-- A region runs from one boundary, or the start, to a later one. -/
theorem ends_of_mem_regionsFrom {start : ℕ} {bs : List ℕ} (hsorted : bs.Pairwise (· ≤ ·))
    (hstart : ∀ b ∈ bs, start ≤ b) (hr : r ∈ m.regionsFrom start bs) :
    (r.start = start ∨ r.start ∈ bs) ∧ r.finish ∈ bs ∧ r.start < r.finish := by
  induction bs generalizing start with
  | nil => cases hr
  | cons b bs ih =>
      have hbs := List.pairwise_cons.mp hsorted
      simp only [regionsFrom] at hr
      split_ifs at hr with heq
      · have h := ih hbs.2 (fun b' hb' => hstart b' (List.mem_cons_of_mem _ hb')) hr
        exact ⟨h.1.imp id (List.mem_cons_of_mem b), List.mem_cons_of_mem b h.2.1, h.2.2⟩
      · cases List.mem_cons.mp hr with
        | inl hfirst =>
            subst hfirst
            have hb := hstart b (List.mem_cons_self ..)
            refine ⟨.inl rfl, List.mem_cons_self .., ?_⟩
            simp only [region]
            omega
        | inr hrest =>
            have h := ih hbs.2 hbs.1 hrest
            refine ⟨.inr ?_, List.mem_cons_of_mem b h.2.1, h.2.2⟩
            exact h.1.elim (fun hb => hb ▸ List.mem_cons_self ..) (List.mem_cons_of_mem b)

/-- The regions follow one another. -/
theorem pairwise_regionsFrom {start : ℕ} {bs : List ℕ} (hsorted : bs.Pairwise (· ≤ ·))
    (hstart : ∀ b ∈ bs, start ≤ b) :
    (m.regionsFrom start bs).Pairwise fun r r' => r.start < r'.start := by
  induction bs generalizing start with
  | nil => exact List.Pairwise.nil
  | cons b bs ih =>
      have hbs := List.pairwise_cons.mp hsorted
      simp only [regionsFrom]
      split_ifs with heq
      · exact ih hbs.2 fun b' hb' => hstart b' (List.mem_cons_of_mem _ hb')
      · refine List.pairwise_cons.mpr ⟨fun r hr => ?_, ih hbs.2 hbs.1⟩
        have hle := (mem_regionsFrom hbs.2 hbs.1 hr).1
        have hb := hstart b (List.mem_cons_self ..)
        simp only [region]
        omega

/-- No region occurs twice. -/
theorem nodup_setGpadescRegions (m : Backing) : m.setGpadescRegions.Nodup := by
  have hsorted := pairwise_sortBoundaries m.boundaries
  have hfollow := pairwise_regionsFrom (m := m) hsorted fun _ _ => Nat.zero_le _
  have hnodup : (m.regionsFrom 0 (sortBoundaries m.boundaries)).Nodup := by
    refine hfollow.imp fun hlt heq => ?_
    rw [heq] at hlt
    exact lt_irrefl _ hlt
  exact m.perm_setGpadescRegions.nodup_iff.mpr hnodup

/-- What a region of the directory is. -/
theorem spec_of_mem (hr : r ∈ m.setGpadescRegions) :
    r = m.region r.start r.finish ∧ r.start < r.finish ∧
      (r.start = 0 ∨ r.start ∈ m.boundaries) ∧ r.finish ∈ m.boundaries ∧
      ∀ b ∈ m.boundaries, b ≤ r.start ∨ r.finish ≤ b := by
  have hmem : r ∈ m.regionsFrom 0 (sortBoundaries m.boundaries) :=
    m.perm_setGpadescRegions.mem_iff.mp hr
  have hsorted := pairwise_sortBoundaries m.boundaries
  have hspec := mem_regionsFrom hsorted (fun _ _ => Nat.zero_le _) hmem
  have hends := ends_of_mem_regionsFrom hsorted (fun _ _ => Nat.zero_le _) hmem
  simp only [mem_sortBoundaries] at hends
  exact ⟨hspec.2.1, hends.2.2, hends.1, hends.2.1,
    fun b hb => hspec.2.2 b (mem_sortBoundaries.mpr hb)⟩

/-- The regions do not overlap. -/
theorem eq_of_mem_both {j : ℕ} (hr : r ∈ m.setGpadescRegions) (hr' : r' ∈ m.setGpadescRegions)
    (hj : r.start ≤ j ∧ j < r.finish) (hj' : r'.start ≤ j ∧ j < r'.finish) : r' = r := by
  obtain ⟨hreg, -, hstart, hfinish, hcut⟩ := spec_of_mem hr
  obtain ⟨hreg', -, hstart', hfinish', hcut'⟩ := spec_of_mem hr'
  -- no boundary of the one lies inside the other
  have h₁ : r.start ≤ r'.start := by
    rcases hstart with hz | hb
    · omega
    · have h := hcut' _ hb
      omega
  have h₂ : r'.start ≤ r.start := by
    rcases hstart' with hz | hb
    · omega
    · have h := hcut _ hb
      omega
  have h₃ := hcut' _ hfinish
  have h₄ := hcut _ hfinish'
  rw [hreg, hreg', le_antisymm h₂ h₁, (by omega : r'.finish = r.finish)]

/-- The lookup finds the region that an index lies in. -/
theorem getGpadescRegion_of_mem {j : ℕ} (hr : r ∈ m.setGpadescRegions) (hstart : r.start ≤ j)
    (hfinish : j < r.finish) : m.getGpadescRegion j = some r := by
  have hsome : (m.getGpadescRegion j).isSome := by
    rw [getGpadescRegion, List.find?_isSome]
    exact ⟨r, hr, by simpa using And.intro hstart hfinish⟩
  obtain ⟨r', hr'⟩ := Option.isSome_iff_exists.mp hsome
  obtain ⟨hle, hlt, -⟩ := getGpadescRegion_spec hr'
  rw [hr', eq_of_mem_both hr (List.mem_of_find?_eq_some hr') ⟨hstart, hfinish⟩ ⟨hle, hlt⟩]

/-! ### Regions of whole blocks -/

theorem dvd_lowMemoryEnd (hm : m.Valid) (hl : m.LowMemoryAligned) : m.sibSize ∣ m.lowMemoryEnd := by
  rcases hl with hz | ⟨hlow, -⟩
  · exact hz ▸ dvd_zero _
  · have hsb := hm.sb_le
    have hmax := hm.le_max
    have hle : ¬ 2 ^ blockMaxOrder < 2 ^ m.blockOrder :=
      not_lt.mpr (Nat.pow_le_pow_right Nat.two_pos hmax)
    rw [hlow, getNumLowMemoryPages, if_neg hle, Nat.pow_div (hsb.trans hmax) Nat.two_pos]
    exact pow_dvd_pow 2 (by omega)

/-- A boundary in the part that consists of whole blocks is on the grid of that part. -/
theorem dvd_of_mem_boundaries (hm : m.Valid) (hl : m.LowMemoryAligned) {b : ℕ}
    (hb : b ∈ m.boundaries) (hstart : m.blockAlignedStart ≤ b) (hend : b ≤ m.blockAlignedEnd)
    (hpos : 0 < m.blockAlignedEnd) : m.sibSize ∣ b - m.blockAlignedStart := by
  have hsib := m.sibSize_pos
  have htail : m.sbAtTail < m.gpaLen := by
    by_contra hno
    rw [blockAlignedEnd, if_neg hno] at hpos
    exact lt_irrefl 0 hpos
  have hwhole : m.sibSize ∣ m.blockAlignedEnd - m.blockAlignedStart := dvd_wholeBlocks hpos
  have hEnd : m.blockAlignedEnd = m.gpaLen - m.sbAtTail := by rw [blockAlignedEnd, if_pos htail]
  have hlast : m.blockAlignedEnd ≤ b → m.sibSize ∣ b - m.blockAlignedStart := by
    intro hle
    rwa [le_antisymm hend hle]
  simp only [boundaries, List.mem_append, List.mem_ite_nil_right, List.mem_singleton] at hb
  rcases hb with ((((⟨hlow, rfl⟩ | ⟨⟨hhead, -⟩, rfl⟩) | ⟨⟨htl, -⟩, rfl⟩) | ⟨-, rfl⟩) | ⟨-, rfl⟩) | rfl
  · have haligned : m.blockAlignedStart = 0 := (hl.resolve_left (by omega)).2
    rw [haligned, Nat.sub_zero]
    exact dvd_lowMemoryEnd hm hl
  · -- the first subblock is no whole one, so no whole block starts in front of its end
    have hone : m.blockAlignedStart = 1 := by
      have h : 0 < m.blockAlignedStart := by
        rw [blockAlignedStart]
        have hmod := Nat.mod_lt m.sbStart hsib
        split_ifs <;> omega
      omega
    rw [hone]
    exact dvd_zero _
  · refine hlast ?_
    have h : 0 < m.sbAtTail := by
      rw [sbAtTail]
      split_ifs with hboth
      · exact hsib
      · exact Nat.pos_of_ne_zero fun hz => hboth ⟨hz, htl⟩
    omega
  · rw [Nat.sub_self]
    exact dvd_zero _
  · exact hwhole
  · exact hlast (by omega)

/-- **The groups of a region lie on its own grid**: it is a whole number of groups long, and
the groups of its indexes start at multiples of their length from its start. -/
theorem region_onGrid (hm : m.Valid) (hl : m.LowMemoryAligned) (hr : r ∈ m.setGpadescRegions)
    (hlen : r.start < m.gpaLen) : r.finish ≤ m.gpaLen ∧
      2 ^ (r.allocOrder - m.sbOrder) ∣ r.finish - r.start ∧
      ∀ j, r.start ≤ j → j < r.finish → m.groupAt j =
        some (r.start + alignDown (r.allocOrder - m.sbOrder) (j - r.start), r.allocOrder) := by
  obtain ⟨hreg, hlt, hstart, hfinish, hcut⟩ := spec_of_mem hr
  have hgpaLen : r.finish ≤ m.gpaLen := by
    have hmem : m.gpaLen ∈ m.boundaries := by simp [boundaries]
    have hc := hcut _ hmem
    omega
  have hlookup := getGpadescRegion_of_mem hr le_rfl hlt
  have horder := allocOrder_eq hm hlookup hlen
  have hgroup : ∀ j, r.start ≤ j → j < r.finish → m.groupAt j =
      some (m.empGetBlockHeadIndex j (r.allocOrder - m.sbOrder), r.allocOrder) := by
    intro j hj hj'
    rw [groupAt, getGpadescRegion_of_mem hr hj hj', Option.map_some]
  refine ⟨hgpaLen, ?_⟩
  by_cases hone : r.allocOrder = m.sbOrder
  · rw [hone, Nat.sub_self, pow_zero]
    refine ⟨one_dvd _, fun j hj hj' => ?_⟩
    rw [hgroup j hj hj', hone, Nat.sub_self, empGetBlockHeadIndex, pow_zero, Nat.mod_one,
      Nat.sub_zero, alignDown, pow_zero, Nat.div_one, mul_one, Nat.add_sub_cancel' hj]
  have hin : m.blockAlignedStart ≤ r.start ∧ r.start < m.blockAlignedEnd := by
    by_contra hno
    rw [if_neg hno] at horder
    exact hone horder
  rw [if_pos hin] at horder
  have hend : r.finish ≤ m.blockAlignedEnd := by
    by_contra hno
    have hlast := allocOrder_eq hm (getGpadescRegion_of_mem hr (j := r.finish - 1) (by omega)
      (by omega)) (by omega)
    rw [if_neg (by omega)] at hlast
    exact hone hlast
  have hdvd : m.sibSize ∣ r.start - m.blockAlignedStart := by
    rcases hstart with hz | hmem
    · rw [hz, Nat.zero_sub]
      exact dvd_zero _
    · exact dvd_of_mem_boundaries hm hl hmem hin.1 hin.2.le (by omega)
  have hdvd' := dvd_of_mem_boundaries hm hl hfinish (by omega) hend (by omega)
  rw [sibSize, ← horder] at hdvd hdvd'
  refine ⟨?_, fun j hj hj' => ?_⟩
  · have h := Nat.dvd_sub hdvd' hdvd
    have heq : r.finish - m.blockAlignedStart - (r.start - m.blockAlignedStart) =
        r.finish - r.start := by omega
    rwa [heq] at h
  · obtain ⟨q, hq⟩ := hdvd
    have hmod : (j - m.blockAlignedStart) % 2 ^ (r.allocOrder - m.sbOrder) =
        (j - r.start) % 2 ^ (r.allocOrder - m.sbOrder) := by
      have hsum : j - m.blockAlignedStart =
          2 ^ (r.allocOrder - m.sbOrder) * q + (j - r.start) := by omega
      rw [hsum, Nat.mul_add_mod]
    have hle := Nat.mod_le (j - r.start) (2 ^ (r.allocOrder - m.sbOrder))
    rw [hgroup j hj hj', empGetBlockHeadIndex, if_pos (by omega), hmod, alignDown_eq]
    congr 2
    omega

end Backing

end Emp
