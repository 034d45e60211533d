import Emp.Els.RegionGrid

/-!
# The regions as a partition of the directory

The regions follow each other from the start of the directory to its end, every group lies in
its region, and a region carries the marks of all its subblocks: that the mapping starts or
ends inside the subblock, and that it belongs to the low memory of a virtual machine.  The low
memory is a boundary even when the mapping is shorter, and then there are regions behind the
end of the directory.

## Main definitions

* `Backing.Accepted` — what the callers of `set_gpadesc_regions` ensure.
* `Backing.RegionsOk` — the regions are a partition, with whole groups and the right marks.
-/

namespace Emp

/-- The regions of a list follow each other from one index to another. -/
def GpadescRegion.Follow : ℕ → ℕ → List GpadescRegion → Prop
  | a, b, [] => a = b
  | a, b, r :: rest => r.start = a ∧ a < r.finish ∧ Follow r.finish b rest

namespace Backing

variable (m : Backing)

/-- What the callers of `set_gpadesc_regions` ensure: orders within their bounds, a mapping that
is not empty, and low memory of the configured size in a mapping that `emp_mmap` has moved to a
huge page boundary. -/
structure Accepted : Prop where
  valid : m.Valid
  lt : m.vmStart < m.vmEnd
  low : m.lowMemoryEnd = 0 ∨
    m.lowMemoryEnd = m.getNumLowMemoryPages / 2 ^ m.sbOrder ∧ 2 ^ blockMaxOrder ∣ m.vmStart

/-- The mapping starts or ends inside a subblock. -/
def CutIn (idx : ℕ) : Prop :=
  m.vmBase + idx * 2 ^ m.sbOrder < m.vmStart ∨ m.vmEnd < m.vmBase + (idx + 1) * 2 ^ m.sbOrder

/-- The regions partition the directory into whole groups, and carry the marks of their
subblocks. -/
structure RegionsOk : Prop where
  consecutive : ∃ l, m.setGpadescRegions.Perm l ∧ GpadescRegion.Follow 0 m.gpaLen l
  cover : ∀ idx < m.gpaLen, ∃ r ∈ m.setGpadescRegions, (r.start ≤ idx ∧ idx < r.finish) ∧
    ∀ r' ∈ m.setGpadescRegions, r'.start ≤ idx ∧ idx < r'.finish → r' = r
  inside : ∀ r ∈ m.setGpadescRegions, r.finish ≤ m.gpaLen
  groups : ∀ r ∈ m.setGpadescRegions, ∀ idx, r.start ≤ idx → idx < r.finish →
    ∃ s, m.groupAt idx = some (s, r.allocOrder) ∧ 2 ^ (r.allocOrder - m.sbOrder) ∣ s - r.start ∧
      r.start ≤ s ∧ s ≤ idx ∧ idx < s + 2 ^ (r.allocOrder - m.sbOrder) ∧
      s + 2 ^ (r.allocOrder - m.sbOrder) ≤ r.finish
  partialMap : ∀ r ∈ m.setGpadescRegions, ∀ idx, r.start ≤ idx → idx < r.finish →
    (r.partialMap = true ↔ m.CutIn idx)
  lowmemBlock : ∀ r ∈ m.setGpadescRegions, ∀ idx, r.start ≤ idx → idx < r.finish →
    (r.lowmemBlock = true ↔ idx < m.lowMemoryEnd)

variable {m} {idx : ℕ} {r : GpadescRegion}

/-- A mapping at a huge page boundary starts with a whole block. -/
theorem Accepted.lowMemoryAligned (h : m.Accepted) : m.LowMemoryAligned := by
  refine h.low.imp id fun hlow => ⟨hlow.1, ?_⟩
  have hsb := h.valid.sb_le
  have hmax := h.valid.le_max
  obtain ⟨q, hq⟩ := hlow.2
  have hpow : 2 ^ blockMaxOrder = 2 ^ m.sbOrder * 2 ^ (blockMaxOrder - m.sbOrder) := by
    rw [← pow_add, Nat.add_sub_cancel' (hsb.trans hmax)]
  have hstart : m.sbStart = 2 ^ (blockMaxOrder - m.sbOrder) * q := by
    rw [sbStart, hq, hpow, Nat.mul_assoc, Nat.mul_div_cancel_left _ (Nat.two_pow_pos _)]
  have hmod : m.sbStart % m.sibSize = 0 := by
    refine Nat.mod_eq_zero_of_dvd ?_
    rw [hstart]
    exact Dvd.dvd.mul_right (pow_dvd_pow 2 (Nat.sub_le_sub_right hmax _)) q
  have hhead : m.partialAtHead = false := by
    rw [partialAtHead, hstart, hq, hpow]
    simp only [bne_eq_false_iff_eq]
    ring
  rw [blockAlignedStart, hmod, hhead]
  rfl

/-- The regions follow each other up to the last boundary. -/
theorem follow_regionsFrom {start e : ℕ} {bs : List ℕ} (hsorted : bs.Pairwise (· ≤ ·))
    (hstart : ∀ b ∈ bs, start ≤ b) (hlast : ∀ b ∈ bs, b ≤ e) (he : e ∈ bs ∨ start = e) :
    GpadescRegion.Follow start e (m.regionsFrom start bs) := by
  induction bs generalizing start with
  | nil => exact he.resolve_left (List.not_mem_nil)
  | cons b bs ih =>
      obtain ⟨hb, hbs⟩ := List.pairwise_cons.mp hsorted
      have hstartb := hstart b (List.mem_cons_self ..)
      have hbe := hlast b (List.mem_cons_self ..)
      have hlast' : ∀ b' ∈ bs, b' ≤ e := fun b' hb' => hlast b' (List.mem_cons_of_mem _ hb')
      have he' : e ∈ bs ∨ b = e := by
        rcases he with he | rfl
        · exact (List.mem_cons.mp he).symm.imp id Eq.symm
        · exact .inr (le_antisymm hbe hstartb)
      rw [regionsFrom]
      split_ifs with heq
      · subst heq
        exact ih hbs (fun b' hb' => hstart b' (List.mem_cons_of_mem _ hb')) hlast' he'
      · exact ⟨rfl, lt_of_le_of_ne hstartb (Ne.symm heq), ih hbs hb hlast' he'⟩

theorem gpaLen_pos (h : m.vmStart < m.vmEnd) : 0 < m.gpaLen := by
  have hpos := Nat.two_pow_pos m.sbOrder
  rw [gpaLen, Nat.sub_pos_iff_lt, sbStart, sbEnd]
  have hle : m.vmStart / 2 ^ m.sbOrder ≤ (m.vmEnd - 1) / 2 ^ m.sbOrder :=
    Nat.div_le_div_right (by omega)
  have hnext : (m.vmEnd + 2 ^ m.sbOrder - 1) / 2 ^ m.sbOrder =
      (m.vmEnd - 1) / 2 ^ m.sbOrder + 1 := by
    rw [← Nat.add_div_right _ hpos]
    congr 1
    omega
  omega

/-- Of the subblocks of the directory only the first and the last can be cut. -/
theorem cutIn_iff (h : m.vmStart < m.vmEnd) (hidx : idx < m.gpaLen) :
    m.CutIn idx ↔ m.partialAtHead = true ∧ idx = 0 ∨
      m.partialAtTail = true ∧ idx + 1 = m.gpaLen := by
  have hpos := Nat.two_pow_pos m.sbOrder
  have hhead := Nat.div_add_mod m.vmStart (2 ^ m.sbOrder)
  have hheadlt := Nat.mod_lt m.vmStart hpos
  have htail := Nat.div_add_mod (m.vmEnd + 2 ^ m.sbOrder - 1) (2 ^ m.sbOrder)
  have htaillt := Nat.mod_lt (m.vmEnd + 2 ^ m.sbOrder - 1) hpos
  rw [← sbStart, mul_comm] at hhead
  rw [← sbEnd, mul_comm] at htail
  simp only [partialAtHead, partialAtTail, bne_iff_ne, CutIn, vmBase]
  refine or_congr ⟨fun hlt => ?_, fun hcut => ?_⟩ ?_
  · have hzero : idx = 0 := by
      by_contra hne
      have hmul := Nat.mul_le_mul_right (2 ^ m.sbOrder) (Nat.one_le_iff_ne_zero.mpr hne)
      omega
    subst hzero
    exact ⟨by omega, rfl⟩
  · obtain ⟨hne, rfl⟩ := hcut
    omega
  · have hsum : m.sbStart * 2 ^ m.sbOrder + (idx + 1) * 2 ^ m.sbOrder =
        (m.sbStart + (idx + 1)) * 2 ^ m.sbOrder := by ring
    rw [hsum]
    by_cases hlast : idx + 1 = m.gpaLen
    · have heq : m.sbStart + (idx + 1) = m.sbEnd := by
        simp only [gpaLen] at hlast hidx
        omega
      rw [heq]
      constructor
      · exact fun hlt => ⟨hlt.ne, hlast⟩
      · rintro ⟨hne, -⟩
        omega
    · refine iff_of_false (fun hlt => ?_) fun hcut => hlast hcut.2
      have hle : m.sbStart + (idx + 1) + 1 ≤ m.sbEnd := by
        simp only [gpaLen] at hlast hidx
        omega
      have hmul := Nat.mul_le_mul_right (2 ^ m.sbOrder) hle
      rw [Nat.add_mul, one_mul] at hmul
      omega

/-- A region is marked as cut exactly when its subblocks are. -/
theorem partialMap_iff (h : m.vmStart < m.vmEnd) (hr : r ∈ m.setGpadescRegions)
    (hle : r.start ≤ idx) (hlt : idx < r.finish) (hend : r.finish ≤ m.gpaLen) :
    r.partialMap = true ↔ m.CutIn idx := by
  obtain ⟨hreg, -, -, -, hcut⟩ := spec_of_mem hr
  have hpos := gpaLen_pos h
  have hmark : r.partialMap = (m.partialAtHead && decide (r.finish ≤ 1) ||
      m.partialAtTail && decide (m.gpaLen - 1 ≤ r.start)) := congrArg GpadescRegion.partialMap hreg
  rw [cutIn_iff h (by omega), hmark]
  simp only [Bool.or_eq_true, Bool.and_eq_true, decide_eq_true_eq]
  refine or_congr (and_congr_right fun hhead => ?_) (and_congr_right fun htail => ?_)
  · have hone : 1 ∈ m.boundaries := by
      simp only [boundaries, List.mem_append]
      refine .inl (.inl (.inl (.inl (.inr ?_))))
      rw [if_pos ⟨hhead, hpos⟩]
      exact List.mem_singleton_self _
    have := hcut 1 hone
    omega
  · by_cases hlen : 1 < m.gpaLen
    · have hlast : m.gpaLen - 1 ∈ m.boundaries := by
        simp only [boundaries, List.mem_append]
        refine .inl (.inl (.inl (.inr ?_)))
        rw [if_pos ⟨htail, hlen⟩]
        exact List.mem_singleton_self _
      have := hcut _ hlast
      omega
    · omega

/-- A region is marked as low memory exactly when its subblocks are. -/
theorem lowmemBlock_iff (hr : r ∈ m.setGpadescRegions) (hle : r.start ≤ idx)
    (hlt : idx < r.finish) : r.lowmemBlock = true ↔ idx < m.lowMemoryEnd := by
  obtain ⟨hreg, -, -, -, hcut⟩ := spec_of_mem hr
  have hmark : r.lowmemBlock = decide (r.finish ≤ m.lowMemoryEnd) :=
    congrArg GpadescRegion.lowmemBlock hreg
  rw [hmark, decide_eq_true_iff]
  by_cases hlow : 0 < m.lowMemoryEnd
  · have hmem : m.lowMemoryEnd ∈ m.boundaries := by simp [boundaries, hlow]
    have := hcut _ hmem
    omega
  · omega

/-- No boundary but that of the low memory can lie behind the end of the directory. -/
theorem le_gpaLen_of_mem_boundaries {b : ℕ} (h : m.vmStart < m.vmEnd)
    (hlow : m.lowMemoryEnd ≤ m.gpaLen) (hb : b ∈ m.boundaries) : b ≤ m.gpaLen := by
  have hpos := gpaLen_pos h
  have hend : m.blockAlignedEnd ≤ m.gpaLen := by
    rw [blockAlignedEnd]
    split_ifs <;> omega
  simp only [boundaries, List.mem_append, List.mem_ite_nil_right, List.mem_singleton] at hb
  omega

/-- **The regions partition the directory if and only if the low memory does not end behind
it.** -/
theorem regionsOk_iff (h : m.Accepted) : m.RegionsOk ↔ m.lowMemoryEnd ≤ m.gpaLen := by
  refine ⟨fun hok => ?_, fun hlow => ?_⟩
  · by_contra hlong
    -- the last subblock of the low memory lies in a region
    have hmem : m.lowMemoryEnd ∈ sortBoundaries m.boundaries := by
      rw [mem_sortBoundaries]
      simp [boundaries, (by omega : 0 < m.lowMemoryEnd)]
    have hlast : m.lowMemoryEnd - 1 < m.lowMemoryEnd := by omega
    obtain ⟨r, hr, -, hlt⟩ := exists_mem_regionsFrom (m := m) hmem (Nat.zero_le _) hlast
    have hin := hok.inside r (m.perm_setGpadescRegions.mem_iff.mpr hr)
    omega
  · have hin : ∀ r ∈ m.setGpadescRegions, r.start < r.finish ∧ r.finish ≤ m.gpaLen := by
      intro r hr
      obtain ⟨-, hlt, -, hfinish, -⟩ := spec_of_mem hr
      exact ⟨hlt, le_gpaLen_of_mem_boundaries h.lt hlow hfinish⟩
    refine ⟨⟨_, m.perm_setGpadescRegions, ?_⟩, fun idx hidx => ?_, fun r hr => (hin r hr).2,
      fun r hr idx hle hlt => ?_, fun r hr idx hle hlt => ?_, fun r hr idx hle hlt => ?_⟩
    · refine follow_regionsFrom (pairwise_sortBoundaries _) (fun _ _ => Nat.zero_le _)
        (fun b hb => le_gpaLen_of_mem_boundaries h.lt hlow (mem_sortBoundaries.mp hb)) (.inl ?_)
      simp [mem_sortBoundaries, boundaries]
    · obtain ⟨r, hr⟩ := exists_getGpadescRegion hidx
      obtain ⟨hle, hlt, -⟩ := getGpadescRegion_spec hr
      have hmem := List.mem_of_find?_eq_some hr
      exact ⟨r, hmem, ⟨hle, hlt⟩, fun r' hr' hin' => eq_of_mem_both hmem hr' ⟨hle, hlt⟩ hin'⟩
    · obtain ⟨-, hwhole, hgroup⟩ := region_onGrid h.valid h.lowMemoryAligned hr
        (by have := hin r hr; omega)
      have hlow := alignDown_le (r.allocOrder - m.sbOrder) (idx - r.start)
      have hhigh := lt_alignDown_add (r.allocOrder - m.sbOrder) (idx - r.start)
      have hend := add_le_of_dvd_of_lt (dvd_alignDown (r.allocOrder - m.sbOrder) (idx - r.start))
        hwhole (by omega)
      refine ⟨_, hgroup idx hle hlt, ?_, by omega, by omega, by omega, by omega⟩
      rw [Nat.add_sub_cancel_left]
      exact dvd_alignDown _ _
    · exact partialMap_iff h.lt hr hle hlt (hin r hr).2
    · exact lowmemBlock_iff hr hle hlt

/-- The mapping of two megabytes and a bit, with blocks of eight subblocks. -/
theorem regionsOk_lowMemory : (⟨5, 2, 512, 1030, 128⟩ : Backing).RegionsOk :=
  (regionsOk_iff ⟨⟨by decide, by decide⟩, by decide, .inr ⟨by decide, by decide⟩⟩).mpr (by decide)

/-- A virtual machine's first mapping is one megabyte long: the low memory ends behind it, and
so does a region. -/
theorem not_regionsOk_short : (⟨5, 2, 512, 768, 128⟩ : Backing).Accepted ∧
    ¬ (⟨5, 2, 512, 768, 128⟩ : Backing).RegionsOk := by
  refine ⟨⟨⟨by decide, by decide⟩, by decide, .inr ⟨by decide, by decide⟩⟩, fun hok => ?_⟩
  have hin := hok.inside ⟨64, 128, 2, true, false⟩ (by decide)
  exact absurd hin (by decide)

end Backing

end Emp
