import Emp.Lib.SelectionSort
import Emp.Lib.Tiling

/-!
# The regions of a descriptor directory

`allocate_gpas` rounds a mapping to subblocks and finds out how many of its subblocks lie in
front of the first whole block and behind the last one.  `set_gpadesc_regions` cuts the
directory there and gives every region the order of the descriptor groups it is populated
with: whole blocks in the middle, single subblocks at the two ends.

Addresses are page numbers.

## Main definitions

* `Backing` — the mapping and the two orders.
* `Backing.setGpadescRegions`, `Backing.getGpadescRegion` — the regions, and their lookup.
* `Backing.empGetBlockHeadIndex` — the head index by index arithmetic.
-/

namespace Emp

/-- The largest block order, `BLOCK_MAX_ORDER` and `LOW_MEMORY_MAX_ORDER`. -/
def blockMaxOrder : ℕ := 9

/-- A mapping with its configured orders; `lowMemoryEnd` is not zero for the low memory of a
virtual machine only. -/
structure Backing where
  blockOrder : ℕ
  sbOrder : ℕ
  vmStart : ℕ
  vmEnd : ℕ
  lowMemoryEnd : ℕ

/-- `struct gpadesc_region`. -/
structure GpadescRegion where
  start : ℕ
  finish : ℕ
  allocOrder : ℕ
  lowmemBlock : Bool
  partialMap : Bool
  deriving DecidableEq, Repr

namespace Backing

variable (m : Backing)

/-- `bvma_sib_size`. -/
def sibSize : ℕ := 2 ^ (m.blockOrder - m.sbOrder)

/-- The subblock in which the mapping starts. -/
def sbStart : ℕ := m.vmStart / 2 ^ m.sbOrder

/-- The subblock behind the mapping. -/
def sbEnd : ℕ := (m.vmEnd + 2 ^ m.sbOrder - 1) / 2 ^ m.sbOrder

/-- `desc->vm_base`. -/
def vmBase : ℕ := m.sbStart * 2 ^ m.sbOrder

def gpaLen : ℕ := m.sbEnd - m.sbStart

def partialAtHead : Bool := m.vmStart != m.sbStart * 2 ^ m.sbOrder

def partialAtTail : Bool := m.vmEnd != m.sbEnd * 2 ^ m.sbOrder

/-- `sb_at_head`, which is `desc->block_aligned_start`. -/
def blockAlignedStart : ℕ :=
  if 0 < m.sbStart % m.sibSize then m.sibSize - m.sbStart % m.sibSize
  else if m.partialAtHead then m.sibSize else 0

def sbAtTail : ℕ :=
  if m.sbEnd % m.sibSize = 0 ∧ m.partialAtTail then m.sibSize else m.sbEnd % m.sibSize

def blockAlignedEnd : ℕ := if m.sbAtTail < m.gpaLen then m.gpaLen - m.sbAtTail else 0

/-- The boundaries that `set_gpadesc_regions` collects. -/
def boundaries : List ℕ :=
  (if 0 < m.lowMemoryEnd then [m.lowMemoryEnd] else []) ++
  (if m.partialAtHead ∧ 0 < m.gpaLen then [1] else []) ++
  (if m.partialAtTail ∧ 1 < m.gpaLen then [m.gpaLen - 1] else []) ++
  (if 0 < m.blockAlignedStart ∧ m.blockAlignedStart < m.gpaLen then [m.blockAlignedStart]
    else []) ++
  (if 0 < m.sbAtTail ∧ m.sbAtTail < m.gpaLen then [m.blockAlignedEnd] else []) ++ [m.gpaLen]

/-- The order of the groups in a region. -/
def regionOrder (start finish : ℕ) : ℕ :=
  let order := if (finish ≤ m.blockAlignedStart ∨ m.blockAlignedEnd ≤ start) ∧
    m.sbOrder < m.blockOrder then m.sbOrder else m.blockOrder
  if finish ≤ m.lowMemoryEnd ∧ blockMaxOrder < order then blockMaxOrder else order

/-- One region. -/
def region (start finish : ℕ) : GpadescRegion :=
  ⟨start, finish, m.regionOrder start finish, decide (finish ≤ m.lowMemoryEnd),
    m.partialAtHead && decide (finish ≤ 1) || m.partialAtTail && decide (m.gpaLen - 1 ≤ start)⟩

/-- The regions between consecutive boundaries; a boundary that occurs twice is skipped.  Only
an empty mapping has the boundary 0. -/
def regionsFrom (start : ℕ) : List ℕ → List GpadescRegion
  | [] => []
  | b :: bs =>
    if b = start then regionsFrom start bs else m.region start b :: regionsFrom b bs

/-- `__sort_boundaries`. -/
def sortBoundaries (boundary : List ℕ) : List ℕ :=
  selectionSort (· < ·) boundary.length boundary

/-- `__sort_regions`: the longest region comes first. -/
def sortRegions (regions : List GpadescRegion) : List GpadescRegion :=
  selectionSort (fun r r' => r'.finish - r'.start < r.finish - r.start) regions.length regions

/-- `set_gpadesc_regions`. -/
def setGpadescRegions : List GpadescRegion :=
  sortRegions (m.regionsFrom 0 (sortBoundaries m.boundaries))

/-- `get_gpadesc_region`. -/
def getGpadescRegion (idx : ℕ) : Option GpadescRegion :=
  m.setGpadescRegions.find? fun r => r.start ≤ idx && idx < r.finish

/-- `_emp_get_block_head_index`. -/
def empGetBlockHeadIndex (index order : ℕ) : ℕ :=
  index - (if m.blockAlignedStart ≤ index then index - m.blockAlignedStart else index) % 2 ^ order

/-- The first index and the order of the group that `new_gpadesc` populates for an index. -/
def groupAt (idx : ℕ) : Option (ℕ × ℕ) :=
  (m.getGpadescRegion idx).map fun r =>
    (m.empGetBlockHeadIndex idx (r.allocOrder - m.sbOrder), r.allocOrder)

/-- What the module's parameters ensure. -/
structure Valid : Prop where
  sb_le : m.sbOrder ≤ m.blockOrder
  le_max : m.blockOrder ≤ blockMaxOrder

variable {m} {idx : ℕ} {r : GpadescRegion}

theorem regionOrder_le (h : m.Valid) (start finish : ℕ) :
    m.sbOrder ≤ m.regionOrder start finish ∧ m.regionOrder start finish ≤ m.blockOrder := by
  have hsb := h.sb_le
  have hmax := h.le_max
  simp only [regionOrder]
  split_ifs <;> omega

/-- A region runs from one boundary to the next. -/
theorem mem_regionsFrom {start : ℕ} {bs : List ℕ} (hsorted : bs.Pairwise (· ≤ ·))
    (hstart : ∀ b ∈ bs, start ≤ b) (hr : r ∈ m.regionsFrom start bs) :
    start ≤ r.start ∧ r = m.region r.start r.finish ∧ ∀ b ∈ bs, b ≤ r.start ∨ r.finish ≤ b := by
  induction bs generalizing start with
  | nil => cases hr
  | cons b bs ih =>
      obtain ⟨hb, hbs⟩ := List.pairwise_cons.mp hsorted
      have hstartb := hstart b (List.mem_cons_self ..)
      simp only [regionsFrom] at hr
      split_ifs at hr with heq
      · obtain ⟨hle, hreg, hcut⟩ :=
          ih hbs (fun b' hb' => hstart b' (List.mem_cons_of_mem _ hb')) hr
        refine ⟨hle, hreg, fun b' hb' => ?_⟩
        rcases List.mem_cons.mp hb' with rfl | hb'
        · exact .inl (heq ▸ hle)
        · exact hcut b' hb'
      · rcases List.mem_cons.mp hr with rfl | hr
        · refine ⟨le_rfl, rfl, fun b' hb' => ?_⟩
          rcases List.mem_cons.mp hb' with rfl | hb'
          · exact .inr le_rfl
          · exact .inr (hb b' hb')
        · obtain ⟨hle, hreg, hcut⟩ := ih hbs hb hr
          refine ⟨hstartb.trans hle, hreg, fun b' hb' => ?_⟩
          rcases List.mem_cons.mp hb' with rfl | hb'
          · exact .inl hle
          · exact hcut b' hb'

/-- The regions leave no gap below a boundary. -/
theorem exists_mem_regionsFrom {start b : ℕ} {bs : List ℕ} (hb : b ∈ bs) (hstart : start ≤ idx)
    (hidx : idx < b) : ∃ r ∈ m.regionsFrom start bs, r.start ≤ idx ∧ idx < r.finish := by
  induction bs generalizing start with
  | nil => cases hb
  | cons b' bs ih =>
      have hrest : b ≠ b' → b ∈ bs := fun hne => (List.mem_cons.mp hb).resolve_left hne
      simp only [regionsFrom]
      split_ifs with heq
      · exact ih (hrest (by omega)) hstart
      · by_cases hin : idx < b'
        · exact ⟨m.region start b', List.mem_cons_self .., hstart, hin⟩
        · have h := ih (hrest (by omega)) (not_lt.mp hin)
          exact h.imp fun r hr => ⟨List.mem_cons_of_mem _ hr.1, hr.2⟩

theorem mem_sortBoundaries {boundary : List ℕ} {b : ℕ} :
    b ∈ sortBoundaries boundary ↔ b ∈ boundary :=
  (perm_selectionSort _ _ _).mem_iff

theorem pairwise_sortBoundaries (boundary : List ℕ) :
    (sortBoundaries boundary).Pairwise (· ≤ ·) := pairwise_selectionSort le_rfl

theorem perm_setGpadescRegions (m : Backing) :
    m.setGpadescRegions.Perm (m.regionsFrom 0 (sortBoundaries m.boundaries)) :=
  perm_selectionSort _ _ _

/-- The region that is looked up holds the index and no boundary inside. -/
theorem getGpadescRegion_spec (h : m.getGpadescRegion idx = some r) :
    r.start ≤ idx ∧ idx < r.finish ∧ r = m.region r.start r.finish ∧
      ∀ b ∈ m.boundaries, b ≤ r.start ∨ r.finish ≤ b := by
  have hin : r.start ≤ idx ∧ idx < r.finish := by
    simpa using List.find?_some h
  have hmem : r ∈ m.regionsFrom 0 (sortBoundaries m.boundaries) :=
    m.perm_setGpadescRegions.mem_iff.mp (List.mem_of_find?_eq_some h)
  obtain ⟨-, hreg, hcut⟩ := mem_regionsFrom (pairwise_sortBoundaries m.boundaries)
    (fun _ _ => Nat.zero_le _) hmem
  exact ⟨hin.1, hin.2, hreg, fun b hb => hcut b (mem_sortBoundaries.mpr hb)⟩

/-- Every index of the directory lies in a region. -/
theorem exists_getGpadescRegion (hidx : idx < m.gpaLen) : ∃ r, m.getGpadescRegion idx = some r := by
  have hlast : m.gpaLen ∈ sortBoundaries m.boundaries := by
    simp [mem_sortBoundaries, boundaries]
  obtain ⟨r, hr, hle, hlt⟩ := exists_mem_regionsFrom hlast (Nat.zero_le idx) hidx
  rw [← Option.isSome_iff_exists, getGpadescRegion, List.find?_isSome]
  refine ⟨r, m.perm_setGpadescRegions.mem_iff.mpr hr, ?_⟩
  simpa using And.intro hle hlt

theorem allocOrder_bounds (hm : m.Valid) (h : m.getGpadescRegion idx = some r) :
    m.sbOrder ≤ r.allocOrder ∧ r.allocOrder ≤ m.blockOrder := by
  obtain ⟨-, -, hreg, -⟩ := getGpadescRegion_spec h
  rw [hreg]
  exact regionOrder_le hm _ _

/-! ### Groups on the grid -/

theorem sibSize_pos : 0 < m.sibSize := Nat.two_pow_pos _

theorem dvd_alignedStart : m.sibSize ∣ m.sbStart + m.blockAlignedStart := by
  have hpos := m.sibSize_pos
  have hmod := Nat.mod_lt m.sbStart hpos
  rw [blockAlignedStart]
  split_ifs with h h'
  · have hsum : m.sbStart + (m.sibSize - m.sbStart % m.sibSize) =
        m.sbStart - m.sbStart % m.sibSize + m.sibSize := by
      have hle := Nat.mod_le m.sbStart m.sibSize
      omega
    rw [hsum]
    exact Nat.dvd_add (Nat.dvd_sub_mod _) (dvd_refl _)
  · exact Nat.dvd_add (Nat.dvd_of_mod_eq_zero (by omega)) (dvd_refl _)
  · rw [Nat.add_zero]
    exact Nat.dvd_of_mod_eq_zero (by omega)

theorem dvd_alignedEnd : m.sibSize ∣ m.sbEnd - m.sbAtTail := by
  rw [sbAtTail]
  split_ifs with h
  · exact Nat.dvd_sub (Nat.dvd_of_mod_eq_zero h.1) (dvd_refl _)
  · exact Nat.dvd_sub_mod _

/-- The part of the directory that consists of whole blocks. -/
theorem dvd_wholeBlocks (h : 0 < m.blockAlignedEnd) :
    2 ^ (m.blockOrder - m.sbOrder) ∣ m.blockAlignedEnd - m.blockAlignedStart := by
  have htail : m.sbAtTail < m.gpaLen := by
    by_contra hno
    rw [blockAlignedEnd, if_neg hno] at h
    exact lt_irrefl 0 h
  have hdvd := Nat.dvd_sub (dvd_alignedEnd (m := m)) (dvd_alignedStart (m := m))
  have heq : m.sbEnd - m.sbAtTail - (m.sbStart + m.blockAlignedStart) =
      m.blockAlignedEnd - m.blockAlignedStart := by
    rw [blockAlignedEnd, if_pos htail]
    simp only [gpaLen] at htail ⊢
    omega
  rwa [heq] at hdvd

/-- The limit for low memory is never below the order of a block. -/
theorem regionOrder_eq (hm : m.Valid) (start finish : ℕ) : m.regionOrder start finish =
    if (finish ≤ m.blockAlignedStart ∨ m.blockAlignedEnd ≤ start) ∧ m.sbOrder < m.blockOrder then
      m.sbOrder else m.blockOrder := by
  have hsb := hm.sb_le
  have hmax := hm.le_max
  rw [regionOrder]
  refine if_neg fun h => ?_
  have hlt := h.2
  split_ifs at hlt <;> omega

/-- The groups are whole blocks between the first and the last whole block, and single
subblocks outside. -/
theorem allocOrder_eq (hm : m.Valid) (h : m.getGpadescRegion idx = some r)
    (hlen : idx < m.gpaLen) : r.allocOrder =
      if m.blockAlignedStart ≤ idx ∧ idx < m.blockAlignedEnd then m.blockOrder else m.sbOrder := by
  obtain ⟨hle, hlt, hreg, hcut⟩ := getGpadescRegion_spec h
  have hgpaLen : r.finish ≤ m.gpaLen := by
    have hmem : m.gpaLen ∈ m.boundaries := by simp [boundaries]
    have hc := hcut _ hmem
    omega
  have hhead : m.blockAlignedStart ≤ r.start ∨ r.finish ≤ m.blockAlignedStart := by
    by_cases hin : 0 < m.blockAlignedStart ∧ m.blockAlignedStart < m.gpaLen
    · refine hcut _ ?_
      simp only [boundaries, List.mem_append]
      refine .inl (.inl (.inr ?_))
      rw [if_pos hin]
      exact List.mem_singleton_self _
    · omega
  have htail : m.blockAlignedEnd ≤ r.start ∨ r.finish ≤ m.blockAlignedEnd := by
    by_cases hin : 0 < m.sbAtTail ∧ m.sbAtTail < m.gpaLen
    · refine hcut _ ?_
      simp only [boundaries, List.mem_append]
      refine .inl (.inr ?_)
      rw [if_pos hin]
      exact List.mem_singleton_self _
    · rw [blockAlignedEnd]
      split_ifs <;> omega
  have hsb := hm.sb_le
  rw [hreg, region, regionOrder_eq hm]
  simp only
  split_ifs <;> omega

/-- The head of the run of `idx` is not behind `idx`, lies on the grid of the directory, and in
front of the first whole block only when `idx` does. -/
theorem empGetBlockHeadIndex_spec (idx order : ℕ) :
    m.empGetBlockHeadIndex idx order ≤ idx ∧
      (m.blockAlignedStart ≤ idx → m.blockAlignedStart ≤ m.empGetBlockHeadIndex idx order ∧
        2 ^ order ∣ m.empGetBlockHeadIndex idx order - m.blockAlignedStart) := by
  rw [empGetBlockHeadIndex]
  refine ⟨Nat.sub_le _ _, fun h => ?_⟩
  rw [if_pos h]
  have hmod := Nat.mod_le (idx - m.blockAlignedStart) (2 ^ order)
  refine ⟨by omega, ?_⟩
  have hsub : idx - (idx - m.blockAlignedStart) % 2 ^ order - m.blockAlignedStart =
      idx - m.blockAlignedStart - (idx - m.blockAlignedStart) % 2 ^ order := by omega
  rw [hsub]
  exact Nat.dvd_sub_mod _

/-- In front of the first whole block the groups are single subblocks. -/
theorem allocOrder_of_lt (hm : m.Valid) (h : m.getGpadescRegion idx = some r)
    (hlen : idx < m.gpaLen) (hidx : idx < m.blockAlignedStart) : r.allocOrder = m.sbOrder := by
  rw [allocOrder_eq hm h hlen]
  exact if_neg fun hin => not_le.mpr hidx hin.1

/-- The group of an index holds the index and lies in the directory, and it is the group of
all its indexes. -/
theorem groupAt_spec (hm : m.Valid) (hlen : idx < m.gpaLen) :
    ∃ s o, m.groupAt idx = some (s, o) ∧ s ≤ idx ∧ idx < s + 2 ^ (o - m.sbOrder) ∧
      ∀ j, s ≤ j → j < s + 2 ^ (o - m.sbOrder) → j < m.gpaLen ∧ m.groupAt j = some (s, o) := by
  have hat : ∀ j, j < m.gpaLen → m.groupAt j = some
      (if m.blockAlignedStart ≤ j ∧ j < m.blockAlignedEnd then
        (m.blockAlignedStart + alignDown (m.blockOrder - m.sbOrder) (j - m.blockAlignedStart),
          m.blockOrder)
      else (j, m.sbOrder)) := by
    intro j hj
    obtain ⟨r, hr⟩ := exists_getGpadescRegion hj
    rw [groupAt, hr, Option.map_some, allocOrder_eq hm hr hj]
    split_ifs with hin
    · have hmod := Nat.mod_le (j - m.blockAlignedStart) (2 ^ (m.blockOrder - m.sbOrder))
      rw [empGetBlockHeadIndex, if_pos hin.1, alignDown_eq]
      congr 2
      omega
    · rw [empGetBlockHeadIndex, Nat.sub_self, pow_zero, Nat.mod_one, Nat.sub_zero]
  rw [hat idx hlen]
  by_cases hin : m.blockAlignedStart ≤ idx ∧ idx < m.blockAlignedEnd
  · rw [if_pos hin]
    refine ⟨_, _, rfl, ?_⟩
    have hrun := lt_alignDown_add (m.blockOrder - m.sbOrder) (idx - m.blockAlignedStart)
    have hlow := alignDown_le (m.blockOrder - m.sbOrder) (idx - m.blockAlignedStart)
    have hhigh := add_le_of_dvd_of_lt (dvd_alignDown _ _) (dvd_wholeBlocks (by omega))
      (hlow.trans_lt (Nat.sub_lt_sub_right hin.1 hin.2))
    have hend : m.blockAlignedEnd ≤ m.gpaLen := by
      rw [blockAlignedEnd]
      split_ifs <;> omega
    refine ⟨by omega, by omega, fun j hj hj' => ?_⟩
    refine ⟨by omega, ?_⟩
    rw [hat j (by omega), if_pos ⟨by omega, by omega⟩]
    have hsame : (j - m.blockAlignedStart) / 2 ^ (m.blockOrder - m.sbOrder) =
        (idx - m.blockAlignedStart) / 2 ^ (m.blockOrder - m.sbOrder) := by
      rw [← alignDown_div _ (idx - m.blockAlignedStart)]
      exact (div_eq_iff_of_dvd (dvd_alignDown _ _)).mpr ⟨by omega, by omega⟩
    rw [alignDown_congr hsame]
  · rw [if_neg hin]
    refine ⟨_, _, rfl, le_rfl, ?_⟩
    rw [Nat.sub_self, pow_zero]
    refine ⟨Nat.lt_succ_self _, fun j hj hj' => ?_⟩
    obtain rfl : j = idx := by omega
    rw [hat j hlen, if_neg hin]
    exact ⟨hlen, rfl⟩

end Backing

end Emp
