import Emp.Els.Group
import Emp.Lib.Transition

/-!
# The geometry of elastic blocks

Whatever is done to its blocks, a group stays tiled by aligned blocks whose members record
the same order, and no block is above the ceiling of one of its members.  The ceilings alone
do not say the latter: a stretch looks at the ceilings of the two heads only.  What carries
over to the other members is that the ceiling of a run's first descriptor is at most that of
any member that may still grow into the run.

## Main definitions

* `Group.Placed` — where `new_gpadesc` puts a group.
* `Group.Geometry` — the invariant.
* `Group.HeadsAgree` — address arithmetic and index arithmetic find the same heads.
-/

namespace Emp

namespace Group

variable {g g' : Group} {k s i : ℕ}

/-- The array is aligned to its size, and the group lies on the grid of the directory or is a
single descriptor. -/
structure Placed (g : Group) : Prop where
  pos : 0 < g.gpaSize
  base : g.gpaSize * g.len ∣ g.base
  sb_le : g.backing.sbOrder ≤ g.allocOrder
  grid : g.backing.blockAlignedStart ≤ g.start ∧ g.len ∣ g.start - g.backing.blockAlignedStart ∨
    g.allocOrder = g.backing.sbOrder

/-- The group is tiled by its blocks, the orders of a descriptor fit together, and the ceiling
of the first descriptor of a run bounds nobody that may grow into the run by less. -/
structure Geometry (g : Group) : Prop where
  tiled : Tiled 0 g.len fun k => (g.gpa k).descOrder
  sbOrder : ∀ k < g.len, (g.gpa k).sbOrder = g.backing.sbOrder
  blockOrder : ∀ k < g.len, (g.gpa k).blockOrder = g.backing.sbOrder + (g.gpa k).descOrder
  le_max : ∀ k < g.len, (g.gpa k).blockOrder ≤ (g.gpa k).maxBlockOrder
  max_le : ∀ k < g.len, (g.gpa k).maxBlockOrder ≤ g.allocOrder
  ceiling : ∀ k < g.len, ∀ p, g.backing.sbOrder + p ≤ (g.gpa k).maxBlockOrder →
    (g.gpa (alignDown p k)).maxBlockOrder ≤ (g.gpa k).maxBlockOrder

/-- The descriptor found at the head index is the one found by address, for every member. -/
def HeadsAgree (g : Group) : Prop :=
  ∀ k < g.len, g.dir (g.empGetBlockHeadIndex (g.start + k)) = some (g.empGetBlockHead k)

/-! ### Addresses -/

theorem member_ptr (h : g.Placed) (k : ℕ) : g.member (g.ptr k) = k := by
  rw [member, ptr, Nat.add_sub_cancel_left, Nat.mul_div_cancel _ h.pos]

theorem ptr_inj (h : g.Placed) : g.ptr k = g.ptr i ↔ k = i := by
  constructor
  · intro heq
    rw [← member_ptr h k, heq, member_ptr h]
  · exact congrArg g.ptr

/-- The head at a descriptor's address is the first of its run. -/
theorem headAt_ptr (h : g.Placed) {p : ℕ} (hp : g.backing.sbOrder + p ≤ g.allocOrder) :
    g.headAt (g.ptr k) p = g.ptr (alignDown p k) := by
  obtain ⟨q, hq⟩ := h.base
  have hlen : g.len = 2 ^ p * 2 ^ (g.allocOrder - g.backing.sbOrder - p) := by
    rw [len, ← pow_add]
    congr 1
    omega
  have hmod : g.ptr k % (g.gpaSize * 2 ^ p) = g.gpaSize * (k % 2 ^ p) := by
    have hbase : g.base = g.gpaSize * 2 ^ p * (2 ^ (g.allocOrder - g.backing.sbOrder - p) * q) := by
      rw [hq, hlen]
      ring
    rw [ptr, hbase, Nat.mul_add_mod, mul_comm k, Nat.mul_mod_mul_left]
  have hle := Nat.mul_le_mul_left g.gpaSize (Nat.mod_le k (2 ^ p))
  rw [headAt, hmod, alignDown_eq, ptr, ptr, Nat.sub_mul, mul_comm (k % 2 ^ p), mul_comm k]
  omega

theorem Geometry.descOrder_le (h : g.Geometry) (hk : k < g.len) :
    g.backing.sbOrder + (g.gpa k).descOrder ≤ g.allocOrder := by
  have hmax := (h.le_max k hk).trans (h.max_le k hk)
  rwa [h.blockOrder k hk] at hmax

theorem empGetBlockHead_eq (h : g.Placed) (hg : g.Geometry) (hk : k < g.len) :
    g.empGetBlockHead k = g.ptr (alignDown (g.gpa k).descOrder k) :=
  headAt_ptr h (hg.descOrder_le hk)

theorem isHead_iff (h : g.Placed) (hg : g.Geometry) (hk : k < g.len) :
    g.IsHead k ↔ alignDown (g.gpa k).descOrder k = k := by
  rw [IsHead, empGetBlockHead_eq h hg hk, ptr_inj h]
  exact and_iff_right hk

/-- Index arithmetic finds the first index of the block. -/
theorem headIndex_eq (h : g.Placed) (hg : g.Geometry) (hk : k < g.len) :
    g.backing.empGetBlockHeadIndex (g.start + k) (g.gpa k).descOrder =
      g.start + alignDown (g.gpa k).descOrder k := by
  have hdesc := hg.descOrder_le hk
  have hmodle := Nat.mod_le k (2 ^ (g.gpa k).descOrder)
  by_cases hzero : (g.gpa k).descOrder = 0
  · rw [hzero, Backing.empGetBlockHeadIndex, alignDown, pow_zero, Nat.mod_one, Nat.div_one, mul_one,
      Nat.sub_zero]
  · obtain ⟨hstart, hgrid⟩ : g.backing.blockAlignedStart ≤ g.start ∧
        g.len ∣ g.start - g.backing.blockAlignedStart := by
      rcases h.grid with hgrid | hsb
      · exact hgrid
      · omega
    have hmod : (g.start + k - g.backing.blockAlignedStart) % 2 ^ (g.gpa k).descOrder =
        k % 2 ^ (g.gpa k).descOrder := by
      have hdvd : 2 ^ (g.gpa k).descOrder ∣ g.start - g.backing.blockAlignedStart :=
        (pow_dvd_pow 2 (by omega)).trans hgrid
      obtain ⟨q, hq⟩ := hdvd
      have hsum : g.start + k - g.backing.blockAlignedStart =
          2 ^ (g.gpa k).descOrder * q + k := by omega
      rw [hsum, Nat.mul_add_mod]
    rw [Backing.empGetBlockHeadIndex, if_pos (by omega), hmod, alignDown_eq]
    omega

/-- The two ways to find a head agree. -/
theorem headsAgree (h : g.Placed) (hg : g.Geometry) : g.HeadsAgree := by
  intro k hk
  have hle := alignDown_le (g.gpa k).descOrder k
  have hdir : ∀ i, i < g.len → g.dir (g.start + i) = some (g.ptr i) := by
    intro i hi
    rw [dir, if_pos (by omega), Nat.add_sub_cancel_left]
  rw [empGetBlockHead_eq h hg hk, empGetBlockHeadIndex, Nat.add_sub_cancel_left]
  by_cases hzero : (g.gpa k).descOrder = 0
  · rw [if_pos hzero, hzero, hdir k hk, alignDown, pow_zero, Nat.div_one, mul_one]
  · rw [if_neg hzero, headIndex_eq h hg hk, hdir _ (by omega)]

/-! ### Operations that give the blocks of a run another order -/

theorem update_inside {lo n : ℕ} {f : GpaDesc → GpaDesc} (h : lo ≤ i ∧ i < lo + n) :
    (g.update lo n f).gpa i = f (g.gpa i) := if_pos h

theorem update_outside {lo n : ℕ} {f : GpaDesc → GpaDesc} (h : ¬ (lo ≤ i ∧ i < lo + n)) :
    (g.update lo n f).gpa i = g.gpa i := if_neg h

theorem setBlockOrder_eq {h : GpaDesc} {sb : ℕ} (hsb : h.sbOrder = sb) (q : ℕ) :
    h.setBlockOrder (sb + q) = { h with blockOrder := sb + q, descOrder := q } := by
  simp [GpaDesc.setBlockOrder, hsb]

/-- A run that is a union of blocks is tiled by blocks of one order, within the ceilings. -/
theorem geometry_update {a p q : ℕ} {f : GpaDesc → GpaDesc} (hg : g.Geometry) (ha : 2 ^ p ∣ a)
    (hqp : q ≤ p) (hlen : a + 2 ^ p ≤ g.len)
    (hold : Tiled a (a + 2 ^ p) fun k => (g.gpa k).descOrder)
    (hf : ∀ k, a ≤ k → k < a + 2 ^ p → f (g.gpa k) = { g.gpa k with
      blockOrder := g.backing.sbOrder + q, descOrder := q })
    (hmax : ∀ k, a ≤ k → k < a + 2 ^ p → g.backing.sbOrder + q ≤ (g.gpa k).maxBlockOrder) :
    (g.update a (2 ^ p) f).Geometry := by
  have hin : ∀ k, a ≤ k → k < a + 2 ^ p → (g.update a (2 ^ p) f).gpa k = { g.gpa k with
      blockOrder := g.backing.sbOrder + q, descOrder := q } := by
    intro k hk hk'
    rw [update_inside ⟨hk, hk'⟩, hf k hk hk']
  have hout : ∀ k, ¬ (a ≤ k ∧ k < a + 2 ^ p) → (g.update a (2 ^ p) f).gpa k = g.gpa k :=
    fun k hk => update_outside hk
  have hceil : ∀ k, ((g.update a (2 ^ p) f).gpa k).maxBlockOrder = (g.gpa k).maxBlockOrder := by
    intro k
    by_cases hk : a ≤ k ∧ k < a + 2 ^ p
    · rw [hin k hk.1 hk.2]
    · rw [hout k hk]
  have hdvd : 2 ^ q ∣ 2 ^ p := pow_dvd_pow 2 hqp
  have hnew : Tiled a (a + 2 ^ p) fun k => ((g.update a (2 ^ p) f).gpa k).descOrder := by
    refine tiled_const (hdvd.trans ha) (hdvd.trans (Nat.dvd_add ha (dvd_refl _))) fun k hk hk' => ?_
    rw [hin k hk hk']
  refine ⟨hg.tiled.replace hold hnew (Nat.zero_le _) hlen fun k hk => by rw [hout k hk],
    fun k hk => ?_, fun k hk => ?_, fun k hk => ?_, fun k hk => ?_, fun k hk r hr => ?_⟩
  · by_cases hin' : a ≤ k ∧ k < a + 2 ^ p
    · rw [hin k hin'.1 hin'.2]
      exact hg.sbOrder k hk
    · rw [hout k hin']
      exact hg.sbOrder k hk
  · by_cases hin' : a ≤ k ∧ k < a + 2 ^ p
    · rw [hin k hin'.1 hin'.2]
      rfl
    · rw [hout k hin']
      exact hg.blockOrder k hk
  · by_cases hin' : a ≤ k ∧ k < a + 2 ^ p
    · rw [hin k hin'.1 hin'.2]
      exact hmax k hin'.1 hin'.2
    · rw [hout k hin']
      exact hg.le_max k hk
  · rw [hceil]
    exact hg.max_le k hk
  · rw [hceil] at hr ⊢
    rw [hceil]
    exact hg.ceiling k hk r hr

/-- The block of a head: its run, tiled by itself. -/
theorem Geometry.block (hg : g.Geometry) (hk : k < g.len)
    (hhead : alignDown (g.gpa k).descOrder k = k) :
    2 ^ (g.gpa k).descOrder ∣ k ∧ k + 2 ^ (g.gpa k).descOrder ≤ g.len ∧
      (∀ i, k ≤ i → i < k + 2 ^ (g.gpa k).descOrder →
        (g.gpa i).descOrder = (g.gpa k).descOrder) ∧
      Tiled k (k + 2 ^ (g.gpa k).descOrder) fun k => (g.gpa k).descOrder := by
  obtain ⟨-, hend, hmem⟩ := hg.tiled.run (Nat.zero_le _) hk
  rw [hhead] at hend hmem
  have hdvd : 2 ^ (g.gpa k).descOrder ∣ k := by
    have h := dvd_alignDown (g.gpa k).descOrder k
    rwa [hhead] at h
  exact ⟨hdvd, hend, hmem, tiled_run hdvd hmem⟩

/-- A member's ceiling is at least that of its head. -/
theorem Geometry.ceiling_head (hg : g.Geometry) (hi : i < g.len)
    (hrun : alignDown (g.gpa i).descOrder i = k) :
    (g.gpa k).maxBlockOrder ≤ (g.gpa i).maxBlockOrder := by
  rw [← hrun]
  refine hg.ceiling i hi _ ?_
  rw [← hg.blockOrder i hi]
  exact hg.le_max i hi

theorem numSubblock_eq (hg : g.Geometry) (hk : k < g.len) :
    (g.gpa k).numSubblock = 2 ^ (g.gpa k).descOrder := by
  rw [GpaDesc.numSubblock, hg.blockOrder k hk, hg.sbOrder k hk, Nat.add_sub_cancel_left]

/-- Setting the order of all members of a block to a smaller one. -/
theorem geometry_setBlockOrder {q : ℕ} (hg : g.Geometry) (hk : k < g.len)
    (hhead : alignDown (g.gpa k).descOrder k = k) (hq : q ≤ (g.gpa k).descOrder) :
    (g.update k (g.gpa k).numSubblock (·.setBlockOrder (g.backing.sbOrder + q))).Geometry := by
  obtain ⟨hdvd, hend, hmem, htiled⟩ := hg.block hk hhead
  rw [numSubblock_eq hg hk]
  refine geometry_update hg hdvd hq hend htiled (fun i hi hi' => ?_) fun i hi hi' => ?_
  · exact setBlockOrder_eq (hg.sbOrder i (by omega)) q
  · have hmax := hg.le_max i (by omega)
    rw [hg.blockOrder i (by omega), hmem i hi hi'] at hmax
    omega

theorem geometry_elsReduce {locked : Bool} (hg : g.Geometry) (hk : k < g.len)
    (hhead : alignDown (g.gpa k).descOrder k = k)
    (horder : (g.gpa k).sbOrder < (g.gpa k).blockOrder) : (g.elsReduce k locked).Geometry := by
  rw [elsReduce]
  split_ifs
  · have hblock := hg.blockOrder k hk
    rw [hg.sbOrder k hk] at horder
    have hnext : (g.gpa k).blockOrder - 1 = g.backing.sbOrder + ((g.gpa k).descOrder - 1) := by
      omega
    rw [hnext]
    exact geometry_setBlockOrder hg hk hhead (Nat.sub_le _ _)
  · exact hg

theorem geometry_elsTryreduceComplete {locked : Bool} (hg : g.Geometry) (hk : k < g.len)
    (hhead : alignDown (g.gpa k).descOrder k = k) :
    (g.elsTryreduceComplete k locked).Geometry := by
  rw [elsTryreduceComplete]
  split_ifs
  · rw [hg.sbOrder k hk]
    exact geometry_setBlockOrder hg hk hhead (Nat.zero_le _)
  · exact hg

/-! ### Stretching -/

/-- Two heads of one order that may both grow make up the next larger run. -/
theorem geometry_elsStretch {o : ℕ} (hg : g.Geometry) (hs : 2 ^ (o + 1) ∣ s)
    (hend : s + 2 ^ (o + 1) ≤ g.len) (hleft : (g.gpa s).descOrder = o)
    (hright : (g.gpa (s + 2 ^ o)).descOrder = o)
    (hleftMax : (g.gpa s).blockOrder < (g.gpa s).maxBlockOrder)
    (hrightMax : (g.gpa (s + 2 ^ o)).blockOrder < (g.gpa (s + 2 ^ o)).maxBlockOrder) :
    (g.elsStretch s).Geometry := by
  have hpow : 2 ^ (o + 1) = 2 ^ o + 2 ^ o := by
    rw [pow_succ]
    omega
  have hpos := Nat.two_pow_pos o
  have hso : 2 ^ o ∣ s := (pow_dvd_pow 2 (Nat.le_succ o)).trans hs
  have hbo : 2 ^ o ∣ s + 2 ^ o := Nat.dvd_add hso (dvd_refl _)
  have hslen : s < g.len := by omega
  have hblen : s + 2 ^ o < g.len := by omega
  -- the halves are the blocks of the two heads
  obtain ⟨-, -, hmemLeft, htiledLeft⟩ := hg.block hslen (by rw [hleft, alignDown_of_dvd hso])
  obtain ⟨-, -, hmemRight, htiledRight⟩ := hg.block hblen (by rw [hright, alignDown_of_dvd hbo])
  rw [hleft] at hmemLeft htiledLeft
  rw [hright] at hmemRight htiledRight
  have htiled : Tiled s (s + 2 ^ (o + 1)) fun k => (g.gpa k).descOrder := by
    rw [hpow, ← Nat.add_assoc]
    exact htiledLeft.append htiledRight (by omega) (by omega)
  have horder : ∀ i, s ≤ i → i < s + 2 ^ (o + 1) → (g.gpa i).descOrder = o := by
    intro i hi hi'
    by_cases hhalf : i < s + 2 ^ o
    · exact hmemLeft i hi hhalf
    · exact hmemRight i (by omega) (by omega)
  have hsize : (g.gpa s).blockOrder + 1 - (g.gpa s).sbOrder = o + 1 := by
    rw [hg.blockOrder s hslen, hg.sbOrder s hslen, hleft]
    omega
  rw [elsStretch, hsize]
  refine geometry_update hg hs le_rfl hend htiled (fun i hi hi' => ?_) fun i hi hi' => ?_
  · have hilen : i < g.len := by omega
    rw [GpaDesc.incBlockOrder, hg.blockOrder i hilen, horder i hi hi', Nat.add_assoc]
    exact setBlockOrder_eq (hg.sbOrder i hilen) (o + 1)
  · -- the ceiling of a member is that of its head at least, which has room
    have hilen : i < g.len := by omega
    have hroom : ∀ a, 2 ^ o ∣ a → a ≤ i → i < a + 2 ^ o → a < g.len →
        (g.gpa a).descOrder = o → (g.gpa a).blockOrder < (g.gpa a).maxBlockOrder →
        g.backing.sbOrder + (o + 1) ≤ (g.gpa i).maxBlockOrder := by
      intro a ha hai hia halen hao haMax
      have hrun : alignDown (g.gpa i).descOrder i = a := by
        rw [horder i hi hi', alignDown_congr ((div_eq_iff_of_dvd ha).mpr ⟨hai, hia⟩),
          alignDown_of_dvd ha]
      have hceil := hg.ceiling_head hilen hrun
      rw [hg.blockOrder a halen, hao] at haMax
      omega
    by_cases hhalf : i < s + 2 ^ o
    · exact hroom s hso hi hhalf hslen hleft hleftMax
    · exact hroom (s + 2 ^ o) hbo (by omega) (by omega) hblen hright hrightMax

/-- What makes a head and its buddy stretchable. -/
theorem elsIsStretchable_spec {b : ℕ} {ready : Bool}
    (h : g.elsIsStretchable k s ready = some b) :
    (g.gpa s).blockOrder < (g.gpa s).maxBlockOrder ∧
      (g.gpa k).blockOrder < (g.gpa k).maxBlockOrder ∧
      b = (if s = k then s + (g.gpa s).numSubblock else s) ∧
      (g.gpa b).blockOrder < (g.gpa b).maxBlockOrder ∧
      (g.gpa k).blockOrder = (g.gpa b).blockOrder := by
  simp only [elsIsStretchable] at h
  split_ifs at h <;> (simp_all; try omega)

/-- The super head is the start of the next larger run. -/
theorem elsGetSuperHead_spec (hp : g.Placed) (hg : g.Geometry) (hk : k < g.len)
    (h : g.elsGetSuperHead k = some s) :
    (g.gpa k).blockOrder < (g.gpa k).maxBlockOrder ∧
      s = alignDown ((g.gpa k).descOrder + 1) k := by
  rw [elsGetSuperHead] at h
  split_ifs at h with hroom
  have hblock := hg.blockOrder k hk
  have hmax := hg.max_le k hk
  rw [headAt_ptr hp (by omega), member_ptr hp] at h
  exact ⟨not_le.mp hroom, (Option.some.inj h).symm⟩

/-- One level of `els_stretch_rep`: the two halves of the next larger run are blocks that may
both grow. -/
theorem halves_of_stretchable {b : ℕ} {ready : Bool} (hp : g.Placed) (hg : g.Geometry)
    (hk : k < g.len) (hhead : alignDown (g.gpa k).descOrder k = k)
    (hs : g.elsGetSuperHead k = some s) (hb : g.elsIsStretchable k s ready = some b) :
    2 ^ ((g.gpa k).descOrder + 1) ∣ s ∧ s + 2 ^ ((g.gpa k).descOrder + 1) ≤ g.len ∧
      (g.gpa s).descOrder = (g.gpa k).descOrder ∧
      (g.gpa (s + 2 ^ (g.gpa k).descOrder)).descOrder = (g.gpa k).descOrder ∧
      (g.gpa (s + 2 ^ (g.gpa k).descOrder)).blockOrder <
        (g.gpa (s + 2 ^ (g.gpa k).descOrder)).maxBlockOrder := by
  obtain ⟨hroom, hsuper⟩ := elsGetSuperHead_spec hp hg hk hs
  obtain ⟨-, -, hbuddy, hbMax, hsame⟩ := elsIsStretchable_spec hb
  have hdvd : 2 ^ ((g.gpa k).descOrder + 1) ∣ s := hsuper ▸ dvd_alignDown _ _
  have hle : s ≤ k := hsuper ▸ alignDown_le _ _
  have hlen : 2 ^ ((g.gpa k).descOrder + 1) ∣ g.len := by
    have hblock := hg.blockOrder k hk
    have hmax := hg.max_le k hk
    exact pow_dvd_pow 2 (by omega)
  have hend := add_le_of_dvd_of_lt hdvd hlen (by omega)
  have hpow : 2 ^ ((g.gpa k).descOrder + 1) = 2 ^ (g.gpa k).descOrder + 2 ^ (g.gpa k).descOrder := by
    rw [pow_succ]
    omega
  have hpos := Nat.two_pow_pos (g.gpa k).descOrder
  have hslen : s < g.len := by omega
  have hdesc : ∀ i, i < g.len → (g.gpa k).blockOrder = (g.gpa i).blockOrder →
      (g.gpa i).descOrder = (g.gpa k).descOrder := by
    intro i hi heq
    rw [hg.blockOrder k hk, hg.blockOrder i hi] at heq
    omega
  refine ⟨hdvd, hend, ?_⟩
  by_cases hsk : s = k
  · rw [if_pos hsk, numSubblock_eq hg hslen, hsk] at hbuddy
    rw [hsk, ← hbuddy]
    exact ⟨rfl, hdesc b (by omega) hsame, hbMax⟩
  · rw [if_neg hsk] at hbuddy
    obtain ⟨hkhead, -⟩ := hg.block hk hhead
    have hupper : k = s + 2 ^ (g.gpa k).descOrder := by
      rcases lower_or_upper hkhead with hlow | hup
      · exact absurd (hsuper.trans hlow.symm) hsk
      · rw [← hsuper] at hup
        exact hup
    rw [← hupper]
    exact ⟨hdesc s hslen (hbuddy ▸ hsame), rfl, hroom⟩

theorem geometry_elsStretchRep (hp : g.Placed) (hg : g.Geometry) (hk : k < g.len)
    (hhead : alignDown (g.gpa k).descOrder k = k) (ready : List Bool) :
    (g.elsStretchRep k ready).Geometry := by
  induction ready generalizing g k with
  | nil => exact hg
  | cons r rest ih =>
      rw [elsStretchRep]
      cases hs : g.elsGetSuperHead k with
      | none => exact hg
      | some s =>
          cases hb : g.elsIsStretchable k s r with
          | none => simpa only [hb] using hg
          | some b =>
              simp only [hb]
              obtain ⟨hdvd, hend, hleft, hright, hrightMax⟩ :=
                halves_of_stretchable hp hg hk hhead hs hb
              obtain ⟨hleftMax, -⟩ := elsIsStretchable_spec hb
              have hslen : s < g.len := by
                have hpos := Nat.two_pow_pos ((g.gpa k).descOrder + 1)
                omega
              have hgrown := geometry_elsStretch hg hdvd hend hleft hright hleftMax hrightMax
              have horder : ((g.elsStretch s).gpa s).descOrder = (g.gpa k).descOrder + 1 := by
                rw [elsStretch, update_inside ⟨le_rfl, Nat.lt_add_of_pos_right (Nat.two_pow_pos _)⟩,
                  GpaDesc.incBlockOrder, GpaDesc.setBlockOrder, hg.blockOrder s hslen,
                  hg.sbOrder s hslen, hleft]
                simp only
                omega
              refine ih ⟨hp.pos, hp.base, hp.sb_le, hp.grid⟩ hgrown hslen ?_
              rw [horder, alignDown_of_dvd hdvd]

/-! ### Splitting -/

/-- The piece that is cut fits, and starts on the grid of its own size. -/
theorem pieceOrder_spec (off : ℕ) {size : ℕ} (hsize : 0 < size) (d : ℕ) :
    pieceOrder off size d ≤ d ∧ 2 ^ pieceOrder off size d ≤ size ∧
      2 ^ pieceOrder off size d ∣ off := by
  induction d with
  | zero =>
      refine ⟨le_rfl, ?_, ?_⟩
      · exact hsize
      · exact one_dvd _
  | succ d ih =>
      rw [pieceOrder]
      split_ifs with h
      · exact ⟨ih.1.trans (Nat.le_succ d), ih.2⟩
      · rw [not_or, not_lt, not_not] at h
        exact ⟨le_rfl, h.1, Nat.dvd_of_mod_eq_zero h.2⟩

/-- `g'` is `g` with other ceilings for the members from `lo` to `hi`, which are runs of at
most `2 ^ d` members that record their own order. -/
structure Recap (g g' : Group) (lo hi d : ℕ) : Prop where
  place : g' = { g with gpa := g'.gpa }
  outside : ∀ x, ¬ (lo ≤ x ∧ x < hi) → g'.gpa x = g.gpa x
  orders : ∀ x, (g'.gpa x).sbOrder = (g.gpa x).sbOrder ∧
    (g'.gpa x).blockOrder = (g.gpa x).blockOrder ∧ (g'.gpa x).descOrder = (g.gpa x).descOrder
  bounds : ∀ x, lo ≤ x → x < hi → g.backing.sbOrder ≤ (g'.gpa x).maxBlockOrder ∧
    (g'.gpa x).maxBlockOrder ≤ g.backing.sbOrder + d
  tiled : Tiled lo hi fun x => (g'.gpa x).maxBlockOrder - g.backing.sbOrder

theorem Recap.refl (g : Group) (lo d : ℕ) : Recap g g lo lo d :=
  ⟨rfl, fun _ _ => rfl, fun _ => ⟨rfl, rfl, rfl⟩, fun _ h h' => absurd h' (not_lt.mpr h),
    tiled_empty lo _⟩

/-- Ceilings of neighbouring ranges. -/
theorem Recap.append {g₁ g₂ g₃ : Group} {lo mid hi d : ℕ} (h : Recap g₁ g₂ lo mid d)
    (h' : Recap g₂ g₃ mid hi d) (hlo : lo ≤ mid) (hhi : mid ≤ hi) : Recap g₁ g₃ lo hi d := by
  have hsb : g₂.backing = g₁.backing := by rw [h.place]
  have hkeep : ∀ x, lo ≤ x → x < mid → g₃.gpa x = g₂.gpa x :=
    fun x _ hx => h'.outside x fun hin => absurd hx (not_lt.mpr hin.1)
  refine ⟨?_, fun x hx => ?_, fun x => ?_, fun x hx hx' => ?_, ?_⟩
  · rw [h'.place, h.place]
  · rw [h'.outside x fun hin => hx ⟨hlo.trans hin.1, hin.2⟩,
      h.outside x fun hin => hx ⟨hin.1, hin.2.trans_le hhi⟩]
  · obtain ⟨hs, hb, hd⟩ := h.orders x
    obtain ⟨hs', hb', hd'⟩ := h'.orders x
    exact ⟨hs'.trans hs, hb'.trans hb, hd'.trans hd⟩
  · by_cases hxm : x < mid
    · rw [hkeep x hx hxm]
      exact h.bounds x hx hxm
    · have hbound := h'.bounds x (not_lt.mp hxm) hx'
      rwa [hsb] at hbound
  · have hright : Tiled mid hi fun x => (g₃.gpa x).maxBlockOrder - g₁.backing.sbOrder := by
      have htiled := h'.tiled
      rwa [hsb] at htiled
    refine Tiled.append ?_ hright hlo hhi
    exact h.tiled.congr fun x hx hx' => by rw [hkeep x hx hx']

/-- One run gets its own order as ceiling. -/
theorem recap_update {lo p d : ℕ} {f : GpaDesc → GpaDesc} (hlo : 2 ^ p ∣ lo) (hpd : p ≤ d)
    (hf : ∀ h, (f h).sbOrder = h.sbOrder ∧ (f h).blockOrder = h.blockOrder ∧
      (f h).descOrder = h.descOrder ∧ (f h).maxBlockOrder = g.backing.sbOrder + p) :
    Recap g (g.update lo (2 ^ p) f) lo (lo + 2 ^ p) d := by
  have hmax : ∀ x, lo ≤ x → x < lo + 2 ^ p →
      ((g.update lo (2 ^ p) f).gpa x).maxBlockOrder = g.backing.sbOrder + p := by
    intro x hx hx'
    rw [update_inside ⟨hx, hx'⟩]
    exact (hf _).2.2.2
  refine ⟨rfl, fun x hx => update_outside hx, fun x => ?_, fun x hx hx' => ?_, ?_⟩
  · by_cases hx : lo ≤ x ∧ x < lo + 2 ^ p
    · rw [update_inside hx]
      exact ⟨(hf _).1, (hf _).2.1, (hf _).2.2.1⟩
    · rw [update_outside hx]
      exact ⟨rfl, rfl, rfl⟩
  · rw [hmax x hx hx']
    omega
  · refine tiled_run hlo fun x hx hx' => ?_
    rw [hmax x hx hx', Nat.add_sub_cancel_left]

/-- `____split_set_max_block_order` tiles its part of the block with pieces. -/
theorem recap_splitTile {d fuel off size : ℕ} (hs : 2 ^ d ∣ s) (hfuel : size ≤ fuel) :
    Recap g (g.splitTile d fuel (s + off) off size) (s + off) (s + off + size) d := by
  induction fuel generalizing g off size with
  | zero =>
      obtain rfl := Nat.le_zero.mp hfuel
      exact Recap.refl g _ d
  | succ fuel ih =>
      rw [splitTile]
      by_cases hzero : size = 0
      · rw [if_pos hzero, hzero]
        exact Recap.refl g _ d
      · rw [if_neg hzero]
        simp only
        obtain ⟨hpd, hple, hpoff⟩ := pieceOrder_spec off (Nat.pos_of_ne_zero hzero) d
        set p := pieceOrder off size d
        have hpos := Nat.two_pow_pos p
        have hpiece : Recap g
            (g.update (s + off) (2 ^ p) (·.setMaxBlockOrder (g.backing.sbOrder + p)))
            (s + off) (s + off + 2 ^ p) d :=
          recap_update (Nat.dvd_add ((pow_dvd_pow 2 hpd).trans hs) hpoff) hpd
            fun h => ⟨rfl, rfl, rfl, rfl⟩
        set g' := g.update (s + off) (2 ^ p) (·.setMaxBlockOrder (g.backing.sbOrder + p))
        have hrest : Recap g' (g'.splitTile d fuel (s + (off + 2 ^ p)) (off + 2 ^ p)
            (size - 2 ^ p)) (s + (off + 2 ^ p)) (s + (off + 2 ^ p) + (size - 2 ^ p)) d :=
          ih (by omega)
        have hend : s + (off + 2 ^ p) + (size - 2 ^ p) = s + off + size := by omega
        rw [hend, ← Nat.add_assoc] at hrest
        exact hpiece.append hrest (by omega) (by omega)

/-- The pieces of a part of the block at `k`. -/
theorem recap_tileBetween {d a b : ℕ} (hdvd : 2 ^ d ∣ k) (hka : k ≤ a) (hab : a ≤ b) :
    Recap g (g.splitTile d (b - a) a (a - k) (b - a)) a b d := by
  have hrecap : Recap g (g.splitTile d (b - a) (k + (a - k)) (a - k) (b - a))
      (k + (a - k)) (k + (a - k) + (b - a)) d := recap_splitTile hdvd le_rfl
  rwa [Nat.add_sub_cancel' hka, Nat.add_sub_cancel' hab] at hrecap

/-- The boundary subblock gets the ceiling of one subblock and is marked. -/
theorem recap_mark {boundary sb d : ℕ} (hsb : g.backing.sbOrder = sb) :
    Recap g (g.update boundary 1 fun h => { h.setMaxBlockOrder sb with partialMap := true })
      boundary (boundary + 1) d :=
  recap_update (p := 0) (one_dvd _) (Nat.zero_le _) fun _ => ⟨rfl, rfl, rfl, hsb.symm⟩

/-- The first piece starts on its own grid. -/
theorem Recap.dvd_start {lo hi d : ℕ} (h : Recap g g' lo hi d) (hlt : lo < hi) :
    2 ^ ((g'.gpa lo).maxBlockOrder - g.backing.sbOrder) ∣ lo := by
  have hrun := h.tiled.run le_rfl hlt
  have hgrid := dvd_alignDown ((g'.gpa lo).maxBlockOrder - g.backing.sbOrder) lo
  rwa [le_antisymm (alignDown_le _ _) hrun.1] at hgrid

/-- The whole block gets new ceilings: pieces up to the boundary, the boundary subblock alone
unless the cut is at its start, and pieces behind it. -/
theorem recap_splitCut {boundary : ℕ} (hg : g.Geometry) (hk : k < g.len)
    (hhead : alignDown (g.gpa k).descOrder k = k) (hle : k ≤ boundary)
    (hlt : boundary < k + 2 ^ (g.gpa k).descOrder) (exact : Bool) :
    Recap g (g.splitCut k boundary exact) k (k + 2 ^ (g.gpa k).descOrder)
      (g.gpa k).descOrder := by
  obtain ⟨hdvd, -⟩ := hg.block hk hhead
  have hdesc : (g.gpa k).blockOrder - g.backing.sbOrder = (g.gpa k).descOrder := by
    rw [hg.blockOrder k hk, Nat.add_sub_cancel_left]
  rw [splitCut, hdesc, numSubblock_eq hg hk]
  have hbefore := recap_tileBetween (g := g) hdvd le_rfl hle
  rw [Nat.sub_self] at hbefore
  cases exact with
  | true => exact hbefore.append (recap_tileBetween hdvd hle hlt.le) hle hlt.le
  | false =>
      simp only [Bool.false_eq_true, if_false]
      exact (hbefore.append (recap_mark (by rw [hbefore.place])) hle (by omega)).append
        (recap_tileBetween hdvd (by omega) hlt) (by omega) hlt

/-- Behind the cut the boundary is a multiple of the length that its ceiling allows; a boundary
inside a subblock leaves that subblock alone and marked. -/
theorem splitCut_boundary {boundary : ℕ} (hg : g.Geometry) (hk : k < g.len)
    (hhead : alignDown (g.gpa k).descOrder k = k) (hle : k ≤ boundary)
    (hlt : boundary < k + 2 ^ (g.gpa k).descOrder) (exact : Bool) :
    2 ^ (((g.splitCut k boundary exact).gpa boundary).maxBlockOrder - g.backing.sbOrder) ∣ boundary ∧
      (exact = false →
        ((g.splitCut k boundary exact).gpa boundary).maxBlockOrder = g.backing.sbOrder ∧
          ((g.splitCut k boundary exact).gpa boundary).partialMap = true) := by
  obtain ⟨hdvd, -⟩ := hg.block hk hhead
  have hdesc : (g.gpa k).blockOrder - g.backing.sbOrder = (g.gpa k).descOrder := by
    rw [hg.blockOrder k hk, Nat.add_sub_cancel_left]
  rw [splitCut, hdesc, numSubblock_eq hg hk]
  have hbefore := recap_tileBetween (g := g) hdvd le_rfl hle
  rw [Nat.sub_self] at hbefore
  have hsb : (g.splitTile (g.gpa k).descOrder (boundary - k) k 0 (boundary - k)).backing.sbOrder =
      g.backing.sbOrder := by rw [hbefore.place]
  cases exact with
  | true =>
      refine ⟨?_, nofun⟩
      -- the boundary starts the first of the pieces behind it
      rw [← hsb]
      exact (recap_tileBetween hdvd hle hlt.le).dvd_start hlt
  | false =>
      simp only [Bool.false_eq_true, if_false]
      rw [(recap_tileBetween (a := boundary + 1) hdvd (by omega) hlt).outside boundary (by omega),
        update_inside ⟨le_rfl, Nat.lt_succ_self _⟩]
      refine ⟨?_, fun _ => ⟨rfl, rfl⟩⟩
      simp only [GpaDesc.setMaxBlockOrder, Nat.sub_self, pow_zero]
      exact one_dvd _

/-- A cut lowers ceilings only. -/
theorem Recap.lower {x : ℕ} (h : Recap g g' k (k + 2 ^ (g.gpa k).descOrder) (g.gpa k).descOrder)
    (hg : g.Geometry) (hk : k < g.len) (hhead : alignDown (g.gpa k).descOrder k = k)
    (hx : x < g.len) : (g'.gpa x).maxBlockOrder ≤ (g.gpa x).maxBlockOrder := by
  by_cases hin : k ≤ x ∧ x < k + 2 ^ (g.gpa k).descOrder
  · have hold := hg.le_max x hx
    rw [hg.blockOrder x hx, (hg.block hk hhead).2.2.1 x hin.1 hin.2] at hold
    exact (h.bounds x hin.1 hin.2).2.trans hold
  · rw [h.outside x hin]

theorem reduceToMax_maxBlockOrder (g : Group) (s n x : ℕ) :
    ((g.reduceToMax s n).gpa x).maxBlockOrder = (g.gpa x).maxBlockOrder ∧
      ((g.reduceToMax s n).gpa x).partialMap = (g.gpa x).partialMap := by
  simp only [reduceToMax, update, GpaDesc.setBlockOrder]
  split_ifs
  all_goals exact ⟨rfl, rfl⟩

/-- A descriptor at or above its ceiling goes down to it. -/
theorem reduced_eq {h : GpaDesc} {sb d : ℕ} (hs : h.sbOrder = sb) (hb : h.blockOrder = sb + d)
    (hd : h.descOrder = d) (hmax : h.maxBlockOrder ≤ sb + d) :
    (if h.maxBlockOrder < h.blockOrder then h.setBlockOrder h.maxBlockOrder else h) =
      { h with blockOrder := h.maxBlockOrder, descOrder := h.maxBlockOrder - sb } := by
  obtain ⟨hsb, hblock, hceil, hdesc, hpart⟩ := h
  dsimp only at hs hb hd hmax ⊢
  subst hs hd
  subst hb
  split_ifs with hcut
  · rfl
  · have heq : hceil = hsb + hdesc := by omega
    rw [heq, Nat.add_sub_cancel_left]

/-- Each member of the block goes down to its new ceiling. -/
theorem Recap.reduceToMax_inside {x : ℕ}
    (h : Recap g g' k (k + 2 ^ (g.gpa k).descOrder) (g.gpa k).descOrder) (hg : g.Geometry)
    (hk : k < g.len) (hhead : alignDown (g.gpa k).descOrder k = k) (hx : k ≤ x)
    (hx' : x < k + 2 ^ (g.gpa k).descOrder) :
    (g'.reduceToMax k (2 ^ (g.gpa k).descOrder)).gpa x = { g'.gpa x with
      blockOrder := (g'.gpa x).maxBlockOrder
      descOrder := (g'.gpa x).maxBlockOrder - g.backing.sbOrder } := by
  obtain ⟨-, hend, hmem, -⟩ := hg.block hk hhead
  obtain ⟨hs, hb, hd⟩ := h.orders x
  obtain ⟨hlow, hhigh⟩ := h.bounds x hx hx'
  rw [hg.sbOrder x (by omega)] at hs
  rw [hg.blockOrder x (by omega), hmem x hx hx'] at hb
  rw [hmem x hx hx'] at hd
  rw [reduceToMax, update_inside ⟨hx, hx'⟩]
  exact reduced_eq hs hb hd hhigh

/-- The members of a block follow their new ceilings. -/
theorem geometry_reduceToMax (hg : g.Geometry) (hk : k < g.len)
    (hhead : alignDown (g.gpa k).descOrder k = k)
    (h : Recap g g' k (k + 2 ^ (g.gpa k).descOrder) (g.gpa k).descOrder) :
    (g'.reduceToMax k (2 ^ (g.gpa k).descOrder)).Geometry := by
  obtain ⟨hdvd, hend, hmem, htiled⟩ := hg.block hk hhead
  set d := (g.gpa k).descOrder
  have hbacking : g'.backing = g.backing := by rw [h.place]
  have hlen : (g'.reduceToMax k (2 ^ d)).len = g.len := by
    rw [reduceToMax, update, len, len, hbacking]
    rw [h.place]
  have halloc : (g'.reduceToMax k (2 ^ d)).allocOrder = g.allocOrder := by
    rw [reduceToMax, update, h.place]
  have hin := fun x => h.reduceToMax_inside (x := x) hg hk hhead
  have hout : ∀ x, ¬ (k ≤ x ∧ x < k + 2 ^ d) → (g'.reduceToMax k (2 ^ d)).gpa x = g.gpa x := by
    intro x hx
    rw [reduceToMax, update_outside hx, h.outside x hx]
  have hlower : ∀ x, x < g.len → ((g'.reduceToMax k (2 ^ d)).gpa x).maxBlockOrder ≤
      (g.gpa x).maxBlockOrder := by
    intro x hx
    rw [(reduceToMax_maxBlockOrder g' k (2 ^ d) x).1]
    exact h.lower hg hk hhead hx
  have hnew : Tiled k (k + 2 ^ d) fun x => ((g'.reduceToMax k (2 ^ d)).gpa x).descOrder :=
    h.tiled.congr fun x hx hx' => by rw [hin x hx hx']
  have hback : (g'.reduceToMax k (2 ^ d)).backing = g.backing := hbacking
  refine ⟨?_, fun x hx => ?_, fun x hx => ?_, fun x hx => ?_, fun x hx => ?_, fun x hx p hp => ?_⟩
  · rw [hlen]
    exact hg.tiled.replace htiled hnew (Nat.zero_le _) hend fun x hx => by rw [hout x hx]
  · rw [hlen] at hx
    rw [hback]
    by_cases hx' : k ≤ x ∧ x < k + 2 ^ d
    · rw [hin x hx'.1 hx'.2]
      exact (h.orders x).1.trans (hg.sbOrder x hx)
    · rw [hout x hx']
      exact hg.sbOrder x hx
  · rw [hlen] at hx
    rw [hback]
    by_cases hx' : k ≤ x ∧ x < k + 2 ^ d
    · have hlow := (h.bounds x hx'.1 hx'.2).1
      rw [hin x hx'.1 hx'.2]
      simp only
      omega
    · rw [hout x hx']
      exact hg.blockOrder x hx
  · rw [hlen] at hx
    by_cases hx' : k ≤ x ∧ x < k + 2 ^ d
    · rw [hin x hx'.1 hx'.2]
    · rw [hout x hx']
      exact hg.le_max x hx
  · rw [hlen] at hx
    rw [halloc]
    exact (hlower x hx).trans (hg.max_le x hx)
  · rw [hlen] at hx
    rw [hback] at hp
    by_cases hx' : k ≤ x ∧ x < k + 2 ^ d
    · -- the run lies in the piece of `x`
      rw [hin x hx'.1 hx'.2] at hp ⊢
      have hrun : alignDown p x / 2 ^ ((g'.gpa x).maxBlockOrder - g.backing.sbOrder) =
          x / 2 ^ ((g'.gpa x).maxBlockOrder - g.backing.sbOrder) :=
        div_eq_of_le (by simp only at hp; omega) (alignDown_div p x)
      obtain ⟨ha, ha', heq⟩ := h.tiled x hx'.1 hx'.2 _ hrun
      rw [hin _ ha ha']
      have hlow := (h.bounds x hx'.1 hx'.2).1
      have hlow' := (h.bounds _ ha ha').1
      simp only at heq ⊢
      omega
    · rw [hout x hx'] at hp ⊢
      exact (hlower _ ((alignDown_le p x).trans_lt hx)).trans (hg.ceiling x hx p hp)

/-- A block that starts at the boundary may grow as far as its head stays one. -/
theorem alignedOrder_spec (hp : g.Placed) {d : ℕ} (hd : g.backing.sbOrder + d ≤ g.allocOrder) :
    g.alignedOrder s d ≤ d ∧ 2 ^ g.alignedOrder s d ∣ s ∧
      ∀ r ≤ d, 2 ^ r ∣ s → r ≤ g.alignedOrder s d := by
  induction d with
  | zero => exact ⟨le_rfl, one_dvd _, fun r hr _ => hr⟩
  | succ d ih =>
      obtain ⟨hle, hdvd, hmax⟩ := ih (by omega)
      simp only [alignedOrder, headAt_ptr hp hd, ptr_inj hp]
      split_ifs with h
      · refine ⟨le_rfl, ?_, fun r hr _ => hr⟩
        have hrun := dvd_alignDown (d + 1) s
        rwa [h] at hrun
      · refine ⟨hle.trans (Nat.le_succ d), hdvd, fun r hr hrs => ?_⟩
        rcases Nat.lt_or_eq_of_le hr with hlt | rfl
        · exact hmax r (Nat.le_of_lt_succ hlt) hrs
        · exact absurd (alignDown_of_dvd hrs) h

/-- A block at the boundary keeps its ceilings, or all its members get one on whose grid the
boundary lies. -/
theorem splitAligned_spec (hp : g.Placed) (hg : g.Geometry) (hk : k < g.len)
    (hhead : alignDown (g.gpa k).descOrder k = k) :
    ∃ a, 2 ^ a ∣ k ∧ (g.gpa k).descOrder ≤ a ∧ g.backing.sbOrder + a ≤ (g.gpa k).maxBlockOrder ∧
      ((g.splitAligned k).gpa k).maxBlockOrder = g.backing.sbOrder + a ∧
      (g.splitAligned k = g ∨ g.splitAligned k =
        g.update k (2 ^ (g.gpa k).descOrder) (·.setMaxBlockOrder (g.backing.sbOrder + a))) := by
  obtain ⟨hdvd, -⟩ := hg.block hk hhead
  have hblock := hg.blockOrder k hk
  have hle := hg.le_max k hk
  have hmax := hg.max_le k hk
  obtain ⟨hbelow, hgrid, hbest⟩ := alignedOrder_spec (s := k) hp
    (d := (g.gpa k).maxBlockOrder - g.backing.sbOrder) (by omega)
  have hreach := hbest (g.gpa k).descOrder (by omega) hdvd
  refine ⟨_, hgrid, hreach, by omega, ?_⟩
  rw [splitAligned]
  split_ifs with hchange
  · rw [numSubblock_eq hg hk]
    refine ⟨?_, .inr rfl⟩
    rw [update_inside ⟨le_rfl, Nat.lt_add_of_pos_right (Nat.two_pow_pos _)⟩]
    rfl
  · exact ⟨(not_not.mp hchange).symm, .inl rfl⟩

/-- The ceilings are lowered only, and no mark is lost. -/
theorem splitAligned_lower {x : ℕ} (hp : g.Placed) (hg : g.Geometry) (hk : k < g.len)
    (hhead : alignDown (g.gpa k).descOrder k = k) (hx : x < g.len) :
    ((g.splitAligned k).gpa x).maxBlockOrder ≤ (g.gpa x).maxBlockOrder ∧
      ((g.splitAligned k).gpa x).partialMap = (g.gpa x).partialMap := by
  obtain ⟨hdvd, -, hmem, -⟩ := hg.block hk hhead
  obtain ⟨a, -, -, hroom, -, heq | heq⟩ := splitAligned_spec hp hg hk hhead
  · rw [heq]
    exact ⟨le_rfl, rfl⟩
  · rw [heq]
    by_cases hin : k ≤ x ∧ x < k + 2 ^ (g.gpa k).descOrder
    · have hrun : alignDown (g.gpa x).descOrder x = k := by
        rw [hmem x hin.1 hin.2, alignDown_congr ((div_eq_iff_of_dvd hdvd).mpr hin),
          alignDown_of_dvd hdvd]
      rw [update_inside hin]
      exact ⟨hroom.trans (hg.ceiling_head hx hrun), rfl⟩
    · rw [update_outside hin]
      exact ⟨le_rfl, rfl⟩

theorem geometry_splitAligned (hp : g.Placed) (hg : g.Geometry) (hk : k < g.len)
    (hhead : alignDown (g.gpa k).descOrder k = k) : (g.splitAligned k).Geometry := by
  obtain ⟨hdvd, hend, hmem, -⟩ := hg.block hk hhead
  obtain ⟨a, hgrid, hreach, -, -, heq | heq⟩ := splitAligned_spec hp hg hk hhead
  · rwa [heq]
  have hlower := fun x (hx : x < g.len) => (splitAligned_lower hp hg hk hhead hx).1
  rw [heq] at hlower ⊢
  set d := (g.gpa k).descOrder
  set g' := g.update k (2 ^ d) (·.setMaxBlockOrder (g.backing.sbOrder + a)) with hg'
  have hin : ∀ x, k ≤ x → x < k + 2 ^ d →
      g'.gpa x = (g.gpa x).setMaxBlockOrder (g.backing.sbOrder + a) :=
    fun x hx hx' => update_inside ⟨hx, hx'⟩
  have hout : ∀ x, ¬ (k ≤ x ∧ x < k + 2 ^ d) → g'.gpa x = g.gpa x := fun x hx => update_outside hx
  have horders : ∀ x, (g'.gpa x).sbOrder = (g.gpa x).sbOrder ∧
      (g'.gpa x).blockOrder = (g.gpa x).blockOrder ∧
      (g'.gpa x).descOrder = (g.gpa x).descOrder := by
    intro x
    by_cases hx : k ≤ x ∧ x < k + 2 ^ d
    · rw [hin x hx.1 hx.2]
      exact ⟨rfl, rfl, rfl⟩
    · rw [hout x hx]
      exact ⟨rfl, rfl, rfl⟩
  refine ⟨?_, fun x hx => ?_, fun x hx => ?_, fun x hx => ?_, fun x hx => ?_, fun x hx p hp' => ?_⟩
  · exact hg.tiled.congr fun x _ _ => (horders x).2.2
  · exact (horders x).1.trans (hg.sbOrder x hx)
  · rw [(horders x).2.1, (horders x).2.2]
    exact hg.blockOrder x hx
  · rw [(horders x).2.1]
    by_cases hx' : k ≤ x ∧ x < k + 2 ^ d
    · rw [hin x hx'.1 hx'.2, hg.blockOrder x hx, hmem x hx'.1 hx'.2]
      simp only [GpaDesc.setMaxBlockOrder]
      omega
    · rw [hout x hx']
      exact hg.le_max x hx
  · exact (hlower x hx).trans (hg.max_le x hx)
  · by_cases hx' : k ≤ x ∧ x < k + 2 ^ d
    · -- the run starts in the block, or is a larger one that starts with it
      have hxk : x / 2 ^ d = k / 2 ^ d := (div_eq_iff_of_dvd hdvd).mpr hx'
      have hstart : k ≤ alignDown p x ∧ alignDown p x < k + 2 ^ d := by
        by_cases hpd : p ≤ d
        · exact (div_eq_iff_of_dvd hdvd).mp
            ((div_eq_of_le hpd (alignDown_div p x)).trans hxk)
        · rw [hin x hx'.1 hx'.2] at hp'
          have hpa : p ≤ a := by
            simp only [GpaDesc.setMaxBlockOrder] at hp'
            exact Nat.le_of_add_le_add_left hp'
          have hrun : alignDown p x = k := by
            rw [alignDown_congr (div_eq_of_le (by omega) hxk),
              alignDown_of_dvd ((pow_dvd_pow 2 hpa).trans hgrid)]
          have hpos := Nat.two_pow_pos d
          omega
      rw [hin x hx'.1 hx'.2, hin _ hstart.1 hstart.2]
      exact le_rfl
    · rw [hout x hx'] at hp' ⊢
      exact (hlower _ ((alignDown_le p x).trans_lt hx)).trans (hg.ceiling x hx p hp')

/-! ### Steps and runs -/

theorem Placed.congr (h : g.Placed) (hplace : g' = { g with gpa := g'.gpa }) : g'.Placed := by
  rw [hplace]
  exact ⟨h.pos, h.base, h.sb_le, h.grid⟩

theorem place_elsStretchRep (ready : List Bool) (k : ℕ) :
    g.elsStretchRep k ready = { g with gpa := (g.elsStretchRep k ready).gpa } := by
  induction ready generalizing g k with
  | nil => rfl
  | cons r rest ih =>
      rw [elsStretchRep]
      cases g.elsGetSuperHead k with
      | none => rfl
      | some s =>
          cases hb : g.elsIsStretchable k s r with
          | none => simp only [hb]
          | some b =>
              simp only [hb]
              exact ih s

/-- What every run keeps: the group is tiled within its ceilings, and the two ways to find a
head agree. -/
structure Sound (g : Group) : Prop where
  geometry : g.Geometry
  heads : g.HeadsAgree

theorem geometry_of_step {e : ElsEvent} (hp : g.Placed) (hg : g.Geometry)
    (hs : step g e = some g') : g'.Placed ∧ g'.Geometry := by
  cases e with
  | stretch k ready =>
      obtain ⟨hk, rfl⟩ := Transition.of_guard hs
      have hhead := (isHead_iff hp hg hk.1).mp hk
      exact ⟨hp.congr (place_elsStretchRep ready k), geometry_elsStretchRep hp hg hk.1 hhead ready⟩
  | reduce k locked =>
      obtain ⟨⟨hk, horder⟩, rfl⟩ := Transition.of_guard hs
      have hhead := (isHead_iff hp hg hk.1).mp hk
      refine ⟨hp.congr ?_, geometry_elsReduce hg hk.1 hhead horder⟩
      cases locked <;> rfl
  | tryreduceComplete k locked =>
      obtain ⟨⟨hk, -⟩, rfl⟩ := Transition.of_guard hs
      have hhead := (isHead_iff hp hg hk.1).mp hk
      refine ⟨hp.congr ?_, geometry_elsTryreduceComplete hg hk.1 hhead⟩
      cases locked <;> rfl
  | split k boundary exact =>
      obtain ⟨⟨hk, hle, hlt⟩, rfl⟩ := Transition.of_guard hs
      have hhead := (isHead_iff hp hg hk.1).mp hk
      rw [numSubblock_eq hg hk.1] at hlt
      rw [splitGpadesc]
      split_ifs
      · refine ⟨hp.congr ?_, geometry_splitAligned hp hg hk.1 hhead⟩
        rw [splitAligned]
        split_ifs <;> rfl
      · have hrecap := recap_splitCut hg hk.1 hhead hle hlt exact
        rw [numSubblock_eq hg hk.1]
        refine ⟨(hp.congr hrecap.place).congr rfl, geometry_reduceToMax hg hk.1 hhead hrecap⟩

theorem geometry_of_start (h : g.Start) : g.Placed ∧ g.Geometry := by
  obtain ⟨m, idx, gpaSize, base, hm, hlen, hpos, hnew, hbase⟩ := h
  obtain ⟨r, hr, rfl⟩ := Option.map_eq_some_iff.mp hnew
  obtain ⟨hsb, -⟩ := Backing.allocOrder_bounds hm hr
  have hinit : GpaDesc.init m r =
      ⟨m.sbOrder, r.allocOrder, r.allocOrder, r.allocOrder - m.sbOrder, r.partialMap⟩ := rfl
  refine ⟨⟨hpos, hbase, hsb, ?_⟩, ⟨?_, ?_, ?_, ?_, ?_, ?_⟩⟩
  · by_cases hidx : idx < m.blockAlignedStart
    · exact .inr (Backing.allocOrder_of_lt hm hr hlen hidx)
    · exact .inl ((Backing.empGetBlockHeadIndex_spec idx _).2 (not_lt.mp hidx))
  · refine tiled_const (dvd_zero _) (dvd_refl _) fun k _ _ => ?_
    simp only [hinit]
  · intro k _
    simp only [hinit]
  · intro k _
    simp only [hinit]
    omega
  · intro k _
    simp only [hinit]
    exact le_rfl
  · intro k _
    simp only [hinit]
    exact le_rfl
  · intro k _ p _
    simp only [hinit]
    exact le_rfl

/-- In every run of stretches, reductions and splits from a group just made, the group stays
tiled by aligned blocks of one order each, within the ceilings and these within the order of
the allocation, and address and index arithmetic find the same head for every member. -/
theorem sound_of_reach (h : Transition.Reach Start step g) : g.Sound := by
  have hinv : g.Placed ∧ g.Geometry :=
    h.invariant (fun _ => geometry_of_start) fun _ _ _ hi _ hs => geometry_of_step hi.1 hi.2 hs
  exact ⟨hinv.2, headsAgree hinv.1 hinv.2⟩

/-- Sixteen subblocks of four pages, mapped from the middle of a block of eight on. -/
def sixteen : Backing := ⟨5, 2, 16, 80, 0⟩

/-- The boundary lies in the fourth subblock; the upper half is broken up, and its last two
subblocks are stretched together again. -/
def cutAndStretch : List ElsEvent :=
  [.split 0 3 false, .tryreduceComplete 4 true, .stretch 7 [true, true]]

/-- A block of eight is cut in the middle of its fourth subblock and stretched again. -/
theorem sound_cutAndStretch : ∃ g g', newGpadesc sixteen 6 32 1024 = some g ∧
    Transition.exec step g cutAndStretch = some g' ∧ g'.Sound ∧
      (List.range 8).map (fun k => (g'.gpa k).descOrder) = [1, 1, 0, 0, 0, 0, 1, 1] := by
  have hrun : ∀ g g', newGpadesc sixteen 6 32 1024 = some g → g.len = 8 →
      Transition.exec step g cutAndStretch = some g' → Transition.Reach Start step g' :=
    fun g g' hg hlen he => Transition.Reach.exec (.start ⟨sixteen, 6, 32, 1024,
      ⟨by decide, by decide⟩, by decide, by decide, hg, by rw [hlen]; decide⟩) he
  exact ⟨_, _, rfl, rfl, sound_of_reach (hrun _ _ rfl rfl rfl), rfl⟩

end Group

end Emp
