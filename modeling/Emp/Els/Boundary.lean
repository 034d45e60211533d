import Emp.Els.Geometry

/-!
# What a split leaves behind in a group

A split leaves a bound on the ceiling of the boundary descriptor: the boundary lies on the grid
of the largest block that may start there, or is a block of its own for good.  No operation
ever raises a ceiling, so no block of the group reaches over the boundary again.

## Main definitions

* `Group.Lowered` — what every operation on blocks does to the ceilings.
* `Group.CutAt` — what a split leaves behind at the boundary.
* `Group.CutAt.apart` — no block has members on both sides.
-/

namespace Emp

namespace Group

variable {g g' : Group} {k i j b : ℕ}

/-- Only the descriptors change, no ceiling is raised and no mark is lost. -/
structure Lowered (g g' : Group) : Prop where
  place : g' = { g with gpa := g'.gpa }
  max : ∀ x < g.len, (g'.gpa x).maxBlockOrder ≤ (g.gpa x).maxBlockOrder
  mark : ∀ x < g.len, (g.gpa x).partialMap = true → (g'.gpa x).partialMap = true

theorem Lowered.refl (g : Group) : g.Lowered g := ⟨rfl, fun _ _ => le_rfl, fun _ _ => id⟩

theorem Lowered.len_eq (h : g.Lowered g') : g'.len = g.len := by
  rw [h.place]
  rfl

theorem Lowered.trans {g₁ g₂ g₃ : Group} (h : g₁.Lowered g₂) (h' : g₂.Lowered g₃) :
    g₁.Lowered g₃ := by
  have hlen := h.len_eq
  refine ⟨?_, fun x hx => ?_, fun x hx hm => ?_⟩
  · rw [h'.place, h.place]
  · exact (h'.max x (hlen ▸ hx)).trans (h.max x hx)
  · exact h'.mark x (hlen ▸ hx) (h.mark x hx hm)

/-- An update that leaves ceilings and marks alone. -/
theorem lowered_update {lo n : ℕ} {f : GpaDesc → GpaDesc}
    (hf : ∀ h, (f h).maxBlockOrder = h.maxBlockOrder ∧ (f h).partialMap = h.partialMap) :
    g.Lowered (g.update lo n f) := by
  have hsame : ∀ x, ((g.update lo n f).gpa x).maxBlockOrder = (g.gpa x).maxBlockOrder ∧
      ((g.update lo n f).gpa x).partialMap = (g.gpa x).partialMap := by
    intro x
    by_cases hx : lo ≤ x ∧ x < lo + n
    · rw [update_inside hx]
      exact hf _
    · rw [update_outside hx]
      exact ⟨rfl, rfl⟩
  exact ⟨rfl, fun x _ => (hsame x).1.le, fun x _ hm => (hsame x).2.trans hm⟩

theorem lowered_elsStretchRep (ready : List Bool) (k : ℕ) : g.Lowered (g.elsStretchRep k ready) := by
  induction ready generalizing g k with
  | nil => exact Lowered.refl g
  | cons r rest ih =>
      rw [elsStretchRep]
      cases g.elsGetSuperHead k with
      | none => exact Lowered.refl g
      | some s =>
          cases hb : g.elsIsStretchable k s r with
          | none => simpa only [hb] using Lowered.refl g
          | some b =>
              simp only [hb]
              have hone : g.Lowered (g.elsStretch s) := lowered_update fun _ => ⟨rfl, rfl⟩
              exact hone.trans (ih s)

/-- The pieces of a cut keep the marks. -/
theorem splitTile_partialMap (d fuel i off size x : ℕ) :
    ((g.splitTile d fuel i off size).gpa x).partialMap = (g.gpa x).partialMap := by
  induction fuel generalizing g i off size with
  | zero => rfl
  | succ fuel ih =>
      rw [splitTile]
      split_ifs
      · rfl
      · rw [ih]
        simp only [update]
        split_ifs <;> rfl

theorem splitCut_partialMap {x : ℕ} (s boundary : ℕ) (exact : Bool)
    (h : (g.gpa x).partialMap = true) :
    ((g.splitCut s boundary exact).gpa x).partialMap = true := by
  simp only [splitCut]
  rw [splitTile_partialMap]
  cases exact
  · simp only [Bool.false_eq_true, if_false, update]
    split_ifs
    · rfl
    · rw [splitTile_partialMap]
      exact h
  · simp only [if_true]
    rw [splitTile_partialMap]
    exact h

/-- A split lowers ceilings only. -/
theorem lowered_splitGpadesc (hp : g.Placed) (hg : g.Geometry) (hk : k < g.len)
    (hhead : alignDown (g.gpa k).descOrder k = k) (hle : k ≤ b)
    (hlt : b < k + 2 ^ (g.gpa k).descOrder) (exact : Bool) :
    g.Lowered (g.splitGpadesc k b exact) := by
  rw [splitGpadesc]
  split_ifs
  · refine ⟨?_, fun x hx => (splitAligned_lower hp hg hk hhead hx).1, fun x hx hm => ?_⟩
    · rw [splitAligned]
      split_ifs <;> rfl
    · exact (splitAligned_lower hp hg hk hhead hx).2.trans hm
  · have hrecap := recap_splitCut hg hk hhead hle hlt exact
    refine ⟨?_, fun x hx => ?_, fun x hx hm => ?_⟩
    · rw [hrecap.place]
      rfl
    · rw [(reduceToMax_maxBlockOrder _ _ _ x).1]
      exact hrecap.lower hg hk hhead hx
    · rw [(reduceToMax_maxBlockOrder _ _ _ x).2]
      exact splitCut_partialMap k b exact hm

/-- **No operation raises a ceiling.** -/
theorem lowered_of_step {e : ElsEvent} (hp : g.Placed) (hg : g.Geometry)
    (hs : step g e = some g') : g.Lowered g' := by
  cases e with
  | stretch k ready =>
      obtain ⟨-, rfl⟩ := Transition.of_guard hs
      exact lowered_elsStretchRep ready k
  | reduce k locked =>
      obtain ⟨-, rfl⟩ := Transition.of_guard hs
      rw [elsReduce]
      split_ifs
      · exact lowered_update fun _ => ⟨rfl, rfl⟩
      · exact Lowered.refl g
  | tryreduceComplete k locked =>
      obtain ⟨-, rfl⟩ := Transition.of_guard hs
      rw [elsTryreduceComplete]
      split_ifs
      · exact lowered_update fun _ => ⟨rfl, rfl⟩
      · exact Lowered.refl g
  | split k b exact =>
      obtain ⟨⟨hk, hle, hlt⟩, rfl⟩ := Transition.of_guard hs
      rw [numSubblock_eq hg hk.1] at hlt
      exact lowered_splitGpadesc hp hg hk.1 ((isHead_iff hp hg hk.1).mp hk) hle hlt exact

/-! ### What a split leaves behind -/

/-- The boundary lies on the grid of its ceiling; unless it is the start of a subblock
(`aligned`), the subblock is alone for good and marked. -/
structure CutAt (g : Group) (b : ℕ) (aligned : Prop) : Prop where
  lt : b < g.len
  grid : 2 ^ ((g.gpa b).maxBlockOrder - g.backing.sbOrder) ∣ b
  alone : ¬ aligned → (g.gpa b).maxBlockOrder = g.backing.sbOrder ∧ (g.gpa b).partialMap = true

theorem cutAt_splitGpadesc {aligned : Prop} (hp : g.Placed) (hg : g.Geometry) (hk : k < g.len)
    (hhead : alignDown (g.gpa k).descOrder k = k) (hle : k ≤ b)
    (hlt : b < k + 2 ^ (g.gpa k).descOrder) (exact : Bool) (haligned : exact = true → aligned) :
    (g.splitGpadesc k b exact).CutAt b aligned := by
  have hlen : b < g.len := hlt.trans_le (hg.block hk hhead).2.1
  have hlower := lowered_splitGpadesc hp hg hk hhead hle hlt exact
  have hsb : (g.splitGpadesc k b exact).backing = g.backing := by rw [hlower.place]
  refine ⟨hlower.len_eq ▸ hlen, ?_, ?_⟩
  · rw [hsb, splitGpadesc]
    split_ifs with hcase
    · obtain ⟨a, hgrid, -, -, hmax, -⟩ := splitAligned_spec hp hg hk hhead
      rw [← hcase.1, hmax, Nat.add_sub_cancel_left]
      exact hgrid
    · rw [(reduceToMax_maxBlockOrder _ _ _ b).1]
      exact (splitCut_boundary hg hk hhead hle hlt exact).1
  · intro hno
    have hexact : exact = false := by
      cases exact
      · rfl
      · exact absurd (haligned rfl) hno
    rw [hsb, splitGpadesc, if_neg (by simp [hexact]), (reduceToMax_maxBlockOrder _ _ _ b).1,
      (reduceToMax_maxBlockOrder _ _ _ b).2]
    exact (splitCut_boundary hg hk hhead hle hlt exact).2 hexact

/-- It stays behind. -/
theorem CutAt.lowered {aligned : Prop} (h : g.CutAt b aligned) (hlower : g.Lowered g')
    (hg' : g'.Geometry) : g'.CutAt b aligned := by
  have hsb : g'.backing = g.backing := by rw [hlower.place]
  have hmax := hlower.max b h.lt
  have hlt : b < g'.len := hlower.len_eq ▸ h.lt
  refine ⟨hlt, ?_, fun hno => ⟨?_, hlower.mark b h.lt (h.alone hno).2⟩⟩
  · rw [hsb]
    exact (pow_dvd_pow 2 (Nat.sub_le_sub_right hmax _)).trans h.grid
  · have hlow := hg'.le_max b hlt
    rw [hg'.blockOrder b hlt, hsb] at hlow
    rw [hsb]
    exact le_antisymm (hmax.trans_eq (h.alone hno).1) ((Nat.le_add_right _ _).trans hlow)

/-- The members of a block that lie on the two sides of `b` hold `b` between them. -/
theorem sameBlock_between (hp : g.Placed) (hg : g.Geometry) (hi : i < g.len) (hj : j < g.len)
    (hsame : g.empGetBlockHead i = g.empGetBlockHead j) (hib : i ≤ b) (hbj : b ≤ j) :
    (g.gpa b).descOrder = (g.gpa i).descOrder ∧ (g.gpa j).descOrder = (g.gpa i).descOrder ∧
      alignDown (g.gpa i).descOrder i = alignDown (g.gpa i).descOrder b ∧
      alignDown (g.gpa i).descOrder i = alignDown (g.gpa i).descOrder j := by
  rw [empGetBlockHead_eq hp hg hi, empGetBlockHead_eq hp hg hj, ptr_inj hp] at hsame
  obtain ⟨-, -, hrun⟩ := hg.tiled.run (Nat.zero_le i) hi
  obtain ⟨-, -, hrun'⟩ := hg.tiled.run (Nat.zero_le j) hj
  have hpos := Nat.two_pow_pos (g.gpa i).descOrder
  have hpos' := Nat.two_pow_pos (g.gpa j).descOrder
  -- the head is a member of both runs
  have hj' : (g.gpa j).descOrder = (g.gpa i).descOrder := by
    have h₁ := hrun _ le_rfl (by omega)
    have h₂ := hrun' _ le_rfl (by omega)
    rw [← hsame] at h₂
    exact h₂.symm.trans h₁
  rw [hj'] at hsame
  have hle := alignDown_le (g.gpa i).descOrder i
  have hlt := lt_alignDown_add (g.gpa i).descOrder j
  have hb : alignDown (g.gpa i).descOrder i = alignDown (g.gpa i).descOrder b := by
    refine (alignDown_congr ?_).symm
    rw [← alignDown_div (g.gpa i).descOrder i]
    exact (div_eq_iff_of_dvd (dvd_alignDown _ _)).mpr ⟨by omega, by omega⟩
  exact ⟨hrun b (by omega) (by omega), hj', hb, hsame⟩

/-- A block with members on both sides of the boundary starts at the boundary, and consists of
the boundary only if that is not the start of a subblock. -/
theorem CutAt.apart {aligned : Prop} (h : g.CutAt b aligned) (hp : g.Placed) (hg : g.Geometry)
    (hi : i < g.len) (hj : j < g.len) (hsame : g.empGetBlockHead i = g.empGetBlockHead j)
    (hib : i ≤ b) (hbj : b ≤ j) : i = b ∧ (¬ aligned → i = j) := by
  obtain ⟨hdesc, -, hheads, hheads'⟩ := sameBlock_between hp hg hi hj hsame hib hbj
  have hblock := hg.blockOrder b h.lt
  have hmax := hg.le_max b h.lt
  have hdvd : 2 ^ (g.gpa i).descOrder ∣ b := (pow_dvd_pow 2 (by omega)).trans h.grid
  refine ⟨?_, fun hno => ?_⟩
  · rw [alignDown_of_dvd hdvd] at hheads
    have hle := alignDown_le (g.gpa i).descOrder i
    omega
  · have hzero : (g.gpa i).descOrder = 0 := by
      have halone := (h.alone hno).1
      omega
    simpa [hzero, alignDown] using hheads'

end Group

end Emp
