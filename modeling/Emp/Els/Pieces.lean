import Emp.Els.Geometry

/-!
# The pieces of a block that is cut

A vma split that cuts a block gives its members new ceilings: pieces up to the cut, the
subblock that is cut through alone, and pieces behind it.  The blocks that are then derived
from the ceilings are these pieces, whether one looks for heads by address or goes through the
block in strides.

## Main definitions

* `Group.splitTileWithin` — the loop of `____split_set_max_block_order`, which may run out of
  rounds.
* `Group.newHeads`, `Group.strideWalk` — the heads that `__split_gpadesc` collects, and those
  that a walk in strides lands on.
* `Group.CutInto` — a block has been cut into a list of pieces.
-/

namespace Emp

namespace Group

variable {g g' : Group} {k s b x : ℕ}

/-- The loop of `____split_set_max_block_order` for a number of rounds; `none` when subblocks
are left behind them. -/
def splitTileWithin (g : Group) (d : ℕ) : ℕ → ℕ → ℕ → ℕ → Option Group
  | 0, _, _, size => if size = 0 then some g else none
  | rounds + 1, i, off, size =>
    if size = 0 then some g
    else
      let p := pieceOrder off size d
      (g.update i (2 ^ p) (·.setMaxBlockOrder (g.backing.sbOrder + p))).splitTileWithin d rounds
        (i + 2 ^ p) (off + 2 ^ p) (size - 2 ^ p)

/-- The members from `s` to `s + n` that are heads, as `__split_gpadesc` collects them. -/
def newHeads (g : Group) (s n : ℕ) : List ℕ :=
  (List.range' s n).filter fun x => g.empGetBlockHead x = g.ptr x

/-- The heads that a walk from block to block lands on. -/
def strideWalk (g : Group) : ℕ → ℕ → ℕ → List ℕ
  | 0, _, _ => []
  | n + 1, i, stop => if i < stop then i :: g.strideWalk n (i + (g.gpa i).numSubblock) stop else []

/-- From `g` to `g'`, the block of the head `k` is cut at `b` into pieces, given by start and
desc order; `whole` tells whether the cut is at the start of `b` and not inside it. -/
structure CutInto (g g' : Group) (k b : ℕ) (whole : Bool) (pieces : List (ℕ × ℕ)) : Prop where
  consecutive : Consecutive k (k + (g.gpa k).numSubblock) pieces
  cover : ∀ x, k ≤ x → x < k + (g.gpa k).numSubblock →
    ∃ q ∈ pieces, (q.1 ≤ x ∧ x < q.1 + 2 ^ q.2) ∧
      ∀ r ∈ pieces, r.1 ≤ x ∧ x < r.1 + 2 ^ r.2 → r = q
  grid : ∀ q ∈ pieces, 2 ^ q.2 ∣ q.1 - k ∧ g.backing.sbOrder + q.2 ≤ (g.gpa k).blockOrder
  record : ∀ q ∈ pieces, ∀ x, q.1 ≤ x → x < q.1 + 2 ^ q.2 →
    (g'.gpa x).maxBlockOrder = g.backing.sbOrder + q.2
  apart : ∀ q ∈ pieces, q.1 + 2 ^ q.2 ≤ b ∨ b ≤ q.1
  alone : whole = false → (b, 0) ∈ pieces
  heads : g'.newHeads k (g.gpa k).numSubblock = pieces.map Prod.fst
  walk : g'.strideWalk (g.gpa k).numSubblock k (k + (g.gpa k).numSubblock) = pieces.map Prod.fst

/-- Every round takes a subblock at least. -/
theorem splitTileWithin_eq {d : ℕ} {rounds i off size : ℕ} (h : size ≤ rounds) :
    g.splitTileWithin d rounds i off size = some (g.splitTile d size i off size) := by
  have hfuel : ∀ {rounds fuel i off size : ℕ} {g : Group}, size ≤ rounds → size ≤ fuel →
      g.splitTileWithin d rounds i off size = some (g.splitTile d fuel i off size) := by
    intro rounds
    induction rounds with
    | zero =>
        intro fuel i off size g hr hf
        obtain rfl := Nat.le_zero.mp hr
        cases fuel <;> rfl
    | succ rounds ih =>
        intro fuel i off size g hr hf
        by_cases hzero : size = 0
        · subst hzero
          cases fuel <;> rfl
        · obtain ⟨fuel, rfl⟩ := Nat.exists_eq_add_one.mpr ((Nat.pos_of_ne_zero hzero).trans_le hf)
          have hpos := Nat.two_pow_pos (pieceOrder off size d)
          simp only [splitTileWithin, splitTile, if_neg hzero]
          exact ih (by omega) (by omega)
  exact hfuel h le_rfl

/-- Heads by address and by strides are the first members of the runs. -/
theorem heads_eq_strides {n : ℕ} (hp : g.Placed) (hg : g.Geometry)
    (htiled : Tiled s (s + n) fun x => (g.gpa x).descOrder) (hlen : s + n ≤ g.len) :
    g.newHeads s n = strides (fun x => (g.gpa x).descOrder) n s (s + n) ∧
      g.strideWalk n s (s + n) = strides (fun x => (g.gpa x).descOrder) n s (s + n) := by
  refine ⟨?_, ?_⟩
  · rw [htiled.strides_eq (Nat.le_add_right s n) (by omega), Nat.add_sub_cancel_left, newHeads]
    refine List.filter_congr fun x hx => ?_
    rw [List.mem_range'_1] at hx
    rw [empGetBlockHead_eq hp hg (by omega)]
    simp only [ptr_inj hp]
  · have hwalk : ∀ (m i : ℕ), g.strideWalk m i (s + n) =
        strides (fun x => (g.gpa x).descOrder) m i (s + n) := by
      intro m
      induction m with
      | zero => exact fun _ => rfl
      | succ m ih =>
          intro i
          rw [strideWalk, strides]
          split_ifs with hi
          · rw [numSubblock_eq hg (by omega), ih]
          · rfl
    exact hwalk n s

/-- No run of the ceilings crosses the boundary. -/
theorem apart_of_splitCut {whole : Bool} (hg : g.Geometry) (hk : k < g.len)
    (hhead : alignDown (g.gpa k).descOrder k = k) (hle : k ≤ b)
    (hlt : b < k + 2 ^ (g.gpa k).descOrder)
    (hx : alignDown (((g.splitCut k b whole).gpa x).maxBlockOrder - g.backing.sbOrder) x = x)
    (hkx : k ≤ x) (hxend : x < k + 2 ^ (g.gpa k).descOrder) :
    x + 2 ^ (((g.splitCut k b whole).gpa x).maxBlockOrder - g.backing.sbOrder) ≤ b ∨ b ≤ x := by
  by_contra hcross
  rw [not_or, not_le, not_le] at hcross
  have hrecap := recap_splitCut hg hk hhead hle hlt whole
  have hrun := (hrecap.tiled.run hkx hxend).2.2 b (by rw [hx]; omega) (by rw [hx]; omega)
  have hgrid := (splitCut_boundary hg hk hhead hle hlt whole).1
  rw [hrun] at hgrid
  -- the boundary is on the grid of the run, behind its start
  have := add_le_of_dvd_of_lt (Dvd.intro_left _ hx) hgrid hcross.2
  omega

/-- A block that is not cut at its own start falls into pieces. -/
theorem cutInto_splitGpadesc (hp : g.Placed) (hg : g.Geometry) (hk : k < g.len)
    (hhead : alignDown (g.gpa k).descOrder k = k) (hle : k ≤ b)
    (hlt : b < k + 2 ^ (g.gpa k).descOrder) {whole : Bool} (hcut : ¬ (k = b ∧ whole)) :
    ∃ pieces, g.CutInto (g.splitGpadesc k b whole) k b whole pieces := by
  obtain ⟨hdvd, hend, -, -⟩ := hg.block hk hhead
  have hrecap := recap_splitCut hg hk hhead hle hlt whole
  have hcutEq : g.splitGpadesc k b whole =
      (g.splitCut k b whole).reduceToMax k (2 ^ (g.gpa k).descOrder) := by
    rw [splitGpadesc, if_neg hcut, numSubblock_eq hg hk]
  have hp' : (g.splitGpadesc k b whole).Placed := by
    rw [hcutEq]
    exact (hp.congr hrecap.place).congr rfl
  have hg' : (g.splitGpadesc k b whole).Geometry := by
    rw [hcutEq]
    exact geometry_reduceToMax hg hk hhead hrecap
  have hlen : (g.splitGpadesc k b whole).len = g.len := by
    rw [hcutEq, reduceToMax, update, hrecap.place]
    rfl
  -- the orders of the members are the runs of the ceilings
  have hin : ∀ x, k ≤ x → x < k + 2 ^ (g.gpa k).descOrder →
      ((g.splitGpadesc k b whole).gpa x).descOrder =
          ((g.splitCut k b whole).gpa x).maxBlockOrder - g.backing.sbOrder ∧
        ((g.splitGpadesc k b whole).gpa x).maxBlockOrder =
          ((g.splitCut k b whole).gpa x).maxBlockOrder := by
    intro x hx hx'
    rw [hcutEq, hrecap.reduceToMax_inside hg hk hhead hx hx']
    exact ⟨rfl, rfl⟩
  set ord := fun x => ((g.splitGpadesc k b whole).gpa x).descOrder with hord
  have htiled : Tiled k (k + 2 ^ (g.gpa k).descOrder) ord :=
    hrecap.tiled.congr fun x hx hx' => (hin x hx hx').1
  obtain ⟨hheads, hwalk⟩ := heads_eq_strides hp' hg' htiled (hlen.symm ▸ hend)
  set starts := strides ord (2 ^ (g.gpa k).descOrder) k (k + 2 ^ (g.gpa k).descOrder)
  have hmem : ∀ x, x ∈ starts ↔ (k ≤ x ∧ x < k + 2 ^ (g.gpa k).descOrder) ∧
      alignDown (ord x) x = x := fun x =>
    htiled.mem_strides (Nat.le_add_right _ _) (by omega)
  have hcons : Consecutive k (k + 2 ^ (g.gpa k).descOrder) (starts.map fun x => (x, ord x)) :=
    htiled.consecutive (Nat.le_add_right _ _) (by omega)
  have hfst : (starts.map fun x => (x, ord x)).map Prod.fst = starts := by
    rw [List.map_map]
    exact List.map_id _
  refine ⟨starts.map fun x => (x, ord x), ?_, ?_, ?_, ?_, ?_, ?_, ?_, ?_⟩
  · rw [numSubblock_eq hg hk]
    exact hcons
  · rw [numSubblock_eq hg hk]
    exact fun x hx hx' => hcons.existsUnique hx hx'
  · intro q hq
    obtain ⟨x, hx, rfl⟩ := List.mem_map.mp hq
    obtain ⟨⟨hkx, hxend⟩, hself⟩ := (hmem x).mp hx
    obtain ⟨hlow, hhigh⟩ := hrecap.bounds x hkx hxend
    have hordx := (hin x hkx hxend).1
    have hblock := hg.blockOrder k hk
    refine ⟨Nat.dvd_sub (Dvd.intro_left _ hself) ((pow_dvd_pow 2 ?_).trans hdvd), ?_⟩
    · simp only [hord, hordx]
      omega
    · simp only [hord, hordx]
      omega
  · intro q hq y hy hy'
    obtain ⟨x, hx, rfl⟩ := List.mem_map.mp hq
    obtain ⟨⟨hkx, hxend⟩, hself⟩ := (hmem x).mp hx
    obtain ⟨-, hstop, hrun⟩ := htiled.run hkx hxend
    rw [hself] at hstop hrun
    simp only at hy hy'
    have hyord := hrun y hy hy'
    simp only [hord] at hy' hyord hstop ⊢
    obtain ⟨hdesc, hmax⟩ := hin y (by omega) (by omega)
    have hlow := (hrecap.bounds y (by omega) (by omega)).1
    rw [hmax, ← hyord, hdesc]
    omega
  · intro q hq
    obtain ⟨x, hx, rfl⟩ := List.mem_map.mp hq
    obtain ⟨⟨hkx, hxend⟩, hself⟩ := (hmem x).mp hx
    have hordx := (hin x hkx hxend).1
    simp only [hord, hordx] at hself ⊢
    exact apart_of_splitCut hg hk hhead hle hlt hself hkx hxend
  · intro hwhole
    have hzero : ord b = 0 := by
      have halone := ((splitCut_boundary hg hk hhead hle hlt whole).2 hwhole).1
      simp only [hord, (hin b hle hlt).1, halone, Nat.sub_self]
    refine List.mem_map.mpr ⟨b, (hmem b).mpr ⟨⟨hle, hlt⟩, ?_⟩, ?_⟩
    · rw [hzero, alignDown_of_dvd (one_dvd b)]
    · rw [hzero]
  · rw [hfst, numSubblock_eq hg hk]
    exact hheads
  · rw [hfst, numSubblock_eq hg hk]
    exact hwalk

/-- A block that starts at the boundary stays whole; its ceilings may change. -/
theorem splitAligned_whole (hp : g.Placed) (hg : g.Geometry) (hk : k < g.len)
    (hhead : alignDown (g.gpa k).descOrder k = k) :
    (∀ x, ((g.splitAligned k).gpa x).blockOrder = (g.gpa x).blockOrder) ∧
      (g.splitAligned k).newHeads k (g.gpa k).numSubblock = [k] ∧
      (g.splitAligned k).strideWalk (g.gpa k).numSubblock k (k + (g.gpa k).numSubblock) = [k] := by
  obtain ⟨-, hend, -, htiled⟩ := hg.block hk hhead
  have hsame : (g.splitAligned k).len = g.len ∧ (g.splitAligned k).Placed ∧
      ∀ x, ((g.splitAligned k).gpa x).blockOrder = (g.gpa x).blockOrder ∧
        ((g.splitAligned k).gpa x).descOrder = (g.gpa x).descOrder := by
    rw [splitAligned]
    split_ifs
    · refine ⟨rfl, hp.congr rfl, fun x => ?_⟩
      simp only [update, GpaDesc.setMaxBlockOrder]
      split_ifs
      all_goals exact ⟨rfl, rfl⟩
    · exact ⟨rfl, hp, fun x => ⟨rfl, rfl⟩⟩
  obtain ⟨hlen, hp', horder⟩ := hsame
  have hg' := geometry_splitAligned hp hg hk hhead
  have hpos := Nat.two_pow_pos (g.gpa k).descOrder
  have hone : strides (fun x => ((g.splitAligned k).gpa x).descOrder) (2 ^ (g.gpa k).descOrder) k
      (k + 2 ^ (g.gpa k).descOrder) = [k] := by
    obtain ⟨m, hm⟩ := Nat.exists_eq_add_one.mpr hpos
    rw [hm, strides, if_pos (by omega), (horder k).2, hm]
    cases m with
    | zero => rfl
    | succ m => rw [strides, if_neg (lt_irrefl _)]
  obtain ⟨hheads, hwalk⟩ := heads_eq_strides hp' hg'
    (htiled.congr fun x _ _ => (horder x).2) (hlen.symm ▸ hend)
  rw [numSubblock_eq hg hk]
  exact ⟨fun x => (horder x).1, hheads.trans hone, hwalk.trans hone⟩

/-- **A cut tiles the block.**  In every run, for every block of a group and every subblock `b`
of it that a vma split falls on: the loop that tiles a part of the block ends within as many
rounds as the part has subblocks.  Unless the split is at the start of the block, which then
stays whole, the block falls into aligned pieces on either side of the cut (and the subblock
that is cut through) which the members record as their ceilings, and the new heads are those of
the pieces, by address and by strides alike. -/
theorem cut_tiles_block (h : Transition.Reach Start step g) (hk : g.IsHead k) (hle : k ≤ b)
    (hlt : b < k + (g.gpa k).numSubblock) (whole : Bool) :
    (∀ (d rounds i off size : ℕ) (g₁ : Group), size ≤ rounds →
      g₁.splitTileWithin d rounds i off size = some (g₁.splitTile d size i off size)) ∧
    (¬ (k = b ∧ whole) → ∃ pieces, g.CutInto (g.splitGpadesc k b whole) k b whole pieces) ∧
    (k = b ∧ whole → (∀ x, ((g.splitGpadesc k b whole).gpa x).blockOrder = (g.gpa x).blockOrder) ∧
      (g.splitGpadesc k b whole).newHeads k (g.gpa k).numSubblock = [k] ∧
      (g.splitGpadesc k b whole).strideWalk (g.gpa k).numSubblock k
        (k + (g.gpa k).numSubblock) = [k]) := by
  have hinv : g.Placed ∧ g.Geometry :=
    h.invariant (fun _ => geometry_of_start) fun _ _ _ hi _ hs => geometry_of_step hi.1 hi.2 hs
  obtain ⟨hp, hg⟩ := hinv
  have hhead := (isHead_iff hp hg hk.1).mp hk
  refine ⟨fun _ _ _ _ _ _ hsize => splitTileWithin_eq hsize, fun hcut => ?_, fun hwhole => ?_⟩
  · rw [numSubblock_eq hg hk.1] at hlt
    exact cutInto_splitGpadesc hp hg hk.1 hhead hle hlt hcut
  · rw [splitGpadesc, if_pos hwhole]
    exact splitAligned_whole hp hg hk.1 hhead

/-- A block of eight is cut in the middle of its fourth subblock. -/
theorem cut_tiles_block_sixteen : ∃ g, Transition.Reach Start step g ∧
    (∃ pieces, g.CutInto (g.splitGpadesc 0 3 false) 0 3 false pieces) ∧
      (g.splitGpadesc 0 3 false).newHeads 0 8 = [0, 2, 3, 4] := by
  have hrun : ∀ g, newGpadesc sixteen 6 32 1024 = some g → g.len = 8 →
      Transition.Reach Start step g := fun g hg hlen =>
    .start ⟨sixteen, 6, 32, 1024, ⟨by decide, by decide⟩, by decide, by decide, hg,
      by rw [hlen]; decide⟩
  exact ⟨_, hrun _ rfl rfl, (cut_tiles_block (k := 0) (b := 3) (hrun _ rfl rfl)
    ⟨by decide, by decide⟩ (by decide) (by decide) false).2.1 (by decide), by decide⟩

end Group

end Emp
