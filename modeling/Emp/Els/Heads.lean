import Emp.Els.Split
import Emp.Lib.BlockLine
import Mathlib.Algebra.Order.BigOperators.Group.List

/-!
# Walking the heads of a directory

`raw_for_all_gpa_heads_range` asks `get_next_exist_head_gpadesc` for the block at an index or the
next one behind it, and goes on behind that block.  An empty slot is left together with the
group it would be populated with, and then group by group.

The slots behind the end of the directory belong to the page that the directory ends in, and
are never populated.

## Main definitions

* `Directory.blockAt`, `Directory.blockLine` — the blocks of a directory.
* `Directory.existHeadIn` — `get_next_exist_head_gpadesc` with the turns of its loop.
* `Directory.gpaHeadsRange` — `raw_for_all_gpa_heads_range`.
-/

namespace Emp

namespace Directory

variable (d : Directory)

/-- The block of a populated slot: the index of its head, and its number of subblocks. -/
def blockAt (i : ℕ) : Option (ℕ × ℕ) :=
  (d.gpaAt i).map fun sg =>
    (d.backing.empGetBlockHeadIndex i (sg.2.gpa sg.1.member).descOrder,
      (sg.2.gpa sg.1.member).numSubblock)

/-- The loop of `__get_next_exist_head_gpadesc`; no answer when the turns run out. -/
def existHeadLoop : ℕ → ℕ → Option (Option ℕ)
  | 0, _ => none
  | turns + 1, index =>
    if (d.gpaDir index).isSome then some (some index)
    else
      match d.backing.getGpadescRegion index with
      | none => some none
      | some r => existHeadLoop turns (index + 2 ^ (r.allocOrder - d.backing.sbOrder))

/-- `get_next_exist_head_gpadesc`, with the turns of its loop. -/
def existHeadIn (turns index : ℕ) : Option (Option ℕ) :=
  match d.gpaAt index with
  | some (s, g) => some (some (d.backing.empGetBlockHeadIndex index (g.gpa s.member).descOrder))
  | none =>
    match d.backing.getGpadescRegion index with
    | none => some none
    | some r => d.existHeadLoop turns
        (d.backing.empGetBlockHeadIndex index (r.allocOrder - d.backing.sbOrder) +
          2 ^ (r.allocOrder - d.backing.sbOrder))

/-- `raw_for_all_gpa_heads_range`: the heads that the body of the loop is run for. -/
def gpaHeadsRange (inner stop : ℕ) : ℕ → ℕ → Option (List ℕ)
  | 0, _ => none
  | turns + 1, index =>
    match d.existHeadIn inner index with
    | none => none
    | some none => some []
    | some (some k) =>
      if k < stop then
        (d.gpaAt k).bind fun sg =>
          (gpaHeadsRange inner stop turns (k + (sg.2.gpa sg.1.member).numSubblock)).map (k :: ·)
      else some []

attribute [grind =] existHeadLoop gpaHeadsRange

variable {d} {i k c idx fuel turns stop : ℕ} {b : ℕ × ℕ} {r : Option ℕ} {s : Slot}
  {g : Group}

/-! ### The blocks -/

theorem Inv.blockAt_eq (h : d.Inv) (hs : d.gpaAt i = some (s, g)) :
    d.blockAt i = some (g.start + alignDown (g.gpa s.member).descOrder s.member,
      2 ^ (g.gpa s.member).descOrder) := by
  obtain ⟨-, hmember, -, hpos, hlt, -⟩ := h.range hs
  rw [blockAt, hs, Option.map_some]
  simp only
  rw [Group.numSubblock_eq hmember.geometry hlt, hpos, ← hmember.backing,
    Group.headIndex_eq hmember.placed hmember.geometry hlt]

theorem Inv.block_spec (h : d.Inv) (hb : d.blockAt i = some b) :
    b.1 ≤ i ∧ i < b.1 + b.2 ∧ ∀ j, b.1 ≤ j → j < b.1 + b.2 → d.blockAt j = some b := by
  obtain ⟨⟨s, g⟩, hs, -⟩ := Option.map_eq_some_iff.mp hb
  obtain ⟨-, hmember, -, hpos, hlt, hall⟩ := h.range hs
  obtain rfl := Option.some.inj (hb.symm.trans (h.blockAt_eq hs))
  have hdown := alignDown_le (g.gpa s.member).descOrder s.member
  have hup := lt_alignDown_add (g.gpa s.member).descOrder s.member
  obtain ⟨-, hfit, hrun⟩ := hmember.geometry.tiled.run (Nat.zero_le _) hlt
  refine ⟨by omega, by omega, fun j hj hj' => ?_⟩
  have hslot := hall j (by omega) (by omega)
  have hdesc : (g.gpa (j - g.start)).descOrder = (g.gpa s.member).descOrder :=
    hrun (j - g.start) (by omega) (by omega)
  have hsame : alignDown (g.gpa s.member).descOrder (j - g.start) =
      alignDown (g.gpa s.member).descOrder s.member := by
    refine alignDown_congr ?_
    rw [← alignDown_div _ s.member]
    exact (div_eq_iff_of_dvd (dvd_alignDown _ _)).mpr ⟨by omega, by omega⟩
  rw [h.blockAt_eq hslot, hdesc, hsame]

/-- The slots of a block hold members of one block. -/
theorem Inv.sameBlock {j j' : ℕ} (h : d.Inv) (hb : d.blockAt i = some b) (hj : b.1 ≤ j)
    (hjlt : j < b.1 + b.2) (hj' : b.1 ≤ j') (hjlt' : j' < b.1 + b.2) : d.SameBlock j j' := by
  obtain ⟨-, -, hrun⟩ := h.block_spec hb
  obtain ⟨⟨s, g⟩, hs, -⟩ := Option.map_eq_some_iff.mp hb
  obtain ⟨-, hmember, -, hpos, hlt, hall⟩ := h.range hs
  obtain rfl := Option.some.inj (hb.symm.trans (h.blockAt_eq hs))
  obtain ⟨-, hfit, -⟩ := hmember.geometry.tiled.run (Nat.zero_le _) hlt
  have hmem : ∀ x, g.start + alignDown (g.gpa s.member).descOrder s.member ≤ x →
      x < g.start + alignDown (g.gpa s.member).descOrder s.member + 2 ^ (g.gpa s.member).descOrder →
      d.gpaAt x = some (⟨s.group, x - g.start⟩, g) ∧ g.empGetBlockHead (x - g.start) =
        g.ptr (alignDown (g.gpa s.member).descOrder s.member) := by
    intro x hx hx'
    have hslot := hall x (by omega) (by omega)
    have heq := Option.some.inj ((hrun x hx hx').symm.trans (h.blockAt_eq hslot))
    have hhead : g.start + alignDown (g.gpa s.member).descOrder s.member =
        g.start + alignDown (g.gpa (x - g.start)).descOrder (x - g.start) := congrArg Prod.fst heq
    refine ⟨hslot, ?_⟩
    rw [Group.empGetBlockHead_eq hmember.placed hmember.geometry (by omega),
      Nat.add_left_cancel hhead]
  obtain ⟨hslot, hhead⟩ := hmem j hj hjlt
  obtain ⟨hslot', hhead'⟩ := hmem j' hj' hjlt'
  exact ⟨_, _, g, hslot, hslot', rfl, hhead.trans hhead'.symm⟩

/-- The blocks of a directory take its populated slots. -/
def blockLine (h : d.Inv) : BlockLine (ℕ × ℕ) where
  block := d.blockAt
  first := Prod.fst
  size := Prod.snd
  inside hb := ⟨(h.block_spec hb).1, (h.block_spec hb).2.1⟩
  run hb := (h.block_spec hb).2.2

theorem blockAt_eq_none (h : d.Inv) : d.blockAt i = none ↔ d.gpaDir i = none := by
  rw [blockAt, Option.map_eq_none_iff]
  refine ⟨fun hnone => ?_, fun hnone => by rw [gpaAt, hnone, Option.bind_none]⟩
  by_contra hne
  obtain ⟨s, g, hs⟩ := h.exists_gpaAt (Option.isSome_iff_ne_none.mpr hne)
  exact Option.some_ne_none _ (hs.symm.trans hnone)

/-! ### The next block -/

theorem exists_region_bound (m : Backing) :
    ∃ n, ∀ idx r, m.getGpadescRegion idx = some r → idx < n := by
  refine ⟨(m.setGpadescRegions.map GpadescRegion.finish).sum, fun idx r hr => ?_⟩
  have hlt := (Backing.getGpadescRegion_spec hr).2.1
  exact hlt.trans_le
    (List.le_sum_of_mem (List.mem_map.mpr ⟨r, List.mem_of_find?_eq_some hr, rfl⟩))

/-- The loop ends: it moves up, and no region holds large indexes. -/
theorem isSome_existHeadLoop {n : ℕ}
    (hn : ∀ idx r, d.backing.getGpadescRegion idx = some r → idx < n) (hturns : n < turns + idx)
    (hpos : 0 < turns) : (d.existHeadLoop turns idx).isSome := by
  induction turns generalizing idx with
  | zero => exact absurd hpos (lt_irrefl 0)
  | succ turns ih =>
      rw [existHeadLoop]
      split_ifs with hpop
      · rfl
      · cases hr : d.backing.getGpadescRegion idx with
        | none => rfl
        | some r =>
            have hidx := hn idx r hr
            have hstep := Nat.two_pow_pos (r.allocOrder - d.backing.sbOrder)
            exact ih (by omega) (by omega)

/-- A loop that ends answers the same, whatever number of turns it is given. -/
theorem nextExistHead_of_loop (hloop : d.existHeadLoop turns idx = some r)
    (hk : d.nextExistHead fuel idx = some k) : r = some k := by
  induction turns generalizing idx fuel with
  | zero => cases hloop
  | succ turns ih =>
      cases fuel with
      | zero => cases hk
      | succ fuel =>
          rw [existHeadLoop] at hloop
          rw [nextExistHead] at hk
          split_ifs at hloop hk with hpop
          · rw [← hk]
            exact (Option.some.inj hloop).symm
          · obtain ⟨q, hq, hrest⟩ := Option.bind_eq_some_iff.mp hk
            simp only [hq] at hloop
            exact ih hloop hrest

theorem populated_of_loop (hloop : d.existHeadLoop turns idx = some (some k)) :
    idx ≤ k ∧ (d.gpaDir k).isSome := by
  induction turns generalizing idx with
  | zero => cases hloop
  | succ turns ih =>
      rw [existHeadLoop] at hloop
      split_ifs at hloop with hpop
      · obtain rfl := Option.some.inj (Option.some.inj hloop)
        exact ⟨le_rfl, hpop⟩
      · cases hr : d.backing.getGpadescRegion idx with
        | none => simp [hr] at hloop
        | some q =>
            simp only [hr] at hloop
            obtain ⟨hle, hsome⟩ := ih hloop
            exact ⟨(Nat.le_add_right _ _).trans hle, hsome⟩

theorem existHeadIn_eq (h : d.Inv) (hr : d.existHeadIn turns idx = some r) :
    r = d.getNextExistHead idx := by
  cases hidx : d.gpaAt idx with
  | some sg =>
      simp only [existHeadIn, hidx, Option.some.injEq] at hr
      simp only [getNextExistHead, hidx, hr]
  | none =>
      simp only [existHeadIn, hidx] at hr
      cases hq : d.backing.getGpadescRegion idx with
      | none =>
          simp only [hq, Option.some.injEq] at hr
          simp only [getNextExistHead, hidx, hq, ← hr, Option.bind_none]
      | some q =>
          simp only [hq] at hr
          cases hk : d.getNextExistHead idx with
          | some k =>
              simp only [getNextExistHead, hidx, hq, Option.bind_some] at hk
              exact nextExistHead_of_loop hr hk
          | none =>
              cases r with
              | none => rfl
              | some k =>
                  -- what the loop has found is found by the search
                  obtain ⟨hle, hpop⟩ := populated_of_loop hr
                  have hrun : idx ≤ k := by
                    have hmod := Nat.mod_lt (if d.backing.blockAlignedStart ≤ idx then
                      idx - d.backing.blockAlignedStart else idx)
                      (Nat.two_pow_pos (q.allocOrder - d.backing.sbOrder))
                    rw [Backing.empGetBlockHeadIndex] at hle
                    omega
                  obtain ⟨k', -, -, hk', -⟩ := getNextExistHead_spec h hpop hrun
                  rw [hk] at hk'
                  cases hk'

theorem isSome_existHeadIn {n : ℕ}
    (hn : ∀ idx r, d.backing.getGpadescRegion idx = some r → idx < n) (hturns : n < turns) :
    (d.existHeadIn turns idx).isSome := by
  rw [existHeadIn]
  split
  · rfl
  · split
    · rfl
    · exact isSome_existHeadLoop hn (Nat.lt_add_right _ hturns) (Nat.zero_lt_of_lt hturns)

/-- The answer is the block at the index, or the next one. -/
theorem getNextExistHead_block (h : d.Inv) (hk : d.getNextExistHead idx = some k) :
    ∃ b, d.blockAt k = some b ∧ b.1 = k ∧ idx < b.1 + b.2 ∧
      ∀ i, idx ≤ i → i < k → d.blockAt i = none := by
  obtain ⟨hpop, hempty, hback⟩ := isSome_of_getNextExistHead h hk
  obtain ⟨s, g, hs⟩ := h.exists_gpaAt hpop
  have hb := h.blockAt_eq hs
  have hstart := (h.range hs).2.2.2.1
  have hhead := head_of_getNextExistHead h hk hs
  rw [hhead, ← hstart] at hb
  refine ⟨_, hb, rfl, ?_, fun i hle hlt => (blockAt_eq_none h).mpr (hempty i hle hlt)⟩
  rcases lt_or_ge idx k with hlt | hge
  · exact hlt.trans_le (Nat.le_add_right _ _)
  · -- the index is populated together with the head
    obtain ⟨hlen, hgroup⟩ := hback hge
    obtain ⟨-, hmember, hat, -, -, hall⟩ := h.range hs
    obtain ⟨start, o, ho, hle, hlt, -⟩ := Backing.groupAt_spec h.valid hlen
    obtain ⟨rfl, rfl⟩ : g.start = start ∧ g.allocOrder = o := by
      simpa using hat.symm.trans (hgroup.trans ho)
    rw [← hmember.len_eq] at hlt
    obtain ⟨k', t, hk', ht, -, -, hin⟩ := h.head (hall idx hle hlt)
    obtain rfl : k' = k := by simpa [getNextExistHead, hall idx hle hlt, hk'] using hk
    obtain ⟨rfl, -⟩ := Prod.mk.inj (Option.some.inj (hs.symm.trans ht))
    rwa [Group.numSubblock_eq hmember.geometry (h.range ht).2.2.2.2.1] at hin

theorem getNextExistHead_none (h : d.Inv) (hk : d.getNextExistHead idx = none) (hle : idx ≤ i) :
    d.blockAt i = none := by
  rw [blockAt_eq_none h]
  by_contra hne
  obtain ⟨k, -, -, hk', -⟩ := getNextExistHead_spec h (Option.isSome_iff_ne_none.mpr hne) hle
  exact Option.some_ne_none k (hk'.symm.trans hk)

/-! ### The loop over the heads -/

/-- The turns from an index on, by induction on their number; behind a visited block the index
is a fresh one. -/
theorem gpaHeadsRange_blocks {n inner : ℕ} (h : d.Inv)
    (hn : ∀ idx r, d.backing.getGpadescRegion idx = some r → idx < n) (hinner : n < inner)
    (hturns : stop < turns + idx) (hpos : 0 < turns)
    (hmore : 1 < turns ∨ idx < stop ∨ (blockLine h).Fresh idx) :
    ∃ bs, d.gpaHeadsRange inner stop turns idx = some (bs.map Prod.fst) ∧
      bs.Pairwise (fun b c => b.1 < c.1) ∧ (blockLine h).Complete idx stop bs ∧
      (idx < stop ∨ (blockLine h).Fresh idx → (blockLine h).Visits idx stop bs) := by
  induction turns generalizing idx with
  | zero => exact absurd hpos (lt_irrefl 0)
  | succ turns ih =>
      obtain ⟨r, hr⟩ : ∃ r, d.existHeadIn inner idx = some r :=
        Option.isSome_iff_exists.mp (isSome_existHeadIn hn hinner)
      obtain rfl := existHeadIn_eq h hr
      rw [gpaHeadsRange, hr]
      cases hk : d.getNextExistHead idx with
      | none =>
          refine ⟨[], rfl, List.Pairwise.nil, ?_, fun _ => BlockLine.visits_nil idx stop⟩
          rintro b ⟨i, hle, -, hi⟩
          exact absurd (hi.symm.trans (getNextExistHead_none h hk hle)) (Option.some_ne_none b)
      | some k =>
          obtain ⟨b, hb, rfl, hin, hempty⟩ := getNextExistHead_block h hk
          have hat : ∀ i, b.1 ≤ i → i < b.1 + b.2 → d.blockAt i = some b := (h.block_spec hb).2.2
          have hahead : idx < stop ∨ (blockLine h).Fresh idx → idx ≤ b.1 ∨ idx < stop := by
            rintro (hlt | hfresh)
            · exact .inr hlt
            · refine .inl (le_of_not_gt fun hlt => ?_)
              exact absurd (hfresh b (hat idx hlt.le hin)) hlt.ne
          by_cases hstop : b.1 < stop
          · have hturns' : 0 < turns := by
              rcases hmore with hmore | hmore
              · omega
              · have hlt := hahead hmore
                omega
            obtain ⟨⟨s, g⟩, hs, hsb⟩ := Option.map_eq_some_iff.mp hb
            have hnum : (g.gpa s.member).numSubblock = b.2 := congrArg Prod.snd hsb
            have hfresh : (blockLine h).Fresh (b.1 + b.2) :=
              BlockLine.fresh_stop (show (blockLine h).block b.1 = some b from hb)
            obtain ⟨bs, hbs, -, hcomplete, hvisits⟩ := ih (show stop < turns + (b.1 + b.2) by omega)
              hturns' (.inr (.inr hfresh))
            have hrest := hvisits (.inr hfresh)
            have hhead : (blockLine h).Visits b.1 stop (b :: bs) := hrest.cons hb hstop le_rfl
            have hall : (blockLine h).Complete b.1 stop (b :: bs) :=
              BlockLine.Complete.cons hcomplete hb
            refine ⟨b :: bs, ?_, hhead.ascending, ?_, fun hmore => ?_⟩
            · simp only [hstop, if_true, hs, Option.bind_some, hnum, hbs, Option.map_some,
                List.map_cons]
            · rcases le_total idx b.1 with hle | hle
              · exact hall.skip hempty
              · exact BlockLine.Complete.cons hcomplete (hat idx hle hin)
            · rcases hahead hmore with hle | hlt
              · exact hhead.mono hle
              · rcases le_total idx b.1 with hle | hle
                · exact hhead.mono hle
                · exact hrest.cons (hat idx hle hin) hlt le_rfl
          · refine ⟨[], by simp only [hstop, if_false, List.map_nil], List.Pairwise.nil, ?_,
              fun _ => BlockLine.visits_nil idx stop⟩
            rintro c ⟨i, hle, hlt, hi⟩
            exact absurd (hi.symm.trans (hempty i hle (by omega))) (Option.some_ne_none c)

/-- The head of a block that has a subblock in the range. -/
def HeadInRange (d : Directory) (start stop k : ℕ) : Prop :=
  ∃ i, start ≤ i ∧ i < stop ∧ (d.blockAt i).map Prod.fst = some k

/-- Every directory that first touches, operations on blocks, copy-on-write faults and splits
lead to, also splits that do not find the group of their boundary. -/
theorem inv_of_reach (h : Transition.Reach Start step d) : d.Inv := by
  refine h.invariant (I := Inv) ?_ ?_
  · intro d ⟨hvalid, hpos, hgroup, hdir, _⟩
    refine ⟨hvalid, hpos, fun id g hg => ?_, fun i s hs => ?_⟩
    · rw [hgroup] at hg
      cases hg
    · rw [hdir] at hs
      cases hs
  · intro d e d' hi _ hs
    rcases kept_of_step hi hs with hkept | ⟨vma, addr, newIsFront, alloc, rfl⟩
    · exact hkept.inv
    · obtain ⟨⟨-, -, -, -, havail⟩, rfl⟩ := Transition.of_guard hs
      obtain ⟨d', heq, hkept⟩ : ∃ d', d.splitVmdesc vma addr newIsFront alloc =
          { d' with cuts := addr :: d'.cuts } ∧ d.Kept d' := kept_splitVmdesc hi havail
      rw [heq]
      exact hkept.inv.record _

end Directory

end Emp
