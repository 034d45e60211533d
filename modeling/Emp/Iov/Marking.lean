import Emp.Madvise.Prefetch
import Mathlib.Data.List.Sort

/-!
# Marking the blocks of a disk read

A disk read overwrites the memory of its vector, so the contents of the blocks that lie in it need
not be fetched.  `mark_io_blocks` gets a range of indexes, moves both ends over empty slots to the
boundaries of blocks, and marks the blocks between them.

The directory does not change while the blocks are marked.  Other actors may hold the locks of
blocks.

## Main definitions

* `IoBlock`, `IoRun` — a block, and the marked blocks with all slots that have been read.
* `Directory.markIoBlocks` — the marking of a range.
* `Directory.IoMarked`, `Directory.ReadsFit` — the blocks that are marked, and how far the slots
  go that are read.
-/

namespace Emp

/-- The head of a block: its state, `GPA_REMOTE`, and whether another actor holds its lock. -/
structure IoBlock where
  rState : BlockState
  remote : Bool
  busy : Bool
  deriving DecidableEq, Repr

/-- The heads of the marked blocks, and the slots of the directory that have been read. -/
structure IoRun where
  heads : List ℕ
  reads : List ℕ
  deriving DecidableEq, Repr

/-- The block is marked when the loop over the heads comes upon it. -/
def IoBlock.eligible (k : IoBlock) : Bool := k.remote && !k.busy && decide (k.rState = .init)

namespace Directory

variable (d : Directory)

/-- The loop that moves the start up to a populated slot: the slots that it reads, and the slot. -/
def ioFirst (stop : ℕ) : ℕ → ℕ → List ℕ × Option ℕ
  | 0, _ => ([], none)
  | turns + 1, start =>
    if (d.gpaDir start).isSome then ([start], some start)
    else if stop ≤ start + 1 then ([start], none)
    else
      let r := ioFirst stop turns (start + 1)
      (start :: r.1, r.2)

/-- The loop that moves the end down to a populated slot. -/
def ioLast (start : ℕ) : ℕ → List ℕ × Option ℕ
  | 0 => ([0], if (d.gpaDir 0).isSome then some 0 else none)
  | stop + 1 =>
    if (d.gpaDir (stop + 1)).isSome then ([stop + 1], some (stop + 1))
    else if stop ≤ start then ([stop + 1], none)
    else
      let r := ioLast start stop
      ((stop + 1) :: r.1, r.2)

/-- The slots that the loop of `__get_next_exist_head_gpadesc` reads. -/
def loopReads : ℕ → ℕ → List ℕ
  | 0, _ => []
  | turns + 1, index =>
    index ::
      if (d.gpaDir index).isSome then []
      else
        match d.backing.getGpadescRegion index with
        | none => []
        | some r => loopReads turns (index + 2 ^ (r.allocOrder - d.backing.sbOrder))

/-- The slots that `get_next_exist_head_gpadesc` reads. -/
def headReads (turns index : ℕ) : List ℕ :=
  index ::
    match d.gpaAt index with
    | some (s, g) => [d.backing.empGetBlockHeadIndex index (g.gpa s.member).descOrder]
    | none =>
      match d.backing.getGpadescRegion index with
      | none => []
      | some r => d.loopReads turns
          (d.backing.empGetBlockHeadIndex index (r.allocOrder - d.backing.sbOrder) +
            2 ^ (r.allocOrder - d.backing.sbOrder))

/-- The loop over the heads, which reads the slot of a head once more to lock the block. -/
def ioLoop (block : ℕ → IoBlock) (inner stop headsLen : ℕ) : ℕ → ℕ → ℕ → Option IoRun
  | 0, _, _ => none
  | turns + 1, count, index =>
    match d.existHeadIn inner index with
    | none => none
    | some none => some ⟨[], d.headReads inner index⟩
    | some (some k) =>
      if k < stop then
        (d.gpaAt k).bind fun sg =>
          let next := k + (sg.2.gpa sg.1.member).numSubblock
          let reads := d.headReads inner index
          if (block k).remote = false then
            (ioLoop block inner stop headsLen turns count next).map
              fun r => ⟨r.heads, reads ++ r.reads⟩
          else if (block k).busy then
            (ioLoop block inner stop headsLen turns count next).map
              fun r => ⟨r.heads, reads ++ k :: r.reads⟩
          else
            let marked := if (block k).rState = .init then [k] else []
            if headsLen ≤ count + marked.length then some ⟨marked, reads ++ [k]⟩
            else
              (ioLoop block inner stop headsLen turns (count + marked.length) next).map
                fun r => ⟨marked ++ r.heads, reads ++ k :: r.reads⟩
      else some ⟨[], d.headReads inner index⟩

attribute [grind =] ioFirst ioLast loopReads ioLoop

/-- `mark_io_blocks` of a read, with room for `headsLen` heads. -/
def markIoBlocks (block : ℕ → IoBlock) (startIdx len headsLen turns : ℕ) : Option IoRun :=
  let endIdx := startIdx + len
  match d.ioFirst endIdx len startIdx with
  | (reads, none) => some ⟨[], reads⟩
  | (reads, some p) =>
    let start := (d.blockAt p).elim p fun b => if p = b.1 then p else b.1 + b.2
    match d.ioLast start endIdx with
    | (reads', none) => some ⟨[], reads ++ reads'⟩
    | (reads', some e) =>
      let stop := (d.blockAt e).elim e Prod.fst
      (d.ioLoop block turns stop headsLen turns 0 start).map
        fun r => ⟨r.heads, reads ++ reads' ++ r.reads⟩

/-- The block at `k` is marked if the room suffices: it starts in the range, and a populated slot
of the range, or the one behind the range, follows it. -/
def markable (block : ℕ → IoBlock) (startIdx endIdx k : ℕ) : Bool :=
  decide (startIdx ≤ k) && (d.blockAt k).any fun b =>
    decide (b.1 = k) && (block k).eligible &&
      (List.range (endIdx + 1)).any fun j => decide (b.1 + b.2 ≤ j) && (d.gpaDir j).isSome

/-- The block is one of the first `headsLen` that can be marked. -/
def IoMarked (block : ℕ → IoBlock) (startIdx endIdx headsLen k : ℕ) : Prop :=
  d.markable block startIdx endIdx k ∧
    (List.range k).countP (d.markable block startIdx endIdx) < headsLen

/-- The slots that are read for a range of indexes lie in front of `bound`: the range does, and if
one of its slots is populated, so does the slot behind it; and a block that starts in front of the
range and ends behind that slot is followed by another one in front of `bound`. -/
structure ReadsFit (startIdx endIdx bound : ℕ) : Prop where
  range : endIdx ≤ bound
  stop : ∀ i, startIdx ≤ i → i < endIdx → (d.gpaDir i).isSome → endIdx < bound
  overhang : ∀ b, d.blockAt startIdx = some b → b.1 < startIdx → endIdx < b.1 + b.2 →
    ∃ q, b.1 + b.2 ≤ q ∧ q < bound ∧ (d.gpaDir q).isSome

end Directory

theorem mem_take_iff_of_mem {l : List ℕ} {k : ℕ} (hl : l.Pairwise (· < ·)) (hk : k ∈ l) (n : ℕ) :
    k ∈ l.take n ↔ l.countP (· < k) < n := by
  induction l generalizing n with
  | nil => cases hk
  | cons a l ih =>
      obtain ⟨hall, hrest⟩ := List.pairwise_cons.mp hl
      cases n with
      | zero => simp only [List.take_zero, List.not_mem_nil, Nat.not_lt_zero]
      | succ n =>
          rw [List.take_succ_cons, List.mem_cons, List.countP_cons]
          rcases List.mem_cons.mp hk with rfl | hmem
          · have hzero : l.countP (· < k) = 0 :=
              List.countP_eq_zero.mpr fun x hx => by simpa using (hall x hx).le
            simp [hzero]
          · have hlt := hall k hmem
            simp only [ih hrest hmem, hlt.ne', false_or, hlt, decide_true, if_true]
            omega

/-- The first members of an ascending list of all numbers with a property. -/
theorem mem_take_iff {l : List ℕ} {p : ℕ → Bool} (hl : l.Pairwise (· < ·))
    (hp : ∀ k, k ∈ l ↔ p k) (n k : ℕ) :
    k ∈ l.take n ↔ p k ∧ (List.range k).countP p < n := by
  have hcount : (List.range k).countP p = l.countP (· < k) := by
    rw [List.countP_eq_length_filter, List.countP_eq_length_filter]
    congr 1
    refine List.Pairwise.eq_of_mem_iff (r := (· < ·)) (List.pairwise_lt_range.filter p)
      (hl.filter _) fun x => ?_
    simp only [List.mem_filter, List.mem_range, hp, decide_eq_true_eq]
    exact and_comm
  rw [hcount]
  refine ⟨fun hk => ?_, fun hk => ?_⟩
  · have hmem := List.mem_of_mem_take hk
    exact ⟨(hp k).mp hmem, (mem_take_iff_of_mem hl hmem n).mp hk⟩
  · exact (mem_take_iff_of_mem hl ((hp k).mpr hk.1) n).mpr hk.2

namespace Backing

/-- An index lies in front of the end of its group. -/
theorem lt_groupEnd (m : Backing) (idx order : ℕ) :
    idx < m.empGetBlockHeadIndex idx order + 2 ^ order := by
  have hmod := Nat.mod_lt (if m.blockAlignedStart ≤ idx then idx - m.blockAlignedStart else idx)
    (Nat.two_pow_pos order)
  rw [empGetBlockHeadIndex]
  omega

end Backing

namespace Directory

variable {d : Directory} {block : ℕ → IoBlock} {start stop idx turns inner headsLen i k q : ℕ}

/-- The first loop stops at the first populated slot. -/
theorem ioFirst_spec (hlt : start < stop) (hturns : stop ≤ start + turns) :
    (∃ p, start ≤ p ∧ p < stop ∧ (d.gpaDir p).isSome ∧
      (∀ i, start ≤ i → i < p → d.gpaDir i = none) ∧
      (d.ioFirst stop turns start).2 = some p ∧
      ∀ i, i ∈ (d.ioFirst stop turns start).1 ↔ start ≤ i ∧ i ≤ p) ∨
    ((∀ i, start ≤ i → i < stop → d.gpaDir i = none) ∧ (d.ioFirst stop turns start).2 = none ∧
      ∀ i, i ∈ (d.ioFirst stop turns start).1 ↔ start ≤ i ∧ i < stop) := by
  induction turns generalizing start with
  | zero => omega
  | succ turns ih =>
      rw [ioFirst]
      by_cases hpop : (d.gpaDir start).isSome = true
      · rw [if_pos hpop]
        refine .inl ⟨start, le_rfl, hlt, hpop, fun i hle hi => ?_, rfl, fun i => ?_⟩
        · exact absurd hi (not_lt.mpr hle)
        · rw [List.mem_singleton]
          exact ⟨fun hi => ⟨hi.ge, hi.le⟩, fun hi => le_antisymm hi.2 hi.1⟩
      · have hnone : d.gpaDir start = none := by simpa using hpop
        rw [if_neg hpop]
        by_cases hend : stop ≤ start + 1
        · rw [if_pos hend]
          refine .inr ⟨fun i hle hi => ?_, rfl, fun i => ?_⟩
          · obtain rfl : i = start := by omega
            exact hnone
          · rw [List.mem_singleton]
            omega
        · rw [if_neg hend]
          have hcons : ∀ i, start ≤ i → i = start ∨ start + 1 ≤ i := by omega
          rcases ih (show start + 1 < stop by omega) (by omega) with
            ⟨p, hle, hp, hsome, hempty, heq, hreads⟩ | ⟨hempty, heq, hreads⟩
          · refine .inl ⟨p, by omega, hp, hsome, fun i hi hip => ?_, heq, fun i => ?_⟩
            · rcases hcons i hi with rfl | hi
              · exact hnone
              · exact hempty i hi hip
            · rw [List.mem_cons, hreads]
              omega
          · refine .inr ⟨fun i hi his => ?_, heq, fun i => ?_⟩
            · rcases hcons i hi with rfl | hi
              · exact hnone
              · exact hempty i hi his
            · rw [List.mem_cons, hreads]
              omega

/-- The second loop stops at the last populated slot, and the slot behind the range is the first
one that it looks at. -/
theorem ioLast_spec (d : Directory) (start stop : ℕ) :
    (∃ e, e ≤ stop ∧ (e = stop ∨ start < e) ∧ (d.gpaDir e).isSome ∧
      (∀ i, e < i → i ≤ stop → d.gpaDir i = none) ∧ (d.ioLast start stop).2 = some e ∧
      ∀ i, i ∈ (d.ioLast start stop).1 ↔ e ≤ i ∧ i ≤ stop) ∨
    ((∀ i, i = stop ∨ start < i → i ≤ stop → d.gpaDir i = none) ∧
      (d.ioLast start stop).2 = none ∧
      ∀ i, i ∈ (d.ioLast start stop).1 ↔ (i = stop ∨ start < i) ∧ i ≤ stop) := by
  induction stop with
  | zero =>
      rw [ioLast]
      by_cases hpop : (d.gpaDir 0).isSome = true
      · rw [if_pos hpop]
        refine .inl ⟨0, le_rfl, .inl rfl, hpop, fun i hi hi' => by omega, rfl, fun i => ?_⟩
        rw [List.mem_singleton]
        omega
      · rw [if_neg hpop]
        refine .inr ⟨fun i _ hi => ?_, rfl, fun i => ?_⟩
        · obtain rfl := Nat.le_zero.mp hi
          simpa using hpop
        · rw [List.mem_singleton]
          omega
  | succ stop ih =>
      rw [ioLast]
      by_cases hpop : (d.gpaDir (stop + 1)).isSome = true
      · rw [if_pos hpop]
        refine .inl ⟨stop + 1, le_rfl, .inl rfl, hpop, fun i hi hi' => by omega, rfl, fun i => ?_⟩
        rw [List.mem_singleton]
        omega
      · have hnone : d.gpaDir (stop + 1) = none := by simpa using hpop
        rw [if_neg hpop]
        by_cases hend : stop ≤ start
        · rw [if_pos hend]
          refine .inr ⟨fun i hi hi' => ?_, rfl, fun i => ?_⟩
          · obtain rfl : i = stop + 1 := by omega
            exact hnone
          · rw [List.mem_singleton]
            omega
        · rw [if_neg hend]
          rcases ih with ⟨e, hle, hpos, hsome, hempty, heq, hreads⟩ | ⟨hempty, heq, hreads⟩
          · refine .inl ⟨e, by omega, by omega, hsome, fun i hi hi' => ?_, heq, fun i => ?_⟩
            · rcases Nat.le_succ_iff.mp hi' with hi' | rfl
              · exact hempty i hi hi'
              · exact hnone
            · rw [List.mem_cons, hreads]
              omega
          · refine .inr ⟨fun i hi hi' => ?_, heq, fun i => ?_⟩
            · rcases Nat.le_succ_iff.mp hi' with hi' | rfl
              · exact hempty i (by omega) hi'
              · exact hnone
            · rw [List.mem_cons, hreads]
              omega

/-! ### The slots of the walk -/

/-- The loop over the groups does not leave out a populated slot. -/
theorem loopReads_le (h : d.Inv) (hq : (d.gpaDir q).isSome) (hle : idx ≤ q)
    (hat : idx < d.backing.gpaLen → ∃ o, d.backing.groupAt idx = some (idx, o)) :
    ∀ i ∈ d.loopReads turns idx, i ≤ q := by
  obtain ⟨t, g, hg⟩ := h.exists_gpaAt hq
  have hqlen := (h.range hg).1
  induction turns generalizing idx with
  | zero => nofun
  | succ turns ih =>
      intro i hi
      rw [loopReads] at hi
      rcases List.mem_cons.mp hi with rfl | hi
      · exact hle
      · split_ifs at hi with hpop
        · cases hi
        · obtain ⟨o, ho⟩ := hat (hle.trans_lt hqlen)
          obtain ⟨r, hr, rfl, -⟩ := Backing.exists_region_of_groupAt ho
          simp only [hr] at hi
          have hbehind : idx + 2 ^ (r.allocOrder - d.backing.sbOrder) ≤ q := by
            by_contra hin
            have hnone := h.empty ho (hle.trans_lt hqlen) (by simpa using hpop) hle (not_le.mp hin)
            rw [hnone] at hq
            cases hq
          exact ih hbehind
            (fun hlen => Backing.groupAt_next h.valid (hle.trans_lt hqlen) ho hlen) i hi

theorem le_of_loopReads : ∀ i ∈ d.loopReads turns idx, idx ≤ i := by
  induction turns generalizing idx with
  | zero => nofun
  | succ turns ih =>
      intro i hi
      rw [loopReads] at hi
      rcases List.mem_cons.mp hi with rfl | hi
      · exact le_rfl
      · split_ifs at hi
        · cases hi
        · cases hr : d.backing.getGpadescRegion idx with
          | none =>
              simp only [hr] at hi
              cases hi
          | some r =>
              simp only [hr] at hi
              exact (Nat.le_add_right _ _).trans (ih i hi)

theorem le_of_headReads (h : d.Inv) (hfresh : (blockLine h).Fresh idx) :
    ∀ i ∈ d.headReads turns idx, idx ≤ i := by
  intro i hi
  rw [headReads] at hi
  rcases List.mem_cons.mp hi with rfl | hi
  · exact le_rfl
  · cases hidx : d.gpaAt idx with
    | some sg =>
        obtain ⟨s, g⟩ := sg
        have hhead := hfresh _ (show d.blockAt idx = some _ by rw [blockAt, hidx, Option.map_some])
        simp only [hidx, List.mem_singleton] at hi
        exact (hi.trans hhead).ge
    | none =>
        cases hr : d.backing.getGpadescRegion idx with
        | none =>
            simp only [hidx, hr] at hi
            cases hi
        | some r =>
            simp only [hidx, hr] at hi
            exact (d.backing.lt_groupEnd idx _).le.trans (le_of_loopReads i hi)

/-- From an index that is not inside a block, no slot behind the next head is read. -/
theorem headReads_le (h : d.Inv) (hfresh : (blockLine h).Fresh idx) (hq : (d.gpaDir q).isSome)
    (hle : idx ≤ q) : ∀ i ∈ d.headReads turns idx, i ≤ q := by
  intro i hi
  rw [headReads] at hi
  rcases List.mem_cons.mp hi with rfl | hi
  · exact hle
  · cases hidx : d.gpaAt idx with
    | some sg =>
        obtain ⟨s, g⟩ := sg
        have hhead := hfresh _ (show d.blockAt idx = some _ by rw [blockAt, hidx, Option.map_some])
        simp only [hidx, List.mem_singleton] at hi
        exact (hi.trans hhead).trans_le hle
    | none =>
        have hnone : d.gpaDir idx = none := by
          rw [← blockAt_eq_none h, blockAt, hidx, Option.map_none]
        obtain ⟨t, g, hg⟩ := h.exists_gpaAt hq
        have hqlen := (h.range hg).1
        obtain ⟨s, o, hat, hsle, -⟩ := Backing.groupAt_spec h.valid (hle.trans_lt hqlen)
        obtain ⟨r, hr, rfl, hhead⟩ := Backing.exists_region_of_groupAt hat
        simp only [hidx, hr, hhead] at hi
        have hbehind : s + 2 ^ (r.allocOrder - d.backing.sbOrder) ≤ q := by
          by_contra hin
          have hempty := h.empty hat (hle.trans_lt hqlen) hnone (hsle.trans hle) (not_le.mp hin)
          rw [hempty] at hq
          cases hq
        exact loopReads_le h hq hbehind
          (fun hlen => Backing.groupAt_next h.valid (hle.trans_lt hqlen) hat hlen) i hi

theorem exists_loopReads {r : Option ℕ} (hr : d.existHeadLoop turns idx = some r) :
    ∃ i ∈ d.loopReads turns idx, idx ≤ i ∧ ((d.gpaDir i).isSome ∨ d.backing.gpaLen ≤ i) := by
  induction turns generalizing idx with
  | zero => cases hr
  | succ turns ih =>
      rw [existHeadLoop] at hr
      rw [loopReads]
      split_ifs at hr with hpop
      · exact ⟨idx, List.mem_cons_self, le_rfl, .inl hpop⟩
      · rw [if_neg hpop]
        cases hq : d.backing.getGpadescRegion idx with
        | none =>
            refine ⟨idx, List.mem_cons_self, le_rfl, .inr (not_lt.mp fun hlt => ?_)⟩
            obtain ⟨q, hq'⟩ := Backing.exists_getGpadescRegion hlt
            exact Option.some_ne_none q (hq'.symm.trans hq)
        | some q =>
            simp only [hq] at hr ⊢
            obtain ⟨i, hi, hle, hend⟩ := ih hr
            exact ⟨i, List.mem_cons_of_mem _ hi, (Nat.le_add_right _ _).trans hle, hend⟩

/-- The walk does not stop before it has read a populated slot, or one behind the directory. -/
theorem exists_headReads {r : Option ℕ} (hr : d.existHeadIn turns idx = some r) :
    ∃ i ∈ d.headReads turns idx, idx ≤ i ∧ ((d.gpaDir i).isSome ∨ d.backing.gpaLen ≤ i) := by
  rw [headReads]
  cases hidx : d.gpaAt idx with
  | some sg =>
      have hsome : (d.gpaDir idx).isSome := by
        rw [(gpaAt_eq_some.mp hidx).1]
        rfl
      exact ⟨idx, List.mem_cons_self, le_rfl, .inl hsome⟩
  | none =>
      simp only [existHeadIn, hidx] at hr
      cases hq : d.backing.getGpadescRegion idx with
      | none =>
          refine ⟨idx, List.mem_cons_self, le_rfl, .inr (not_lt.mp fun hlt => ?_)⟩
          obtain ⟨q, hq'⟩ := Backing.exists_getGpadescRegion hlt
          exact Option.some_ne_none q (hq'.symm.trans hq)
      | some q =>
          simp only [hq] at hr ⊢
          obtain ⟨i, hi, hle, hend⟩ := exists_loopReads hr
          exact ⟨i, List.mem_cons_of_mem _ hi, (d.backing.lt_groupEnd idx _).le.trans hle, hend⟩

/-! ### The loop over the heads -/

/-- Up to the end of the range the loop marks the first eligible blocks that it comes upon. -/
theorem ioLoop_heads (block : ℕ → IoBlock) {heads : List ℕ} {count : ℕ} (hcount : count < headsLen)
    (hheads : d.gpaHeadsRange inner stop turns idx = some heads) :
    ∃ run, d.ioLoop block inner stop headsLen turns count idx = some run ∧
      run.heads = (heads.filter fun k => (block k).eligible).take (headsLen - count) := by
  induction turns generalizing idx heads count with
  | zero => cases hheads
  | succ turns ih =>
      rw [gpaHeadsRange] at hheads
      rw [ioLoop]
      cases hk : d.existHeadIn inner idx with
      | none => rw [hk] at hheads; cases hheads
      | some r =>
          simp only [hk] at hheads ⊢
          cases r with
          | none =>
              obtain rfl := Option.some.inj hheads
              exact ⟨_, rfl, List.take_nil.symm⟩
          | some k =>
              by_cases hlt : k < stop
              · simp only [hlt, if_true] at hheads ⊢
                obtain ⟨⟨s, g⟩, hs, hmap⟩ := Option.bind_eq_some_iff.mp hheads
                obtain ⟨rest, hrest, rfl⟩ := Option.map_eq_some_iff.mp hmap
                simp only [hs, Option.bind_some]
                by_cases hremote : (block k).remote = false
                · rw [if_pos hremote]
                  obtain ⟨run, hrun, hmarked⟩ := ih hcount hrest
                  refine ⟨_, by rw [hrun, Option.map_some], ?_⟩
                  rw [List.filter_cons_of_neg (by simp [IoBlock.eligible, hremote])]
                  exact hmarked
                · rw [if_neg hremote]
                  by_cases hbusy : (block k).busy = true
                  · rw [if_pos hbusy]
                    obtain ⟨run, hrun, hmarked⟩ := ih hcount hrest
                    refine ⟨_, by rw [hrun, Option.map_some], ?_⟩
                    rw [List.filter_cons_of_neg (by simp [IoBlock.eligible, hbusy])]
                    exact hmarked
                  · rw [if_neg hbusy]
                    by_cases hinit : (block k).rState = .init
                    · have hgood : (block k).eligible = true := by
                        simp [IoBlock.eligible, hinit, hbusy, hremote]
                      simp only [if_pos hinit, List.length_singleton]
                      rw [List.filter_cons_of_pos (p := fun k => (block k).eligible) hgood]
                      by_cases hfull : headsLen ≤ count + 1
                      · rw [if_pos hfull]
                        refine ⟨_, rfl, ?_⟩
                        rw [show headsLen - count = 1 by omega, List.take_succ_cons, List.take_zero]
                      · rw [if_neg hfull]
                        obtain ⟨run, hrun, hmarked⟩ := ih (not_le.mp hfull) hrest
                        refine ⟨_, by rw [hrun, Option.map_some], ?_⟩
                        rw [show headsLen - count = headsLen - (count + 1) + 1 by omega,
                          List.take_succ_cons, ← hmarked]
                        rfl
                    · simp only [if_neg hinit, List.length_nil, Nat.add_zero, if_neg hcount.not_ge]
                      obtain ⟨run, hrun, hmarked⟩ := ih hcount hrest
                      refine ⟨_, by rw [hrun, Option.map_some], ?_⟩
                      rw [List.filter_cons_of_neg (by simp [IoBlock.eligible, hinit])]
                      exact hmarked
              · simp only [hlt, if_false] at hheads ⊢
                obtain rfl := Option.some.inj hheads
                exact ⟨_, rfl, List.take_nil.symm⟩

/-- The walk to the head of a block reads no slot behind it. -/
theorem ioLoop_reads {count : ℕ} {run : IoRun} (h : d.Inv) (hstop : (d.gpaDir stop).isSome)
    (hend : (blockLine h).Fresh stop) (hfresh : (blockLine h).Fresh idx) (hle : idx ≤ stop)
    (hrun : d.ioLoop block inner stop headsLen turns count idx = some run) :
    ∀ i ∈ run.reads, idx ≤ i ∧ i ≤ stop := by
  induction turns generalizing idx count run with
  | zero => cases hrun
  | succ turns ih =>
      have hwalk : ∀ i ∈ d.headReads inner idx, idx ≤ i ∧ i ≤ stop := fun i hi =>
        ⟨le_of_headReads h hfresh i hi, headReads_le h hfresh hstop hle i hi⟩
      rw [ioLoop] at hrun
      cases hk : d.existHeadIn inner idx with
      | none => rw [hk] at hrun; cases hrun
      | some r =>
          simp only [hk] at hrun
          cases r with
          | none =>
              obtain rfl := Option.some.inj hrun
              exact hwalk
          | some k =>
              by_cases hlt : k < stop
              · simp only [hlt, if_true] at hrun
                obtain ⟨⟨s, g⟩, hs, hrest⟩ := Option.bind_eq_some_iff.mp hrun
                obtain ⟨b, hb, hbk, hin, hempty⟩ :=
                  getNextExistHead_block h (existHeadIn_eq h hk).symm
                have hnum : (g.gpa s.member).numSubblock = b.2 := by
                  have hat := hb
                  rw [blockAt, hs, Option.map_some] at hat
                  exact congrArg Prod.snd (Option.some.inj hat)
                have hfirst : idx ≤ k := by
                  rcases le_total idx k with hle' | hle'
                  · exact hle'
                  · have hback := hfresh b ((h.block_spec hb).2.2 idx (by omega) hin)
                    exact (hback.symm.trans hbk).le
                -- the block ends in front of the last one
                have hnext : k + (g.gpa s.member).numSubblock ≤ stop := by
                  rw [hnum]
                  by_contra hover
                  have hat := (h.block_spec hb).2.2 stop (by omega) (by omega)
                  have := hend b hat
                  have hfst : (blockLine h).first b = b.1 := rfl
                  omega
                have hnextFresh : (blockLine h).Fresh (k + (g.gpa s.member).numSubblock) := by
                  rw [hnum, ← hbk]
                  exact BlockLine.fresh_stop (show (blockLine h).block k = some b from hb)
                have hgo : ∀ {count run}, d.ioLoop block inner stop headsLen turns count
                    (k + (g.gpa s.member).numSubblock) = some run →
                      ∀ i ∈ run.reads, idx ≤ i ∧ i ≤ stop := fun hr i hi => by
                  obtain ⟨hge, hle'⟩ := ih hnextFresh hnext hr i hi
                  exact ⟨by omega, hle'⟩
                have hcons : ∀ {tail : List ℕ}, (∀ i ∈ tail, idx ≤ i ∧ i ≤ stop) →
                    ∀ i ∈ d.headReads inner idx ++ k :: tail, idx ≤ i ∧ i ≤ stop := by
                  intro tail htail i hi
                  rcases List.mem_append.mp hi with hi | hi
                  · exact hwalk i hi
                  · rcases List.mem_cons.mp hi with rfl | hi
                    · exact ⟨hfirst, hlt.le⟩
                    · exact htail i hi
                simp only at hrest
                split_ifs at hrest with hremote hbusy hinit hfull hfull
                · obtain ⟨r, hr, rfl⟩ := Option.map_eq_some_iff.mp hrest
                  exact fun i hi => (List.mem_append.mp hi).elim (hwalk i) (hgo hr i)
                · obtain ⟨r, hr, rfl⟩ := Option.map_eq_some_iff.mp hrest
                  exact hcons (hgo hr)
                · obtain rfl := Option.some.inj hrest
                  exact hcons (by simp)
                · obtain ⟨r, hr, rfl⟩ := Option.map_eq_some_iff.mp hrest
                  exact hcons (hgo hr)
                · obtain rfl := Option.some.inj hrest
                  exact hcons (by simp)
                · obtain ⟨r, hr, rfl⟩ := Option.map_eq_some_iff.mp hrest
                  exact hcons (hgo hr)
              · simp only [hlt, if_false] at hrun
                obtain rfl := Option.some.inj hrun
                exact hwalk

/-! ### The blocks between the ends -/

theorem markable_iff {endIdx : ℕ} : d.markable block start endIdx k ↔
    start ≤ k ∧ (block k).eligible ∧ ∃ b, d.blockAt k = some b ∧ b.1 = k ∧
      ∃ j, j ≤ endIdx ∧ b.1 + b.2 ≤ j ∧ (d.gpaDir j).isSome := by
  rw [markable]
  cases d.blockAt k with
  | none => simp
  | some b =>
      simp only [Option.any_some, Bool.and_eq_true, decide_eq_true_eq, List.any_eq_true,
        List.mem_range, Option.some.injEq, exists_eq_left', Nat.lt_succ_iff]
      exact ⟨fun ⟨h₁, ⟨h₂, h₃⟩, h₄⟩ => ⟨h₁, h₃, h₂, h₄⟩, fun ⟨h₁, h₃, h₂, h₄⟩ => ⟨h₁, ⟨h₂, h₃⟩, h₄⟩⟩

theorem exists_block (h : d.Inv) (hpop : (d.gpaDir i).isSome) : ∃ b, d.blockAt i = some b := by
  rw [← Option.isSome_iff_exists, Option.isSome_iff_ne_none, ne_eq, blockAt_eq_none h]
  exact Option.isSome_iff_ne_none.mp hpop

theorem Inv.isSome_of_block {b : ℕ × ℕ} (h : d.Inv) (hb : d.blockAt i = some b) :
    (d.gpaDir i).isSome := by
  rw [Option.isSome_iff_ne_none, ne_eq, ← blockAt_eq_none h, hb]
  exact Option.some_ne_none b

/-- Two blocks that share a slot are the same. -/
theorem Inv.block_eq {b c : ℕ × ℕ} {j : ℕ} (h : d.Inv) (hb : d.blockAt i = some b)
    (hc : d.blockAt j = some c) (hle : c.1 ≤ i) (hlt : i < c.1 + c.2) : b = c :=
  Option.some.inj (hb.symm.trans ((h.block_spec hc).2.2 i hle hlt))

/-- The start behind the first populated slot: no block starts in front of it in the range, and it
is the slot, unless the block of the range's first slot starts in front of the range. -/
theorem ioStart_spec {p : ℕ} {b : ℕ × ℕ} (h : d.Inv) (hle : start ≤ p)
    (hempty : ∀ i, start ≤ i → i < p → d.gpaDir i = none) (hb : d.blockAt p = some b) :
    (blockLine h).Fresh (if p = b.1 then p else b.1 + b.2) ∧
      (∀ k c, start ≤ k → d.blockAt k = some c → c.1 = k →
        (if p = b.1 then p else b.1 + b.2) ≤ k) ∧
      ((if p = b.1 then p else b.1 + b.2) = p ∨ p = start ∧ b.1 < start ∧
        (if p = b.1 then p else b.1 + b.2) = b.1 + b.2) := by
  obtain ⟨hin, hin', hall⟩ := h.block_spec hb
  have hbelow : ∀ k c, start ≤ k → d.blockAt k = some c → p ≤ k := by
    intro k c hk hc
    by_contra hlt
    exact Option.some_ne_none c (hc.symm.trans ((blockAt_eq_none h).mpr
      (hempty k hk (not_le.mp hlt))))
  by_cases hhead : p = b.1
  · rw [if_pos hhead]
    refine ⟨fun c hc => ?_, fun k c hk hc _ => hbelow k c hk hc, .inl rfl⟩
    obtain rfl := Option.some.inj (hb.symm.trans hc)
    exact hhead.symm
  · rw [if_neg hhead]
    have hfirst : p = start := by
      by_contra hne
      have hprev := hbelow (p - 1) b (by omega) (hall (p - 1) (by omega) (by omega))
      omega
    refine ⟨BlockLine.fresh_stop (show (blockLine h).block p = some b from hb),
      fun k c hk hc hck => ?_, .inr ⟨hfirst, by omega, rfl⟩⟩
    have hpk := hbelow k c hk hc
    by_contra hlt
    obtain rfl := h.block_eq hc hb (by omega) (not_le.mp hlt)
    omega

/-- The blocks in front of the last populated slot are those in front of its block. -/
theorem covered_iff {e endIdx : ℕ} {b c : ℕ × ℕ} (h : d.Inv) (hle : e ≤ endIdx)
    (hempty : ∀ i, e < i → i ≤ endIdx → d.gpaDir i = none) (hb : d.blockAt e = some b)
    (hc : d.blockAt k = some c) (hck : c.1 = k) :
    (∃ j, j ≤ endIdx ∧ c.1 + c.2 ≤ j ∧ (d.gpaDir j).isSome) ↔ k < b.1 := by
  obtain ⟨hbe, heb, -⟩ := h.block_spec hb
  obtain ⟨-, hkc, -⟩ := h.block_spec hc
  refine ⟨fun ⟨j, hj, hcj, hpop⟩ => ?_, fun hlt => ?_⟩
  · have hje : j ≤ e := by
      by_contra hlt
      rw [hempty j (not_le.mp hlt) hj] at hpop
      cases hpop
    by_contra hge
    -- the head would be a slot of the last block
    obtain rfl := h.block_eq hc hb (not_lt.mp hge) (by omega)
    omega
  · refine ⟨e, hle, ?_, h.isSome_of_block hb⟩
    by_contra hover
    obtain rfl := h.block_eq hb hc (by omega) (not_le.mp hover)
    omega

/-- A walk that starts behind its end asks for one block. -/
theorem ioLoop_behind {count : ℕ} {run : IoRun} (h : d.Inv) (hfresh : (blockLine h).Fresh idx)
    (hlt : stop < idx)
    (hrun : d.ioLoop block inner stop headsLen turns count idx = some run) :
    run.reads = d.headReads inner idx ∧ ∃ r, d.existHeadIn inner idx = some r := by
  cases turns with
  | zero => cases hrun
  | succ turns =>
      rw [ioLoop] at hrun
      cases hk : d.existHeadIn inner idx with
      | none => rw [hk] at hrun; cases hrun
      | some r =>
          simp only [hk] at hrun
          refine ⟨?_, r, rfl⟩
          cases r with
          | none =>
              obtain rfl := Option.some.inj hrun
              rfl
          | some k =>
              obtain ⟨b, hb, hbk, hin, -⟩ := getNextExistHead_block h (existHeadIn_eq h hk).symm
              have hge : idx ≤ k := by
                by_contra hno
                have hback := hfresh b ((h.block_spec hb).2.2 idx (by omega) hin)
                exact hno (hback.symm.trans hbk).le
              simp only [(hlt.trans_le hge).not_gt, if_false] at hrun
              obtain rfl := Option.some.inj hrun
              rfl

/-- From a start that leaves out no head of the range to the block of its last populated slot, the
loop marks the first blocks that can be marked. -/
theorem ioLoop_marks (block : ℕ → IoBlock) {n startIdx endIdx e : ℕ} {b : ℕ × ℕ} (h : d.Inv)
    (hn : ∀ idx r, d.backing.getGpadescRegion idx = some r → idx < n)
    (hturns : n + endIdx + 2 ≤ turns) (hroom : 0 < headsLen) (hfresh : (blockLine h).Fresh start)
    (hlow : startIdx ≤ start)
    (hbelow : ∀ k c, startIdx ≤ k → d.blockAt k = some c → c.1 = k → start ≤ k)
    (hle : e ≤ endIdx) (hempty : ∀ i, e < i → i ≤ endIdx → d.gpaDir i = none)
    (hb : d.blockAt e = some b) :
    ∃ run, d.ioLoop block turns b.1 headsLen turns 0 start = some run ∧
      ∀ k, k ∈ run.heads ↔ d.IoMarked block startIdx endIdx headsLen k := by
  have hbe := (h.block_spec hb).1
  obtain ⟨bs, hbs, hascending, hcomplete, hvisits⟩ :=
    gpaHeadsRange_blocks h hn (show n < turns by omega) (show b.1 < turns + start by omega)
      (by omega) (.inr (.inr hfresh))
  obtain ⟨run, hrun, hheads⟩ := ioLoop_heads block hroom hbs
  refine ⟨run, hrun, fun k => ?_⟩
  rw [hheads, Nat.sub_zero]
  refine mem_take_iff ((List.pairwise_map.mpr hascending).filter _) (fun k => ?_) headsLen k
  rw [List.mem_filter, markable_iff]
  refine ⟨fun ⟨hk, helig⟩ => ?_, fun ⟨hge, helig, c, hc, hck, hcover⟩ => ⟨?_, helig⟩⟩
  · obtain ⟨c, hcmem, rfl⟩ := List.mem_map.mp hk
    have hmeets := (hvisits (.inr hfresh)).meets c hcmem
    have hat : d.blockAt c.1 = some c := hmeets.at_first
    have hge : start ≤ c.1 := hfresh.le_first hmeets
    exact ⟨hlow.trans hge, helig, c, hat, rfl,
      (covered_iff h hle hempty hb hat rfl).mpr hmeets.first_lt⟩
  · have hlt := (covered_iff h hle hempty hb hc hck).mp hcover
    exact List.mem_map.mpr ⟨c, hcomplete c ⟨k, hbelow k c hge hc hck, hlt, hc⟩, hck⟩

/-- The slots that the loop over the heads reads: none behind the range, unless it starts behind
the range; then all are in front of a bound if a populated slot is. -/
theorem ioLoop_window {e endIdx count : ℕ} {b : ℕ × ℕ} {run : IoRun} (h : d.Inv)
    (hfresh : (blockLine h).Fresh start) (hle : e ≤ endIdx) (hpos : e = endIdx ∨ start < e)
    (hb : d.blockAt e = some b)
    (hrun : d.ioLoop block inner b.1 headsLen turns count start = some run) :
    (∀ i ∈ run.reads, start ≤ i) ∧ (start ≤ endIdx → ∀ i ∈ run.reads, i ≤ endIdx) ∧
      (endIdx < start → ∀ bound, bound ≤ d.backing.gpaLen → ((∀ i ∈ run.reads, i < bound) ↔
        ∃ q, start ≤ q ∧ q < bound ∧ (d.gpaDir q).isSome)) := by
  obtain ⟨hbe, heb, hall⟩ := h.block_spec hb
  have hself := hall b.1 le_rfl (by omega)
  rcases le_or_gt start b.1 with hin | hover
  · have hbfresh : (blockLine h).Fresh b.1 := fun c hc =>
      congrArg Prod.fst (h.block_eq hc hb le_rfl (by omega))
    have hreads := ioLoop_reads h (h.isSome_of_block hself) hbfresh hfresh hin hrun
    refine ⟨fun i hi => (hreads i hi).1, fun _ i hi => (hreads i hi).2.trans (hbe.trans hle), ?_⟩
    omega
  · have hbehind : e < start := by
      by_contra hin
      exact hover.ne (hfresh b (hall start hover.le (by omega)))
    obtain ⟨hreads, r, hr⟩ := ioLoop_behind h hfresh hover hrun
    rw [hreads]
    refine ⟨le_of_headReads h hfresh, by omega, fun _ bound hbound => ⟨fun hlt => ?_, ?_⟩⟩
    · obtain ⟨i, hi, hge, hpop⟩ := exists_headReads hr
      have hi' := hlt i hi
      exact ⟨i, hge, hi', hpop.resolve_right (by omega)⟩
    · rintro ⟨q, hge, hlt, hpop⟩ i hi
      exact (headReads_le h hfresh hpop hge i hi).trans_lt hlt

/-- The marking of an element: which blocks are marked, and how far the slots that are read go. -/
structure IoMarking (d : Directory) (block : ℕ → IoBlock) (startIdx endIdx headsLen : ℕ)
    (run : IoRun) : Prop where
  heads : ∀ k, k ∈ run.heads ↔ d.IoMarked block startIdx endIdx headsLen k
  first : startIdx ∈ run.reads
  low : ∀ i ∈ run.reads, startIdx ≤ i
  fit : ∀ bound, bound ≤ d.backing.gpaLen →
    ((∀ i ∈ run.reads, i < bound) ↔ d.ReadsFit startIdx endIdx bound)

theorem markIoBlocks_spec (h : d.Inv) (block : ℕ → IoBlock) (startIdx : ℕ) {len : ℕ}
    (hlen : 0 < len) (hroom : 0 < headsLen) :
    ∃ enough, ∀ turns, enough ≤ turns → ∃ run,
      d.markIoBlocks block startIdx len headsLen turns = some run ∧
        d.IoMarking block startIdx (startIdx + len) headsLen run := by
  obtain ⟨n, hn⟩ := exists_region_bound d.backing
  refine ⟨n + (startIdx + len) + 2, fun turns hturns => ?_⟩
  simp only [markIoBlocks]
  generalize hE : startIdx + len = endIdx at hturns ⊢
  have hnone : (∀ k, d.markable block startIdx endIdx k = false) → ∀ k,
      k ∈ ([] : List ℕ) ↔ d.IoMarked block startIdx endIdx headsLen k := fun hno k => by
    refine iff_of_false List.not_mem_nil fun hk => Bool.false_ne_true ((hno k).symm.trans hk.1)
  rcases ioFirst_spec (d := d) (show startIdx < endIdx by omega)
      (show endIdx ≤ startIdx + len by omega) with
    ⟨p, hle, hp, hpop, hempty, heq, hreads⟩ | ⟨hempty, heq, hreads⟩
  · generalize d.ioFirst endIdx len startIdx = first at heq hreads ⊢
    obtain ⟨reads, r⟩ := first
    simp only at heq hreads
    subst heq
    obtain ⟨b, hb⟩ := exists_block h hpop
    obtain ⟨hfresh, hbelow, hstart⟩ := ioStart_spec h hle hempty hb
    simp only [hb, Option.elim_some]
    generalize (if p = b.1 then p else b.1 + b.2) = start at hfresh hbelow hstart ⊢
    have hlow : startIdx ≤ start := by
      have hin := (h.block_spec hb).2.1
      omega
    rcases ioLast_spec d start endIdx with
      ⟨e, hele, hepos, hepop, hebehind, heq, hreads'⟩ | ⟨hbehind, heq, hreads'⟩
    · generalize d.ioLast start endIdx = last at heq hreads' ⊢
      obtain ⟨reads', r⟩ := last
      simp only at heq hreads'
      subst heq
      obtain ⟨c, hc⟩ := exists_block h hepop
      obtain ⟨run, hrun, hheads⟩ := ioLoop_marks block h hn (by omega) hroom hfresh hlow
        hbelow hele hebehind hc
      obtain ⟨hfrom, hwithin, hbeyond⟩ := ioLoop_window h hfresh hele hepos hc hrun
      simp only [hc, Option.elim_some, hrun, Option.map_some]
      refine ⟨_, rfl, hheads, ?_, fun i hi => ?_, fun bound hbound => ?_⟩
      · exact List.mem_append_left _ (List.mem_append_left _ ((hreads _).mpr ⟨le_rfl, hle⟩))
      · rcases List.mem_append.mp hi with hi | hi
        · rcases List.mem_append.mp hi with hi | hi
          · exact ((hreads i).mp hi).1
          · have := ((hreads' i).mp hi).1
            omega
        · exact hlow.trans (hfrom i hi)
      · have hover : endIdx < start → p = startIdx ∧ b.1 < startIdx ∧ start = b.1 + b.2 :=
          fun hlt => hstart.resolve_left (by omega)
        refine ⟨fun hall => ?_, fun hfit i hi => ?_⟩
        · have hlt := hall endIdx (List.mem_append_left _ (List.mem_append_right _
            ((hreads' _).mpr ⟨hele, le_rfl⟩)))
          refine ⟨hlt.le, fun _ _ _ _ => hlt, fun c₀ hc₀ hlow₀ hover₀ => ?_⟩
          have hfirst : p = startIdx := by
            by_contra hne
            have hpop₀ := h.isSome_of_block hc₀
            rw [hempty startIdx le_rfl (by omega)] at hpop₀
            cases hpop₀
          subst hfirst
          obtain rfl := Option.some.inj (hb.symm.trans hc₀)
          rcases hstart with rfl | ⟨-, -, rfl⟩
          · exact absurd (hfresh b hb) hlow₀.ne
          · exact (hbeyond hover₀ bound hbound).mp fun i hi =>
              hall i (List.mem_append_right _ hi)
        · have hlt := hfit.stop p hle hp hpop
          rcases List.mem_append.mp hi with hi | hi
          · rcases List.mem_append.mp hi with hi | hi
            · have := ((hreads i).mp hi).2
              omega
            · have := ((hreads' i).mp hi).2
              omega
          · rcases le_or_gt start endIdx with hin | hout
            · exact (hwithin hin i hi).trans_lt hlt
            · obtain ⟨rfl, hlow₀, rfl⟩ := hover hout
              exact (hbeyond hout bound hbound).mpr (hfit.overhang b hb hlow₀ hout) i hi
    · generalize d.ioLast start endIdx = last at heq hreads' ⊢
      obtain ⟨reads', r⟩ := last
      simp only at heq hreads'
      subst heq
      have hend : d.gpaDir endIdx = none := hbehind endIdx (.inl rfl) le_rfl
      refine ⟨_, rfl, hnone fun k => ?_, ?_, ?_, fun bound _ => ?_⟩
      · by_contra hk
        obtain ⟨hge, -, c, hc, hck, j, hj, hcj, hjpop⟩ := markable_iff.mp (by simpa using hk)
        have hpos := (h.block_spec hc).2.1
        have hk' := hbelow k c hge hc hck
        rw [hbehind j (.inr (by omega)) hj] at hjpop
        cases hjpop
      · exact List.mem_append_left _ ((hreads _).mpr ⟨le_rfl, hle⟩)
      · intro i hi
        rcases List.mem_append.mp hi with hi | hi
        · exact ((hreads i).mp hi).1
        · obtain ⟨hi, -⟩ := (hreads' i).mp hi
          omega
      · refine ⟨fun hall => ?_, fun hfit i hi => ?_⟩
        · have hlt := hall endIdx (List.mem_append_right _ ((hreads' _).mpr ⟨.inl rfl, le_rfl⟩))
          refine ⟨hlt.le, fun _ _ _ _ => hlt, fun c hc hlow' hover => ?_⟩
          -- the slot behind the range is empty
          have hin := (h.block_spec hc).2.2 endIdx (by omega) hover
          rw [(blockAt_eq_none h).mpr hend] at hin
          cases hin
        · have hlt := hfit.stop p hle hp hpop
          rcases List.mem_append.mp hi with hi | hi
          · have := ((hreads i).mp hi).2
            omega
          · have := ((hreads' i).mp hi).2
            omega
  · generalize d.ioFirst endIdx len startIdx = first at heq hreads ⊢
    obtain ⟨reads, r⟩ := first
    simp only at heq hreads
    subst heq
    refine ⟨_, rfl, hnone fun k => ?_, (hreads _).mpr ⟨le_rfl, by omega⟩,
      fun i hi => ((hreads i).mp hi).1, fun bound _ => ?_⟩
    · by_contra hk
      obtain ⟨hge, -, c, hc, hck, j, hj, hcj, -⟩ := markable_iff.mp (by simpa using hk)
      have hpos := (h.block_spec hc).2.1
      have hpop := h.isSome_of_block hc
      rw [hempty k hge (by omega)] at hpop
      cases hpop
    · refine ⟨fun hall => ?_, fun hfit i hi => ((hreads i).mp hi).2.trans_le hfit.range⟩
      have hlt := hall (endIdx - 1) ((hreads _).mpr ⟨by omega, by omega⟩)
      refine ⟨by omega, fun i hi hi' hpop => ?_, fun c hc => ?_⟩
      · rw [hempty i hi hi'] at hpop
        cases hpop
      · have hpop := h.isSome_of_block hc
        rw [hempty startIdx le_rfl (by omega)] at hpop
        cases hpop

end Directory

end Emp
