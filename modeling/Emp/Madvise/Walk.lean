import Emp.Madvise.Space

/-!
# The walks of madvise

The walkers of `emp_madvise.c` move an address and an index up together, through one vmr after
the other.  They differ in whether they populate a slot, and in what the handling of a block
returns: `emp_madv_pin` and `emp_madv_unpin` go on by the size of the block, whereas
`__emp_blk_prefetch`, `__emp_blk_prefetch_complete` and `__emp_blk_move_to_inactive` take off
what lies of the block in front of the cursor, unless a try for the lock has failed.

Addresses are page numbers.

## Main definitions

* `MadvSpace.madvWalk` — the two nested loops, with any handling of the blocks.
* `MadvSpace.Lossless` — the condition under which a walk comes upon all blocks of a range.
-/

namespace Emp

/-- What the handling of a block returns: the size of the block, what of it lies behind the
cursor, or an error. -/
inductive MadvMove
  | whole
  | rest
  | fail
  deriving DecidableEq, Repr

/-- The end of a walk: what the handling of the blocks has made of the state, the blocks in
their order, the address up to which the range has been dealt with, and whether an error is
returned. -/
structure MadvRun (σ : Type*) where
  state : σ
  visited : List MadvBlock
  stop : ℕ
  failed : Bool

namespace MadvSpace

variable {σ : Type*}

/-- The loops of a walker up to `addrEnd`: the one over the vmrs, and inside it, with the vmr
and the index, the one over the slots. -/
def madvWalk (s : MadvSpace) (populate : Bool) (visit : σ → MadvBlock → σ × MadvMove)
    (addrEnd : ℕ) : ℕ → Option (MadvVmr × ℕ) → ℕ → σ → Option (MadvRun σ)
  | 0, _, _, _ => none
  | turns + 1, none, addr, st =>
    if addr < addrEnd then
      match s.empVmrFindHva addr with
      | none => some ⟨st, [], addr, true⟩
      | some v => madvWalk s populate visit addrEnd turns (some (v, s.indexOf v.desc addr)) addr st
    else some ⟨st, [], addrEnd, false⟩
  | turns + 1, some (v, idx), addr, st =>
    if addr < min v.vmEnd addrEnd then
      match s.lookup populate v.desc idx with
      | none =>
        match (s.desc v.desc).backing.groupAt idx with
        | none => none
        | some (start, order) =>
          -- an empty group is skipped from its start on only
          let skip := if idx = start then 2 ^ (order - s.sbOrder) else 1
          madvWalk s populate visit addrEnd turns (some (v, idx + skip))
            (addr + skip * 2 ^ s.sbOrder) st
      | some b =>
        let rest := b.size - (idx - b.head)
        match visit st b with
        | (st', .fail) => some ⟨st', [b], min (addr + rest * 2 ^ s.sbOrder) addrEnd, true⟩
        | (st', .rest) =>
          (madvWalk s populate visit addrEnd turns (some (v, idx + rest))
            (addr + rest * 2 ^ s.sbOrder) st').map fun r => { r with visited := b :: r.visited }
        | (st', .whole) =>
          (madvWalk s populate visit addrEnd turns (some (v, idx + b.size))
            (addr + b.size * 2 ^ s.sbOrder) st').map fun r => { r with visited := b :: r.visited }
    else madvWalk s populate visit addrEnd turns none addr st

attribute [grind =] madvWalk

/-- The block has a page in the range. -/
def Touches (s : MadvSpace) (populate : Bool) (addr addrEnd : ℕ) (b : MadvBlock) : Prop :=
  ∃ p, addr ≤ p ∧ p < addrEnd ∧ s.blockAt populate p = some b

/-- The block has a page in the range with the offset in its subblock that the range's first
page has in its own. -/
def Probed (s : MadvSpace) (populate : Bool) (addr addrEnd : ℕ) (b : MadvBlock) : Prop :=
  ∃ p, addr ≤ p ∧ p < addrEnd ∧ p % 2 ^ s.sbOrder = addr % 2 ^ s.sbOrder ∧
    s.blockAt populate p = some b

/-- How many subblocks of the address space have their page at offset `r` below `addrEnd`. -/
def probesBelow (s : MadvSpace) (r addrEnd : ℕ) : ℕ :=
  (addrEnd + (2 ^ s.sbOrder - 1 - r)) / 2 ^ s.sbOrder

theorem offset_lt (s : MadvSpace) (addr : ℕ) : addr % 2 ^ s.sbOrder < 2 ^ s.sbOrder :=
  Nat.mod_lt _ (Nat.two_pow_pos _)

/-- The blocks that the walk from an address on can come upon. -/
def lineFrom {s : MadvSpace} (h : s.Inv) (populate : Bool) (addr : ℕ) : BlockLine MadvBlock :=
  s.probeLine h populate (s.offset_lt addr)

/-- Every block with a page in the range has one with the offset of the range's first page, and
the walk does not lag over the end of a block, nor over the end of the range in it. -/
def Lossless {s : MadvSpace} (h : s.Inv) (populate : Bool) (shift : MadvBlock → Bool)
    (addr addrEnd : ℕ) : Prop :=
  (∀ b, s.Touches populate addr addrEnd b → s.Probed populate addr addrEnd b) ∧
    (lineFrom h populate addr).Reached shift (addr / 2 ^ s.sbOrder)
      (s.probesBelow (addr % 2 ^ s.sbOrder) addrEnd)

variable {s : MadvSpace} {populate : Bool} {visit : σ → MadvBlock → σ × MadvMove}
  {shift : MadvBlock → Bool} {addr addrEnd c r turns z : ℕ} {b : MadvBlock} {st : σ}

theorem lt_probesBelow (hr : r < 2 ^ s.sbOrder) :
    c < s.probesBelow r z ↔ c * 2 ^ s.sbOrder + r < z := by
  rw [probesBelow, Nat.lt_iff_add_one_le, Nat.le_div_iff_mul_le (Nat.two_pow_pos _), Nat.add_mul,
    one_mul]
  omega

theorem probesBelow_self (hr : r < 2 ^ s.sbOrder) :
    s.probesBelow r (c * 2 ^ s.sbOrder + r) = c := by
  refine le_antisymm (le_of_not_gt fun h => ?_) (le_of_not_gt fun h => ?_)
  · have hlt := (lt_probesBelow hr).mp h
    omega
  · have hge : ¬ s.probesBelow r (c * 2 ^ s.sbOrder + r) <
        s.probesBelow r (c * 2 ^ s.sbOrder + r) := lt_irrefl _
    rw [lt_probesBelow hr] at hge
    have hmul := Nat.mul_lt_mul_of_pos_right h (Nat.two_pow_pos s.sbOrder)
    omega

theorem probesBelow_mono {z' : ℕ} (h : z ≤ z') : s.probesBelow r z ≤ s.probesBelow r z' :=
  Nat.div_le_div_right (Nat.add_le_add_right h _)

/-! ### One turn -/

variable {v : MadvVmr} {idx start order : ℕ}

/-- The block at the cursor, on the line. -/
theorem block_of_lookup (h : s.Inv) (hr : r < 2 ^ s.sbOrder) (hv : v ∈ s.vmrs)
    (hle : v.vmStart ≤ c * 2 ^ s.sbOrder + r) (hlt : c * 2 ^ s.sbOrder + r < v.vmEnd)
    (hidx : idx + (s.desc v.desc).backing.sbStart = c) :
    (s.probeLine h populate hr).block c = s.lookup populate v.desc idx := by
  obtain ⟨-, heq⟩ := h.indexOf_eq hv hr hle
  have hsub : c - (s.desc v.desc).backing.sbStart = idx := by omega
  change s.blockAt populate (c * 2 ^ s.sbOrder + r) = _
  rw [blockAt, h.find_eq hv hle hlt, Option.bind_some, heq, hsub]

/-- The slots of an empty group lie in the vmr, and no block runs over its end. -/
theorem skip_spec (h : s.Inv) (hr : r < 2 ^ s.sbOrder) (hv : v ∈ s.vmrs)
    (hle : v.vmStart ≤ c * 2 ^ s.sbOrder + r) (hlt : c * 2 ^ s.sbOrder + r < v.vmEnd)
    (hidx : idx + (s.desc v.desc).backing.sbStart = c)
    (hnone : s.lookup populate v.desc idx = none)
    (hat : (s.desc v.desc).backing.groupAt idx = some (start, order)) {skip : ℕ}
    (hskip : skip = if idx = start then 2 ^ (order - s.sbOrder) else 1) :
    0 < skip ∧ (∀ i, c ≤ i → i < c + skip → (s.probeLine h populate hr).block i = none) ∧
      (s.probeLine h populate hr).Fresh (c + skip) := by
  have hpos := Nat.two_pow_pos (order - s.sbOrder)
  have hone : (s.probeLine h populate hr).block c = none :=
    (block_of_lookup h hr hv hle hlt hidx).trans hnone
  have hempty : ∀ i, c ≤ i → i < c + skip → (s.probeLine h populate hr).block i = none := by
    intro i hci hi
    by_cases hic : i = c
    · rw [hic]
      exact hone
    · -- more than one slot is skipped: the whole group
      have hstart : idx = start := by
        by_contra hne
        rw [if_neg hne] at hskip
        omega
      rw [if_pos hstart] at hskip
      have hlen := h.indexOf_lt hv hle hlt
      obtain ⟨-, heq⟩ := h.indexOf_eq hv hr hle
      have hsub : c - (s.desc v.desc).backing.sbStart = idx := by omega
      rw [heq, hsub] at hlen
      obtain rfl : populate = false := by
        by_contra hpop
        rw [lookup, if_pos (Bool.not_eq_false _ ▸ hpop), Option.map_eq_none_iff,
          Directory.populatedBlockAt, hat] at hnone
        split at hnone <;> cases hnone
      have hfree : (s.desc v.desc).blockAt idx = none := by simpa [lookup] using hnone
      have hgroup : s.lookup true v.desc (s.indexOf v.desc (c * 2 ^ s.sbOrder + r)) =
          some ⟨v.desc, start, 2 ^ (order - s.sbOrder)⟩ := by
        rw [heq, hsub, lookup, if_pos rfl, Directory.populatedBlockAt, hfree]
        simp only [hat, Option.map_some, h.sbOrder v hv]
      obtain ⟨hlow, hhigh⟩ := h.whole hv hle hlt hgroup (by simp only; omega)
      rw [h.hva_eq hv] at hlow hhigh
      simp only at hlow hhigh
      have hmul := Nat.mul_le_mul_right (2 ^ s.sbOrder) hci
      have hmul' : (i + 1) * 2 ^ s.sbOrder ≤ ((s.desc v.desc).backing.sbStart +
          (start + 2 ^ (order - s.sbOrder))) * 2 ^ s.sbOrder := Nat.mul_le_mul_right _ (by omega)
      rw [Nat.add_mul, one_mul] at hmul'
      have hi' : (s.probeLine h false hr).block i =
          s.lookup false v.desc (i - (s.desc v.desc).backing.sbStart) :=
        block_of_lookup h hr hv (by omega) (by omega) (by omega)
      have hslot : (s.desc v.desc).gpaDir (i - (s.desc v.desc).backing.sbStart) = none := by
        refine (h.desc v hv).empty hat hlen
          ((Directory.blockAt_eq_none (h.desc v hv)).mp hfree) ?_ ?_
        · omega
        · rw [h.sbOrder v hv]
          omega
      rw [hi', lookup, if_neg Bool.false_ne_true,
        (Directory.blockAt_eq_none (h.desc v hv)).mpr hslot, Option.map_none]
  have hskippos : 0 < skip := by
    rw [hskip]
    split_ifs <;> omega
  refine ⟨hskippos, hempty, ?_⟩
  have hlast := BlockLine.fresh_succ (hempty (c + skip - 1) (by omega) (by omega))
  rwa [Nat.sub_add_cancel (by omega)] at hlast

/-! ### The walk -/

/-- The vmr and the index that the inner loop has at a page. -/
def AtPage (s : MadvSpace) (cur : Option (MadvVmr × ℕ)) (c r : ℕ) : Prop :=
  ∀ v idx, cur = some (v, idx) → v ∈ s.vmrs ∧ v.vmStart ≤ c * 2 ^ s.sbOrder + r ∧
    idx + (s.desc v.desc).backing.sbStart = c

/-- The turns that are enough: between two slots there are the ends of two loops at most. -/
def turnsFor (addrEnd : ℕ) (cur : Option (MadvVmr × ℕ)) (addr : ℕ) : ℕ :=
  3 * (addrEnd - addr) + match cur with
    | none => 2
    | some (v, _) => if addr < min v.vmEnd addrEnd then 1 else 3

/-- What a walk from subblock `c` of the address space on has done at its end. -/
structure Swept {s : MadvSpace} (h : s.Inv) (populate : Bool) (hr : r < 2 ^ s.sbOrder)
    (shift : MadvBlock → Bool) (addrEnd c : ℕ) (run : MadvRun σ) : Prop where
  stop_le : run.stop ≤ addrEnd
  ended : run.failed = false → run.stop = addrEnd
  le_stop : c * 2 ^ s.sbOrder + r ≤ run.stop ∨ run.stop = addrEnd
  visits : (s.probeLine h populate hr).Visits c (s.probesBelow r run.stop) run.visited
  complete : (s.probeLine h populate hr).Complete c (s.probesBelow r run.stop) run.visited ↔
    (s.probeLine h populate hr).Reached shift c (s.probesBelow r run.stop)

theorem Swept.skip {h : s.Inv} {hr : r < 2 ^ s.sbOrder} {run : MadvRun σ} {skip : ℕ}
    (hpos : 0 < skip)
    (hempty : ∀ i, c ≤ i → i < c + skip → (s.probeLine h populate hr).block i = none)
    (hfresh : (s.probeLine h populate hr).Fresh (c + skip))
    (hrest : Swept h populate hr shift addrEnd (c + skip) run) :
    Swept h populate hr shift addrEnd c run := by
  obtain ⟨hstop, hended, hle, hvisits, hcomplete⟩ := hrest
  refine ⟨hstop, hended, hle.imp_left fun hle => le_trans ?_ hle, hvisits.mono (by omega),
    BlockLine.complete_skip_iff hempty (by omega) hfresh hcomplete⟩
  exact Nat.add_le_add_right (Nat.mul_le_mul_right _ (by omega)) _

theorem Swept.cons {h : s.Inv} {hr : r < 2 ^ s.sbOrder} {run : MadvRun σ}
    (hb : (s.probeLine h populate hr).block c = some b) (hlt : c * 2 ^ s.sbOrder + r < addrEnd)
    (hrest : Swept h populate hr shift addrEnd ((s.probeLine h populate hr).leave shift c b) run) :
    Swept h populate hr shift addrEnd c { run with visited := b :: run.visited } := by
  obtain ⟨hstop, hended, hle, hvisits, hcomplete⟩ := hrest
  have hin := (s.probeLine h populate hr).inside hb
  have hleave : (s.probeLine h populate hr).first b + (s.probeLine h populate hr).size b ≤
      (s.probeLine h populate hr).leave shift c b := BlockLine.le_leave hb
  have hahead : c * 2 ^ s.sbOrder + r < run.stop := by
    rcases hle with hle | heq
    · refine lt_of_lt_of_le (Nat.add_lt_add_right ?_ r) hle
      exact Nat.mul_lt_mul_of_pos_right (by omega) (Nat.two_pow_pos _)
    · exact heq ▸ hlt
  have hcz : c < s.probesBelow r run.stop := (lt_probesBelow hr).mpr hahead
  refine ⟨hstop, hended, .inl hahead.le, hvisits.cons hb hcz hleave, ?_⟩
  rcases Nat.lt_or_ge ((s.probeLine h populate hr).leave shift c b)
    (s.probesBelow r run.stop) with hmore | hlast
  · exact BlockLine.complete_cons_iff hb hmore hvisits hcomplete
  · have hnil : run.visited = [] := by
      refine List.eq_nil_iff_forall_not_mem.mpr fun d hd => ?_
      obtain ⟨i, hi, hi', -⟩ := hvisits.meets d hd
      omega
    simp only [hnil]
    exact BlockLine.complete_singleton_iff hb hcz hlast

/-- An error in the handling of a block ends the walk behind the block. -/
theorem Swept.last {h : s.Inv} {hr : r < 2 ^ s.sbOrder}
    (hb : (s.probeLine h populate hr).block c = some b) (hlt : c * 2 ^ s.sbOrder + r < addrEnd)
    (hnot : shift b = false) (st : σ) :
    Swept h populate hr shift addrEnd c
      ⟨st, [b], min ((s.firstOf b + b.size) * 2 ^ s.sbOrder + r) addrEnd, true⟩ := by
  have hin : s.firstOf b ≤ c ∧ c < s.firstOf b + b.size := (s.probeLine h populate hr).inside hb
  have hahead : c * 2 ^ s.sbOrder + r <
      min ((s.firstOf b + b.size) * 2 ^ s.sbOrder + r) addrEnd := by
    refine lt_min (Nat.add_lt_add_right ?_ r) hlt
    exact Nat.mul_lt_mul_of_pos_right hin.2 (Nat.two_pow_pos _)
  have hcz := (lt_probesBelow hr).mpr hahead
  have hbehind : s.probesBelow r (min ((s.firstOf b + b.size) * 2 ^ s.sbOrder + r) addrEnd) ≤
      s.firstOf b + b.size := by
    refine (probesBelow_mono (min_le_left _ _)).trans (probesBelow_self hr).le
  have hleave : (s.probeLine h populate hr).leave shift c b = s.firstOf b + b.size := by
    rw [BlockLine.leave, hnot, if_neg Bool.false_ne_true]
    rfl
  refine ⟨min_le_right _ _, fun hf => absurd hf.symm Bool.false_ne_true, .inl hahead.le,
    BlockLine.Visits.singleton hb hcz, ?_⟩
  exact BlockLine.complete_singleton_iff hb hcz (hleave ▸ hbehind)

/-- With enough turns a walk ends, with the visits of a sweep over the line. -/
theorem madvWalk_swept (h : s.Inv) (hr : r < 2 ^ s.sbOrder)
    (hshift : ∀ st b, (visit st b).2 = .whole ↔ shift b = true) {cur : Option (MadvVmr × ℕ)}
    (hcur : s.AtPage cur c r) (hturns : turnsFor addrEnd cur (c * 2 ^ s.sbOrder + r) ≤ turns) :
    ∃ run, s.madvWalk populate visit addrEnd turns cur (c * 2 ^ s.sbOrder + r) st = some run ∧
      Swept h populate hr shift addrEnd c run := by
  have hm := Nat.two_pow_pos s.sbOrder
  induction turns generalizing cur c st with
  | zero =>
      simp only [turnsFor] at hturns
      split at hturns
      · omega
      · split_ifs at hturns <;> omega
  | succ turns ih =>
      cases cur with
      | none =>
          rw [madvWalk]
          by_cases hlt : c * 2 ^ s.sbOrder + r < addrEnd
          · rw [if_pos hlt]
            cases hfind : s.empVmrFindHva (c * 2 ^ s.sbOrder + r) with
            | none =>
                refine ⟨_, rfl, hlt.le, fun hf => ?_, .inl le_rfl, ?_, ?_⟩
                · cases hf
                · exact BlockLine.visits_nil _ _
                · refine BlockLine.complete_nil_iff fun i hi hi' => ?_
                  rw [probesBelow_self hr] at hi'
                  omega
            | some v =>
                obtain ⟨hv, hle, hend⟩ := mem_of_find hfind
                obtain ⟨hstart, hidx⟩ := h.indexOf_eq hv hr hle
                have hpage : s.AtPage
                    (some (v, s.indexOf v.desc (c * 2 ^ s.sbOrder + r))) c r := by
                  rintro w idx hw
                  obtain ⟨rfl, rfl⟩ := Prod.mk.inj (Option.some.inj hw)
                  exact ⟨hv, hle, by omega⟩
                refine ih hpage ?_
                simp only [turnsFor] at hturns ⊢
                rw [if_pos (lt_min hend hlt)]
                omega
          · rw [if_neg hlt]
            refine ⟨_, rfl, le_rfl, fun _ => rfl, .inr rfl, BlockLine.visits_nil _ _, ?_⟩
            refine BlockLine.complete_nil_iff fun i hi hi' => ?_
            have hi'' : i * 2 ^ s.sbOrder + r < addrEnd := (lt_probesBelow hr).mp hi'
            have hmul := Nat.mul_le_mul_right (2 ^ s.sbOrder) hi
            omega
      | some cur =>
          obtain ⟨v, idx⟩ := cur
          obtain ⟨hv, hle, hidx⟩ := hcur v idx rfl
          rw [madvWalk]
          by_cases hlt : c * 2 ^ s.sbOrder + r < min v.vmEnd addrEnd
          · rw [if_pos hlt]
            obtain ⟨hend, haddr⟩ := lt_min_iff.mp hlt
            have hblock : (s.probeLine h populate hr).block c = s.lookup populate v.desc idx :=
              block_of_lookup h hr hv hle hend hidx
            have hlen := h.indexOf_lt hv hle hend
            rw [(h.indexOf_eq hv hr hle).2] at hlen
            -- the turn that moves the cursor up by `n` subblocks
            have hmove : ∀ n, 0 < n → ∀ st', ∃ run, s.madvWalk populate visit addrEnd turns
                (some (v, idx + n)) (c * 2 ^ s.sbOrder + r + n * 2 ^ s.sbOrder) st' = some run ∧
                  Swept h populate hr shift addrEnd (c + n) run := by
              intro n hn st'
              have hpage : c * 2 ^ s.sbOrder + r + n * 2 ^ s.sbOrder =
                  (c + n) * 2 ^ s.sbOrder + r := by
                rw [Nat.add_mul]
                omega
              have hstep : 2 ^ s.sbOrder ≤ n * 2 ^ s.sbOrder := Nat.le_mul_of_pos_left _ hn
              rw [hpage]
              refine ih ?_ ?_
              · rintro w j hw
                obtain ⟨rfl, rfl⟩ := Prod.mk.inj (Option.some.inj hw)
                refine ⟨hv, by omega, by omega⟩
              · rw [← hpage]
                simp only [turnsFor, if_pos hlt] at hturns ⊢
                split_ifs <;> omega
            cases hlook : s.lookup populate v.desc idx with
            | none =>
                have hin : idx < (s.desc v.desc).backing.gpaLen := by omega
                obtain ⟨start, order, hat, -⟩ := Backing.groupAt_spec (h.desc v hv).valid hin
                obtain ⟨hpos, hempty, hfresh⟩ := skip_spec h hr hv hle hend hidx hlook hat rfl
                obtain ⟨run, hrun, hswept⟩ := hmove _ hpos st
                simp only [hat]
                exact ⟨run, hrun, hswept.skip hpos hempty hfresh⟩
            | some b =>
                rw [hlook] at hblock
                obtain ⟨hin, hin', -⟩ := lookup_run (h.desc v hv) (by omega) hlook
                have hfirst : s.firstOf b = (s.desc v.desc).backing.sbStart + b.head := by
                  rw [firstOf, (lookup_eq hlook).1]
                have hshiftb := hshift st b
                cases hvisit : visit st b with
                | mk st' move =>
                    rw [hvisit] at hshiftb
                    cases move with
                    | fail =>
                        have hnot : shift b = false := by simpa using hshiftb
                        have hpage : c * 2 ^ s.sbOrder + r +
                            (b.size - (idx - b.head)) * 2 ^ s.sbOrder =
                              (s.firstOf b + b.size) * 2 ^ s.sbOrder + r := by
                          have hsum : s.firstOf b + b.size = c + (b.size - (idx - b.head)) := by
                            omega
                          rw [hsum, Nat.add_mul]
                          omega
                        simp only [hvisit, hpage]
                        exact ⟨_, rfl, Swept.last hblock haddr hnot st'⟩
                    | rest =>
                        have hnot : shift b = false := by simpa using hshiftb
                        have hleave : (s.probeLine h populate hr).leave shift c b =
                            c + (b.size - (idx - b.head)) := by
                          rw [BlockLine.leave, hnot, if_neg Bool.false_ne_true]
                          change s.firstOf b + b.size = _
                          omega
                        obtain ⟨run, hrun, hswept⟩ :=
                          hmove (b.size - (idx - b.head)) (by omega) st'
                        rw [← hleave] at hswept
                        exact ⟨_, by simp only [hvisit, hrun, Option.map_some],
                          hswept.cons hblock haddr⟩
                    | whole =>
                        have hyes : shift b = true := hshiftb.mp rfl
                        have hleave : (s.probeLine h populate hr).leave shift c b = c + b.size := by
                          rw [BlockLine.leave, hyes, if_pos rfl]
                          rfl
                        obtain ⟨run, hrun, hswept⟩ := hmove b.size (by omega) st'
                        rw [← hleave] at hswept
                        exact ⟨_, by simp only [hvisit, hrun, Option.map_some],
                          hswept.cons hblock haddr⟩
          · rw [if_neg hlt]
            refine ih (fun w idx hw => absurd hw.symm (Option.some_ne_none _)) ?_
            simp only [turnsFor, if_neg hlt] at hturns ⊢
            omega

/-! ### The state, and walks into unmapped addresses -/

/-- What every block that returns no error keeps, a walk keeps; a walk that fails ends with what
it keeps, or with what a block that returns an error leaves. -/
theorem madvWalk_invariant {P Q : σ → Prop}
    (hkeep : ∀ st b, P st → (visit st b).2 ≠ .fail → P (visit st b).1)
    (hfail : ∀ st b, P st → (visit st b).2 = .fail → Q (visit st b).1)
    {cur : Option (MadvVmr × ℕ)} {run : MadvRun σ} (hst : P st)
    (hrun : s.madvWalk populate visit addrEnd turns cur addr st = some run) :
    (run.failed = false → P run.state) ∧ (run.failed = true → P run.state ∨ Q run.state) := by
  induction turns generalizing cur addr st run with
  | zero => cases hrun
  | succ turns ih =>
      cases cur with
      | none =>
          rw [madvWalk] at hrun
          split at hrun
          · split at hrun
            · obtain rfl := Option.some.inj hrun
              exact ⟨fun _ => hst, fun _ => .inl hst⟩
            · exact ih hst hrun
          · obtain rfl := Option.some.inj hrun
            exact ⟨fun _ => hst, fun _ => .inl hst⟩
      | some cur =>
          obtain ⟨v, idx⟩ := cur
          rw [madvWalk] at hrun
          split at hrun
          · cases hlook : s.lookup populate v.desc idx with
            | none =>
                simp only [hlook] at hrun
                split at hrun
                · cases hrun
                · exact ih hst hrun
            | some b =>
                have hkeepb := hkeep st b hst
                have hfailb := hfail st b hst
                simp only [hlook] at hrun
                cases hvisit : visit st b with
                | mk st' move =>
                    rw [hvisit] at hkeepb hfailb
                    cases move with
                    | fail =>
                        simp only [hvisit, Option.some.injEq] at hrun
                        subst hrun
                        exact ⟨fun hf => (nomatch hf), fun _ => .inr (hfailb rfl)⟩
                    | rest =>
                        simp only [hvisit] at hrun
                        obtain ⟨run', hrun', rfl⟩ := Option.map_eq_some_iff.mp hrun
                        have hinv := ih (hkeepb nofun) hrun'
                        exact hinv
                    | whole =>
                        simp only [hvisit] at hrun
                        obtain ⟨run', hrun', rfl⟩ := Option.map_eq_some_iff.mp hrun
                        have hinv := ih (hkeepb nofun) hrun'
                        exact hinv
          · exact ih hst hrun

/-- A block does not reach far. -/
theorem size_le (h : s.Inv) (hv : v ∈ s.vmrs) (hle : v.vmStart ≤ addr) (hlt : addr < v.vmEnd)
    (hb : s.lookup populate v.desc (s.indexOf v.desc addr) = some b) :
    b.size * 2 ^ s.sbOrder ≤ 2 ^ 44 := by
  have huser := h.user v hv
  by_cases hsize : b.size = 1
  · obtain ⟨hsb, hmax⟩ := (h.desc v hv).valid
    rw [h.sbOrder v hv] at hsb
    rw [hsize, one_mul]
    exact Nat.pow_le_pow_right (by omega) ((hsb.trans hmax).trans (by decide))
  · obtain ⟨hlow, hhigh⟩ := h.whole hv hle hlt hb hsize
    rw [h.hva_eq hv] at hlow hhigh
    rw [← Nat.add_assoc, Nat.add_mul _ b.size] at hhigh
    omega

theorem skip_le (h : s.Inv) (hv : v ∈ s.vmrs)
    (hat : (s.desc v.desc).backing.groupAt idx = some (start, order)) :
    (if idx = start then 2 ^ (order - s.sbOrder) else 1) * 2 ^ s.sbOrder ≤ 2 ^ 44 := by
  obtain ⟨hsb, hmax⟩ := (h.desc v hv).valid
  obtain ⟨q, hq, rfl, -⟩ := Backing.exists_region_of_groupAt hat
  obtain ⟨hlow, hhigh⟩ := Backing.allocOrder_bounds (h.desc v hv).valid hq
  rw [h.sbOrder v hv] at hsb hlow
  have hnine : q.allocOrder ≤ 44 := (hhigh.trans hmax).trans (by decide)
  split_ifs
  · rw [← pow_add, Nat.sub_add_cancel hlow]
    exact Nat.pow_le_pow_right (by omega) hnine
  · rw [one_mul]
    exact Nat.pow_le_pow_right (by omega) (hlow.trans hnine)

/-- A walk that is to go beyond the user addresses fails. -/
theorem failed_of_far (h : s.Inv) (hr : r < 2 ^ s.sbOrder) (hfar : 2 ^ 51 ≤ addrEnd)
    {cur : Option (MadvVmr × ℕ)} {run : MadvRun σ} (hcur : s.AtPage cur c r)
    (hlt : c * 2 ^ s.sbOrder + r < addrEnd)
    (hrun : s.madvWalk populate visit addrEnd turns cur (c * 2 ^ s.sbOrder + r) st = some run) :
    run.failed = true := by
  induction turns generalizing cur c st run with
  | zero => cases hrun
  | succ turns ih =>
      cases cur with
      | none =>
          rw [madvWalk, if_pos hlt] at hrun
          cases hfind : s.empVmrFindHva (c * 2 ^ s.sbOrder + r) with
          | none =>
              simp only [hfind, Option.some.injEq] at hrun
              rw [← hrun]
          | some v =>
              obtain ⟨hv, hle, -⟩ := mem_of_find hfind
              obtain ⟨hstart, hidx⟩ := h.indexOf_eq hv hr hle
              simp only [hfind] at hrun
              refine ih ?_ hlt hrun
              rintro w idx hw
              obtain ⟨rfl, rfl⟩ := Prod.mk.inj (Option.some.inj hw)
              exact ⟨hv, hle, by omega⟩
      | some cur =>
          obtain ⟨v, idx⟩ := cur
          obtain ⟨hv, hle, hidx⟩ := hcur v idx rfl
          rw [madvWalk] at hrun
          split at hrun
          · rename_i hin
            obtain ⟨hend, -⟩ := lt_min_iff.mp hin
            have huser := h.user v hv
            obtain ⟨hstart, hindex⟩ := h.indexOf_eq hv hr hle
            have hpage : s.indexOf v.desc (c * 2 ^ s.sbOrder + r) = idx := by omega
            -- a turn that does not go far stays in front of the end
            have hnext : ∀ n st' run', n * 2 ^ s.sbOrder ≤ 2 ^ 44 →
                s.madvWalk populate visit addrEnd turns (some (v, idx + n))
                  (c * 2 ^ s.sbOrder + r + n * 2 ^ s.sbOrder) st' = some run' →
                    run'.failed = true := by
              intro n st' run' hn hrun'
              have hsum : c * 2 ^ s.sbOrder + r + n * 2 ^ s.sbOrder =
                  (c + n) * 2 ^ s.sbOrder + r := by
                rw [Nat.add_mul]
                omega
              rw [hsum] at hrun'
              refine ih ?_ (by omega) hrun'
              rintro w j hw
              obtain ⟨rfl, rfl⟩ := Prod.mk.inj (Option.some.inj hw)
              exact ⟨hv, by omega, by omega⟩
            cases hlook : s.lookup populate v.desc idx with
            | none =>
                simp only [hlook] at hrun
                split at hrun
                · cases hrun
                · rename_i start order hat
                  exact hnext _ _ run (skip_le h hv hat) hrun
            | some b =>
                have hsize := size_le h hv hle hend (hpage ▸ hlook)
                have hrest : (b.size - (idx - b.head)) * 2 ^ s.sbOrder ≤ 2 ^ 44 :=
                  (Nat.mul_le_mul_right _ (Nat.sub_le ..)).trans hsize
                simp only [hlook] at hrun
                split at hrun
                · obtain rfl := Option.some.inj hrun
                  rfl
                · obtain ⟨run', hrun', rfl⟩ := Option.map_eq_some_iff.mp hrun
                  exact hnext _ _ run' hrest hrun'
                · obtain ⟨run', hrun', rfl⟩ := Option.map_eq_some_iff.mp hrun
                  exact hnext _ _ run' hsize hrun'
          · have hnone : s.AtPage none c r := fun w j hw => (nomatch hw)
            exact ih hnone hlt hrun

/-! ### Walks of a single page -/

theorem madvWalk_none_end (hend : addrEnd ≤ addr) :
    s.madvWalk populate visit addrEnd (turns + 1) none addr st =
      some ⟨st, [], addrEnd, false⟩ := by
  rw [madvWalk, if_neg (not_lt.mpr hend)]

theorem madvWalk_end (hend : addrEnd ≤ addr) :
    s.madvWalk populate visit addrEnd (turns + 2) (some (v, idx)) addr st =
      some ⟨st, [], addrEnd, false⟩ := by
  have hmin : ¬ addr < min v.vmEnd addrEnd := fun hlt => by
    have hlt' := (lt_min_iff.mp hlt).2
    omega
  rw [madvWalk, if_neg hmin, madvWalk_none_end hend]

/-- A walk over one page fails without a vmr, leaves the state without a block, and handles the
block of the page else. -/
theorem madvWalk_page (h : s.Inv) {run : MadvRun σ}
    (hrun : s.madvWalk populate visit (addr + 1) (turns + 4) none addr st = some run) :
    (s.empVmrFindHva addr = none ∧ run.failed = true) ∨
      (s.empVmrFindHva addr ≠ none ∧ s.blockAt populate addr = none ∧ run.failed = false ∧
        run.state = st) ∨
      ∃ b, s.blockAt populate addr = some b ∧ run.state = (visit st b).1 ∧
        (run.failed = true ↔ (visit st b).2 = .fail) := by
  have hm := Nat.two_pow_pos s.sbOrder
  rw [madvWalk, if_pos (Nat.lt_succ_self addr)] at hrun
  cases hfind : s.empVmrFindHva addr with
  | none =>
      simp only [hfind, Option.some.injEq] at hrun
      exact .inl ⟨rfl, hrun ▸ rfl⟩
  | some v =>
      obtain ⟨hv, hle, hlt⟩ := mem_of_find hfind
      have hlen := h.indexOf_lt hv hle hlt
      have hat : s.blockAt populate addr = s.lookup populate v.desc (s.indexOf v.desc addr) := by
        rw [blockAt, hfind, Option.bind_some]
      simp only [hfind] at hrun
      rw [madvWalk, if_pos (lt_min hlt (Nat.lt_succ_self addr))] at hrun
      refine .inr ?_
      rw [hat]
      cases hlook : s.lookup populate v.desc (s.indexOf v.desc addr) with
      | none =>
          obtain ⟨start, order, hgroup, -⟩ := Backing.groupAt_spec (h.desc v hv).valid hlen
          simp only [hlook, hgroup] at hrun
          have hskip : 0 < (if s.indexOf v.desc addr = start then 2 ^ (order - s.sbOrder) else 1) *
              2 ^ s.sbOrder := by
            refine Nat.mul_pos ?_ hm
            split_ifs
            · exact Nat.two_pow_pos _
            · exact Nat.one_pos
          rw [madvWalk_end (by omega)] at hrun
          obtain rfl := Option.some.inj hrun
          exact .inl ⟨by simp, rfl, rfl, rfl⟩
      | some b =>
          obtain ⟨hin, hin', -⟩ := lookup_run (h.desc v hv) hlen hlook
          have hpos : ∀ n, 0 < n → addr + 1 ≤ addr + n * 2 ^ s.sbOrder := fun n hn => by
            have hmul := Nat.le_mul_of_pos_left (2 ^ s.sbOrder) hn
            omega
          simp only [hlook] at hrun
          refine .inr ⟨b, rfl, ?_⟩
          cases hvisit : visit st b with
          | mk st' move =>
              cases move with
              | fail =>
                  simp only [hvisit, Option.some.injEq] at hrun
                  subst hrun
                  exact ⟨rfl, iff_of_true rfl rfl⟩
              | rest =>
                  simp only [hvisit] at hrun
                  rw [madvWalk_end (hpos _ (by omega)), Option.map_some] at hrun
                  obtain rfl := Option.some.inj hrun
                  exact ⟨rfl, iff_of_false (by simp) (by simp)⟩
              | whole =>
                  simp only [hvisit] at hrun
                  rw [madvWalk_end (hpos _ (by omega)), Option.map_some] at hrun
                  obtain rfl := Option.some.inj hrun
                  exact ⟨rfl, iff_of_false (by simp) (by simp)⟩

end MadvSpace

end Emp
