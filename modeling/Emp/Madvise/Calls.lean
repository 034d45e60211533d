import Emp.Madvise.Walk

/-!
# Which blocks a madvise call comes upon

The calls round the address down to its page and walk up to the end of the range, in 64-bit
arithmetic.

## Main definitions

* `MadvCall`, `MadvCall.walk` — the walkers, with what the handling of a block returns.
* `MadvCall.Exact` — the blocks of a range are visited, no others, and each once.
* `MadvCall.Covered` — the condition on the range for that.
-/

namespace Emp

/-- The walkers of `emp_madvise.c`. -/
inductive MadvCall
  | empMadvPin
  | empMadvUnpin
  | empBlkPrefetch
  | empBlkPrefetchComplete
  | empBlkMoveToInactive
  deriving DecidableEq, Repr

/-- The blocks that other actors have locked when their turn comes, and those for which the fetch,
or the flush of the batch, reports an error. -/
structure MadvLuck where
  busy : MadvBlock → Bool
  fails : MadvBlock → Bool

namespace MadvCall

variable {σ : Type*} (call : MadvCall) (luck : MadvLuck) (s : MadvSpace)

/-- `emp_madv_pin` looks slots up with `get_gpadesc`, the others with `raw_get_gpadesc`. -/
def populates : Bool := call == .empMadvPin

/-- What the handling of a block returns. -/
def move (b : MadvBlock) : MadvMove :=
  match call with
  | .empMadvPin => .whole
  | .empMadvUnpin => .whole
  | .empBlkPrefetch => if luck.busy b then .whole else if luck.fails b then .fail else .rest
  | .empBlkPrefetchComplete => if luck.fails b then .fail else .rest
  | .empBlkMoveToInactive => if luck.busy b then .whole else if luck.fails b then .fail else .rest

/-- The blocks that the walk leaves by their whole size. -/
def shift (b : MadvBlock) : Bool := call.move luck b == .whole

/-- The page behind the range: its address is the first not below `addr_end`. -/
def addrEnd (addr size : ℕ) : ℕ := ((addr + size) % 2 ^ 64 + 4095) / 4096

/-- The walk of a call over a range of bytes; `handle` is what it makes of the blocks. -/
def walk (handle : σ → MadvBlock → σ) (addr size turns : ℕ) (st : σ) : Option (MadvRun σ) :=
  s.madvWalk call.populates (fun st b => (handle st b, call.move luck b)) (addrEnd addr size) turns
    none (addr / 4096) st

/-- The block has a byte in the range. -/
def Intersects (addr size : ℕ) (b : MadvBlock) : Prop :=
  ∃ x, addr ≤ x ∧ x < addr + size ∧ s.blockAt call.populates (x / 4096) = some b

/-- Every block with a byte in the range is visited, no other is, and each once. -/
structure Exact (addr size : ℕ) (visited : List MadvBlock) : Prop where
  nodup : visited.Nodup
  mem : ∀ b, b ∈ visited ↔ call.Intersects s addr size b

/-- An empty range does not start inside a page with a block, and no block of the range is
lost. -/
def Covered {s : MadvSpace} (h : s.Inv) (addr size : ℕ) : Prop :=
  (size = 0 → addr % 4096 = 0 ∨ ∀ b, s.blockAt call.populates (addr / 4096) ≠ some b) ∧
    MadvSpace.Lossless h call.populates (call.shift luck) (addr / 4096) (addrEnd addr size)

end MadvCall

namespace MadvSpace

variable {σ : Type*} {s : MadvSpace} {populate : Bool} {shift : MadvBlock → Bool}
  {addr addrEnd z : ℕ} {b : MadvBlock}

theorem meets_iff_probed (h : s.Inv) : (lineFrom h populate addr).Meets (addr / 2 ^ s.sbOrder)
    (s.probesBelow (addr % 2 ^ s.sbOrder) z) b ↔ s.Probed populate addr z b := by
  have hm := Nat.two_pow_pos s.sbOrder
  have hr := s.offset_lt addr
  have hdiv := Nat.div_add_mod' addr (2 ^ s.sbOrder)
  refine ⟨?_, ?_⟩
  · rintro ⟨i, hi, hiz, hb⟩
    have hmul := Nat.mul_le_mul_right (2 ^ s.sbOrder) hi
    refine ⟨_, by omega, (lt_probesBelow hr).mp hiz, ?_, hb⟩
    rw [Nat.mul_add_mod', Nat.mod_mod]
  · rintro ⟨p, hp, hpz, hmod, hb⟩
    have hpdiv := Nat.div_add_mod' p (2 ^ s.sbOrder)
    rw [hmod] at hpdiv
    refine ⟨p / 2 ^ s.sbOrder, Nat.div_le_div_right hp, (lt_probesBelow hr).mpr (by omega), ?_⟩
    change s.blockAt populate (p / 2 ^ s.sbOrder * 2 ^ s.sbOrder + addr % 2 ^ s.sbOrder) = some b
    rw [hpdiv]
    exact hb

theorem Probed.touches (h : s.Probed populate addr z b) : s.Touches populate addr z b := by
  obtain ⟨p, hp, hpz, -, hb⟩ := h
  exact ⟨p, hp, hpz, hb⟩

/-- What a walk has visited of the range that it has dealt with. -/
theorem Swept.lossless {h : s.Inv} {run : MadvRun σ}
    (hswept : Swept h populate (s.offset_lt addr) shift addrEnd (addr / 2 ^ s.sbOrder) run) :
    run.visited.Nodup ∧ (∀ b ∈ run.visited, s.Touches populate addr run.stop b) ∧
      ((∀ b, s.Touches populate addr run.stop b → b ∈ run.visited) ↔
        Lossless h populate shift addr run.stop) := by
  obtain ⟨-, -, -, hvisits, hcomplete⟩ := hswept
  refine ⟨hvisits.nodup, fun b hb => ((meets_iff_probed h).mp (hvisits.meets b hb)).touches,
    fun hall => ⟨fun b hb => ?_, ?_⟩, fun hloss b hb => ?_⟩
  · exact (meets_iff_probed h).mp (hvisits.meets b (hall b hb))
  · exact hcomplete.mp fun b hb => hall b ((meets_iff_probed h).mp hb).touches
  · exact hcomplete.mpr hloss.2 b ((meets_iff_probed h).mpr (hloss.1 b hb))

/-- No block of a single page is lost. -/
theorem lossless_succ (h : s.Inv) : Lossless h populate shift addr (addr + 1) := by
  have hr := s.offset_lt addr
  have hdiv := Nat.div_add_mod' addr (2 ^ s.sbOrder)
  have hone : s.probesBelow (addr % 2 ^ s.sbOrder) (addr + 1) = addr / 2 ^ s.sbOrder + 1 := by
    refine le_antisymm (le_of_not_gt fun hlt => ?_) ?_
    · have hpage := (lt_probesBelow hr).mp hlt
      rw [Nat.add_mul, one_mul] at hpage
      omega
    · exact (lt_probesBelow hr).mpr (by omega)
  refine ⟨?_, ?_⟩
  · rintro b ⟨p, hp, hp', hb⟩
    obtain rfl : p = addr := by omega
    exact ⟨p, le_rfl, hp', rfl, hb⟩
  · rw [hone]
    exact BlockLine.reached_succ _ _

/-- A walk from the first page of a range. -/
theorem exists_walk {visit : σ → MadvBlock → σ × MadvMove} (h : s.Inv)
    (hshift : ∀ st b, (visit st b).2 = .whole ↔ shift b = true) (addr addrEnd : ℕ) (st : σ) :
    ∃ enough, ∀ turns, enough ≤ turns → ∃ run,
      s.madvWalk populate visit addrEnd turns none addr st = some run ∧
        Swept h populate (s.offset_lt addr) shift addrEnd (addr / 2 ^ s.sbOrder) run := by
  have hdiv := Nat.div_add_mod' addr (2 ^ s.sbOrder)
  refine ⟨turnsFor addrEnd none addr, fun turns hturns => ?_⟩
  have hwalk : ∃ run, s.madvWalk populate visit addrEnd turns none
      (addr / 2 ^ s.sbOrder * 2 ^ s.sbOrder + addr % 2 ^ s.sbOrder) st = some run ∧
        Swept h populate (s.offset_lt addr) shift addrEnd (addr / 2 ^ s.sbOrder) run :=
    madvWalk_swept h (s.offset_lt addr) hshift (fun v idx hv => (nomatch hv))
      (by rw [hdiv]; exact hturns)
  rwa [hdiv] at hwalk

end MadvSpace

namespace MadvCall

variable {σ : Type*} {call : MadvCall} {luck : MadvLuck} {s : MadvSpace} {addr size : ℕ}
  {b : MadvBlock}

/-- The bytes of a range lie on the pages that a walk moves over. -/
theorem intersects_iff (haddr : addr + size < 2 ^ 64) (hsize : 0 < size) :
    call.Intersects s addr size b ↔
      s.Touches call.populates (addr / 4096) (addrEnd addr size) b := by
  rw [addrEnd, Nat.mod_eq_of_lt haddr]
  refine ⟨?_, ?_⟩
  · rintro ⟨x, hx, hx', hb⟩
    exact ⟨x / 4096, by omega, by omega, hb⟩
  · rintro ⟨p, hp, hp', hb⟩
    by_cases hfirst : p = addr / 4096
    · exact ⟨addr, le_rfl, by omega, hfirst ▸ hb⟩
    · refine ⟨p * 4096, by omega, by omega, ?_⟩
      rwa [Nat.mul_div_cancel _ (by omega)]

/-- A range that runs over the end of the address space has no blocks. -/
theorem not_intersects (h : s.Inv) (hsize : size ≤ 2 ^ 63) (hwrap : 2 ^ 64 ≤ addr + size) :
    ¬ call.Intersects s addr size b := by
  rintro ⟨x, hx, -, hb⟩
  obtain ⟨v, hv, -⟩ := MadvSpace.blockAt_eq_some.mp hb
  obtain ⟨hmem, -, hlt⟩ := MadvSpace.mem_of_find hv
  have huser := h.user v hmem
  omega

/-- Every walk ends.  One that returns no error has come upon exactly the blocks of the range,
each once, if and only if the range is covered; one that returns an error has come upon those
of the part it has dealt with under the same condition on that part. -/
theorem exact_iff_covered (h : s.Inv) (handle : σ → MadvBlock → σ) (haddr : addr < 2 ^ 64)
    (hsize : size ≤ 2 ^ 63) (st : σ) :
    ∃ enough, ∀ turns, enough ≤ turns → ∃ run,
      call.walk luck s handle addr size turns st = some run ∧
        (run.failed = false →
          (call.Exact s addr size run.visited ↔ call.Covered luck h addr size)) ∧
        (run.failed = true → run.visited.Nodup ∧
          (∀ b ∈ run.visited, s.Touches call.populates (addr / 4096) run.stop b) ∧
            ((∀ b, s.Touches call.populates (addr / 4096) run.stop b → b ∈ run.visited) ↔
              MadvSpace.Lossless h call.populates (call.shift luck) (addr / 4096) run.stop)) := by
  have hshift : ∀ (st : σ) b, ((handle st b, call.move luck b).2 = MadvMove.whole ↔
      call.shift luck b = true) := fun st b => by rw [shift, beq_iff_eq]
  obtain ⟨enough, hwalk⟩ := MadvSpace.exists_walk h hshift (addr / 4096) (addrEnd addr size) st
  refine ⟨enough, fun turns hturns => ?_⟩
  obtain ⟨run, hrun, hswept⟩ := hwalk turns hturns
  obtain ⟨hnodup, htouches, hiff⟩ := hswept.lossless
  refine ⟨run, hrun, fun hok => ?_, fun _ => ⟨hnodup, htouches, hiff⟩⟩
  rw [hswept.ended hok] at htouches hiff
  have hnone : (∀ b, ¬ call.Intersects s addr size b) →
      (∀ b, ¬ s.Touches call.populates (addr / 4096) (addrEnd addr size) b) →
        call.Exact s addr size run.visited ∧ MadvSpace.Lossless h call.populates (call.shift luck)
          (addr / 4096) (addrEnd addr size) := by
    intro hbytes hpages
    refine ⟨⟨hnodup, fun b => ⟨fun hb => absurd (htouches b hb) (hpages b),
      fun hb => absurd hb (hbytes b)⟩⟩, hiff.mp fun b hb => absurd hb (hpages b)⟩
  by_cases hzero : size = 0
  · have hbytes : ∀ b, ¬ call.Intersects s addr size b := by
      rintro b ⟨x, hx, hx', -⟩
      omega
    by_cases haligned : addr % 4096 = 0
    · obtain ⟨hexact, hloss⟩ := hnone hbytes (by
        rintro b ⟨p, hp, hp', -⟩
        rw [addrEnd, hzero] at hp'
        omega)
      exact iff_of_true hexact ⟨fun _ => .inl haligned, hloss⟩
    · have hend : addrEnd addr size = addr / 4096 + 1 := by
        rw [addrEnd, hzero]
        omega
      rw [Covered, hend]
      rw [hend] at htouches hiff hnone
      have hloss : MadvSpace.Lossless h call.populates (call.shift luck) (addr / 4096)
          (addr / 4096 + 1) := MadvSpace.lossless_succ h
      refine ⟨fun hexact => ⟨fun _ => .inr fun b hb => ?_, hloss⟩, fun hcovered => ?_⟩
      · -- the block of the page is visited, although the range is empty
        have hvisited := hiff.mpr hloss b ⟨addr / 4096, le_rfl, Nat.lt_succ_self _, hb⟩
        exact hbytes b ((hexact.mem b).mp hvisited)
      · obtain hbad | hempty := hcovered.1 hzero
        · exact absurd hbad haligned
        · refine (hnone hbytes ?_).1
          rintro b ⟨p, hp, hp', hb⟩
          obtain rfl : p = addr / 4096 := by omega
          exact hempty b hb
  · by_cases hwrap : 2 ^ 64 ≤ addr + size
    · obtain ⟨hexact, hloss⟩ := hnone (fun b => not_intersects h hsize hwrap) (by
        rintro b ⟨p, hp, hp', -⟩
        rw [addrEnd] at hp'
        omega)
      exact iff_of_true hexact ⟨fun hz => absurd hz hzero, hloss⟩
    · have hpages : ∀ b, call.Intersects s addr size b ↔
          s.Touches call.populates (addr / 4096) (addrEnd addr size) b :=
        fun b => intersects_iff (not_le.mp hwrap) (Nat.pos_of_ne_zero hzero)
      refine ⟨fun hexact => ⟨fun hz => absurd hz hzero, hiff.mp fun b hb => ?_⟩,
        fun hcovered => ⟨hnodup, fun b => ⟨fun hb => ?_, fun hb => ?_⟩⟩⟩
      · exact (hexact.mem b).mpr ((hpages b).mpr hb)
      · exact (hpages b).mpr (htouches b hb)
      · exact hiff.mpr hcovered.2 b ((hpages b).mp hb)

/-- A mapping of sixteen subblocks of four pages, of which the fifth to the twelfth are a block. -/
def oneBlock : MadvSpace :=
  ⟨2, [⟨16, 80, 0⟩], fun _ => Directory.untouched.getGpadesc 4 (some (0, 1024))⟩

theorem inv_oneBlock : oneBlock.Inv := by
  have hstart : Directory.Start Directory.untouched :=
    ⟨⟨by decide, by decide⟩, by decide, fun _ => rfl, fun _ => rfl, rfl⟩
  have hinv : (Directory.untouched.getGpadesc 4 (some (0, 1024))).Inv :=
    (Directory.kept_getGpadesc (Directory.inv_of_reach (.start hstart)) (by decide)).1.inv
  refine ⟨fun v hv w hw => ?_, fun _ _ => hinv, fun _ _ => rfl, fun v hv => ?_, fun v hv => ?_,
    fun v hv => ?_⟩
  · rw [List.mem_singleton.mp hv, List.mem_singleton.mp hw]
    exact .inl rfl
  · rw [List.mem_singleton.mp hv]
    exact .inl rfl
  · rw [List.mem_singleton.mp hv]
    exact .inl rfl
  · rw [List.mem_singleton.mp hv]
    decide

/-- No lock is held by others, and no fetch fails. -/
def quiet : MadvLuck := ⟨fun _ => false, fun _ => false⟩

/-- The advice for the whole mapping. -/
theorem exact_iff_covered_oneBlock : ∃ enough, ∀ turns, enough ≤ turns → ∃ run,
    empBlkMoveToInactive.walk quiet oneBlock (fun n _ => n + 1) 65536 262144 turns 0 = some run ∧
      (run.failed = false → (empBlkMoveToInactive.Exact oneBlock 65536 262144 run.visited ↔
        empBlkMoveToInactive.Covered quiet inv_oneBlock 65536 262144)) ∧
      (run.failed = true → run.visited.Nodup ∧
        (∀ b ∈ run.visited, oneBlock.Touches empBlkMoveToInactive.populates 16 run.stop b) ∧
          ((∀ b, oneBlock.Touches empBlkMoveToInactive.populates 16 run.stop b → b ∈ run.visited) ↔
            MadvSpace.Lossless inv_oneBlock empBlkMoveToInactive.populates
              (empBlkMoveToInactive.shift quiet) 16 run.stop)) :=
  exact_iff_covered inv_oneBlock (fun n _ => n + 1) (by decide) (by decide) 0

/-- Pinning from the second subblock of the block on leaves out the thirteenth subblock, and the
completion of a prefetch from the second page on leaves out the block that starts with the last
page. -/
theorem not_exact_oneBlock :
    (∃ run, empMadvPin.walk quiet oneBlock (fun n _ => n + 1) 147456 180224 20 0 = some run ∧
      run.failed = false ∧ ¬ empMadvPin.Exact oneBlock 147456 180224 run.visited) ∧
    ∃ run,
      empBlkPrefetchComplete.walk quiet oneBlock (fun n _ => n + 1) 69632 65536 20 0 = some run ∧
      run.failed = false ∧ ¬ empBlkPrefetchComplete.Exact oneBlock 69632 65536 run.visited := by
  have hpin : (empMadvPin.walk quiet oneBlock (fun n _ => n + 1) 147456 180224 20 0).map
      (fun run => (run.visited, run.failed)) =
        some ([⟨0, 4, 8⟩, ⟨0, 13, 1⟩, ⟨0, 14, 1⟩, ⟨0, 15, 1⟩], false) := by decide
  have hfetch : (empBlkPrefetchComplete.walk quiet oneBlock (fun n _ => n + 1) 69632 65536 20 0).map
      (fun run => (run.visited, run.failed)) = some ([], false) := by decide
  refine ⟨?_, ?_⟩
  · obtain ⟨run, hrun, heq⟩ := Option.map_eq_some_iff.mp hpin
    obtain ⟨hvisited, hok⟩ := Prod.mk.inj heq
    refine ⟨run, hrun, hok, fun hexact => ?_⟩
    have hmem := (hexact.mem ⟨0, 12, 1⟩).mpr ⟨262144, by decide, by decide, by decide⟩
    rw [hvisited] at hmem
    exact absurd hmem (by decide)
  · obtain ⟨run, hrun, heq⟩ := Option.map_eq_some_iff.mp hfetch
    obtain ⟨hvisited, hok⟩ := Prod.mk.inj heq
    refine ⟨run, hrun, hok, fun hexact => ?_⟩
    have hmem := (hexact.mem ⟨0, 4, 8⟩).mpr ⟨131072, by decide, by decide, by decide⟩
    rw [hvisited] at hmem
    exact absurd hmem (by decide)

end MadvCall

end Emp
