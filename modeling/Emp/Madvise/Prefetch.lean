import Emp.Madvise.Calls
import Mathlib.Data.Int.Notation

/-!
# Prefetching a range

`emp_blk_prefetch` walks a range and posts the fetches of remote blocks, whose locks it keeps
until the batch is flushed to the lists.  A second walk over the range, for a forced prefetch,
is to wait for the first one's fetches and to fetch what it has left out.

The lists are not part of the model: a flush reports a value and unlocks its blocks.  What other
actors do to blocks that are not locked is left out, except that they may hold locks when the
first walk comes.  No walk comes upon a block twice, so none meets a lock of its own.

## Main definitions

* `PfBlock`, `PfState` — a block, and the blocks with the context of the walk.
* `PfState.prefetchBlock`, `PfState.prefetchComplete` — the handling of a block.
* `empBlkPrefetch` — the call.
* `Honoured`, `Idle` — what the call promises, and when a forced one keeps it.
-/

namespace Emp

/-- `enum gpa_state`. -/
inductive BlockState
  | init
  | active
  | inactive
  | wb
  | fetching
  | transIl
  | transAl
  | transPl
  deriving DecidableEq, Repr

/-- The head of a block: its state, and whether one of `GPA_PREFETCHED_MASK`, `GPA_PREFETCH_ONCE`,
`GPA_IO_MASK`, `GPA_STALE_BLOCK`, `GPA_PROMOTE` and `GPA_HPT` is set. -/
structure PfBlock where
  rState : BlockState
  prefetched : Bool
  prefetchOnce : Bool
  io : Bool
  stale : Bool
  promote : Bool
  hpt : Bool
  deriving DecidableEq, Repr

/-- The blocks, those whose locks the call holds, the heads of its batch, how often it has been
flushed, the error that has ended a walk, and all errors in their order. -/
structure PfState where
  block : MadvBlock → PfBlock
  locked : List MadvBlock
  heads : List MadvBlock
  flushes : ℕ
  err : ℤ
  errors : List ℤ

/-- The blocks that others have locked when the first walk comes, what the fetch of a block
returns, and what the flushes return in turn. -/
structure PfLuck where
  busy : MadvBlock → Bool
  fetch : MadvBlock → ℤ
  flush : ℕ → ℤ

namespace PfBlock

variable (k : PfBlock)

/-- The block is local, and its promote mark is set or its fetch is posted. -/
def Done : Prop := k.rState ≠ .init ∧ (k.promote ∨ k.prefetched)

instance : Decidable k.Done := inferInstanceAs (Decidable (_ ∧ _))

/-- The first walk leaves the block done, when it gets its lock and the fetch is posted. -/
def Prefetchable : Prop :=
  if k.rState = .init then ¬ (k.prefetched ∨ k.prefetchOnce ∨ (k.io ∨ k.stale) ∨ k.promote)
  else k.prefetched ∨ k.prefetchOnce ∨ ¬ (k.io ∨ k.stale)

/-- The first walk fetches the block. -/
def Fetched : Prop :=
  k.rState = .init ∧ ¬ (k.prefetched ∨ k.prefetchOnce ∨ (k.io ∨ k.stale) ∨ k.promote)

end PfBlock

namespace PfState

variable (luck : PfLuck) (st : PfState) (b : MadvBlock)

def lock : PfState := { st with locked := st.locked ++ [b] }

/-- `emp_unlock_block`. -/
def unlock : PfState := { st with locked := st.locked.erase b }

def set (k : PfBlock) : PfState := { st with block := Function.update st.block b k }

/-- The walk ends with an error. -/
def fail (r : ℤ) : PfState := { st with err := r, errors := st.errors ++ [r] }

/-- `blks_ctx_flush_prefetch`, with `LEN_FLUSH_HEADS` heads at most. -/
def flushPrefetch (force : Bool) : PfState × ℤ :=
  if 8 ≤ st.heads.length ∨ force = true then
    ({ st with
        locked := st.heads.foldl List.erase st.locked
        heads := []
        flushes := st.flushes + 1 }, luck.flush st.flushes)
  else (st, 0)

/-- A flush behind a block that has been added to the batch. -/
def flushMove : PfState × MadvMove :=
  match st.flushPrefetch luck false with
  | (st', r) => if r < 0 then (st'.fail r, .fail) else (st', .rest)

/-- `__emp_blk_prefetch`. -/
def prefetchBlock : PfState × MadvMove :=
  if luck.busy b then (st, .whole)
  else
    let k := st.block b
    let st := st.lock b
    if k.prefetched ∨ k.prefetchOnce then ((st.set b { k with promote := true }).unlock b, .rest)
    else if k.io ∨ k.stale then (st.unlock b, .rest)
    else if k.promote then (st.unlock b, .rest)
    else if k.rState = .init then
      if luck.fetch b < 0 then ((st.fail (luck.fetch b)).unlock b, .fail)
      else
        let k' :=
          { k with rState := .active, prefetched := true, prefetchOnce := true, hpt := true }
        flushMove luck { st.set b k' with heads := st.heads ++ [b] }
    else ((st.set b { k with promote := true }).unlock b, .rest)

/-- `__emp_blk_prefetch_complete`. -/
def prefetchComplete : PfState × MadvMove :=
  let k := { st.block b with prefetched := false }
  let st := st.lock b
  if k.rState = .init then
    if luck.fetch b < 0 then (((st.set b k).fail (luck.fetch b)).unlock b, .fail)
    else
      let k' :=
        { k with rState := .active, prefetched := true, prefetchOnce := true, promote := true }
      flushMove luck { st.set b k' with heads := st.heads ++ [b] }
  else ((st.set b { k with promote := true }).unlock b, .rest)

end PfState

/-- The end of a call: its state and what it returns. -/
structure PfResult where
  state : PfState
  ret : ℤ

def einval : ℤ := -22

/-- A walk of the call and the flush of what its batch holds in the end: an address without a vmr
is an error too, and the first error is returned. -/
def prefetchPass (luck : PfLuck) (run : MadvRun PfState) : PfResult :=
  let st := if run.failed ∧ ¬ run.state.err < 0 then run.state.fail einval else run.state
  match st.flushPrefetch luck true with
  | (st', r) =>
    let ret := if run.failed then st.err else 0
    ⟨if r < 0 then { st' with errors := st'.errors ++ [r] } else st', if ret = 0 then r else ret⟩

/-- `emp_blk_prefetch`; its size is an `unsigned long`. -/
def empBlkPrefetch (luck : PfLuck) (s : MadvSpace) (addr size turns : ℕ) (st : PfState) :
    Option PfResult :=
  let force := !decide (0 ≤ size)
  let len := if force then 2 ^ 64 - size else size
  let walk (visit : PfState → MadvBlock → PfState × MadvMove) (st : PfState) :=
    (s.madvWalk false visit (MadvCall.addrEnd addr len) turns none (addr / 4096) st).map
      (prefetchPass luck)
  match walk (PfState.prefetchBlock luck) st with
  | none => none
  | some first =>
    if ¬ force ∨ first.ret ≠ 0 then some first
    else walk (PfState.prefetchComplete luck) first.state

/-- The state of a call before its first walk. -/
def PfState.start (block : MadvBlock → PfBlock) : PfState := ⟨block, [], [], 0, 0, []⟩

/-- Every lock that the call has taken is released; a call that is not forced returns its first
error, if there is one; and a forced one that returns success leaves every block of the range
done.  A forced call has a negative size. -/
structure Honoured (s : MadvSpace) (addr size : ℕ) (fin : PfResult) : Prop where
  released : fin.state.locked = []
  first : size < 2 ^ 63 → ∀ e ∈ fin.state.errors.head?, fin.ret = e
  forced : 2 ^ 63 ≤ size → fin.ret = 0 → ∀ b,
    MadvCall.empBlkPrefetch.Intersects s addr (2 ^ 64 - size) b → (fin.state.block b).Done

/-- The block of the first page of a range, if the page is mapped and populated. -/
def FirstBlock (s : MadvSpace) (addr : ℕ) (b : MadvBlock) : Prop :=
  s.blockAt false (addr / 4096) = some b

/-- A forced call whose size is smaller than the offset in the page looks at the block of the
first page; it ends with an error if the page is not mapped or the fetch fails. -/
def Stopped (luck : PfLuck) (s : MadvSpace) (addr size : ℕ) (block : MadvBlock → PfBlock) : Prop :=
  size < addr % 4096 ∧ (s.empVmrFindHva (addr / 4096) = none ∨
    ∃ b, FirstBlock s addr b ∧ luck.busy b = false ∧ (block b).Fetched ∧ luck.fetch b < 0)

/-- The block has been done before the call, or is the one that the call looks at. -/
def Served (luck : PfLuck) (s : MadvSpace) (addr size : ℕ) (block : MadvBlock → PfBlock)
    (b : MadvBlock) : Prop :=
  (block b).Done ∨
    size < addr % 4096 ∧ FirstBlock s addr b ∧ luck.busy b = false ∧ (block b).Prefetchable

/-- When a forced call does what it promises: it runs into an address without a vmr, or the
flush or the fetch of the first page's block returns an error, or there is nothing else to do. -/
def Idle (luck : PfLuck) (s : MadvSpace) (addr size : ℕ) (block : MadvBlock → PfBlock) : Prop :=
  addr < size ∨ luck.flush 0 ≠ 0 ∨ Stopped luck s addr size block ∨
    ∀ b, MadvCall.empBlkPrefetch.Intersects s addr size b → Served luck s addr size block b

variable {luck : PfLuck} {s : MadvSpace} {st st' : PfState} {b : MadvBlock} {move : MadvMove}
  {addr size : ℕ} {block : MadvBlock → PfBlock}

/-! ### Locks and errors -/

namespace PfState

/-- Between two blocks the call holds the locks of its batch, and there has been no error. -/
structure Clean (st : PfState) : Prop where
  batch : st.locked.Perm st.heads
  err : st.err = 0
  errors : st.errors = []

/-- Behind an error. -/
structure Failed (st : PfState) : Prop where
  batch : st.locked.Perm st.heads
  err : st.err < 0
  errors : st.errors = [st.err]

theorem foldl_erase_eq_nil {l h : List MadvBlock} (hperm : l.Perm h) :
    h.foldl List.erase l = [] := by
  induction h generalizing l with
  | nil => exact hperm.eq_nil
  | cons a h ih =>
      rw [List.foldl_cons]
      refine ih ?_
      have herase := hperm.erase a
      rwa [List.erase_cons_head] at herase

theorem perm_lock_unlock {l h : List MadvBlock} (hperm : l.Perm h) (b : MadvBlock) :
    ((l ++ [b]).erase b).Perm h := by
  have hcons : (l ++ [b]).Perm (b :: l) := List.perm_append_singleton b l
  have herase := hcons.erase b
  rw [List.erase_cons_head] at herase
  exact herase.trans hperm

/-- A flush behind a block: the call holds the locks of its batch, or there has been an error. -/
theorem flushMove_spec (hst : st.Clean) :
    ((st.flushMove luck).2 ≠ .fail → (st.flushMove luck).1.Clean) ∧
      ((st.flushMove luck).2 = .fail → (st.flushMove luck).1.Failed) := by
  obtain ⟨hbatch, herr, herrors⟩ := hst
  rw [flushMove, flushPrefetch]
  by_cases hfull : 8 ≤ st.heads.length ∨ false = true
  · rw [if_pos hfull]
    have hempty : (st.heads.foldl List.erase st.locked).Perm [] := by
      rw [foldl_erase_eq_nil hbatch]
    by_cases hneg : luck.flush st.flushes < 0
    · simp only [hneg, if_true]
      refine ⟨fun h => absurd rfl h, fun _ => ⟨hempty, hneg, ?_⟩⟩
      simp only [fail, herrors, List.nil_append]
    · simp only [hneg, if_false]
      exact ⟨fun _ => ⟨hempty, herr, herrors⟩, nofun⟩
  · rw [if_neg hfull]
    simp only [lt_irrefl, if_false]
    exact ⟨fun _ => ⟨hbatch, herr, herrors⟩, nofun⟩

theorem prefetchBlock_spec (hst : st.Clean) :
    ((st.prefetchBlock luck b).2 ≠ .fail → (st.prefetchBlock luck b).1.Clean) ∧
      ((st.prefetchBlock luck b).2 = .fail → (st.prefetchBlock luck b).1.Failed) := by
  have hunlock := perm_lock_unlock hst.batch b
  have hclean : ∀ k, (((st.lock b).set b k).unlock b).Clean := fun k =>
    ⟨hunlock, hst.err, hst.errors⟩
  have hclean' : ((st.lock b).unlock b).Clean := ⟨hunlock, hst.err, hst.errors⟩
  simp only [prefetchBlock]
  split_ifs with hbusy honce hstale hpromote hinit hfetch
  · exact ⟨fun _ => hst, nofun⟩
  · exact ⟨fun _ => hclean _, nofun⟩
  · exact ⟨fun _ => hclean', nofun⟩
  · exact ⟨fun _ => hclean', nofun⟩
  · refine ⟨fun h => absurd rfl h, fun _ => ⟨hunlock, hfetch, ?_⟩⟩
    simp only [unlock, fail, lock, hst.errors, List.nil_append]
  · exact flushMove_spec ⟨hst.batch.append_right [b], hst.err, hst.errors⟩
  · exact ⟨fun _ => hclean _, nofun⟩

end PfState

/-- The end of a pass: all locks are released, the first error is returned, and a walk that has
failed is not reported as a success. -/
theorem prefetchPass_spec (luck : PfLuck) {run : MadvRun PfState}
    (hok : run.failed = false → run.state.Clean)
    (hfail : run.failed = true → run.state.Clean ∨ run.state.Failed) :
    (prefetchPass luck run).state.locked = [] ∧
      (∀ e ∈ (prefetchPass luck run).state.errors.head?, (prefetchPass luck run).ret = e) ∧
      (run.failed = true → (prefetchPass luck run).ret ≠ 0) := by
  -- a failed walk has one error before the last flush
  have hflush : ∀ st : PfState, st.locked.Perm st.heads → st.flushPrefetch luck true =
      ({ st with locked := [], heads := [], flushes := st.flushes + 1 },
        luck.flush st.flushes) := by
    intro st hperm
    rw [PfState.flushPrefetch, if_pos (.inr rfl), PfState.foldl_erase_eq_nil hperm]
  cases hf : run.failed with
  | false =>
      obtain ⟨hbatch, -, herrors⟩ := hok hf
      simp only [prefetchPass, hf, Bool.false_eq_true, false_and, if_false, hflush _ hbatch]
      split_ifs with hneg
      · refine ⟨rfl, fun e he => ?_, nofun⟩
        simp only [herrors, List.nil_append, List.head?_cons, Option.mem_def,
          Option.some.injEq] at he
        exact he
      · refine ⟨rfl, fun e he => ?_, nofun⟩
        simp only [herrors, List.head?_nil, Option.mem_def, reduceCtorEq] at he
  | true =>
      -- a walk that has not failed at a block ends at an address without a vmr
      have hend : (if run.failed = true ∧ ¬ run.state.err < 0 then run.state.fail einval
          else run.state).Failed := by
        rcases hfail hf with ⟨hbatch, herr, herrors⟩ | hbad
        · rw [if_pos ⟨hf, by rw [herr]; exact lt_irrefl 0⟩]
          refine ⟨hbatch, show einval < 0 by decide, ?_⟩
          simp only [PfState.fail, herrors, List.nil_append]
        · rwa [if_neg fun hif => hif.2 hbad.err]
      rw [prefetchPass]
      generalize (if run.failed = true ∧ ¬ run.state.err < 0 then run.state.fail einval
        else run.state) = st at hend ⊢
      obtain ⟨hbatch, herr, herrors⟩ := hend
      simp only [hf, if_true, hflush st hbatch, if_neg herr.ne, herrors]
      refine ⟨by split_ifs <;> rfl, fun e he => ?_, fun _ => herr.ne⟩
      split_ifs at he
      · simpa using he
      · simpa using he

/-- A walk that returns no error leaves its blocks to the flush. -/
theorem prefetchPass_ok (luck : PfLuck) {run : MadvRun PfState} (hok : run.failed = false) :
    (prefetchPass luck run).ret = luck.flush run.state.flushes ∧
      (prefetchPass luck run).state.block = run.state.block := by
  simp only [prefetchPass, hok, Bool.false_eq_true, false_and, if_false, if_true,
    PfState.flushPrefetch, or_true]
  refine ⟨trivial, ?_⟩
  split_ifs <;> rfl

/-! ### A forced call -/

/-- The first block of a call, in the first walk. -/
theorem prefetchBlock_start (luck : PfLuck) (block : MadvBlock → PfBlock) (b : MadvBlock) :
    (((PfState.start block).prefetchBlock luck b).2 = .fail ↔
        luck.busy b = false ∧ (block b).Fetched ∧ luck.fetch b < 0) ∧
      (∀ d, d ≠ b → ((PfState.start block).prefetchBlock luck b).1.block d = block d) ∧
      (((PfState.start block).prefetchBlock luck b).2 ≠ .fail →
        ((PfState.start block).prefetchBlock luck b).1.flushes = 0 ∧
          ((((PfState.start block).prefetchBlock luck b).1.block b).Done ↔
            (block b).Done ∨ luck.busy b = false ∧ (block b).Prefetchable)) := by
  have hset : ∀ (k : PfBlock) d, d ≠ b → Function.update block b k d = block d :=
    fun k d hd => Function.update_of_ne hd k block
  simp only [PfState.prefetchBlock, PfState.flushMove, PfState.flushPrefetch, PfState.lock,
    PfState.unlock, PfState.set, PfState.fail, PfState.start, List.nil_append, List.length_cons,
    List.length_nil, Bool.false_eq_true, or_false, Nat.reduceLeDiff, if_false, lt_irrefl]
  cases luck.busy b with
  | true =>
      refine ⟨⟨nofun, fun hf => nomatch hf.1⟩, fun _ _ => rfl, fun _ => ⟨rfl, .inl, fun hd => ?_⟩⟩
      exact hd.resolve_right fun hp => nomatch hp.1
  | false =>
      simp only [Bool.false_eq_true, if_false, true_and]
      by_cases honce : (block b).prefetched ∨ (block b).prefetchOnce
      · simp only [if_pos honce, Function.update_self]
        have hnot : ¬ (block b).Fetched := fun hf => hf.2 (honce.elim .inl fun h => .inr (.inl h))
        refine ⟨⟨nofun, fun hf => absurd hf.1 hnot⟩, hset _, fun _ => ⟨trivial, ?_⟩⟩
        by_cases hinit : (block b).rState = .init
        · simp only [PfBlock.Done, PfBlock.Prefetchable, hinit, if_true, ne_eq, not_true_eq_false,
            false_and, false_or, false_iff, not_not]
          exact honce.elim .inl fun h => .inr (.inl h)
        · refine iff_of_true ⟨hinit, .inl rfl⟩ (.inr ?_)
          rw [PfBlock.Prefetchable, if_neg hinit]
          exact honce.elim .inl fun h => .inr (.inl h)
      · obtain ⟨hpre, hpre'⟩ := not_or.mp honce
        simp only [if_neg honce]
        by_cases hstale : (block b).io = true ∨ (block b).stale = true
        · simp only [if_pos hstale]
          have hnot : ¬ (block b).Fetched := fun hf => hf.2 (.inr (.inr (.inl hstale)))
          refine ⟨⟨nofun, fun hf => absurd hf.1 hnot⟩, fun _ _ => trivial, fun _ =>
            ⟨trivial, .inl, fun hd => hd.resolve_right fun hp => ?_⟩⟩
          rw [PfBlock.Prefetchable] at hp
          split_ifs at hp
          · exact hp (.inr (.inr (.inl hstale)))
          · exact honce (hp.imp_right fun h => h.resolve_right fun hn => hn hstale)
        · simp only [if_neg hstale]
          by_cases hpromote : (block b).promote = true
          · simp only [if_pos hpromote]
            have hnot : ¬ (block b).Fetched := fun hf => hf.2 (.inr (.inr (.inr hpromote)))
            refine ⟨⟨nofun, fun hf => absurd hf.1 hnot⟩, fun _ _ => trivial, fun _ =>
              ⟨trivial, .inl, fun hd => hd.elim id fun hp => ?_⟩⟩
            rw [PfBlock.Prefetchable] at hp
            split_ifs at hp with hinit
            · exact absurd (.inr (.inr (.inr hpromote))) hp
            · exact ⟨hinit, .inl hpromote⟩
          · simp only [if_neg hpromote]
            have hnone : ¬ ((block b).prefetched ∨ (block b).prefetchOnce ∨
                ((block b).io ∨ (block b).stale) ∨ (block b).promote) := by
              rintro (hbad | hbad | hbad | hbad)
              · exact hpre hbad
              · exact hpre' hbad
              · exact hstale hbad
              · exact hpromote hbad
            by_cases hinit : (block b).rState = .init
            · have hfetched : (block b).Fetched := ⟨hinit, hnone⟩
              simp only [if_pos hinit]
              by_cases hfetch : luck.fetch b < 0
              · simp only [if_pos hfetch]
                exact ⟨⟨fun _ => ⟨hfetched, hfetch⟩, fun _ => trivial⟩, fun _ _ => trivial,
                  fun hf => absurd rfl hf⟩
              · simp only [if_neg hfetch, Function.update_self]
                refine ⟨⟨nofun, fun hf => absurd hf.2 hfetch⟩, hset _, fun _ => ⟨trivial, ?_⟩⟩
                refine iff_of_true ⟨nofun, .inr rfl⟩ (.inr ?_)
                rw [PfBlock.Prefetchable, if_pos hinit]
                exact hnone
            · simp only [if_neg hinit, Function.update_self]
              refine ⟨⟨nofun, fun hf => absurd hf.1.1 hinit⟩, hset _, fun _ => ⟨trivial, ?_⟩⟩
              refine iff_of_true ⟨hinit, .inl rfl⟩ (.inr ?_)
              rw [PfBlock.Prefetchable, if_neg hinit]
              exact .inr (.inr hstale)

theorem prefetchBlock_whole :
    (st.prefetchBlock luck b).2 = .whole ↔ luck.busy b = true := by
  simp only [PfState.prefetchBlock, PfState.flushMove]
  split_ifs with hbusy
  · exact iff_of_true rfl hbusy
  all_goals exact iff_of_false nofun hbusy

/-- The sign of the size is lost: there is no second walk. -/
theorem empBlkPrefetch_eq (luck : PfLuck) (s : MadvSpace) (addr size turns : ℕ) (st : PfState) :
    empBlkPrefetch luck s addr size turns st =
      (s.madvWalk false (PfState.prefetchBlock luck) (MadvCall.addrEnd addr size) turns none
        (addr / 4096) st).map (prefetchPass luck) := by
  simp only [empBlkPrefetch, Nat.zero_le, decide_true, Bool.not_true, Bool.false_eq_true, if_false,
    not_false_eq_true, true_or, if_true]
  split <;> rename_i hwalk
  · exact hwalk.symm
  · exact hwalk.symm

/-- The walk of a forced call whose range does not start below its size ends in front of the
range or behind its first page. -/
theorem addrEnd_forced (hk : 0 < size) (hk' : size ≤ 2 ^ 63) (hle : size ≤ addr)
    (haddr : addr < 2 ^ 64) :
    (addr % 4096 ≤ size → MadvCall.addrEnd addr (2 ^ 64 - size) ≤ addr / 4096) ∧
      (size < addr % 4096 → MadvCall.addrEnd addr (2 ^ 64 - size) = addr / 4096 + 1) := by
  have hsub : (addr + (2 ^ 64 - size)) % 2 ^ 64 = addr - size := by omega
  rw [MadvCall.addrEnd, hsub]
  exact ⟨fun hoff => by omega, fun hoff => by omega⟩

/-- A forced call that does not wrap around: it returns an error, or leaves the blocks as they
have been, but for the block of the first page. -/
theorem forced_spec (h : s.Inv) (hk : 0 < size) (hk' : size ≤ 2 ^ 63) (hle : size ≤ addr)
    (haddr : addr < 2 ^ 64) {turns : ℕ} {run : MadvRun PfState}
    (hrun : s.madvWalk false (PfState.prefetchBlock luck) (MadvCall.addrEnd addr (2 ^ 64 - size))
      (turns + 4) none (addr / 4096) (PfState.start block) = some run) :
    (run.failed = true ↔ Stopped luck s addr size block) ∧
      (run.failed = false → run.state.flushes = 0 ∧
        ∀ b, (run.state.block b).Done ↔ Served luck s addr size block b) := by
  obtain ⟨hfront, hpage⟩ := addrEnd_forced hk hk' hle haddr
  by_cases hoff : size < addr % 4096
  · rw [hpage hoff] at hrun
    rcases MadvSpace.madvWalk_page h hrun with ⟨hnone, hfail⟩ | ⟨hvmr, hhole, hok, hst⟩ |
      ⟨b, hb, hst, hiff⟩
    · refine ⟨iff_of_true hfail ⟨hoff, .inl hnone⟩, fun hok => ?_⟩
      rw [hfail] at hok
      cases hok
    · have hnot : ∀ b, ¬ FirstBlock s addr b := fun b hb =>
        absurd (hhole.symm.trans hb) (Option.some_ne_none b).symm
      rw [hok, hst]
      refine ⟨iff_of_false (by simp) fun hstop => ?_, fun _ => ⟨rfl, fun b => ?_⟩⟩
      · rcases hstop.2 with hnone | ⟨b, hb, -⟩
        · exact hvmr hnone
        · exact hnot b hb
      · exact ⟨.inl, fun hd => hd.elim id fun hp => absurd hp.2.1 (hnot b)⟩
    · have hfirst : ∀ d, FirstBlock s addr d → d = b := fun d hd =>
        Option.some.inj (hd.symm.trans hb)
      have hvmr : s.empVmrFindHva (addr / 4096) ≠ none := fun hnone => by
        rw [MadvSpace.blockAt, hnone] at hb
        cases hb
      obtain ⟨hmove, hother, hdone⟩ := prefetchBlock_start luck block b
      rw [hmove] at hiff
      refine ⟨⟨fun hf => ⟨hoff, .inr ⟨b, hb, hiff.mp hf⟩⟩, fun hstop => ?_⟩, fun hok => ?_⟩
      · rcases hstop.2 with hnone | ⟨d, hd, hfetch⟩
        · exact absurd hnone hvmr
        · exact hiff.mpr (hfirst d hd ▸ hfetch)
      · obtain ⟨hflushes, hself⟩ := hdone fun hf => by
          rw [hiff.mpr (hmove.mp hf)] at hok
          cases hok
        rw [hst]
        refine ⟨hflushes, fun d => ?_⟩
        by_cases hd : d = b
        · rw [hd, hself]
          exact or_congr_right ⟨fun hp => ⟨hoff, hb, hp⟩, fun hp => hp.2.2⟩
        · rw [hother d hd]
          exact ⟨.inl, fun hp => hp.resolve_right fun hp => hd (hfirst d hp.2.1)⟩
  · rw [MadvSpace.madvWalk_none_end (hfront (not_lt.mp hoff))] at hrun
    obtain rfl := Option.some.inj hrun
    refine ⟨iff_of_false (by simp) fun hstop => hoff hstop.1, fun _ => ⟨rfl, fun b => ?_⟩⟩
    exact ⟨.inl, fun hd => hd.resolve_right fun hp => hoff hp.1⟩

/-- A forced call whose range starts below its size runs over the end of the user addresses. -/
theorem failed_of_wrap (h : s.Inv) (hk' : size ≤ 2 ^ 63) (hlt : addr < size) {turns : ℕ}
    {run : MadvRun PfState}
    (hrun : s.madvWalk false (PfState.prefetchBlock luck) (MadvCall.addrEnd addr (2 ^ 64 - size))
      turns none (addr / 4096) (PfState.start block) = some run) : run.failed = true := by
  have hdiv := Nat.div_add_mod' (addr / 4096) (2 ^ s.sbOrder)
  have hend : 2 ^ 51 ≤ MadvCall.addrEnd addr (2 ^ 64 - size) ∧
      addr / 4096 < MadvCall.addrEnd addr (2 ^ 64 - size) := by
    rw [MadvCall.addrEnd]
    omega
  rw [← hdiv] at hrun
  have hnone : s.AtPage none (addr / 4096 / 2 ^ s.sbOrder) (addr / 4096 % 2 ^ s.sbOrder) :=
    fun v idx hv => by cases hv
  exact MadvSpace.failed_of_far h (s.offset_lt _) hend.1 hnone (by rw [hdiv]; exact hend.2) hrun

/-- Every call ends, and it keeps its promises if and only if it is not forced or has nothing to
do. -/
theorem honoured_iff_idle (h : s.Inv) (haddr : addr < 2 ^ 64) (hsize : size < 2 ^ 64)
    (block : MadvBlock → PfBlock) :
    ∃ enough, ∀ turns, enough ≤ turns → ∃ fin,
      empBlkPrefetch luck s addr size turns (PfState.start block) = some fin ∧
        (Honoured s addr size fin ↔ (2 ^ 63 ≤ size → Idle luck s addr (2 ^ 64 - size) block)) := by
  have hshift : ∀ (st : PfState) b, (st.prefetchBlock luck b).2 = .whole ↔ luck.busy b = true :=
    fun st b => prefetchBlock_whole
  obtain ⟨enough, hwalk⟩ : ∃ enough, ∀ turns, enough ≤ turns → ∃ run,
      s.madvWalk false (PfState.prefetchBlock luck) (MadvCall.addrEnd addr size) turns none
        (addr / 4096) (PfState.start block) = some run :=
    (MadvSpace.exists_walk h hshift _ _ _).imp fun _ hall turns hturns =>
      (hall turns hturns).imp fun _ hrun => hrun.1
  refine ⟨enough + 4, fun turns hturns => ?_⟩
  obtain ⟨run, hrun⟩ := hwalk turns (by omega)
  refine ⟨prefetchPass luck run, by rw [empBlkPrefetch_eq, hrun, Option.map_some], ?_⟩
  have hstart : (PfState.start block).Clean := ⟨List.Perm.refl _, rfl, rfl⟩
  obtain ⟨hclean, hfailed⟩ := MadvSpace.madvWalk_invariant (P := PfState.Clean)
    (Q := PfState.Failed) (fun st b hst => (PfState.prefetchBlock_spec hst).1)
    (fun st b hst => (PfState.prefetchBlock_spec hst).2) hstart hrun
  obtain ⟨hreleased, hfirst, hreported⟩ := prefetchPass_spec luck hclean hfailed
  -- a forced call fails, or has made one step at most
  have hforced : 2 ^ 63 ≤ size → (run.failed = true ∧ Idle luck s addr (2 ^ 64 - size) block) ∨
      (run.failed = false ∧ run.state.flushes = 0 ∧ ¬ addr < 2 ^ 64 - size ∧
        ¬ Stopped luck s addr (2 ^ 64 - size) block ∧
        ∀ b, (run.state.block b).Done ↔ Served luck s addr (2 ^ 64 - size) block b) := by
    intro hneg
    obtain ⟨n, rfl⟩ : ∃ n, turns = n + 4 := ⟨turns - 4, by omega⟩
    have hback : 2 ^ 64 - (2 ^ 64 - size) = size := by omega
    by_cases hlt : addr < 2 ^ 64 - size
    · exact .inl ⟨failed_of_wrap h (by omega) hlt (by rw [hback]; exact hrun), .inl hlt⟩
    · obtain ⟨hstop, hend⟩ := forced_spec h (by omega) (by omega) (not_lt.mp hlt) haddr
        (by rw [hback]; exact hrun)
      cases hf : run.failed with
      | true => exact .inl ⟨rfl, .inr (.inr (.inl (hstop.mp hf)))⟩
      | false =>
          obtain ⟨hflushes, hdone⟩ := hend hf
          rw [hf] at hstop
          exact .inr ⟨rfl, hflushes, hlt, fun hbad => Bool.false_ne_true (hstop.mpr hbad), hdone⟩
  refine ⟨fun hon hneg => ?_, fun hcond => ⟨hreleased, fun _ => hfirst, fun hneg hret => ?_⟩⟩
  · rcases hforced hneg with ⟨-, hidle⟩ | ⟨hok, hflushes, -, -, hdone⟩
    · exact hidle
    · obtain ⟨hret, hblock⟩ := prefetchPass_ok luck hok
      rw [hflushes] at hret
      by_cases hflush : luck.flush 0 = 0
      · refine .inr (.inr (.inr fun b hb => (hdone b).mp ?_))
        rw [← hblock]
        exact hon.forced hneg (hret.trans hflush) b hb
      · exact .inr (.inl hflush)
  · rcases hforced hneg with ⟨hfail, -⟩ | ⟨hok, hflushes, hwrap, hrunning, hdone⟩
    · exact absurd hret (hreported hfail)
    · obtain ⟨hretEq, hblock⟩ := prefetchPass_ok luck hok
      rw [hflushes, hret] at hretEq
      rcases hcond hneg with hlt | hflush | hstop | hall
      · exact absurd hlt hwrap
      · exact absurd hretEq.symm hflush
      · exact absurd hstop hrunning
      · intro b hb
        rw [hblock]
        exact (hdone b).mpr (hall b hb)

/-- Others have locked no block, and neither a fetch nor a flush fails. -/
def PfLuck.quiet : PfLuck := ⟨fun _ => false, fun _ => 0, fun _ => 0⟩

/-- A remote block that nobody has touched. -/
def PfBlock.remote : PfBlock := ⟨.init, false, false, false, false, false, false⟩

/-- A forced call for the bytes of the block. -/
theorem honoured_iff_idle_oneBlock : ∃ enough, ∀ turns, enough ≤ turns → ∃ fin,
    empBlkPrefetch .quiet MadvCall.oneBlock 131072 (2 ^ 64 - 131072) turns
        (PfState.start fun _ => .remote) = some fin ∧
      (Honoured MadvCall.oneBlock 131072 (2 ^ 64 - 131072) fin ↔ (2 ^ 63 ≤ 2 ^ 64 - 131072 →
        Idle .quiet MadvCall.oneBlock 131072 (2 ^ 64 - (2 ^ 64 - 131072)) fun _ => .remote)) :=
  honoured_iff_idle MadvCall.inv_oneBlock (by decide) (by decide) fun _ => .remote

/-- The call returns success, and its block stays remote. -/
theorem not_honoured_oneBlock : ∃ fin,
    empBlkPrefetch .quiet MadvCall.oneBlock 131072 (2 ^ 64 - 131072) 5
        (PfState.start fun _ => .remote) = some fin ∧
      fin.ret = 0 ∧ ¬ Honoured MadvCall.oneBlock 131072 (2 ^ 64 - 131072) fin := by
  have hcall : (empBlkPrefetch .quiet MadvCall.oneBlock 131072 (2 ^ 64 - 131072) 5
      (PfState.start fun _ => .remote)).map (fun fin => (fin.ret, (fin.state.block ⟨0, 4, 8⟩))) =
        some (0, .remote) := by decide
  obtain ⟨fin, hfin, heq⟩ := Option.map_eq_some_iff.mp hcall
  obtain ⟨hret, hblock⟩ := Prod.mk.inj heq
  refine ⟨fin, hfin, hret, fun hon => ?_⟩
  have hdone := hon.forced (by decide) hret ⟨0, 4, 8⟩
    ⟨131072, by decide, by decide, by decide⟩
  rw [hblock] at hdone
  exact hdone.1 rfl

end Emp
