import Emp.Evict.Requests

/-!
# A writeback that fails halfway

The failure path of `evict_block` should wait for every request it has obtained, free it,
and give back every subblock.  Its loop runs while the list of the requests is empty instead of
while it is not: with the head as the only request it waits for the head and frees it over and
over again, and with more of them it does nothing.

## Main definitions

* `EvictedBlock.evictBlock` — `evict_block` with its failure path.
* `EvictedBlock.FailureOk` — what a failure should leave behind.
-/

namespace Emp

namespace EvictedBlock

variable (p : EvictPlace) (b : EvictedBlock)

/-- What decides about a writeback: whether remote pages can be allocated, at which subblocks
the donor's context is gone, how many posts a full send queue refuses there, and which copies to
a memory device fail. -/
structure Luck where
  alloc : Bool
  fails : ℕ → Bool
  full : ℕ → ℕ
  copyFails : ℕ → Bool

/-- `clear_block_w`: whatever the local pages held in `w` is over. -/
def clearBlockW : EvictedBlock := { b with w := fun _ => .null, eagerWbr := false, eagerW := none }

/-- The loop of `evict_block` over `k` more subblocks, and the subblock at which it failed. -/
def postLoop (l : Luck) : ℕ → EvictedBlock → EvictedBlock × Option ℕ
  | 0, b => (b, none)
  | k + 1, b =>
      if l.fails b.posted then (b.takeSubblock b.posted, some b.posted)
      else postLoop l k (b.postSubblock p (l.full b.posted) (l.copyFails b.posted))

/-- The list that the failure path looks at. -/
def pendingList (chained : Bool) (h : ℕ) : List ℕ :=
  if chained then (b.wr.cell h).remotePages else (b.wr.cell h).subsibling

/-- The loop of the failure path.  The entry before an empty list is the object that the list
hangs from; what the loop takes off the list is the node `remote_pages`. -/
def cleanupLoop (chained : Bool) (h : ℕ) : ℕ → EvictedBlock → Option EvictedBlock
  | 0, _ => none
  | fuel + 1, b =>
      if (b.pendingList chained h).isEmpty then
        let w := (b.pendingList chained h).getLast?.getD h
        let b := { b with
          wr := b.wr.modify h fun r => { r with remotePages := r.remotePages.erase w } }
        let b := b.endWrite w
        cleanupLoop chained h fuel { b with wr := b.wr.free w }
      else some b

attribute [grind =] postLoop cleanupLoop

/-- The failure path, for the subblock at which the loop failed, if it had started. -/
def evictError (fuel : ℕ) (victim : Option ℕ) : Option EvictedBlock :=
  match b.headWr with
  | none => some (if victim.isSome then b.releaseSubblock 0 else b)
  | some h =>
      (cleanupLoop (b.wr.cell h).chainedOps h fuel b).map fun b =>
        (List.range (victim.getD 0 + 1)).foldl releaseSubblock b

/-- `evict_block`: the block and the head's request, or no request if it failed; `none` if the
failure path goes on for more than `fuel` turns. -/
def evictBlock (l : Luck) (fuel : ℕ) : Option (EvictedBlock × Option ℕ) :=
  if l.alloc then
    match postLoop p l p.numSubblock b.clearBlockW with
    | (b, none) => some (b.endPosts p, b.headWr)
    | (b, some victim) => (b.evictError fuel (some victim)).map fun b => (b, none)
  else (b.clearBlockW.evictError fuel none).map fun b => (b, none)

/-- Nothing has been posted for the block. -/
structure Idle (b : EvictedBlock) : Prop where
  headWr : b.headWr = none
  posted : b.posted = 0
  frees : b.wr.frees = fun _ => 0
  stale : b.wr.stale = false
  subblocks : ∀ i, b.locks i = b.unlocks i ∧ b.gets i = b.puts i

/-- What a failure leaves behind: every request it had obtained was waited for and freed once,
none is on a list, every subblock was given back, and the local pages and the states of the block
are those from before. -/
structure FailureOk (b t : EvictedBlock) : Prop where
  requests : ∀ i < t.posted, t.ends i = 1 ∧ t.wr.frees i = 1
  stale : t.wr.stale = false
  lists : ∀ i < t.posted, (t.wr.cell i).subsibling = [] ∧ (t.wr.cell i).remotePages = []
  subblocks : ∀ i, t.locks i = t.unlocks i ∧ t.gets i = t.puts i
  localPage : t.localPage = b.localPage ∧ t.w = b.clearBlockW.w
  rState : t.rState = b.rState

/-- The writeback cannot be posted as a whole. -/
def Fails (l : Luck) : Prop := l.alloc = false ∨ ∃ i < p.numSubblock, l.fails i = true

variable {p b} {l : Luck}

/-! ## The loop that posts -/

@[simp] theorem frees_addRefc (h : ℕ) (n : ℤ) : (b.addRefc h n).wr.frees = b.wr.frees := rfl

theorem frees_postSubblock (full : ℕ) (failed : Bool) :
    (b.postSubblock p full failed).wr.frees = b.wr.frees := by
  cases hh : b.headWr <;> cases hc : p.chainedOps <;> cases he : p.eager <;>
    simp [postSubblock, takeSubblock, refusePosts, postWrite, linkRequest, hh, hc, he, addRefc]

theorem headWr_postSubblock (full : ℕ) (failed : Bool) :
    (b.postSubblock p full failed).headWr = some (b.headWr.getD b.posted) ∧
      (b.postSubblock p full failed).posted = b.posted + 1 := by
  cases hh : b.headWr <;> cases hc : p.chainedOps <;> cases he : p.eager <;>
    simp [postSubblock, takeSubblock, refusePosts, postWrite, linkRequest, hh, hc, he, addRefc]

/-- The loop fails if there is a subblock whose post fails; no request has been freed then, and
there is a head if there is a request. -/
theorem postLoop_fails (k : ℕ) (hf : ∃ i, b.posted ≤ i ∧ i < b.posted + k ∧ l.fails i = true)
    (hhead : 0 < b.posted → b.headWr.isSome = true) :
    ∃ t victim, postLoop p l k b = (t, some victim) ∧ b.posted ≤ t.posted ∧
      (l.fails b.posted = false → b.posted < t.posted) ∧ t.wr.frees = b.wr.frees ∧
      (0 < t.posted → t.headWr.isSome = true) := by
  induction k generalizing b with
  | zero =>
      obtain ⟨i, hle, hlt, -⟩ := hf
      omega
  | succ k ih =>
      cases hb : l.fails b.posted with
      | true =>
          refine ⟨b.takeSubblock b.posted, b.posted, ?_, Nat.le_refl _, nofun, rfl, hhead⟩
          simp [postLoop, hb]
      | false =>
          obtain ⟨hhd, hpo⟩ := headWr_postSubblock (p := p) (b := b) (l.full b.posted)
            (l.copyFails b.posted)
          obtain ⟨i, hle, hlt, hi⟩ := hf
          have hne : i ≠ b.posted := by
            rintro rfl
            rw [hb] at hi
            cases hi
          obtain ⟨t, victim, ht, hpt, -, hfr, hht⟩ := ih
            (b := b.postSubblock p (l.full b.posted) (l.copyFails b.posted))
            ⟨i, by omega, by omega, hi⟩ fun _ => by rw [hhd]; rfl
          refine ⟨t, victim, ?_, by omega, fun _ => by omega,
            hfr.trans (frees_postSubblock _ _), hht⟩
          simpa [postLoop, hb] using ht

/-- `k` subblocks have been posted; the others hang from the head. -/
structure Posted (p : EvictPlace) (b : EvictedBlock) (k : ℕ) : Prop where
  posted : b.posted = k
  headWr : b.headWr = if k = 0 then none else some 0
  chained : 0 < k → (b.wr.cell 0).chainedOps = p.chainedOps
  pending : 0 < k → (b.pendingList p.chainedOps 0).length = k - 1

theorem posted_postSubblock {k : ℕ} (h : Posted p b k) (full : ℕ) (failed : Bool) :
    Posted p (b.postSubblock p full failed) (k + 1) := by
  obtain ⟨hposted, hhead, hchained, hpending⟩ := h
  by_cases hk : k = 0
  · subst hk
    rw [if_pos rfl] at hhead
    refine ⟨?_, ?_, fun _ => ?_, fun _ => ?_⟩ <;> cases hc : p.chainedOps <;>
      cases he : p.eager <;>
      simp [postSubblock, takeSubblock, refusePosts, postWrite, linkRequest, hhead, hposted,
        addRefc, pendingList, EvictPlace.postedRequest, hc, he]
  · rw [if_neg hk] at hhead
    have hpos : 0 < k := Nat.pos_of_ne_zero hk
    have hch := hchained hpos
    have hpend := hpending hpos
    refine ⟨?_, ?_, fun _ => ?_, fun _ => ?_⟩ <;> cases hc : p.chainedOps <;>
      cases he : p.eager <;> rw [hc] at hch hpend <;> simp only [pendingList] at hpend <;>
      simp [postSubblock, takeSubblock, refusePosts, postWrite, linkRequest, hhead, hposted,
        addRefc, pendingList, EvictPlace.postedRequest, hc, he, Ne.symm hk, hch] <;>
      simp at hpend <;> omega

/-- The loop goes on to the first subblock whose post fails. -/
theorem postLoop_spec (k : ℕ) : ∀ {b : EvictedBlock} {i : ℕ}, Posted p b i →
    match (List.range' i k).find? l.fails with
    | none => ∃ t, postLoop p l k b = (t, none) ∧ Posted p t (i + k)
    | some j => ∃ t, postLoop p l k b = (t.takeSubblock j, some j) ∧ Posted p t j := by
  induction k with
  | zero => exact fun h => ⟨_, rfl, h⟩
  | succ k ih =>
      intro b i h
      rw [List.range'_succ, List.find?_cons]
      cases hf : l.fails i with
      | true =>
          refine ⟨b, ?_, h⟩
          simp only [postLoop, h.posted, hf, if_true]
      | false =>
          have hrun : postLoop p l (k + 1) b =
              postLoop p l k (b.postSubblock p (l.full i) (l.copyFails i)) := by
            simp only [postLoop, h.posted, hf, Bool.false_eq_true, if_false]
          rw [hrun]
          have hnext := ih (posted_postSubblock h (l.full i) (l.copyFails i))
          rw [show i + (k + 1) = i + 1 + k by omega]
          exact hnext

/-! ## The failure path -/

/-- With an empty list the loop does not end: the head is waited for and freed again and again. -/
theorem cleanupLoop_of_empty {chained : Bool} {h : ℕ} (he : b.pendingList chained h = [])
    (fuel : ℕ) : cleanupLoop chained h fuel b = none := by
  induction fuel generalizing b with
  | zero => rfl
  | succ fuel ih =>
      simp only [cleanupLoop, he, List.isEmpty_nil, if_true]
      apply ih
      cases chained <;> simp [pendingList, endWrite] at he ⊢ <;> simp [he]

/-- With any request on the list it ends at once, and nothing is waited for or freed. -/
theorem cleanupLoop_of_ne_empty {chained : Bool} {h fuel : ℕ} {t : EvictedBlock}
    (hne : b.pendingList chained h ≠ []) (ht : cleanupLoop chained h fuel b = some t) : t = b := by
  cases fuel with
  | zero => cases ht
  | succ fuel =>
      simp only [cleanupLoop, List.isEmpty_iff, hne, if_false, Option.some.injEq] at ht
      exact ht.symm

theorem foldl_releaseSubblock (is : List ℕ) :
    (is.foldl releaseSubblock b).wr = b.wr ∧ (is.foldl releaseSubblock b).posted = b.posted := by
  induction is generalizing b with
  | nil => exact ⟨rfl, rfl⟩
  | cons i is ih => exact ih (b := b.releaseSubblock i)

/-- Once there is a head, no run of the failure path frees the requests once. -/
theorem not_failureOk_of_head {b₀ t : EvictedBlock} {fuel victim : ℕ}
    (hhead : b.headWr.isSome = true) (hpos : 0 < b.posted) (hfr : b.wr.frees = fun _ => 0)
    (ht : b.evictError fuel (some victim) = some t) : ¬ FailureOk b₀ t := by
  obtain ⟨h, hh⟩ := Option.isSome_iff_exists.mp hhead
  simp only [evictError, hh, Option.map_eq_some_iff] at ht
  obtain ⟨u, hu, rfl⟩ := ht
  by_cases he : b.pendingList (b.wr.cell h).chainedOps h = []
  · rw [cleanupLoop_of_empty he] at hu
    cases hu
  · -- the requests are leaked
    obtain rfl := cleanupLoop_of_ne_empty he hu
    intro hok
    obtain ⟨hwr, hpo⟩ := foldl_releaseSubblock (b := u) (List.range ((some victim).getD 0 + 1))
    have hone := (hok.requests 0 (by rw [hpo]; exact hpos)).2
    rw [hwr, hfr] at hone
    cases hone

/-- A failure before the first request leaves nothing behind. -/
theorem failureOk_of_first (hb : b.Idle) (hl : l.alloc = false ∨ l.fails 0 = true)
    (hf : Fails p l) : ∃ fuel t, b.evictBlock p l fuel = some (t, none) ∧ FailureOk b t := by
  have hidle : FailureOk b b.clearBlockW :=
    ⟨fun i hi => absurd hi (by rw [show b.clearBlockW.posted = 0 from hb.posted]; omega),
      hb.stale, fun i hi => absurd hi (by rw [show b.clearBlockW.posted = 0 from hb.posted]; omega),
      hb.subblocks, ⟨rfl, rfl⟩, rfl⟩
  cases ha : l.alloc with
  | false =>
      refine ⟨0, b.clearBlockW, ?_, hidle⟩
      simp [evictBlock, ha, evictError, show b.clearBlockW.headWr = none from hb.headWr]
  | true =>
      have h0 : l.fails 0 = true := by simpa [ha] using hl
      have hn : 0 < p.numSubblock := by
        rcases hf with hf | ⟨i, hi, -⟩
        · simp [ha] at hf
        · omega
      obtain ⟨k, hk⟩ := Nat.exists_eq_succ_of_ne_zero (Nat.ne_of_gt hn)
      have hloop : postLoop p l p.numSubblock b.clearBlockW =
          (b.clearBlockW.takeSubblock 0, some 0) := by
        simp [hk, postLoop, show b.clearBlockW.posted = 0 from hb.posted, h0]
      refine ⟨0, (b.clearBlockW.takeSubblock 0).releaseSubblock 0, ?_, ?_⟩
      · simp [evictBlock, ha, hloop, evictError,
          show (b.clearBlockW.takeSubblock 0).headWr = none from hb.headWr]
      · refine ⟨hidle.requests, hidle.stale, hidle.lists, fun i => ?_, hidle.localPage,
          hidle.rState⟩
        have hi := hb.subblocks i
        by_cases h : i = 0
        · subst h
          simpa [releaseSubblock, takeSubblock, clearBlockW] using hi
        · simpa [releaseSubblock, takeSubblock, clearBlockW, h] using hi

/-- **A writeback that fails leaves nothing behind**, exactly if it fails before its first
request: at the allocation of the remote pages or at the first post. -/
theorem evictBlock_fails_iff (hb : b.Idle) (hf : Fails p l) :
    (∃ fuel t, b.evictBlock p l fuel = some (t, none) ∧ FailureOk b t) ↔
      l.alloc = false ∨ l.fails 0 = true := by
  refine ⟨?_, fun hl => failureOk_of_first hb hl hf⟩
  rintro ⟨fuel, t, ht, hok⟩
  by_contra hno
  rw [not_or] at hno
  have ha : l.alloc = true := by simpa using hno.1
  have h0 : l.fails 0 = false := by simpa using hno.2
  have hpo : b.clearBlockW.posted = 0 := hb.posted
  have hex : ∃ i, b.clearBlockW.posted ≤ i ∧ i < b.clearBlockW.posted + p.numSubblock ∧
      l.fails i = true := by
    rcases hf with hf | ⟨i, hi, hfi⟩
    · simp [ha] at hf
    · exact ⟨i, by omega, by omega, hfi⟩
  obtain ⟨u, victim, hu, -, hgt, hfr, hhead⟩ := postLoop_fails (p := p) p.numSubblock hex
    fun h => absurd h (by omega)
  have hpos : 0 < u.posted := by
    have := hgt (by rw [hpo]; exact h0)
    omega
  simp only [evictBlock, ha, if_true, hu, Option.map_eq_some_iff, Prod.mk.injEq] at ht
  obtain ⟨v, hv, rfl, -⟩ := ht
  exact not_failureOk_of_head (hhead hpos) hpos (hfr.trans hb.frees) hv hok

/-- What decides about the outcome is the first subblock whose post fails: with exactly one request
posted the failure path does not end. -/
theorem evictBlock_cases (hb : b.Idle) (hn : 0 < p.numSubblock) (ha : l.alloc = true) :
    match (List.range p.numSubblock).find? l.fails with
    | none => ∀ fuel, ∃ t, b.evictBlock p l fuel = some (t, some 0)
    | some 1 => ∀ fuel, b.evictBlock p l fuel = none
    | some _ => ∃ fuel t, b.evictBlock p l fuel = some (t, none) := by
  have hstart : Posted p b.clearBlockW 0 := ⟨hb.posted, hb.headWr, nofun, nofun⟩
  have hloop := postLoop_spec (l := l) p.numSubblock hstart
  rw [← List.range_eq_range'] at hloop
  cases hfind : (List.range p.numSubblock).find? l.fails with
  | none =>
      rw [hfind] at hloop
      obtain ⟨t, ht, hposted⟩ := hloop
      have hhead : t.headWr = some 0 := by
        rw [hposted.headWr, if_neg (by omega)]
      intro fuel
      refine ⟨t.endPosts p, ?_⟩
      simp only [evictBlock, ha, if_true, ht, hhead]
  | some j =>
      rw [hfind] at hloop
      obtain ⟨t, ht, hposted⟩ := hloop
      have hrun : ∀ fuel, b.evictBlock p l fuel =
          ((t.takeSubblock j).evictError fuel (some j)).map fun b => (b, none) := fun fuel => by
        simp only [evictBlock, ha, if_true, ht]
      match j with
      | 0 =>
          have hhead : (t.takeSubblock 0).headWr = none := hposted.headWr
          refine ⟨0, (t.takeSubblock 0).releaseSubblock 0, (hrun 0).trans ?_⟩
          rw [evictError, hhead]
          rfl
      | 1 =>
          intro fuel
          have hhead : (t.takeSubblock 1).headWr = some 0 := hposted.headWr
          have hempty : (t.takeSubblock 1).pendingList
              ((t.takeSubblock 1).wr.cell 0).chainedOps 0 = [] := by
            refine List.length_eq_zero_iff.mp ?_
            show (t.pendingList (t.wr.cell 0).chainedOps 0).length = 0
            rw [hposted.chained Nat.one_pos, hposted.pending Nat.one_pos]
          rw [hrun, evictError, hhead]
          simp only [cleanupLoop_of_empty hempty fuel, Option.map_none]
      | j + 2 =>
          have hhead : (t.takeSubblock (j + 2)).headWr = some 0 := hposted.headWr
          have hne : ((t.takeSubblock (j + 2)).pendingList
              ((t.takeSubblock (j + 2)).wr.cell 0).chainedOps 0).isEmpty = false := by
            rw [List.isEmpty_eq_false_iff, ← List.length_pos_iff]
            show 0 < (t.pendingList (t.wr.cell 0).chainedOps 0).length
            rw [hposted.chained (Nat.succ_pos _), hposted.pending (Nat.succ_pos _)]
            omega
          refine ⟨1, (List.range (j + 3)).foldl releaseSubblock (t.takeSubblock (j + 2)),
            (hrun 1).trans ?_⟩
          rw [evictError, hhead]
          simp only [cleanupLoop, hne, Bool.false_eq_true, if_false, Option.map_some,
            Option.getD_some]

theorem idle_unposted (rState : GpaState) : (unposted rState).Idle :=
  ⟨rfl, rfl, rfl, rfl, fun _ => ⟨rfl, rfl⟩⟩

/-- A block of three subblocks on a block device. -/
def threeWrites : EvictPlace := ⟨3, fun _ => .nvme, false, false⟩

/-- The device goes away before subblock `i` is posted. -/
def goneAt (i : ℕ) : Luck := ⟨true, fun k => i ≤ k, fun _ => 0, fun _ => false⟩

/-- The first post fails. -/
theorem evictBlock_fails_goneAt : ∃ fuel t,
    (unposted .transIl).evictBlock threeWrites (goneAt 0) fuel = some (t, none) ∧
      FailureOk (unposted .transIl) t :=
  (evictBlock_fails_iff (p := threeWrites) (idle_unposted .transIl)
    (.inr ⟨0, by decide, rfl⟩)).mpr (.inr rfl)

/-- **The claim fails**: the third post fails, and the two requests that were posted are neither
waited for nor freed. -/
theorem not_evictBlock_fails_goneAt : ¬ ∃ fuel t,
    (unposted .transIl).evictBlock threeWrites (goneAt 2) fuel = some (t, none) ∧
      FailureOk (unposted .transIl) t := by
  rintro ⟨fuel, t, ht, hok⟩
  cases fuel with
  | zero => cases ht
  | succ fuel =>
      obtain rfl : _ = t := congrArg Prod.fst (Option.some.inj ht)
      have hone := (hok.requests 0 (by decide)).2
      cases hone

end EvictedBlock

end Emp
