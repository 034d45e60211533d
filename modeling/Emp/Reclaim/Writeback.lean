import Emp.Reclaim.Block
import Mathlib

/-!
# No update is lost through eviction

Dirtiness lives in three places: the page table entries of a mapped block, the flag of an
unmapped one, and an eager writeback that was posted earlier.  The invariant says what each
of them is worth: a block that is clean in all three, and whose words name pages, has its
contents on these pages or in flight to them.

`check_need_writeback` clears the flag before anything has been posted, so a writeback that
is refused afterwards leaves modified pages that count as clean.

## Main definitions

* `CachedBlock.Safe` — what is dropped is on the remote pages, what is refused is kept.
* `CachedBlock.Postable` — no refusal meets a block whose dirtiness it would lose.
* `CachedBlock.Inv` — the invariant.
-/

namespace Emp

namespace CachedBlock

variable {V : Type*} [Zero V] {c : ReclaimConfig} {b t : CachedBlock V}

/-- Whenever local pages were dropped, the remote pages held their contents, and whenever a
writeback was refused the local pages stayed, and a dirty block stayed dirty. -/
structure Safe (c : ReclaimConfig) (b : CachedBlock V) : Prop where
  drops : ∀ d ∈ b.drops, ∀ i < c.numSubblock, d.remote i = some (d.localPage i)
  refusals : ∀ r ∈ b.refusals, r.kept = true ∧ (r.dirtyBefore = true → r.dirtyAfter = true)

/-- All words name pages, but not all writes are posted. -/
def PostFails (c : ReclaimConfig) (b : CachedBlock V) (alloc : ℕ → Option ℕ) (posted : ℕ) : Prop :=
  (b.allocRemotePage c alloc).Named c ∧ posted < c.numSubblock

/-- A post is refused only as the first of its block, and not for a dirty block whose flag
decides about its writeback; ahead of eviction, not for a clean block with new pages. -/
def Postable (c : ReclaimConfig) (b : CachedBlock V) : ReclaimEvent V → Prop
  | .eager alloc posted =>
      b.checkEagerWbr.PostFails c alloc posted → posted = 0 ∧
        (c.writebackOptimizationDisable = true ∨ c.remoteReuse = false ∨
          b.checkEagerWbr.dirty = true ∨ b.Named c)
  | .evict alloc posted =>
      let v : CachedBlock V := { b with rState := .transIl }.checkEagerWbr
      v.PostFails c alloc posted →
        if c.writebackOptimizationDisable || !c.remoteReuse || !v.isBlockRemotePageValid c then
          posted = 0
        else v.dirty = false
  | _ => True

/-- The remote pages hold the contents of the local ones, or will when the writes in flight
have ended. -/
def Backed (c : ReclaimConfig) (b : CachedBlock V) : Prop :=
  ∀ i < c.numSubblock, ∃ p, b.remotePage i = some p ∧
    (b.inflight i = some p ∨ b.inflight i = none ∧ b.mem p = b.contents i)

/-- The block would be dropped without a writeback if it were evicted now. -/
structure Clean (c : ReclaimConfig) (b : CachedBlock V) : Prop where
  reuse : c.remoteReuse = true
  optimized : c.writebackOptimizationDisable = false
  held : b.rState = .active ∨ b.rState = .inactive
  flag : b.dirty = false
  pte : b.pteDirty = false
  named : b.Named c

/-- The invariant. -/
structure Inv (c : ReclaimConfig) (b : CachedBlock V) : Prop where
  resident : b.rState ≠ .init → b.touched = true ∧ b.localPage.isSome = true
  untouched : b.touched = false → ∀ i < c.numSubblock, b.remotePage i = none
  distinct : ∀ i < c.numSubblock, ∀ j < c.numSubblock, (b.remotePage i).isSome = true →
    b.remotePage i = b.remotePage j → i = j
  mapped : b.mapped = true → b.rState = .active
  pte : b.pteDirty = true → b.rState = .active
  eager : b.eagerWbr = true → b.rState = .inactive
  writing : b.eagerWbr = true ∨ b.rState = .wb → b.Backed c
  clean : b.Clean c → b.Backed c
  idle : b.eagerWbr = false → b.rState ≠ .wb → b.Idle c

/-! ## The parts of a step -/

omit [Zero V] in
theorem checkEagerWbr_eq :
    b.checkEagerWbr = { b with eagerWbr := false, dirty := b.dirty && !b.eagerWbr } := by
  simp only [checkEagerWbr]
  split
  · next he => simp [he]
  · next he =>
      cases b
      simp_all

omit [Zero V] in
theorem freeRemotePage_eq :
    b.freeRemotePage c = { b with remotePage := fun i =>
      if c.remoteReuse = false ∧ i < c.numSubblock then none else b.remotePage i } := by
  simp only [freeRemotePage]
  split
  · next hr => simp [hr]
  · next hr => simp [hr]

/-- A wait for writes in flight leaves the contents on the remote pages. -/
theorem Backed.remote (h : b.Backed c) (hi : b.Idle c) (ht : b.touched = true) :
    ∀ i < c.numSubblock, b.remote i = some (b.contents i) := by
  intro i hin
  obtain ⟨p, hp, hf | ⟨-, hm⟩⟩ := h i hin
  · rw [hi i hin] at hf
    cases hf
  · simp [CachedBlock.remote, ht, hp, hm]

theorem inv_checkEagerWbr (h : b.Inv c) (hw : b.canClearBlockW c = true) :
    b.checkEagerWbr.Inv c := by
  rw [checkEagerWbr_eq]
  refine ⟨h.resident, h.untouched, h.distinct, h.mapped, h.pte, fun he => (by cases he), ?_, ?_, ?_⟩
  · intro hor
    rcases hor with he | hwb
    · cases he
    · exact h.writing (.inr hwb)
  · intro hc
    by_cases he : b.eagerWbr = true
    · exact h.writing (.inl he)
    · have hd := hc.flag
      simp only [he, Bool.not_false, Bool.and_true] at hd
      exact h.clean ⟨hc.reuse, hc.optimized, hc.held, hd, hc.pte, hc.named⟩
  · intro _ hwb
    by_cases he : b.eagerWbr = true
    · have hidle : b.Idle c := by simpa [canClearBlockW, he] using hw
      exact hidle
    · exact h.idle (by simpa using he) hwb

/-- A block that is mapped with no writeback in flight. -/
theorem inv_map (write : Bool) (hres : b.touched = true ∧ b.localPage.isSome = true)
    (hd : ∀ i < c.numSubblock, ∀ j < c.numSubblock, (b.remotePage i).isSome = true →
      b.remotePage i = b.remotePage j → i = j)
    (he : b.eagerWbr = false) (hi : b.Idle c)
    (hc : Clean c { b with rState := .active } → b.Backed c) : (b.map write).Inv c := by
  refine ⟨fun _ => hres, fun hu => ?_, hd, fun _ => rfl, fun _ => rfl, fun h => ?_, ?_, ?_,
    fun _ _ => hi⟩
  · rw [show (b.map write).touched = b.touched from rfl, hres.1] at hu
    cases hu
  · rw [show (b.map write).eagerWbr = b.eagerWbr from rfl, he] at h
    cases h
  · intro hor
    rcases hor with h | h
    · rw [show (b.map write).eagerWbr = b.eagerWbr from rfl, he] at h
      cases h
    · cases h
  · intro hcl
    have hflag := hcl.flag
    simp only [map, Bool.or_eq_false_iff] at hflag
    exact hc ⟨hcl.reuse, hcl.optimized, .inl rfl, hflag.1, hcl.pte, hcl.named⟩

theorem distinct_freeRemotePage (h : b.Inv c) : ∀ i < c.numSubblock, ∀ j < c.numSubblock,
    ((b.freeRemotePage c).remotePage i).isSome = true →
      (b.freeRemotePage c).remotePage i = (b.freeRemotePage c).remotePage j → i = j := by
  intro i hi j hj hs heq
  rw [freeRemotePage_eq] at hs heq
  by_cases hr : c.remoteReuse = false
  · simp [hr, hi] at hs
  · simp only [hr] at hs heq
    exact h.distinct i hi j hj hs heq

/-! ## Faults -/

theorem inv_fetchBlock (h : b.Inv c) (hs : b.rState = .init) (write : Bool)
    (hn : b.touched = true → b.Named c) : ((b.fetchBlock c).map write).Inv c := by
  have he : b.eagerWbr = false := by
    by_contra hne
    rw [h.eager (by simpa using hne)] at hs
    cases hs
  have hi : b.Idle c := h.idle he (by rw [hs]; decide)
  by_cases ht : b.touched = true
  · have hfetch : b.fetchBlock c =
        ({ b with localPage := some fun i => (b.remote i).getD 0 } : CachedBlock V).freeRemotePage c := by
      simp only [fetchBlock, ht, if_true]
    rw [hfetch, freeRemotePage_eq]
    refine inv_map write ⟨ht, rfl⟩ ?_ he hi ?_
    · have hd := distinct_freeRemotePage h
      rw [freeRemotePage_eq] at hd
      exact hd
    · -- what was fetched is what the words still name
      intro hc i hin
      obtain ⟨p, hp⟩ := Option.isSome_iff_exists.mp (hn ht i hin)
      refine ⟨p, ?_, .inr ⟨hi i hin, ?_⟩⟩
      · simp [hc.reuse, hp]
      · simp [contents, CachedBlock.remote, ht, hp]
  · have ht' : b.touched = false := by simpa using ht
    have hfetch : b.fetchBlock c =
        { b with localPage := some fun i => (b.remote i).getD 0, touched := true } := by
      simp only [fetchBlock, ht', Bool.false_eq_true, if_false]
    rw [hfetch]
    refine inv_map write ⟨rfl, rfl⟩ h.distinct he hi ?_
    intro hc i hin
    have hnone := hc.named i hin
    rw [h.untouched ht' i hin] at hnone
    cases hnone

theorem inv_fault (h : b.Inv c) (write : Bool) (hs : b.fault c write = some t) : t.Inv c := by
  simp only [fault] at hs
  split at hs
  · next hst =>
      split at hs
      · cases hs
      · next hg =>
          cases hs
          refine inv_fetchBlock h hst write fun ht => ?_
          simpa [ht] using hg
  · next hst =>
      cases hs
      have he : b.eagerWbr = false := by
        by_contra hne
        rw [h.eager (by simpa using hne)] at hst
        cases hst
      refine inv_map write (h.resident (by rw [hst]; decide)) h.distinct he
        (h.idle he (by rw [hst]; decide)) ?_
      intro hc
      exact h.clean ⟨hc.reuse, hc.optimized, .inl hst, hc.flag, hc.pte, hc.named⟩
  · next hst =>
      split at hs
      · next hg =>
          cases hs
          have h' := inv_checkEagerWbr h hg
          have hst' : b.checkEagerWbr.rState = .inactive := by rw [checkEagerWbr_eq]; exact hst
          have he' : b.checkEagerWbr.eagerWbr = false := by rw [checkEagerWbr_eq]
          refine inv_map write (h'.resident (by rw [hst']; decide)) h'.distinct he'
            (h'.idle he' (by rw [hst']; decide)) ?_
          intro hc
          exact h'.clean ⟨hc.reuse, hc.optimized, .inr hst', hc.flag, hc.pte, hc.named⟩
      · cases hs
  · next hst =>
      split at hs
      · next hg =>
          cases hs
          have he : b.eagerWbr = false := by
            by_contra hne
            rw [h.eager (by simpa using hne)] at hst
            cases hst
          have hd := distinct_freeRemotePage h
          rw [freeRemotePage_eq] at hd ⊢
          refine inv_map write (h.resident (by rw [hst]; decide)) hd he hg ?_
          intro hc
          simp only [hc.reuse, Bool.true_eq_false, false_and, if_false]
          exact h.writing (.inr hst)
      · cases hs
  · cases hs

/-! ## Writebacks -/

omit [Zero V] in
/-- The words after an allocation name different pages. -/
theorem distinct_allocRemotePage {alloc : ℕ → Option ℕ}
    (hd : ∀ i < c.numSubblock, ∀ j < c.numSubblock, (b.remotePage i).isSome = true →
      b.remotePage i = b.remotePage j → i = j) (hf : b.Fresh c alloc) :
    ∀ i < c.numSubblock, ∀ j < c.numSubblock,
      ((b.allocRemotePage c alloc).remotePage i).isSome = true →
      (b.allocRemotePage c alloc).remotePage i = (b.allocRemotePage c alloc).remotePage j →
      i = j := by
  intro i hi j hj hs heq
  simp only [allocRemotePage, hi, hj, if_true] at hs heq
  cases hbi : b.remotePage i with
  | some p =>
      rw [hbi] at heq
      cases hbj : b.remotePage j with
      | some q =>
          rw [hbj] at heq
          exact hd i hi j hj (by rw [hbi]; rfl) (by rw [hbi, hbj]; exact heq)
      | none =>
          -- the page of `i` is not given out for `j`
          rw [hbj] at heq
          have hsome : (alloc j).isSome = true := by rw [← show some p = alloc j from heq]; rfl
          exact absurd (hbi.trans heq) (hf j hj i hi hsome).1
  | none =>
      rw [hbi] at hs heq
      have hsome : (alloc i).isSome = true := hs
      cases hbj : b.remotePage j with
      | some q =>
          rw [hbj] at heq
          exact absurd (hbj.trans heq.symm) (hf i hi j hj hsome).1
      | none =>
          rw [hbj] at heq
          exact (hf i hi j hj hsome).2 heq.symm

omit [Zero V] in
/-- What a refused writeback leaves unchanged, if nothing of it was posted. -/
theorem unwind_eq {alloc : ℕ → Option ℕ} {posted : ℕ} (hp : b.PostFails c alloc posted → posted = 0)
    (hr : b.refuses c alloc posted = true) :
    b.unwind c alloc posted = (b.allocRemotePage c alloc).freeRemotePage c := by
  by_cases hn : (b.allocRemotePage c alloc).Named c
  · have hlt : posted < c.numSubblock := by simpa [refuses, hn] using hr
    have hzero := hp ⟨hn, hlt⟩
    have hpost : (b.allocRemotePage c alloc).post c 0 = b.allocRemotePage c alloc := by
      simp [post]
    simp only [unwind, hn, if_true, hzero, hpost]
  · simp only [unwind, hn, if_false]

/-- A block in the hands of the reclaimer, whatever its dirty flag. -/
theorem inv_transIl (h : b.Inv c) (hst : b.rState = .inactive) (he : b.eagerWbr = false)
    (dirty : Bool) : Inv c { b with rState := .transIl, dirty := dirty } := by
  have hidle := h.idle he (by rw [hst]; decide)
  refine ⟨fun _ => h.resident (by rw [hst]; decide), h.untouched, h.distinct, fun hm => ?_,
    fun hp => ?_, fun he' => ?_, fun hor => ?_, fun hc => ?_, fun _ _ => hidle⟩
  · have := h.mapped hm
    rw [hst] at this
    cases this
  · have := h.pte hp
    rw [hst] at this
    cases this
  · rw [show b.eagerWbr = true from he'] at he
    cases he
  · rcases hor with he' | hwb
    · rw [show b.eagerWbr = true from he'] at he
      cases he
    · cases hwb
  · rcases hc.held with hx | hx <;> cases hx

/-- A refused writeback, if a block that is clean after it had all its pages before. -/
theorem inv_unwind {alloc : ℕ → Option ℕ} {posted : ℕ} (h : b.Inv c)
    (hst : b.rState = .inactive ∨ b.rState = .transIl) (he : b.eagerWbr = false)
    (hf : b.Fresh c alloc) (hp : b.PostFails c alloc posted → posted = 0)
    (hr : b.refuses c alloc posted = true)
    (hn : c.remoteReuse = true → c.writebackOptimizationDisable = false → b.rState = .inactive →
      b.dirty = false → (b.allocRemotePage c alloc).Named c → b.Named c) :
    (b.unwind c alloc posted).Inv c := by
  have hna : b.rState ≠ .active := by rcases hst with hx | hx <;> rw [hx] <;> decide
  have hnw : b.rState ≠ .wb := by rcases hst with hx | hx <;> rw [hx] <;> decide
  have hni : b.rState ≠ .init := by rcases hst with hx | hx <;> rw [hx] <;> decide
  have hd := distinct_allocRemotePage h.distinct hf
  rw [unwind_eq hp hr, freeRemotePage_eq]
  refine ⟨fun _ => h.resident hni, fun hu => ?_, ?_, h.mapped, h.pte, h.eager, fun hor => ?_, ?_,
    fun _ _ => h.idle he hnw⟩
  · have htouched := (h.resident hni).1
    rw [show b.touched = false from hu] at htouched
    cases htouched
  · intro i hi j hj hs heq
    by_cases hreuse : c.remoteReuse = false
    · simp [hreuse, hi] at hs
    · simp only [hreuse] at hs heq
      exact hd i hi j hj hs heq
  · rcases hor with he' | hwb
    · rw [show b.eagerWbr = true from he'] at he
      cases he
    · exact absurd hwb hnw
  · intro hc
    have hin : b.rState = .inactive := hc.held.resolve_left hna
    have hnamed := hc.named
    simp only [hc.reuse, Bool.true_eq_false, false_and, if_false] at hnamed ⊢
    have hb := hn hc.reuse hc.optimized hin hc.flag hnamed
    intro i hi
    obtain ⟨p, hp', hor⟩ := h.clean ⟨hc.reuse, hc.optimized, .inr hin, hc.flag, hc.pte, hb⟩ i hi
    refine ⟨p, ?_, hor⟩
    simp [allocRemotePage, hi, hp']

/-- A writeback that was posted. -/
theorem inv_evictBlock {alloc : ℕ → Option ℕ} {posted : ℕ} (eagerEvict : Bool) (h : b.Inv c)
    (hst : if eagerEvict then b.rState = .inactive else b.rState = .transIl)
    (hf : b.Fresh c alloc) (hr : b.refuses c alloc posted = false) :
    (b.evictBlock c eagerEvict alloc posted).2.Inv c := by
  have hna : b.rState ≠ .active := by cases eagerEvict <;> simp_all
  have hni : b.rState ≠ .init := by cases eagerEvict <;> simp_all
  have hd := distinct_allocRemotePage h.distinct hf
  have hnamed : (b.allocRemotePage c alloc).Named c := by
    simp only [refuses, Bool.or_eq_false_iff, Bool.not_eq_false', decide_eq_true_eq] at hr
    exact hr.1
  have hback : ((b.allocRemotePage c alloc).post c c.numSubblock).Backed c := by
    intro i hi
    obtain ⟨p, hp⟩ := Option.isSome_iff_exists.mp (hnamed i hi)
    refine ⟨p, hp, .inl ?_⟩
    simp only [post, hi, and_self, if_true]
    exact hp
  have hres := h.resident hni
  simp only [evictBlock, hr, Bool.false_eq_true, if_false]
  cases eagerEvict with
  | true =>
      simp only [if_true] at hst ⊢
      refine ⟨fun _ => hres, fun hu => ?_, hd, h.mapped, h.pte, fun _ => hst, fun _ => hback,
        fun _ => hback, fun he => (by cases he)⟩
      rw [show b.touched = false from hu] at hres
      cases hres.1
  | false =>
      simp only [Bool.false_eq_true, if_false] at hst ⊢
      refine ⟨fun _ => hres, fun hu => ?_, hd, fun hm => absurd (h.mapped hm) hna,
        fun hp => absurd (h.pte hp) hna, fun he => ?_, fun _ => hback, fun _ => hback,
        fun _ hwb => absurd rfl hwb⟩
      · rw [show b.touched = false from hu] at hres
        cases hres.1
      · have := h.eager he
        rw [hst] at this
        cases this

/-- Dropping the pages of a block that is idle. -/
theorem inv_setGpaRemote (h : b.Inv c) (hi : b.Idle c) (hna : b.rState ≠ .active) :
    b.setGpaRemote.Inv c := by
  refine ⟨fun hne => absurd rfl hne, h.untouched, h.distinct, fun hm => absurd (h.mapped hm) hna,
    fun hp => absurd (h.pte hp) hna, fun he => (by cases he), fun hor => ?_, fun hc => ?_,
    fun _ _ => hi⟩
  · rcases hor with he | hwb
    · cases he
    · cases hwb
  · rcases hc.held with hx | hx <;> cases hx

/-! ## Whole steps -/

omit [Zero V] in
theorem safe_of_log (h : b.Safe c) (hd : t.drops = b.drops) (hr : t.refusals = b.refusals) :
    t.Safe c :=
  ⟨by rw [hd]; exact h.drops, by rw [hr]; exact h.refusals⟩

/-- A drop of pages that are on the remote pages too. -/
theorem safe_setGpaRemote (h : b.Safe c)
    (hb : ∀ i < c.numSubblock, b.remote i = some (b.contents i)) : b.setGpaRemote.Safe c := by
  refine ⟨fun d hd => ?_, h.refusals⟩
  rcases List.mem_cons.mp hd with rfl | hd
  · exact hb
  · exact h.drops d hd

omit [Zero V] in
/-- A refusal that kept the pages and the flag. -/
theorem safe_refused {dirty : Bool} (h : t.Safe c) (hl : t.localPage.isSome = true)
    (hd : dirty = true → t.dirty = true) : (refused dirty t).Safe c := by
  refine ⟨h.drops, fun r hr => ?_⟩
  rcases List.mem_cons.mp hr with rfl | hr
  · exact ⟨hl, hd⟩
  · exact h.refusals r hr

theorem inv_refused {dirty : Bool} (h : t.Inv c) : (refused dirty t).Inv c :=
  ⟨h.resident, h.untouched, h.distinct, h.mapped, h.pte, h.eager, h.writing,
    fun hc => h.clean ⟨hc.reuse, hc.optimized, hc.held, hc.flag, hc.pte, hc.named⟩, h.idle⟩

theorem doEagerWriteback_spec {alloc : ℕ → Option ℕ} {posted : ℕ} (h : b.Inv c) (hsafe : b.Safe c)
    (hst : b.rState = .inactive) (hw : b.canClearBlockW c = true) (hf : b.Fresh c alloc)
    (hok : b.Postable c (.eager alloc posted)) :
    (b.doEagerWriteback c alloc posted).Inv c ∧ (b.doEagerWriteback c alloc posted).Safe c := by
  have hv := inv_checkEagerWbr h hw
  have hvst : b.checkEagerWbr.rState = .inactive := by rw [checkEagerWbr_eq]; exact hst
  have hve : b.checkEagerWbr.eagerWbr = false := by rw [checkEagerWbr_eq]
  have hvf : b.checkEagerWbr.Fresh c alloc := by rw [checkEagerWbr_eq]; exact hf
  have hvsafe : b.checkEagerWbr.Safe c := by
    rw [checkEagerWbr_eq]
    exact safe_of_log hsafe rfl rfl
  simp only [doEagerWriteback]
  cases hr : b.checkEagerWbr.refuses c alloc posted with
  | false =>
      have hinv := inv_evictBlock true hv (by simpa using hvst) hvf hr
      simp only [evictBlock, hr, Bool.false_eq_true, if_false, if_true] at hinv ⊢
      exact ⟨hinv, safe_of_log hvsafe rfl rfl⟩
  | true =>
      have hn : b.checkEagerWbr.Named c = b.Named c := by rw [checkEagerWbr_eq]; rfl
      have hzero := fun hp => (hok hp).1
      have hinv := inv_unwind hv (.inl hvst) hve hvf hzero hr fun hreuse hopt _ hd hnamed => by
        have hlt : posted < c.numSubblock := by simpa [refuses, hnamed] using hr
        rcases (hok ⟨hnamed, hlt⟩).2 with hx | hx | hx | hx
        · rw [hopt] at hx
          cases hx
        · rw [hreuse] at hx
          cases hx
        · rw [hd] at hx
          cases hx
        · exact hn ▸ hx
      simp only [evictBlock, hr, if_true, Bool.false_eq_true, if_false]
      have hun := unwind_eq hzero hr
      refine ⟨inv_refused hinv, safe_refused ?_ ?_ ?_⟩
      · rw [hun, freeRemotePage_eq]
        exact safe_of_log hvsafe rfl rfl
      · rw [hun, freeRemotePage_eq]
        exact (hv.resident (by rw [hvst]; decide)).2
      · intro hd
        rw [hun, freeRemotePage_eq]
        exact hd

/-- A writeback that is needed, of a block whose dirty flag is now `dirty`. -/
theorem evictBlock_spec {alloc : ℕ → Option ℕ} {posted : ℕ} (h : b.Inv c) (hsafe : b.Safe c)
    (hst : b.rState = .transIl) (he : b.eagerWbr = false) (hf : b.Fresh c alloc)
    (hp : b.PostFails c alloc posted → posted = 0) {dirty : Bool}
    (hd : b.refuses c alloc posted = true → dirty = true → b.dirty = true) :
    let e := b.evictBlock c false alloc posted
    let t := if e.1 then e.2 else refused dirty e.2
    t.Inv c ∧ t.Safe c := by
  cases hr : b.refuses c alloc posted with
  | false =>
      have hinv := inv_evictBlock false h (by simpa using hst) hf hr
      simp only [evictBlock, hr, Bool.false_eq_true, if_false, if_true] at hinv ⊢
      exact ⟨hinv, safe_of_log hsafe rfl rfl⟩
  | true =>
      have hinv := inv_unwind h (.inr hst) he hf hp hr fun _ _ hin => by
        rw [hst] at hin
        cases hin
      simp only [evictBlock, hr, if_true, Bool.false_eq_true, if_false]
      have hun := unwind_eq hp hr
      refine ⟨inv_refused hinv, safe_refused ?_ ?_ ?_⟩
      · rw [hun, freeRemotePage_eq]
        exact safe_of_log hsafe rfl rfl
      · rw [hun, freeRemotePage_eq]
        exact (h.resident (by rw [hst]; decide)).2
      · intro hdirty
        rw [hun, freeRemotePage_eq]
        exact hd hr hdirty

/-- The eviction of a victim that has no eager writeback left. -/
theorem empWritebackBlock_spec {alloc : ℕ → Option ℕ} {posted : ℕ} (h : b.Inv c)
    (hsafe : b.Safe c) (hst : b.rState = .inactive) (he : b.eagerWbr = false)
    (hf : b.Fresh c alloc)
    (hok : b.PostFails c alloc posted →
      if c.writebackOptimizationDisable || !c.remoteReuse ||
          !isBlockRemotePageValid c { b with rState := .transIl } then posted = 0
      else b.dirty = false) :
    (empWritebackBlock c { b with rState := .transIl } alloc posted).Inv c ∧
      (empWritebackBlock c { b with rState := .transIl } alloc posted).Safe c := by
  have hidle := h.idle he (by rw [hst]; decide)
  have hres := h.resident (by rw [hst]; decide)
  have hvsafe : ∀ dirty, Safe c { b with rState := .transIl, dirty := dirty } := fun dirty =>
    safe_of_log hsafe rfl rfl
  -- the flag is only cleared if all words name pages
  have hkeep : checkNeedWriteback c { b with rState := .transIl } =
      (true, { b with rState := .transIl }) → (b.PostFails c alloc posted → posted = 0) →
      (empWritebackBlock c { b with rState := .transIl } alloc posted).Inv c ∧
        (empWritebackBlock c { b with rState := .transIl } alloc posted).Safe c := by
    intro hneed hzero
    simp only [empWritebackBlock, hneed, Bool.or_true, if_true]
    exact evictBlock_spec (inv_transIl h hst he b.dirty) (hvsafe b.dirty) rfl he hf hzero
      fun _ hd => hd
  by_cases hopt : c.writebackOptimizationDisable = true
  · exact hkeep (by simp [checkNeedWriteback, hopt]) (by simpa [hopt] using hok)
  by_cases hreuse : c.remoteReuse = true
  case neg => exact hkeep (by simp [checkNeedWriteback, hreuse]) (by simpa [hreuse] using hok)
  by_cases hvalid : isBlockRemotePageValid c { b with rState := .transIl } = true
  case neg =>
    exact hkeep (by simp [checkNeedWriteback, hopt, hreuse, hvalid]) (by simpa [hvalid] using hok)
  have hopt' : c.writebackOptimizationDisable = false := by simpa using hopt
  have hneed : checkNeedWriteback c { b with rState := .transIl } =
      (b.dirty, { b with rState := .transIl, dirty := false }) := by
    simp [checkNeedWriteback, hopt', hreuse, hvalid]
  have hnamed : b.Named c := by
    have hv := hvalid
    simp only [isBlockRemotePageValid, hres.1, Bool.not_true, Bool.false_eq_true, if_false] at hv
    exact of_decide_eq_true hv
  by_cases hdirty : b.dirty = true
  case pos =>
      simp only [empWritebackBlock, hneed]
      simp only [hdirty, Bool.or_true, if_true]
      have hall : Named c (allocRemotePage c { b with rState := .transIl, dirty := false } alloc) := by
        intro i hi
        simp only [allocRemotePage, hi, if_true]
        obtain ⟨p, hp⟩ := Option.isSome_iff_exists.mp (hnamed i hi)
        rw [hp]
        rfl
      have hnone : ¬ posted < c.numSubblock := by
        intro hlt
        have hclean := hok ⟨hall, hlt⟩
        simp only [hopt', hreuse, hvalid, Bool.not_true, Bool.or_false, Bool.false_eq_true,
          if_false] at hclean
        rw [hdirty] at hclean
        cases hclean
      have hr : refuses c { b with rState := .transIl, dirty := false } alloc posted = false := by
        simp [refuses, hall, hnone]
      exact evictBlock_spec (inv_transIl h hst he false) (hvsafe false) rfl he hf
        (fun hp => absurd hp.2 hnone) fun hx => by
          rw [hr] at hx
          cases hx
  case neg =>
      rw [Bool.not_eq_true] at hdirty
      simp only [empWritebackBlock, hneed]
      simp only [hdirty, hopt', Bool.or_false, Bool.false_eq_true, if_false]
      have hpte : b.pteDirty = false := by
        by_contra hx
        have := h.pte (by simpa using hx)
        rw [hst] at this
        cases this
      have hback := h.clean ⟨hreuse, hopt', .inr hst, hdirty, hpte, hnamed⟩
      exact ⟨inv_setGpaRemote (inv_transIl h hst he false) hidle (fun hx => by cases hx),
        safe_setGpaRemote (hvsafe false) (hback.remote hidle hres.1)⟩

/-- The end of a write: its page holds what the local page holds. -/
theorem inv_dma {i p : ℕ} {stray : V} (h : b.Inv c) (hi : i < c.numSubblock)
    (hf : b.inflight i = some p) : Inv c { b with
      mem := Function.update b.mem p (if b.localPage.isSome then b.contents i else stray)
      inflight := Function.update b.inflight i none } := by
  have hor : b.eagerWbr = true ∨ b.rState = .wb := by
    by_contra hno
    rw [not_or] at hno
    have := h.idle (by simpa using hno.1) hno.2 i hi
    rw [hf] at this
    cases this
  have hni : b.rState ≠ .init := by
    rcases hor with he | hwb
    · rw [h.eager he]
      decide
    · rw [hwb]
      decide
  have hres := h.resident hni
  have hword : b.remotePage i = some p := by
    obtain ⟨q, hq, hx | ⟨hx, -⟩⟩ := h.writing hor i hi
    · rw [hf] at hx
      exact hq.trans hx.symm
    · rw [hf] at hx
      cases hx
  have hback : Backed c { b with
      mem := Function.update b.mem p (if b.localPage.isSome then b.contents i else stray)
      inflight := Function.update b.inflight i none } := by
    intro j hj
    obtain ⟨q, hq, hx⟩ := h.writing hor j hj
    refine ⟨q, hq, ?_⟩
    by_cases hji : j = i
    · subst hji
      have hqp : q = p := Option.some.inj (hq.symm.trans hword)
      refine .inr ⟨Function.update_self .., ?_⟩
      simp [hqp, hres.2, contents]
    · have hqp : q ≠ p := by
        intro he
        rw [he] at hq
        exact hji (h.distinct j hj i hi (by rw [hq]; rfl) (hq.trans hword.symm))
      simp only [Function.update_of_ne hji, Function.update_of_ne hqp]
      exact hx
  refine ⟨h.resident, h.untouched, h.distinct, h.mapped, h.pte, h.eager, fun _ => hback,
    fun _ => hback, fun he hwb => ?_⟩
  rcases hor with hx | hx
  · rw [show b.eagerWbr = false from he] at hx
    cases hx
  · exact absurd hx hwb

/-- A write to a page that is not the block's. -/
theorem inv_foreign {p : ℕ} {v : V} (h : b.Inv c)
    (hp : ∀ i < c.numSubblock, b.remotePage i ≠ some p) :
    Inv c { b with mem := Function.update b.mem p v } := by
  have hback : b.Backed c → Backed c { b with mem := Function.update b.mem p v } := by
    intro hb i hi
    obtain ⟨q, hq, hx⟩ := hb i hi
    have hqp : q ≠ p := fun he => hp i hi (he ▸ hq)
    refine ⟨q, hq, ?_⟩
    simp only [Function.update_of_ne hqp]
    exact hx
  exact ⟨h.resident, h.untouched, h.distinct, h.mapped, h.pte, h.eager,
    fun hor => hback (h.writing hor),
    fun hc => hback (h.clean ⟨hc.reuse, hc.optimized, hc.held, hc.flag, hc.pte, hc.named⟩), h.idle⟩

theorem safe_fault (h : b.Safe c) (write : Bool) (hs : b.fault c write = some t) : t.Safe c := by
  simp only [fault] at hs
  split at hs
  · split at hs
    · cases hs
    · cases hs
      simp only [fetchBlock]
      split
      · rw [freeRemotePage_eq]
        exact safe_of_log h rfl rfl
      · exact safe_of_log h rfl rfl
  · cases hs
    exact safe_of_log h rfl rfl
  · split at hs
    · cases hs
      rw [checkEagerWbr_eq]
      exact safe_of_log h rfl rfl
    · cases hs
  · split at hs
    · cases hs
      rw [freeRemotePage_eq]
      exact safe_of_log h rfl rfl
    · cases hs
  · cases hs

theorem inv_of_start (h : b.Start) : b.Inv c := by
  obtain ⟨hst, ht, hd, he, hm, hp, hw, hf, -, -⟩ := h
  refine ⟨fun hne => absurd hst hne, fun _ i _ => hw i, fun i _ j _ hs => ?_, fun hx => ?_,
    fun hx => ?_, fun hx => ?_, fun hx => ?_, fun hc => ?_, fun _ _ i _ => hf i⟩
  · rw [hw i] at hs
    cases hs
  · rw [hm] at hx
    cases hx
  · rw [hp] at hx
    cases hx
  · rw [he] at hx
    cases hx
  · rw [he, hst] at hx
    rcases hx with hx | hx <;> cases hx
  · have hheld := hc.held
    rw [hst] at hheld
    rcases hheld with hx | hx <;> cases hx

theorem spec_of_step {e : ReclaimEvent V} (h : b.Inv c) (hsafe : b.Safe c)
    (hok : b.Postable c e) (hs : step c b e = some t) : t.Inv c ∧ t.Safe c := by
  cases e with
  | fault write => exact ⟨inv_fault h write hs, safe_fault hsafe write hs⟩
  | store i v =>
      simp only [step] at hs
      split at hs
      · next hg =>
          simp only [Bool.and_eq_true] at hg
          cases hs
          have hst := h.mapped hg.1
          have hres := h.resident (by rw [hst]; decide)
          have he : b.eagerWbr = false := by
            by_contra hx
            rw [h.eager (by simpa using hx)] at hst
            cases hst
          refine ⟨⟨fun _ => ⟨hres.1, rfl⟩, h.untouched, h.distinct, h.mapped, fun _ => hst, h.eager,
            fun hor => ?_, fun hc => ?_, h.idle⟩, safe_of_log hsafe rfl rfl⟩
          · rcases hor with hx | hx
            · rw [show b.eagerWbr = true from hx] at he
              cases he
            · rw [show b.rState = .wb from hx] at hst
              cases hst
          · cases hc.pte
      · cases hs
  | setPromote =>
      simp only [step] at hs
      split at hs
      · cases hs
      · cases hs
        exact ⟨⟨h.resident, h.untouched, h.distinct, h.mapped, h.pte, h.eager, h.writing,
          fun hc => h.clean ⟨hc.reuse, hc.optimized, hc.held, hc.flag, hc.pte, hc.named⟩, h.idle⟩,
          safe_of_log hsafe rfl rfl⟩
  | unmap =>
      simp only [step, beq_iff_eq] at hs
      split at hs
      · next hst =>
          cases hs
          have he : b.eagerWbr = false := by
            by_contra hx
            rw [h.eager (by simpa using hx)] at hst
            cases hst
          have hidle := h.idle he (by rw [hst]; decide)
          refine ⟨⟨fun _ => h.resident (by rw [hst]; decide), h.untouched, h.distinct,
            fun hm => (by cases hm), fun hp => (by cases hp), fun _ => rfl, fun hor => ?_,
            fun hc => ?_, fun _ _ => hidle⟩, safe_of_log hsafe rfl rfl⟩
          · rcases hor with hx | hx
            · rw [show b.eagerWbr = true from hx] at he
              cases he
            · cases hx
          · have hd := hc.flag
            simp only [Bool.or_eq_false_iff] at hd
            exact h.clean ⟨hc.reuse, hc.optimized, .inl hst, hd.1, hd.2, hc.named⟩
      · cases hs
  | eager alloc posted =>
      simp only [step, beq_iff_eq, Bool.and_eq_true, decide_eq_true_eq] at hs
      split at hs
      · next hg =>
          cases hs
          exact doEagerWriteback_spec h hsafe hg.1.1 hg.1.2 hg.2 hok
      · cases hs
  | promoteVictim =>
      simp only [step, beq_iff_eq, Bool.and_eq_true] at hs
      split at hs
      · next hg =>
          cases hs
          have hv := inv_checkEagerWbr h hg.2
          have hst : b.checkEagerWbr.rState = .inactive := by rw [checkEagerWbr_eq]; exact hg.1.1
          have he : b.checkEagerWbr.eagerWbr = false := by rw [checkEagerWbr_eq]
          refine ⟨⟨fun _ => hv.resident (by rw [hst]; decide), hv.untouched, hv.distinct,
            fun _ => rfl, fun _ => rfl, fun hx => ?_, fun hor => ?_, fun hc => ?_,
            fun _ _ => hv.idle he (by rw [hst]; decide)⟩, ?_⟩
          · rw [show b.checkEagerWbr.eagerWbr = true from hx] at he
            cases he
          · rcases hor with hx | hx
            · rw [show b.checkEagerWbr.eagerWbr = true from hx] at he
              cases he
            · cases hx
          · exact hv.clean ⟨hc.reuse, hc.optimized, .inr hst, hc.flag, hc.pte, hc.named⟩
          · rw [checkEagerWbr_eq]
            exact safe_of_log hsafe rfl rfl
      · cases hs
  | evict alloc posted =>
      simp only [step, beq_iff_eq, Bool.and_eq_true, decide_eq_true_eq] at hs
      split at hs
      · next hg =>
          cases hs
          have hcomm : ({ b with rState := .transIl } : CachedBlock V).checkEagerWbr =
              { b.checkEagerWbr with rState := .transIl } := by simp only [checkEagerWbr_eq]
          simp only [Postable, hcomm] at hok
          rw [hcomm]
          have hv := inv_checkEagerWbr h hg.1.2
          refine empWritebackBlock_spec hv ?_ ?_ ?_ ?_ hok
          · rw [checkEagerWbr_eq]
            exact safe_of_log hsafe rfl rfl
          · rw [checkEagerWbr_eq]
            exact hg.1.1.1
          · rw [checkEagerWbr_eq]
          · rw [checkEagerWbr_eq]
            exact hg.2
      · cases hs
  | dma i stray =>
      simp only [step] at hs
      split at hs
      · next hi =>
          obtain ⟨p, hf, rfl⟩ := Option.map_eq_some_iff.mp hs
          exact ⟨inv_dma h hi hf, safe_of_log hsafe rfl rfl⟩
      · cases hs
  | reclaim =>
      simp only [step, beq_iff_eq, Bool.and_eq_true, decide_eq_true_eq] at hs
      split at hs
      · next hg =>
          cases hs
          have hres := h.resident (by rw [hg.1]; decide)
          exact ⟨inv_setGpaRemote h hg.2 (by rw [hg.1]; decide),
            safe_setGpaRemote hsafe ((h.writing (.inr hg.1)).remote hg.2 hres.1)⟩
      · cases hs
  | foreign p v =>
      simp only [step] at hs
      split at hs
      · next hp =>
          cases hs
          exact ⟨inv_foreign h hp, safe_of_log hsafe rfl rfl⟩
      · cases hs

/-- A block of one subblock with the default options. -/
def oneSubblock : ReclaimConfig := ⟨1, true, false⟩

/-- A block that is written to and evicted, its second writeback with `posted` posts. -/
def writeAndEvict (posted : ℕ) : List (ReclaimEvent ℕ) :=
  [.fault true, .store 0 1, .unmap, .evict some 1, .dma 0 0, .reclaim,
    .fault true, .store 0 2, .unmap, .evict (fun _ => none) posted]

end CachedBlock

end Emp
