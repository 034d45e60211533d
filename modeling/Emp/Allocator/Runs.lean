import Emp.Allocator.Policies

/-!
# Runs of the allocator

Over any sequence of allocations and releases that meet `AllocCond` the contract
holds in every state.  Outside the condition two of the loops break it.

## Main results

* `allocatorOk_of_run` — the contract over runs.
* `alloc_diffMr_outside`, `alloc_sameMr_overcounts` — the two loops that break it.
-/

namespace Emp

open BitSearch Transition

section Run

variable {sbOrder : ℕ} {s : RemoteMem}

theorem allocInv_init (H : AllocInit sbOrder s) : AllocInv sbOrder (fun _ => 0) s where
  memreg := by
    intro id mr hmr
    obtain ⟨mb, rfl⟩ := H.fresh id mr hmr
    refine ⟨?_, rfl, ?_, ?_, ?_, Nat.zero_le _, fun b hb => absurd hb (Nat.not_lt_zero b)⟩
    · rfl
    · have hdvd : 2 ^ sbOrder ∣ 2 ^ 8 := Nat.pow_dvd_pow 2 (H.sbOrder_le.trans (by decide))
      simp only [createMr, Nat.shiftLeft_eq]
      exact hdvd.mul_left mb
    · intro b _
      simp [createMr, H.words]
    · simp [createMr, cleared_fill]
  inside := by
    intro g id offset hg
    simp [H.words] at hg
  once := by
    intro g g' id offset hg
    simp [H.words] at hg
  lt_last := H.lt_last
  lastAlloc_lt := H.lastAlloc

theorem AllocInv.ok (H : AllocInv sbOrder (fun _ => 0) s) : AllocatorOk sbOrder s where
  cleared_iff id mr hmr := (H.memreg id mr hmr).cleared_iff
  once := H.once
  allocLen_eq id mr hmr := by simpa using (H.memreg id mr hmr).allocLen_eq
  below_freeStart id mr hmr := (H.memreg id mr hmr).below_freeStart
  inside g id offset hg := by
    obtain ⟨mr, hmr, b, hb, rfl⟩ := H.inside g id offset hg
    have hend := lt_shiftRight_iff.mp hb
    rw [Nat.shiftLeft_eq, Nat.add_mul, Nat.one_mul] at hend
    refine ⟨mr, hmr, ?_, ?_⟩
    · rw [Nat.shiftLeft_eq]
      exact Nat.dvd_mul_left _ _
    · rw [Nat.shiftLeft_eq]
      exact hend

theorem gpasOf_nodup (head order : ℕ) : (gpasOf head order).Nodup := List.nodup_range'

/-- Counting the call for `remote_policy_block` leaves the regions alone. -/
theorem allocInv_checkMrChange (H : AllocInv sbOrder (fun _ => 0) s) (cfg : AllocConfig) :
    AllocInv sbOrder (fun _ => 0) (checkMrChange cfg s).2 ∧
      (checkMrChange cfg s).2.memregs = s.memregs ∧
      (checkMrChange cfg s).2.memregsLast = s.memregsLast ∧
      (checkMrChange cfg s).2.remotePage = s.remotePage := by
  unfold checkMrChange
  split
  · exact ⟨H, rfl, rfl, rfl⟩
  · exact ⟨⟨H.memreg, H.inside, H.once, H.lt_last, H.lastAlloc_lt⟩, rfl, rfl, rfl⟩

theorem mridFirst_lt (H : AllocInv sbOrder (fun _ => 0) s) (cfg : AllocConfig) :
    mridFirst cfg s < s.memregsLast := by
  unfold mridFirst
  split
  · exact Nat.mod_lt _ (Nat.zero_lt_of_lt H.lastAlloc_lt)
  · exact H.lastAlloc_lt

theorem allocInv_freeRemotePageBlock (cfg : AllocConfig) (gs : List ℕ) :
    ∀ s, AllocInv sbOrder (fun _ => 0) s →
      AllocInv sbOrder (fun _ => 0) (freeRemotePageBlock cfg s gs) := by
  intro s H
  unfold freeRemotePageBlock
  split
  · exact H
  · induction gs generalizing s with
    | nil => exact H
    | cons g gs ih => exact ih _ (allocInv_freeRemotePage H g)

/-- What one call of a policy does, for a block that needs a page. -/
theorem runPolicy_spec {cfg : AllocConfig} {head order : ℕ} (H : AllocInv sbOrder (fun _ => 0) s)
    (hcond : AllocCond sbOrder s (.alloc cfg head order))
    (hneed : ∃ g ∈ gpasOf head order, s.remotePage g = .free) :
    ∃ s' rem, runPolicy cfg sbOrder s (gpasOf head order) = some (s', rem) ∧
      AllocInv sbOrder (fun _ => 0) s' ∧
      (rem ≠ 0 → NoRoom (policyAsk cfg.remotePolicySubblock sbOrder
        (gpasOf head order).length) s') := by
  obtain ⟨H₁, hmemregs, hlast, hwords⟩ := allocInv_checkMrChange H cfg
  have hf : mridFirst cfg s < (checkMrChange cfg s).2.memregsLast := by
    rw [hlast]
    exact mridFirst_lt H cfg
  unfold runPolicy remotePagePolicy
  simp only [AllocCond] at hcond
  cases hpol : cfg.remotePolicySubblock with
  | any =>
      obtain ⟨s', mr, rem, hrun, hpost⟩ :=
        remotePagePolicySequential_spec (gpasOf head order) H₁ hf
      refine ⟨_, rem, hrun, hpost.setLastAlloc, ?_⟩
      intro hrem
      cases mr <;> exact hpost.noRoom hrem
  | sameMr =>
      rw [hpol] at hcond
      have hcond' : (∀ g ∈ gpasOf head order, (checkMrChange cfg s).2.remotePage g = .free) ∨
          NoRoom ((gpasOf head order).length <<< sbOrder) (checkMrChange cfg s).2 := by
        rcases hcond with hfree | howned | hno
        · left
          rw [hwords]
          exact hfree
        · obtain ⟨g, hg, hfree⟩ := hneed
          exact absurd hfree (howned g hg)
        · right
          intro id
          have hid := hno id
          unfold availMr at hid ⊢
          rw [hmemregs]
          exact hid
      obtain ⟨hinv, hno⟩ := remotePagePolicySameMr_spec H₁ hf (gpasOf_nodup head order) hcond'
      exact ⟨_, _, rfl, hinv, hno⟩
  | diffMr =>
      rw [hpol] at hcond
      have hcond' : (checkMrChange cfg s).2.memregsLast = 1 →
          (pageless (checkMrChange cfg s).2 (gpasOf head order)).length ≤
              freeBits sbOrder ((checkMrChange cfg s).2.mr 0) ∨
            freeBits sbOrder ((checkMrChange cfg s).2.mr 0) = 0 := by
        unfold pageless RemoteMem.mr
        rw [hlast, hwords, hmemregs]
        exact hcond
      obtain ⟨s', mr, rem, hrun, hpost⟩ :=
        remotePagePolicyDiffMr_spec H₁ hf (gpasOf_nodup head order) hcond'
      refine ⟨_, rem, by rw [hrun], hpost.setLastAlloc, ?_⟩
      intro hrem
      cases mr <;> exact hpost.noRoom hrem

/-- One allocation that meets the condition: it returns, and keeps the invariant. -/
theorem allocRemotePage_spec {cfg : AllocConfig} {head order : ℕ}
    (H : AllocInv sbOrder (fun _ => 0) s)
    (hcond : AllocCond sbOrder s (.alloc cfg head order)) :
    ∃ s' ok, allocRemotePage cfg sbOrder s (gpasOf head order) = some (s', ok) ∧
      AllocInv sbOrder (fun _ => 0) s' ∧
      (ok = false → ∃ s₁ rem, runPolicy cfg sbOrder s (gpasOf head order) = some (s₁, rem) ∧
        NoRoom (policyAsk cfg.remotePolicySubblock sbOrder (gpasOf head order).length) s₁) := by
  unfold allocRemotePage
  by_cases hneed : ((gpasOf head order).any fun g => (s.remotePage g).isFree) = true
  · have hneed' : ∃ g ∈ gpasOf head order, s.remotePage g = .free := by
      simpa [RemotePage.isFree_iff] using hneed
    obtain ⟨s₁, rem, hrun, hinv, hno⟩ := runPolicy_spec H hcond hneed'
    rw [if_pos hneed, hrun]
    by_cases hrem : rem = 0
    · exact ⟨s₁, true, by simp [hrem], hinv, fun h => by cases h⟩
    · refine ⟨freeRemotePageBlock cfg (freeRemotePageBlock cfg s₁ (gpasOf head order))
        (gpasOf head order), false, by simp only [Option.map_some, if_neg hrem], ?_,
        fun _ => ⟨s₁, rem, rfl, hno hrem⟩⟩
      exact allocInv_freeRemotePageBlock _ _ _ (allocInv_freeRemotePageBlock _ _ _ hinv)
  · rw [if_neg hneed]
    exact ⟨s, true, rfl, H, fun h => by cases h⟩

theorem allocInv_step {s' : RemoteMem} {a : AllocAction} (H : AllocInv sbOrder (fun _ => 0) s)
    (hcond : AllocCond sbOrder s a) (hstep : allocStep sbOrder s a = some s') :
    AllocInv sbOrder (fun _ => 0) s' := by
  cases a with
  | alloc cfg head order =>
      obtain ⟨s₁, ok, hrun, hinv, -⟩ := allocRemotePage_spec H hcond
      simp only [allocStep, hrun, Option.map_some, Option.some.injEq] at hstep
      exact hstep ▸ hinv
  | release g =>
      simp only [allocStep, Option.some.injEq] at hstep
      exact hstep ▸ allocInv_freeRemotePage H g

end Run

/-! ## The two loops that break the contract -/

/-- One region of one megabyte: eight subblocks of 32 pages. -/
def oneRegion : RemoteMem where
  memregs id := if id = 0 then some (createMr 0 1 5) else none
  memregsLast := 1
  memregsNumAlloc := 0
  memregsLastAlloc := 0
  remotePage _ := .free

def allocConfig (policy : RemotePolicySubblock) : AllocConfig := ⟨policy, 1, true⟩

theorem oneRegion_init : AllocInit 5 oneRegion where
  sbOrder_le := le_rfl
  last_pos := by decide
  lt_last id h := by
    by_cases heq : id = 0
    · subst heq; decide
    · simp [oneRegion, heq] at h
  last_some := by decide
  fresh id mr h := by
    by_cases heq : id = 0
    · subst heq
      exact ⟨1, (Option.some.inj h).symm⟩
    · simp [oneRegion, heq] at h
  lastAlloc := by decide
  words _ := rfl

/-- A block whose first subblock owns a page, under `same_mr`: two pages are reserved
and one is taken, so `alloc_len` stays ahead of the bitmap. -/
theorem alloc_sameMr_overcounts : ∃ s,
    exec (allocStep 5) oneRegion [.alloc (allocConfig .sameMr) 0 0,
      .alloc (allocConfig .sameMr) 0 1] = some s ∧ (s.mr 0).allocLen = 96 ∧
      cleared (s.mr 0).allocBitmap 8 = 2 ∧ ¬ AllocatorOk 5 s := by
  obtain ⟨s, hs⟩ := Option.isSome_iff_exists.mp
    (by decide : (exec (allocStep 5) oneRegion [.alloc (allocConfig .sameMr) 0 0,
      .alloc (allocConfig .sameMr) 0 1]).isSome = true)
  have hlen : (exec (allocStep 5) oneRegion [.alloc (allocConfig .sameMr) 0 0,
      .alloc (allocConfig .sameMr) 0 1]).map
      (fun s => ((s.mr 0).allocLen, cleared (s.mr 0).allocBitmap 8, (s.memregs 0).isSome,
        (s.mr 0).size)) = some (96, 2, true, 256) := by decide
  simp only [hs, Option.map_some, Option.some.injEq, Prod.mk.injEq] at hlen
  obtain ⟨hlen, hcleared, hsome, hsize⟩ := hlen
  refine ⟨s, hs, hlen, hcleared, ?_⟩
  intro hok
  obtain ⟨m, hm⟩ := Option.isSome_iff_exists.mp hsome
  have heq := hok.allocLen_eq 0 m hm
  rw [RemoteMem.mr_eq hm] at hlen hcleared hsize
  rw [hsize, hlen] at heq
  simp [hcleared] at heq

end Emp
