import Emp.Allocator.Runs

/-!
# What the allocator leaves in the words

An allocation that succeeds gives a page to every subblock of its block, and takes no word away.
Whatever the policies do, also where they break their contract, the ids and the offsets that they
put into words fit there.

## Main definitions and results

* `RemoteMem.Fits` — ids and offsets fit into words.
* `Grown` — how an allocation changes the words.
* `allocRemotePage_words` — a successful allocation leaves no word of the block free.
* `fits_of_reach` — in every run.
-/

namespace Emp

open Transition

/-- `MAX_MRID`: the ids of regions are below it. -/
def maxMrid : ℕ := 254

/-- The regions have ids that are allotted and fewer than `2 ^ 54` pages, and so it is with the
words. -/
structure RemoteMem.Fits (s : RemoteMem) : Prop where
  region : ∀ id mr, s.memregs id = some mr → mr.id < maxMrid ∧ mr.size < 2 ^ 54
  word : ∀ g mrid offset, s.remotePage g = .page mrid offset → mrid < maxMrid ∧ offset < 2 ^ 54

/-- How an allocation changes the words. -/
structure Grown (s s' : RemoteMem) : Prop where
  fits : s.Fits → s'.Fits
  words : ∀ g, s.remotePage g ≠ .free → s'.remotePage g ≠ .free

namespace RemoteMem

variable {s : RemoteMem} {mrid g : ℕ} {m : Memreg} {rp : RemotePage}

theorem remotePage_setWord (s : RemoteMem) (g : ℕ) (rp : RemotePage) :
    (s.setWord g rp).remotePage = Function.update s.remotePage g rp := rfl

theorem Fits.mr (h : s.Fits) (mrid : ℕ) : (s.mr mrid).id < maxMrid ∧ (s.mr mrid).size < 2 ^ 54 := by
  rw [RemoteMem.mr]
  cases hm : s.memregs mrid with
  | none => exact ⟨show 0 < maxMrid by decide, Nat.two_pow_pos 54⟩
  | some m => exact h.region mrid m hm

theorem Fits.setMr (h : s.Fits) (hid : m.id = (s.mr mrid).id)
    (hsize : m.size = (s.mr mrid).size) : (s.setMr mrid m).Fits := by
  refine ⟨fun id m' hm' => ?_, h.word⟩
  by_cases heq : id = mrid
  · rw [heq, memregs_setMr, Function.update_self] at hm'
    rw [← Option.some.inj hm', hid, hsize]
    exact h.mr mrid
  · rw [memregs_setMr, Function.update_of_ne heq] at hm'
    exact h.region id m' hm'

theorem Fits.setWord (h : s.Fits)
    (hrp : ∀ mrid offset, rp = .page mrid offset → mrid < maxMrid ∧ offset < 2 ^ 54) :
    (s.setWord g rp).Fits := by
  refine ⟨h.region, fun g' mrid offset hg' => ?_⟩
  by_cases heq : g' = g
  · rw [heq, remotePage_setWord, Function.update_self] at hg'
    exact hrp mrid offset hg'
  · rw [remotePage_setWord, Function.update_of_ne heq] at hg'
    exact h.word g' mrid offset hg'

end RemoteMem

/-- What the searches answer does not lie behind the region. -/
theorem findFree_le (mr : Memreg) (sbOrder : ℕ) : findFree mr sbOrder ≤ mr.size >>> sbOrder := by
  rw [findFree]
  split
  · exact BitSearch.findNextBit_le _ _ _
  · exact BitSearch.findNextBit_le _ _ _

theorem fits_freeRemotePage {s : RemoteMem} (h : s.Fits) (g : ℕ) : (freeRemotePage s g).Fits := by
  rw [freeRemotePage]
  split
  · exact h
  · refine RemoteMem.Fits.setWord (h.setMr ?_ ?_) fun _ _ heq => ?_
    · rfl
    · rfl
    · cases heq

theorem fits_freeRemotePageBlock {s : RemoteMem} (h : s.Fits) (cfg : AllocConfig) (gs : List ℕ) :
    (freeRemotePageBlock cfg s gs).Fits := by
  rw [freeRemotePageBlock]
  split
  · exact h
  · induction gs generalizing s with
    | nil => exact h
    | cons g gs ih => exact ih (fits_freeRemotePage h g)

namespace Grown

variable {s t u : RemoteMem} {sbOrder mrid g : ℕ}

theorem refl (s : RemoteMem) : Grown s s := ⟨id, fun _ => id⟩

theorem trans (h : Grown s t) (h' : Grown t u) : Grown s u :=
  ⟨fun hs => h'.fits (h.fits hs), fun g hg => h'.words g (h.words g hg)⟩

theorem remotePage_takeOffset (s : RemoteMem) (sbOrder mrid g offset : ℕ) :
    (takeOffset s sbOrder mrid g offset).remotePage =
      Function.update s.remotePage g (.page (s.mr mrid).id (offset <<< sbOrder)) := rfl

theorem addAllocLen (s : RemoteMem) (mrid : ℕ) (n : ℤ) : Grown s (addAllocLen s mrid n) :=
  ⟨fun hs => hs.setMr rfl rfl, fun _ => id⟩

theorem not_free_takeOffset (s : RemoteMem) (sbOrder mrid g offset : ℕ) :
    (takeOffset s sbOrder mrid g offset).remotePage g ≠ .free := by
  rw [remotePage_takeOffset, Function.update_self]
  exact RemotePage.noConfusion

theorem takeOffset (s : RemoteMem) (sbOrder mrid g : ℕ) :
    Grown s (takeOffset s sbOrder mrid g (findFree (s.mr mrid) sbOrder)) := by
  refine ⟨fun hs => ?_, fun g' hg' => ?_⟩
  · refine RemoteMem.Fits.setWord (hs.setMr (m := clearOffset _ _) rfl rfl) fun m offset heq => ?_
    obtain ⟨rfl, rfl⟩ := RemotePage.page.inj heq
    have hle := Nat.mul_le_mul_right (2 ^ sbOrder) (findFree_le (s.mr mrid) sbOrder)
    rw [Nat.shiftRight_eq_div_pow] at hle
    rw [Nat.shiftLeft_eq]
    exact ⟨(hs.mr mrid).1, (hle.trans (Nat.div_mul_le_self _ _)).trans_lt (hs.mr mrid).2⟩
  · by_cases heq : g' = g
    · rw [heq]
      exact not_free_takeOffset s sbOrder mrid g _
    · rw [remotePage_takeOffset, Function.update_of_ne heq]
      exact hg'

theorem setLastAlloc (s : RemoteMem) (mr : Option ℕ) : Grown s (setLastAlloc s mr) := by
  cases mr with
  | none => exact refl s
  | some mrid => exact ⟨fun hs => ⟨hs.region, hs.word⟩, fun _ => id⟩

theorem checkMrChange (cfg : AllocConfig) (s : RemoteMem) : Grown s (checkMrChange cfg s).2 := by
  rw [Emp.checkMrChange]
  split
  · exact refl s
  · exact ⟨fun hs => ⟨hs.region, hs.word⟩, fun _ => id⟩

end Grown

section Loops

variable {sbOrder first : ℕ} {cfg : AllocConfig} {s s' : RemoteMem} {gs : List ℕ}

/-- What the loops of the policies do to the words of a block. -/
def FullyServed (s s' : RemoteMem) (gs : List ℕ) (rem : ℕ) : Prop :=
  Grown s s' ∧ (rem = 0 → ∀ g ∈ gs, s'.remotePage g ≠ .free)

theorem FullyServed.nil (s : RemoteMem) (rem : ℕ) : FullyServed s s [] rem :=
  ⟨.refl s, fun _ _ hg => absurd hg List.not_mem_nil⟩

theorem fullyServed_of_length (s : RemoteMem) (gs : List ℕ) : FullyServed s s gs gs.length := by
  refine ⟨.refl s, fun hlen => ?_⟩
  rw [List.eq_nil_of_length_eq_zero hlen]
  exact fun _ hg => absurd hg List.not_mem_nil

/-- The first subblock has its page before the rest is served. -/
theorem FullyServed.cons {t : RemoteMem} {g rem : ℕ} (hfirst : Grown s t)
    (hg : t.remotePage g ≠ .free) (h : FullyServed t s' gs rem) :
    FullyServed s s' (g :: gs) rem := by
  refine ⟨hfirst.trans h.1, fun hrem g' hg' => ?_⟩
  rcases List.mem_cons.mp hg' with rfl | hin
  · exact h.1.words g' hg
  · exact h.2 hrem g' hin

theorem served_sequentialLoop (fuel : ℕ) (s : RemoteMem) (mr : Option ℕ) (gs : List ℕ)
    {r : RemoteMem × Option ℕ × ℕ} (h : sequentialLoop sbOrder first fuel s mr gs = some r) :
    FullyServed s r.1 gs r.2.2 := by
  induction fuel generalizing s mr gs with
  | zero => cases h
  | succ fuel ih =>
      cases mr with
      | none =>
          obtain rfl := Option.some.inj h
          exact fullyServed_of_length s gs
      | some mrid =>
          cases gs with
          | nil =>
              obtain rfl := Option.some.inj h
              exact FullyServed.nil s 0
          | cons g gs =>
              simp only [sequentialLoop] at h
              by_cases hfree : (s.remotePage g).isFree = true
              · rw [if_pos hfree] at h
                split at h
                · have hadd := Grown.addAllocLen s mrid (1 <<< sbOrder : ℕ)
                  obtain ⟨hgrown, hserved⟩ := ih _ _ _ h
                  exact ⟨(hadd.trans (.addAllocLen _ mrid _)).trans hgrown, hserved⟩
                · have hadd := Grown.addAllocLen s mrid (1 <<< sbOrder : ℕ)
                  exact FullyServed.cons (hadd.trans (.takeOffset _ sbOrder mrid g))
                    (Grown.not_free_takeOffset _ _ _ _ _) (ih _ _ _ h)
              · rw [if_neg hfree] at h
                have hword : s.remotePage g ≠ .free := fun hw =>
                  hfree (RemotePage.isFree_iff.mpr hw)
                exact FullyServed.cons (.refl s) hword (ih _ _ _ h)

theorem served_sameMr (mrid : ℕ) (s : RemoteMem) (gs : List ℕ) (rem : ℕ) :
    FullyServed s (gs.foldl (sameMrStep sbOrder mrid) s) gs rem := by
  induction gs generalizing s with
  | nil => exact FullyServed.nil s rem
  | cons g gs ih =>
      by_cases hfree : (s.remotePage g).isFree = true
      · have hstep : sameMrStep sbOrder mrid s g =
            takeOffset s sbOrder mrid g (findFree (s.mr mrid) sbOrder) := if_pos hfree
        rw [List.foldl_cons, hstep]
        exact FullyServed.cons (.takeOffset ..) (Grown.not_free_takeOffset _ _ _ _ _) (ih _)
      · have hstep : sameMrStep sbOrder mrid s g = s := if_neg hfree
        rw [List.foldl_cons, hstep]
        exact FullyServed.cons (.refl s) (fun hw => hfree (RemotePage.isFree_iff.mpr hw)) (ih s)

theorem served_diffMrLoop (s : RemoteMem) (mr : Option ℕ) (gs : List ℕ) :
    FullyServed s (diffMrLoop sbOrder s mr gs).1 gs (diffMrLoop sbOrder s mr gs).2.2 := by
  induction gs generalizing s mr with
  | nil =>
      cases mr with
      | none => exact FullyServed.nil s 0
      | some mrid => exact FullyServed.nil s 0
  | cons g gs ih =>
      cases mr with
      | none => exact fullyServed_of_length s (g :: gs)
      | some mrid =>
          simp only [diffMrLoop]
          by_cases hfree : (s.remotePage g).isFree = true
          · rw [if_pos hfree]
            have hadd := Grown.addAllocLen s mrid (1 <<< sbOrder : ℕ)
            split
            · exact FullyServed.cons (hadd.trans (.takeOffset _ sbOrder mrid g))
                (Grown.not_free_takeOffset _ _ _ _ _) (ih _ _)
            · exact FullyServed.cons (hadd.trans (.takeOffset _ sbOrder mrid g))
                (Grown.not_free_takeOffset _ _ _ _ _) (ih _ _)
          · rw [if_neg hfree]
            have hword : s.remotePage g ≠ .free := fun hw => hfree (RemotePage.isFree_iff.mpr hw)
            split
            · exact FullyServed.cons (.refl s) hword (ih _ _)
            · exact FullyServed.cons (.refl s) hword (ih _ _)

/-- Every policy serves the block. -/
theorem served_runPolicy {rem : ℕ} (h : runPolicy cfg sbOrder s gs = some (s', rem)) :
    FullyServed s s' gs rem := by
  have hcheck := Grown.checkMrChange cfg s
  rw [runPolicy] at h
  generalize (checkMrChange cfg s).2 = t at h hcheck
  have hserved : FullyServed t s' gs rem := by
    unfold remotePagePolicy at h
    split at h
    · rw [remotePagePolicySequential] at h
      obtain ⟨r, hrun, heq⟩ := Option.map_eq_some_iff.mp h
      obtain ⟨hgrown, hwords⟩ := served_sequentialLoop _ _ _ _ hrun
      obtain ⟨rfl, rfl⟩ := Prod.mk.inj heq
      have hlast := Grown.setLastAlloc r.1 r.2.1
      exact ⟨hgrown.trans hlast, fun hrem g hg => hlast.words g (hwords hrem g hg)⟩
    · rw [remotePagePolicySameMr] at h
      split at h
      · obtain ⟨rfl, rfl⟩ := Prod.mk.inj (Option.some.inj h)
        exact fullyServed_of_length t gs
      · obtain ⟨rfl, rfl⟩ := Prod.mk.inj (Option.some.inj h)
        obtain ⟨hgrown, hwords⟩ := served_sameMr _ _ gs 0
        exact ⟨((Grown.addAllocLen t _ _).trans (.setLastAlloc _ _)).trans hgrown, hwords⟩
    · rw [remotePagePolicyDiffMr] at h
      obtain ⟨rfl, rfl⟩ := Prod.mk.inj (Option.some.inj h)
      obtain ⟨hgrown, hwords⟩ := served_diffMrLoop t
        (lockNextAvailMr t none (mridFirst cfg s) (1 <<< sbOrder)) gs
      have hlast := Grown.setLastAlloc (diffMrLoop sbOrder t
        (lockNextAvailMr t none (mridFirst cfg s) (1 <<< sbOrder)) gs).1
        (diffMrLoop sbOrder t (lockNextAvailMr t none (mridFirst cfg s) (1 <<< sbOrder)) gs).2.1
      exact ⟨hgrown.trans hlast, fun hrem g hg => hlast.words g (hwords hrem g hg)⟩
  exact ⟨hcheck.trans hserved.1, hserved.2⟩

/-- **A successful allocation leaves no word of the block free.** -/
theorem allocRemotePage_words (h : allocRemotePage cfg sbOrder s gs = some (s', true)) :
    FullyServed s s' gs 0 := by
  rw [allocRemotePage] at h
  split at h
  · obtain ⟨⟨t, rem⟩, hrun, heq⟩ := Option.map_eq_some_iff.mp h
    by_cases hrem : rem = 0
    · simp only [if_pos hrem] at heq
      obtain ⟨rfl, -⟩ := Prod.mk.inj heq
      exact hrem ▸ served_runPolicy hrun
    · simp only [if_neg hrem] at heq
      cases (Prod.mk.inj heq).2
  · rename_i hnone
    obtain ⟨rfl, -⟩ := Prod.mk.inj (Option.some.inj h)
    refine ⟨.refl s, fun _ g hg hw => hnone ?_⟩
    exact List.any_eq_true.mpr ⟨g, hg, RemotePage.isFree_iff.mpr hw⟩

theorem fits_allocStep {a : AllocAction} (h : s.Fits) (hstep : allocStep sbOrder s a = some s') :
    s'.Fits := by
  cases a with
  | release g =>
      obtain rfl := Option.some.inj hstep
      exact fits_freeRemotePage h g
  | alloc cfg head order =>
      obtain ⟨⟨t, ok⟩, halloc, rfl⟩ := Option.map_eq_some_iff.mp hstep
      rw [allocRemotePage] at halloc
      split at halloc
      · obtain ⟨⟨u, rem⟩, hrun, heq⟩ := Option.map_eq_some_iff.mp halloc
        have hfits := (served_runPolicy hrun).1.fits h
        by_cases hrem : rem = 0
        · simp only [if_pos hrem] at heq
          exact (Prod.mk.inj heq).1 ▸ hfits
        · simp only [if_neg hrem] at heq
          rw [← (Prod.mk.inj heq).1]
          exact fits_freeRemotePageBlock (fits_freeRemotePageBlock hfits cfg _) cfg _
      · rw [← (Prod.mk.inj (Option.some.inj halloc)).1]
        exact h

/-- In every state that allocations and releases lead to, the words fit. -/
theorem fits_of_reach (h : Reach (fun s => AllocInit sbOrder s ∧ s.Fits) (allocStep sbOrder) s) :
    s.Fits :=
  h.invariant (I := fun s => s.Fits) (fun _ hs => hs.2) fun _ _ _ hs _ hstep =>
    fits_allocStep hs hstep

end Loops

end Emp
