import Emp.Memreg

/-!
# What every change of the allocator keeps

Allocations and releases are made of a few changes: a reserve is added, a page is taken or given
back, and a cursor is set.  What each of these keeps is kept by all operations.

## Main definitions

* `Kept` — a property that the changes keep.
* `Kept.allocStep` — the operations keep it.
* `size_allocStep` — the length of a region stays.
-/

namespace Emp

/-- Each change keeps the property. -/
structure Kept (sbOrder : ℕ) (P : RemoteMem → Prop) : Prop where
  add : ∀ s mrid n, P s → P (addAllocLen s mrid n)
  take : ∀ s mrid g offset, P s → P (takeOffset s sbOrder mrid g offset)
  last : ∀ s id, P s → P { s with memregsLastAlloc := id }
  count : ∀ s n, P s → P { s with memregsNumAlloc := n }
  free : ∀ s g, P s → P (freeRemotePage s g)

namespace Kept

variable {sbOrder first : ℕ} {P : RemoteMem → Prop} {s s' : RemoteMem} {cfg : AllocConfig}
  {gs : List ℕ}

theorem setLastAlloc (H : Kept sbOrder P) (mr : Option ℕ) (hs : P s) : P (setLastAlloc s mr) := by
  cases mr with
  | none => exact hs
  | some mrid => exact H.last s _ hs

theorem checkMrChange (H : Kept sbOrder P) (cfg : AllocConfig) (hs : P s) :
    P (checkMrChange cfg s).2 := by
  rw [Emp.checkMrChange]
  split
  · exact hs
  · exact H.count s _ hs

theorem freeRemotePageBlock (H : Kept sbOrder P) (cfg : AllocConfig) (gs : List ℕ) (hs : P s) :
    P (freeRemotePageBlock cfg s gs) := by
  rw [Emp.freeRemotePageBlock]
  split
  · exact hs
  · induction gs generalizing s with
    | nil => exact hs
    | cons g gs ih => exact ih (H.free s g hs)

theorem sequentialLoop (H : Kept sbOrder P) (fuel : ℕ) (mr : Option ℕ) (hs : P s)
    {r : RemoteMem × Option ℕ × ℕ} (h : sequentialLoop sbOrder first fuel s mr gs = some r) :
    P r.1 := by
  induction fuel generalizing s mr gs with
  | zero => cases h
  | succ fuel ih =>
      cases mr with
      | none => exact Option.some.inj h ▸ hs
      | some mrid =>
          cases gs with
          | nil => exact Option.some.inj h ▸ hs
          | cons g gs =>
              simp only [Emp.sequentialLoop] at h
              split at h
              · split at h
                · exact ih _ (H.add _ mrid _ (H.add s mrid _ hs)) h
                · exact ih _ (H.take _ mrid g _ (H.add s mrid _ hs)) h
              · exact ih _ hs h

theorem sameMr (H : Kept sbOrder P) (mrid : ℕ) (gs : List ℕ) (hs : P s) :
    P (gs.foldl (sameMrStep sbOrder mrid) s) := by
  induction gs generalizing s with
  | nil => exact hs
  | cons g gs ih =>
      refine ih ?_
      rw [sameMrStep]
      split
      · exact H.take s mrid g _ hs
      · exact hs

theorem diffMrLoop (H : Kept sbOrder P) (mr : Option ℕ) (gs : List ℕ) (hs : P s) :
    P (diffMrLoop sbOrder s mr gs).1 := by
  induction gs generalizing s mr with
  | nil => cases mr <;> exact hs
  | cons g gs ih =>
      cases mr with
      | none => exact hs
      | some mrid =>
          simp only [Emp.diffMrLoop]
          split
          · split
            · exact ih _ (H.take _ mrid g _ (H.add s mrid _ hs))
            · exact ih _ (H.take _ mrid g _ (H.add s mrid _ hs))
          · split
            · exact ih _ hs
            · exact ih _ hs

theorem runPolicy (H : Kept sbOrder P) (hs : P s) {rem : ℕ}
    (h : runPolicy cfg sbOrder s gs = some (s', rem)) : P s' := by
  have ht := H.checkMrChange cfg hs
  unfold Emp.runPolicy remotePagePolicy at h
  split at h
  · rw [remotePagePolicySequential] at h
    obtain ⟨r, hrun, heq⟩ := Option.map_eq_some_iff.mp h
    exact (Prod.mk.inj heq).1 ▸ H.setLastAlloc _ (H.sequentialLoop _ _ ht hrun)
  · rw [remotePagePolicySameMr] at h
    split at h
    · exact (Prod.mk.inj (Option.some.inj h)).1 ▸ ht
    · exact (Prod.mk.inj (Option.some.inj h)).1 ▸
        H.sameMr _ gs (H.setLastAlloc _ (H.add _ _ _ ht))
  · rw [remotePagePolicyDiffMr] at h
    exact (Prod.mk.inj (Option.some.inj h)).1 ▸ H.setLastAlloc _ (H.diffMrLoop _ gs ht)

/-- The operations keep what the changes keep. -/
theorem allocStep (H : Kept sbOrder P) (hs : P s) {a : AllocAction}
    (hstep : allocStep sbOrder s a = some s') : P s' := by
  cases a with
  | release g => exact Option.some.inj hstep ▸ H.free s g hs
  | alloc cfg head order =>
      obtain ⟨⟨t, ok⟩, halloc, rfl⟩ := Option.map_eq_some_iff.mp hstep
      rw [allocRemotePage] at halloc
      split at halloc
      · obtain ⟨⟨u, rem⟩, hrun, heq⟩ := Option.map_eq_some_iff.mp halloc
        have hu := H.runPolicy hs hrun
        by_cases hrem : rem = 0
        · simp only [if_pos hrem] at heq
          exact (Prod.mk.inj heq).1 ▸ hu
        · simp only [if_neg hrem] at heq
          rw [← (Prod.mk.inj heq).1]
          exact H.freeRemotePageBlock cfg _ (H.freeRemotePageBlock cfg _ hu)
      · rw [← (Prod.mk.inj (Option.some.inj halloc)).1]
        exact hs

end Kept

theorem size_setMr {s : RemoteMem} {mrid : ℕ} {m : Memreg} (h : m.size = (s.mr mrid).size)
    (id : ℕ) : ((s.setMr mrid m).mr id).size = (s.mr id).size := by
  by_cases hid : id = mrid
  · rw [hid, ← h]
    simp [RemoteMem.mr, RemoteMem.setMr]
  · simp [RemoteMem.mr, RemoteMem.setMr, Function.update_of_ne hid]

/-- The length of a region stays. -/
theorem size_allocStep {sbOrder : ℕ} {s s' : RemoteMem} {a : AllocAction}
    (hstep : allocStep sbOrder s a = some s') (id : ℕ) : (s'.mr id).size = (s.mr id).size := by
  have hkept : Kept sbOrder fun t => (t.mr id).size = (s.mr id).size := by
    refine ⟨fun t mrid n ht => ?_, fun t mrid g offset ht => ?_, fun t _ ht => ht,
      fun t _ ht => ht, fun t g ht => ?_⟩
    · refine (size_setMr ?_ id).trans ht
      rfl
    · exact (size_setMr (m := clearOffset _ offset) rfl id).trans ht
    · rw [freeRemotePage]
      split
      · exact ht
      · refine (size_setMr ?_ id).trans ht
        rfl
  exact hkept.allocStep rfl hstep

end Emp
