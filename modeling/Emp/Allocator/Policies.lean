import Emp.Allocator.Invariant

/-!
# The three allocation policies keep the invariant

One specification for each loop.  The sequential loop carries the position in the
round of regions; `same_mr` carries what it reserved and has not taken; `diff_mr`
carries the room of the region it holds.

## Main definitions

* `Passed`, `Enough` — where the sequential loop stands, and the turns it needs.
* `Holding` — the room of the region that `diff_mr` holds.
* `PolicyPost` — what a policy leaves behind.
-/

namespace Emp

open BitSearch

/-! ## The search for a region visits every region -/

section Search

variable {s : RemoteMem} {first num : ℕ}

/-- Going round from `first`, the position after `i` is `first` again exactly at
the end of the round. -/
theorem round_eq_iff {n first i : ℕ} (hf : first < n) (hi : i < n) :
    ((first + i) % n + 1) % n = first ↔ i + 1 = n := by
  rw [Nat.mod_add_mod]
  by_cases hlt : first + i + 1 < n
  · rw [Nat.mod_eq_of_lt hlt]
    omega
  · rw [Nat.mod_eq_sub_mod (not_lt.mp hlt), Nat.mod_eq_of_lt (by omega)]
    omega

theorem round_surj {n first k : ℕ} (hf : first < n) (hk : k < n) :
    ∃ i < n, (first + i) % n = k := by
  by_cases hle : first ≤ k
  · refine ⟨k - first, by omega, ?_⟩
    rw [show first + (k - first) = k by omega, Nat.mod_eq_of_lt hk]
  · refine ⟨k + n - first, by omega, ?_⟩
    rw [show first + (k + n - first) = k + n by omega, Nat.add_mod_right, Nat.mod_eq_of_lt hk]

/-- The loop, entered at position `i` of the round: it finds the next region with
room, or there is none in the rest of the round. -/
theorem lockNextAvailMrLoop_spec (num : ℕ) (hf : first < s.memregsLast) :
    ∀ fuel i, i < s.memregsLast → s.memregsLast ≤ i + fuel →
      match lockNextAvailMrLoop s first num fuel ((first + i) % s.memregsLast) with
      | some mrid => availMr s num mrid = true ∧ ∃ j, i ≤ j ∧ j < s.memregsLast ∧
          mrid = (first + j) % s.memregsLast ∧
          ∀ k, i ≤ k → k < j → availMr s num ((first + k) % s.memregsLast) = false
      | none => ∀ k, i ≤ k → k < s.memregsLast →
          availMr s num ((first + k) % s.memregsLast) = false := by
  intro fuel
  induction fuel with
  | zero =>
      intro i hi hfuel
      omega
  | succ fuel ih =>
      intro i hi hfuel
      simp only [lockNextAvailMrLoop]
      by_cases hav : availMr s num ((first + i) % s.memregsLast) = true
      · simp only [hav, if_true, true_and]
        exact ⟨i, le_rfl, hi, rfl, fun k h₁ h₂ => absurd h₂ (by omega)⟩
      · have hav' : availMr s num ((first + i) % s.memregsLast) = false := by simpa using hav
        rw [if_neg hav]
        by_cases hend : i + 1 = s.memregsLast
        · rw [if_pos ((round_eq_iff hf hi).mpr hend)]
          intro k hk hk'
          rw [show k = i by omega]
          exact hav'
        · rw [if_neg (fun h => hend ((round_eq_iff hf hi).mp h)), Nat.mod_add_mod,
            Nat.add_assoc]
          have hrest := ih (i + 1) (by omega) (by omega)
          cases hres : lockNextAvailMrLoop s first num fuel
              ((first + (i + 1)) % s.memregsLast) with
          | some mrid =>
              rw [hres] at hrest
              obtain ⟨ha, j, hij, hj, hmr, hbefore⟩ := hrest
              refine ⟨ha, j, by omega, hj, hmr, ?_⟩
              intro k hk hkj
              by_cases heq : k = i
              · rw [heq]; exact hav'
              · exact hbefore k (by omega) hkj
          | none =>
              rw [hres] at hrest
              intro k hk hk'
              by_cases heq : k = i
              · rw [heq]; exact hav'
              · exact hrest k (by omega) hk'

theorem lockNextAvailMr_some {prev : Option ℕ} {mrid : ℕ}
    (h : lockNextAvailMr s prev first num = some mrid) : availMr s num mrid = true := by
  have hloop : ∀ fuel start, lockNextAvailMrLoop s first num fuel start = some mrid →
      availMr s num mrid = true := by
    intro fuel
    induction fuel with
    | zero => intro start h; simp [lockNextAvailMrLoop] at h
    | succ fuel ih =>
        intro start h
        simp only [lockNextAvailMrLoop] at h
        split at h
        · next hav => rw [← Option.some.inj h]; exact hav
        · split at h
          · cases h
          · exact ih _ h
  unfold lockNextAvailMr at h
  split at h
  · cases h
  · exact hloop _ _ h

/-- From the first region, the search misses none. -/
theorem lockNextAvailMr_none (hf : first < s.memregsLast)
    (hlast : ∀ id, (s.memregs id).isSome → id < s.memregsLast)
    (h : lockNextAvailMr s none first num = none) : NoRoom num s := by
  have hspec := lockNextAvailMrLoop_spec num hf s.memregsLast 0 (by omega) (by omega)
  unfold lockNextAvailMr at h
  rw [if_neg (by omega)] at h
  rw [Nat.add_zero, Nat.mod_eq_of_lt hf, h] at hspec
  intro id
  cases hid : s.memregs id with
  | none => simp [availMr, hid]
  | some m =>
      obtain ⟨i, hi, hround⟩ := round_surj hf (hlast id (by simp [hid]))
      rw [← hround]
      exact hspec i (Nat.zero_le _) hi

end Search

/-! ## Sequential allocation -/

section Sequential

variable {sbOrder first : ℕ}

/-- Undoing a reserve restores the region. -/
theorem addAllocLen_undo {s : RemoteMem} {mrid : ℕ} {m : Memreg} (hm : s.memregs mrid = some m)
    (n : ℤ) : addAllocLen (addAllocLen s mrid n) mrid (-n) = s := by
  have hget : (addAllocLen s mrid n).mr mrid = { m with allocLen := m.allocLen + n } := by
    simp [addAllocLen, RemoteMem.mr, hm]
  rw [addAllocLen, hget]
  simp only [addAllocLen, RemoteMem.setMr, Function.update_idem, add_neg_cancel_right]
  rw [← hm, Function.update_eq_self]

theorem findFree_addAllocLen {s : RemoteMem} {mrid : ℕ} {m : Memreg}
    (hm : s.memregs mrid = some m) (sbOrder : ℕ) (n : ℤ) :
    findFree ((addAllocLen s mrid n).mr mrid) sbOrder = findFree m sbOrder ∧
      ((addAllocLen s mrid n).mr mrid).size = m.size := by
  simp [addAllocLen, RemoteMem.mr, hm, findFree]

/-- One page reserved and taken. -/
theorem allocInv_takeOne {s : RemoteMem} {mrid g : ℕ} {m : Memreg}
    (H : AllocInv sbOrder (fun _ => 0) s) (hm : s.memregs mrid = some m)
    (hfree : s.remotePage g = .free) (hfound : findFree m sbOrder ≠ m.size >>> sbOrder) :
    AllocInv sbOrder (fun _ => 0) (takeOffset (addAllocLen s mrid (1 <<< sbOrder : ℕ)) sbOrder
      mrid g (findFree m sbOrder)) := by
  have hadd := allocInv_addAllocLen H (r := 1) (n := (1 <<< sbOrder : ℕ)) hm (by simp)
  have hm' : (addAllocLen s mrid (1 <<< sbOrder : ℕ)).memregs mrid =
      some { m with allocLen := m.allocLen + (1 <<< sbOrder : ℕ) } := by
    simp [addAllocLen, RemoteMem.mr, hm]
  have hspec := findFree_spec hfound
  have htake := allocInv_takeOffset hadd (r := 0) hm' hfree (by simp) hspec.1 hspec.2
  rw [Function.update_idem] at htake
  simpa using htake

/-- Taking a page makes no room. -/
theorem availMr_takeOne {s : RemoteMem} {mrid g offset num id : ℕ} {m : Memreg}
    (hm : s.memregs mrid = some m) (h : availMr s num id = false) :
    availMr (takeOffset (addAllocLen s mrid (1 <<< sbOrder : ℕ)) sbOrder mrid g offset) num id
      = false := by
  have hnot : ¬ availMr s num id = true := by simp [h]
  rw [← Bool.not_eq_true, availMr_iff]
  rintro ⟨mr, hmr, hle⟩
  apply hnot
  rw [availMr_iff]
  by_cases heq : id = mrid
  · subst heq
    simp only [takeOffset, addAllocLen, RemoteMem.setWord, RemoteMem.memregs_setMr,
      Function.update_self, Option.some.injEq] at hmr
    refine ⟨m, hm, ?_⟩
    rw [← hmr] at hle
    simp only [clearOffset, RemoteMem.mr, RemoteMem.memregs_setMr, Function.update_self, hm,
      Option.getD_some] at hle
    have hpos : (0 : ℤ) ≤ (1 <<< sbOrder : ℕ) := Int.natCast_nonneg _
    omega
  · refine ⟨mr, ?_, hle⟩
    simpa [takeOffset, addAllocLen, RemoteMem.setWord, heq] using hmr

/-- Where the sequential loop stands: on the region at position `i` of the round,
with no room in those it passed; or past all of them. -/
def Passed (sbOrder first : ℕ) (s : RemoteMem) : Option ℕ → Prop
  | none => NoRoom (1 <<< sbOrder) s
  | some mrid => ∃ m, s.memregs mrid = some m ∧
      ∃ i < s.memregsLast, mrid = (first + i) % s.memregsLast ∧
        ∀ k < i, availMr s (1 <<< sbOrder) ((first + k) % s.memregsLast) = false

/-- A search from position `i`, with no room before it. -/
theorem passed_loop {s : RemoteMem} {i : ℕ} (H : AllocInv sbOrder (fun _ => 0) s)
    (hf : first < s.memregsLast) (hi : i < s.memregsLast)
    (hbefore : ∀ k < i, availMr s (1 <<< sbOrder) ((first + k) % s.memregsLast) = false) :
    Passed sbOrder first s (lockNextAvailMrLoop s first (1 <<< sbOrder) s.memregsLast
      ((first + i) % s.memregsLast)) := by
  have hspec := lockNextAvailMrLoop_spec (1 <<< sbOrder) hf s.memregsLast i hi (by omega)
  cases hres : lockNextAvailMrLoop s first (1 <<< sbOrder) s.memregsLast
      ((first + i) % s.memregsLast) with
  | some mrid =>
      rw [hres] at hspec
      obtain ⟨hav, j, hij, hj, hmr, hmid⟩ := hspec
      obtain ⟨m, hm, -⟩ := availMr_iff.mp hav
      refine ⟨m, hm, j, hj, hmr, ?_⟩
      intro k hk
      by_cases hki : k < i
      · exact hbefore k hki
      · exact hmid k (not_lt.mp hki) hk
  | none =>
      rw [hres] at hspec
      intro id
      cases hid : s.memregs id with
      | none => simp [availMr, hid]
      | some m =>
          obtain ⟨k, hk, hround⟩ := round_surj hf (H.lt_last id (by simp [hid]))
          rw [← hround]
          by_cases hki : k < i
          · exact hbefore k hki
          · exact hspec k (not_lt.mp hki) hk

theorem passed_start {s : RemoteMem} (H : AllocInv sbOrder (fun _ => 0) s)
    (hf : first < s.memregsLast) :
    Passed sbOrder first s (lockNextAvailMr s none first (1 <<< sbOrder)) := by
  have h := passed_loop (i := 0) H hf (by omega) (fun k hk => absurd hk (by omega))
  rw [Nat.add_zero, Nat.mod_eq_of_lt hf] at h
  unfold lockNextAvailMr
  rw [if_neg (by omega)]
  exact h

/-- The hop from a used-up region. -/
theorem passed_next {s : RemoteMem} {mrid : ℕ} (H : AllocInv sbOrder (fun _ => 0) s)
    (hf : first < s.memregsLast) (hp : Passed sbOrder first s (some mrid))
    (hfull : availMr s (1 <<< sbOrder) mrid = false) :
    Passed sbOrder first s (lockNextAvailMr s (some mrid) first (1 <<< sbOrder)) := by
  obtain ⟨m, -, i, hi, hmr, hbefore⟩ := hp
  unfold lockNextAvailMr
  rw [if_neg (by omega)]
  simp only
  by_cases hend : i + 1 = s.memregsLast
  · have hstart : (mrid + 1) % s.memregsLast = (first + 0) % s.memregsLast := by
      rw [hmr, (round_eq_iff hf hi).mpr hend, Nat.add_zero, Nat.mod_eq_of_lt hf]
    rw [hstart]
    exact passed_loop H hf (by omega) fun k hk => absurd hk (by omega)
  · have hstart : (mrid + 1) % s.memregsLast = (first + (i + 1)) % s.memregsLast := by
      rw [hmr, Nat.mod_add_mod, Nat.add_assoc]
    rw [hstart]
    refine passed_loop H hf (by omega) ?_
    intro k hk
    by_cases hki : k = i
    · rw [hki, ← hmr]; exact hfull
    · exact hbefore k (by omega)

/-- A region without room is one where nothing is found, and conversely. -/
theorem availMr_iff_found {s : RemoteMem} {mrid : ℕ} {m : Memreg}
    (H : AllocInv sbOrder (fun _ => 0) s) (hm : s.memregs mrid = some m) :
    availMr s (1 <<< sbOrder) mrid = true ↔ findFree m sbOrder ≠ m.size >>> sbOrder := by
  have hreg := H.memreg mrid m hm
  rw [availMr_iff]
  constructor
  · rintro ⟨m', hm', hroom⟩
    rw [hm, Option.some.injEq] at hm'
    subst hm'
    exact hreg.findFree_ne ((hreg.room_iff).mp hroom)
  · intro hfound
    have hspec := findFree_spec hfound
    exact ⟨m, hm, hreg.room_iff.mpr (cleared_lt_of_set hspec.2 hspec.1)⟩

/-- The turns the sequential loop needs: at most two for each subblock, since the
hop from a used-up region ends in one with room. -/
def Enough (sbOrder : ℕ) (s : RemoteMem) (fuel : ℕ) (gs : List ℕ) : Option ℕ → Prop
  | none => 1 ≤ fuel
  | some mrid => 2 * gs.length + 2 ≤ fuel ∨
      availMr s (1 <<< sbOrder) mrid = true ∧ 2 * gs.length + 1 ≤ fuel

/-- What a policy leaves behind: the invariant, a region that exists if one is
locked, and no room if some subblocks were not served. -/
structure PolicyPost (sbOrder num : ℕ) (last : ℕ) (s' : RemoteMem) (mr : Option ℕ) (rem : ℕ) :
    Prop where
  inv : AllocInv sbOrder (fun _ => 0) s'
  last_eq : s'.memregsLast = last
  locked : ∀ mrid, mr = some mrid → (s'.memregs mrid).isSome
  noRoom : rem ≠ 0 → NoRoom num s'

theorem sequentialLoop_spec :
    ∀ fuel (s : RemoteMem) mr gs, AllocInv sbOrder (fun _ => 0) s → first < s.memregsLast →
      Passed sbOrder first s mr → Enough sbOrder s fuel gs mr →
      ∃ s' mr' rem, sequentialLoop sbOrder first fuel s mr gs = some (s', mr', rem) ∧
        PolicyPost sbOrder (1 <<< sbOrder) s.memregsLast s' mr' rem := by
  intro fuel
  induction fuel with
  | zero =>
      intro s mr gs H hf hp hfuel
      cases mr with
      | none => simp [Enough] at hfuel
      | some mrid => simp [Enough] at hfuel
  | succ fuel ih =>
      intro s mr gs H hf hp hfuel
      cases mr with
      | none =>
          refine ⟨s, none, gs.length, by simp [sequentialLoop], H, rfl, ?_, fun _ => hp⟩
          intro mrid h
          cases h
      | some mrid =>
          obtain ⟨m, hm, i, hi, hmr, hbefore⟩ := hp
          cases gs with
          | nil =>
              refine ⟨s, some mrid, 0, by simp [sequentialLoop], H, rfl, ?_, fun h => absurd rfl h⟩
              intro id h
              simp [← Option.some.inj h, hm]
          | cons g gs =>
              simp only [Enough, List.length_cons] at hfuel
              by_cases hfree : (s.remotePage g).isFree = true
              · have hfind := findFree_addAllocLen hm sbOrder (1 <<< sbOrder : ℕ)
                simp only [sequentialLoop, hfree, if_true, hfind.1, hfind.2]
                by_cases hfound : findFree m sbOrder = m.size >>> sbOrder
                · -- used up: undo, hop, and serve the same subblock again
                  have hfull : availMr s (1 <<< sbOrder) mrid = false := by
                    rw [← Bool.not_eq_true, availMr_iff_found H hm]
                    exact not_not.mpr hfound
                  have hid := (H.memreg mrid m hm).id_eq
                  rw [if_pos hfound, addAllocLen_undo hm, RemoteMem.mr_eq hm, hid]
                  refine ih s _ (g :: gs) H hf
                    (passed_next H hf ⟨m, hm, i, hi, hmr, hbefore⟩ hfull) ?_
                  cases hlock : lockNextAvailMr s (some mrid) first (1 <<< sbOrder) with
                  | none => simp only [Enough]; omega
                  | some next =>
                      simp only [hfull, Bool.false_eq_true, false_and, or_false] at hfuel
                      exact Or.inr ⟨lockNextAvailMr_some hlock, by simp only [List.length_cons]; omega⟩
                · rw [if_neg hfound]
                  have hword := RemotePage.isFree_iff.mp hfree
                  refine ih _ (some mrid) gs (allocInv_takeOne H hm hword hfound) hf ?_ ?_
                  · refine ⟨_, Function.update_self _ _ _, i, hi, hmr, ?_⟩
                    intro k hk
                    exact availMr_takeOne hm (hbefore k hk)
                  · exact Or.inl (by omega)
              · simp only [sequentialLoop, hfree, Bool.false_eq_true, if_false]
                exact ih s (some mrid) gs H hf ⟨m, hm, i, hi, hmr, hbefore⟩ (Or.inl (by omega))

/-- **Sequential allocation** returns, keeps the invariant, and leaves subblocks
unserved only when no region has room for one. -/
theorem remotePagePolicySequential_spec {s : RemoteMem} (gs : List ℕ)
    (H : AllocInv sbOrder (fun _ => 0) s) (hf : first < s.memregsLast) :
    ∃ s' mr rem, remotePagePolicySequential s sbOrder gs first = some (setLastAlloc s' mr, rem) ∧
      PolicyPost sbOrder (1 <<< sbOrder) s.memregsLast s' mr rem := by
  have hp := passed_start H hf
  have hfuel : Enough sbOrder s (2 * gs.length + 2) gs
      (lockNextAvailMr s none first (1 <<< sbOrder)) := by
    cases lockNextAvailMr s none first (1 <<< sbOrder) with
    | none => simp only [Enough]; omega
    | some mrid => exact Or.inl le_rfl
  obtain ⟨s', mr, rem, hloop, hpost⟩ := sequentialLoop_spec _ s _ gs H hf hp hfuel
  exact ⟨s', mr, rem, by rw [remotePagePolicySequential, hloop]; rfl, hpost⟩

end Sequential

/-- Recording the last region is harmless. -/
theorem PolicyPost.setLastAlloc {sbOrder num last : ℕ} {s : RemoteMem} {mr : Option ℕ} {rem : ℕ}
    (H : PolicyPost sbOrder num last s mr rem) :
    AllocInv sbOrder (fun _ => 0) (setLastAlloc s mr) := by
  cases mr with
  | none => exact H.inv
  | some mrid =>
      obtain ⟨m, hm⟩ := Option.isSome_iff_exists.mp (H.locked mrid rfl)
      have hid : (s.mr mrid).id = mrid := by
        rw [RemoteMem.mr_eq hm]
        exact (H.inv.memreg mrid m hm).id_eq
      refine ⟨H.inv.memreg, H.inv.inside, H.inv.once, H.inv.lt_last, ?_⟩
      simp only [Emp.setLastAlloc, hid]
      exact H.inv.lt_last mrid (by simp [hm])

/-! ## Allocation from one region -/

section SameMr

variable {sbOrder mrid : ℕ}

/-- The loop of `same_mr` over subblocks that all lack a page and are all reserved:
each turn takes one reserved page. -/
theorem sameMr_fold (gs : List ℕ) :
    ∀ (s : RemoteMem) (m : Memreg), gs.Nodup → (∀ g ∈ gs, s.remotePage g = .free) →
      s.memregs mrid = some m →
      cleared m.allocBitmap (m.size >>> sbOrder) + gs.length ≤ m.size >>> sbOrder →
      AllocInv sbOrder (Function.update (fun _ => 0) mrid gs.length) s →
      AllocInv sbOrder (fun _ => 0) (gs.foldl (sameMrStep sbOrder mrid) s) := by
  induction gs with
  | nil =>
      intro s m _ _ _ _ H
      simpa using H
  | cons g gs ih =>
      intro s m hnodup hfree hm hroom H
      rw [List.length_cons] at hroom H
      have hreg := H.memreg mrid m hm
      have hfound := hreg.findFree_ne (by omega)
      have hspec := findFree_spec hfound
      have hg : s.remotePage g = .free := hfree g (by simp)
      have htake := allocInv_takeOffset (r := gs.length) H hm hg (by simp) hspec.1 hspec.2
      rw [Function.update_idem] at htake
      have hstep : sameMrStep sbOrder mrid s g =
          takeOffset s sbOrder mrid g (findFree m sbOrder) := by
        simp [sameMrStep, hg, RemoteMem.mr_eq hm]
      rw [List.foldl_cons, hstep]
      refine ih _ (clearOffset m (findFree m sbOrder)) (List.nodup_cons.mp hnodup).2 ?_ ?_ ?_ htake
      · intro g' hg'
        have hne : g' ≠ g := by
          rintro rfl
          exact (List.nodup_cons.mp hnodup).1 hg'
        simp only [takeOffset, RemoteMem.setWord, RemoteMem.remotePage_setMr]
        rw [Function.update_of_ne hne]
        exact hfree g' (by simp [hg'])
      · simp [takeOffset, RemoteMem.setWord, RemoteMem.mr_eq hm]
      · have hcount := cleared_clear hspec.2 hspec.1
        simp only [clearOffset]
        omega

theorem remotePagePolicySameMr_spec {s : RemoteMem} {first : ℕ} {gs : List ℕ}
    (H : AllocInv sbOrder (fun _ => 0) s) (hf : first < s.memregsLast) (hnodup : gs.Nodup)
    (hcond : (∀ g ∈ gs, s.remotePage g = .free) ∨ NoRoom (gs.length <<< sbOrder) s) :
    AllocInv sbOrder (fun _ => 0) (remotePagePolicySameMr s sbOrder gs first).1 ∧
      ((remotePagePolicySameMr s sbOrder gs first).2 ≠ 0 →
        NoRoom (gs.length <<< sbOrder) (remotePagePolicySameMr s sbOrder gs first).1) := by
  unfold remotePagePolicySameMr
  cases hlock : lockNextAvailMr s none first (gs.length <<< sbOrder) with
  | none => exact ⟨H, fun _ => lockNextAvailMr_none hf H.lt_last hlock⟩
  | some mrid =>
      have hav := lockNextAvailMr_some hlock
      have hfree : ∀ g ∈ gs, s.remotePage g = .free := by
        rcases hcond with hfree | hno
        · exact hfree
        · rw [hno mrid] at hav
          cases hav
      obtain ⟨m, hm, hroom⟩ := availMr_iff.mp hav
      have hreg := H.memreg mrid m hm
      have hadd := allocInv_addAllocLen (r := gs.length) (n := (gs.length <<< sbOrder : ℕ)) H hm
        (by simp)
      have hm' : (addAllocLen s mrid (gs.length <<< sbOrder : ℕ)).memregs mrid =
          some { m with allocLen := m.allocLen + (gs.length <<< sbOrder : ℕ) } := by
        simp [addAllocLen, RemoteMem.mr, hm]
      have hid : ((addAllocLen s mrid (gs.length <<< sbOrder : ℕ)).mr mrid).id = mrid := by
        rw [RemoteMem.mr_eq hm']
        exact hreg.id_eq
      refine ⟨sameMr_fold gs _ _ hnodup hfree hm' (hreg.room_iff.mp hroom) ?_, fun h => absurd rfl h⟩
      refine ⟨hadd.memreg, hadd.inside, hadd.once, hadd.lt_last, ?_⟩
      simp only [setLastAlloc, hid]
      exact H.lt_last mrid (by simp [hm])

end SameMr

/-! ## Allocation from region after region -/

section DiffMr

variable {sbOrder : ℕ}

theorem NoRoom.mono {s : RemoteMem} {num num' : ℕ} (h : NoRoom num s) (hle : num ≤ num') :
    NoRoom num' s := by
  intro id
  rw [← Bool.not_eq_true, availMr_iff]
  rintro ⟨m, hm, hroom⟩
  have hav : availMr s num id = true := availMr_iff.mpr ⟨m, hm, by omega⟩
  rw [h id] at hav
  cases hav

/-- The region that `diff_mr` holds has the room it will use: one page if it moves
on, all that the rest of the block needs if it is the only region. -/
def Holding (sbOrder : ℕ) (s : RemoteMem) (gs : List ℕ) : Option ℕ → Prop
  | none => NoRoom (1 <<< sbOrder) s
  | some mrid => ∃ m, s.memregs mrid = some m ∧
      if s.memregsLast = 1 then (pageless s gs).length ≤ freeBits sbOrder m
      else 0 < freeBits sbOrder m

theorem pageless_cons_free {s : RemoteMem} {g : ℕ} {gs : List ℕ} (h : s.remotePage g = .free) :
    pageless s (g :: gs) = g :: pageless s gs := by
  simp [pageless, h]

theorem pageless_takeOffset {s : RemoteMem} {mrid g offset : ℕ} {gs : List ℕ} (h : g ∉ gs) :
    pageless (takeOffset s sbOrder mrid g offset) gs = pageless s gs := by
  apply List.filter_congr
  intro g' hg'
  have hne : g' ≠ g := by
    rintro rfl
    exact h hg'
  simp [takeOffset, RemoteMem.setWord, Function.update_of_ne hne]

/-- The hop to the next region with room. -/
theorem holding_next {s : RemoteMem} {mrid : ℕ} (H : AllocInv sbOrder (fun _ => 0) s) (gs : List ℕ)
    (hpos : s.memregsLast ≠ 1) (hlast : 0 < s.memregsLast) :
    Holding sbOrder s gs (lockNextAvailMr s none ((mrid + 1) % s.memregsLast) 1) := by
  cases hlock : lockNextAvailMr s none ((mrid + 1) % s.memregsLast) 1 with
  | none =>
      have hno := lockNextAvailMr_none (Nat.mod_lt _ hlast) H.lt_last hlock
      exact hno.mono (by rw [Nat.one_shiftLeft]; exact Nat.one_le_two_pow)
  | some next =>
      obtain ⟨m, hm, hroom⟩ := availMr_iff.mp (lockNextAvailMr_some hlock)
      refine ⟨m, hm, ?_⟩
      rw [if_neg hpos]
      have hlt := (H.memreg next m hm).room_one (by simpa using hroom)
      simp only [freeBits]
      omega

theorem diffMrLoop_spec (gs : List ℕ) :
    ∀ (s : RemoteMem) (mr : Option ℕ), AllocInv sbOrder (fun _ => 0) s → gs.Nodup →
      Holding sbOrder s gs mr →
      ∃ s' mr' rem, diffMrLoop sbOrder s mr gs = (s', mr', rem) ∧
        PolicyPost sbOrder (1 <<< sbOrder) s.memregsLast s' mr' rem := by
  induction gs with
  | nil =>
      intro s mr H _ hhold
      cases mr with
      | none => exact ⟨s, none, 0, rfl, H, rfl, fun _ h => (by cases h), fun _ => hhold⟩
      | some mrid =>
          obtain ⟨m, hm, -⟩ := hhold
          refine ⟨s, some mrid, 0, rfl, H, rfl, ?_, fun h => absurd rfl h⟩
          intro id h
          simp [← Option.some.inj h, hm]
  | cons g gs ih =>
      intro s mr H hnodup hhold
      cases mr with
      | none => exact ⟨s, none, _, rfl, H, rfl, fun _ h => (by cases h), fun _ => hhold⟩
      | some mrid =>
          obtain ⟨m, hm, hroom⟩ := hhold
          have hlt : mrid < s.memregsLast := H.lt_last mrid (by simp [hm])
          -- the state after this subblock, and the room left in the region
          have hserve : ∃ s₁ m₁, (if (s.remotePage g).isFree then
                takeOffset (addAllocLen s mrid (1 <<< sbOrder : ℕ)) sbOrder mrid g
                  (findFree ((addAllocLen s mrid (1 <<< sbOrder : ℕ)).mr mrid) sbOrder)
              else s) = s₁ ∧ AllocInv sbOrder (fun _ => 0) s₁ ∧ s₁.memregs mrid = some m₁ ∧
              s₁.memregsLast = s.memregsLast ∧
              (s.memregsLast = 1 → (pageless s₁ gs).length ≤ freeBits sbOrder m₁) := by
            by_cases hfree : (s.remotePage g).isFree = true
            · have hword := RemotePage.isFree_iff.mp hfree
              have hpos : 0 < freeBits sbOrder m := by
                split at hroom
                · rw [pageless_cons_free hword, List.length_cons] at hroom
                  omega
                · exact hroom
              have hfound : findFree m sbOrder ≠ m.size >>> sbOrder :=
                (H.memreg mrid m hm).findFree_ne (by simp only [freeBits] at hpos; omega)
              have hspec := findFree_spec hfound
              rw [if_pos hfree, (findFree_addAllocLen hm sbOrder _).1]
              refine ⟨_, _, rfl, allocInv_takeOne H hm hword hfound, Function.update_self _ _ _, rfl, ?_⟩
              intro hone
              rw [if_pos hone, pageless_cons_free hword, List.length_cons] at hroom
              rw [pageless_takeOffset (List.nodup_cons.mp hnodup).1]
              have hcount := cleared_clear hspec.2 hspec.1
              simp only [freeBits, clearOffset, RemoteMem.mr, addAllocLen,
                RemoteMem.memregs_setMr, Function.update_self, hm, Option.getD_some, hcount]
              simp only [freeBits, pageless, RemoteMem.remotePage_setMr] at hroom ⊢
              omega
            · rw [if_neg hfree]
              refine ⟨s, m, rfl, H, hm, rfl, ?_⟩
              intro hone
              rw [if_pos hone] at hroom
              simpa [pageless, hfree] using hroom
          obtain ⟨s₁, m₁, hs₁, H₁, hm₁, hlast, hone⟩ := hserve
          have hid : (s₁.mr mrid).id = mrid := by
            rw [RemoteMem.mr_eq hm₁]
            exact (H₁.memreg mrid m₁ hm₁).id_eq
          rw [diffMrLoop, hs₁]
          simp only [hid]
          by_cases hsingle : s.memregsLast = 1
          · have hstay : (mrid + 1) % s₁.memregsLast = mrid := by
              rw [hlast, hsingle, Nat.mod_one]
              omega
            rw [if_neg (not_not.mpr hstay), ← hlast]
            refine ih s₁ (some mrid) H₁ (List.nodup_cons.mp hnodup).2 ⟨m₁, hm₁, ?_⟩
            rw [if_pos (hlast.trans hsingle)]
            exact hone hsingle
          · have hmove : (mrid + 1) % s₁.memregsLast ≠ mrid := by
              rw [hlast]
              intro h
              by_cases hend : mrid + 1 < s.memregsLast
              · rw [Nat.mod_eq_of_lt hend] at h
                omega
              · rw [show mrid + 1 = s.memregsLast by omega, Nat.mod_self] at h
                omega
            rw [if_pos hmove, ← hlast]
            exact ih s₁ _ H₁ (List.nodup_cons.mp hnodup).2
              (holding_next H₁ gs (by omega) (by omega))

theorem remotePagePolicyDiffMr_spec {s : RemoteMem} {first : ℕ} {gs : List ℕ}
    (H : AllocInv sbOrder (fun _ => 0) s) (hf : first < s.memregsLast) (hnodup : gs.Nodup)
    (hcond : s.memregsLast = 1 → (pageless s gs).length ≤ freeBits sbOrder (s.mr 0) ∨
      freeBits sbOrder (s.mr 0) = 0) :
    ∃ s' mr rem, remotePagePolicyDiffMr s sbOrder gs first = (setLastAlloc s' mr, rem) ∧
      PolicyPost sbOrder (1 <<< sbOrder) s.memregsLast s' mr rem := by
  have hhold : Holding sbOrder s gs (lockNextAvailMr s none first (1 <<< sbOrder)) := by
    cases hlock : lockNextAvailMr s none first (1 <<< sbOrder) with
    | none => exact lockNextAvailMr_none hf H.lt_last hlock
    | some mrid =>
        obtain ⟨m, hm, hroom⟩ := availMr_iff.mp (lockNextAvailMr_some hlock)
        have hpos := (H.memreg mrid m hm).room_iff.mp hroom
        refine ⟨m, hm, ?_⟩
        split
        · next hone =>
          have hzero : mrid = 0 := by
            have := H.lt_last mrid (by simp [hm])
            omega
          subst hzero
          rw [RemoteMem.mr_eq hm] at hcond
          rcases hcond hone with hle | hnone
          · exact hle
          · simp only [freeBits] at hnone
            omega
        · simp only [freeBits]
          omega
  obtain ⟨s', mr, rem, hloop, hpost⟩ := diffMrLoop_spec gs s _ H hnodup hhold
  exact ⟨s', mr, rem, by rw [remotePagePolicyDiffMr, hloop], hpost⟩

end DiffMr

end Emp
