import Emp.View.Opening

/-!
# The error exits of an open

A new vmr is registered with the memory first, and with the notifier of its mm next.  An error exit
behind that takes back the one or the other, but never both: where the notifier cannot be had, the
vmr stays in the list, and where something later fails, the reference of the notifier stays.  The
vmdescs and the counts of descriptors are as before, since a vmdesc that cannot be completed is
freed at once and the counts go up at the very end.

## Main definitions

* `OpenSys.Restored` — what an error exit should leave.
* `OpenCall.Legal` — the pointers are new, and a parent has a vmdesc.
* `OpenCall.Bare` — the call fails before the vmr is registered.
-/

namespace Emp

/-- The registrations are as before. -/
structure OpenSys.Restored (s t : OpenSys) : Prop where
  vmrsList : t.vmrsList = s.vmrsList
  numVmrs : t.numVmrs = s.numVmrs
  desc : t.desc = s.desc
  notifierRefs : t.notifierRefs = s.notifierRefs
  gpaDir : t.gpaDir = s.gpaDir
  refcnt : t.refcnt = s.refcnt

namespace OpenCall

def mem : OpenCall → OpenMem
  | .mmap _ _ mem => mem
  | .split _ mem => mem
  | .open _ _ _ mem => mem

/-- Allocations return what is not in use, and only vmrs with a vmdesc are split or forked. -/
structure Legal (s : OpenSys) (c : OpenCall) : Prop where
  vmr : ∀ p, c.mem.vmr = some p → p ∉ s.vmrsList
  parent : ∀ prev vma place mem, c = .open prev vma place mem →
    ∃ v d desc, s.vmr prev = some v ∧ v.descs = some d ∧ s.desc d = some desc

/-- The call fails in the checks that `emp_mmap` begins with, or no vmr can be allocated. -/
def Bare : OpenCall → Prop
  | .mmap _ _ mem => mem.checked = false ∨ mem.vmr = none
  | .split _ mem => mem.vmr = none
  | .open _ _ _ mem => mem.vmr = none

end OpenCall

namespace OpenSys

variable {s t u : OpenSys} {mem : OpenMem} {p : ℕ} {v : OpenVmr} {vma : HostVma}

theorem Restored.refl (s : OpenSys) : s.Restored s := ⟨rfl, rfl, rfl, rfl, rfl, rfl⟩

/-- Only the structures of vmrs differ. -/
structure SameRegistered (s t : OpenSys) : Prop extends s.Restored t where
  kvm : t.kvm = s.kvm

theorem sameRegistered_setVmr (f : OpenVmr → OpenVmr) : s.SameRegistered (s.setVmr p f) :=
  ⟨⟨rfl, rfl, rfl, rfl, rfl, rfl⟩, rfl⟩

/-- A vmr is registered, and perhaps one reference of a notifier is taken for it. -/
structure Registered (p mm : ℕ) (refs : ℤ) (s t : OpenSys) : Prop where
  vmrsList : t.vmrsList = s.vmrsList ++ [p]
  numVmrs : t.numVmrs = s.numVmrs + 1
  desc : t.desc = s.desc
  notifierRefs : t.notifierRefs mm = s.notifierRefs mm + refs
  others : ∀ n ≠ mm, t.notifierRefs n = s.notifierRefs n
  gpaDir : t.gpaDir = s.gpaDir
  refcnt : t.refcnt = s.refcnt

theorem registered_createVmr (vma : Option HostVma) (mm : ℕ) :
    Registered p mm 0 s (s.createVmr p vma) :=
  ⟨rfl, rfl, rfl, (Int.add_zero _).symm, fun _ _ => rfl, rfl, rfl⟩

theorem Registered.same {mm : ℕ} {refs : ℤ} (h : Registered p mm refs s t)
    (h' : t.Restored u) : Registered p mm refs s u :=
  ⟨h'.vmrsList.trans h.vmrsList, h'.numVmrs.trans h.numVmrs, h'.desc.trans h.desc,
    (congrFun h'.notifierRefs mm).trans h.notifierRefs,
    fun n hn => (congrFun h'.notifierRefs n).trans (h.others n hn), h'.gpaDir.trans h.gpaDir,
    h'.refcnt.trans h.refcnt⟩

/-- The notifier of a new vmr. -/
theorem registered_notifier {mm : ℕ} (h : Registered p mm 0 s t) (hv : v.notified = false)
    (hmm : v.mm = mm) (hok : mem.notifier = true) :
    Registered p mm 1 s (t.empGetMmuNotifier mem p v).1 := by
  subst hmm
  unfold empGetMmuNotifier
  simp only [hv, hok, Bool.false_eq_true, if_false, if_true]
  refine ⟨h.vmrsList, h.numVmrs, h.desc, ?_, fun n hn => ?_, h.gpaDir, h.refcnt⟩
  · show Function.update t.notifierRefs v.mm _ v.mm = _
    rw [Function.update_self, h.notifierRefs, Int.add_zero]
  · show Function.update t.notifierRefs v.mm _ n = _
    rw [Function.update_of_ne hn]
    exact h.others n hn

theorem restored_freeVmr : s.Restored (t.freeVmr p) ↔ s.Restored t :=
  ⟨fun h => ⟨h.vmrsList, h.numVmrs, h.desc, h.notifierRefs, h.gpaDir, h.refcnt⟩,
    fun h => ⟨h.vmrsList, h.numVmrs, h.desc, h.notifierRefs, h.gpaDir, h.refcnt⟩⟩

/-- A registered vmr that is left in the list. -/
theorem Registered.not_restored {mm : ℕ} {refs : ℤ} (h : Registered p mm refs s t)
    (hlist : u.vmrsList = t.vmrsList) : ¬ s.Restored u := by
  intro hr
  have hlen := congrArg List.length (hr.vmrsList.symm.trans (hlist.trans h.vmrsList))
  rw [List.length_append, List.length_singleton] at hlen
  omega

/-- A registered vmr that is released: everything is as before but the notifier. -/
theorem Registered.released {mm : ℕ} {refs : ℤ} (h : Registered p mm refs s t)
    (hp : p ∉ s.vmrsList) : s.Restored (t.empVmrRelease p) ↔ refs = 0 := by
  have hlist : (t.empVmrRelease p).vmrsList = s.vmrsList := by
    show t.vmrsList.erase p = s.vmrsList
    rw [h.vmrsList, List.erase_append_right _ hp, List.erase_cons_head, List.append_nil]
  have hnum : (t.empVmrRelease p).numVmrs = s.numVmrs := by
    show t.numVmrs - 1 = s.numVmrs
    rw [h.numVmrs]
    omega
  constructor
  · intro hr
    have hrefs := (congrFun hr.notifierRefs mm).symm.trans h.notifierRefs
    omega
  · rintro rfl
    refine ⟨hlist, hnum, h.desc, funext fun n => ?_, h.gpaDir, h.refcnt⟩
    by_cases hn : n = mm
    · rw [hn]
      exact h.notifierRefs.trans (Int.add_zero _)
    · exact h.others n hn

/-- The notifier is taken for a memory that is no virtual machine's. -/
theorem notify_spec {mm : ℕ} {ok : Bool} (h : Registered p mm 0 s u) (hkvm : u.kvm = s.kvm)
    (hv : v.notified = false) (hmm : v.mm = mm)
    (heq : (if u.kvm then (u, true) else u.empGetMmuNotifier mem p v) = (t, ok)) :
    (ok = false ∧ t = u ∧ s.kvm = false) ∨
      (ok = true ∧ ∃ refs, Registered p mm refs s t ∧ (refs = 0 ↔ s.kvm = true)) := by
  cases hk : u.kvm with
  | true =>
      rw [if_pos hk] at heq
      obtain ⟨rfl, rfl⟩ := Prod.mk.inj heq
      exact .inr ⟨rfl, 0, h, iff_of_true rfl (hkvm.symm.trans hk)⟩
  | false =>
      have hno : s.kvm = false := hkvm.symm.trans hk
      rw [if_neg (Bool.eq_false_iff.mp hk)] at heq
      cases hn : mem.notifier with
      | true =>
          have hreg := registered_notifier h hv hmm hn
          have hok : (u.empGetMmuNotifier mem p v).2 = true := by
            unfold empGetMmuNotifier
            simp only [hv, hn, Bool.false_eq_true, if_false, if_true]
          rw [heq] at hreg hok
          exact .inr ⟨hok, 1, hreg, iff_of_false Int.one_ne_zero (Bool.eq_false_iff.mp hno)⟩
      | false =>
          unfold empGetMmuNotifier at heq
          simp only [hv, hn, Bool.false_eq_true, if_false] at heq
          obtain ⟨rfl, rfl⟩ := Prod.mk.inj heq
          exact .inl ⟨rfl, rfl, hno⟩

/-! ### `emp_mmap` -/

theorem gpasOpen_failed {base : ℕ} (h : s.gpasOpen mem p v base = (t, false)) : t = s := by
  unfold gpasOpen at h
  cases hd : mem.vmdesc with
  | none =>
      rw [hd] at h
      exact (Prod.mk.inj h).1.symm
  | some d =>
      rw [hd] at h
      dsimp only at h
      split_ifs at h
      · cases h
      · exact (Prod.mk.inj h).1.symm

/-- Behind the checks and the allocation of the vmr, an error exit of `emp_mmap` restores only what
a virtual machine's memory has registered, since that has no notifier. -/
theorem restored_empMmap {base : ℕ} (hp : ∀ p, mem.vmr = some p → p ∉ s.vmrsList)
    (hfail : (s.empMmap mem vma base).2 = false) :
    s.Restored (s.empMmap mem vma base).1 ↔
      (mem.checked = false ∨ mem.vmr = none) ∨ s.kvm = true := by
  unfold empMmap at hfail ⊢
  cases hc : mem.checked with
  | false => simpa using Restored.refl s
  | true =>
      cases hv : mem.vmr with
      | none => simpa using Restored.refl s
      | some p =>
          rw [hc, hv] at hfail
          simp only [Bool.not_true, Bool.false_eq_true, if_false, reduceCtorEq, or_self,
            false_or] at hfail ⊢
          -- the vmr as the low memory of a virtual machine
          obtain ⟨u, hu⟩ : ∃ u, u = (if (s.createVmr p (some vma)).kvm &&
              (s.createVmr p (some vma)).lowmemVmr.isNone
              then { s.createVmr p (some vma) with lowmemVmr := some p }
              else s.createVmr p (some vma)) := ⟨_, rfl⟩
          have hsame : (s.createVmr p (some vma)).SameRegistered u := by
            rw [hu]
            split_ifs <;> exact ⟨⟨rfl, rfl, rfl, rfl, rfl, rfl⟩, rfl⟩
          have hreg : Registered p vma.mm 0 s u :=
            (registered_createVmr (some vma) vma.mm).same hsame.toRestored
          rw [← hu] at hfail ⊢
          obtain ⟨t, ok, ht⟩ : ∃ t ok, (if u.kvm then (u, true)
              else u.empGetMmuNotifier mem p (OpenVmr.blank.copyVmaInfo vma)) = (t, ok) :=
            ⟨_, _, rfl⟩
          rw [ht] at hfail ⊢
          rcases notify_spec hreg hsame.kvm rfl rfl ht with ⟨rfl, rfl, hk⟩ | ⟨rfl, refs, ht', hk⟩
          · exact iff_of_false (hreg.not_restored rfl) (Bool.eq_false_iff.mp hk)
          · simp only [Bool.not_true, Bool.false_eq_true, if_false] at hfail ⊢
            obtain ⟨w, done, hw⟩ : ∃ w done,
                t.gpasOpen mem p (OpenVmr.blank.copyVmaInfo vma) base = (w, done) := ⟨_, _, rfl⟩
            rw [hw] at hfail ⊢
            cases done with
            | true => cases hfail
            | false =>
                obtain rfl := gpasOpen_failed hw
                exact (ht'.released (hp p hv)).trans hk

/-! ### The open of a forked vma -/

/-- A vmdesc that is shared or of a sibling needs nothing more. -/
theorem dupVmdesc_failed {place : ForkPlace} {newVmdesc dup : Bool}
    (h : s.dupVmdesc mem p v vma place newVmdesc dup = (t, false)) :
    newVmdesc = true ∧ s.SameRegistered t := by
  unfold dupVmdesc at h
  dsimp only at h
  split at h
  · next hmade =>
      obtain ⟨rfl, -⟩ := Prod.mk.inj h
      refine ⟨?_, sameRegistered_setVmr _⟩
      by_contra hno
      rw [if_neg hno] at hmade
      cases hmade
  · split_ifs at h
    · split at h <;> cases h
    · cases h

theorem prepare_new {place : ForkPlace} {dup : Bool}
    (h : s.prepare mem p v vma place = (t, true, dup)) : vma.vmShared = false ∧ t = s := by
  unfold prepare at h
  split_ifs at h with hs hw
  · cases h
  · cases h
    exact ⟨Bool.eq_false_iff.mpr hs, rfl⟩
  · split at h
    · cases h
    · cases h
      exact ⟨Bool.eq_false_iff.mpr hs, rfl⟩

/-- Behind the allocation of the vmr, an error exit of a fork restores only what a virtual machine's
memory has registered. -/
theorem restored_forkOpen {place : ForkPlace} (hp : ∀ p, mem.vmr = some p → p ∉ s.vmrsList)
    (hfail : (s.forkOpen mem v vma place).2 = false) :
    s.Restored (s.forkOpen mem v vma place).1 ↔ mem.vmr = none ∨ s.kvm = true := by
  unfold forkOpen at hfail ⊢
  cases hv : mem.vmr with
  | none => simpa using Restored.refl s
  | some p =>
      rw [hv] at hfail
      simp only [reduceCtorEq, false_or] at hfail ⊢
      have hreg : Registered p vma.mm 0 s (s.createVmr p (some vma)) :=
        registered_createVmr (some vma) vma.mm
      obtain ⟨t, ok, ht⟩ : ∃ t ok, (if (s.createVmr p (some vma)).kvm
          then (s.createVmr p (some vma), true)
          else (s.createVmr p (some vma)).empGetMmuNotifier mem p
            (OpenVmr.blank.copyVmaInfo vma)) = (t, ok) := ⟨_, _, rfl⟩
      rw [ht] at hfail ⊢
      rcases notify_spec hreg rfl rfl rfl ht with ⟨rfl, rfl, hk⟩ | ⟨rfl, refs, ht', hk⟩
      · exact iff_of_false (hreg.not_restored rfl) (Bool.eq_false_iff.mp hk)
      · simp only [Bool.not_true, Bool.false_eq_true, if_false] at hfail ⊢
        have hset : t.SameRegistered (t.setVmr p fun w => { w with wipeOnFork := v.wipeOnFork }) :=
          sameRegistered_setVmr _
        revert hfail hset
        generalize (t.setVmr p fun w => { w with wipeOnFork := v.wipeOnFork }) = x
        intro hfail hset
        obtain ⟨y, isNew, dup, hy⟩ : ∃ y isNew dup, x.prepare mem p v vma place =
          (y, isNew, dup) := ⟨_, _, _, rfl⟩
        rw [hy] at hfail ⊢
        obtain ⟨z, done, hz⟩ : ∃ z done,
          y.dupVmdesc mem p v vma place isNew dup = (z, done) := ⟨_, _, rfl⟩
        dsimp only at hfail ⊢
        rw [hz] at hfail ⊢
        cases done with
        | true => cases hfail
        | false =>
            obtain ⟨rfl, hsame⟩ := dupVmdesc_failed hz
            obtain ⟨hshared, rfl⟩ := prepare_new hy
            simp only [hshared, Bool.not_true, Bool.or_self, Bool.false_eq_true, if_false]
            have hz' : Registered p vma.mm refs s z :=
              (ht'.same hset.toRestored).same hsame.toRestored
            exact restored_freeVmr.trans ((hz'.released (hp p hv)).trans hk)

/-! ### All calls -/

/-- **An error exit restores the registrations if and only if it comes before the vmr is registered,
or the memory is a virtual machine's.** -/
theorem restored_iff {c : OpenCall} (hc : c.Legal s) (hfail : (s.run c).2 = false) :
    s.Restored (s.run c).1 ↔ c.Bare ∨ s.kvm = true := by
  cases c with
  | mmap vma base mem => exact restored_empMmap hc.vmr hfail
  | split prev mem =>
      change (s.empVmaSplit mem prev).2 = false at hfail
      show s.Restored (s.empVmaSplit mem prev).1 ↔ _
      unfold empVmaSplit at hfail ⊢
      cases hv : mem.vmr with
      | none =>
          exact iff_of_true (Restored.refl s) (.inl hv)
      | some q =>
          rw [hv] at hfail
          cases hfail
  | «open» prev vma place mem =>
      obtain ⟨v, d, desc, hv, -, -⟩ := hc.parent prev vma place mem rfl
      change (s.empVmaOpen mem prev vma place).2 = false at hfail
      show s.Restored (s.empVmaOpen mem prev vma place).1 ↔ _
      unfold empVmaOpen at hfail ⊢
      rw [hv] at hfail ⊢
      dsimp only at hfail ⊢
      cases hs : v.splitNew with
      | some new =>
          rw [hs] at hfail
          cases hfail
      | none =>
          rw [hs] at hfail
          exact restored_forkOpen hc.vmr hfail

/-! ### One parent -/

/-- A memory with one vmr of the pages from 16 to 32 in the mm 0. -/
def oneVmr (kvm : Bool) : OpenSys where
  kvm := kvm
  lowmemVmr := none
  vmr := fun p => if p = 0 then some ⟨0, 16, 32, some 0, !kvm, false, true, none, none⟩ else none
  vmrsList := [0]
  numVmrs := 1
  desc := fun d => if d = 0 then some ⟨16, 1, ⟨⟨0, 16, 1⟩, []⟩⟩ else none
  gpaDir := fun _ _ => none
  refcnt := fun _ => 0
  notifierRefs := fun mm => if mm = 0 ∧ kvm = false then 1 else 0
  sbOrder := 0

/-- The fork of its vma into the mm 1, and an mmap, with the given outcomes. -/
def forkOne (notifier : Bool) (vmdesc : Option ℕ) : OpenCall :=
  .open 0 ⟨1, 16, 32, false⟩ ⟨none, none, fun i => (i, i + 1)⟩
    ⟨true, some 1, notifier, vmdesc, true, true, true⟩

def mmapOne (notifier : Bool) (vmdesc : Option ℕ) : OpenCall :=
  .mmap ⟨1, 48, 64, false⟩ 48 ⟨true, some 1, notifier, vmdesc, true, true, true⟩

theorem legal_mmapOne (kvm notifier : Bool) (vmdesc : Option ℕ) :
    (mmapOne notifier vmdesc).Legal (oneVmr kvm) := by
  refine ⟨fun p hp => ?_, fun prev vma place mem h => ?_⟩
  · obtain rfl := Option.some.inj hp
    exact (by decide : 1 ∉ [0])
  · cases h

theorem legal_forkOne (kvm notifier : Bool) (vmdesc : Option ℕ) :
    (forkOne notifier vmdesc).Legal (oneVmr kvm) := by
  refine ⟨fun p hp => ?_, fun prev vma place mem h => ?_⟩
  · obtain rfl := Option.some.inj hp
    exact (by decide : 1 ∉ [0])
  · injection h with hprev
    subst hprev
    exact ⟨_, _, _, rfl, rfl, rfl⟩

/-- A virtual machine's memory is as before when its vmdesc cannot be allocated. -/
theorem restored_mmapOne : (oneVmr true).Restored ((oneVmr true).run (mmapOne true none)).1 :=
  (restored_iff (legal_mmapOne true true none) rfl).mpr (.inr rfl)

/-- A fork whose notifier cannot be had leaves a freed vmr in the list, and one whose vmdesc cannot
be allocated leaves a reference of the notifier; an mmap does the like. -/
theorem not_restored_forkOne :
    ((oneVmr false).run (forkOne false (some 1))).2 = false ∧
      ((oneVmr false).run (forkOne false (some 1))).1.vmrsList = [0, 1] ∧
      ((oneVmr false).run (forkOne false (some 1))).1.vmr 1 = none ∧
      ((oneVmr false).run (forkOne true none)).2 = false ∧
      ((oneVmr false).run (forkOne true none)).1.vmrsList = [0] ∧
      ((oneVmr false).run (forkOne true none)).1.notifierRefs 1 = 1 ∧
      ((oneVmr false).run (mmapOne false (some 1))).2 = false ∧
      ((oneVmr false).run (mmapOne false (some 1))).1.vmrsList = [0, 1] ∧
      ((oneVmr false).run (mmapOne true none)).2 = false ∧
      ((oneVmr false).run (mmapOne true none)).1.notifierRefs 1 = 1 ∧
      (oneVmr false).vmrsList = [0] ∧ (oneVmr false).notifierRefs 1 = 0 ∧
      ¬ (oneVmr false).Restored ((oneVmr false).run (forkOne false (some 1))).1 ∧
      ¬ (oneVmr false).Restored ((oneVmr false).run (forkOne true none)).1 ∧
      ¬ (oneVmr false).Restored ((oneVmr false).run (mmapOne false (some 1))).1 ∧
      ¬ (oneVmr false).Restored ((oneVmr false).run (mmapOne true none)).1 := by
  refine ⟨by decide, by decide, by decide, by decide, by decide, by decide, by decide, by decide,
    by decide, by decide, by decide, by decide, fun h => ?_, fun h => ?_, fun h => ?_, fun h => ?_⟩
  · exact absurd h.vmrsList (by decide)
  · exact absurd (congrFun h.notifierRefs 1) (by decide)
  · exact absurd h.vmrsList (by decide)
  · exact absurd (congrFun h.notifierRefs 1) (by decide)

end OpenSys

end Emp
