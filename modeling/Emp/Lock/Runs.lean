import Emp.Lock.Held

/-!
# Runs of locking

A caller that has looked at the slot knows that the descriptor is in it if the locked one is its
head: whoever takes it out holds the lock of the head, and nobody makes the locked one a head.  So
the second look settles both.

A range is locked as it should be when its first block starts with it, and is not reduced between
the look at its order and its lock; otherwise the loops go over other subblocks than those of the
range.

## Main results

* `LockSys.TaskInv` — the invariant.
* `LockSys.lockOk_of_reach` — every call keeps what it promises.
-/

namespace Emp

/-- The lock that a caller holds while it looks again. -/
def LockPc.cur : LockPc → Option Slot
  | .relock _ => none
  | .lock _ _ => none
  | .checkSlot _ head => some head
  | .checkHead _ head => some head
  | .checkWork _ head => some head
  | .unlock _ head => some head

namespace LockSys

variable {s s' : LockSys} {t u start idx lo hi stop : ℕ} {gpa head : Slot} {c : LockCall}
  {pc : LockPc} {still : Bool} {next : LockNext} {e : LockEvent} {e' : DirEvent}

/-! ### One lock -/

/-- What a caller knows in the end: the locked descriptor is the head, and the slot is that of the
descriptor. -/
def RetOk (s : LockSys) (c : LockCall) (gpa head : Slot) : Prop :=
  s.dir.IsDesc gpa ∧ s.dir.headOf gpa = head ∧
    ∀ idx wait, c = .block idx wait → s.dir.gpaDir idx = some gpa

/-- What a caller knows at the points of the locking of a block. -/
def PcOk (s : LockSys) (c : LockCall) : LockPc → Prop
  | .relock gpa => s.dir.IsDesc gpa
  | .lock gpa head => s.dir.IsDesc gpa ∧ s.dir.IsDesc head
  | .checkSlot gpa _ => s.dir.IsDesc gpa
  | .checkHead gpa head => s.dir.IsDesc gpa ∧
      ∀ idx wait, c = .block idx wait → s.dir.headOf gpa = head → s.dir.gpaDir idx = some gpa
  | .checkWork gpa head => c = .localPage true ∧ s.RetOk c gpa head
  | .unlock gpa _ => s.dir.IsDesc gpa

theorem RetOk.frame (h : s.RetOk c gpa head) (hf : Frame s s' t) (hcur : s.owner head = some t) :
    s'.RetOk c gpa head := by
  obtain ⟨hdesc, hhead, hslot⟩ := h
  have howner : s.owner (s.dir.headOf gpa) = some t := hhead ▸ hcur
  exact ⟨hf.dir.desc _ hdesc, (hf.headOf_eq hdesc howner).trans hhead,
    fun idx wait hc => hf.dir.slot idx gpa (hslot idx wait hc) howner⟩

theorem PcOk.frame (h : s.PcOk c pc) (hf : Frame s s' t)
    (hcur : ∀ p, pc.cur = some p → s.owner p = some t) : s'.PcOk c pc := by
  cases pc with
  | relock gpa => exact hf.dir.desc _ h
  | lock gpa head => exact ⟨hf.dir.desc _ h.1, hf.dir.desc _ h.2⟩
  | checkSlot gpa head => exact hf.dir.desc _ h
  | checkHead gpa head =>
      refine ⟨hf.dir.desc _ h.1, fun idx wait hc hhead => ?_⟩
      have howner := hcur head rfl
      have hsame := hf.headOf_eq_of_new h.1 (hhead ▸ (hf.owner _).mpr howner)
      have hold := hsame.symm.trans hhead
      exact hf.dir.slot idx gpa (h.2 idx wait hc hold) (hold ▸ howner)
  | checkWork gpa head => exact ⟨h.1, h.2.frame hf (hcur head rfl)⟩
  | unlock gpa head => exact hf.dir.desc _ h

/-- A step of an actor itself: the directory and the locks of others stay. -/
structure OwnStep (s s' : LockSys) (t : ℕ) : Prop where
  dir : s'.dir = s.dir
  task : s'.task = s.task
  owner : ∀ u, u ≠ t → ∀ p, s'.owner p = some u ↔ s.owner p = some u

theorem OwnStep.refl (s : LockSys) (t : ℕ) : OwnStep s s t := ⟨rfl, rfl, fun _ _ _ => Iff.rfl⟩

theorem ownStep_take (hnone : s.owner head = none) : OwnStep s (s.take t head) t := by
  refine ⟨rfl, rfl, fun u hu p => ?_⟩
  rw [owner_take]
  by_cases heq : p = head
  · simp [heq, hnone, hu.symm]
  · simp [heq]

theorem ownStep_release (howner : s.owner head = some t) : OwnStep s (s.release head) t := by
  refine ⟨rfl, rfl, fun u hu p => ?_⟩
  rw [owner_release]
  by_cases heq : p = head
  · simp [heq, howner, hu.symm]
  · simp [heq]

/-- One step of the locking of a block. -/
theorem lockStep_spec (hd : s.dir.Inv) (hpc : s.PcOk c pc) (h : s.Held t lo hi stop pc.cur)
    (hs : s.lockStep t c still pc = some (s', next)) :
    OwnStep s s' t ∧ match next with
      | .go pc' => s'.PcOk c pc' ∧ s'.Held t lo hi stop pc'.cur
      | .ret none => s'.Held t lo hi stop none
      | .ret (some head) => (pc = .checkHead pc.gpa head ∨ c = .localPage true) ∧
          s'.RetOk c pc.gpa head ∧ s'.Held t lo hi stop (some head) := by
  cases pc with
  | relock gpa =>
      obtain ⟨rfl, rfl⟩ := Prod.mk.inj (Option.some.inj hs)
      exact ⟨.refl s t, ⟨hpc, hd.isDesc_headOf hpc⟩, h⟩
  | lock gpa head =>
      simp only [lockStep] at hs
      by_cases hnone : s.owner head = none
      · rw [if_pos hnone] at hs
        obtain ⟨rfl, rfl⟩ := Prod.mk.inj (Option.some.inj hs)
        refine ⟨ownStep_take hnone, ?_⟩
        cases c with
        | block idx wait => exact ⟨hpc.1, h.take hnone hpc.2⟩
        | localPage work => exact ⟨⟨hpc.1, nofun⟩, h.take hnone hpc.2⟩
      · rw [if_neg hnone] at hs
        split at hs
        · obtain ⟨rfl, rfl⟩ := Prod.mk.inj (Option.some.inj hs)
          exact ⟨.refl s t, hpc, h⟩
        · obtain ⟨rfl, rfl⟩ := Prod.mk.inj (Option.some.inj hs)
          exact ⟨.refl s t, h⟩
  | checkSlot gpa head =>
      cases c with
      | localPage work => cases hs
      | block idx wait =>
          simp only [lockStep] at hs
          obtain ⟨cur, hslot, heq⟩ := Option.map_eq_some_iff.mp hs
          by_cases hcur : cur = gpa
          · rw [if_pos hcur] at heq
            obtain ⟨rfl, rfl⟩ := Prod.mk.inj heq
            refine ⟨.refl s t, ⟨hpc, fun i w hc _ => ?_⟩, h⟩
            obtain ⟨rfl, -⟩ := LockCall.block.inj hc
            rw [hslot, hcur]
          · rw [if_neg hcur] at heq
            obtain ⟨rfl, rfl⟩ := Prod.mk.inj heq
            exact ⟨.refl s t, hd.isDesc hslot, h⟩
  | checkHead gpa head =>
      simp only [lockStep] at hs
      by_cases hhead : head = s.dir.headOf gpa
      · rw [if_pos hhead] at hs
        obtain ⟨rfl, rfl⟩ := Prod.mk.inj (Option.some.inj hs)
        refine ⟨.refl s t, ?_⟩
        have hret : s.RetOk c gpa head :=
          ⟨hpc.1, hhead.symm, fun idx wait hc => hpc.2 idx wait hc hhead.symm⟩
        cases c with
        | block idx wait => exact ⟨.inl rfl, hret, h⟩
        | localPage work =>
            cases work with
            | false => exact ⟨.inl rfl, hret, h⟩
            | true => exact ⟨⟨rfl, hret⟩, h⟩
      · rw [if_neg hhead] at hs
        obtain ⟨rfl, rfl⟩ := Prod.mk.inj (Option.some.inj hs)
        exact ⟨.refl s t, hpc.1, h⟩
  | checkWork gpa head =>
      simp only [lockStep] at hs
      cases still with
      | true =>
          obtain ⟨rfl, rfl⟩ := Prod.mk.inj (Option.some.inj hs)
          exact ⟨.refl s t, .inr hpc.1, hpc.2, h⟩
      | false =>
          obtain ⟨rfl, rfl⟩ := Prod.mk.inj (Option.some.inj hs)
          exact ⟨ownStep_release (h.cur head rfl), h.release⟩
  | unlock gpa head =>
      obtain ⟨rfl, rfl⟩ := Prod.mk.inj (Option.some.inj hs)
      exact ⟨ownStep_release (h.cur head rfl), hpc, h.release⟩

/-! ### The invariant -/

/-- What holds of an actor. -/
def TaskInv (s : LockSys) (t : ℕ) : LockTask → Prop
  | .other => True
  | .call c pc => s.PcOk c pc ∧ s.Held t 0 0 0 pc.cur
  | .ret c gpa (some head) => s.RetOk c gpa head ∧ s.Held t 0 0 0 (some head)
  | .ret _ _ none => s.Held t 0 0 0 none
  | .fast start => s.Held t start start (start + s.dir.pmdLen) none
  | .scan start idx => start ≤ idx ∧ s.Held t start idx (start + s.dir.pmdLen) none
  | .range start idx fast pc => start ≤ idx ∧ idx < start + s.dir.pmdLen ∧
      (fast → idx = start) ∧ s.PcOk (.block idx false) pc ∧
        s.Held t start idx (start + s.dir.pmdLen) pc.cur
  | .undo start idx stop => ∃ hi, stop ≤ hi ∧ (hi ≤ stop ∨ start + s.dir.pmdLen ≤ stop) ∧
      s.Held t idx hi (start + s.dir.pmdLen) none
  | .locked start => ∃ hi, start + s.dir.pmdLen ≤ hi ∧
      s.Held t start hi (start + s.dir.pmdLen) none
  | .unlocked _ => s.Held t 0 0 0 none

/-- What holds of the system. -/
structure Inv (s : LockSys) : Prop where
  dir : s.dir.Inv
  task : ∀ t, s.TaskInv t (s.task t)

/-- What an actor that is in a call holds are descriptors. -/
theorem desc_of_taskInv {k : LockTask} (h : s.TaskInv t k) (hk : k ≠ .other) {p : Slot}
    (hp : s.owner p = some t) : s.dir.IsDesc p := by
  cases k with
  | other => exact absurd rfl hk
  | call c pc => exact h.2.desc p hp
  | ret c gpa head =>
      cases head with
      | none => exact Held.desc h p hp
      | some head => exact h.2.desc p hp
  | fast start => exact Held.desc h p hp
  | scan start idx => exact h.2.desc p hp
  | range start idx fast pc => exact h.2.2.2.2.desc p hp
  | undo start idx stop =>
      obtain ⟨hi, -, -, hheld⟩ := h
      exact hheld.desc p hp
  | locked start =>
      obtain ⟨hi, -, hheld⟩ := h
      exact hheld.desc p hp
  | unlocked start => exact Held.desc h p hp

/-- The steps of others do not touch what holds of an actor. -/
theorem TaskInv.frame {k : LockTask} (h : s.TaskInv t k) (hd : s.dir.Inv) (hf : Frame s s' t) :
    s'.TaskInv t k := by
  have hlen : s'.dir.pmdLen = s.dir.pmdLen := by
    rw [Directory.pmdLen, Directory.pmdLen, hf.dir.backing]
  cases k with
  | other => trivial
  | call c pc => exact ⟨h.1.frame hf h.2.cur, h.2.frame hd hf⟩
  | ret c gpa head =>
      cases head with
      | none => exact Held.frame h hd hf
      | some head => exact ⟨h.1.frame hf (h.2.cur head rfl), h.2.frame hd hf⟩
  | fast start =>
      rw [TaskInv, hlen]
      exact Held.frame h hd hf
  | scan start idx =>
      rw [TaskInv, hlen]
      exact ⟨h.1, h.2.frame hd hf⟩
  | range start idx fast pc =>
      obtain ⟨hle, hlt, hfast, hpc, hheld⟩ := h
      rw [TaskInv, hlen]
      exact ⟨hle, hlt, hfast, hpc.frame hf hheld.cur, hheld.frame hd hf⟩
  | undo start idx stop =>
      obtain ⟨hi, hle, hor, hheld⟩ := h
      rw [TaskInv, hlen]
      exact ⟨hi, hle, hor, hheld.frame hd hf⟩
  | locked start =>
      obtain ⟨hi, hle, hheld⟩ := h
      rw [TaskInv, hlen]
      exact ⟨hi, hle, hheld.frame hd hf⟩
  | unlocked start => exact Held.frame h hd hf

/-- What a caller finds behind the run of blocks that it has locked is the start of a block, unless
it is the first one. -/
theorem blockOf_of_ret (hd : s.dir.Inv) (hret : s.RetOk (.block idx false) gpa head)
    (hheld : s.Held t start idx stop (some head)) (hle : start ≤ idx)
    (hfirst : idx = start → gpa = head) : ∃ size, s.dir.BlockOf head idx size ∧ 0 < size := by
  obtain ⟨-, hhead, hslot⟩ := hret
  have hidx := hslot idx false rfl
  obtain ⟨first, size, hb, hle', hlt⟩ := Directory.block_of_slot hd hidx
  rw [hhead] at hb
  obtain rfl : first = idx := by
    by_cases heq : idx = start
    · exact hd.slot_inj hb.slot (hfirst heq ▸ hidx)
    · by_contra hne
      -- the slot in front would have the same head
      obtain ⟨p, hp, -, hother⟩ := (hheld.range (idx - 1)).mp ⟨by omega, by omega⟩
      obtain ⟨q, hq, hqhead, -⟩ := hb.mem (idx - 1) (by omega) (by omega)
      obtain rfl := Option.some.inj (hp.symm.trans hq)
      exact hother (congrArg some hqhead)
  exact ⟨size, hb, by omega⟩

/-- The step of an actor in a call. -/
theorem taskInv_act {k : LockTask} (hd : s.dir.Inv) (h : s.TaskInv t k)
    (hok : ∀ start idx fast gpa head, k = .range start idx fast (.checkHead gpa head) →
      s.dir.headOf gpa = head → idx = start →
        gpa = head ∧ (fast → s.dir.numSubblockOf gpa = s.dir.pmdLen))
    (hs : s.act t still k = some s') :
    ∃ r k', s' = r.setTask t k' ∧ OwnStep s r t ∧ r.TaskInv t k' := by
  have hpos : 0 < s.dir.pmdLen := Nat.two_pow_pos _
  cases k with
  | other => cases hs
  | call c pc =>
      obtain ⟨⟨r, next⟩, hstep, rfl⟩ := Option.map_eq_some_iff.mp hs
      obtain ⟨hown, hnext⟩ := lockStep_spec hd h.1 h.2 hstep
      refine ⟨r, _, rfl, hown, ?_⟩
      cases next with
      | go pc' => exact hnext
      | ret head =>
          cases head with
          | none => exact hnext
          | some head => exact hnext.2
  | ret c gpa head => cases hs
  | fast start =>
      simp only [act] at hs
      cases hslot : s.dir.gpaDir start with
      | none =>
          simp only [hslot] at hs
          exact ⟨s, _, (Option.some.inj hs).symm, .refl s t,
            held_of_none (Held.none_of_le h (.inl le_rfl)) 0 0⟩
      | some gpa =>
          simp only [hslot] at hs
          exact ⟨s, _, (Option.some.inj hs).symm, .refl s t, le_rfl,
            Nat.lt_add_of_pos_right hpos, fun _ => rfl, hd.isDesc hslot, h⟩
  | scan start idx =>
      obtain ⟨hle, hheld⟩ := h
      simp only [act] at hs
      by_cases hlt : idx < start + s.dir.pmdLen
      · rw [if_pos hlt] at hs
        cases hslot : s.dir.gpaDir idx with
        | none =>
            simp only [hslot] at hs
            exact ⟨s, _, (Option.some.inj hs).symm, .refl s t, idx, le_rfl, .inl le_rfl, hheld⟩
        | some gpa =>
            simp only [hslot] at hs
            exact ⟨s, _, (Option.some.inj hs).symm, .refl s t, hle, hlt, nofun, hd.isDesc hslot,
              hheld⟩
      · rw [if_neg hlt] at hs
        exact ⟨s, _, (Option.some.inj hs).symm, .refl s t, idx, not_lt.mp hlt, hheld⟩
  | range start idx fast pc =>
      obtain ⟨hle, hlt, hfast, hpc, hheld⟩ := h
      obtain ⟨⟨r, next⟩, hstep, rfl⟩ := Option.map_eq_some_iff.mp hs
      obtain ⟨hown, hnext⟩ := lockStep_spec hd hpc hheld hstep
      refine ⟨r, _, rfl, hown, ?_⟩
      have hlen : r.dir.pmdLen = s.dir.pmdLen := by rw [hown.dir]
      cases next with
      | go pc' =>
          simp only [rangeNext, TaskInv, hlen]
          exact ⟨hle, hlt, hfast, hnext⟩
      | ret head =>
          cases head with
          | none =>
              simp only [rangeNext]
              cases fast with
              | true =>
                  have hidx := hfast rfl
                  exact held_of_none (hnext.none_of_le (.inl hidx.le)) 0 0
              | false =>
                  simp only [Bool.false_eq_true, if_false, TaskInv, hlen]
                  exact ⟨idx, le_rfl, .inl le_rfl, hnext⟩
          | some head =>
              obtain ⟨hwhere, hret, hheld'⟩ := hnext
              have hcheck : pc = .checkHead pc.gpa head := hwhere.resolve_right nofun
              have hwhole := hok start idx fast pc.gpa head (by rw [← hcheck]) (hown.dir ▸ hret.2.1)
              obtain ⟨size, hb, hsize⟩ := blockOf_of_ret (hown.dir ▸ hd) hret hheld' hle
                fun heq => (hwhole heq).1
              have hnum : s.dir.numSubblockOf head = size := by
                rw [← hown.dir]
                exact hb.size_eq hsize
              have hrun := hheld'.absorb hle hlt hb
              cases fast with
              | true =>
                  have hidx := hfast rfl
                  obtain ⟨hself, hfull⟩ := hwhole hidx
                  have hall : size = s.dir.pmdLen := by
                    rw [← hfull rfl, hself, hnum]
                  simp only [rangeNext, if_true, TaskInv, hlen]
                  exact ⟨idx + size, by omega, hrun⟩
              | false =>
                  simp only [rangeNext, Bool.false_eq_true, if_false, TaskInv, hlen, hnum]
                  exact ⟨by omega, hrun⟩
  | undo start idx stop =>
      obtain ⟨hi, hstop, hor, hheld⟩ := h
      simp only [act] at hs
      by_cases hlt : idx < stop
      · rw [if_pos hlt] at hs
        obtain ⟨head, hslot, rfl⟩ := Option.map_eq_some_iff.mp hs
        obtain ⟨howner, hrest⟩ := hheld.undo hd (hlt.trans_le hstop) hslot
        exact ⟨s.release head, _, rfl, ownStep_release howner, hi, hstop, hor, hrest⟩
      · rw [if_neg hlt] at hs
        refine ⟨s, _, (Option.some.inj hs).symm, .refl s t, held_of_none ?_ 0 0⟩
        exact hheld.none_of_le (by omega)
  | locked start => cases hs
  | unlocked start => cases hs

/-! ### Runs -/

theorem OwnStep.frame (h : OwnStep s s' t) (hd : s.dir.Inv) (hu : u ≠ t) : Frame s s' u := by
  refine ⟨?_, h.owner u hu⟩
  rw [h.dir]
  exact .refl hd

/-- The step of one actor: the others do not notice it. -/
theorem inv_of_ownStep {k : LockTask} (hi : s.Inv) (hown : OwnStep s s' t)
    (hk : s'.TaskInv t k) : (s'.setTask t k).Inv := by
  have hd : s'.dir.Inv := hown.dir ▸ hi.dir
  refine ⟨hd, fun u => ?_⟩
  have hset : Frame s' (s'.setTask t k) u := ⟨.refl hd, fun _ => Iff.rfl⟩
  by_cases hu : u = t
  · have htask : (s'.setTask t k).task u = k := by
      rw [hu]
      exact Function.update_self ..
    rw [htask]
    exact TaskInv.frame (hu ▸ hk) hd hset
  · have htask : (s'.setTask t k).task u = s.task u := by
      rw [← hown.task]
      exact Function.update_of_ne hu _ _
    rw [htask]
    exact ((hi.task u).frame hi.dir (hown.frame hi.dir hu)).frame hd hset

/-- An actor that is in no call takes or releases a lock. -/
theorem inv_of_other (hi : s.Inv) (hown : OwnStep s s' t) (hother : s.task t = .other) :
    s'.Inv := by
  refine ⟨hown.dir ▸ hi.dir, fun u => ?_⟩
  rw [hown.task]
  by_cases hu : u = t
  · rw [hu, hother]
    trivial
  · exact (hi.task u).frame hi.dir (hown.frame hi.dir hu)

/-- The locks that a change takes are those of a group that did not exist. -/
theorem newLocks_spec {d' : Directory} (hd : s.dir.Inv) (hstep : s.dir.step e' = some d')
    {l : Slot × ℕ} (hl : l ∈ s.newLocks t e') : l.2 = t ∧ s.dir.group l.1.group = none := by
  cases e' with
  | touch idx alloc => cases hl
  | els id e => cases hl
  | split vma addr front alloc => cases hl
  | cow idx id base =>
      rw [Directory.step, Option.ite_none_right_eq_some] at hstep
      obtain ⟨havail, hbind⟩ := hstep
      obtain ⟨⟨sl, g⟩, hsg, hmap⟩ := Option.bind_eq_some_iff.mp hbind
      obtain ⟨⟨first, order⟩, hso, -⟩ := Option.map_eq_some_iff.mp hmap
      obtain ⟨hfree, -⟩ := Directory.copyGroup_spec hd havail hsg hso
      simp only [newLocks, hsg, Option.elim_some, List.mem_map] at hl
      obtain ⟨k, -, rfl⟩ := hl
      exact ⟨rfl, hfree⟩

/-- The locks of other actors stay. -/
theorem owner_change {d' : Directory} (hd : s.dir.Inv) (hstep : s.dir.step e' = some d')
    (hu : u ≠ t) {p : Slot} (hdesc : s.owner p = some u → s.dir.IsDesc p) :
    ({ s with dir := d', locks := s.newLocks t e' ++ s.locks } : LockSys).owner p = some u ↔
      s.owner p = some u := by
  rw [owner, List.find?_append]
  cases hfind : (s.newLocks t e').find? fun l => l.1 = p with
  | none => rfl
  | some l =>
      obtain ⟨hlt, hfresh⟩ := newLocks_spec hd hstep (List.mem_of_find?_eq_some hfind)
      have hp : l.1 = p := by simpa using List.find?_some hfind
      refine ⟨fun heq => absurd ((Option.some.inj heq).symm.trans hlt) hu, fun howner => ?_⟩
      obtain ⟨g, hg, -⟩ := Directory.isDesc_iff.mp (hdesc howner)
      rw [hp, hg] at hfresh
      cases hfresh

theorem inv_of_step (hi : s.Inv) (hok : Whole s e) (hs : s.step e = some s') : s'.Inv := by
  unfold step at hs
  cases e with
  | enter t c gpa =>
      obtain ⟨⟨-, hfree, hdesc⟩, rfl⟩ := Transition.of_guard hs
      exact inv_of_ownStep hi (.refl s t) ⟨hdesc, held_of_none (owner_ne_of_free hfree) 0 0⟩
  | enterRange t start =>
      obtain ⟨⟨-, hfree⟩, rfl⟩ := Transition.of_guard hs
      refine inv_of_ownStep hi (.refl s t) ?_
      have hnone := held_of_none (owner_ne_of_free hfree)
      rw [rangeEntry]
      split
      · exact hnone 0 0
      · split
        · exact hnone start _
        · exact ⟨le_rfl, hnone start _⟩
  | act t still =>
      obtain ⟨r, k', rfl, hown, hk⟩ := taskInv_act hi.dir (hi.task t) (fun start idx fast gpa head
        hk => by simpa only [Whole, hk] using hok) hs
      exact inv_of_ownStep hi hown hk
  | unlockRange t =>
      simp only at hs
      split at hs
      · rename_i start htask
        obtain rfl := Option.some.inj hs
        have hheld := hi.task t
        rw [htask] at hheld
        obtain ⟨hi', hle, hheld⟩ := hheld
        exact inv_of_ownStep hi (.refl s t) ⟨hi', hle, .inr le_rfl, hheld⟩
      · cases hs
  | leave t =>
      simp only at hs
      split at hs
      · obtain rfl := Option.some.inj hs
        exact inv_of_ownStep hi (.refl s t) trivial
      · obtain rfl := Option.some.inj hs
        exact inv_of_ownStep hi (.refl s t) trivial
      · obtain rfl := Option.some.inj hs
        exact inv_of_ownStep hi (.refl s t) trivial
      · cases hs
  | grab t p =>
      obtain ⟨⟨hother, hnone⟩, rfl⟩ := Transition.of_guard hs
      exact inv_of_other hi (ownStep_take hnone) hother
  | drop t p =>
      obtain ⟨⟨hother, howner⟩, rfl⟩ := Transition.of_guard hs
      exact inv_of_other hi (ownStep_release howner) hother
  | change t e =>
      rw [Option.ite_none_right_eq_some] at hs
      obtain ⟨hother, hbind⟩ := hs
      obtain ⟨d', hstep, hguard⟩ := Option.bind_eq_some_iff.mp hbind
      obtain ⟨hmay, rfl⟩ := Transition.of_guard hguard
      refine ⟨?_, fun u => ?_⟩
      · rcases Directory.kept_of_step hi.dir hstep with hkept | ⟨vma, addr, front, alloc, rfl⟩
        · exact hkept.inv
        · cases hmay
      · by_cases hk : s.task u = .other
        · rw [hk]
          trivial
        · have hu : u ≠ t := fun heq => hk (heq ▸ hother)
          refine (hi.task u).frame hi.dir
            ⟨untouched_of_change hi.dir hstep hmay hu.symm, fun p => ?_⟩
          exact owner_change hi.dir hstep hu fun hp => desc_of_taskInv (hi.task u) hk hp

theorem inv_of_start (h : s.Start) : s.Inv := by
  obtain ⟨hdir, -, hother⟩ := h
  refine ⟨Directory.inv_of_reach hdir, fun t => ?_⟩
  rw [hother t]
  trivial

theorem promised_of_taskInv {k : LockTask} (h : s.TaskInv t k) : s.Promised t k := by
  -- a caller that holds no run of blocks holds the lock it has just taken, or none
  have hempty : ∀ {cur}, s.Held t 0 0 0 cur → ∀ p, s.owner p = some t ↔ cur = some p := by
    intro cur hheld p
    refine ⟨fun hp => ?_, hheld.cur p⟩
    by_contra hne
    obtain ⟨i, hi, -⟩ := hheld.heads p hp fun heq => hne heq.symm
    exact Nat.not_lt_zero i hi
  cases k with
  | ret c gpa head =>
      cases head with
      | none => exact fun p => (hempty h p).trans ⟨nofun, nofun⟩
      | some head =>
          obtain ⟨⟨-, hhead, hslot⟩, hheld⟩ := h
          refine ⟨?_, hhead, fun p => (hempty hheld p).trans ⟨fun heq => ?_, fun heq => ?_⟩⟩
          · cases c with
            | block idx wait => exact hslot idx wait rfl
            | localPage work => trivial
          · exact (Option.some.inj heq).symm
          · rw [heq]
  | locked start =>
      obtain ⟨hi, hle, hheld⟩ := h
      have hrange : ∀ i, start ≤ i → i < start + s.dir.pmdLen → ∃ p, s.dir.gpaDir i = some p ∧
          s.owner (s.dir.headOf p) = some t := by
        intro i hi hi'
        obtain ⟨p, hslot, howner, -⟩ := (hheld.range i).mp ⟨hi, hi'.trans_le hle⟩
        exact ⟨p, hslot, howner⟩
      refine ⟨fun i hi hi' => ?_, fun p => ⟨fun hp => ?_, ?_⟩⟩
      · obtain ⟨p, hslot, -⟩ := hrange i hi hi'
        rw [hslot]
        rfl
      · obtain ⟨i, hi, hslot, hhead⟩ := hheld.heads p hp nofun
        have hin := (hheld.range i).mpr ⟨p, hslot, by rwa [hhead], nofun⟩
        exact ⟨i, p, hin.1, hi, hslot, hhead⟩
      · rintro ⟨i, gpa, hi, hi', hslot, rfl⟩
        obtain ⟨q, hq, howner⟩ := hrange i hi hi'
        obtain rfl := Option.some.inj (hslot.symm.trans hq)
        exact howner
  | unlocked start => exact fun p => (hempty h p).trans ⟨nofun, nofun⟩
  | other => trivial
  | call c pc => trivial
  | fast start => trivial
  | scan start idx => trivial
  | range start idx fast pc => trivial
  | undo start idx stop => trivial

/-- **Every call keeps what it promises.**  Whatever the others do in between, a caller that gets a
block holds the lock of its head at that moment, and no other; and a caller that locks the range of
a pmd holds the locks of its heads or none, in every run in which the first blocks of ranges start
with them and stay as large as the looks at their orders say. -/
theorem lockOk_of_reach (h : Transition.ReachWhen Start step Whole s) : s.LockOk := by
  have hinv : s.Inv := h.invariant (I := Inv) (fun _ => inv_of_start)
    fun _ _ _ hi hok hs => inv_of_step hi hok hs
  exact fun t => promised_of_taskInv (hinv.task t)

/-- A mapping from the page `first` to the page `last` that nobody has touched, with blocks of
sixteen subblocks, and actors that do nothing yet. -/
def fresh (first last : ℕ) : LockSys :=
  { dir := ⟨⟨9, 5, first, last, 0⟩, 64, fun _ => none, fun _ => none, []⟩, locks := []
    task := fun _ => .other }

theorem start_fresh (first last : ℕ) : (fresh first last).Start :=
  ⟨.start ⟨⟨show 5 ≤ 9 by decide, show 9 ≤ blockMaxOrder by decide⟩, Nat.succ_pos 63, fun _ => rfl,
    fun _ => rfl, rfl⟩, rfl, fun _ => rfl⟩

/-- The block of a pmd is halved while another actor locks the range of the pmd, which comes to two
blocks that way. -/
def lockHalved : List LockEvent :=
  [.change 0 (.touch 0 (some (0, 0))), .grab 2 ⟨0, 0⟩, .grab 2 ⟨0, 8⟩,
    .change 2 (.els 0 (.reduce 0 true)), .drop 2 ⟨0, 0⟩, .drop 2 ⟨0, 8⟩, .enterRange 1 0] ++
    List.replicate 11 (.act 1 false)

theorem lockOk_of_reach_lockHalved : ∃ s,
    Transition.exec step (fresh 512 1024) lockHalved = some s ∧ s.LockOk ∧
      s.task 1 = .locked 0 ∧ s.owner ⟨0, 0⟩ = some 1 ∧ s.owner ⟨0, 8⟩ = some 1 := by
  have hok : Transition.Allowed step Whole (fresh 512 1024) lockHalved :=
    ⟨trivial, trivial, trivial, trivial, trivial, trivial, trivial, trivial, trivial, trivial,
      trivial, fun _ _ => ⟨rfl, nofun⟩, trivial, trivial, trivial, trivial,
      fun _ h => absurd h (by decide), trivial, trivial⟩
  exact ⟨_, rfl, lockOk_of_reach (.exec (.start (start_fresh 512 1024)) hok rfl),
    by decide⟩

/-- The block of a pmd is halved between the look at its order and its lock. -/
def lockRaced : List LockEvent :=
  [.change 0 (.touch 0 (some (0, 0))), .enterRange 1 0, .grab 2 ⟨0, 0⟩, .grab 2 ⟨0, 8⟩,
    .change 2 (.els 0 (.reduce 0 true)), .drop 2 ⟨0, 0⟩, .drop 2 ⟨0, 8⟩] ++
    List.replicate 5 (.act 1 false)

/-- The range of a pmd starts inside a block. -/
def lockInside : List LockEvent :=
  [.change 0 (.touch 16 (some (0, 0))), .change 0 (.touch 24 (some (1, 1024))), .enterRange 1 16] ++
    List.replicate 5 (.act 1 false)

theorem not_lockOk_of_owner_ne (t i start : ℕ) (gpa : Slot) (htask : s.task t = .locked start)
    (hi : start ≤ i ∧ i < start + s.dir.pmdLen) (hslot : s.dir.gpaDir i = some gpa)
    (hne : s.owner (s.dir.headOf gpa) ≠ some t) : ¬ s.LockOk := by
  intro h
  have hlocked := h t
  rw [htask] at hlocked
  exact hne ((hlocked.2 _).mpr ⟨i, gpa, hi.1, hi.2, hslot, rfl⟩)

/-- In both cases one head of two is locked. -/
theorem not_lockOk_raced_or_inside :
    (∃ s, Transition.exec step (fresh 512 1024) lockRaced = some s ∧
      Transition.Reach Start step s ∧ ¬ s.LockOk) ∧
    ∃ s, Transition.exec step (fresh 768 2048) lockInside = some s ∧
      Transition.Reach Start step s ∧ ¬ s.LockOk := by
  have hrun : ∀ first last es s, Transition.exec step (fresh first last) es = some s →
      Transition.Reach Start step s := fun _ _ _ _ he =>
    Transition.Reach.exec (.start (start_fresh _ _)) he
  refine ⟨⟨_, rfl, hrun 512 1024 lockRaced _ rfl, ?_⟩, ⟨_, rfl, hrun 768 2048 lockInside _ rfl, ?_⟩⟩
  · exact not_lockOk_of_owner_ne 1 8 0 ⟨0, 8⟩ rfl (by decide) rfl (by decide)
  · exact not_lockOk_of_owner_ne 1 24 16 ⟨1, 0⟩ rfl (by decide) rfl (by decide)

end LockSys

end Emp
