import Emp.Writeback.Pressure

/-!
# Blocks marked for promotion while their write is in flight

A prefetch or a pin of a block whose writeback is in flight sets `GPA_PROMOTE`, so that the
block stays local when the writeback is cleared.  A fault keeps the pages of every block it
takes back.  `__wait_writeback_async` looks at the mark only after
`clear_writeback_work_request` has made the block remote, which frees its pages and clears
the mark with the other flags.

## Main definitions

* `Clearing.Kept` — what is due to a marked block.
* `WbSys.Unwaited` — no asynchronous wait clears a marked block.
-/

namespace Emp

/-- The block kept its pages, is active on the active, the proactive or the pin list, and its
pages moved from the inactive count to the counts of that list. -/
structure Clearing.Kept (c : Clearing) : Prop where
  resident : c.after.resident = true
  rState : c.after.rState = .active
  place : c.after.place ∈ [LruPlace.active, .proactive, .pin]
  inactive : c.inactiveMoved = -(c.after.size : ℤ)
  active : c.activeMoved = if c.after.place = .active then (c.after.size : ℤ) else 0
  proactive : c.proactiveMoved = if c.after.place = .active then 0 else (c.after.size : ℤ)
  pin : c.pinMoved = if c.after.place = .pin then (c.after.size : ℤ) else 0

namespace WbSys

variable {s t : WbSys} {n b : ℕ}

/-- Every marked block whose writeback a wait or a fault has cleared was kept. -/
def MarkedKept (s : WbSys) : Prop :=
  ∀ c ∈ s.cleared, c.actor ≠ .discard → c.marked = true → c.Kept

/-- The step is not the clearing of a marked block by an asynchronous wait. -/
def Unwaited (s : WbSys) : WbEvent → Prop
  | .clear b => (s.block b).place = .taken .wait → (s.block b).marked = false
  | _ => True

/-- Every block that is on a list or being cleared has its pages. -/
def Resident (s : WbSys) : Prop := ∀ b, (s.block b).place ≠ .off → (s.block b).resident = true

theorem resident_of_rest (b : ℕ) (h : s.Resident) (hrest : ∀ k, k ≠ b → t.block k = s.block k)
    (hb : (t.block b).place ≠ .off → (t.block b).resident = true) : t.Resident := by
  intro k
  by_cases hk : k = b
  · rw [hk]
    exact hb
  · rw [hrest k hk]
    exact h k

/-- A block on a list keeps its pages when only its flags or its list change. -/
theorem resident_setBlock {r : WbBlock} (h : s.Resident)
    (hplace : r.place ≠ .off → (s.block b).place ≠ .off)
    (hr : r.resident = (s.block b).resident) : (s.setBlock b r).Resident := by
  refine resident_of_rest b h (fun k hk => setBlock_of_ne r hk) fun hoff => ?_
  rw [setBlock_self] at hoff ⊢
  rw [hr]
  exact h b (hplace hoff)

theorem resident_addGpasToActiveList (proactive : Bool) :
    ((s.addGpasToActiveList b proactive).block b).resident = (s.block b).resident := by
  simp only [addGpasToActiveList]
  split_ifs <;> simp [setBlock]

theorem resident_makeInactive {r : WbBlock} {x : ℤ} (h : s.Resident)
    (hr : r.resident = ((s.removeFromActive b).block b).resident)
    (hlist : (s.block b).place ∈ [LruPlace.active, .proactive, .pin]) :
    Resident { (s.removeFromActive b).setBlock b r with inactivePageLen := x } := by
  have hoff : (s.block b).place ≠ .off := fun ho => by simp [ho] at hlist
  refine resident_of_rest b h (fun k hk => ?_) fun _ => ?_
  · exact (setBlock_of_ne r hk).trans ((moves_removeFromActive hlist).rest k hk)
  · simp [setBlock, hr, (block_removeFromActive hlist).1, h b hoff]

theorem resident_clearBy {actor : WbActor} (h : s.Resident)
    (hplace : (s.block b).place = .taken actor) : (s.clearBy b actor).Resident := by
  refine resident_of_rest b h (moves_clearBy hplace).1.rest fun hoff => ?_
  have hres : (s.block b).resident = true := h b (by simp [hplace])
  cases actor with
  | wait => simp [clearBy, clearByWait, block_clearAndReclaim] at hoff
  | fault =>
      simp only [clearBy, clearByFault, resident_addGpasToActiveList]
      simpa [subInactive] using hres
  | discard => simp [clearBy, block_clearAndReclaim] at hoff

theorem resident_of_step {e : WbEvent} (h : s.Resident) (hs : step n s e = some t) :
    t.Resident := by
  cases e with
  | fetch b size proactive =>
      obtain ⟨⟨-, hoff⟩, rfl⟩ := Transition.of_guard hs
      refine resident_of_rest b h (fun k hk => ?_) fun _ => ?_
      · rw [(moves_addGpasToActiveList proactive (by simp [hoff])).rest k hk, setBlock_of_ne _ hk]
      · simp [resident_addGpasToActiveList]
  | deactivate b =>
      obtain ⟨⟨-, hplace, -⟩, rfl⟩ := Transition.of_guard hs
      exact resident_makeInactive h rfl hplace
  | orphan b =>
      obtain ⟨⟨-, hplace⟩, rfl⟩ := Transition.of_guard hs
      exact resident_makeInactive h rfl hplace
  | promoteVictim b =>
      obtain ⟨⟨-, hplace⟩, rfl⟩ := Transition.of_guard hs
      refine resident_of_rest b h (fun k hk => ?_) fun _ => ?_
      · have hoff : ((s.setBlock b { s.block b with place := .off, promote := false }).subInactive
            b |>.block b).place = .off := by simp [subInactive, setBlock]
        rw [(moves_addGpasToActiveList true hoff).rest k hk]
        exact setBlock_of_ne _ hk
      · rw [resident_addGpasToActiveList]
        simpa [subInactive] using h b (by simp [hplace])
  | drop b =>
      obtain ⟨⟨-, hplace⟩, rfl⟩ := Transition.of_guard hs
      refine resident_of_rest b h (fun k hk => setBlock_of_ne _ hk) fun hoff => ?_
      simp [block_clearAndReclaim] at hoff
  | post b cpu =>
      obtain ⟨⟨-, hplace⟩, rfl⟩ := Transition.of_guard hs
      exact resident_setBlock h (fun _ => by simp [hplace]) rfl
  | reduce b buddy size =>
      obtain ⟨⟨-, -, hne, hplace, -, -⟩, rfl⟩ := Transition.of_guard hs
      have hres : (s.block b).resident = true := h b (by simp [hplace])
      have hbuddy : (s.setBlock buddy
          { s.block b with size := (s.block b).size - size }).Resident :=
        resident_of_rest buddy h (fun k hk => setBlock_of_ne _ hk) fun _ => by simp [hres]
      refine resident_setBlock hbuddy (fun _ => ?_) ?_
      · rw [setBlock_of_ne _ hne, hplace]
        decide
      · rw [setBlock_of_ne _ hne]
  | setPromote b | pin b | dontNeed b | complete b =>
      obtain ⟨-, rfl⟩ := Transition.of_guard hs
      exact resident_setBlock h id rfl
  | take b actor =>
      obtain ⟨⟨-, hq⟩, rfl⟩ := Transition.of_guard hs
      obtain ⟨cpu, hcpu⟩ := queued_iff.mp hq
      have hset : (s.setBlock b { s.block b with place := .taken actor }).Resident :=
        resident_setBlock h (fun _ => by simp [hcpu]) rfl
      cases actor <;> exact hset
  | clear b =>
      simp only [step] at hs
      split at hs
      next actor hplace =>
        obtain ⟨-, rfl⟩ := Transition.of_guard hs
        exact resident_clearBy h hplace
      next => cases hs
  | readInflight cpu =>
      cases hs
      exact h
  | readInactive cpu =>
      obtain ⟨wb, -, rfl⟩ := Option.map_eq_some_iff.mp hs
      exact h

theorem resident_of_reach {ok : WbSys → WbEvent → Prop}
    (h : Transition.ReachWhen Start (step n) ok s) : s.Resident :=
  h.invariant (fun _ hs b hoff => absurd (hs.1 b) hoff) fun _ _ _ hr _ hs => resident_of_step hr hs

/-! ### What a clearing comes to -/

/-- A fault keeps the block it takes back, marked or not. -/
theorem kept_of_fault (hres : (s.block b).resident = true) :
    (s.clearing b .fault (s.clearBy b .fault)).Kept := by
  simp only [clearBy, clearByFault, addGpasToActiveList, subInactive, setBlock, clearing,
    Function.update_self]
  split_ifs <;> constructor <;> simp [hres, Function.update_self]

/-- A wait frees the pages of the block it has dequeued, marked or not. -/
theorem reclaimed_of_wait : ¬ (s.clearing b .wait (s.clearBy b .wait)).Kept := by
  intro h
  have hres := h.resident
  simp [clearing, clearBy, clearByWait, block_clearAndReclaim] at hres

theorem cleared_addGpasToActiveList (proactive : Bool) :
    (s.addGpasToActiveList b proactive).cleared = s.cleared := by
  simp only [addGpasToActiveList]
  split_ifs <;> rfl

theorem cleared_removeFromActive : (s.removeFromActive b).cleared = s.cleared := by
  simp only [removeFromActive]
  split <;> rfl

/-- Only a clearing adds to the record. -/
theorem cleared_of_step {e : WbEvent} (hs : step n s e = some t) :
    t.cleared = s.cleared ∨ ∃ b actor, e = .clear b ∧ (s.block b).place = .taken actor ∧
      t.cleared = s.clearing b actor (s.clearBy b actor) :: s.cleared := by
  cases e with
  | fetch b size proactive | promoteVictim b =>
      obtain ⟨-, rfl⟩ := Transition.of_guard hs
      exact .inl (cleared_addGpasToActiveList _)
  | deactivate b | orphan b =>
      obtain ⟨-, rfl⟩ := Transition.of_guard hs
      exact .inl cleared_removeFromActive
  | drop b | post b cpu | reduce b buddy size | setPromote b | pin b | dontNeed b | complete b =>
      obtain ⟨-, rfl⟩ := Transition.of_guard hs
      exact .inl rfl
  | take b actor =>
      obtain ⟨-, rfl⟩ := Transition.of_guard hs
      cases actor <;> exact .inl rfl
  | clear b =>
      simp only [step] at hs
      split at hs
      next actor hplace =>
        obtain ⟨-, rfl⟩ := Transition.of_guard hs
        exact .inr ⟨b, actor, rfl, hplace, rfl⟩
      next => cases hs
  | readInflight cpu =>
      cases hs
      exact .inl rfl
  | readInactive cpu =>
      obtain ⟨wb, -, rfl⟩ := Option.map_eq_some_iff.mp hs
      exact .inl rfl

theorem markedKept_of_step {e : WbEvent} (h : s.MarkedKept) (hres : s.Resident)
    (hok : s.Unwaited e) (hs : step n s e = some t) : t.MarkedKept := by
  obtain heq | ⟨b, actor, rfl, hplace, heq⟩ := cleared_of_step hs
  · intro c hc
    exact h c (heq ▸ hc)
  · intro c hc hactor hmarked
    rw [heq, List.mem_cons] at hc
    rcases hc with rfl | hc
    · cases actor with
      | wait => exact absurd ((hok hplace).symm.trans hmarked) (by decide)
      | fault => exact kept_of_fault (hres b (by simp [hplace]))
      | discard => exact absurd rfl hactor
    · exact h c hc hactor hmarked

/-- In every run in which no asynchronous wait clears a marked block, every marked block that
a wait or a fault has cleared kept its pages and ended active, with its pages counted there. -/
theorem markedKept_of_reach (h : Transition.ReachWhen Start (step n) Unwaited s) :
    s.MarkedKept := by
  induction h with
  | start h =>
      intro c hc
      rw [h.2.2.2.2.2] at hc
      cases hc
  | next hr hok hs ih => exact markedKept_of_step ih (resident_of_reach hr) hok hs

/-- A block that is marked while its write is in flight is taken back by a fault. -/
theorem markedKept_of_fault : ∃ s, Transition.exec (step 1) blank
    (posted 0 ++ [.setPromote 0, .take 0 .fault, .clear 0]) = some s ∧ s.MarkedKept := by
  have hok : Transition.Allowed (step 1) Unwaited blank
      (posted 0 ++ [.setPromote 0, .take 0 .fault, .clear 0]) :=
    ⟨trivial, trivial, trivial, trivial, trivial, trivial, (fun hx => by cases hx), trivial⟩
  exact ⟨_, rfl, markedKept_of_reach (.exec (.start start_blank) hok rfl)⟩

/-- A prefetch marks a block whose write is in flight, and the wait that clears it frees its
pages: the block ends remote, on no list. -/
theorem freed_of_wait : ∃ s, Transition.exec (step 1) blank
    (posted 0 ++ [.setPromote 0, .take 0 .wait, .clear 0]) = some s ∧
      Transition.Reach Start (step 1) s ∧ (s.block 0).resident = false ∧
      (s.block 0).rState = .init ∧ (s.block 0).place = .off ∧ ¬ s.MarkedKept := by
  have hrun : ∀ s, Transition.exec (step 1) blank
      (posted 0 ++ [.setPromote 0, .take 0 .wait, .clear 0]) = some s →
      Transition.Reach Start (step 1) s :=
    fun _ he => Transition.Reach.exec (.start start_blank) he
  refine ⟨_, rfl, hrun _ rfl, rfl, rfl, rfl, fun h => ?_⟩
  have hkept := (h _ (List.mem_cons_self ..) (by decide) rfl).resident
  cases hkept

end WbSys

end Emp
