import Emp.Slru.Kept

/-!
# What joins the chains keeps the account

A thread that adds blocks to a chain, promotes them or pins them has locked them and taken them off
their lists before.  Here its hand is told by the blocks in it, each with what is known of it, and
by what it owes to the counters; every program below is specified for any other blocks in the hand
and any other debt.

## Main definitions

* `Holds` — the blocks in a hand, and its debt.
* `InChain`, `Freed` — a block that has joined a chain, and one that may be unlocked.
* `safe_addGpasToActiveList`, `safe_promoteGpas`, `safe_moveToPinList`, `safe_unlockBlocks`.
-/

namespace Emp

namespace Slru

open Program SlruSys

/-- What blocks on a list that `u` counts add to the counters. -/
def bill (cfg : SlruConfig) (bs : List ℕ) (u : SlruCount → ℤ) : SlruCount → ℤ :=
  fun c => cfg.pages bs * u c

@[simp] theorem bill_nil (cfg : SlruConfig) (u : SlruCount → ℤ) : bill cfg [] u = 0 := by
  funext c
  simp [bill]

theorem bill_apply (cfg : SlruConfig) (bs : List ℕ) (u : SlruCount → ℤ) (c : SlruCount) :
    bill cfg bs u c = cfg.pages bs * u c := rfl

variable {A : Type} [DecidableEq A] [Fintype A] {cfg : SlruConfig} {s t : SlruSys A}
  {hs : A → Hand} {a : A} {h h' k : Hand} {b : ℕ} {g g' : SlruGpa} {l : LocalList} {o o' : Owned}
  {bs cs : List ℕ} {α : Type} {P Q : Owned → Prop} {B C X : Batch} {d e u : SlruCount → ℤ}

/-! ### Hands by their blocks -/

/-- The blocks that a thread has locked, and what it owes; nothing has failed. -/
structure Holds (B : Batch) (d : SlruCount → ℤ) (h : Hand) : Prop where
  carries : Carries h.own (fun _ => none) B
  failed : h.failed = fun _ => false
  debt : h.debt = d

theorem holds_empty : Holds [] 0 Hand.empty := ⟨carries_nil, rfl, rfl⟩

theorem Holds.eq_empty (hk : Holds [] 0 h) : h = Hand.empty :=
  Hand.ext_iff' hk.carries.eq hk.failed (congrFun hk.debt)

theorem Holds.perm (hk : Holds B d h) (hp : C.Perm B) : Holds C d h :=
  ⟨hk.carries.perm hp, hk.failed, hk.debt⟩

theorem Holds.owes (hk : Holds B d h) (hd : d = e) : Holds B e h := hd ▸ hk

theorem Holds.weaken (hk : Holds (tag P bs ++ X) d h) (hPQ : ∀ o, P o → Q o) :
    Holds (tag Q bs ++ X) d h :=
  ⟨hk.carries.weaken hPQ, hk.failed, hk.debt⟩

/-- What is known of the first block. -/
theorem Holds.head (hk : Holds ((b, P) :: X) d h) : ∃ o, h.own b = some o ∧ P o := hk.carries.head

/-- More may be known of the first block. -/
theorem Holds.learn (hk : Holds ((b, P) :: X) d h) (hPQ : ∀ o, h.own b = some o → P o → Q o) :
    Holds ((b, Q) :: X) d h := by
  obtain ⟨o, hown, hP⟩ := hk.head
  refine ⟨?_, hk.failed, hk.debt⟩
  have hset := hk.carries.set (Q := Q) (hPQ o hown hP)
  rwa [← hown, Function.update_eq_self] at hset

/-- The first block changes. -/
theorem Holds.swap (hk : Holds ((b, P) :: X) d h) (hQ : Q o')
    (he : ∀ c, o'.weight cfg b c - o.weight cfg b c = e c) :
    Holds ((b, Q) :: X) (d + e) (h.swap cfg b o o') := by
  refine ⟨hk.carries.set hQ, hk.failed, ?_⟩
  funext c
  simp only [Hand.swap, Pi.add_apply, ← he c, ← hk.debt]

/-- A counter is updated. -/
theorem Holds.pay (hk : Holds B d h) (c : SlruCount) (n : ℤ) :
    Holds B (d - Pi.single c n) (h.pay c n) := by
  refine ⟨hk.carries, hk.failed, ?_⟩
  funext x
  rw [← hk.debt]
  by_cases hx : x = c
  · subst hx
    simp [Hand.pay]
  · simp [Hand.pay, hx]

/-- Blocks in the hand can be told apart. -/
theorem Carries.split {own own₀ : ℕ → Option Owned} {R S : Owned → Prop} (f : ℕ → Bool)
    (hc : Carries own own₀ (tag P bs ++ X))
    (hR : ∀ b ∈ bs, ∀ o, own b = some o → P o → f b = true → R o)
    (hS : ∀ b ∈ bs, ∀ o, own b = some o → P o → f b = false → S o) :
    Carries own own₀ (tag R (bs.filter f) ++ (tag S (bs.filter fun b => !f b) ++ X)) := by
  have hperm : (tag P (bs.filter f) ++ (tag P (bs.filter fun b => !f b) ++ X)).Perm
      (tag P bs ++ X) := by
    rw [← List.append_assoc, ← tag_append]
    exact ((List.filter_append_perm f bs).map _).append_right X
  have hc' := hc.perm hperm
  have hfst : (tag R (bs.filter f) ++ (tag S (bs.filter fun b => !f b) ++ X)).map Prod.fst =
      (tag P (bs.filter f) ++ (tag P (bs.filter fun b => !f b) ++ X)).map Prod.fst := by
    simp [tag, Function.comp_def]
  refine ⟨hfst ▸ hc'.nodup, fun x hx => ?_, fun y hy => hc'.rest y (hfst ▸ hy),
    fun y hy => hc'.free y (hfst ▸ hy)⟩
  have hmine : ∀ y ∈ bs, ∃ o, own y = some o ∧ P o := fun y hy =>
    hc.mine (y, P) (List.mem_append_left _ (List.mem_map_of_mem hy))
  rcases List.mem_append.mp hx with hx | hx
  · obtain ⟨y, hy, rfl⟩ := List.mem_map.mp hx
    have hy' := List.mem_filter.mp hy
    obtain ⟨o, ho, hP⟩ := hmine y hy'.1
    exact ⟨o, ho, hR y hy'.1 o ho hP hy'.2⟩
  · rcases List.mem_append.mp hx with hx | hx
    · obtain ⟨y, hy, rfl⟩ := List.mem_map.mp hx
      have hy' := List.mem_filter.mp hy
      obtain ⟨o, ho, hP⟩ := hmine y hy'.1
      exact ⟨o, ho, hS y hy'.1 o ho hP (by simpa using hy'.2)⟩
    · exact hc.mine x (List.mem_append_right _ hx)

theorem bill_chain (proactive : Bool) (bs : List ℕ) :
    bill cfg bs (chain proactive) = Pi.single (.ofChain proactive) (cfg.pages bs) := by
  funext c
  simp only [bill_apply, chain, Pi.single_apply]
  split_ifs <;> ring

theorem unit_mru (proactive : Bool) (cpu : ℤ) (c : SlruCount) :
    unit (.slru (.mru proactive cpu)) c = chain proactive c := by
  cases proactive <;> cases c <;> rfl

theorem unit_pin (cpu : ℤ) (c : SlruCount) :
    unit (.slru (.pin cpu)) c = chain true c + if c = .pin then 1 else 0 := by
  cases c <;> rfl

/-! ### Sections on blocks in the hand -/

/-- A section that changes the first block. -/
theorem safe_modify_block {f : SlruSys A → SlruSys A} (hk : Holds ((b, P) :: X) d h)
    (hf : ∀ s hs o, Inv cfg s (Function.update hs a h) → h.own b = some o → P o →
      ∃ o', Inv cfg (f s) (Function.update hs a (h.swap cfg b o o')) ∧ Q o' ∧
        ∀ c, o'.weight cfg b c - o.weight cfg b c = e c) :
    Safe (L := SlruLuck) (Inv cfg) a (fun _ k => Holds ((b, Q) :: X) (d + e) k) (modify f) h := by
  obtain ⟨o, hown, hP⟩ := hk.head
  refine safe_modify fun s hs hI => ?_
  obtain ⟨o', hI', hQ, he⟩ := hf s hs o hI hown hP
  exact ⟨_, hI', hk.swap hQ he⟩

/-- A loop that changes blocks. -/
theorem Inv.foldBlocks {f : SlruSys A → ℕ → SlruSys A}
    (hf : ∀ b s h o, Inv cfg s (Function.update hs a h) → h.own b = some o → P o →
      ∃ o', Inv cfg (f s b) (Function.update hs a (h.swap cfg b o o')) ∧ Q o' ∧
        ∀ c, o'.weight cfg b c - o.weight cfg b c = cfg.blockSize b * u c)
    (bs : List ℕ) {X : Batch} (hI : Inv cfg s (Function.update hs a h))
    (hk : Holds (tag P bs ++ X) d h) :
    ∃ h', Inv cfg (bs.foldl f s) (Function.update hs a h') ∧
      Holds (tag Q bs ++ X) (d + bill cfg bs u) h' := by
  induction bs generalizing s h d X with
  | nil => exact ⟨h, hI, by simpa using hk⟩
  | cons b bs ih =>
    obtain ⟨o, hown, hP⟩ := hk.head
    obtain ⟨o', hI', hQ, he⟩ := hf b s h o hI hown hP
    have hk' : Holds ((b, Q) :: (tag P bs ++ X)) (d + fun c => cfg.blockSize b * u c)
      (h.swap cfg b o o') := Holds.swap hk hQ he
    obtain ⟨h', hI'', hk''⟩ := ih (X := (b, Q) :: X) hI' (hk'.perm List.perm_middle)
    refine ⟨h', hI'', (hk''.perm List.perm_middle.symm).owes ?_⟩
    funext c
    simp only [Pi.add_apply, bill_apply, SlruConfig.pages_cons]
    ring

/-- Blocks are put back on lists that `u` counts, and unlocked. -/
theorem safe_putBack {put : SlruSys A → ℕ → SlruSys A} {R : SlruGpa → Prop}
    (hk : Holds (tag (Out R) bs ++ X) d h)
    (hput : ∀ b s k g hs, Inv cfg s (Function.update hs a k) → k.own b = some ⟨false, g⟩ → R g →
      ∃ g', Inv cfg (put s b) (Function.update hs a (k.swap cfg b ⟨false, g⟩ ⟨true, g'⟩)) ∧
        Settled cfg False g' ∧
        ∀ c, Owned.weight cfg ⟨true, g'⟩ b c - Owned.weight cfg ⟨false, g⟩ b c =
          cfg.blockSize b * u c) :
    Safe (L := SlruLuck) (Inv cfg) a (fun _ k => Holds X (d + bill cfg bs u) k)
      (modify fun s => s.putBack put bs) h := by
  refine safe_modify fun s hs hI => ?_
  obtain ⟨h', hI', hc, hfailed, hdebt⟩ := hI.putBack (fun b s k g hI => hput b s k g hs hI) bs
    hk.carries hk.failed
  refine ⟨h', hI', hc, hfailed.trans hk.failed, ?_⟩
  funext c
  rw [hdebt c, hk.debt]
  rfl

theorem safe_pay {f : SlruSys A → ℤ} {n : ℤ} (c : SlruCount) (hk : Holds B d h)
    (hf : ∀ s hs, Inv cfg s (Function.update hs a h) → f s = n) :
    Safe (L := SlruLuck) (Inv cfg) a (fun _ k => Holds B (d - Pi.single c n) k)
      (modify fun s => s.addPageLen c (f s)) h :=
  (safe_addPageLen hf).mono fun _ _ hkk => hkk ▸ hk.pay c n

/-- Something is subtracted from a counter. -/
theorem safe_payBack {f : SlruSys A → ℤ} {n : ℤ} (c : SlruCount) (hk : Holds B d h)
    (hf : ∀ s hs, Inv cfg s (Function.update hs a h) → f s = -n) :
    Safe (L := SlruLuck) (Inv cfg) a (fun _ k => Holds B (d + Pi.single c n) k)
      (modify fun s => s.addPageLen c (f s)) h := by
  refine (safe_pay c hk hf).mono fun _ k hk => hk.owes ?_
  funext x
  by_cases hx : x = c
  · simp [hx]
  · simp [hx]

/-- The pages of blocks are subtracted from a counter. -/
theorem safe_payPages (c : SlruCount) (bs : List ℕ) (hk : Holds B d h) :
    Safe (L := SlruLuck) (Inv cfg) a (fun _ k => Holds B (d + Pi.single c (cfg.pages bs)) k)
      (modify fun s => s.addPageLen c (-s.pagesOf bs)) h :=
  safe_payBack c hk fun s hs hI => by rw [hI.pagesOf]

/-! ### Unlocking -/

/-- A block that may be unlocked, if its failure is recorded where `p` needs it. -/
def Freed (cfg : SlruConfig) (p : Prop) (o : Owned) : Prop :=
  o.home cfg = o.gpa.list cfg.possibleCpus ∧ Settled cfg p o.gpa

/-- Blocks that have failed, or need not have, are unlocked. -/
theorem safe_unlock (p : Prop) {own₀ : ℕ → Option Owned}
    (hc : Carries h.own own₀ (tag (Freed cfg p) bs ++ X))
    (hp : p → ∀ b ∈ bs, h.failed b = true) (hX : ∀ b, h.failed b = true → b ∈ bs) :
    Safe (Inv (A := A) cfg) a
      (fun _ k => Carries k.own own₀ X ∧ k.failed = (fun _ => false) ∧ k.debt = h.debt)
      (unlockBlocks bs) h := by
  induction bs generalizing h with
  | nil =>
    refine safe_ret ⟨by simpa using hc, ?_, rfl⟩
    funext b
    exact Bool.eq_false_iff.mpr fun hb => List.not_mem_nil (hX b hb)
  | cons b bs ih =>
    obtain ⟨o, hown, hhome, hsettled⟩ := hc.head
    have hpop : Carries (Function.update h.own b none) own₀ (tag (Freed cfg p) bs ++ X) := hc.pop
    have hnodup : b ∉ bs := by
      have hall : b ∉ (tag (Freed cfg p) bs ++ X).map Prod.fst := (List.nodup_cons.mp hc.nodup).1
      intro hb
      refine hall ?_
      rw [List.map_append]
      exact List.mem_append_left _ (by simpa [tag] using hb)
    refine Safe.bind (Q := fun _ k => k = h.drop b) (safe_modify fun s hs hI => ?_) fun _ k hk => ?_
    · refine ⟨_, hI.release hown hhome (hsettled.mono fun hp' => ?_), rfl⟩
      exact hp hp' b List.mem_cons_self
    · subst hk
      refine ih (h := h.drop b) hpop (fun hp' x hx => ?_) fun x hx => ?_
      · have hne : x ≠ b := fun heq => hnodup (heq ▸ hx)
        rw [Hand.drop_failed, Function.update_of_ne hne]
        exact hp hp' x (List.mem_cons_of_mem b hx)
      · have hne : x ≠ b := by
          rintro rfl
          simp at hx
        rw [Hand.drop_failed, Function.update_of_ne hne] at hx
        exact (List.mem_cons.mp (hX x hx)).resolve_left hne

theorem safe_unlockBlocks (bs : List ℕ) (hk : Holds (tag (Freed cfg False) bs ++ X) d h) :
    Safe (Inv (A := A) cfg) a (fun _ k => Holds X d k) (unlockBlocks bs) h := by
  refine (safe_unlock False hk.carries False.elim fun b hb => ?_).mono
    fun _ k hkk => ⟨hkk.1, hkk.2.1, hkk.2.2.trans hk.debt⟩
  simp [hk.failed] at hb

/-! ### Joining a chain -/

/-- A block on a list of a chain. -/
structure InChain (cfg : SlruConfig) (o : Owned) : Prop where
  placed : o.placed = true
  state : o.gpa.rState = .active ∨ o.gpa.rState = .fetching
  listed : ∃ l : SlruList, o.gpa.list cfg.possibleCpus = some (.slru l) ∧
    o.gpa.flags .proactive = l.proactive

theorem InChain.freed (ho : InChain cfg o) : Freed cfg False o := by
  obtain ⟨l, hl, hflag⟩ := ho.listed
  exact ⟨by simp [Owned.home, ho.placed], settled_slru hl hflag ho.state⟩

/-- A block that has yet to be put on the list of a chain that its fields tell of. -/
structure Bound (cfg : SlruConfig) (l : SlruList) (g : SlruGpa) : Prop where
  state : g.rState = .active ∨ g.rState = .fetching
  list : g.list cfg.possibleCpus = some (.slru l)
  flag : g.flags .proactive = l.proactive

theorem bound_iff {l : SlruList} : Bound cfg l g ↔ (g.rState = .active ∨ g.rState = .fetching) ∧
    g.list cfg.possibleCpus = some (.slru l) ∧ g.flags .proactive = l.proactive :=
  ⟨fun h => ⟨h.state, h.list, h.flag⟩, fun h => ⟨h.1, h.2.1, h.2.2⟩⟩

theorem Bound.inChain {l : SlruList} (hg : Bound cfg l g) : InChain cfg ⟨true, g⟩ :=
  ⟨rfl, hg.state, l, hg.list, hg.flag⟩

/-- A temporary list is spliced. -/
theorem Inv.spliceTail {l : SlruList} (bs : List ℕ) (hI : Inv cfg s (Function.update hs a h))
    (hk : Holds (tag (Out (Bound cfg l)) bs ++ X) d h) :
    ∃ h', Inv cfg (s.spliceTail (.slru l) bs) (Function.update hs a h') ∧
      Holds (tag (InChain cfg) bs ++ X) (d + bill cfg bs (unit (.slru l))) h' := by
  have hsplice : s.spliceTail (.slru l) bs = bs.foldl (fun s b => s.spliceTail (.slru l) [b]) s := by
    clear hI hk
    induction bs generalizing s with
    | nil => simp [SlruSys.spliceTail]
    | cons b bs ih =>
      rw [List.foldl_cons, ← ih]
      simp [SlruSys.spliceTail]
  rw [hsplice]
  refine Inv.foldBlocks (fun b s h o hI hown ho => ?_) bs hI hk
  obtain ⟨_, g⟩ := o
  obtain ⟨rfl, hg⟩ := ho
  refine ⟨⟨true, g⟩, ?_, hg.inChain, fun c => ?_⟩
  · have hput := hI.put hown hg.list
    have hsame : s.setGpa b g = s := by
      have hgpa : s.gpa b = g := hI.own_gpa hown
      rw [SlruSys.setGpa, ← hgpa, Function.update_eq_self]
    rw [hsame] at hput
    exact hput
  · rw [weight_placed (quiet_of_state hg.state) hg.list, weight_out (quiet_of_state hg.state)]
    ring

/-! ### Adding blocks to a chain -/

omit [DecidableEq A] [Fintype A] in
/-- The loop over the heads changes no `GPA_PINNED`. -/
theorem foldl_addedHead_pinned (proactive : Bool) (cpu : ℤ) (gpas : List ℕ) (b : ℕ) :
    ((gpas.foldl (fun s b => s.setGpa b (addedHead proactive cpu (s.gpa b))) s).gpa b).flags
      .pinned = (s.gpa b).flags .pinned := by
  induction gpas generalizing s with
  | nil => rfl
  | cons x gpas ih =>
    rw [List.foldl_cons, ih]
    by_cases hb : b = x
    · subst hb
      simp only [SlruSys.setGpa, Function.update_self, addedHead, SlruGpa.setFlag]
      split_ifs <;> simp
    · simp [SlruSys.setGpa, hb]

/-- The list that a head joins. -/
def joined (cfg : SlruConfig) (proactive : Bool) (cpu : ℤ) (g : SlruGpa) : SlruList :=
  if g.flags .pinned then .pin (cfg.possibleCpus + cpu) else .mru proactive cpu

/-- What the loop makes of a head. -/
theorem addedHead_bound {proactive : Bool} {cpu : ℤ}
    (hflag : g.flags .proactive = true → proactive = true) :
    Bound cfg (joined cfg proactive cpu g) (addedHead proactive cpu g) := by
  have hstate : (addedHead proactive cpu g).rState = .active ∨
      (addedHead proactive cpu g).rState = .fetching := by
    simp only [addedHead]
    split_ifs <;> simp_all [SlruGpa.setFlag]
  rw [joined]
  cases hpinned : g.flags .pinned with
  | true =>
    have hcpu : (addedHead proactive cpu g).cpu = cpu := by
      simp only [addedHead]
      split_ifs <;> simp_all
    have hon : (addedHead proactive cpu g).on = some .pin := by
      simp only [addedHead]
      split_ifs <;> simp_all
    have hproactive : (addedHead proactive cpu g).flags .proactive = true := by
      simp only [addedHead, SlruGpa.setFlag]
      split_ifs <;> simp_all
    exact ⟨hstate, list_slruOn hproactive hstate hcpu hon, hproactive⟩
  | false =>
    have hcpu : (addedHead proactive cpu g).cpu = cpu := by
      simp only [addedHead]
      split_ifs <;> simp_all
    have hon : (addedHead proactive cpu g).on = some .mru := by
      simp only [addedHead]
      split_ifs <;> simp_all
    have hproactive : (addedHead proactive cpu g).flags .proactive = proactive := by
      cases proactive with
      | true =>
        simp only [addedHead, SlruGpa.setFlag]
        split_ifs <;> simp_all
      | false =>
        have hoff : g.flags .proactive = false := by
          cases hg : g.flags .proactive with
          | true => exact absurd (hflag hg) (by simp)
          | false => rfl
        simp only [addedHead, SlruGpa.setFlag]
        split_ifs <;> simp_all
    exact ⟨hstate, list_slruOn hproactive hstate hcpu hon, hproactive⟩

/-- A block that changes off its list. -/
theorem Inv.turn (hI : Inv cfg s (Function.update hs a h)) (hown : h.own b = some ⟨false, g⟩)
    (g' : SlruGpa) :
    Inv cfg (s.setGpa b g') (Function.update hs a (h.swap cfg b ⟨false, g⟩ ⟨false, g'⟩)) :=
  hI.setGpa ⟨false, g'⟩ hown rfl (by simp [Owned.home])

/-- The blocks of the temporary lists. -/
theorem Inv.addHeads {R : SlruGpa → Prop} {proactive : Bool} {cpu : ℤ} {w : SlruCount → ℤ}
    (hflag : ∀ g, R g → g.flags .proactive = true → proactive = true)
    (hweight : ∀ g, R g → ∀ b c, Owned.weight cfg ⟨false, g⟩ b c = cfg.blockSize b * w c)
    (gpas : List ℕ) (hI : Inv cfg s (Function.update hs a h))
    (hk : Holds (tag (Out R) gpas ++ X) d h) :
    ∃ h', Inv cfg (addHeads proactive cpu gpas s).2 (Function.update hs a h') ∧
      Holds (tag (Out (Bound cfg (.mru proactive cpu))) (addHeads proactive cpu gpas s).1.1 ++
        (tag (Out (Bound cfg (.pin (cfg.possibleCpus + cpu)))) (addHeads proactive cpu gpas s).1.2
          ++ X)) (d - bill cfg gpas w) h' ∧
      (tag (InChain cfg) gpas).Perm (tag (InChain cfg) (addHeads proactive cpu gpas s).1.1 ++
        tag (InChain cfg) (addHeads proactive cpu gpas s).1.2) := by
  -- the loop
  have hloop : ∃ h', Inv cfg (gpas.foldl (fun s b => s.setGpa b (addedHead proactive cpu (s.gpa b)))
      s) (Function.update hs a h') ∧ Holds (tag (Out fun g => Bound cfg (joined cfg proactive cpu g) g)
        gpas ++ X) (d + bill cfg gpas fun c => -w c) h' := by
    refine Inv.foldBlocks (fun b s h o hI hown ho => ?_) gpas hI hk
    obtain ⟨_, g⟩ := o
    obtain ⟨rfl, hg⟩ := ho
    have hgpa : s.gpa b = g := hI.own_gpa hown
    have hbound : Bound cfg (joined cfg proactive cpu g) (addedHead proactive cpu g) :=
      addedHead_bound (hflag g hg)
    have hpinned : (addedHead proactive cpu g).flags .pinned = g.flags .pinned := by
      simp only [addedHead, SlruGpa.setFlag]
      split_ifs <;> simp
    refine ⟨⟨false, addedHead proactive cpu g⟩, ?_, ⟨rfl, ?_⟩, fun c => ?_⟩
    · rw [hgpa]
      exact hI.turn hown _
    · have hjoined : joined cfg proactive cpu (addedHead proactive cpu g) =
          joined cfg proactive cpu g := by rw [joined, joined, hpinned]
      dsimp only
      rw [hjoined]
      exact hbound
    · rw [hweight g hg, weight_out (quiet_of_state hbound.state)]
      ring
  obtain ⟨h', hI', hk'⟩ := hloop
  -- the two lists are told apart by the flag, which the loop has not changed
  have hflags : ∀ b o, h'.own b = some o → o.gpa.flags .pinned = (s.gpa b).flags .pinned := by
    intro b o hown
    rw [← hI'.own_gpa hown]
    exact foldl_addedHead_pinned proactive cpu gpas b
  have hsplit := hk'.carries.split (R := Out (Bound cfg (.mru proactive cpu)))
    (S := Out (Bound cfg (.pin (cfg.possibleCpus + cpu))))
    (fun b => !(s.gpa b).flags .pinned) (fun b _ o hown ho hf => ⟨ho.1, ?_⟩)
    (fun b _ o hown ho hf => ⟨ho.1, ?_⟩)
  · refine ⟨h', hI', ⟨?_, hk'.failed, ?_⟩, ?_⟩
    · simpa [Slru.addHeads] using hsplit
    · rw [hk'.debt]
      funext c
      simp only [Pi.add_apply, Pi.sub_apply, bill_apply]
      ring
    · rw [← tag_append]
      refine (List.Perm.map _ ?_).symm
      have hperm := List.filter_append_perm (fun b => !(s.gpa b).flags .pinned) gpas
      simpa [Slru.addHeads] using hperm
  · have hbound : Bound cfg (joined cfg proactive cpu o.gpa) o.gpa := ho.2
    have hoff : (s.gpa b).flags .pinned = false := by simpa using hf
    simpa [joined, hflags b o hown, hoff] using hbound
  · have hbound : Bound cfg (joined cfg proactive cpu o.gpa) o.gpa := ho.2
    have hset : (s.gpa b).flags .pinned = true := by simpa using hf
    simpa [joined, hflags b o hown, hset] using hbound

omit [DecidableEq A] [Fintype A] in
theorem pages_pos_iff (hpos : ∀ b, 0 < cfg.blockSize b) : 0 < cfg.pages bs ↔ bs ≠ [] := by
  cases bs with
  | nil => simp
  | cons b bs =>
    have hb : (0 : ℤ) < cfg.blockSize b := by exact_mod_cast hpos b
    have hbs := cfg.pages_nonneg bs
    simp only [SlruConfig.pages_cons, ne_eq, reduceCtorEq, not_false_eq_true, iff_true]
    linarith

/-- `add_gpas_to_active_list`: the blocks are on the chain, and counted there. -/
theorem safe_addGpasToActiveList (hpos : ∀ b, 0 < cfg.blockSize b) {R : SlruGpa → Prop}
    {proactive : Bool} {cpu : ℤ} {w : SlruCount → ℤ}
    (hflag : ∀ g, R g → g.flags .proactive = true → proactive = true)
    (hweight : ∀ g, R g → ∀ b c, Owned.weight cfg ⟨false, g⟩ b c = cfg.blockSize b * w c)
    (gpas : List ℕ) (hk : Holds (tag (Out R) gpas ++ X) d h) :
    Safe (Inv cfg) a (fun _ k => Holds (tag (InChain cfg) gpas ++ X) (d - bill cfg gpas w) k)
      (addGpasToActiveList a proactive cpu gpas) h := by
  let mru := SlruList.mru proactive cpu
  let pin := SlruList.pin (cfg.possibleCpus + cpu)
  refine Safe.bind (Q := fun temp k =>
    Holds (tag (Out (Bound cfg mru)) temp.1 ++ (tag (Out (Bound cfg pin)) temp.2 ++ X))
      (d - bill cfg gpas w) k ∧
    (tag (InChain cfg) gpas).Perm (tag (InChain cfg) temp.1 ++ tag (InChain cfg) temp.2))
    (safe_section fun _ s hs hI => ?_) fun temp k₁ hk₁ => ?_
  · obtain ⟨h', hI', hk', hperm⟩ := hI.addHeads hflag hweight gpas hk
    exact ⟨h', hI', hk', hperm⟩
  obtain ⟨hk₁, hperm⟩ := hk₁
  refine (safe_pages temp.1).bind fun newMruLen k₂ hk₂ => ?_
  obtain ⟨rfl, rfl⟩ := hk₂
  refine (safe_pages temp.2).bind fun newPinLen k₃ hk₃ => ?_
  obtain ⟨rfl, rfl⟩ := hk₃
  refine Safe.bind (Q := fun _ k => Holds (tag (InChain cfg) temp.1 ++
    (tag (Out (Bound cfg pin)) temp.2 ++ X)) (d - bill cfg gpas w) k) ?_ fun _ k₄ hk₄ => ?_
  · refine safe_whenever (fun _ => ?_) fun hno => ?_
    · refine Safe.bind (Q := fun _ k => Holds (tag (InChain cfg) temp.1 ++
        (tag (Out (Bound cfg pin)) temp.2 ++ X))
        (d - bill cfg gpas w + bill cfg temp.1 (unit (.slru mru))) k)
        (safe_modify fun s hs hI => hI.spliceTail temp.1 hk₁) fun _ k hk => ?_
      refine Safe.bind (Q := fun _ k => Holds _ _ k) (safe_look fun _ _ _ => hk)
        fun len k hk => ?_
      refine Safe.bind (Q := fun _ k => Holds _ _ k) (safe_whenever (fun _ => ?_) fun _ => hk)
        fun _ k hk => ?_
      · exact (safe_flushActiveMru proactive cpu _ hk.failed).mono fun _ _ heq => heq ▸ hk
      · refine (safe_pay (.ofChain proactive) hk fun _ _ _ => rfl).mono fun _ k hk => hk.owes ?_
        funext c
        simp only [Pi.add_apply, Pi.sub_apply, bill_apply, mru, unit_mru, chain, Pi.single_apply]
        split_ifs <;> ring
    · have hnil : temp.1 = [] := by
        by_contra hne
        exact hno ((pages_pos_iff hpos).mpr hne)
      rw [hnil] at hk₁ ⊢
      exact hk₁
  refine Safe.bind (Q := fun _ k => Holds (tag (InChain cfg) temp.1 ++
    (tag (InChain cfg) temp.2 ++ X)) (d - bill cfg gpas w) k) ?_ fun _ k₅ hk₅ => ?_
  · refine safe_whenever (fun _ => ?_) fun hno => ?_
    · have hk₄' : Holds (tag (Out (Bound cfg pin)) temp.2 ++ (tag (InChain cfg) temp.1 ++ X))
          (d - bill cfg gpas w) k₄ := hk₄.perm (List.perm_append_comm_assoc ..)
      refine Safe.bind (Q := fun _ k => Holds (tag (InChain cfg) temp.2 ++
        (tag (InChain cfg) temp.1 ++ X))
        (d - bill cfg gpas w + bill cfg temp.2 (unit (.slru pin))) k)
        (safe_modify fun s hs hI => ?_) fun _ k hk => ?_
      · have hptr : s.getListPtrPin cpu = .slru pin := by rw [SlruSys.getListPtrPin, hI.config]
        rw [hptr]
        exact hI.spliceTail temp.2 hk₄'
      · refine (safe_pay .proactive hk fun _ _ _ => rfl).bind fun _ k hk => ?_
        refine (safe_pay .pin hk fun _ _ _ => rfl).mono fun _ k hk =>
          (hk.perm (List.perm_append_comm_assoc ..)).owes ?_
        funext c
        simp only [Pi.add_apply, Pi.sub_apply, bill_apply, pin, unit_pin, Pi.single_apply]
        cases c <;> simp [chain, SlruCount.ofChain]
    · have hnil : temp.2 = [] := by
        by_contra hne
        exact hno ((pages_pos_iff hpos).mpr hne)
      rw [hnil] at hk₄ ⊢
      exact hk₄
  · refine safe_ret (hk₅.perm ?_)
    rw [← List.append_assoc]
    exact hperm.append_right X

/-! ### Promoting and pinning -/

/-- A block that changes is put on a list of a chain. -/
theorem Inv.putSlru {l : SlruList} (hI : Inv cfg s (Function.update hs a h))
    (hown : h.own b = some ⟨false, g⟩) (hg : Quiet g) (hg' : Bound cfg l g')
    (hlists : t = { s.setGpa b g' with
      lists := Function.update s.lists (.slru l) (s.lists (.slru l) ++ [b]) }) :
    ∃ g', Inv cfg t (Function.update hs a (h.swap cfg b ⟨false, g⟩ ⟨true, g'⟩)) ∧
      Settled cfg False g' ∧
      ∀ c, Owned.weight cfg ⟨true, g'⟩ b c - Owned.weight cfg ⟨false, g⟩ b c =
        cfg.blockSize b * unit (.slru l) c := by
  subst hlists
  refine ⟨g', hI.put hown hg'.list, settled_slru hg'.list hg'.flag hg'.state, fun c => ?_⟩
  rw [weight_placed (quiet_of_state hg'.state) hg'.list, weight_out hg]
  ring

/-- `__promote_gpas`: the blocks are on the proactive chain, counted there and unlocked. -/
theorem safe_promoteGpas {cpu : ℤ} (mapped : Bool) (lps : List ℕ)
    (hk : Holds (tag (Out Quiet) lps ++ X) d h) :
    Safe (Inv cfg) a (fun _ k => Holds X d k)
      (promoteGpas a cpu lps (cfg.pages lps) mapped) h := by
  refine Safe.bind (Q := fun _ k => Holds X (d + bill cfg lps (chain true)) k)
    (safe_putBack hk fun b s k g hs hI hown hg => ?_) fun _ k hk => ?_
  · have hgpa : s.gpa b = g := hI.own_gpa hown
    let g' : SlruGpa := { { g with cpu := cpu, on := some .mru }.setFlag .proactive true with
      rState := .active }
    have hbound : Bound cfg (.mru true cpu) (if mapped then g' else g'.setPrefetched) := by
      cases mapped
      · simp [g', SlruGpa.setPrefetched, SlruGpa.setFlag, SlruGpa.list, SlruList.proactive,
          bound_iff]
      · simp [g', SlruGpa.setFlag, SlruGpa.list, SlruList.proactive, bound_iff]
    obtain ⟨g₁, hI', hsettled, hweight⟩ := hI.putSlru (t := promoteGpa cpu mapped s b) hown hg
      hbound (by
        simp [promoteGpa, SlruSys.enlist, SlruSys.setGpa, getListPtrMru, hgpa, g'])
    refine ⟨g₁, hI', hsettled, fun c => ?_⟩
    rw [hweight c, unit_mru]
  · refine (safe_pay .proactive hk fun _ _ _ => rfl).bind fun _ k hk => ?_
    refine Safe.bind (Q := fun _ k => Holds _ _ k) (safe_look fun _ _ _ => hk) fun len k hk => ?_
    have hk' : Holds X d k := by
      refine hk.owes ?_
      funext c
      simp [bill_chain, SlruCount.ofChain]
    refine safe_whenever (fun _ => ?_) fun _ => hk'
    exact (safe_flushActiveMru true cpu _ hk'.failed).mono fun _ _ heq => heq ▸ hk'

/-- `__move_to_pin_list`: the blocks are on the pin list of the cpu, counted there and unlocked;
those of the proactive chain are still counted there. -/
theorem safe_moveToPinList {cpu : ℤ} (fromProactive mapped : Bool) (lps : List ℕ)
    {R : SlruGpa → Prop} (hR : ∀ g, R g → Quiet g ∧
      (fromProactive = true → g.flags .proactive = true) ∧
      (mapped = true → g.rState = .active ∨ g.rState = .fetching))
    (hk : Holds (tag (Out R) lps ++ X) d h) :
    Safe (Inv (A := A) cfg) a
      (fun _ k => Holds X (d + if fromProactive then bill cfg lps (chain true) else 0) k)
      (moveToPinList cpu lps fromProactive mapped) h := by
  let pin := SlruList.pin (cfg.possibleCpus + cpu)
  refine (safe_pages lps).bind fun pages k₁ hk₁ => ?_
  obtain ⟨rfl, rfl⟩ := hk₁
  refine Safe.bind (Q := fun _ k => Holds X (d + bill cfg lps (unit (.slru pin))) k)
    (safe_putBack hk fun b s k g hs hI hown hg => ?_) fun _ k hk => ?_
  · have hgpa : s.gpa b = g := hI.own_gpa hown
    have hptr : s.getListPtrPin cpu = .slru pin := by rw [SlruSys.getListPtrPin, hI.config]
    obtain ⟨hquiet, hflag, hstate⟩ := hR g hg
    let g₀ : SlruGpa := { g with cpu := cpu, on := some .pin }
    let g₁ : SlruGpa := if fromProactive then g₀ else g₀.setFlag .proactive true
    have hproactive : g₁.flags .proactive = true := by
      cases fromProactive
      · simp [g₁, SlruGpa.setFlag]
      · exact hflag rfl
    have hbound : Bound cfg pin (if mapped then g₁ else
        { g₁.setPrefetched.setFlag .hpt true with rState := .active }) := by
      cases mapped
      · refine ⟨Or.inl rfl, ?_, ?_⟩
        · cases fromProactive <;> rfl
        · simpa [SlruGpa.setPrefetched, SlruGpa.setFlag, pin, SlruList.proactive] using hproactive
      · refine ⟨?_, ?_, hproactive⟩
        · cases fromProactive <;> exact hstate rfl
        · cases fromProactive <;> rfl
    refine hI.putSlru hown hquiet hbound ?_
    simp only [moveToPin, hptr, SlruSys.enlist, SlruSys.setGpa, hgpa, Function.update_self,
      Function.update_idem]
    rfl
  · refine Safe.bind (Q := fun _ k => Holds X (d + (bill cfg lps (unit (.slru pin)) -
      if fromProactive then 0 else Pi.single .proactive (cfg.pages lps))) k)
      (safe_whenever (fun hno => ?_) fun hyes => ?_) fun _ k hk => ?_
    · refine (safe_pay .proactive hk fun _ _ _ => rfl).mono fun _ k hk => hk.owes ?_
      rw [hno]
      funext c
      simp
      ring
    · rw [Bool.not_eq_false] at hyes
      rw [hyes]
      simpa using hk
    · refine (safe_pay .pin hk fun _ _ _ => rfl).mono fun _ k hk => hk.owes ?_
      funext c
      simp only [Pi.add_apply, Pi.sub_apply, bill_apply, pin, unit_pin, Pi.single_apply]
      cases fromProactive <;> cases c <;> simp [chain, SlruCount.ofChain, bill_apply]

end Slru

end Emp
