import Emp.Slru.Account
import Mathlib.Data.List.Perm.Basic

/-!
# The loops over the replacement lists

A scan takes blocks off a list, and a later loop puts them on another one.  In between they are in
the hand of the thread.  The lemmas of this module say what a scan and a loop that puts blocks back
do to the hand, given what they do to one block.

## Main definitions

* `Carries` — the blocks that a thread has taken off their lists, with what it knows of each.
* `Inv.scanList` — a scan.
* `Inv.putBack` — blocks are put back and unlocked.
-/

namespace Emp

/-- The pages of blocks. -/
def SlruConfig.pages (cfg : SlruConfig) (bs : List ℕ) : ℤ :=
  (bs.map fun b => (cfg.blockSize b : ℤ)).sum

namespace SlruConfig

variable (cfg : SlruConfig)

@[simp] theorem pages_nil : cfg.pages [] = 0 := rfl

@[simp] theorem pages_cons (b : ℕ) (bs : List ℕ) :
    cfg.pages (b :: bs) = cfg.blockSize b + cfg.pages bs := by
  simp [pages]

@[simp] theorem pages_append (bs cs : List ℕ) :
    cfg.pages (bs ++ cs) = cfg.pages bs + cfg.pages cs := by
  simp [pages]

theorem pages_nonneg (bs : List ℕ) : 0 ≤ cfg.pages bs := by
  induction bs with
  | nil => exact le_rfl
  | cons b bs ih =>
    rw [pages_cons]
    positivity

end SlruConfig

namespace Slru

variable {A : Type} [DecidableEq A] [Fintype A] {cfg : SlruConfig} {s t : SlruSys A}
  {hs : A → Hand} {a : A} {h : Hand} {b : ℕ} {o o' : Owned} {g g' : SlruGpa} {l : LocalList}

omit [DecidableEq A] in
theorem Inv.pagesOf (hI : Inv cfg s hs) (bs : List ℕ) : s.pagesOf bs = cfg.pages bs := by
  rw [SlruSys.pagesOf, SlruConfig.pages, hI.config]

/-! ### Hands -/

/-- The hand in which `b` has become `o'`. -/
theorem Hand.swap_swap (o'' : Owned) :
    (h.swap cfg b o o').swap cfg b o' o'' = h.swap cfg b o o'' := by
  simp only [Hand.swap, Function.update_idem]
  congr 1
  funext c
  ring

/-- A list as a vector of counters. -/
def unit (l : LocalList) (c : SlruCount) : ℤ := if l.countedBy c then 1 else 0

/-- A block that is not counted among the inactive ones while it is on no list. -/
def Quiet (g : SlruGpa) : Prop := g.rState ≠ .transIl ∧ g.rState ≠ .wb

theorem weight_out (hg : Quiet g) (c : SlruCount) : Owned.weight cfg ⟨false, g⟩ b c = 0 := by
  simp [Owned.weight, Owned.counted, Owned.home, hg.1, hg.2]

theorem weight_placed (hg : Quiet g) (hl : g.list cfg.possibleCpus = some l) (c : SlruCount) :
    Owned.weight cfg ⟨true, g⟩ b c = cfg.blockSize b * unit l c := by
  simp [Owned.weight, Owned.counted, Owned.home, hg.1, hg.2, hl, unit]

theorem weight_nowhere (hg : Quiet g) (hon : g.on = none) (c : SlruCount) :
    Owned.weight cfg ⟨true, g⟩ b c = 0 := by
  simp [Owned.weight, Owned.counted, Owned.home, hg.1, hg.2, SlruGpa.list, hon]

/-! ### One block -/

/-- A block is taken off its list. -/
theorem Inv.delist (hI : Inv cfg s (Function.update hs a h)) (hown : h.own b = some ⟨true, g⟩)
    (hl : g.list cfg.possibleCpus = some l) :
    Inv cfg (s.delist b l) (Function.update hs a
      (h.swap cfg b ⟨true, g⟩ ⟨false, { g with on := none }⟩)) := by
  have hgpa := hI.own_gpa hown
  refine hI.change hown rfl rfl rfl (fun _ hx => hx) rfl ?_ fun x k => ?_
  · simp [SlruSys.delist, SlruSys.setGpa, hgpa]
  · simp only [SlruSys.delist, SlruSys.setGpa]
    have hcount := hI.lists x k
    by_cases hk : k = l
    · subst hk
      rw [Function.update_self]
      by_cases hx : x = b
      · subst hx
        rw [hI.view_own hown] at hcount
        rw [List.count_erase_self, hcount]
        simp [Owned.home, hl]
      · rw [List.count_erase_of_ne hx, if_neg hx]
    · rw [Function.update_of_ne hk]
      by_cases hx : x = b
      · subst hx
        rw [hI.view_own hown] at hcount
        rw [hcount]
        simp [Owned.home, hl, Ne.symm hk]
      · rw [if_neg hx]

/-- A block changes and stays where it is. -/
theorem Inv.setGpa (o' : Owned) (hI : Inv cfg s (Function.update hs a h))
    (hown : h.own b = some o) (hgpa : o'.gpa = g') (hhome : o'.home cfg = o.home cfg) :
    Inv cfg (s.setGpa b g') (Function.update hs a (h.swap cfg b o o')) := by
  subst hgpa
  refine hI.change hown rfl rfl rfl (fun _ hx => hx) rfl rfl fun x k => ?_
  have hcount := hI.lists x k
  by_cases hx : x = b
  · rw [if_pos hx, hhome]
    rw [hx, hI.view_own hown] at hcount
    rw [hx]
    exact hcount
  · rw [if_neg hx]
    rfl

/-- A block is put at the tail of a list. -/
theorem Inv.put (hI : Inv cfg s (Function.update hs a h)) (hown : h.own b = some ⟨false, g⟩)
    (hl : g'.list cfg.possibleCpus = some l) :
    Inv cfg { s.setGpa b g' with lists := Function.update s.lists l (s.lists l ++ [b]) }
      (Function.update hs a (h.swap cfg b ⟨false, g⟩ ⟨true, g'⟩)) := by
  refine hI.change hown rfl rfl rfl (fun _ hx => hx) rfl rfl fun x k => ?_
  have hcount := hI.lists x k
  dsimp only
  by_cases hk : k = l
  · subst hk
    rw [Function.update_self, List.count_append]
    by_cases hx : x = b
    · subst hx
      rw [hI.view_own hown] at hcount
      rw [hcount]
      simp [Owned.home, hl]
    · rw [if_neg hx, List.count_singleton]
      simp [Ne.symm hx]
  · rw [Function.update_of_ne hk]
    by_cases hx : x = b
    · subst hx
      rw [hI.view_own hown] at hcount
      rw [hcount]
      simp [Owned.home, hl, Ne.symm hk]
    · rw [if_neg hx]

/-- A block that is locked and taken off its list, and what it becomes. -/
def Hand.grab (cfg : SlruConfig) (h : Hand) (b : ℕ) (g g' : SlruGpa) : Hand :=
  (h.take b g).swap cfg b ⟨true, g⟩ ⟨false, g'⟩

@[simp] theorem Hand.grab_own :
    (h.grab cfg b g g').own = Function.update h.own b (some ⟨false, g'⟩) := by
  simp [Hand.grab]

@[simp] theorem Hand.grab_failed : (h.grab cfg b g g').failed = h.failed := rfl

theorem Hand.grab_debt (hg : Quiet g) (hl : g.list cfg.possibleCpus = some l) (hg' : Quiet g')
    (c : SlruCount) : (h.grab cfg b g g').debt c = h.debt c - cfg.blockSize b * unit l c := by
  simp only [Hand.grab, Hand.swap, Hand.take_debt, weight_out hg', weight_placed hg hl]
  ring

theorem Inv.grab (hI : Inv cfg s (Function.update hs a (h.take b (s.gpa b))))
    (hl : (s.gpa b).list cfg.possibleCpus = some l) :
    Inv cfg (s.delist b l) (Function.update hs a
      (h.grab cfg b (s.gpa b) { s.gpa b with on := none })) :=
  hI.delist (Function.update_self ..) hl

theorem Inv.grab_set (hI : Inv cfg s (Function.update hs a (h.take b (s.gpa b))))
    (hl : (s.gpa b).list cfg.possibleCpus = some l) (g' : SlruGpa) :
    Inv cfg ((s.delist b l).setGpa b g') (Function.update hs a (h.grab cfg b (s.gpa b) g')) := by
  have hown : (h.grab cfg b (s.gpa b) { s.gpa b with on := none }).own b =
      some ⟨false, { s.gpa b with on := none }⟩ := by simp
  have hset : Inv cfg ((s.delist b l).setGpa b g') _ := (hI.grab hl).setGpa ⟨false, g'⟩ hown rfl rfl
  rwa [Hand.grab, Hand.swap_swap] at hset

omit [DecidableEq A] [Fintype A] in
/-- The other blocks of a list stay on it. -/
theorem mem_delist {x : ℕ} (hx : x ≠ b) (hmem : x ∈ s.lists l) : x ∈ (s.delist b l).lists l := by
  simp only [SlruSys.delist, Function.update_self]
  exact (List.mem_erase_of_ne hx).mpr hmem

/-! ### What is carried -/

/-- Blocks, each with what its thread knows of it. -/
abbrev Batch : Type := List (ℕ × (Owned → Prop))

/-- Blocks of which the same is known. -/
def tag (P : Owned → Prop) (bs : List ℕ) : Batch := bs.map fun b => (b, P)

/-- A block that is on no list. -/
def Out (P : SlruGpa → Prop) (o : Owned) : Prop := o.placed = false ∧ P o.gpa

/-- A block that can be unlocked. -/
def Back (cfg : SlruConfig) (o : Owned) : Prop := o.placed = true ∧ Settled cfg False o.gpa

/-- Compared with `own₀`, the thread has locked the blocks `B`. -/
structure Carries (own own₀ : ℕ → Option Owned) (B : Batch) : Prop where
  nodup : (B.map Prod.fst).Nodup
  mine : ∀ x ∈ B, ∃ o, own x.1 = some o ∧ x.2 o
  rest : ∀ b, b ∉ B.map Prod.fst → own b = own₀ b
  free : ∀ b ∈ B.map Prod.fst, own₀ b = none

section Carries

variable {own own₀ : ℕ → Option Owned} {B C : Batch} {P Q : Owned → Prop} {bs : List ℕ}

theorem mem_fst {x : ℕ × (Owned → Prop)} (hx : x ∈ B) : x.1 ∈ B.map Prod.fst :=
  List.mem_map_of_mem hx

@[simp] theorem tag_nil : tag P [] = [] := rfl

@[simp] theorem tag_cons : tag P (b :: bs) = (b, P) :: tag P bs := rfl

@[simp] theorem tag_append {cs : List ℕ} : tag P (bs ++ cs) = tag P bs ++ tag P cs := by
  simp [tag]

theorem carries_nil : Carries own own [] :=
  ⟨List.nodup_nil, fun _ hx => absurd hx (by simp), fun _ _ => rfl, fun _ hx => absurd hx (by simp)⟩

theorem Carries.eq (hc : Carries own own₀ []) : own = own₀ := funext fun b => hc.rest b (by simp)

theorem Carries.perm (hc : Carries own own₀ B) (hp : C.Perm B) : Carries own own₀ C := by
  have hmap := hp.map Prod.fst
  refine ⟨hmap.nodup_iff.mpr hc.nodup, fun x hx => hc.mine x (hp.mem_iff.mp hx), fun b hb => ?_,
    fun b hb => hc.free b (hmap.mem_iff.mp hb)⟩
  exact hc.rest b fun hmem => hb (hmap.mem_iff.mpr hmem)

/-- One more block is locked. -/
theorem Carries.push (hc : Carries own own₀ B) (hb : own b = none) (ho : P o) :
    Carries (Function.update own b (some o)) own₀ ((b, P) :: B) := by
  have hnew : b ∉ B.map Prod.fst := by
    intro hmem
    obtain ⟨x, hx, rfl⟩ := List.mem_map.mp hmem
    obtain ⟨k, hk, -⟩ := hc.mine x hx
    rw [hb] at hk
    exact absurd hk (by simp)
  refine ⟨List.nodup_cons.mpr ⟨hnew, hc.nodup⟩, fun x hx => ?_, fun y hy => ?_, fun y hy => ?_⟩
  · rcases List.mem_cons.mp hx with rfl | hx
    · exact ⟨o, Function.update_self .., ho⟩
    · have hne : x.1 ≠ b := fun heq => hnew (by
      rw [← heq]
      exact mem_fst hx)
      rw [Function.update_of_ne hne]
      exact hc.mine x hx
  · rw [List.map_cons, List.mem_cons, not_or] at hy
    rw [Function.update_of_ne hy.1]
    exact hc.rest y hy.2
  · rcases List.mem_cons.mp hy with hyb | hy
    · have hyb' : y = b := hyb
      rw [hyb', ← hc.rest b hnew]
      exact hb
    · exact hc.free y hy

/-- A block that is carried. -/
theorem Carries.head (hc : Carries own own₀ ((b, P) :: B)) : ∃ o, own b = some o ∧ P o :=
  hc.mine (b, P) List.mem_cons_self

/-- It is handed on. -/
theorem Carries.pop (hc : Carries own own₀ ((b, P) :: B)) :
    Carries (Function.update own b none) own₀ B := by
  obtain ⟨hhead, hnodup⟩ := List.nodup_cons.mp hc.nodup
  have hnew : b ∉ B.map Prod.fst := hhead
  refine ⟨hnodup, fun x hx => ?_, fun y hy => ?_, fun y hy => hc.free y (List.mem_cons_of_mem _ hy)⟩
  · have hne : x.1 ≠ b := fun heq => hnew (by
      rw [← heq]
      exact mem_fst hx)
    rw [Function.update_of_ne hne]
    exact hc.mine x (List.mem_cons_of_mem _ hx)
  · by_cases hyb : y = b
    · subst hyb
      rw [Function.update_self]
      exact (hc.free y List.mem_cons_self).symm
    · rw [Function.update_of_ne hyb]
      exact hc.rest y fun hmem => (List.mem_cons.mp hmem).elim hyb hy

/-- It changes. -/
theorem Carries.set (hc : Carries own own₀ ((b, P) :: B)) (ho : Q o) :
    Carries (Function.update own b (some o)) own₀ ((b, Q) :: B) := by
  have hpush := hc.pop.push (b := b) (P := Q) (Function.update_self ..) ho
  rwa [Function.update_idem] at hpush

theorem Carries.weaken (hc : Carries own own₀ (tag P bs ++ B)) (hPQ : ∀ o, P o → Q o) :
    Carries own own₀ (tag Q bs ++ B) := by
  have hfst : (tag Q bs ++ B).map Prod.fst = (tag P bs ++ B).map Prod.fst := by
    simp [tag, Function.comp_def]
  refine ⟨hfst ▸ hc.nodup, fun x hx => ?_, fun y hy => hc.rest y (hfst ▸ hy),
    fun y hy => hc.free y (hfst ▸ hy)⟩
  rcases List.mem_append.mp hx with hx | hx
  · obtain ⟨y, hy, rfl⟩ := List.mem_map.mp hx
    obtain ⟨k, hk, hP⟩ := hc.mine (y, P) (List.mem_append_left _ (List.mem_map_of_mem hy))
    exact ⟨k, hk, hPQ k hP⟩
  · exact hc.mine x (List.mem_append_right _ hx)

theorem perm_snoc (X : Batch) : (tag P (bs ++ [b]) ++ X).Perm ((b, P) :: (tag P bs ++ X)) := by
  simp

end Carries

/-! ### Scans -/

/-- A scan keeps the account if each visit does; a visit is given a block of the list, locked. -/
theorem Inv.scanList {O : Type} {fail : O → O × Bool}
    {visit : ℕ → O → SlruSys A → O × SlruSys A × Bool} {R : O → Hand → Prop}
    (hfail : ∀ o h, R o h → R (fail o).1 h)
    (hvisit : ∀ b o s h, Inv cfg s (Function.update hs a (h.take b (s.gpa b))) → h.own b = none →
      (s.gpa b).list cfg.possibleCpus = some l → Settled cfg (b ∈ s.failed) (s.gpa b) → R o h →
      ∃ h', Inv cfg (visit b o s).2.1 (Function.update hs a h') ∧ R (visit b o s).1 h' ∧
        ∀ x, x ≠ b → x ∈ s.lists l → x ∈ (visit b o s).2.1.lists l)
    (bs : List ℕ) (o : O) (hI : Inv cfg s (Function.update hs a h)) (hbs : bs.Nodup)
    (hmem : ∀ x ∈ bs, x ∈ s.lists l) (hR : R o h) :
    ∃ h', Inv cfg (s.scanList a fail visit bs o).2 (Function.update hs a h') ∧
      R (s.scanList a fail visit bs o).1 h' := by
  induction bs generalizing o s h with
  | nil => exact ⟨h, hI, hR⟩
  | cons b bs ih =>
    obtain ⟨hb, hbs⟩ := List.nodup_cons.mp hbs
    have hrest : ∀ x ∈ bs, x ∈ s.lists l := fun x hx => hmem x (List.mem_cons_of_mem b hx)
    rw [SlruSys.scanList]
    cases hlock : s.lock b with
    | some x =>
      have hR' := hfail o h hR
      rcases hf : fail o with ⟨o', goOn⟩
      rw [hf] at hR'
      cases goOn with
      | true => exact ih o' hI hbs hrest hR'
      | false => exact ⟨h, hI, hR'⟩
    | none =>
      have hlisted := hI.listed (hmem b List.mem_cons_self) hlock
      have hnone : h.own b = none := by
        have hnot := (hI.locks a b).not.mp (by rw [hlock]; simp)
        rw [Function.update_self] at hnot
        simpa using hnot
      obtain ⟨h', hI', hR', hkeep⟩ := hvisit b o (s.hold a b) h (hI.hold hlock hlisted.2) hnone
        hlisted.1 (hI.settled b hlock) hR
      rcases hv : visit b o (s.hold a b) with ⟨o', s', goOn⟩
      rw [hv] at hI' hR' hkeep
      cases goOn with
      | true =>
        refine ih o' hI' hbs (fun x hx => hkeep x ?_ (hrest x hx)) hR'
        rintro rfl
        exact hb hx
      | false => exact ⟨h', hI', hR'⟩

/-- Blocks are put back, each with what `u` adds for its pages, and unlocked. -/
theorem Inv.putBack {put : SlruSys A → ℕ → SlruSys A} {P : SlruGpa → Prop} {u : SlruCount → ℤ}
    (hput : ∀ b s h g, Inv cfg s (Function.update hs a h) → h.own b = some ⟨false, g⟩ → P g →
      ∃ g', Inv cfg (put s b) (Function.update hs a (h.swap cfg b ⟨false, g⟩ ⟨true, g'⟩)) ∧
        Settled cfg False g' ∧
        ∀ c, Owned.weight cfg ⟨true, g'⟩ b c - Owned.weight cfg ⟨false, g⟩ b c =
          cfg.blockSize b * u c)
    {own₀ : ℕ → Option Owned} {B : Batch} (bs : List ℕ)
    (hI : Inv cfg s (Function.update hs a h)) (hc : Carries h.own own₀ (tag (Out P) bs ++ B))
    (hok : h.failed = fun _ => false) :
    ∃ h', Inv cfg (s.putBack put bs) (Function.update hs a h') ∧ Carries h'.own own₀ B ∧
      h'.failed = h.failed ∧ ∀ c, h'.debt c = h.debt c + cfg.pages bs * u c := by
  induction bs generalizing s h with
  | nil => exact ⟨h, hI, by simpa using hc, rfl, fun c => by simp⟩
  | cons b bs ih =>
    obtain ⟨⟨_, g⟩, hown, rfl, hg⟩ := hc.head
    obtain ⟨g', hI', hsettled, hweight⟩ := hput b s h g hI hown hg
    have hrel := hI'.release (Function.update_self ..) (by simp [Owned.home])
      (hsettled.mono fun hf => hf.elim)
    have hpop : Carries (Function.update h.own b none) own₀ (tag (Out P) bs ++ B) := hc.pop
    obtain ⟨h', hI'', hc', hfailed, hdebt⟩ := ih hrel (by simpa using hpop) (by simp [hok])
    refine ⟨h', hI'', hc', ?_, fun c => ?_⟩
    · rw [hfailed]
      simp [hok]
    · rw [hdebt c]
      simp only [Hand.drop_debt, Hand.swap, hweight, SlruConfig.pages_cons]
      ring

end Slru

end Emp
