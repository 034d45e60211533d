import Emp.Memreg
import Mathlib.Algebra.Order.Group.Nat
import Mathlib.Data.List.Nodup

/-!
# The allocator's invariant

Each region's bitmap, reserve counter and cursors agree with the words of the
descriptors.  The policies raise `alloc_len` before they look for a bit, so the
invariant counts what is reserved in a region and not yet handed out; between two
operations nothing is.

## Main definitions

* `MemregInv`, `AllocInv` — the invariant of one region and of all regions.
* `AllocatorOk` — what the allocator is for, in the terms of its callers.
* `AllocCond` — the allocations on which the three loops keep the invariant.
-/

namespace Emp

open BitSearch

/-- Region `mr` in slot `id`, with `reserve` subblocks counted in `alloc_len` but
not yet taken from the bitmap. -/
structure MemregInv (sbOrder : ℕ) (words : ℕ → RemotePage) (id reserve : ℕ) (mr : Memreg) :
    Prop where
  id_eq : mr.id = id
  dmaOrder_eq : mr.dmaOrder = sbOrder
  dvd_size : 2 ^ sbOrder ∣ mr.size
  cleared_iff : ∀ b < mr.size >>> sbOrder,
    mr.allocBitmap b = false ↔ ∃ g, words g = .page id (b <<< sbOrder)
  allocLen_eq : mr.allocLen =
    ((cleared mr.allocBitmap (mr.size >>> sbOrder) + reserve) <<< sbOrder : ℕ)
  freeStart_le : mr.freeStart ≤ mr.size >>> sbOrder
  below_freeStart : ∀ b < mr.freeStart, mr.allocBitmap b = false

/-- All regions, with `reserve id` subblocks reserved in region `id`. -/
structure AllocInv (sbOrder : ℕ) (reserve : ℕ → ℕ) (s : RemoteMem) : Prop where
  memreg : ∀ id mr, s.memregs id = some mr → MemregInv sbOrder s.remotePage id (reserve id) mr
  inside : ∀ g id offset, s.remotePage g = .page id offset →
    ∃ mr, s.memregs id = some mr ∧ ∃ b < mr.size >>> sbOrder, offset = b <<< sbOrder
  once : ∀ g g' id offset, s.remotePage g = .page id offset →
    s.remotePage g' = .page id offset → g = g'
  lt_last : ∀ id, (s.memregs id).isSome → id < s.memregsLast
  lastAlloc_lt : s.memregsLastAlloc < s.memregsLast

/-- The contract of the allocator: the pages handed out and not released, those
that words name, are exactly the cleared bits; no page is handed out twice;
`alloc_len` counts the cleared bits; all bits below `free_start` are cleared; and
every page handed out lies inside its region. -/
structure AllocatorOk (sbOrder : ℕ) (s : RemoteMem) : Prop where
  cleared_iff : ∀ id mr, s.memregs id = some mr → ∀ b < mr.size >>> sbOrder,
    (mr.allocBitmap b = false ↔ ∃ g, s.remotePage g = .page id (b <<< sbOrder))
  once : ∀ g g' id offset, s.remotePage g = .page id offset →
    s.remotePage g' = .page id offset → g = g'
  allocLen_eq : ∀ id mr, s.memregs id = some mr →
    mr.allocLen = (cleared mr.allocBitmap (mr.size >>> sbOrder) <<< sbOrder : ℕ)
  below_freeStart : ∀ id mr, s.memregs id = some mr →
    ∀ b < mr.freeStart, mr.allocBitmap b = false
  inside : ∀ g id offset, s.remotePage g = .page id offset →
    ∃ mr, s.memregs id = some mr ∧ 2 ^ sbOrder ∣ offset ∧ offset + 2 ^ sbOrder ≤ mr.size

/-- No region has room for `num` more pages. -/
def NoRoom (num : ℕ) (s : RemoteMem) : Prop := ∀ id, availMr s num id = false

/-- What a policy asks one region for: a subblock, or the whole block. -/
def policyAsk (policy : RemotePolicySubblock) (sbOrder n : ℕ) : ℕ :=
  match policy with
  | .sameMr => n <<< sbOrder
  | .any | .diffMr => 1 <<< sbOrder

/-- The subblocks of a block that have no remote page. -/
def pageless (s : RemoteMem) (gs : List ℕ) : List ℕ := gs.filter fun g => (s.remotePage g).isFree

/-- The free pages of one region. -/
def freeBits (sbOrder : ℕ) (mr : Memreg) : ℕ :=
  mr.size >>> sbOrder - cleared mr.allocBitmap (mr.size >>> sbOrder)

/-- When an operation keeps the contract.  `same_mr` reserves a page for every
subblock of the block, so none may own one yet; and `diff_mr` with a single
region checks for room once, so the region must hold the whole block.  Neither
matters when there is no subblock to serve or no room to begin with. -/
def AllocCond (sbOrder : ℕ) (s : RemoteMem) : AllocAction → Prop
  | .release _ => True
  | .alloc cfg head order =>
      let gs := gpasOf head order
      match cfg.remotePolicySubblock with
      | .any => True
      | .sameMr =>
          (∀ g ∈ gs, s.remotePage g = .free) ∨ (∀ g ∈ gs, s.remotePage g ≠ .free) ∨
            NoRoom (gs.length <<< sbOrder) s
      | .diffMr => s.memregsLast = 1 →
          (pageless s gs).length ≤ freeBits sbOrder (s.mr 0) ∨ freeBits sbOrder (s.mr 0) = 0

/-! ## Shifts and room -/

theorem lt_shiftRight_iff {a size sbOrder : ℕ} :
    a < size >>> sbOrder ↔ (a + 1) <<< sbOrder ≤ size := by
  rw [Nat.shiftRight_eq_div_pow, Nat.shiftLeft_eq, Nat.lt_iff_add_one_le,
    Nat.le_div_iff_mul_le (Nat.two_pow_pos _)]

theorem shiftLeft_inj {a b sbOrder : ℕ} (h : a <<< sbOrder = b <<< sbOrder) : a = b := by
  rw [Nat.shiftLeft_eq, Nat.shiftLeft_eq] at h
  exact Nat.eq_of_mul_eq_mul_right (Nat.two_pow_pos _) h

theorem shiftLeft_shiftRight (a sbOrder : ℕ) : a <<< sbOrder >>> sbOrder = a := by
  rw [Nat.shiftLeft_eq, Nat.shiftRight_eq_div_pow]
  exact Nat.mul_div_cancel _ (Nat.two_pow_pos _)

theorem availMr_iff {s : RemoteMem} {num id : ℕ} :
    availMr s num id = true ↔ ∃ mr, s.memregs id = some mr ∧ mr.allocLen + num ≤ mr.size := by
  unfold availMr
  cases s.memregs id <;> simp

/-- In the invariant, room for `k` subblocks is room in the bitmap. -/
theorem MemregInv.room_iff {sbOrder id k : ℕ} {words : ℕ → RemotePage} {mr : Memreg}
    (H : MemregInv sbOrder words id 0 mr) :
    mr.allocLen + (k <<< sbOrder : ℕ) ≤ mr.size ↔
      cleared mr.allocBitmap (mr.size >>> sbOrder) + k ≤ mr.size >>> sbOrder := by
  rw [H.allocLen_eq, Nat.add_zero, Nat.shiftRight_eq_div_pow,
    Nat.le_div_iff_mul_le (Nat.two_pow_pos _), Nat.shiftLeft_eq, Nat.shiftLeft_eq, Nat.add_mul]
  omega

/-- A region with room for one page has room for a subblock: both its length and
its reserve are multiples of the subblock length. -/
theorem MemregInv.room_one {sbOrder id : ℕ} {words : ℕ → RemotePage} {mr : Memreg}
    (H : MemregInv sbOrder words id 0 mr) (h : mr.allocLen + 1 ≤ mr.size) :
    cleared mr.allocBitmap (mr.size >>> sbOrder) < mr.size >>> sbOrder := by
  obtain ⟨q, hq⟩ := H.dvd_size
  have hn : mr.size >>> sbOrder = q := by
    rw [hq, Nat.shiftRight_eq_div_pow]
    exact Nat.mul_div_cancel_left _ (Nat.two_pow_pos _)
  rw [H.allocLen_eq, Nat.add_zero, hn, hq, Nat.shiftLeft_eq] at h
  rw [hn]
  by_contra hle
  have hmul : q * 2 ^ sbOrder ≤ cleared mr.allocBitmap q * 2 ^ sbOrder :=
    Nat.mul_le_mul_right _ (not_lt.mp hle)
  rw [Nat.mul_comm (2 ^ sbOrder) q] at h
  omega

/-! ## One operation on one region -/

section Step

variable {sbOrder : ℕ} {reserve : ℕ → ℕ} {s : RemoteMem} {mrid g : ℕ} {m : Memreg}

theorem RemoteMem.mr_eq (hm : s.memregs mrid = some m) : s.mr mrid = m := by
  simp [RemoteMem.mr, hm]

@[simp] theorem RemoteMem.remotePage_setMr : (s.setMr mrid m).remotePage = s.remotePage := rfl
@[simp] theorem RemoteMem.memregs_setMr :
    (s.setMr mrid m).memregs = Function.update s.memregs mrid (some m) := rfl
@[simp] theorem RemoteMem.memregsLast_setMr : (s.setMr mrid m).memregsLast = s.memregsLast := rfl

/-- Replace one region, keeping its length and order.  The other regions only see
the words. -/
theorem allocInv_setMr (H : AllocInv sbOrder reserve s) {m' : Memreg} {r : ℕ}
    {words : ℕ → RemotePage} (hm : s.memregs mrid = some m) (hsize : m'.size = m.size)
    (hreg : MemregInv sbOrder words mrid r m')
    (hother : ∀ id b, id ≠ mrid →
      ((∃ g, s.remotePage g = .page id b) ↔ ∃ g, words g = .page id b))
    (hinside : ∀ g id offset, words g = .page id offset →
      (∃ g', s.remotePage g' = .page id offset) ∨
        id = mrid ∧ ∃ b < m.size >>> sbOrder, offset = b <<< sbOrder)
    (honce : ∀ g g' id offset, words g = .page id offset → words g' = .page id offset → g = g') :
    AllocInv sbOrder (Function.update reserve mrid r)
      { s.setMr mrid m' with remotePage := words } where
  memreg := by
    intro id mr hid
    by_cases heq : id = mrid
    · subst heq
      simp only [RemoteMem.memregs_setMr, Function.update_self, Option.some.injEq] at hid
      rw [← hid, Function.update_self]
      exact hreg
    · simp only [RemoteMem.memregs_setMr, Function.update_of_ne heq] at hid
      rw [Function.update_of_ne heq]
      have hold := H.memreg id mr hid
      refine ⟨hold.id_eq, hold.dmaOrder_eq, hold.dvd_size, ?_, hold.allocLen_eq,
        hold.freeStart_le, hold.below_freeStart⟩
      intro b hb
      rw [hold.cleared_iff b hb]
      exact hother id _ heq
  inside := by
    intro g id offset hg
    have hold : ∃ mr, s.memregs id = some mr ∧ ∃ b < mr.size >>> sbOrder,
        offset = b <<< sbOrder := by
      rcases hinside g id offset hg with ⟨g', hg'⟩ | ⟨rfl, hb⟩
      · exact H.inside g' id offset hg'
      · exact ⟨m, hm, hb⟩
    obtain ⟨mr, hmr, hb⟩ := hold
    by_cases heq : id = mrid
    · subst heq
      rw [hm, Option.some.injEq] at hmr
      refine ⟨m', by simp, ?_⟩
      rw [hsize, hmr]
      exact hb
    · exact ⟨mr, by simp [heq, hmr], hb⟩
  once := honce
  lt_last := by
    intro id hid
    by_cases heq : id = mrid
    · subst heq
      exact H.lt_last id (by simp [hm])
    · exact H.lt_last id (by simpa [heq] using hid)
  lastAlloc_lt := H.lastAlloc_lt

/-- Raising or lowering `alloc_len` by whole subblocks changes the reserve. -/
theorem allocInv_addAllocLen (H : AllocInv sbOrder reserve s) (hm : s.memregs mrid = some m)
    {r : ℕ} {n : ℤ} (hr : (((reserve mrid) <<< sbOrder : ℕ) : ℤ) + n = (r <<< sbOrder : ℕ)) :
    AllocInv sbOrder (Function.update reserve mrid r) (addAllocLen s mrid n) := by
  have hreg := H.memreg mrid m hm
  unfold addAllocLen
  rw [RemoteMem.mr_eq hm]
  refine allocInv_setMr H hm rfl ⟨hreg.id_eq, hreg.dmaOrder_eq, hreg.dvd_size,
    hreg.cleared_iff, ?_, hreg.freeStart_le, hreg.below_freeStart⟩ (fun _ _ _ => Iff.rfl)
    (fun g _ _ hg => Or.inl ⟨g, hg⟩) H.once
  rw [hreg.allocLen_eq]
  simp only [Nat.shiftLeft_eq, Nat.add_mul, Nat.cast_add] at hr ⊢
  omega

/-- What the two searches find is a set bit of the bitmap. -/
theorem findFree_spec (h : findFree m sbOrder ≠ m.size >>> sbOrder) :
    m.allocBitmap (findFree m sbOrder) = true ∧ findFree m sbOrder < m.size >>> sbOrder := by
  unfold findFree at h ⊢
  by_cases hnext : findNextBit m.allocBitmap (m.size >>> sbOrder) m.allocNext =
      m.size >>> sbOrder
  · simp only [hnext, if_true] at h ⊢
    exact ⟨(findNextBit_spec h).1, (findNextBit_spec h).2.2⟩
  · simp only [if_neg hnext] at h ⊢
    exact ⟨(findNextBit_spec h).1, (findNextBit_spec h).2.2⟩

/-- Under the invariant they fail only in a used-up region: every set bit is at or
after `free_start`. -/
theorem MemregInv.findFree_ne {id r : ℕ} {words : ℕ → RemotePage}
    (H : MemregInv sbOrder words id r m)
    (hroom : cleared m.allocBitmap (m.size >>> sbOrder) < m.size >>> sbOrder) :
    findFree m sbOrder ≠ m.size >>> sbOrder := by
  unfold findFree
  by_cases hnext : findNextBit m.allocBitmap (m.size >>> sbOrder) m.allocNext =
      m.size >>> sbOrder
  · obtain ⟨b, hbn, hb⟩ := exists_set_of_cleared_lt hroom
    have hstart : m.freeStart ≤ b := by
      by_contra hlt
      rw [H.below_freeStart b (not_le.mp hlt)] at hb
      exact Bool.false_ne_true hb
    simp only [hnext, if_true]
    exact findNextBit_ne hb hstart hbn
  · simpa only [if_neg hnext] using hnext

/-- Taking a page that was reserved. -/
theorem allocInv_takeOffset (H : AllocInv sbOrder reserve s) (hm : s.memregs mrid = some m)
    (hfree : s.remotePage g = .free) {r offset : ℕ} (hr : reserve mrid = r + 1)
    (hbit : m.allocBitmap offset = true) (hlt : offset < m.size >>> sbOrder) :
    AllocInv sbOrder (Function.update reserve mrid r) (takeOffset s sbOrder mrid g offset) := by
  have hreg := H.memreg mrid m hm
  have hnew : ∀ g', s.remotePage g' ≠ .page mrid (offset <<< sbOrder) := by
    intro g' hg'
    rw [(hreg.cleared_iff offset hlt).mpr ⟨g', hg'⟩] at hbit
    exact Bool.false_ne_true hbit
  unfold takeOffset
  rw [RemoteMem.mr_eq hm, hreg.id_eq]
  refine allocInv_setMr H hm rfl ⟨hreg.id_eq, hreg.dmaOrder_eq, hreg.dvd_size, ?_, ?_, ?_, ?_⟩ ?_ ?_ ?_
  · intro b hb
    by_cases heq : b = offset
    · subst heq
      simp only [clearOffset, Function.update_self, true_iff]
      exact ⟨g, by simp⟩
    · simp only [clearOffset, Function.update_of_ne heq]
      rw [hreg.cleared_iff b hb]
      constructor
      · rintro ⟨g', hg'⟩
        have hne : g' ≠ g := by rintro rfl; rw [hfree] at hg'; cases hg'
        exact ⟨g', (Function.update_of_ne hne _ _).trans hg'⟩
      · rintro ⟨g', hg'⟩
        by_cases hgg : g' = g
        · subst hgg
          simp only [Function.update_self, RemotePage.page.injEq, true_and] at hg'
          exact absurd (shiftLeft_inj hg').symm heq
        · exact ⟨g', by rwa [Function.update_of_ne hgg] at hg'⟩
  · simp only [clearOffset]
    rw [hreg.allocLen_eq, cleared_clear hlt hbit, hr]
    congr 2
    omega
  · simp only [clearOffset]
    split
    · omega
    · exact hreg.freeStart_le
  · intro b hb
    simp only [clearOffset] at hb ⊢
    by_cases heq : b = offset
    · simp [heq]
    · rw [Function.update_of_ne heq]
      apply hreg.below_freeStart
      split at hb
      · omega
      · exact hb
  · intro id b hid
    constructor
    · rintro ⟨g', hg'⟩
      have hne : g' ≠ g := by rintro rfl; rw [hfree] at hg'; cases hg'
      exact ⟨g', (Function.update_of_ne hne _ _).trans hg'⟩
    · rintro ⟨g', hg'⟩
      by_cases hgg : g' = g
      · subst hgg
        simp only [Function.update_self, RemotePage.page.injEq] at hg'
        exact absurd hg'.1.symm hid
      · exact ⟨g', by rwa [Function.update_of_ne hgg] at hg'⟩
  · intro g' id offset' hg'
    by_cases hgg : g' = g
    · subst hgg
      simp only [Function.update_self, RemotePage.page.injEq] at hg'
      exact Or.inr ⟨hg'.1.symm, offset, hlt, hg'.2.symm⟩
    · exact Or.inl ⟨g', by rwa [Function.update_of_ne hgg] at hg'⟩
  · intro g₁ g₂ id offset' h₁ h₂
    by_cases e₁ : g₁ = g <;> by_cases e₂ : g₂ = g
    · rw [e₁, e₂]
    · subst e₁
      rw [Function.update_self] at h₁
      rw [Function.update_of_ne e₂, ← h₁] at h₂
      exact absurd h₂ (hnew g₂)
    · subst e₂
      rw [Function.update_self] at h₂
      rw [Function.update_of_ne e₁, ← h₂] at h₁
      exact absurd h₁ (hnew g₁)
    · rw [Function.update_of_ne e₁] at h₁
      rw [Function.update_of_ne e₂] at h₂
      exact H.once g₁ g₂ id offset' h₁ h₂

/-- Releasing the page of one descriptor. -/
theorem allocInv_freeRemotePage (H : AllocInv sbOrder reserve s) (g : ℕ) :
    AllocInv sbOrder reserve (freeRemotePage s g) := by
  unfold freeRemotePage
  cases hw : s.remotePage g with
  | free => exact H
  | page mrid offset =>
      obtain ⟨m, hm, b, hb, rfl⟩ := H.inside g mrid offset hw
      have hreg := H.memreg mrid m hm
      have hbit : m.allocBitmap b = false := (hreg.cleared_iff b hb).mpr ⟨g, hw⟩
      have hkeep : ∀ g' id o, Function.update s.remotePage g .free g' = .page id o →
          g' ≠ g ∧ s.remotePage g' = .page id o := by
        intro g' id o hg'
        by_cases hgg : g' = g
        · subst hgg
          simp at hg'
        · exact ⟨hgg, by rwa [Function.update_of_ne hgg] at hg'⟩
      have hres : Function.update reserve mrid (reserve mrid) = reserve :=
        Function.update_eq_self _ _
      simp only [RemoteMem.mr_eq hm, hreg.dmaOrder_eq, shiftLeft_shiftRight]
      rw [← hres]
      refine allocInv_setMr H hm rfl
        ⟨hreg.id_eq, rfl, hreg.dvd_size, ?_, ?_, ?_, ?_⟩ ?_ ?_ ?_
      · intro b' hb'
        by_cases heq : b' = b
        · subst heq
          simp only [Function.update_self, Bool.true_eq_false, false_iff]
          rintro ⟨g', hg'⟩
          obtain ⟨hne, hold⟩ := hkeep g' _ _ hg'
          exact hne (H.once g' g _ _ hold hw)
        · simp only [Function.update_of_ne heq]
          rw [hreg.cleared_iff b' hb']
          constructor
          · rintro ⟨g', hg'⟩
            have hne : g' ≠ g := by
              rintro rfl
              rw [hw, RemotePage.page.injEq] at hg'
              exact heq (shiftLeft_inj hg'.2).symm
            exact ⟨g', (Function.update_of_ne hne _ _).trans hg'⟩
          · rintro ⟨g', hg'⟩
            exact ⟨g', (hkeep g' _ _ hg').2⟩
      · have hcount := cleared_set hb hbit
        simp only
        rw [hreg.allocLen_eq, ← hcount]
        simp only [Nat.shiftLeft_eq, Nat.add_mul, Nat.cast_add]
        omega
      · simp only
        split
        · omega
        · exact hreg.freeStart_le
      · intro b' hb'
        simp only at hb' ⊢
        have hlt : b' < m.freeStart ∧ b' ≠ b := by
          split at hb' <;> omega
        rw [Function.update_of_ne hlt.2]
        exact hreg.below_freeStart b' hlt.1
      · intro id o hid
        constructor
        · rintro ⟨g', hg'⟩
          have hne : g' ≠ g := by
            rintro rfl
            rw [hw, RemotePage.page.injEq] at hg'
            exact hid hg'.1.symm
          exact ⟨g', (Function.update_of_ne hne _ _).trans hg'⟩
        · rintro ⟨g', hg'⟩
          exact ⟨g', (hkeep g' _ _ hg').2⟩
      · intro g' id o hg'
        exact Or.inl ⟨g', (hkeep g' _ _ hg').2⟩
      · intro g₁ g₂ id o h₁ h₂
        exact H.once g₁ g₂ id o (hkeep g₁ _ _ h₁).2 (hkeep g₂ _ _ h₂).2

end Step

end Emp
