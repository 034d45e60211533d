import Emp.Madvise.Prefetch
import Mathlib.Logic.Relation

/-!
# Free pages of a guest

A guest reports the frames that it does not use.  `emp_mark_free_pages` walks them with a cursor
in guest frame numbers and marks the blocks that it comes upon as stale, so that their contents
are neither written back nor fetched.  A frame is found through a memslot of KVM, the vmr of its
host address, and the memory regions that the VMM has registered.

Addresses are page numbers, but for the bytes of the registered regions.  No slot reaches near
2^64, so frame numbers are not reduced.

## Main definitions

* `GuestSpace`, `GuestSpace.look` — the memory of a guest, and what the walk finds at a frame.
* `GuestSpace.empMarkFreePages` — the walk.
* `GuestSpace.Inside` — the pages of a block lie in the range.
* `GuestSpace.Kept` — when that holds of every block that is marked.
-/

namespace Emp

/-- A `struct kvm_memory_slot`; `invalid` is `KVM_MEMSLOT_INVALID`. -/
structure KvmMemorySlot where
  baseGfn : ℕ
  npages : ℕ
  userspaceAddr : ℕ
  invalid : Bool
  deriving DecidableEq, Repr

/-- An entry of `ekvm.memslot`, in bytes. -/
structure MemRegion where
  hva : ℕ
  gpa : ℕ
  size : ℕ
  base : ℕ
  deriving DecidableEq, Repr

/-- The address space of the VMM, `gfn_to_memslot`, and the registered regions. -/
structure GuestSpace where
  space : MadvSpace
  memslot : ℕ → Option KvmMemorySlot
  regions : List MemRegion

/-- What the walk finds at a frame: nothing that it can go on with, a slot without a descriptor
and the frame behind it, or a block. -/
inductive FreeLook
  | failed
  | untouched (next : ℕ)
  | block (b : MadvBlock)
  deriving DecidableEq, Repr

/-- The head of a block. -/
structure FreeBlock where
  rState : BlockState
  stale : Bool
  dirty : Bool
  mapped : Bool
  deriving DecidableEq, Repr

/-- The blocks, those that have been marked, and the count that is returned. -/
structure FreeRun where
  block : MadvBlock → FreeBlock
  marked : List MadvBlock
  reclaimed : ℕ

namespace FreeBlock

variable (k : FreeBlock)

/-- The pages of a block that is being fetched cannot be reclaimed. -/
def reclaims : Bool :=
  k.rState = .init ∨ k.rState = .inactive ∨ k.rState = .active ∨ k.rState = .wb

/-- The branches over the state of a block; `pteDirty` if the entries that `unmap_gpas` takes
down are dirty. -/
def mark (pteDirty : Bool) : FreeBlock :=
  match k.rState with
  | .init => { k with stale := true }
  | .inactive => { k with stale := true, dirty := false }
  | .active => { k with stale := true, dirty := k.mapped && pteDirty, mapped := false }
  | .wb => { k with stale := true }
  | _ => k

end FreeBlock

namespace GuestSpace

variable (w : GuestSpace)

/-- `__gfn_to_hva_memslot`. -/
def hvaIn (m : KvmMemorySlot) (gfn : ℕ) : ℕ := m.userspaceAddr + (gfn - m.baseGfn)

/-- The host page of a frame. -/
def hva (gfn : ℕ) : Option ℕ := (w.memslot gfn).map fun m => hvaIn m gfn

/-- `__hva_to_gfn`; without a region for the address the kernel stops in a `BUG`. -/
def hvaToGpn (v : MadvVmr) (hva : ℕ) : Option ℕ :=
  if w.regions = [] then some (hva - v.vmStart)
  else (w.regions.find? fun r => r.hva ≤ hva * 4096 && hva * 4096 < r.hva + r.size).map
    fun r => (hva * 4096 - r.hva + r.gpa) / 4096

/-- `__gpn_offset`. -/
def gpnOffset (gpn : ℕ) : Option ℕ :=
  if w.regions = [] then some gpn
  else (w.regions.find? fun r =>
    r.gpa / 4096 ≤ gpn && gpn < r.gpa / 4096 + r.size / 4096).map
      fun r => gpn - r.gpa / 4096 + r.base

/-- `req_offset`. -/
def reqOffset (v : MadvVmr) (hva : ℕ) : Option ℕ :=
  ((w.hvaToGpn v hva).bind w.gpnOffset).map (· / 2 ^ w.space.sbOrder)

/-- The lookups of a turn. -/
def look (gfn : ℕ) : FreeLook :=
  match w.memslot gfn with
  | none => .failed
  | some m =>
    if m.invalid then .failed
    else
      match w.space.empVmrFindHva (hvaIn m gfn) with
      | none => .failed
      | some v =>
        match w.reqOffset v (hvaIn m gfn) with
        | none => .failed
        | some idx =>
          if (w.space.desc v.desc).backing.gpaLen ≤ idx then .failed
          else
            match w.space.lookup false v.desc idx with
            | some b => .block b
            | none =>
              match (w.space.desc v.desc).backing.getGpadescRegion idx with
              | none => .failed
              | some r => .untouched (gfn - gfn % 2 ^ r.allocOrder + 2 ^ r.allocOrder)

/-- `gpa_block_size`. -/
def blockSize (b : MadvBlock) : ℕ := b.size * 2 ^ w.space.sbOrder

/-- `gfn_end`, in 64 bits. -/
def gfnEnd (gfn : ℕ) (numPages : ℤ) : ℕ := ((gfn + numPages) % 2 ^ 64).toNat

/-- The loop of `emp_mark_free_pages`; it runs alone, and every lock is granted. -/
def markLoop (pteDirty : MadvBlock → Bool) (gfnEnd : ℕ) : ℕ → ℕ → FreeRun → Option FreeRun
  | 0, _, _ => none
  | turns + 1, gfn, st =>
    if gfn < gfnEnd then
      match w.look gfn with
      | .failed => some st
      | .untouched next => markLoop pteDirty gfnEnd turns next st
      | .block b =>
        if gfnEnd < gfn + w.blockSize b then some st
        else if (st.block b).reclaims then
          markLoop pteDirty gfnEnd turns (gfn + w.blockSize b)
            { block := Function.update st.block b ((st.block b).mark (pteDirty b))
              marked := st.marked ++ [b]
              reclaimed := st.reclaimed + w.blockSize b }
        else markLoop pteDirty gfnEnd turns (gfn + w.blockSize b) st
    else some st

def empMarkFreePages (pteDirty : MadvBlock → Bool) (gfn : ℕ) (numPages : ℤ) (turns : ℕ)
    (block : MadvBlock → FreeBlock) : Option FreeRun :=
  w.markLoop pteDirty (gfnEnd gfn numPages) turns gfn ⟨block, [], 0⟩

/-- The page is the host page of a frame of the range. -/
def InRange (gfn : ℕ) (numPages : ℤ) (p : ℕ) : Prop :=
  ∃ f, gfn ≤ f ∧ (f : ℤ) < gfn + numPages ∧ w.hva f = some p

/-- All pages of the block lie in the range. -/
def Inside (gfn : ℕ) (numPages : ℤ) (b : MadvBlock) : Prop :=
  ∀ p, w.space.blockAt false p = some b → w.InRange gfn numPages p

/-- The frame to which the cursor goes next. -/
def next (gfnEnd gfn : ℕ) : Option ℕ :=
  match w.look gfn with
  | .failed => none
  | .untouched n => some n
  | .block b => if gfnEnd < gfn + w.blockSize b then none else some (gfn + w.blockSize b)

/-- The cursor gets from one frame of the range to another. -/
def Lands (gfnEnd : ℕ) : ℕ → ℕ → Prop :=
  Relation.ReflTransGen fun g g' => g < gfnEnd ∧ w.next gfnEnd g = some g'

/-- The block is at the frame, fits behind it in the range, and is not being fetched. -/
def Marks (gfnEnd : ℕ) (block : MadvBlock → FreeBlock) (g : ℕ) (b : MadvBlock) : Prop :=
  g < gfnEnd ∧ w.look g = .block b ∧ g + w.blockSize b ≤ gfnEnd ∧ (block b).reclaims

/-- The page is found in the slot of a frame `g` without going below the range, nor further up
than the size of the block. -/
def InWindow (gfn : ℕ) (numPages : ℤ) (g : ℕ) (b : MadvBlock) (p : ℕ) : Prop :=
  0 ≤ numPages ∧ ∃ f, gfn ≤ f ∧ f < g + w.blockSize b ∧ w.memslot f = w.memslot g ∧
    w.hva f = some p

/-- No block that the cursor comes upon, and that is marked, has pages in front of the range,
outside the slot of the frame, or elsewhere, unless they belong to other frames of the range. -/
def Kept (gfn : ℕ) (numPages : ℤ) (block : MadvBlock → FreeBlock) : Prop :=
  ∀ g b, w.Lands (gfnEnd gfn numPages) gfn g → w.Marks (gfnEnd gfn numPages) block g b →
    ∀ p, w.space.blockAt false p = some b →
      w.InWindow gfn numPages g b p ∨ w.InRange gfn numPages p

variable {w} {pteDirty : MadvBlock → Bool} {gfn turns z g : ℕ} {numPages : ℤ}
  {block : MadvBlock → FreeBlock} {b : MadvBlock} {st : FreeRun}

@[simp] theorem rState_mark (k : FreeBlock) (d : Bool) : (k.mark d).rState = k.rState := by
  rw [FreeBlock.mark]
  split <;> rfl

theorem reclaims_mark (k : FreeBlock) (d : Bool) : (k.mark d).reclaims = k.reclaims := by
  rw [FreeBlock.reclaims, FreeBlock.reclaims, rState_mark]

theorem stale_mark {k : FreeBlock} {d : Bool} (h : k.reclaims) : (k.mark d).stale = true := by
  obtain ⟨rState, stale, dirty, mapped⟩ := k
  cases rState <;> first | rfl | cases h

/-! ### One turn -/

/-- What a turn finds. -/
theorem look_cases (w : GuestSpace) (g : ℕ) : w.look g = .failed ∨
    ∃ m v idx, w.memslot g = some m ∧ w.space.empVmrFindHva (hvaIn m g) = some v ∧
      w.reqOffset v (hvaIn m g) = some idx ∧ idx < (w.space.desc v.desc).backing.gpaLen ∧
        ((∃ o, w.look g = .untouched (g - g % 2 ^ o + 2 ^ o)) ∨
          ∃ b, w.space.lookup false v.desc idx = some b ∧ w.look g = .block b) := by
  cases hm : w.memslot g with
  | none => exact .inl (by simp only [look, hm])
  | some m =>
      cases hinvalid : m.invalid with
      | true => exact .inl (by simp only [look, hm, hinvalid, if_true])
      | false =>
          cases hv : w.space.empVmrFindHva (hvaIn m g) with
          | none =>
              exact .inl (by simp only [look, hm, hinvalid, Bool.false_eq_true, if_false, hv])
          | some v =>
              cases hidx : w.reqOffset v (hvaIn m g) with
              | none =>
                  refine .inl ?_
                  simp only [look, hm, hinvalid, Bool.false_eq_true, if_false, hv, hidx]
              | some idx =>
                  have hlook : w.look g =
                      if (w.space.desc v.desc).backing.gpaLen ≤ idx then .failed
                      else
                        match w.space.lookup false v.desc idx with
                        | some b => .block b
                        | none =>
                          match (w.space.desc v.desc).backing.getGpadescRegion idx with
                          | none => .failed
                          | some r => .untouched (g - g % 2 ^ r.allocOrder + 2 ^ r.allocOrder) := by
                    simp only [look, hm, hinvalid, Bool.false_eq_true, if_false, hv, hidx]
                  by_cases hlen : (w.space.desc v.desc).backing.gpaLen ≤ idx
                  · exact .inl (by rw [hlook, if_pos hlen])
                  · rw [if_neg hlen] at hlook
                    have hin := not_le.mp hlen
                    cases hb : w.space.lookup false v.desc idx with
                    | some b =>
                        simp only [hb] at hlook
                        exact .inr ⟨m, v, idx, rfl, hv, hidx, hin, .inr ⟨b, hb, hlook⟩⟩
                    | none =>
                        simp only [hb] at hlook
                        cases hr : (w.space.desc v.desc).backing.getGpadescRegion idx with
                        | none =>
                            simp only [hr] at hlook
                            exact .inl hlook
                        | some r =>
                            simp only [hr] at hlook
                            exact .inr ⟨m, v, idx, rfl, hv, hidx, hin, .inl ⟨r.allocOrder, hlook⟩⟩

theorem blockSize_pos (h : w.space.Inv) (hlook : w.look g = .block b) : 0 < w.blockSize b := by
  rcases look_cases w g with hfail | ⟨m, v, idx, -, hv, -, hlen, ⟨o, hskip⟩ | ⟨d, hd, hblock⟩⟩
  · rw [hlook] at hfail
    cases hfail
  · rw [hlook] at hskip
    cases hskip
  · rw [hlook] at hblock
    obtain rfl := FreeLook.block.inj hblock
    have hmem := (MadvSpace.mem_of_find hv).1
    obtain ⟨hle, hlt, -⟩ := MadvSpace.lookup_run (h.desc v hmem) hlen hd
    exact Nat.mul_pos (by omega) (Nat.two_pow_pos _)

/-- The cursor moves up. -/
theorem lt_next (h : w.space.Inv) {g' : ℕ} (hn : w.next z g = some g') : g < g' := by
  rw [next] at hn
  cases hlook : w.look g with
  | failed => simp only [hlook, reduceCtorEq] at hn
  | untouched n =>
      simp only [hlook, Option.some.injEq] at hn
      subst hn
      rcases look_cases w g with hfail | ⟨m, v, idx, -, -, -, -, ⟨o, hskip⟩ | ⟨d, -, hblock⟩⟩
      · rw [hlook] at hfail
        cases hfail
      · rw [hlook] at hskip
        obtain rfl := FreeLook.untouched.inj hskip
        have hlt := Nat.mod_lt g (Nat.two_pow_pos o)
        have hle := Nat.mod_le g (2 ^ o)
        omega
      · rw [hlook] at hblock
        cases hblock
  | block b =>
      have hpos := blockSize_pos h hlook
      simp only [hlook] at hn
      split_ifs at hn
      obtain rfl := Option.some.inj hn
      omega

/-! ### The walk -/

theorem le_of_lands (h : w.space.Inv) {g' : ℕ} (hlands : w.Lands z g g') : g ≤ g' := by
  induction hlands with
  | refl => exact le_rfl
  | tail _ hstep ih => exact ih.trans (lt_next h hstep.2).le

/-- The blocks that are marked from a frame on: the one at the frame, and those from the next
frame on. -/
theorem marks_iff : (∃ g', w.Lands z g g' ∧ w.Marks z block g' b) ↔
    w.Marks z block g b ∨
      ∃ n, g < z ∧ w.next z g = some n ∧ ∃ g', w.Lands z n g' ∧ w.Marks z block g' b := by
  refine ⟨?_, ?_⟩
  · rintro ⟨g', hlands, hmarks⟩
    rcases Relation.ReflTransGen.cases_head hlands with rfl | ⟨n, ⟨hlt, hn⟩, hrest⟩
    · exact .inl hmarks
    · exact .inr ⟨n, hlt, hn, g', hrest, hmarks⟩
  · rintro (hmarks | ⟨n, hlt, hn, g', hrest, hmarks⟩)
    · exact ⟨g, .refl, hmarks⟩
    · exact ⟨g', .head ⟨hlt, hn⟩ hrest, hmarks⟩

/-- What a walk has marked so far. -/
structure Marked (block : MadvBlock → FreeBlock) (st : FreeRun) : Prop where
  reclaims : ∀ b, (st.block b).reclaims = (block b).reclaims
  stale : ∀ b ∈ st.marked, (st.block b).stale = true
  same : ∀ b, b ∉ st.marked → st.block b = block b

theorem Marked.cons (hst : Marked block st) (hrec : (st.block b).reclaims) (d : Bool) (n : ℕ) :
    Marked block ⟨Function.update st.block b ((st.block b).mark d), st.marked ++ [b], n⟩ := by
  obtain ⟨hreclaims, hstale, hsame⟩ := hst
  refine ⟨fun c => ?_, fun c hc => ?_, fun c hc => ?_⟩
  · by_cases hcb : c = b
    · subst hcb
      simp only [Function.update_self]
      rw [reclaims_mark, hreclaims c]
    · simp only [Function.update_of_ne hcb]
      exact hreclaims c
  · by_cases hcb : c = b
    · subst hcb
      simp only [Function.update_self]
      exact stale_mark hrec
    · simp only [Function.update_of_ne hcb]
      refine hstale c ?_
      simpa [hcb] using hc
  · obtain ⟨hold, hcb⟩ : c ∉ st.marked ∧ c ≠ b := by simpa using hc
    simp only [Function.update_of_ne hcb]
    exact hsame c hold

/-- The walk ends.  It marks the blocks that the cursor comes upon. -/
theorem markLoop_spec (h : w.space.Inv) (pteDirty : MadvBlock → Bool) (g : ℕ)
    (hst : Marked block st) (hturns : z - g < turns) :
    ∃ fin, w.markLoop pteDirty z turns g st = some fin ∧ Marked block fin ∧
      ∀ b, b ∈ fin.marked ↔
        b ∈ st.marked ∨ ∃ g', w.Lands z g g' ∧ w.Marks z block g' b := by
  induction turns generalizing g st with
  | zero => omega
  | succ turns ih =>
      rw [markLoop]
      by_cases hlt : g < z
      · rw [if_pos hlt]
        have hnone : w.next z g = none → (∀ b, ¬ w.Marks z block g b) →
            ∀ b, b ∈ st.marked ↔ b ∈ st.marked ∨ ∃ g', w.Lands z g g' ∧ w.Marks z block g' b := by
          intro hn hmarks b
          rw [marks_iff]
          refine ⟨.inl, fun hb => hb.elim id fun hb => ?_⟩
          rcases hb with hb | ⟨n, -, hn', -⟩
          · exact absurd hb (hmarks b)
          · rw [hn] at hn'
            cases hn'
        have hmove : ∀ n st', w.next z g = some n → Marked block st' →
            (∀ b, b ∈ st'.marked ↔ b ∈ st.marked ∨ w.Marks z block g b) →
              ∃ fin, w.markLoop pteDirty z turns n st' = some fin ∧ Marked block fin ∧
                ∀ b, b ∈ fin.marked ↔
                  b ∈ st.marked ∨ ∃ g', w.Lands z g g' ∧ w.Marks z block g' b := by
          intro n st' hn hst' hmarked
          have hup := lt_next h hn
          obtain ⟨fin, hfin, hst'', hiff⟩ := ih (g := n) hst' (by omega)
          refine ⟨fin, hfin, hst'', fun b => ?_⟩
          rw [hiff, hmarked, marks_iff (g := g), or_assoc]
          refine or_congr_right (or_congr_right ⟨fun hb => ⟨n, hlt, hn, hb⟩, ?_⟩)
          rintro ⟨n', -, hn', hb⟩
          rwa [Option.some.inj (hn.symm.trans hn')]
        cases hlook : w.look g with
        | failed =>
            refine ⟨st, rfl, hst, hnone (by rw [next, hlook]) fun b hb => ?_⟩
            have hbad := hlook.symm.trans hb.2.1
            cases hbad
        | untouched n =>
            refine hmove n st (by rw [next, hlook]) hst fun b => ⟨.inl, fun hb => hb.elim id ?_⟩
            intro hb
            have hbad := hlook.symm.trans hb.2.1
            cases hbad
        | block b =>
            have hself : ∀ c, w.Marks z block g c → c = b := fun c hc =>
              (FreeLook.block.inj (hlook.symm.trans hc.2.1)).symm
            by_cases hfit : z < g + w.blockSize b
            · simp only [if_pos hfit]
              refine ⟨st, rfl, hst, hnone (by simp only [next, hlook, if_pos hfit]) fun c hc => ?_⟩
              obtain rfl := hself c hc
              exact absurd hc.2.2.1 (not_le.mpr hfit)
            · have hn : w.next z g = some (g + w.blockSize b) := by
                simp only [next, hlook, if_neg hfit]
              simp only [if_neg hfit]
              by_cases hrec : (st.block b).reclaims = true
              · rw [if_pos hrec]
                refine hmove _ _ hn (hst.cons hrec _ _) fun c => ?_
                simp only [List.mem_append, List.mem_singleton]
                refine or_congr_right ⟨fun hc => ?_, hself c⟩
                rw [hc]
                exact ⟨hlt, hlook, not_lt.mp hfit, (hst.reclaims b).symm.trans hrec⟩
              · rw [if_neg hrec]
                refine hmove _ _ hn hst fun c => ⟨.inl, fun hc => hc.elim id fun hc => ?_⟩
                obtain rfl := hself c hc
                exact absurd ((hst.reclaims c).trans hc.2.2.2) hrec
      · rw [if_neg hlt]
        refine ⟨st, rfl, hst, fun b => ⟨.inl, fun hb => hb.elim id fun hb => ?_⟩⟩
        rcases marks_iff.mp hb with hmarks | ⟨n, hlt', -⟩
        · exact absurd hmarks.1 hlt
        · exact absurd hlt' hlt

/-- The slots do not overlap and no page has two frames, the registered regions give every frame
the index of its page, blocks have no gaps, and a slot holds the blocks of its pages whole. -/
structure Placed (w : GuestSpace) : Prop where
  inside : ∀ g m, w.memslot g = some m → m.baseGfn ≤ g ∧ m.invalid = false
  same : ∀ g m, w.memslot g = some m → ∀ f, m.baseGfn ≤ f → f < m.baseGfn + m.npages →
    w.memslot f = some m
  alone : ∀ f g p, w.hva f = some p → w.hva g = some p → f = g
  index : ∀ g m v, w.memslot g = some m → w.space.empVmrFindHva (hvaIn m g) = some v →
    w.reqOffset v (hvaIn m g) = some (w.space.indexOf v.desc (hvaIn m g))
  run : ∀ p q r b, w.space.blockAt false p = some b → w.space.blockAt false r = some b →
    p ≤ q → q ≤ r → w.space.blockAt false q = some b
  whole : ∀ g m b p, w.memslot g = some m → w.space.blockAt false (hvaIn m g) = some b →
    w.space.blockAt false p = some b → m.userspaceAddr ≤ p ∧ p < m.userspaceAddr + m.npages

theorem Placed.look_eq (h : w.space.Inv) (hp : w.Placed) {m : KvmMemorySlot}
    (hm : w.memslot g = some m) :
    w.look g = .block b ↔ w.space.blockAt false (hvaIn m g) = some b := by
  rw [MadvSpace.blockAt_eq_some]
  refine ⟨fun hlook => ?_, ?_⟩
  · rcases look_cases w g with hfail | ⟨m', v, idx, hm', hv, hidx, -, ⟨o, hskip⟩ | ⟨d, hd, hblock⟩⟩
    · exact absurd (hfail.symm.trans hlook) nofun
    · exact absurd (hskip.symm.trans hlook) nofun
    · obtain rfl := Option.some.inj (hm.symm.trans hm')
      obtain rfl := FreeLook.block.inj (hblock.symm.trans hlook)
      obtain rfl := Option.some.inj (hidx.symm.trans (hp.index g m v hm hv))
      exact ⟨v, hv, hd⟩
  · rintro ⟨v, hv, hb⟩
    obtain ⟨hmem, hle, hlt⟩ := MadvSpace.mem_of_find hv
    have hlen := h.indexOf_lt hmem hle hlt
    simp only [look, hm, (hp.inside g m hm).2, Bool.false_eq_true, if_false, hv,
      hp.index g m v hm hv, if_neg (not_le.mpr hlen), hb]

/-- The pages of a block are less than its size apart. -/
theorem page_lt (h : w.space.Inv) {p q : ℕ} (hp : w.space.blockAt false p = some b)
    (hq : w.space.blockAt false q = some b) : q < p + w.blockSize b := by
  have hbounds : ∀ r, w.space.blockAt false r = some b →
      w.space.firstOf b * 2 ^ w.space.sbOrder ≤ r ∧
        r < (w.space.firstOf b + b.size) * 2 ^ w.space.sbOrder := by
    intro r hr
    obtain ⟨v, hv, hb⟩ := MadvSpace.blockAt_eq_some.mp hr
    obtain ⟨hmem, hle, hlt⟩ := MadvSpace.mem_of_find hv
    obtain ⟨hin, hin', -⟩ :=
      MadvSpace.lookup_run (h.desc v hmem) (h.indexOf_lt hmem hle hlt) hb
    obtain ⟨hlow, hhigh⟩ := Backing.indexOf_spec (h.base_le hmem hle)
    have hfirst := Backing.gpnOffsetToHva_mono (m := (w.space.desc v.desc).backing) hin
    have hlast := Backing.gpnOffsetToHva_mono (m := (w.space.desc v.desc).backing)
      (Nat.succ_le_of_lt hin')
    rw [MadvSpace.firstOf, (MadvSpace.lookup_eq hb).1, Nat.add_assoc, ← h.hva_eq hmem,
      ← h.hva_eq hmem]
    exact ⟨hfirst.trans hlow, hhigh.trans_le hlast⟩
  obtain ⟨hlow, -⟩ := hbounds p hp
  obtain ⟨-, hhigh⟩ := hbounds q hq
  rw [Nat.add_mul] at hhigh
  rw [blockSize]
  omega

/-- Where the slots hold whole blocks, a range keeps its blocks if and only if it does not start
inside a block that is marked. -/
theorem kept_iff_start (h : w.space.Inv) (hp : w.Placed) (hnum : 0 ≤ numPages) :
    w.Kept gfn numPages block ↔ ∀ b, w.Marks (gfnEnd gfn numPages) block gfn b →
      ∀ p, w.space.blockAt false p = some b → ∀ q, w.hva gfn = some q → q ≤ p := by
  -- a page of a block has a frame in the slot of every page of the block
  have hframe : ∀ g m b p, w.memslot g = some m → w.look g = .block b →
      w.space.blockAt false p = some b → ∃ f, w.memslot f = some m ∧
        m.baseGfn ≤ f ∧ p = hvaIn m f := by
    intro g m b p hm hlook hb
    obtain ⟨hle, hlt⟩ := hp.whole g m b p hm ((hp.look_eq h hm).mp hlook) hb
    refine ⟨m.baseGfn + (p - m.userspaceAddr), ?_, Nat.le_add_right _ _, ?_⟩
    · exact hp.same g m hm _ (Nat.le_add_right _ _) (by omega)
    · rw [hvaIn]
      omega
  refine ⟨fun hkept b hmarks p hb q hq => ?_, fun hstart g b hlands hmarks p hb => ?_⟩
  · obtain ⟨m, hm, rfl⟩ := Option.map_eq_some_iff.mp hq
    obtain ⟨f, hf, hbase, rfl⟩ := hframe gfn m b p hm hmarks.2.1 hb
    have hge : gfn ≤ f := by
      rcases hkept gfn b .refl hmarks _ hb with ⟨-, f', hle, -, -, hpage⟩ | ⟨f', hle, -, hpage⟩
      · rwa [hp.alone f f' _ (by rw [hva, hf, Option.map_some]) hpage]
      · rwa [hp.alone f f' _ (by rw [hva, hf, Option.map_some]) hpage]
    rw [hvaIn, hvaIn]
    omega
  · obtain ⟨hlt, hlook, hfit, hrec⟩ := hmarks
    obtain ⟨m, hm⟩ : ∃ m, w.memslot g = some m := by
      rcases look_cases w g with hfail | ⟨m, -, -, hm, -⟩
      · exact absurd (hfail.symm.trans hlook) nofun
      · exact ⟨m, hm⟩
    obtain ⟨f, hf, hbase, rfl⟩ := hframe g m b p hm hlook hb
    have hself := (hp.look_eq h hm).mp hlook
    have hbase' := (hp.inside g m hm).1
    have hspan := page_lt h hself hb
    rw [hvaIn, hvaIn] at hspan
    by_cases hle : gfn ≤ f
    · exact .inl ⟨hnum, f, hle, by omega, hf.trans hm.symm, by rw [hva, hf, Option.map_some]⟩
    · -- the range starts inside the block
      have hge := le_of_lands h hlands
      have hlast := (hp.whole g m b _ hm hself hself).2
      rw [hvaIn] at hlast
      have hslot := hp.same g m hm gfn (by omega) (by omega)
      have hpage : w.space.blockAt false (hvaIn m gfn) = some b := by
        refine hp.run _ _ _ b hb hself ?_ ?_
        · rw [hvaIn, hvaIn]
          omega
        · rw [hvaIn, hvaIn]
          omega
      have hfirst : w.Marks (gfnEnd gfn numPages) block gfn b :=
        ⟨by omega, (hp.look_eq h hslot).mpr hpage, by omega, hrec⟩
      have hbad := hstart b hfirst _ hb (hvaIn m gfn) (by rw [hva, hslot, Option.map_some])
      rw [hvaIn, hvaIn] at hbad
      omega

/-- A guest of 64 frames on the mapping with one block. -/
def oneSlot : GuestSpace :=
  ⟨MadvCall.oneBlock, fun gfn => if gfn < 64 then some ⟨0, 64, 16, false⟩ else none,
    [⟨65536, 0, 262144, 0⟩]⟩

/-- Active blocks with contents. -/
def FreeBlock.used : FreeBlock := ⟨.active, false, true, true⟩

end GuestSpace

end Emp
