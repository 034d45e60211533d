import Emp.Els.Heads

/-!
# The address space that madvise walks

`emp_vmr_find_hva` finds the vmr that holds an address.  A vmr views a part of the directory of
its vmdesc; the vmrs that a split has made of one mapping share the vmdesc.  All directories
have subblocks of the same order, aligned in the address space, so the subblock number of an
address does not depend on the vmr.

Addresses are page numbers.

## Main definitions

* `MadvVmr`, `MadvSpace` — a vmr, and the vmrs of the process with their directories.
* `MadvSpace.blockAt` — the block that a walk finds at a page.
* `MadvSpace.probeLine` — the blocks that pages with the same offset in their subblocks find.
-/

namespace Emp

/-- A vmr with its vmdesc. -/
structure MadvVmr where
  vmStart : ℕ
  vmEnd : ℕ
  desc : ℕ
  deriving DecidableEq, Repr

/-- A block of a vmdesc: the index of its head, and its number of subblocks. -/
structure MadvBlock where
  desc : ℕ
  head : ℕ
  size : ℕ
  deriving DecidableEq, Repr

structure MadvSpace where
  sbOrder : ℕ
  vmrs : List MadvVmr
  desc : ℕ → Directory

namespace Backing

variable {m : Backing} {idx s o : ℕ}

/-- A group of more than one subblock lies inside the mapping. -/
theorem group_inside (hm : m.Valid) (hlen : idx < m.gpaLen) (hat : m.groupAt idx = some (s, o))
    (ho : o ≠ m.sbOrder) :
    m.vmStart ≤ m.gpnOffsetToHva s ∧ m.gpnOffsetToHva (s + 2 ^ (o - m.sbOrder)) ≤ m.vmEnd := by
  obtain ⟨s₁, o₁, hat₁, hle, hlt, hall⟩ := groupAt_spec hm hlen
  obtain ⟨rfl, rfl⟩ : s₁ = s ∧ o₁ = o := by simpa using hat₁.symm.trans hat
  have hpos := Nat.two_pow_pos (o₁ - m.sbOrder)
  have haligned : ∀ j, s₁ ≤ j → j < s₁ + 2 ^ (o₁ - m.sbOrder) →
      m.blockAlignedStart ≤ j ∧ j < m.blockAlignedEnd := by
    intro j hj hj'
    obtain ⟨hjlen, hjat⟩ := hall j hj hj'
    obtain ⟨r, hr, rfl, -⟩ := exists_region_of_groupAt hjat
    rw [allocOrder_eq hm hr hjlen] at ho
    by_contra hout
    exact ho (if_neg hout)
  have hfirst := (haligned s₁ le_rfl (by omega)).1
  have hlast := (haligned (s₁ + 2 ^ (o₁ - m.sbOrder) - 1) (by omega) (by omega)).2
  have hsb := Nat.two_pow_pos m.sbOrder
  have hsib := m.sibSize_pos
  refine ⟨?_, ?_⟩
  · rw [gpnOffsetToHva]
    by_cases hpartial : m.partialAtHead
    · have hone : 1 ≤ m.blockAlignedStart := by
        rw [blockAlignedStart, if_pos hpartial]
        have hmod := Nat.mod_lt m.sbStart hsib
        split_ifs <;> omega
      have hmul : 1 * 2 ^ m.sbOrder ≤ s₁ * 2 ^ m.sbOrder :=
        Nat.mul_le_mul_right _ (hone.trans hfirst)
      have hlow := lt_alignDown_add m.sbOrder m.vmStart
      rw [alignDown] at hlow
      rw [vmBase, sbStart]
      omega
    · have heq : m.vmStart = m.vmBase := by simpa [partialAtHead, vmBase] using hpartial
      omega
  · have htail : m.sbAtTail < m.gpaLen := by
      by_contra hno
      rw [blockAlignedEnd, if_neg hno] at hlast
      omega
    rw [blockAlignedEnd, if_pos htail, gpaLen] at hlast
    rw [gpaLen] at htail
    have hmul : (s₁ + 2 ^ (o₁ - m.sbOrder)) * 2 ^ m.sbOrder ≤
        (m.sbEnd - m.sbStart - m.sbAtTail) * 2 ^ m.sbOrder := Nat.mul_le_mul_right _ (by omega)
    have hsum : m.sbStart * 2 ^ m.sbOrder + (m.sbEnd - m.sbStart - m.sbAtTail) * 2 ^ m.sbOrder =
        (m.sbEnd - m.sbAtTail) * 2 ^ m.sbOrder := by
      rw [← Nat.add_mul]
      congr 1
      omega
    rw [gpnOffsetToHva, vmBase]
    by_cases hpartial : m.partialAtTail
    · have hone : 1 ≤ m.sbAtTail := by
        rw [sbAtTail]
        split_ifs with hzero
        · exact hsib
        · have hne : ¬ m.sbEnd % m.sibSize = 0 := fun h => hzero ⟨h, hpartial⟩
          omega
      have hmul' : (m.sbEnd - m.sbAtTail) * 2 ^ m.sbOrder ≤ (m.sbEnd - 1) * 2 ^ m.sbOrder :=
        Nat.mul_le_mul_right _ (by omega)
      have hend : (m.sbEnd - 1) * 2 ^ m.sbOrder ≤ m.vmEnd := by
        have hlow := alignDown_le m.sbOrder (m.vmEnd + 2 ^ m.sbOrder - 1)
        rw [alignDown] at hlow
        rw [Nat.sub_mul, one_mul, sbEnd]
        omega
      omega
    · have heq : m.vmEnd = m.sbEnd * 2 ^ m.sbOrder := by simpa [partialAtTail] using hpartial
      have hmul' : (m.sbEnd - m.sbAtTail) * 2 ^ m.sbOrder ≤ m.sbEnd * 2 ^ m.sbOrder :=
        Nat.mul_le_mul_right _ (Nat.sub_le ..)
      omega

end Backing

namespace Directory

/-- The block of a slot once `get_gpadesc` has populated it: a new group is one block. -/
def populatedBlockAt (d : Directory) (i : ℕ) : Option (ℕ × ℕ) :=
  match d.blockAt i with
  | some b => some b
  | none => (d.backing.groupAt i).map fun so => (so.1, 2 ^ (so.2 - d.backing.sbOrder))

/-- What a split has left at an address: its subblock is populated, and no block of several
subblocks lies around it. -/
structure CutAt (d : Directory) (a : ℕ) : Prop where
  populated : (d.gpaDir (d.backing.indexOf a)).isSome
  safe : d.SplitSafe a

variable {d : Directory} {i idx a : ℕ} {b : ℕ × ℕ}

theorem Inv.populated_spec (h : d.Inv) (hlen : i < d.backing.gpaLen)
    (hb : d.populatedBlockAt i = some b) :
    b.1 ≤ i ∧ i < b.1 + b.2 ∧ ∀ j, b.1 ≤ j → j < b.1 + b.2 → d.populatedBlockAt j = some b := by
  cases hat : d.blockAt i with
  | some b' =>
      simp only [populatedBlockAt, hat, Option.some.injEq] at hb
      subst hb
      obtain ⟨hle, hlt, hall⟩ := h.block_spec hat
      refine ⟨hle, hlt, fun j hj hj' => ?_⟩
      simp only [populatedBlockAt, hall j hj hj']
  | none =>
      simp only [populatedBlockAt, hat] at hb
      obtain ⟨⟨s, o⟩, hso, rfl⟩ := Option.map_eq_some_iff.mp hb
      obtain ⟨s₁, o₁, hat₁, hle, hlt, hall⟩ := Backing.groupAt_spec h.valid hlen
      obtain ⟨rfl, rfl⟩ : s₁ = s ∧ o₁ = o := by simpa using hat₁.symm.trans hso
      refine ⟨hle, hlt, fun j hj hj' => ?_⟩
      have hempty := h.empty hso hlen ((blockAt_eq_none h).mp hat) hj hj'
      simp only [populatedBlockAt, (blockAt_eq_none h).mpr hempty, (hall j hj hj').2,
        Option.map_some]

/-- A block lies on one side of a cut, unless it is a single subblock. -/
theorem CutAt.apart (h : d.Inv) (hcut : d.CutAt a) (hlow : d.backing.vmBase ≤ a)
    (hlen : i < d.backing.gpaLen) (hb : d.populatedBlockAt i = some b) (hsize : b.2 ≠ 1) :
    d.backing.gpnOffsetToHva (b.1 + b.2) ≤ a ∨ a ≤ d.backing.gpnOffsetToHva b.1 := by
  obtain ⟨hle, hlt, hall⟩ := h.populated_spec hlen hb
  by_contra hacross
  push Not at hacross
  cases hat : d.blockAt i with
  | some b' =>
      simp only [populatedBlockAt, hat, Option.some.injEq] at hb
      subst hb
      have hlast : b'.1 + b'.2 - 1 + 1 = b'.1 + b'.2 := by omega
      have hsame := hcut.safe.apart b'.1 (b'.1 + b'.2 - 1)
        (h.sameBlock hat le_rfl (by omega) (by omega) (by omega)) hacross.2 (by
          rw [hlast]
          exact hacross.1)
      omega
  | none =>
      simp only [populatedBlockAt, hat] at hb
      obtain ⟨⟨s, o⟩, hso, rfl⟩ := Option.map_eq_some_iff.mp hb
      -- the subblock of the cut would be empty with the group
      obtain ⟨hidx, hidx'⟩ := Backing.indexOf_spec hlow
      simp only at hacross
      have hpop := hcut.populated
      have hstart : s ≤ d.backing.indexOf a := by
        by_contra hlt
        have hmono := Backing.gpnOffsetToHva_mono (m := d.backing)
          (show d.backing.indexOf a + 1 ≤ s by omega)
        omega
      have hstop : d.backing.indexOf a < s + 2 ^ (o - d.backing.sbOrder) := by
        by_contra hge
        have hmono := Backing.gpnOffsetToHva_mono (m := d.backing) (not_lt.mp hge)
        omega
      rw [h.empty hso hlen ((blockAt_eq_none h).mp hat) hstart hstop] at hpop
      cases hpop

/-- A block of several subblocks lies inside the mapping. -/
theorem Inv.populated_inside (h : d.Inv) (hlen : i < d.backing.gpaLen)
    (hb : d.populatedBlockAt i = some b) (hsize : b.2 ≠ 1) :
    d.backing.vmStart ≤ d.backing.gpnOffsetToHva b.1 ∧
      d.backing.gpnOffsetToHva (b.1 + b.2) ≤ d.backing.vmEnd := by
  obtain ⟨start, o, hat, hle, hlt, -⟩ := Backing.groupAt_spec h.valid hlen
  have hin : start ≤ b.1 ∧ b.1 + b.2 ≤ start + 2 ^ (o - d.backing.sbOrder) := by
    cases hblock : d.blockAt i with
    | some b' =>
        simp only [populatedBlockAt, hblock, Option.some.injEq] at hb
        subst hb
        obtain ⟨⟨s, g⟩, hs, -⟩ := Option.map_eq_some_iff.mp hblock
        obtain ⟨-, hmember, hat', hpos, hmem, -⟩ := h.range hs
        obtain ⟨rfl, rfl⟩ : start = g.start ∧ o = g.allocOrder := by
          simpa using hat.symm.trans hat'
        obtain rfl := Option.some.inj (hblock.symm.trans (h.blockAt_eq hs))
        obtain ⟨-, hfit, -⟩ := hmember.geometry.tiled.run (Nat.zero_le _) hmem
        rw [← hmember.len_eq]
        simp only
        omega
    | none =>
        simp only [populatedBlockAt, hblock, hat, Option.map_some, Option.some.injEq] at hb
        subst hb
        exact ⟨le_rfl, le_rfl⟩
  have ho : o ≠ d.backing.sbOrder := by
    rintro rfl
    rw [Nat.sub_self, pow_zero] at hin hlt
    obtain ⟨hbi, hib, -⟩ := h.populated_spec hlen hb
    omega
  obtain ⟨hlow, hhigh⟩ := Backing.group_inside h.valid hlen hat ho
  exact ⟨hlow.trans (Backing.gpnOffsetToHva_mono hin.1),
    (Backing.gpnOffsetToHva_mono hin.2).trans hhigh⟩

/-- A new group is one block. -/
theorem descOrder_getGpadesc {id base : ℕ} {g : Group} (h : d.Inv) (hlen : idx < d.backing.gpaLen)
    (havail : d.available idx (some (id, base))) (hnone : (d.gpaDir idx).isSome = false)
    (hg : (d.getGpadesc idx (some (id, base))).group id = some g) (k : ℕ) :
    (g.gpa k).descOrder = g.allocOrder - d.backing.sbOrder := by
  obtain ⟨start, o, hat, -⟩ := Backing.groupAt_spec h.valid hlen
  simp only [available, hat, Bool.and_eq_true, Option.all_some, beq_iff_eq,
    Option.isNone_iff_eq_none] at havail
  obtain ⟨g', hnew, -⟩ := member_newGpadesc h hlen hat havail.2
  obtain ⟨r, -, rfl⟩ := Option.map_eq_some_iff.mp hnew
  rw [getGpadesc, if_neg (by rw [hnone]; exact Bool.false_ne_true)] at hg
  simp only [newGpadesc, hnew, if_neg (not_le.mpr hlen)] at hg
  split_ifs at hg
  · rw [havail.1] at hg
    cases hg
  · obtain rfl := Option.some.inj ((Function.update_self id _ d.group).symm.trans hg)
    rfl

/-- A group that is populated is the block that its slots had to find, and no other slot finds
another block. -/
theorem populated_getGpadesc {id base : ℕ} (h : d.Inv) (hlen : idx < d.backing.gpaLen)
    (havail : d.available idx (some (id, base))) :
    (d.getGpadesc idx (some (id, base))).blockAt idx = d.populatedBlockAt idx ∧
      ∀ i, (d.getGpadesc idx (some (id, base))).populatedBlockAt i = d.populatedBlockAt i := by
  cases hpop : (d.gpaDir idx).isSome with
  | true =>
      rw [getGpadesc, if_pos hpop]
      refine ⟨?_, fun _ => rfl⟩
      cases hb : d.blockAt idx with
      | some b => simp only [populatedBlockAt, hb]
      | none =>
          rw [(blockAt_eq_none h).mp hb] at hpop
          cases hpop
  | false =>
      have hinv := (kept_getGpadesc h havail).1.inv
      have hdesc := fun g => descOrder_getGpadesc (g := g) h hlen havail hpop
      rcases getGpadesc_spec h havail with ⟨-, hbad | hbad | hbad⟩ |
        ⟨id', base', g, hid, -, hfree, hg, hat, hempty, hle, hlt, heq⟩
      · rw [hpop] at hbad
        cases hbad
      · cases hbad
      · exact absurd hbad (not_le.mpr hlen)
      obtain ⟨rfl, rfl⟩ := Prod.mk.inj (Option.some.inj hid)
      rw [heq] at hinv hdesc ⊢
      obtain ⟨s₁, o₁, hat₁, -, -, hall⟩ := Backing.groupAt_spec h.valid hlen
      obtain ⟨rfl, rfl⟩ : s₁ = g.start ∧ o₁ = g.allocOrder := by simpa using hat₁.symm.trans hat
      rw [← hg.len_eq] at hall
      have hself : (d.install id g).group id = some g := Function.update_self ..
      have hin : ∀ i, g.start ≤ i → i < g.start + g.len →
          (d.install id g).blockAt i = d.populatedBlockAt i := by
        intro i hi hi'
        have hslot : (d.install id g).gpaAt i = some (⟨id, i - g.start⟩, g) :=
          gpaAt_eq_some.mpr ⟨install_inside ⟨hi, hi'⟩, hself⟩
        have hnone := (blockAt_eq_none h).mpr (hempty i hi hi')
        have hzero : alignDown (g.allocOrder - d.backing.sbOrder) (i - g.start) = 0 := by
          rw [alignDown, Nat.div_eq_of_lt (by rw [← hg.len_eq]; omega), Nat.zero_mul]
        rw [hinv.blockAt_eq hslot]
        simp only [hdesc g hself, hzero, Nat.add_zero, populatedBlockAt, hnone,
          (hall i hi hi').2, Option.map_some]
      refine ⟨hin idx hle hlt, fun i => ?_⟩
      by_cases hi : g.start ≤ i ∧ i < g.start + g.len
      · rw [← hin i hi.1 hi.2, populatedBlockAt]
        cases hb : (d.install id g).blockAt i with
        | some b => rfl
        | none =>
            rw [(blockAt_eq_none hinv), install_inside hi] at hb
            cases hb
      · have hsame : (d.install id g).gpaAt i = d.gpaAt i := by
          rw [gpaAt, gpaAt, install_outside hi]
          cases hdir : d.gpaDir i with
          | none => rfl
          | some t =>
              obtain ⟨-, g₀, hg₀, -⟩ := h.slot i t hdir
              have hne : t.group ≠ id := fun heq' => by rw [heq', hfree] at hg₀; cases hg₀
              simp only [Option.bind_some, install, Function.update_of_ne hne]
        simp only [populatedBlockAt, blockAt, hsame]
        rfl

end Directory

namespace MadvSpace

variable (s : MadvSpace) (populate : Bool)

/-- `emp_vmr_find_hva`. -/
def empVmrFindHva (addr : ℕ) : Option MadvVmr :=
  s.vmrs.find? fun v => v.vmStart ≤ addr && addr < v.vmEnd

/-- The index of a page in the directory of a vmdesc. -/
def indexOf (desc addr : ℕ) : ℕ := (s.desc desc).backing.indexOf addr

/-- The block of a slot; `populate` if the slot is populated first. -/
def lookup (desc idx : ℕ) : Option MadvBlock :=
  (if populate then (s.desc desc).populatedBlockAt idx else (s.desc desc).blockAt idx).map
    fun b => ⟨desc, b.1, b.2⟩

/-- The block of a page. -/
def blockAt (addr : ℕ) : Option MadvBlock :=
  (s.empVmrFindHva addr).bind fun v => s.lookup populate v.desc (s.indexOf v.desc addr)

/-- The subblock number of the head of a block in the address space. -/
def firstOf (b : MadvBlock) : ℕ := (s.desc b.desc).backing.sbStart + b.head

/-- What holds of the vmrs and the directories: each vmr views a part of its mapping, whose ends
are those of the mapping or have been made by splits, among the user addresses. -/
structure Inv : Prop where
  disjoint : ∀ v ∈ s.vmrs, ∀ w ∈ s.vmrs, v = w ∨ v.vmEnd ≤ w.vmStart ∨ w.vmEnd ≤ v.vmStart
  desc : ∀ v ∈ s.vmrs, (s.desc v.desc).Inv
  sbOrder : ∀ v ∈ s.vmrs, (s.desc v.desc).backing.sbOrder = s.sbOrder
  low : ∀ v ∈ s.vmrs, v.vmStart = (s.desc v.desc).backing.vmStart ∨
    (s.desc v.desc).backing.vmStart < v.vmStart ∧ (s.desc v.desc).CutAt v.vmStart
  high : ∀ v ∈ s.vmrs, v.vmEnd = (s.desc v.desc).backing.vmEnd ∨
    v.vmEnd < (s.desc v.desc).backing.vmEnd ∧ (s.desc v.desc).CutAt v.vmEnd
  user : ∀ v ∈ s.vmrs, v.vmEnd ≤ 2 ^ 44

variable {s populate} {v : MadvVmr} {b : MadvBlock} {addr idx desc c r : ℕ}

theorem mem_of_find (h : s.empVmrFindHva addr = some v) :
    v ∈ s.vmrs ∧ v.vmStart ≤ addr ∧ addr < v.vmEnd := by
  have hin : v.vmStart ≤ addr ∧ addr < v.vmEnd := by simpa using List.find?_some h
  exact ⟨List.mem_of_find?_eq_some h, hin⟩

/-- A page belongs to one vmr at most. -/
theorem Inv.find_eq (h : s.Inv) (hv : v ∈ s.vmrs) (hle : v.vmStart ≤ addr) (hlt : addr < v.vmEnd) :
    s.empVmrFindHva addr = some v := by
  have hsome : (s.empVmrFindHva addr).isSome := by
    rw [empVmrFindHva, List.find?_isSome]
    exact ⟨v, hv, by simp [hle, hlt]⟩
  obtain ⟨w, hw⟩ := Option.isSome_iff_exists.mp hsome
  obtain ⟨hmem, hle', hlt'⟩ := mem_of_find hw
  rcases h.disjoint w hmem v hv with rfl | hapart
  · exact hw
  · omega

theorem Inv.base_le (h : s.Inv) (hv : v ∈ s.vmrs) (hle : v.vmStart ≤ addr) :
    (s.desc v.desc).backing.vmBase ≤ addr := by
  have hbase := (s.desc v.desc).backing.vmBase_le
  rcases h.low v hv with heq | ⟨hlt, -⟩ <;> omega

theorem Inv.indexOf_lt (h : s.Inv) (hv : v ∈ s.vmrs) (hle : v.vmStart ≤ addr)
    (hlt : addr < v.vmEnd) : s.indexOf v.desc addr < (s.desc v.desc).backing.gpaLen := by
  refine Backing.indexOf_lt_gpaLen (h.base_le hv hle) ?_
  rcases h.high v hv with heq | ⟨hlt', -⟩ <;> omega

theorem lookup_eq (hb : s.lookup populate desc idx = some b) :
    b.desc = desc ∧ (s.desc desc).populatedBlockAt idx = some (b.head, b.size) := by
  rw [lookup] at hb
  obtain ⟨⟨k, n⟩, hat, rfl⟩ := Option.map_eq_some_iff.mp hb
  refine ⟨rfl, ?_⟩
  cases populate with
  | true => simpa using hat
  | false =>
      simp only [Bool.false_eq_true, if_false] at hat
      simp only [Directory.populatedBlockAt, hat]

theorem lookup_run (h : (s.desc desc).Inv) (hlen : idx < (s.desc desc).backing.gpaLen)
    (hb : s.lookup populate desc idx = some b) :
    b.head ≤ idx ∧ idx < b.head + b.size ∧
      ∀ j, b.head ≤ j → j < b.head + b.size → s.lookup populate desc j = some b := by
  rw [lookup] at hb
  obtain ⟨⟨k, n⟩, hat, rfl⟩ := Option.map_eq_some_iff.mp hb
  cases populate with
  | true =>
      obtain ⟨hle, hlt, hall⟩ := h.populated_spec hlen (b := (k, n)) (by simpa using hat)
      exact ⟨hle, hlt, fun j hj hj' => by rw [lookup, if_pos rfl, hall j hj hj', Option.map_some]⟩
  | false =>
      obtain ⟨hle, hlt, hall⟩ := h.block_spec (b := (k, n)) (by simpa using hat)
      refine ⟨hle, hlt, fun j hj hj' => ?_⟩
      rw [lookup, if_neg Bool.false_ne_true, hall j hj hj', Option.map_some]

/-- A block of several subblocks lies inside every vmr that views it. -/
theorem Inv.whole (h : s.Inv) (hv : v ∈ s.vmrs) (hle : v.vmStart ≤ addr) (hlt : addr < v.vmEnd)
    (hb : s.lookup populate v.desc (s.indexOf v.desc addr) = some b) (hsize : b.size ≠ 1) :
    v.vmStart ≤ (s.desc v.desc).backing.gpnOffsetToHva b.head ∧
      (s.desc v.desc).backing.gpnOffsetToHva (b.head + b.size) ≤ v.vmEnd := by
  have hinv := h.desc v hv
  have hbase := h.base_le hv hle
  have hlen := h.indexOf_lt hv hle hlt
  obtain ⟨-, hat⟩ := lookup_eq hb
  obtain ⟨hin, hin', -⟩ := lookup_run hinv hlen hb
  obtain ⟨hspec, hspec'⟩ := Backing.indexOf_spec hbase
  obtain ⟨hlow, hhigh⟩ := hinv.populated_inside hlen hat hsize
  have hfirst : (s.desc v.desc).backing.gpnOffsetToHva b.head ≤ addr :=
    (Backing.gpnOffsetToHva_mono hin).trans hspec
  have hlast : addr < (s.desc v.desc).backing.gpnOffsetToHva (b.head + b.size) :=
    hspec'.trans_le (Backing.gpnOffsetToHva_mono hin')
  refine ⟨?_, ?_⟩
  · rcases h.low v hv with heq | ⟨hcutlt, hcut⟩
    · exact heq ▸ hlow
    · have hcutbase := (s.desc v.desc).backing.vmBase_le
      rcases hcut.apart hinv (by omega) hlen hat hsize with hapart | hapart
      · simp only at hapart
        omega
      · exact hapart
  · rcases h.high v hv with heq | ⟨hcutlt, hcut⟩
    · exact heq ▸ hhigh
    · rcases hcut.apart hinv (by omega) hlen hat hsize with hapart | hapart
      · exact hapart
      · simp only at hapart
        omega

/-! ### Pages with the same offset in their subblocks -/

theorem Inv.hva_eq (h : s.Inv) (hv : v ∈ s.vmrs) (i : ℕ) :
    (s.desc v.desc).backing.gpnOffsetToHva i =
      ((s.desc v.desc).backing.sbStart + i) * 2 ^ s.sbOrder := by
  rw [Backing.gpnOffsetToHva, Backing.vmBase, h.sbOrder v hv, Nat.add_mul]

theorem Inv.indexOf_eq (h : s.Inv) (hv : v ∈ s.vmrs) (hr : r < 2 ^ s.sbOrder)
    (hle : v.vmStart ≤ c * 2 ^ s.sbOrder + r) :
    (s.desc v.desc).backing.sbStart ≤ c ∧
      s.indexOf v.desc (c * 2 ^ s.sbOrder + r) = c - (s.desc v.desc).backing.sbStart := by
  have hbase := h.base_le hv hle
  rw [Backing.vmBase, h.sbOrder v hv] at hbase
  have hstart : (s.desc v.desc).backing.sbStart ≤ c := by
    by_contra hlt
    have hmul := Nat.mul_le_mul_right (2 ^ s.sbOrder) (Nat.succ_le_of_lt (not_le.mp hlt))
    rw [Nat.succ_mul] at hmul
    omega
  refine ⟨hstart, ?_⟩
  have hsub : c * 2 ^ s.sbOrder + r - (s.desc v.desc).backing.sbStart * 2 ^ s.sbOrder =
      (c - (s.desc v.desc).backing.sbStart) * 2 ^ s.sbOrder + r := by
    have hmul := Nat.mul_le_mul_right (2 ^ s.sbOrder) hstart
    rw [Nat.sub_mul]
    omega
  rw [indexOf, Backing.indexOf, Backing.vmBase, h.sbOrder v hv, hsub,
    Nat.add_comm, Nat.add_mul_div_right _ _ (Nat.two_pow_pos _), Nat.div_eq_of_lt hr, Nat.zero_add]

theorem blockAt_eq_some : s.blockAt populate addr = some b ↔
    ∃ v, s.empVmrFindHva addr = some v ∧
      s.lookup populate v.desc (s.indexOf v.desc addr) = some b := by
  rw [blockAt, Option.bind_eq_some_iff]

/-- The blocks that the pages at offset `r` of their subblocks find. -/
def probeLine (h : s.Inv) (populate : Bool) (hr : r < 2 ^ s.sbOrder) : BlockLine MadvBlock where
  block c := s.blockAt populate (c * 2 ^ s.sbOrder + r)
  first := s.firstOf
  size := MadvBlock.size
  inside {c b} hb := by
    obtain ⟨v, hv, hat⟩ := blockAt_eq_some.mp hb
    obtain ⟨hmem, hle, hlt⟩ := mem_of_find hv
    obtain ⟨hstart, hidx⟩ := h.indexOf_eq hmem hr hle
    obtain ⟨hin, hin', -⟩ := lookup_run (h.desc v hmem) (h.indexOf_lt hmem hle hlt) hat
    rw [firstOf, (lookup_eq hat).1]
    omega
  run {c b} hb := by
    obtain ⟨v, hv, hat⟩ := blockAt_eq_some.mp hb
    obtain ⟨hmem, hle, hlt⟩ := mem_of_find hv
    obtain ⟨hstart, hidx⟩ := h.indexOf_eq hmem hr hle
    obtain ⟨hin, hin', hall⟩ := lookup_run (h.desc v hmem) (h.indexOf_lt hmem hle hlt) hat
    have hdesc := (lookup_eq hat).1
    intro j hj hj'
    rw [firstOf, hdesc] at hj hj'
    by_cases hsize : b.size = 1
    · have hjc : j = c := by omega
      rw [hjc]
      exact hb
    · obtain ⟨hlow, hhigh⟩ := h.whole hmem hle hlt hat hsize
      rw [h.hva_eq hmem] at hlow hhigh
      have hmul := Nat.mul_le_mul_right (2 ^ s.sbOrder) hj
      have hmul' := Nat.mul_le_mul_right (2 ^ s.sbOrder) (Nat.succ_le_of_lt hj')
      rw [Nat.succ_mul, Nat.add_assoc] at hmul'
      obtain ⟨-, hjidx⟩ := h.indexOf_eq (c := j) hmem hr (by omega)
      refine blockAt_eq_some.mpr ⟨v, h.find_eq hmem (by omega) (by omega), ?_⟩
      rw [hjidx]
      exact hall _ (by omega) (by omega)

end MadvSpace

end Emp
