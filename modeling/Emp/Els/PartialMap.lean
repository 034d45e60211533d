import Emp.Els.Directory

/-!
# The part of a subblock that a vmr maps

A mapping may begin or end inside a subblock, and a vma split cuts one.  What a vmr maps of such a
subblock is given by an offset and a length in pages; faults, unmaps and the RSS all go by these.

Addresses have 64 bits, offsets and lengths 32.

## Main definitions

* `VmrRange.partialGpaLenOff` — the length and the offset.
* `VmrRange.newHalf`, `empVmaSplit` — the two vmrs of a split.
* `VmrRange.Maps`, `Sees` — the pages that the numbers name, and those that the vmr has.

The directory counts in pages (`Backing.gpaToHvaLenOff`); `gpaToHvaLenOff_words` says that its
numbers are those of the machine words.
-/

namespace Emp

/-- `PAGE_SHIFT`. -/
def pageShift : ℕ := 12

/-- The addresses of a vmr. -/
structure VmrRange where
  vmStart : ℕ
  vmEnd : ℕ
  deriving DecidableEq, Repr

namespace VmrRange

variable (v : VmrRange)

/-- `____partial_gpa_len_off` for the subblock at `hva`. -/
def partialGpaLenOff (order hva : ℕ) : ℕ × ℕ :=
  let finish := (hva + (1 <<< pageShift) <<< order) % 2 ^ 64
  let off := if hva < v.vmStart then ((v.vmStart - hva) >>> pageShift) % 2 ^ 32 else 0
  let len := if hva < v.vmStart then (1 <<< order + 2 ^ 32 - off) % 2 ^ 32 else 1 <<< order
  let cut := ((finish - v.vmEnd) >>> pageShift) % 2 ^ 32
  (if v.vmEnd < finish then (len + 2 ^ 32 - cut) % 2 ^ 32 else len, off)

/-- The vma that a split at `addr` makes has the lower or the upper half. -/
def newHalf (addr : ℕ) (newBelow : Bool) : VmrRange :=
  if newBelow then ⟨v.vmStart, addr⟩ else ⟨addr, v.vmEnd⟩

/-- What `__emp_vma_split` leaves to the old vmr. -/
def empVmaSplit (new : VmrRange) : VmrRange :=
  if v.vmStart = new.vmStart then { v with vmStart := new.vmEnd }
  else { v with vmEnd := new.vmStart }

/-- A mapping of whole pages, with room for a subblock behind it. -/
structure Paged : Prop where
  start : 2 ^ pageShift ∣ v.vmStart
  finish : 2 ^ pageShift ∣ v.vmEnd
  lt : v.vmStart < v.vmEnd
  room : v.vmEnd + 2 ^ 32 ≤ 2 ^ 64

/-- The subblock at `hva` has pages of the vmr. -/
structure Meets (order hva : ℕ) : Prop where
  aligned : 2 ^ pageShift ∣ hva
  below : hva < v.vmEnd
  above : v.vmStart < hva + 2 ^ (pageShift + order)

/-- The offset and the length name the page `k`. -/
def Maps (order hva k : ℕ) : Prop :=
  (v.partialGpaLenOff order hva).2 ≤ k ∧
    k < (v.partialGpaLenOff order hva).2 + (v.partialGpaLenOff order hva).1

/-- The page at `addr` lies in the vmr. -/
def Sees (addr : ℕ) : Prop := v.vmStart ≤ addr ∧ addr + 2 ^ pageShift ≤ v.vmEnd

variable {v} {order hva : ℕ}

/-- A difference of 32 bits that does not wrap. -/
theorem add_two_pow_sub_mod {a b : ℕ} (hb : b ≤ a) (ha : a < 2 ^ 32) :
    (a + 2 ^ 32 - b) % 2 ^ 32 = a - b := by
  rw [Nat.sub_add_comm hb, Nat.add_mod_right, Nat.mod_eq_of_lt ((Nat.sub_le _ _).trans_lt ha)]

/-- The numbers in pages: nothing wraps. -/
theorem partialGpaLenOff_pages {s e h n : ℕ} (hn : n = 2 ^ order) (hs : s < e) (hh : h < e)
    (hlow : s < h + n) (horder : n * 4096 < 2 ^ 31) (hroom : e * 4096 + 2 ^ 32 ≤ 2 ^ 64) :
    partialGpaLenOff ⟨s * 4096, e * 4096⟩ order (h * 4096) =
      (n - (s - h) - (h + n - e), s - h) := by
  have hsize : (1 <<< pageShift) <<< order = n * 4096 := by
    rw [Nat.shiftLeft_eq, ← hn, pageShift, Nat.mul_comm]
    rfl
  have hone : 1 <<< order = n := by rw [Nat.shiftLeft_eq, Nat.one_mul, hn]
  have hend : (h * 4096 + n * 4096) % 2 ^ 64 = (h + n) * 4096 := by omega
  have hoff : (if h * 4096 < s * 4096 then ((s * 4096 - h * 4096) / 2 ^ 12) % 2 ^ 32 else 0) =
      s - h := by
    split_ifs <;> omega
  have hlen : (if h * 4096 < s * 4096 then (n + 2 ^ 32 - (s - h)) % 2 ^ 32 else n) =
      n - (s - h) := by
    split_ifs with hlt
    · exact add_two_pow_sub_mod (by omega) (by omega)
    · omega
  have hcut : (((h + n) * 4096 - e * 4096) / 2 ^ 12) % 2 ^ 32 = h + n - e := by omega
  have hboth : (if e * 4096 < (h + n) * 4096 then (n - (s - h) + 2 ^ 32 - (h + n - e)) % 2 ^ 32
      else n - (s - h)) = n - (s - h) - (h + n - e) := by
    split_ifs with hlt
    · exact add_two_pow_sub_mod (by omega) (by omega)
    · omega
  unfold partialGpaLenOff
  rw [hsize, hend, hone]
  simp only [Nat.shiftRight_eq_div_pow, pageShift, hoff, hlen, hcut]
  exact Prod.ext hboth rfl

/-- **The numbers name the pages of the subblock that lie in the vmr.** -/
theorem maps_iff (hv : v.Paged) (hm : v.Meets order hva)
    (hint : (1 <<< pageShift) <<< order < 2 ^ 31) :
    (v.partialGpaLenOff order hva).2 + (v.partialGpaLenOff order hva).1 ≤ 2 ^ order ∧
      ∀ k, v.Maps order hva k ↔ k < 2 ^ order ∧ v.Sees (hva + k * 2 ^ pageShift) := by
  obtain ⟨s, hs⟩ := hv.start
  obtain ⟨e, he⟩ := hv.finish
  obtain ⟨h, rfl⟩ := hm.aligned
  obtain ⟨vmStart, vmEnd⟩ := v
  obtain ⟨n, hn⟩ : ∃ n, n = 2 ^ order := ⟨_, rfl⟩
  have hlt := hv.lt
  have hroom := hv.room
  have hbelow := hm.below
  have habove := hm.above
  simp only [pageShift, Nat.shiftLeft_eq, Nat.pow_add, ← hn] at hs he hlt hroom hbelow habove hint
  subst hs he
  have hnum := partialGpaLenOff_pages hn (s := s) (e := e) (h := h) (by omega) (by omega)
    (by omega) (by omega) (by omega)
  have hcomm : ∀ x : ℕ, 2 ^ 12 * x = x * 4096 := fun x => by omega
  unfold Maps Sees
  simp only [pageShift, hcomm, hnum, ← hn]
  exact ⟨by omega, fun k => by omega⟩

/-- The numbers of a subblock that a split cuts: each half maps its own pages, and together they
map what was mapped before. -/
theorem partialGpaLenOff_exact (hv : v.Paged) (hm : v.Meets order hva)
    (hint : (1 <<< pageShift) <<< order < 2 ^ 31) :
    (v.partialGpaLenOff order hva).2 + (v.partialGpaLenOff order hva).1 ≤ 2 ^ order ∧
      (∀ k, v.Maps order hva k ↔ k < 2 ^ order ∧ v.Sees (hva + k * 2 ^ pageShift)) ∧
        ∀ addr newBelow, 2 ^ pageShift ∣ addr → v.vmStart < addr → addr < v.vmEnd →
          hva < addr → addr < hva + 2 ^ (pageShift + order) → ∀ k,
            ¬ ((v.newHalf addr newBelow).Maps order hva k ∧
              (v.empVmaSplit (v.newHalf addr newBelow)).Maps order hva k) ∧
            (v.Maps order hva k ↔ (v.newHalf addr newBelow).Maps order hva k ∨
              (v.empVmaSplit (v.newHalf addr newBelow)).Maps order hva k) := by
  obtain ⟨hle, hmaps⟩ := maps_iff hv hm hint
  refine ⟨hle, hmaps, fun addr newBelow haddr hlow hhigh hin hout k => ?_⟩
  have hlower : Paged ⟨v.vmStart, addr⟩ := ⟨hv.start, haddr, hlow, by
    have hroom := hv.room
    show addr + 2 ^ 32 ≤ 2 ^ 64
    omega⟩
  have hupper : Paged ⟨addr, v.vmEnd⟩ := ⟨haddr, hv.finish, hhigh, hv.room⟩
  have hmaps1 := (maps_iff hlower ⟨hm.aligned, hin, hm.above⟩ hint).2 k
  have hmaps2 := (maps_iff hupper ⟨hm.aligned, hm.below, hout⟩ hint).2 k
  have hold := hmaps k
  -- a page of the subblock lies on one side
  have hside : ¬ (hva + k * 2 ^ pageShift < addr ∧
      addr < hva + k * 2 ^ pageShift + 2 ^ pageShift) := by
    obtain ⟨a, rfl⟩ := haddr
    obtain ⟨h, rfl⟩ := hm.aligned
    simp only [pageShift]
    omega
  unfold Sees at hmaps1 hmaps2 hold
  simp only at hmaps1 hmaps2
  have hpos : 0 < 2 ^ pageShift := Nat.two_pow_pos _
  cases newBelow with
  | true =>
      have hprev : v.empVmaSplit (v.newHalf addr true) = ⟨addr, v.vmEnd⟩ := by
        simp [empVmaSplit, newHalf]
      rw [hprev, hold, hmaps2, show v.newHalf addr true = ⟨v.vmStart, addr⟩ from rfl, hmaps1]
      constructor <;> omega
  | false =>
      have hprev : v.empVmaSplit (v.newHalf addr false) = ⟨v.vmStart, addr⟩ := by
        simp [empVmaSplit, newHalf, Nat.ne_of_lt hlow]
      rw [hprev, hold, hmaps1, show v.newHalf addr false = ⟨addr, v.vmEnd⟩ from rfl, hmaps2]
      constructor <;> omega

/-- Three pages of a subblock of four are mapped, and a split takes the first of them. -/
theorem partialGpaLenOff_exact_four :
    ¬ ((newHalf ⟨0x5000, 0x13000⟩ 0x6000 true).Maps 2 0x4000 1 ∧
        (empVmaSplit ⟨0x5000, 0x13000⟩ (newHalf ⟨0x5000, 0x13000⟩ 0x6000 true)).Maps 2 0x4000 1) ∧
      (Maps ⟨0x5000, 0x13000⟩ 2 0x4000 1 ↔
        (newHalf ⟨0x5000, 0x13000⟩ 0x6000 true).Maps 2 0x4000 1 ∨
          (empVmaSplit ⟨0x5000, 0x13000⟩
            (newHalf ⟨0x5000, 0x13000⟩ 0x6000 true)).Maps 2 0x4000 1) :=
  (partialGpaLenOff_exact ⟨by decide, by decide, by decide, by decide⟩
    ⟨by decide, by decide, by decide⟩ (by decide)).2.2 0x6000 true (by decide) (by decide)
    (by decide) (by decide) (by decide) 1

/-- The numbers of the directory, which counts in pages, are those of the machine words. -/
theorem gpaToHvaLenOff_words {m : Backing} {vma : Vma} {idx : ℕ} (hlt : vma.vmStart < vma.vmEnd)
    (hbelow : m.gpnOffsetToHva idx < vma.vmEnd)
    (habove : vma.vmStart < m.gpnOffsetToHva idx + 2 ^ m.sbOrder)
    (hint : 2 ^ m.sbOrder * 4096 < 2 ^ 31) (hroom : vma.vmEnd * 4096 + 2 ^ 32 ≤ 2 ^ 64) :
    partialGpaLenOff ⟨vma.vmStart * 4096, vma.vmEnd * 4096⟩ m.sbOrder
      (m.gpnOffsetToHva idx * 4096) = (m.gpaToHvaLenOff vma true idx).2 := by
  rw [partialGpaLenOff_pages rfl hlt hbelow habove hint hroom]
  have hoff : (if m.gpnOffsetToHva idx < vma.vmStart then vma.vmStart - m.gpnOffsetToHva idx
      else 0) = vma.vmStart - m.gpnOffsetToHva idx := by
    split_ifs <;> omega
  unfold Backing.gpaToHvaLenOff
  simp only [if_true, hoff]
  generalize 2 ^ m.sbOrder = n
  have hlen : n - (vma.vmStart - m.gpnOffsetToHva idx) - (m.gpnOffsetToHva idx + n - vma.vmEnd) =
      if vma.vmEnd < m.gpnOffsetToHva idx + n then
        n - (vma.vmStart - m.gpnOffsetToHva idx) - (m.gpnOffsetToHva idx + n - vma.vmEnd)
      else n - (vma.vmStart - m.gpnOffsetToHva idx) := by
    split_ifs <;> omega
  exact Prod.ext hlen rfl

end VmrRange

end Emp
