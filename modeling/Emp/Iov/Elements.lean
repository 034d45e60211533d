import Emp.FreePages
import Emp.Iov.Marking

/-!
# Disk reads into guest memory

`handle_qiov_read` turns an element of the vector into a range of indexes of the directory: the
base and the length are rounded down to subblocks, and the base is a guest frame if memory regions
are registered.

## Main definitions

* `IoElement` — an element, in bytes.
* `GuestSpace.handleQiovRead` — the marking for an element.
* `GuestSpace.IoSafe`, `GuestSpace.IoFits` — the marked blocks lie in the element and the slots in
  its vmr, and when that is so.
-/

namespace Emp

/-- A `struct iovec`, in bytes. -/
structure IoElement where
  iovBase : ℕ
  iovLen : ℕ
  deriving DecidableEq, Repr

namespace GuestSpace

variable (w : GuestSpace)

/-- `__hva_to_gfn` of a byte. -/
def byteToGpn (v : MadvVmr) (hva : ℕ) : Option ℕ :=
  if w.regions = [] then some (hva / 4096 - v.vmStart)
  else (w.regions.find? fun r => r.hva ≤ hva && hva < r.hva + r.size).map
    fun r => (hva - r.hva + r.gpa) / 4096

/-- `io_gpa_idx`. -/
def ioGpaIdx (v : MadvVmr) (e : IoElement) : Option ℕ :=
  (w.byteToGpn v e.iovBase).map (· / 2 ^ w.space.sbOrder)

/-- `io_len`. -/
def ioLen (e : IoElement) : ℕ := e.iovLen / (2 ^ w.space.sbOrder * 4096)

/-- `handle_qiov_read` for an element, up to the faults on the marked blocks. -/
def handleQiovRead (block : ℕ → ℕ → IoBlock) (e : IoElement) (headsLen turns : ℕ) :
    Option IoRun :=
  if w.ioLen e = 0 then some ⟨[], []⟩
  else
    match w.space.empVmrFindHva (e.iovBase / 4096) with
    | none => some ⟨[], []⟩
    | some v =>
      match w.ioGpaIdx v e with
      | none => some ⟨[], []⟩
      | some idx =>
        (w.space.desc v.desc).markIoBlocks (block v.desc) idx (w.ioLen e) headsLen turns

/-- Every byte of a marked block lies in the element, and every slot that is read is one of the
vmr. -/
structure IoSafe (v : MadvVmr) (e : IoElement) (run : IoRun) : Prop where
  inside : ∀ b, b.desc = v.desc → b.head ∈ run.heads → ∀ p, w.space.blockAt false p = some b →
    e.iovBase ≤ p * 4096 ∧ (p + 1) * 4096 ≤ e.iovBase + e.iovLen
  within : ∀ i ∈ run.reads, (w.space.desc v.desc).backing.indexOf v.vmStart ≤ i ∧
    i < (w.space.desc v.desc).backing.indexEnd v.vmEnd

/-- The subblock of the index starts where the element does.  Where it starts in front of the
element, no page of a block that is marked does, and where it starts behind, no page of one lies
behind the element.  The slots that are read fit in the vmr. -/
structure IoFits (block : ℕ → ℕ → IoBlock) (v : MadvVmr) (e : IoElement) (headsLen idx : ℕ) :
    Prop where
  lower : (w.space.desc v.desc).backing.gpnOffsetToHva idx * 4096 < e.iovBase →
    ∀ b, b.desc = v.desc →
      (w.space.desc v.desc).IoMarked (block v.desc) idx (idx + w.ioLen e) headsLen b.head →
        ∀ p, w.space.blockAt false p = some b → e.iovBase ≤ p * 4096
  upper : e.iovBase < (w.space.desc v.desc).backing.gpnOffsetToHva idx * 4096 →
    ∀ b, b.desc = v.desc →
      (w.space.desc v.desc).IoMarked (block v.desc) idx (idx + w.ioLen e) headsLen b.head →
        ∀ p, w.space.blockAt false p = some b → (p + 1) * 4096 ≤ e.iovBase + e.iovLen
  first : (w.space.desc v.desc).backing.indexOf v.vmStart ≤ idx
  reads : (w.space.desc v.desc).ReadsFit idx (idx + w.ioLen e)
    ((w.space.desc v.desc).backing.indexEnd v.vmEnd)

end GuestSpace

namespace MadvSpace

variable {s : MadvSpace} {v : MadvVmr} {b : MadvBlock} {p : ℕ}

/-- The pages of a block lie between the ends of its subblocks. -/
theorem Inv.page_bounds (h : s.Inv) (hp : s.blockAt false p = some b) :
    (s.desc b.desc).backing.gpnOffsetToHva b.head ≤ p ∧
      p < (s.desc b.desc).backing.gpnOffsetToHva (b.head + b.size) := by
  obtain ⟨v, hv, hat⟩ := blockAt_eq_some.mp hp
  obtain ⟨hmem, hle, hlt⟩ := mem_of_find hv
  obtain ⟨hin, hin', -⟩ := lookup_run (h.desc v hmem) (h.indexOf_lt hmem hle hlt) hat
  obtain ⟨hspec, hspec'⟩ := Backing.indexOf_spec (h.base_le hmem hle)
  rw [(lookup_eq hat).1]
  exact ⟨(Backing.gpnOffsetToHva_mono hin).trans hspec,
    hspec'.trans_le (Backing.gpnOffsetToHva_mono hin')⟩

/-- The slots of a vmr are slots of the directory. -/
theorem Inv.indexEnd_le (h : s.Inv) (hv : v ∈ s.vmrs) :
    (s.desc v.desc).backing.indexEnd v.vmEnd ≤ (s.desc v.desc).backing.gpaLen := by
  have hend : v.vmEnd ≤ (s.desc v.desc).backing.vmEnd := by
    rcases h.high v hv with heq | ⟨hlt, -⟩
    · exact heq.le
    · exact hlt.le
  have hpos := Nat.two_pow_pos (s.desc v.desc).backing.sbOrder
  rw [Backing.indexEnd, Backing.gpaLen, Backing.sbEnd, Backing.vmBase]
  generalize (s.desc v.desc).backing.sbStart = start
  generalize 2 ^ (s.desc v.desc).backing.sbOrder = size at hpos ⊢
  rcases Nat.lt_or_ge v.vmEnd (start * size) with hlt | hge
  · rw [Nat.sub_eq_zero_of_le hlt.le, Nat.zero_add, Nat.div_eq_of_lt (Nat.sub_one_lt hpos.ne')]
    exact Nat.zero_le _
  · refine Nat.le_sub_of_add_le ?_
    rw [← Nat.add_mul_div_right _ _ hpos]
    exact Nat.div_le_div_right (by omega)

end MadvSpace

namespace GuestSpace

variable {w : GuestSpace} {block : ℕ → ℕ → IoBlock} {v : MadvVmr} {e : IoElement}
  {headsLen idx : ℕ} {run : IoRun}

/-- What an element marks is safe if it fits. -/
theorem ioSafe_iff_of_marking (h : w.space.Inv) (hv : v ∈ w.space.vmrs)
    (hmark : (w.space.desc v.desc).IoMarking (block v.desc) idx (idx + w.ioLen e) headsLen run) :
    w.IoSafe v e run ↔ w.IoFits block v e headsLen idx := by
  have hbytes : (w.space.desc v.desc).backing.gpnOffsetToHva (idx + w.ioLen e) * 4096 ≤
      (w.space.desc v.desc).backing.gpnOffsetToHva idx * 4096 + e.iovLen := by
    have hlen := Nat.div_mul_le_self e.iovLen (2 ^ w.space.sbOrder * 4096)
    rw [← Nat.mul_assoc] at hlen
    simp only [Backing.gpnOffsetToHva, h.sbOrder v hv, ioLen, Nat.add_mul]
    rw [← Nat.add_assoc]
    exact Nat.add_le_add_left hlen _
  have hend := h.indexEnd_le hv
  -- a marked block lies between the index and the end of the range
  have hbounds : ∀ b, b.desc = v.desc → b.head ∈ run.heads → ∀ p, w.space.blockAt false p = some b →
      (w.space.desc v.desc).backing.gpnOffsetToHva idx ≤ p ∧
        p < (w.space.desc v.desc).backing.gpnOffsetToHva (idx + w.ioLen e) := by
    intro b hb hhead p hp
    obtain ⟨hge, -, c, hc, hck, j, hj, hcj, -⟩ :=
      Directory.markable_iff.mp ((hmark.heads _).mp hhead).1
    obtain ⟨hlow, hhigh⟩ := h.page_bounds hp
    have hsize : c = (b.head, b.size) := by
      obtain ⟨u, hu, hat⟩ := MadvSpace.blockAt_eq_some.mp hp
      obtain ⟨hmem, hle, hlt⟩ := MadvSpace.mem_of_find hu
      obtain ⟨hin, hin', hall⟩ :=
        MadvSpace.lookup_run (h.desc u hmem) (h.indexOf_lt hmem hle hlt) hat
      have hself := hall b.head le_rfl (by omega)
      rw [← (MadvSpace.lookup_eq hat).1, hb] at hself
      simp only [MadvSpace.lookup, Bool.false_eq_true, if_false, hc, Option.map_some,
        Option.some.injEq] at hself
      rw [← hself]
    rw [hb] at hlow hhigh
    subst hsize
    exact ⟨(Backing.gpnOffsetToHva_mono hge).trans hlow,
      hhigh.trans_le (Backing.gpnOffsetToHva_mono (hcj.trans hj))⟩
  refine ⟨fun hsafe => ⟨fun _ b hb hk p hp => ?_, fun _ b hb hk p hp => ?_, ?_, ?_⟩,
    fun hfits => ⟨fun b hb hk p hp => ?_, fun i hi => ?_⟩⟩
  · exact (hsafe.inside b hb ((hmark.heads _).mpr hk) p hp).1
  · exact (hsafe.inside b hb ((hmark.heads _).mpr hk) p hp).2
  · exact (hsafe.within idx hmark.first).1
  · exact (hmark.fit _ hend).mp fun i hi => (hsafe.within i hi).2
  · obtain ⟨hlow, hhigh⟩ := hbounds b hb hk p hp
    have hmarked := (hmark.heads _).mp hk
    have hfirst := Nat.mul_le_mul_right 4096 hlow
    have hlast := (Nat.mul_le_mul_right 4096 hhigh).trans hbytes
    rcases Nat.lt_trichotomy ((w.space.desc v.desc).backing.gpnOffsetToHva idx * 4096) e.iovBase
      with hlt | heq | hgt
    · exact ⟨hfits.lower hlt b hb hmarked p hp, hlast.trans (Nat.add_le_add_right hlt.le _)⟩
    · exact ⟨heq.ge.trans hfirst, hlast.trans (Nat.add_le_add_right heq.le _)⟩
    · exact ⟨hgt.le.trans hfirst, hfits.upper hgt b hb hmarked p hp⟩
  · exact ⟨hfits.first.trans (hmark.low i hi), (hmark.fit _ hend).mpr hfits.reads i hi⟩

/-- Every element is handled.  Each block that is marked lies in the element, and each slot that is
read in its vmr, if and only if the element fits. -/
theorem ioSafe_iff_fits (h : w.space.Inv) (block : ℕ → ℕ → IoBlock) (e : IoElement)
    (hroom : 0 < headsLen) :
    ∃ enough, ∀ turns, enough ≤ turns → ∃ run,
      w.handleQiovRead block e headsLen turns = some run ∧
        ((∀ v, w.space.empVmrFindHva (e.iovBase / 4096) = some v → w.IoSafe v e run) ↔
          ∀ v idx, w.space.empVmrFindHva (e.iovBase / 4096) = some v → 0 < w.ioLen e →
            w.ioGpaIdx v e = some idx → w.IoFits block v e headsLen idx) := by
  have hempty : ∀ v, w.IoSafe v e ⟨[], []⟩ := fun v => ⟨nofun, nofun⟩
  by_cases hlen : w.ioLen e = 0
  · refine ⟨0, fun turns _ => ⟨⟨[], []⟩, by rw [handleQiovRead, if_pos hlen],
      iff_of_true (fun v _ => hempty v) fun v idx _ hpos => absurd hlen hpos.ne'⟩⟩
  · cases hv : w.space.empVmrFindHva (e.iovBase / 4096) with
    | none =>
        refine ⟨0, fun turns _ => ⟨⟨[], []⟩, ?_, iff_of_true nofun nofun⟩⟩
        simp only [handleQiovRead, if_neg hlen, hv]
    | some v =>
        cases hidx : w.ioGpaIdx v e with
        | none =>
            refine ⟨0, fun turns _ => ⟨⟨[], []⟩, ?_, iff_of_true (fun v _ => hempty v) ?_⟩⟩
            · simp only [handleQiovRead, if_neg hlen, hv, hidx]
            · intro u idx hu _ hu'
              obtain rfl := Option.some.inj hu
              exact nomatch hidx.symm.trans hu'
        | some idx =>
            have hmem := (MadvSpace.mem_of_find hv).1
            obtain ⟨enough, hall⟩ := Directory.markIoBlocks_spec (h.desc v hmem) (block v.desc) idx
              (Nat.pos_of_ne_zero hlen) hroom
            refine ⟨enough, fun turns hturns => ?_⟩
            obtain ⟨run, hrun, hmark⟩ := hall turns hturns
            have hiff := ioSafe_iff_of_marking h hmem hmark
            refine ⟨run, ?_, fun hsafe u i hu _ hi => ?_, fun hfits u hu => ?_⟩
            · simp only [handleQiovRead, if_neg hlen, hv, hidx, hrun]
            · obtain rfl := Option.some.inj hu
              obtain rfl := Option.some.inj (hidx.symm.trans hi)
              exact hiff.mp (hsafe _ rfl)
            · obtain rfl := Option.some.inj hu
              exact hiff.mpr (hfits _ _ rfl (Nat.pos_of_ne_zero hlen) hidx)

/-- A guest without registered regions, with a block of eight subblocks and one behind it. -/
def twoBlocks : GuestSpace :=
  ⟨⟨2, [⟨16, 80, 0⟩], fun _ =>
    (Directory.untouched.getGpadesc 4 (some (0, 1024))).getGpadesc 12 (some (1, 4096))⟩,
    fun _ => none, []⟩

theorem inv_twoBlocks : twoBlocks.space.Inv := by
  have hstart : Directory.Start Directory.untouched :=
    ⟨⟨by decide, by decide⟩, by decide, fun _ => rfl, fun _ => rfl, rfl⟩
  have hfirst : (Directory.untouched.getGpadesc 4 (some (0, 1024))).Inv :=
    (Directory.kept_getGpadesc (Directory.inv_of_reach (.start hstart)) (by decide)).1.inv
  have hinv : ((Directory.untouched.getGpadesc 4 (some (0, 1024))).getGpadesc 12
      (some (1, 4096))).Inv :=
    (Directory.kept_getGpadesc hfirst (by decide)).1.inv
  refine ⟨fun v hv u hu => ?_, fun _ _ => hinv, fun _ _ => rfl, fun v hv => ?_, fun v hv => ?_,
    fun v hv => ?_⟩
  · rw [List.mem_singleton.mp hv, List.mem_singleton.mp hu]
    exact .inl rfl
  · rw [List.mem_singleton.mp hv]
    exact .inl rfl
  · rw [List.mem_singleton.mp hv]
    exact .inl rfl
  · rw [List.mem_singleton.mp hv]
    decide

/-- A remote block that nobody holds. -/
def remoteIdle : IoBlock := ⟨.init, true, false⟩

/-- Nine subblocks from the second page of the large block on. -/
theorem ioSafe_iff_fits_twoBlocks : ∃ enough, ∀ turns, enough ≤ turns → ∃ run,
    twoBlocks.handleQiovRead (fun _ _ => remoteIdle) ⟨135168, 147456⟩ 92 turns = some run ∧
      ((∀ v, twoBlocks.space.empVmrFindHva (135168 / 4096) = some v →
          twoBlocks.IoSafe v ⟨135168, 147456⟩ run) ↔
        ∀ v idx, twoBlocks.space.empVmrFindHva (135168 / 4096) = some v →
          0 < twoBlocks.ioLen ⟨135168, 147456⟩ →
            twoBlocks.ioGpaIdx v ⟨135168, 147456⟩ = some idx →
              twoBlocks.IoFits (fun _ _ => remoteIdle) v ⟨135168, 147456⟩ 92 idx) :=
  ioSafe_iff_fits inv_twoBlocks (fun _ _ => remoteIdle) ⟨135168, 147456⟩ (by decide)

/-- The element does not hold the first page of the block that is marked; and for one that holds
all pages up to the end of the vmr, the slot behind the directory is read. -/
theorem not_ioSafe_twoBlocks :
    (∃ run, twoBlocks.handleQiovRead (fun _ _ => remoteIdle) ⟨135168, 147456⟩ 92 40 = some run ∧
      run.heads = [4] ∧ ¬ twoBlocks.IoSafe ⟨16, 80, 0⟩ ⟨135168, 147456⟩ run) ∧
    ∃ run, twoBlocks.handleQiovRead (fun _ _ => remoteIdle) ⟨131072, 196608⟩ 92 40 = some run ∧
      16 ∈ run.reads ∧ ¬ twoBlocks.IoSafe ⟨16, 80, 0⟩ ⟨131072, 196608⟩ run := by
  have hhalf : (twoBlocks.handleQiovRead (fun _ _ => remoteIdle) ⟨135168, 147456⟩ 92 40).map
      IoRun.heads = some [4] := by decide
  have hbehind : (twoBlocks.handleQiovRead (fun _ _ => remoteIdle) ⟨131072, 196608⟩ 92 40).map
      (fun run => decide (16 ∈ run.reads)) = some true := by decide
  refine ⟨?_, ?_⟩
  · obtain ⟨run, hrun, hheads⟩ := Option.map_eq_some_iff.mp hhalf
    refine ⟨run, hrun, hheads, fun hsafe => ?_⟩
    have hinside := hsafe.inside ⟨0, 4, 8⟩ rfl (by rw [hheads]; exact List.mem_singleton_self 4) 32
      (by decide)
    exact absurd hinside.1 (by decide)
  · obtain ⟨run, hrun, hreads⟩ := Option.map_eq_some_iff.mp hbehind
    have hmem : 16 ∈ run.reads := of_decide_eq_true hreads
    refine ⟨run, hrun, hmem, fun hsafe => ?_⟩
    exact absurd (hsafe.within 16 hmem).2 (by decide)

end GuestSpace

end Emp
